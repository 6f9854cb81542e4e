import Mathlib.Data.Rat.Defs
import Mathlib.Algebra.Order.Ring.Rat
import Mathlib.Data.List.Basic
import Mathlib.Tactic.Ring
import PaperTrading.Lib.Ran

/-!
# The paper broker

`brokers/paper.py`: a cash account with several open lots per ticker, taker
fee and slippage on every fill. Amounts are exact rationals; the code's floats
are rationals, and what the development says about sums and products is said
of the exact ones.

A sell order names a ticker, not a lot. `placeOrder` therefore serves it from
the first lot of that ticker, and `closeLot`, which is meant to close one
specific lot, goes through it. `Broker/Sell.lean` says what that does.
-/

namespace PaperTrading.Broker

/-- A trading pair such as `"BTC/USDT"`. -/
abbrev Ticker := String

/-- The taker fee, 0.1%. -/
def TAKER_FEE : ℚ := 1 / 1000

/-- The slippage, 2 bps. -/
def SLIPPAGE : ℚ := 2 / 10000

/-- Quantities this small are taken for zero (`1e-9` in `place_order`). -/
def DUST : ℚ := 1 / 1000000000

/-- The exceptions the broker can raise. -/
inductive PyError where
  /-- `ValueError("paper buy needs a stop_loss")` -/
  | needsStopLoss
  /-- `ValueError(f"no open position to sell {ticker}")` -/
  | noOpenPosition (ticker : Ticker)
  /-- `ValueError(f"sell {quantity} > held {held} for {ticker}")` -/
  | oversell (quantity held : ℚ) (ticker : Ticker)
  /-- `TypeError`: a quantity times a price that is `None` -/
  | unpriced (ticker : Ticker)
deriving DecidableEq, Repr

inductive Side where
  | buy
  | sell
deriving DecidableEq, Repr

/-- An executed fill. -/
structure Fill where
  ticker : Ticker
  side : Side
  quantity : ℚ
  price : ℚ
  fee : ℚ := 0
deriving DecidableEq, Repr

structure Order where
  ticker : Ticker
  side : Side
  quantity : ℚ
  /-- reference price at decision time -/
  price : ℚ
  stopLoss : Option ℚ := none
  condition : String := ""
deriving DecidableEq, Repr

/-- One open lot: a single entry with its own stop. -/
structure OpenPosition where
  lotId : ℕ
  ticker : Ticker
  quantity : ℚ
  entryPrice : ℚ
  stopLoss : ℚ
  entryFee : ℚ
  entryCondition : String := ""
deriving DecidableEq, Repr

/-- `PaperBroker`. `nextLot` is the class attribute `_next_lot`: a broker
built later in the same process starts where this one left it. -/
structure PaperBroker where
  cash : ℚ
  takerFee : ℚ := TAKER_FEE
  slippage : ℚ := SLIPPAGE
  lots : List OpenPosition := []
  fills : List Fill := []
  nextLot : ℕ := 1
deriving DecidableEq, Repr

/-- A price dict: `none` where the key is missing, `some none` where the key
is there with the value `None` (a fetch that failed). -/
abbrev PriceMap := Ticker → Option (Option ℚ)

/-- `prices.get(ticker)`: missing and `None` read the same. -/
def PriceMap.get (px : PriceMap) (t : Ticker) : Option ℚ := (px t).join

/-- What selling `quantity` out of `target`, the first lot of its ticker,
leaves of the list: `remove` drops the first lot equal to the target, which is
the target itself, and the in-place update rewrites its quantity. -/
def sellFrom (lots : List OpenPosition) (target : OpenPosition) (quantity : ℚ) :
    List OpenPosition :=
  if target.quantity - quantity ≤ DUST then lots.erase target
  else lots.replace target { target with quantity := target.quantity - quantity }

namespace PaperBroker

/-! ## Account view -/

/-- The value of one lot in `equity`: its own entry price stands in for a
missing key, but not for a key whose value is `None`. -/
def markValue (px : PriceMap) (p : OpenPosition) : Except PyError ℚ :=
  match px p.ticker with
  | none => .ok (p.quantity * p.entryPrice)
  | some (some v) => .ok (p.quantity * v)
  | some none => .error (.unpriced p.ticker)

/-- The `sum` over the lots, left to right; the first `None` raises. -/
def positionValue (px : PriceMap) : List OpenPosition → Except PyError ℚ
  | [] => .ok 0
  | p :: ps =>
    match markValue px p with
    | .error e => .error e
    | .ok v =>
      match positionValue px ps with
      | .error e => .error e
      | .ok rest => .ok (v + rest)

def equity (b : PaperBroker) (px : PriceMap) : Except PyError ℚ :=
  match positionValue px b.lots with
  | .error e => .error e
  | .ok v => .ok (b.cash + v)

def quantity (b : PaperBroker) (t : Ticker) : ℚ :=
  ((b.lots.filter fun p => p.ticker = t).map (·.quantity)).sum

def hasPosition (b : PaperBroker) (t : Ticker) : Bool := b.lots.any fun p => p.ticker = t

def lotsFor (b : PaperBroker) (t : Ticker) : List OpenPosition :=
  b.lots.filter fun p => p.ticker = t

/-! ## Orders -/

/-- The price an order fills at, on the worse side of the reference. -/
def fillPrice (b : PaperBroker) (side : Side) (base : ℚ) : ℚ :=
  match side with
  | .buy => base * (1 + b.slippage)
  | .sell => base * (1 - b.slippage)

/-- The fill `place_order` reports for an order at reference price `base`. -/
def fillFor (b : PaperBroker) (o : Order) (base : ℚ) : Fill :=
  { ticker := o.ticker, side := o.side, quantity := o.quantity
    price := b.fillPrice o.side base
    fee := o.quantity * b.fillPrice o.side base * b.takerFee }

/-- The lot a buy opens. -/
def boughtLot (b : PaperBroker) (o : Order) (stop base : ℚ) : OpenPosition :=
  { lotId := b.nextLot, ticker := o.ticker, quantity := o.quantity
    entryPrice := b.fillPrice .buy base, stopLoss := stop
    entryFee := o.quantity * b.fillPrice .buy base * b.takerFee
    entryCondition := o.condition }

/-- `place_order`. Every check is made before anything is written, so an
exception leaves the broker as it was. -/
def placeOrder (b : PaperBroker) (o : Order) (marketPrice : Option ℚ := none) :
    Except PyError (PaperBroker × Fill) :=
  let base := marketPrice.getD o.price
  let fill := b.fillFor o base
  let notional := o.quantity * fill.price
  match o.side with
  | .buy =>
    match o.stopLoss with
    | none => .error .needsStopLoss
    | some stop =>
      .ok ({ b with
              lots := b.lots ++ [b.boughtLot o stop base]
              nextLot := b.nextLot + 1
              cash := b.cash - (notional + fill.fee)
              fills := b.fills ++ [fill] }, fill)
  | .sell =>
    match b.lots.find? (fun p => p.ticker = o.ticker) with
    | none => .error (.noOpenPosition o.ticker)
    | some target =>
      if o.quantity > target.quantity + DUST then
        .error (.oversell o.quantity target.quantity o.ticker)
      else
        .ok ({ b with
                cash := b.cash + (notional - fill.fee)
                lots := sellFrom b.lots target o.quantity
                fills := b.fills ++ [fill] }, fill)

/-- `close_lot`: "fully close one specific lot" through a sell order. -/
def closeLot (b : PaperBroker) (lot : OpenPosition) (marketPrice : ℚ) :
    Except PyError (PaperBroker × Fill) :=
  b.placeOrder { ticker := lot.ticker, side := .sell, quantity := lot.quantity
                 price := marketPrice } (some marketPrice)

/-- One turn of the loop in `check_stops`. -/
def checkStop (px : PriceMap) (b : PaperBroker) (lot : OpenPosition) :
    Lib.Ran PyError PaperBroker :=
  match px.get lot.ticker with
  | none => .ok b
  | some cur =>
    if cur ≤ lot.stopLoss then
      match b.closeLot lot cur with
      | .error e => .raise e b
      | .ok (b', _) => .ok b'
    else .ok b

/-- `check_stops`, over a copy of the lots as they were at the call. -/
def checkStops (b : PaperBroker) (px : PriceMap) : Lib.Ran PyError PaperBroker :=
  Lib.Ran.loop (checkStop px) b b.lots

end PaperBroker

/-! ## Saved state -/

/-- One lot of a saved state. The fields read with `p.get` may be absent. -/
structure LotState where
  lotId : Option ℕ
  ticker : Ticker
  quantity : ℚ
  entryPrice : ℚ
  stopLoss : ℚ
  entryFee : Option ℚ
  entryCondition : Option String
deriving DecidableEq, Repr

/-- The `broker` blob of a saved account. -/
structure BrokerState where
  cash : Option ℚ := none
  lots : List LotState := []
  /-- the key older states used -/
  positions : List LotState := []
deriving DecidableEq, Repr

/-- `state.get("lots") or state.get("positions") or []` -/
def BrokerState.openLots (st : BrokerState) : List LotState :=
  if st.lots = [] then st.positions else st.lots

def OpenPosition.toState (p : OpenPosition) : LotState :=
  { lotId := some p.lotId, ticker := p.ticker, quantity := p.quantity
    entryPrice := p.entryPrice, stopLoss := p.stopLoss
    entryFee := some p.entryFee, entryCondition := some p.entryCondition }

/-- The lot a saved lot is restored to, `fresh` being its id if it has none. -/
def LotState.restore (p : LotState) (fresh : ℕ) : OpenPosition :=
  { lotId := p.lotId.getD fresh, ticker := p.ticker, quantity := p.quantity
    entryPrice := p.entryPrice, stopLoss := p.stopLoss
    entryFee := p.entryFee.getD 0, entryCondition := p.entryCondition.getD "" }

/-- The loop of `restore_state`. The default of `p.get("lot_id", next(...))`
is evaluated for every lot, so the counter moves once per lot even when the
lot has an id. -/
def restoreLots (next : ℕ) : List LotState → List OpenPosition
  | [] => []
  | p :: ps => p.restore next :: restoreLots (next + 1) ps

/-- `max((p.lot_id for p in self.lots), default=0)` -/
def maxLotId (lots : List OpenPosition) : ℕ := (lots.map (·.lotId)).foldr max 0

namespace PaperBroker

def toState (b : PaperBroker) : BrokerState :=
  { cash := some b.cash, lots := b.lots.map (·.toState) }

/-- `restore_state`. The counter is advanced by the largest restored id, from
wherever the class attribute stood after the lots were built. -/
def restoreState (b : PaperBroker) (st : BrokerState) : PaperBroker :=
  let lots := restoreLots b.nextLot st.openLots
  { b with
    cash := st.cash.getD b.cash
    lots := lots
    fills := []
    nextLot := b.nextLot + st.openLots.length + maxLotId lots }

end PaperBroker

/-! ## Cash and fills -/

/-- What a fill does to cash. -/
def Fill.cash (f : Fill) : ℚ :=
  match f.side with
  | .buy => -(f.quantity * f.price + f.fee)
  | .sell => f.quantity * f.price - f.fee

/-- The broker's cash is `cash` moved by every fill it recorded. -/
def PaperBroker.Ledger (cash : ℚ) (b : PaperBroker) : Prop :=
  b.cash = cash + (b.fills.map Fill.cash).sum

/-- An order moves cash by its fill. -/
theorem PaperBroker.placeOrder_ledger {b b' : PaperBroker} {o : Order} {p : Option ℚ}
    {fill : Fill} {cash : ℚ} (hb : b.Ledger cash) (h : b.placeOrder o p = .ok (b', fill)) :
    b'.Ledger cash := by
  unfold Ledger at hb ⊢
  unfold placeOrder at h
  dsimp only at h
  cases hside : o.side with
  | buy =>
    rw [hside] at h
    cases hstop : o.stopLoss with
    | none => rw [hstop] at h; cases h
    | some stop =>
      rw [hstop] at h
      cases h
      simp only [List.map_append, List.sum_append, List.map_cons, List.map_nil, List.sum_cons,
        List.sum_nil, hb, Fill.cash, fillFor, hside]
      ring
  | sell =>
    rw [hside] at h
    dsimp only at h
    split at h
    · cases h
    split at h
    · cases h
    · cases h
      simp only [List.map_append, List.sum_append, List.map_cons, List.map_nil, List.sum_cons,
        List.sum_nil, hb, Fill.cash, fillFor, hside]
      ring

/-! ## Saving and restoring -/

theorem restore_toState (p : OpenPosition) (fresh : ℕ) : p.toState.restore fresh = p := rfl

/-- The lots of a saved state that a broker wrote are restored as they were. -/
theorem restoreLots_toState (lots : List OpenPosition) (next : ℕ) :
    restoreLots next (lots.map (·.toState)) = lots := by
  induction lots generalizing next with
  | nil => rfl
  | cons p ps ih =>
    rw [List.map_cons]
    show p.toState.restore next :: restoreLots (next + 1) (ps.map (·.toState)) = p :: ps
    rw [ih, restore_toState]

theorem length_restoreLots (ps : List LotState) (next : ℕ) :
    (restoreLots next ps).length = ps.length := by
  induction ps generalizing next with
  | nil => rfl
  | cons p ps ih => simp [restoreLots, ih]

theorem PaperBroker.openLots_toState (b : PaperBroker) :
    b.toState.openLots = b.lots.map (·.toState) := by
  unfold BrokerState.openLots toState
  dsimp only
  split
  · next hnil => rw [hnil]
  · rfl

end PaperTrading.Broker
