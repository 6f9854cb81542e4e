import Mathlib.Data.List.Forall2
import Mathlib.Data.List.FinRange
import PaperTrading.Broker.Sell
import PaperTrading.Calibration.Store
import PaperTrading.Risk.Managed
import PaperTrading.Trading.Signal
import PaperTrading.Trading.Store

/-!
# Historical replay

`trading/replay.py`: past candles walked bar by bar through the signal, the
risk rules, the broker, the calibration store and the trade store.

Three lists have to agree about which position is which. `replay` visits the
lots of the broker; the broker sells from the first lot of the ticker; and
`_close` writes the exit to the first open row of the symbol, with the entry
price of the lot that was visited and the size of the row. `Balanced` says what
holds between them while every lot closed is the oldest one open, and
`bookkept_iff` that this is exactly when the books come out right: the first
lot that reaches its stop or target before an older one sells that older lot
and closes its row with the wrong entry.

`Replayed.closings` is a record beside the run: the lots closed, in order, each
with its fill and the row `_close` picked.
-/

namespace PaperTrading.Trading.Replay

open Broker Risk Calibration PaperTrading.Lib

def TAKE_PROFIT_RR : ℚ := 2
def STOP_PCT : ℚ := 25 / 1000

/-- `window`: bars of lookback for the indicators. -/
def WINDOW : ℕ := 60

/-- `signals/dynamic.sma` at the last bar, `none` for `nan`. -/
def sma (closes : List ℚ) (period : ℕ) : Option ℚ :=
  if closes.length < period then none
  else some ((closes.drop (closes.length - period)).sum / period)

/-- The default strategy of `compute_signal`, over 7, 25 and 50 closes. -/
def smaStack : Strategy where
  name := "sma_stack"
  evaluate := fun bars =>
    let closes := bars.map (·.close)
    match sma closes 7, sma closes 25, sma closes 50 with
    | some fast, some mid, some slow =>
      .ok (decide (closes.getLastD 0 > fast ∧ fast > mid ∧ mid > slow))
    | _, _, _ => .ok false

/-- Why a lot is closed. -/
inductive CloseReason where
  | stopLoss
  | takeProfit
  | manualEod
deriving DecidableEq, Repr

def CloseReason.text : CloseReason → String
  | .stopLoss => "stop_loss"
  | .takeProfit => "take_profit"
  | .manualEod => "manual_eod"

/-- The exceptions of a replay. -/
inductive ReplayError where
  /-- `compute_signal` raised -/
  | signal (text : String)
  | broker (e : PyError)
  /-- `IndexError`: `klines[-1]` of no klines -/
  | noKlines
deriving DecidableEq, Repr

/-- What stays fixed during a replay. Nothing in it updates the equity peak, so
the risk manager is the same one throughout. -/
structure Setup where
  symbol : Ticker
  timeframe : String
  risk : RiskManager

/-- One lot closed: the lot `replay` was visiting, the fill the broker
returned, and the row of the store `_close` picked, as it was. -/
structure Closing where
  lot : OpenPosition
  fill : Fill
  reason : CloseReason
  row : Option TradeRow

structure Replayed where
  broker : PaperBroker
  calib : CalibrationStore
  store : TradeStore
  closings : List Closing := []

/-! ## Closing a lot -/

/-- `success` of `_close` -/
def Closing.success (c : Closing) : Bool :=
  match c.reason with
  | .stopLoss => false
  | .takeProfit | .manualEod => decide (c.fill.price > c.lot.entryPrice)

/-- The exit `_close` writes to row `row`. -/
def Closing.exit (c : Closing) (row : TradeRow) : TradeExit where
  price := c.fill.price
  reason := c.reason.text
  fee := c.fill.fee
  pnl := (c.fill.price - c.lot.entryPrice) * row.size - c.fill.fee - row.entryFee
  pnlPct :=
    if c.lot.entryPrice ≠ 0 then (c.fill.price - c.lot.entryPrice) / c.lot.entryPrice else 0
  hit := c.success

/-- The calibration key of an exit. -/
def outcomeKey (setup : Setup) (lot : OpenPosition) : String :=
  if lot.entryCondition = "" then conditionKey setup.symbol "closed" "any" else lot.entryCondition

/-- The row `_close` picks: the first open one of the symbol. -/
def pickRow (setup : Setup) (store : TradeStore) : Option TradeRow :=
  store.openTradeIds.find? fun t => t.symbol = setup.symbol

/-- `_close` -/
def recordClose (setup : Setup) (s : Replayed) (lot : OpenPosition) (fill : Fill)
    (reason : CloseReason) : Replayed :=
  let c : Closing := { lot := lot, fill := fill, reason := reason, row := pickRow setup s.store }
  { s with
    calib := (s.calib.recordOutcome (outcomeKey setup lot) c.success).save
    store :=
      match c.row with
      | none => s.store
      | some t => s.store.closeTrade t.id (c.exit t)
    closings := s.closings ++ [c] }

/-- `broker.close_lot` followed by `_close`. -/
def exitLot (setup : Setup) (s : Replayed) (lot : OpenPosition) (price : ℚ)
    (reason : CloseReason) : Ran ReplayError Replayed :=
  match s.broker.closeLot lot price with
  | .error e => .raise (.broker e) s
  | .ok (broker, fill) => .ok (recordClose setup { s with broker := broker } lot fill reason)

/-- One lot of the walk: closed at `price` if `why` gives a reason. -/
def visit (setup : Setup) (why : OpenPosition → Option CloseReason) (price : ℚ)
    (s : Replayed) (lot : OpenPosition) : Ran ReplayError Replayed :=
  match why lot with
  | none => .ok s
  | some reason => exitLot setup s lot price reason

/-- The walk over a copy of the symbol's lots. -/
def exitPass (setup : Setup) (why : OpenPosition → Option CloseReason) (price : ℚ)
    (s : Replayed) : Ran ReplayError Replayed :=
  Ran.loop (visit setup why price) s (s.broker.lotsFor setup.symbol)

/-! ## One bar -/

/-- The stop and target test of one lot at close `cur`. -/
def exitReason (cur : ℚ) (lot : OpenPosition) : Option CloseReason :=
  if cur ≤ lot.stopLoss then some .stopLoss
  else if cur ≥ RiskManager.takeProfitPrice lot.entryPrice lot.stopLoss TAKE_PROFIT_RR then
    some .takeProfit
  else none

/-- The entry a long signal at close `cur` leads to, if the risk manager
approves of a size. -/
def enter (setup : Setup) (s : Replayed) (sig : Signal) (cur : ℚ) : Ran ReplayError Replayed :=
  let key := conditionKey setup.symbol setup.timeframe sig.condition
  let asked := s.calib.calibratedProbability key (55 / 100 + 15 / 100 * |sig.rawScore|)
  let s := { s with calib := asked.1 }
  match s.broker.equity (fun t => if t = setup.symbol then some (some cur) else none) with
  | .error e => .raise (.broker e) s
  | .ok equity =>
    let stop := cur * (1 - STOP_PCT)
    let openPos : List OpenRisk :=
      s.broker.lots.map fun p => ⟨p.entryPrice, p.stopLoss, p.quantity⟩
    let rd := setup.risk.sizePosition equity cur stop openPos 1 none 1
    if rd.approved = false then .ok s
    else
      let order : Order :=
        { ticker := setup.symbol, side := .buy, quantity := rd.size, price := cur
          stopLoss := some stop, condition := key }
      match s.broker.placeOrder order (some cur) with
      | .error e => .raise (.broker e) s
      | .ok (broker, fill) =>
        .ok { s with
          broker := broker
          store := s.store.openTrade setup.symbol setup.timeframe sig.condition asked.2 cur rd.size
            fill.fee (broker.lots.getLast?.map (·.lotId)) }

/-- What one turn of the loop reads of the klines. -/
structure Bar where
  series : List Candle
  close : ℚ
  two_le_length : 2 ≤ series.length

/-- `klines[i - window : i + 1]` and `klines[i].close`, for `i` from `window`
on. -/
def bars (klines : List Candle) : List Bar :=
  (List.finRange (klines.length - WINDOW)).map fun j : Fin (klines.length - WINDOW) =>
    { series := (klines.drop j.val).take (WINDOW + 1)
      close := (klines.get ⟨j.val + WINDOW, by have := j.isLt; omega⟩).close
      two_le_length := by
        have hj := j.isLt
        rw [List.length_take, List.length_drop]
        unfold WINDOW at hj ⊢
        omega }

/-- One turn of the loop over the klines. -/
def barStep (setup : Setup) (s : Replayed) (bar : Bar) : Ran ReplayError Replayed :=
  match computeSignal bar.series setup.symbol setup.timeframe smaStack with
  | .error e => .raise (.signal e) s
  | .ok sig =>
    (exitPass setup (exitReason bar.close) bar.close s).andThen fun s =>
      if sig.direction ≠ .long ∨ setup.risk.halted = true then .ok s
      else enter setup s sig bar.close

/-- The lots still open are closed at the last close. -/
def finish (setup : Setup) (klines : List Candle) (s : Replayed) : Ran ReplayError Replayed :=
  match klines.getLast? with
  | none => if s.broker.lotsFor setup.symbol = [] then .ok s else .raise .noKlines s
  | some last => exitPass setup (fun _ => some .manualEod) last.close s

/-- The loop over the klines. -/
def overBars (setup : Setup) (klines : List Candle) (broker : PaperBroker)
    (calib : CalibrationStore) (store : TradeStore) : Ran ReplayError Replayed :=
  Ran.loop (barStep setup) { broker := broker, calib := calib, store := store } (bars klines)

def replay (setup : Setup) (klines : List Candle) (broker : PaperBroker)
    (calib : CalibrationStore) (store : TradeStore) : Ran ReplayError Replayed :=
  (overBars setup klines broker calib store).andThen (finish setup klines)

/-! ## The books -/

/-- The exit went to the row the replay wrote for that lot; `first` is the id
its first row gets. -/
def Closing.Own (first : ℕ) (c : Closing) : Prop :=
  ∃ row, c.row = some row ∧ first ≤ row.id ∧ row.lotId = some c.lot.lotId

/-- `row` is closed, by this closing of its own lot. -/
def Closing.Closes (c : Closing) (row : TradeRow) : Prop :=
  ∃ was, c.row = some was ∧ was.lotId = some c.lot.lotId ∧
    row = { was with exit := some (c.exit was) }

/-- The profit a row shows, nothing while it is open. -/
def pnlOf (row : TradeRow) : ℚ :=
  match row.exit with
  | none => 0
  | some e => e.pnl

/-- The rows from id `first` on. -/
def rowsFrom (first : ℕ) (store : TradeStore) : List TradeRow :=
  store.trades.filter fun row => first ≤ row.id

/-- The books of a replay that began with `broker` and `store` come out right:
it returns with no lot open, each row it wrote is closed with the exit of its
own lot and no exit went elsewhere, and the profits add up to what happened to
cash. -/
structure Bookkept (broker : PaperBroker) (store : TradeStore) (r : Ran ReplayError Replayed) :
    Prop where
  returns : r.Returns
  lots_closed : r.state.broker.lots = []
  own_exit : ∀ row ∈ rowsFrom store.nextId r.state.store, ∃ c ∈ r.state.closings, c.Closes row
  own_row : ∀ c ∈ r.state.closings, c.Own store.nextId
  pnl : ((rowsFrom store.nextId r.state.store).map pnlOf).sum = r.state.broker.cash - broker.cash

/-- No open row of the symbol is older than the replay. -/
def NoOlderRow (setup : Setup) (first : ℕ) (store : TradeStore) : Prop :=
  ∀ row ∈ store.openTradeIds, row.symbol = setup.symbol → first ≤ row.id

/-- The lots a walk closes come before the ones it leaves open, and no older
row stands in the way of theirs. -/
def Orderly (setup : Setup) (first : ℕ) (why : OpenPosition → Option CloseReason)
    (s : Replayed) : Prop :=
  s.broker.lots.Pairwise (fun older newer => (why newer).isSome → (why older).isSome) ∧
  ((∃ lot ∈ s.broker.lots, (why lot).isSome) → NoOlderRow setup first s.store)

instance (setup : Setup) (first : ℕ) (store : TradeStore) :
    Decidable (NoOlderRow setup first store) :=
  inferInstanceAs (Decidable (∀ row ∈ store.openTradeIds, row.symbol = setup.symbol →
    first ≤ row.id))

instance (setup : Setup) (first : ℕ) (why : OpenPosition → Option CloseReason) (s : Replayed) :
    Decidable (Orderly setup first why s) :=
  inferInstanceAs (Decidable (_ ∧ (_ → _)))

/-- Every walk of the replay is orderly. -/
def InOrder (setup : Setup) (klines : List Candle) (broker : PaperBroker)
    (calib : CalibrationStore) (store : TradeStore) : Prop :=
  Along (fun s bar => (barStep setup s bar).state)
      (fun s bar => Orderly setup store.nextId (exitReason bar.close) s)
      { broker := broker, calib := calib, store := store } (bars klines) ∧
    Orderly setup store.nextId (fun _ => some .manualEod)
      (overBars setup klines broker calib store).state

instance (setup : Setup) (klines : List Candle) (broker : PaperBroker)
    (calib : CalibrationStore) (store : TradeStore) :
    Decidable (InOrder setup klines broker calib store) :=
  inferInstanceAs (Decidable (_ ∧ _))

/-! ## The three lists in step -/

/-- A lot and the row written for it. -/
structure Matches (setup : Setup) (lot : OpenPosition) (row : TradeRow) : Prop where
  symbol : row.symbol = setup.symbol
  lotId : row.lotId = some lot.lotId
  size : row.size = lot.quantity
  entryFee : row.entryFee = lot.entryFee

/-- What opening a lot took out of cash. -/
def outlay (lot : OpenPosition) : ℚ := lot.quantity * lot.entryPrice + lot.entryFee

/-- The state of a replay whose books are in order so far, `written` being the
rows it has written: the open ones are those of the open lots, in the same
order, and cash is the starting cash less what the open lots took, plus the
profits of the closed rows. -/
structure Balanced (setup : Setup) (broker : PaperBroker) (store : TradeStore)
    (written : List TradeRow) (s : Replayed) : Prop where
  tickers : ∀ lot ∈ s.broker.lots, lot.ticker = setup.symbol
  ids : (s.broker.lots.map (·.lotId)).Pairwise (· < ·)
  ids_lt : ∀ lot ∈ s.broker.lots, lot.lotId < s.broker.nextLot
  trades : s.store.trades = store.trades ++ written
  next_le : store.nextId ≤ s.store.nextId
  written_id : ∀ row ∈ written, store.nextId ≤ row.id
  matched : List.Forall₂ (Matches setup) s.broker.lots (written.filter (·.isOpen))
  closed : ∀ row ∈ written, row.isOpen = false → ∃ c ∈ s.closings, c.Closes row
  own : ∀ c ∈ s.closings, c.Own store.nextId
  cash : s.broker.cash + (s.broker.lots.map outlay).sum = broker.cash + (written.map pnlOf).sum

/-- Some exit went to a row that is not its lot's. -/
def Stray (first : ℕ) (s : Replayed) : Prop := ∃ c ∈ s.closings, ¬ c.Own first

section
variable {setup : Setup} {broker : PaperBroker} {store : TradeStore} {written : List TradeRow}
  {s : Replayed} {why : OpenPosition → Option CloseReason} {price : ℚ}

theorem Balanced.not_stray (h : Balanced setup broker store written s) :
    ¬ Stray store.nextId s := fun ⟨c, hc, hno⟩ => hno (h.own c hc)

theorem Balanced.lotsFor (h : Balanced setup broker store written s) :
    s.broker.lotsFor setup.symbol = s.broker.lots :=
  List.filter_eq_self.mpr fun lot hlot => decide_eq_true (h.tickers lot hlot)

theorem Balanced.openTradeIds (h : Balanced setup broker store written s) :
    s.store.openTradeIds = store.openTradeIds ++ written.filter (·.isOpen) := by
  unfold TradeStore.openTradeIds
  rw [h.trades, List.filter_append]

/-- Of the rows in the table, the replay wrote the ones from its first id on. -/
theorem Balanced.rowsFrom_eq (h : Balanced setup broker store written s) :
    rowsFrom store.nextId s.store = written := by
  unfold rowsFrom
  rw [h.trades, List.filter_append, List.filter_eq_nil_iff.mpr, List.filter_eq_self.mpr,
    List.nil_append]
  · exact fun row hrow => decide_eq_true (h.written_id row hrow)
  · intro row hrow
    have := store.ids_lt row hrow
    simpa using this

/-- With no older row in the way the row picked is that of the oldest lot. -/
theorem Balanced.pickRow_first (h : Balanced setup broker store written s)
    (hold : NoOlderRow setup store.nextId s.store) {lot : OpenPosition} {rest : List OpenPosition}
    (hlots : s.broker.lots = lot :: rest) :
    ∃ row rows, pickRow setup s.store = some row ∧ Matches setup lot row ∧
      written.filter (·.isOpen) = row :: rows ∧ List.Forall₂ (Matches setup) rest rows := by
  have hmatched := h.matched
  rw [hlots] at hmatched
  obtain ⟨row, rows, hrow, hrows, hwritten⟩ := List.forall₂_cons_left_iff.mp hmatched
  have hnone : store.openTradeIds.find? (fun t => t.symbol = setup.symbol) = none := by
    refine List.find?_eq_none.mpr fun t ht hsym => ?_
    have hge : store.nextId ≤ t.id := by
      refine hold t ?_ (of_decide_eq_true hsym)
      rw [h.openTradeIds]
      exact List.mem_append_left _ ht
    have := store.ids_lt t (List.mem_filter.mp ht).1
    omega
  refine ⟨row, rows, ?_, hrow, hwritten, hrows⟩
  unfold pickRow
  rw [h.openTradeIds, List.find?_append, hnone, Option.none_or, hwritten]
  exact List.find?_cons_of_pos (p := fun t : TradeRow => decide (t.symbol = setup.symbol))
    (decide_eq_true hrow.symbol)

/-! ## Closing the oldest lot -/

/-- The closing of `lot` that `exitLot` records. -/
def closingOf (setup : Setup) (s : Replayed) (lot : OpenPosition) (price : ℚ)
    (reason : CloseReason) : Closing :=
  { lot := lot, fill := s.broker.closeFill lot price, reason := reason
    row := pickRow setup s.store }

/-- The lots, cash and table after the oldest lot was closed. -/
theorem exitLot_eq {lot : OpenPosition} {rest : List OpenPosition}
    {rowsPre rowsPost : List TradeRow} {row : TradeRow} (hlots : s.broker.lots = lot :: rest)
    (hpick : pickRow setup s.store = some row)
    (hsplit : s.store.trades = rowsPre ++ row :: rowsPost) (price : ℚ) (reason : CloseReason) :
    let r := exitLot setup s lot price reason
    let c := closingOf setup s lot price reason
    r.Returns ∧ r.state.broker = s.broker.closedTo lot price rest ∧
      r.state.closings = s.closings ++ [c] ∧ r.state.store.nextId = s.store.nextId ∧
      r.state.store.trades = rowsPre ++ { row with exit := some (c.exit row) } :: rowsPost := by
  have hfirst : firstOf s.broker.lots lot.ticker = some lot := by
    rw [hlots]
    exact @firstOf_append [] rest lot (by simp)
  have herase : s.broker.lots.erase lot = rest := by rw [hlots, List.erase_cons_head]
  unfold exitLot
  rw [PaperBroker.closeLot_first price hfirst, herase]
  refine ⟨rfl, rfl, rfl, ?_, ?_⟩
  · show (recordClose _ _ _ _ _).store.nextId = _
    simp only [recordClose, hpick]
    rfl
  · show (recordClose _ _ _ _ _).store.trades = _
    simp only [recordClose, hpick, closingOf]
    exact TradeStore.closeTrade_at hsplit _

/-- A close of the oldest lot, with no older row in the way, returns and keeps
the books in order. -/
theorem exitLot_first (h : Balanced setup broker store written s)
    (hold : NoOlderRow setup store.nextId s.store) {lot : OpenPosition} {rest : List OpenPosition}
    (hlots : s.broker.lots = lot :: rest) (price : ℚ) (reason : CloseReason) :
    let r := exitLot setup s lot price reason
    r.Returns ∧ r.state.broker.lots = rest ∧ NoOlderRow setup store.nextId r.state.store ∧
      ∃ written', Balanced setup broker store written' r.state := by
  obtain ⟨row, rows, hpick, hrow, hopen, hrest⟩ := h.pickRow_first hold hlots
  obtain ⟨pre, post, hwritten, hpre, hrowOpen, hpost⟩ := List.filter_eq_cons_iff.mp hopen
  -- The table around the row that is closed.
  have hsplit : s.store.trades = (store.trades ++ pre) ++ row :: post := by
    rw [h.trades, hwritten, List.append_assoc]
  have hid : store.nextId ≤ row.id := h.written_id row (by rw [hwritten]; simp)
  obtain ⟨hret, hbroker, hclosings, hnext, htrades⟩ := exitLot_eq hlots hpick hsplit price reason
  dsimp only
  generalize hr : exitLot setup s lot price reason = r at *
  generalize hc : closingOf setup s lot price reason = c at *
  have hcrow : c.row = some row := by rw [← hc]; exact hpick
  have hclot : c.lot = lot := by rw [← hc]; rfl
  have hmem : ∀ t ∈ r.state.store.trades, t.isOpen = true → t ∈ s.store.trades := by
    intro t ht hopen
    rw [htrades] at ht
    rw [hsplit]
    rcases List.mem_append.mp ht with ht | ht
    · exact List.mem_append_left _ ht
    · rcases List.mem_cons.mp ht with rfl | ht
      · cases hopen
      · exact List.mem_append_right _ (List.mem_cons_of_mem _ ht)
  refine ⟨hret, by rw [hbroker]; rfl, ?_,
    pre ++ { row with exit := some (c.exit row) } :: post, ?_⟩
  · intro t ht
    obtain ⟨htrade, htOpen⟩ := List.mem_filter.mp ht
    exact hold t (List.mem_filter.mpr ⟨hmem t htrade htOpen, htOpen⟩)
  have hlotsAfter : r.state.broker.lots = rest := by rw [hbroker]; rfl
  have hin : ∀ t ∈ rest, t ∈ s.broker.lots := by
    intro t ht
    rw [hlots]
    exact List.mem_cons_of_mem _ ht
  refine
    { tickers := ?_, ids := ?_, ids_lt := ?_, trades := ?_, next_le := ?_, written_id := ?_
      matched := ?_, closed := ?_, own := ?_, cash := ?_ }
  · intro t ht
    rw [hlotsAfter] at ht
    exact h.tickers t (hin t ht)
  · have hids := h.ids
    rw [hlots, List.map_cons] at hids
    rw [hlotsAfter]
    exact hids.of_cons
  · intro t ht
    rw [hlotsAfter] at ht
    have := h.ids_lt t (hin t ht)
    rw [hbroker]
    exact this
  · rw [htrades, List.append_assoc]
  · rw [hnext]
    exact h.next_le
  · intro t ht
    rcases List.mem_append.mp ht with ht | ht
    · exact h.written_id t (by rw [hwritten]; exact List.mem_append_left _ ht)
    · rcases List.mem_cons.mp ht with rfl | ht
      · exact hid
      · exact h.written_id t
          (by rw [hwritten]; exact List.mem_append_right _ (List.mem_cons_of_mem _ ht))
  · have hpre' : pre.filter (·.isOpen) = [] := List.filter_eq_nil_iff.mpr hpre
    rw [hlotsAfter, List.filter_append, hpre', List.nil_append,
      List.filter_cons_of_neg Bool.false_ne_true, hpost]
    exact hrest
  · intro t ht hclosed
    have hbefore : t ∈ written → ∃ c' ∈ r.state.closings, c'.Closes t := by
      intro ht
      obtain ⟨c', hc', hcl⟩ := h.closed t ht hclosed
      exact ⟨c', by rw [hclosings]; exact List.mem_append_left _ hc', hcl⟩
    rw [hwritten] at hbefore
    rcases List.mem_append.mp ht with ht | ht
    · exact hbefore (List.mem_append_left _ ht)
    · rcases List.mem_cons.mp ht with rfl | ht
      · refine ⟨c, by rw [hclosings]; simp, row, hcrow, ?_, rfl⟩
        rw [hclot]
        exact hrow.lotId
      · exact hbefore (List.mem_append_right _ (List.mem_cons_of_mem _ ht))
  · intro c' hc'
    rw [hclosings] at hc'
    rcases List.mem_append.mp hc' with hc' | hc'
    · exact h.own c' hc'
    · obtain rfl := List.mem_singleton.mp hc'
      exact ⟨row, hcrow, hid, by rw [hclot]; exact hrow.lotId⟩
  · -- The profit of the row is what the close added to cash less what the lot took.
    have hcash := h.cash
    have hwas : pnlOf row = 0 := by
      unfold pnlOf
      rw [Option.isNone_iff_eq_none.mp hrowOpen]
    have hpnl : pnlOf { row with exit := some (c.exit row) } =
        s.broker.closeProceeds lot price - outlay lot := by
      show (c.fill.price - c.lot.entryPrice) * row.size - c.fill.fee - row.entryFee = _
      rw [hclot, hrow.size, hrow.entryFee, ← hc]
      show (s.broker.fillPrice .sell price - lot.entryPrice) * lot.quantity -
        (s.broker.closeFill lot price).fee - lot.entryFee = _
      unfold PaperBroker.closeProceeds outlay
      ring
    rw [hlots, hwritten, List.map_cons, List.sum_cons, List.map_append, List.map_cons,
      List.sum_append, List.sum_cons, hwas] at hcash
    rw [hlotsAfter, hbroker, List.map_append, List.map_cons, List.sum_append, List.sum_cons, hpnl]
    show s.broker.cash + s.broker.closeProceeds lot price + _ = _
    linarith

/-! ## Closing any other lot -/

theorem mem_closings_exitLot {lot : OpenPosition} {reason : CloseReason} {c : Closing}
    (hc : c ∈ s.closings) : c ∈ (exitLot setup s lot price reason).state.closings := by
  unfold exitLot
  split
  · exact hc
  · exact List.mem_append_left _ hc

/-- A close that returns picked the first open row of the symbol. -/
theorem exitLot_picked {lot : OpenPosition} {reason : CloseReason}
    (h : (exitLot setup s lot price reason).Returns) :
    ∃ c ∈ (exitLot setup s lot price reason).state.closings,
      c.lot = lot ∧ c.row = pickRow setup s.store := by
  unfold exitLot at h ⊢
  cases hclose : s.broker.closeLot lot price with
  | error e => rw [hclose] at h; cases h
  | ok sold => exact ⟨_, List.mem_append_right _ List.mem_cons_self, rfl, rfl⟩

/-- With an older row open the exit goes to such a row. -/
theorem exitLot_older (h : Balanced setup broker store written s)
    (hold : ¬ NoOlderRow setup store.nextId s.store) (lot : OpenPosition) (reason : CloseReason)
    (hret : (exitLot setup s lot price reason).Returns) :
    Stray store.nextId (exitLot setup s lot price reason).state := by
  obtain ⟨c, hc, -, hpick⟩ := exitLot_picked hret
  refine ⟨c, hc, ?_⟩
  intro ⟨row, hrow, hid, _⟩
  unfold NoOlderRow at hold
  push Not at hold
  obtain ⟨t, ht, hsym, hlt⟩ := hold
  rw [h.openTradeIds] at ht
  have hbefore : t ∈ store.openTradeIds := by
    rcases List.mem_append.mp ht with ht | ht
    · exact ht
    · have := h.written_id t (List.mem_filter.mp ht).1
      omega
  rw [hpick] at hrow
  unfold pickRow at hrow
  rw [h.openTradeIds, List.find?_append] at hrow
  cases hfind : store.openTradeIds.find? fun t => t.symbol = setup.symbol with
  | none =>
    have := List.find?_eq_none.mp hfind t hbefore
    simp [hsym] at this
  | some first =>
    rw [hfind, Option.some_or] at hrow
    cases hrow
    have := store.ids_lt row (List.mem_filter.mp (List.mem_of_find?_eq_some hfind)).1
    omega

/-- A close of a lot that is not the oldest writes its exit to another lot's
row. -/
theorem exitLot_not_first (h : Balanced setup broker store written s) {lot first : OpenPosition}
    {rest : List OpenPosition} (hlots : s.broker.lots = first :: rest) (hlot : lot ∈ rest)
    (reason : CloseReason) (hret : (exitLot setup s lot price reason).Returns) :
    Stray store.nextId (exitLot setup s lot price reason).state := by
  by_cases hold : NoOlderRow setup store.nextId s.store
  · obtain ⟨c, hc, hclot, hpick⟩ := exitLot_picked hret
    refine ⟨c, hc, ?_⟩
    intro ⟨row, hrow, _, hid⟩
    obtain ⟨row', _, hpick', hmatch, _, _⟩ := h.pickRow_first hold hlots
    rw [hpick, hpick'] at hrow
    cases hrow
    rw [hmatch.lotId, hclot] at hid
    have hids := h.ids
    rw [hlots, List.map_cons, List.pairwise_cons] at hids
    have hlt := hids.1 lot.lotId (List.mem_map_of_mem hlot)
    rw [Option.some.inj hid] at hlt
    exact lt_irrefl _ hlt
  · exact exitLot_older h hold lot reason hret

/-! ## A walk -/

/-- What went wrong stays wrong. -/
theorem Stray.exitLot {first : ℕ} (h : Stray first s) (lot : OpenPosition)
    (reason : CloseReason) : Stray first (exitLot setup s lot price reason).state := by
  obtain ⟨c, hc, hno⟩ := h
  exact ⟨c, mem_closings_exitLot hc, hno⟩

theorem Stray.visit {first : ℕ} (h : Stray first s) (lot : OpenPosition) :
    Stray first (visit setup why price s lot).state := by
  unfold Replay.visit
  split
  · exact h
  · exact h.exitLot lot _

theorem visit_none {lot : OpenPosition} (hwhy : why lot = none) :
    visit setup why price s lot = .ok s := by
  unfold visit
  rw [hwhy]

theorem visit_some {lot : OpenPosition} {reason : CloseReason} (hwhy : why lot = some reason) :
    visit setup why price s lot = exitLot setup s lot price reason := by
  unfold visit
  rw [hwhy]

/-- A walk over lots that give no reason changes nothing. -/
theorem walk_none {lots : List OpenPosition} (h : ∀ lot ∈ lots, why lot = none) :
    Ran.loop (visit setup why price) s lots = .ok s := by
  induction lots with
  | nil => rfl
  | cons lot rest ih =>
    rw [Ran.loop_cons, visit_none (h lot List.mem_cons_self)]
    exact ih fun l hl => h l (List.mem_cons_of_mem _ hl)

/-- A walk whose first close goes astray goes astray. -/
theorem walk_stray {lot : OpenPosition} {lots : List OpenPosition} {reason : CloseReason}
    {first : ℕ} (hwhy : why lot = some reason)
    (hstray : (exitLot setup s lot price reason).Returns →
      Stray first (exitLot setup s lot price reason).state)
    (hret : (Ran.loop (visit setup why price) s (lot :: lots)).Returns) :
    Stray first (Ran.loop (visit setup why price) s (lot :: lots)).state := by
  rw [Ran.loop_cons, visit_some hwhy] at hret ⊢
  rcases Ran.andThen_cases (exitLot setup s lot price reason)
    (fun s' => Ran.loop (visit setup why price) s' lots) with ⟨hno, hstop⟩ | ⟨hx, hgo⟩
  · rw [hstop] at hret
    exact absurd hret hno
  · rw [hgo]
    exact Ran.loop_inv (P := Stray first) (fun s lot hs => hs.visit lot) lots _ (hstray hx)

/-- Walking past the oldest lot and closing a later one goes wrong. -/
theorem walk_not_first (h : Balanced setup broker store written s) {first : OpenPosition}
    {rest : List OpenPosition} (hlots : s.broker.lots = first :: rest) :
    ∀ lots : List OpenPosition, (∀ lot ∈ lots, lot ∈ rest) → (∃ lot ∈ lots, (why lot).isSome) →
      (Ran.loop (visit setup why price) s lots).Returns →
      Stray store.nextId (Ran.loop (visit setup why price) s lots).state := by
  intro lots
  induction lots with
  | nil =>
    intro _ ⟨lot, hlot, _⟩
    cases hlot
  | cons lot lots ih =>
    intro hin hhit hret
    cases hwhy : why lot with
    | none =>
      have hnext : Ran.loop (visit setup why price) s (lot :: lots) =
          Ran.loop (visit setup why price) s lots := by
        rw [Ran.loop_cons, visit_none hwhy]
        rfl
      rw [hnext] at hret ⊢
      refine ih (fun l hl => hin l (List.mem_cons_of_mem _ hl)) ?_ hret
      obtain ⟨l, hl, hsome⟩ := hhit
      rcases List.mem_cons.mp hl with rfl | hl
      · rw [hwhy] at hsome
        cases hsome
      · exact ⟨l, hl, hsome⟩
    | some reason =>
      exact walk_stray hwhy (exitLot_not_first h hlots (hin lot List.mem_cons_self) reason) hret

/-- A walk with nothing to close is orderly. -/
theorem orderly_of_none {first : ℕ} (h : ∀ lot ∈ s.broker.lots, why lot = none) :
    Orderly setup first why s := by
  refine ⟨List.pairwise_of_forall_mem_list fun older _ newer hnewer hsome => ?_, ?_⟩
  · rw [h newer hnewer] at hsome
    cases hsome
  · intro ⟨lot, hlot, hsome⟩
    rw [h lot hlot] at hsome
    cases hsome

/-- A walk that closes the oldest lot first is orderly when the rest of it is. -/
theorem orderly_cons_iff {first : ℕ} {lot : OpenPosition} {rest : List OpenPosition}
    (hlots : s.broker.lots = lot :: rest) (hwhy : (why lot).isSome) {s' : Replayed}
    (hlots' : s'.broker.lots = rest) (hold : NoOlderRow setup first s.store)
    (hold' : NoOlderRow setup first s'.store) :
    Orderly setup first why s ↔ Orderly setup first why s' := by
  unfold Orderly
  rw [hlots, hlots', List.pairwise_cons]
  exact ⟨fun h => ⟨h.1.2, fun _ => hold'⟩, fun h => ⟨⟨fun _ _ _ => hwhy, h.1⟩, fun _ => hold⟩⟩

/-- The walk over the open lots: orderly it keeps the books in order and leaves
the lots it has no reason to close, otherwise it raises or an exit goes
astray. -/
theorem walk_spec : ∀ (lots : List OpenPosition) (s : Replayed) (written : List TradeRow),
    Balanced setup broker store written s → s.broker.lots = lots →
    let r := Ran.loop (visit setup why price) s lots
    (Orderly setup store.nextId why s → r.Returns ∧
      r.state.broker.lots = lots.filter (fun lot => (why lot).isNone) ∧
      ∃ written', Balanced setup broker store written' r.state) ∧
    (¬ Orderly setup store.nextId why s → r.Returns → Stray store.nextId r.state) := by
  intro lots
  induction lots with
  | nil =>
    intro s written h hlots
    refine ⟨fun _ => ⟨rfl, hlots, written, h⟩, fun hno _ => absurd (orderly_of_none ?_) hno⟩
    rw [hlots]
    exact fun lot hlot => absurd hlot List.not_mem_nil
  | cons lot lots ih =>
    intro s written h hlots
    dsimp only
    cases hwhy : why lot with
    | none =>
      rw [Ran.loop_cons, visit_none hwhy, Ran.ok_andThen]
      by_cases hhit : ∃ l ∈ lots, (why l).isSome
      · refine ⟨fun hord => ?_, fun _ => walk_not_first h hlots lots (fun _ h => h) hhit⟩
        obtain ⟨l, hl, hsome⟩ := hhit
        have hpair := hord.1
        rw [hlots, List.pairwise_cons] at hpair
        have := hpair.1 l hl hsome
        rw [hwhy] at this
        cases this
      · have hnone : ∀ l ∈ lot :: lots, why l = none := by
          intro l hl
          rcases List.mem_cons.mp hl with rfl | hl
          · exact hwhy
          · cases hl' : why l with
            | none => rfl
            | some reason => exact absurd ⟨l, hl, by rw [hl']; rfl⟩ hhit
        have hkept : (lot :: lots).filter (fun l => (why l).isNone) = lot :: lots :=
          List.filter_eq_self.mpr fun l hl => by rw [hnone l hl]; rfl
        rw [walk_none fun l hl => hnone l (List.mem_cons_of_mem _ hl), hkept]
        refine ⟨fun _ => ⟨rfl, hlots, written, h⟩, fun hno => absurd (orderly_of_none ?_) hno⟩
        rw [hlots]
        exact hnone
    | some reason =>
      have hsome : (why lot).isSome := by rw [hwhy]; rfl
      by_cases hold : NoOlderRow setup store.nextId s.store
      · obtain ⟨hret, hlots', hold', written', h'⟩ := exitLot_first h hold hlots price reason
        rw [orderly_cons_iff hlots hsome hlots' hold hold', Ran.loop_cons, visit_some hwhy,
          Ran.andThen_returns hret,
          List.filter_cons_of_neg (by rw [hwhy]; exact Bool.false_ne_true)]
        exact ih _ written' h' hlots'
      · refine ⟨fun hord => absurd (hord.2 ⟨lot, ?_, hsome⟩) hold, fun _ =>
          walk_stray hwhy (exitLot_older h hold lot reason)⟩
        rw [hlots]
        exact List.mem_cons_self

/-- `walk_spec` for the lots of the symbol. -/
theorem exitPass_spec (h : Balanced setup broker store written s)
    (why : OpenPosition → Option CloseReason) (price : ℚ) :
    let r := exitPass setup why price s
    (Orderly setup store.nextId why s → r.Returns ∧
      r.state.broker.lots = s.broker.lots.filter (fun lot => (why lot).isNone) ∧
      ∃ written', Balanced setup broker store written' r.state) ∧
    (¬ Orderly setup store.nextId why s → r.Returns → Stray store.nextId r.state) := by
  unfold exitPass
  rw [h.lotsFor]
  exact walk_spec _ s written h rfl

theorem Stray.exitPass {first : ℕ} (h : Stray first s) (setup : Setup)
    (why : OpenPosition → Option CloseReason) (price : ℚ) :
    Stray first (exitPass setup why price s).state :=
  Ran.loop_inv (P := Stray first) (fun _ lot hs => hs.visit lot) _ _ h

/-! ## Opening a lot -/

/-- The lot of a buy and the row written for it. -/
theorem Balanced.bought (h : Balanced setup broker store written s) (lot : OpenPosition)
    (hticker : lot.ticker = setup.symbol) (hid : lot.lotId = s.broker.nextLot) {b : PaperBroker}
    (hlots : b.lots = s.broker.lots ++ [lot]) (hnext : b.nextLot = s.broker.nextLot + 1)
    (hcash : b.cash = s.broker.cash - outlay lot) (condition : String) (prob entry : ℚ)
    (calib : CalibrationStore) :
    ∃ written', Balanced setup broker store written'
      { s with
        broker := b
        calib := calib
        store := s.store.openTrade setup.symbol setup.timeframe condition prob entry lot.quantity
          lot.entryFee (some lot.lotId) } := by
  let row : TradeRow :=
    { id := s.store.nextId, symbol := setup.symbol, timeframe := setup.timeframe
      condition := condition, statedProb := prob, entryPrice := entry, size := lot.quantity
      entryFee := lot.entryFee, lotId := some lot.lotId }
  have hmem : ∀ t ∈ b.lots, t ∈ s.broker.lots ∨ t = lot := by
    intro t ht
    rw [hlots] at ht
    exact (List.mem_append.mp ht).imp id List.mem_singleton.mp
  refine ⟨written ++ [row],
    { tickers := ?_, ids := ?_, ids_lt := ?_, trades := ?_, next_le := ?_, written_id := ?_
      matched := ?_, closed := ?_, own := h.own, cash := ?_ }⟩
  · intro t ht
    rcases hmem t ht with ht | rfl
    · exact h.tickers t ht
    · exact hticker
  · show (b.lots.map (·.lotId)).Pairwise (· < ·)
    rw [hlots, List.map_append, List.pairwise_append]
    refine ⟨h.ids, List.pairwise_singleton _ _, ?_⟩
    intro i hi j hj
    obtain ⟨t, ht, rfl⟩ := List.mem_map.mp hi
    obtain rfl := List.mem_singleton.mp hj
    show t.lotId < lot.lotId
    rw [hid]
    exact h.ids_lt t ht
  · intro t ht
    show t.lotId < b.nextLot
    rw [hnext]
    rcases hmem t ht with ht | rfl
    · exact Nat.lt_succ_of_lt (h.ids_lt t ht)
    · rw [hid]
      exact Nat.lt_succ_self _
  · show s.store.trades ++ [row] = _
    rw [h.trades, List.append_assoc]
  · exact Nat.le_succ_of_le h.next_le
  · intro t ht
    rcases List.mem_append.mp ht with ht | ht
    · exact h.written_id t ht
    · obtain rfl := List.mem_singleton.mp ht
      exact h.next_le
  · show List.Forall₂ (Matches setup) b.lots _
    rw [hlots, List.filter_append, List.filter_cons_of_pos rfl, List.filter_nil]
    exact List.rel_append h.matched (List.Forall₂.cons ⟨rfl, rfl, rfl, rfl⟩ List.Forall₂.nil)
  · intro t ht hclosed
    rcases List.mem_append.mp ht with ht | ht
    · exact h.closed t ht hclosed
    · obtain rfl := List.mem_singleton.mp ht
      cases hclosed
  · have hbefore := h.cash
    show b.cash + (b.lots.map outlay).sum = _
    have hrow : pnlOf row = 0 := rfl
    rw [hcash, hlots, List.map_append, List.sum_append, List.map_append, List.sum_append,
      List.map_cons, List.map_nil, List.sum_singleton, List.map_cons, List.map_nil,
      List.sum_singleton, hrow]
    linarith

/-- The equity of a broker all of whose lots have a price never raises. -/
theorem Balanced.equity_ok (h : Balanced setup broker store written s) (cur : ℚ) :
    ∃ equity, s.broker.equity (fun t => if t = setup.symbol then some (some cur) else none) =
      .ok equity := by
  have hvalue : ∀ lots : List OpenPosition, (∀ lot ∈ lots, lot.ticker = setup.symbol) →
      ∃ v, PaperBroker.positionValue
        (fun t => if t = setup.symbol then some (some cur) else none) lots = .ok v := by
    intro lots
    induction lots with
    | nil => intro _; exact ⟨0, rfl⟩
    | cons lot rest ih =>
      intro hin
      obtain ⟨v, hv⟩ := ih fun l hl => hin l (List.mem_cons_of_mem _ hl)
      unfold PaperBroker.positionValue PaperBroker.markValue
      simp only [if_pos (hin lot List.mem_cons_self), hv]
      exact ⟨_, rfl⟩
  obtain ⟨v, hv⟩ := hvalue s.broker.lots h.tickers
  unfold PaperBroker.equity
  rw [hv]
  exact ⟨_, rfl⟩

/-- An entry returns and keeps the books in order. -/
theorem enter_spec (h : Balanced setup broker store written s) (sig : Signal) (cur : ℚ) :
    (enter setup s sig cur).Returns ∧
      ∃ written', Balanced setup broker store written' (enter setup s sig cur).state := by
  obtain ⟨equity, hequity⟩ := h.equity_ok cur
  unfold enter
  simp only [hequity]
  split
  · exact ⟨rfl, written, { h with }⟩
  · refine ⟨rfl, ?_⟩
    simp only [PaperBroker.placeOrder, List.getLast?_concat, Option.map_some]
    refine h.bought (s.broker.boughtLot
      { ticker := setup.symbol, side := .buy, quantity := _, price := cur, condition := _ } _ cur)
      rfl rfl rfl rfl rfl _ _ _ _

theorem enter_closings (sig : Signal) (cur : ℚ) :
    (enter setup s sig cur).state.closings = s.closings := by
  unfold enter
  dsimp only
  split
  · rfl
  · split
    · rfl
    · split <;> rfl

/-! ## Over the bars -/

theorem smaStack_evaluate (series : List Candle) : ∃ long, smaStack.evaluate series = .ok long := by
  unfold smaStack
  dsimp only
  split <;> exact ⟨_, rfl⟩

theorem computeSignal_ok (bar : Bar) (symbol : Ticker) (timeframe : String) :
    ∃ sig, computeSignal bar.series symbol timeframe smaStack = .ok sig := by
  obtain ⟨long, hlong⟩ := smaStack_evaluate bar.series
  have hlen := bar.two_le_length
  unfold computeSignal
  simp only [List.length_map, if_neg (Nat.not_lt.mpr hlen), hlong]
  exact ⟨_, rfl⟩

/-- What a turn does after its walk over the lots. -/
theorem barStep_eq (setup : Setup) (s : Replayed) (bar : Bar) : ∃ sig, barStep setup s bar =
    (exitPass setup (exitReason bar.close) bar.close s).andThen fun s =>
      if sig.direction ≠ .long ∨ setup.risk.halted = true then .ok s
      else enter setup s sig bar.close := by
  obtain ⟨sig, hsig⟩ := computeSignal_ok bar setup.symbol setup.timeframe
  refine ⟨sig, ?_⟩
  unfold barStep
  rw [hsig]

theorem Stray.barStep {first : ℕ} (h : Stray first s) (bar : Bar) :
    Stray first (Replay.barStep setup s bar).state := by
  obtain ⟨sig, hstep⟩ := barStep_eq setup s bar
  rw [hstep]
  rcases Ran.andThen_cases (Replay.exitPass setup (exitReason bar.close) bar.close s) (fun s =>
    if sig.direction ≠ .long ∨ setup.risk.halted = true then .ok s
    else enter setup s sig bar.close) with ⟨_, hstop⟩ | ⟨_, hgo⟩
  · rw [hstop]
    exact h.exitPass setup _ _
  · rw [hgo]
    split
    · exact h.exitPass setup _ _
    · obtain ⟨c, hc, hno⟩ := h.exitPass setup (exitReason bar.close) bar.close
      exact ⟨c, by rw [enter_closings]; exact hc, hno⟩

/-- A turn goes right exactly when its walk is orderly, and the books are then
in order after it. -/
theorem barStep_spec (bar : Bar) (h : ∃ written, Balanced setup broker store written s) :
    (Orderly setup store.nextId (exitReason bar.close) s ↔
      (barStep setup s bar).Returns ∧ ¬ Stray store.nextId (barStep setup s bar).state) ∧
    (Orderly setup store.nextId (exitReason bar.close) s →
      ∃ written, Balanced setup broker store written (barStep setup s bar).state) := by
  obtain ⟨written, h⟩ := h
  obtain ⟨sig, hstep⟩ := barStep_eq setup s bar
  obtain ⟨hyes, hno⟩ := exitPass_spec h (exitReason bar.close) bar.close
  have hgood : Orderly setup store.nextId (exitReason bar.close) s →
      (barStep setup s bar).Returns ∧
        ∃ written, Balanced setup broker store written (barStep setup s bar).state := by
    intro hord
    obtain ⟨hret, _, written', h'⟩ := hyes hord
    rw [hstep, Ran.andThen_returns hret]
    split
    · exact ⟨rfl, written', h'⟩
    · exact enter_spec h' sig bar.close
  refine ⟨⟨fun hord => ?_, fun ⟨hret, hright⟩ => ?_⟩, fun hord => (hgood hord).2⟩
  · obtain ⟨hret, written', h'⟩ := hgood hord
    exact ⟨hret, h'.not_stray⟩
  · by_contra hord
    rw [hstep] at hret hright
    rcases Ran.andThen_cases (exitPass setup (exitReason bar.close) bar.close s) (fun s =>
      if sig.direction ≠ .long ∨ setup.risk.halted = true then .ok s
      else enter setup s sig bar.close) with ⟨hx, hstop⟩ | ⟨hx, hgo⟩
    · rw [hstop] at hret
      exact hx hret
    · obtain ⟨c, hc, hstray⟩ := hno hord hx
      rw [hgo] at hright
      refine hright ⟨c, ?_, hstray⟩
      split
      · exact hc
      · rw [enter_closings]
        exact hc

/-- The closing walk goes right exactly when it is orderly, and it leaves no
lot open. -/
theorem finish_spec {klines : List Candle} (hempty : klines = [] → s.broker.lots = [])
    (h : ∃ written, Balanced setup broker store written s) :
    (Orderly setup store.nextId (fun _ => some .manualEod) s ↔
      (finish setup klines s).Returns ∧ ¬ Stray store.nextId (finish setup klines s).state) ∧
    (Orderly setup store.nextId (fun _ => some .manualEod) s →
      (finish setup klines s).state.broker.lots = [] ∧
        ∃ written, Balanced setup broker store written (finish setup klines s).state) := by
  obtain ⟨written, h⟩ := h
  unfold finish
  cases hlast : klines.getLast? with
  | none =>
    have hlots := hempty (List.getLast?_eq_none_iff.mp hlast)
    have hord : Orderly setup store.nextId (fun _ => some .manualEod) s := by
      refine orderly_of_none fun lot hlot => ?_
      rw [hlots] at hlot
      cases hlot
    dsimp only
    rw [h.lotsFor, if_pos hlots]
    exact ⟨⟨fun _ => ⟨rfl, h.not_stray⟩, fun _ => hord⟩, fun _ => ⟨hlots, written, h⟩⟩
  | some last =>
    dsimp only
    obtain ⟨hyes, hno⟩ := exitPass_spec h (fun _ => some .manualEod) last.close
    refine ⟨⟨fun hord => ?_, fun ⟨hret, hright⟩ => ?_⟩, fun hord => ?_⟩
    · obtain ⟨hret, _, written', h'⟩ := hyes hord
      exact ⟨hret, h'.not_stray⟩
    · by_contra hord
      exact hright (hno hord hret)
    · obtain ⟨_, hlots, written', h'⟩ := hyes hord
      refine ⟨?_, written', h'⟩
      rw [hlots]
      exact List.filter_eq_nil_iff.mpr fun _ _ => Bool.false_ne_true

theorem Stray.finish {first : ℕ} {klines : List Candle} (h : Stray first s) :
    Stray first (finish setup klines s).state := by
  unfold Replay.finish
  split
  · split
    · exact h
    · exact h
  · exact h.exitPass setup _ _

/-- Books in order with no lot open have come out right. -/
theorem Balanced.bookkept (h : Balanced setup broker store written s)
    (hlots : s.broker.lots = []) {r : Ran ReplayError Replayed} (hret : r.Returns)
    (hr : r.state = s) : Bookkept broker store r := by
  subst hr
  have hclosed : ∀ row ∈ written, row.isOpen = false := by
    have hmatched := h.matched
    rw [hlots] at hmatched
    have hnone := List.forall₂_nil_left_iff.mp hmatched
    exact fun row hrow => Bool.eq_false_iff.mpr (List.filter_eq_nil_iff.mp hnone row hrow)
  refine
    { returns := hret, lots_closed := hlots, own_exit := ?_, own_row := h.own, pnl := ?_ }
  · rw [h.rowsFrom_eq]
    exact fun row hrow => h.closed row hrow (hclosed row hrow)
  · have hcash := h.cash
    rw [hlots, List.map_nil, List.sum_nil] at hcash
    rw [h.rowsFrom_eq]
    linarith

end

/-! ## The whole replay -/

/-- A broker with no lots and a table with no rows of this replay are in order. -/
theorem balanced_start (setup : Setup) {broker : PaperBroker} (calib : CalibrationStore)
    (store : TradeStore) (hlots : broker.lots = []) :
    Balanced setup broker store [] { broker := broker, calib := calib, store := store } := by
  refine
    { tickers := ?_, ids := ?_, ids_lt := ?_, trades := (List.append_nil _).symm
      next_le := le_refl _, written_id := fun _ h => absurd h List.not_mem_nil, matched := ?_
      closed := fun _ h => absurd h List.not_mem_nil
      own := fun _ h => absurd h List.not_mem_nil, cash := ?_ }
  · simp [hlots]
  · simp [hlots]
  · simp [hlots]
  · simp [hlots]
  · simp [hlots]

/-- The books of a replay that starts with no lot open come out right exactly
when every walk is orderly: no lot reaches its stop or target while an older
one stays open, and no open row of the symbol is older than the replay when a
lot is closed. -/
theorem bookkept_iff (setup : Setup) (klines : List Candle) (broker : PaperBroker)
    (calib : CalibrationStore) (store : TradeStore) (hlots : broker.lots = []) :
    Bookkept broker store (replay setup klines broker calib store) ↔
      InOrder setup klines broker calib store := by
  have hstart : ∃ written, Balanced setup broker store written
      { broker := broker, calib := calib, store := store } :=
    ⟨[], balanced_start setup calib store hlots⟩
  have hloop := Ran.loop_good_iff (W := Stray store.nextId)
    (I := fun s => ∃ written, Balanced setup broker store written s)
    (fun s ⟨_, h⟩ => h.not_stray) (fun s bar h => h.barStep bar)
    (fun s bar h => (barStep_spec bar h).1) (fun s bar h => (barStep_spec bar h).2)
    (bars klines) _ hstart
  have hrun := fun halong => Ran.loop_of_along
    (I := fun s => ∃ written, Balanced setup broker store written s)
    (fun s bar h hord => ⟨((barStep_spec bar h).1.mp hord).1, (barStep_spec bar h).2 hord⟩)
    (bars klines) _ hstart halong
  have hempty : klines = [] →
      (overBars setup klines broker calib store).state.broker.lots = [] := by
    intro hk
    rw [hk]
    exact hlots
  unfold replay
  constructor
  · intro hbooks
    have hreturns := hbooks.returns
    rcases Ran.andThen_cases (overBars setup klines broker calib store) (finish setup klines)
      with ⟨hx, hstop⟩ | ⟨hret, hgo⟩
    · rw [hstop] at hreturns
      exact absurd hreturns hx
    rw [hgo] at hreturns hbooks
    have hright : ¬ Stray store.nextId
        (finish setup klines (overBars setup klines broker calib store).state).state :=
      fun ⟨c, hc, hno⟩ => hno (hbooks.own_row c hc)
    have halong := hloop.mp ⟨hret, fun hstray => hright hstray.finish⟩
    exact ⟨halong, (finish_spec hempty (hrun halong).2).1.mpr ⟨hreturns, hright⟩⟩
  · intro ⟨halong, hord⟩
    obtain ⟨hret, hbalanced⟩ := hrun halong
    obtain ⟨hiff, hkeep⟩ := finish_spec hempty hbalanced
    obtain ⟨hclosed, written, hfinal⟩ := hkeep hord
    have hret' : (overBars setup klines broker calib store).Returns := hret
    rw [Ran.andThen_returns hret']
    exact hfinal.bookkept hclosed (hiff.mp hord).1 rfl

/-! ## A lot closed before an older one -/

/-- A bar that opens, moves and closes at `c`. -/
def flatBar (c : ℚ) : Candle :=
  { ts := 0, «open» := c, high := c, low := c, close := c, volume := 0 }

/-- Sixty closes from 40 up by one, then `tail`. -/
def risingThen (tail : List ℚ) : List Candle :=
  ((List.range 60).map fun i => flatBar (40 + i)) ++ tail.map flatBar

def btcFiveMinutes : Setup := { symbol := "BTC/USDT", timeframe := "5m", risk := {} }

/-- The broker `main` starts with. -/
def mainBroker : PaperBroker := { cash := 10000, takerFee := 1 / 1000, slippage := 2 / 10000 }

set_option maxRecDepth 100000 in
/-- The lots bought at 100 and 103 reach their targets together at 110. -/
theorem bookkept_iff_rising :
    Bookkept mainBroker {} (replay btcFiveMinutes (risingThen [100, 103, 110]) mainBroker
      (CalibrationStore.load {}) {}) :=
  (bookkept_iff _ _ _ _ _ rfl).mpr (by decide +kernel)

set_option maxRecDepth 100000 in
/-- Lots bought at 100 and 103. The close of 98 is below the stop of the second
only, whose sell comes out of the first: the replay ends with no lot open and
two closed rows, whose profits are not what happened to cash. -/
theorem younger_lot_first :
    ¬ Bookkept mainBroker {} (replay btcFiveMinutes (risingThen [100, 103, 98]) mainBroker
      (CalibrationStore.load {}) {}) := by
  intro h
  exact absurd h.pnl (by decide +kernel)

end PaperTrading.Trading.Replay
