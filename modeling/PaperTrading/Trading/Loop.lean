import PaperTrading.Broker.Sell
import PaperTrading.Risk.Managed
import PaperTrading.Calibration.Store
import PaperTrading.Trading.Signal
import PaperTrading.Trading.BuyAndHold

/-!
# The trading loop

`trading/loop.py`: one decision cycle of one account. `manageOpenPositions`
re-prices the open lots and closes those whose stop or take-profit the price
has crossed; `runCycle` does that, decides each symbol once, and writes the
decision log, the equity snapshot and the calibration file.

Both can raise half-way (the equity of a book with a lot whose price is
`None`), and what they wrote until then stays: they are `Ran` values. The
store is always there and the regime gate never is, as in the two programs
that build a loop.
-/

namespace PaperTrading.Trading

open Broker Risk Calibration PaperTrading.Lib

/-- `QUAL_TIMEFRAME` -/
def QUAL_TIMEFRAME : String := "5m"

inductive Action where
  | enter
  | hold
  | closeTp
  | closeStop
  | rejected
deriving DecidableEq, Repr

def Action.text : Action → String
  | .enter => "ENTER"
  | .hold => "HOLD"
  | .closeTp => "CLOSE_TP"
  | .closeStop => "CLOSE_STOP"
  | .rejected => "REJECTED"

structure CycleResult where
  symbol : Ticker
  condition : String
  probability : ℚ
  direction : Direction
  action : Action
  reason : String := ""
  equity : ℚ := 0
  size : ℚ := 0
  entry : ℚ := 0
  fills : List Fill := []
deriving DecidableEq, Repr

/-- The decision row `run_cycle` records for a result. -/
def CycleResult.toDecision (r : CycleResult) : DecisionRow :=
  { symbol := r.symbol, timeframe := QUAL_TIMEFRAME, condition := r.condition
    calibratedProb := r.probability, direction := r.direction.text, action := r.action.text
    reason := r.reason, equity := r.equity, size := r.size, entry := r.entry }

/-- `CachedMarket`: one snapshot of prices and klines. -/
structure CachedMarket where
  prices : Ticker → Option ℚ
  klines : Ticker → List Candle

namespace CachedMarket

def fetchPrice (m : CachedMarket) (symbol : Ticker) : Except String ℚ :=
  match m.prices symbol with
  | none => .error s!"no cached price for {symbol}"
  | some p => .ok p

def fetchKlines (m : CachedMarket) (symbol : Ticker) : Except String (List Candle) :=
  if m.klines symbol = [] then .error s!"no cached klines for {symbol}"
  else .ok (m.klines symbol)

/-- The dict `px` of a cycle: a key for every symbol, `None` where the fetch
failed. -/
def priceMap (m : CachedMarket) (symbols : List Ticker) : PriceMap := fun t =>
  if t ∈ symbols then some (m.fetchPrice t).toOption else none

end CachedMarket

structure TradingLoop where
  broker : PaperBroker
  risk : RiskManager
  calib : CalibrationStore
  store : TradeStore
  history : List CycleResult := []

/-! ## Exits -/

inductive ExitReason where
  | stopLoss
  | takeProfit
deriving DecidableEq, Repr

def ExitReason.text : ExitReason → String
  | .stopLoss => "stop_loss"
  | .takeProfit => "take_profit"

/-- Whether a close at `exit` counts as a success; the code spells the two
cases differently. -/
def ExitReason.success (why : ExitReason) (entry exit : ℚ) : Bool :=
  match why with
  | .takeProfit => exit > entry
  | .stopLoss => ¬ exit ≤ entry

/-- Which of a lot's levels the price has crossed, and that price. -/
def crossing (px : PriceMap) (lot : OpenPosition) : Option (ℚ × ExitReason) :=
  match px.get lot.ticker with
  | none => none
  | some cur =>
    if cur ≤ lot.stopLoss then some (cur, .stopLoss)
    else if cur ≥ RiskManager.takeProfitPrice lot.entryPrice lot.stopLoss TAKE_PROFIT_RR then
      some (cur, .takeProfit)
    else none

/-- The key a lot's outcome is learned under. -/
def outcomeKey (lot : OpenPosition) : String :=
  if lot.entryCondition = "" then conditionKey lot.ticker "closed" "any" else lot.entryCondition

/-- The exit columns `_close_store_lot` writes for a fill. -/
def exitOf (lot : OpenPosition) (fill : Fill) (why : ExitReason) : TradeExit :=
  { price := fill.price
    reason := why.text
    fee := fill.fee
    pnl := (fill.price - lot.entryPrice) * lot.quantity - fill.fee - lot.entryFee
    pnlPct := if lot.entryPrice = 0 then 0 else (fill.price - lot.entryPrice) / lot.entryPrice
    hit := why.success lot.entryPrice fill.price }

/-- The row `_close_store_lot` picks: the open row of the lot's symbol and id,
else the first open row of the symbol. -/
def rowOf (store : TradeStore) (lot : OpenPosition) : Option TradeRow :=
  (store.openTradeIds.find? fun t => t.symbol = lot.ticker ∧ t.lotId = some lot.lotId).or
    (store.openTradeIds.find? fun t => t.symbol = lot.ticker)

/-- `_close_store_lot`, on the store. -/
def closeStoreLot (store : TradeStore) (lot : OpenPosition) (fill : Fill) (why : ExitReason) :
    TradeStore :=
  match rowOf store lot with
  | none => store
  | some row => store.closeTrade row.id (exitOf lot fill why)

def closedResult (lot : OpenPosition) (cur : ℚ) (why : ExitReason) (equity : ℚ) : CycleResult :=
  { symbol := lot.ticker, condition := "closed", probability := 0, direction := .flat
    action := match why with
      | .stopLoss => .closeStop
      | .takeProfit => .closeTp
    reason := match why with
      | .stopLoss => s!"stop at {fixed 0 cur}"
      | .takeProfit => s!"tp at {fixed 2 cur}"
    equity := equity }

namespace TradingLoop

/-- `_record_outcome` and `_close_store_lot` after a fill. -/
def settle (loop : TradingLoop) (lot : OpenPosition) (fill : Fill) (why : ExitReason) :
    TradingLoop :=
  { loop with
    calib := loop.calib.recordOutcome (outcomeKey lot) (why.success lot.entryPrice fill.price)
    store := closeStoreLot loop.store lot fill why }

/-- One turn of the loop in `_manage_open_positions`. The equity is taken
after the close, and raises if a lot that is still open has the price
`None`. -/
def manageLot (px : PriceMap) (loop : TradingLoop) (lot : OpenPosition) :
    Ran PyError TradingLoop :=
  match crossing px lot with
  | none => .ok loop
  | some (cur, why) =>
    match loop.broker.closeLot lot cur with
    | .error e => .raise e loop
    | .ok (broker, fill) =>
      let loop := { loop with broker := broker }.settle lot fill why
      match loop.broker.equity px with
      | .error e => .raise e loop
      | .ok equity =>
        .ok { loop with history := loop.history ++ [closedResult lot cur why equity] }

/-- `_manage_open_positions`, over a copy of the lots as they were. -/
def manageOpenPositions (loop : TradingLoop) (px : PriceMap) : Ran PyError TradingLoop :=
  Ran.loop (manageLot px) loop loop.broker.lots

end TradingLoop

/-! ## Entries -/

/-- `_propose_probability` -/
def proposeProbability (sig : Signal) : ℚ :=
  let base := 55 / 100 + 15 / 100 * |sig.rawScore|
  let base := if sig.features.rsi ≥ 70 ∨ sig.features.rsi ≤ 30 then base + 3 / 100 else base
  roundTo 3 (max (1 / 2) (min (8 / 10) base))

/-- An entry every gate let through. -/
structure Entry where
  price : ℚ
  stop : ℚ
  size : ℚ
deriving DecidableEq, Repr

/-- What the gates see of a symbol besides the loop. -/
structure Candidate where
  symbol : Ticker
  klines : List Candle
  signal : Signal
  probability : ℚ
  equity : ℚ

/-- The gates between a signal and an order, in their order. A refusal is the
action and the reason of the cycle's result. -/
def entryGates (loop : TradingLoop) (px : PriceMap) (c : Candidate) :
    Except (Action × String) Entry :=
  let broker := loop.broker
  let haltReason := loop.risk.haltReason.getD "None"
  if loop.risk.halted then .error (.rejected, s!"halted: {haltReason}")
  else if c.signal.direction ≠ .long then
    .error (.hold, s!"no entry: direction={c.signal.direction.text}")
  else
    match px.get c.symbol with
    | none => .error (.rejected, "no price")
    | some entry =>
      let stop := atrStopPrice entry (atr c.klines ATR_PERIOD)
      let existing := broker.lotsFor c.symbol
      if existing.length ≥ MAX_LOTS_PER_SYMBOL then
        .error (.rejected,
          s!"max lots reached ({MAX_LOTS_PER_SYMBOL} lots open for {c.symbol})")
      else if existing.any fun lot => (entry - lot.entryPrice) * lot.quantity ≤ 0 then
        .error (.hold, s!"pyramid hold: prior {c.symbol} lots not in profit yet")
      else
        let rd := loop.risk.sizePosition c.equity entry stop
          (broker.lots.map fun p => ⟨p.entryPrice, p.stopLoss, p.quantity⟩)
          (confidenceMultiplier c.probability) (some broker.cash)
          ((1 + broker.slippage) * (1 + broker.takerFee))
        if rd.approved then .ok { price := entry, stop := stop, size := rd.size }
        else .error (.rejected, rd.reason)

/-- The id of the last lot of the book, the one just bought. -/
def lastLotId (b : PaperBroker) : Option ℕ := b.lots.getLast?.map (·.lotId)

/-- The results of a cycle so far, with the loop. -/
structure CycleState where
  loop : TradingLoop
  results : List CycleResult := []

/-- Place the order of an entry, add its result and open its trade row. -/
def enterTrade (px : PriceMap) (c : Candidate) (e : Entry) (s : CycleState) :
    Ran PyError CycleState :=
  let key := conditionKey c.symbol QUAL_TIMEFRAME c.signal.condition
  match s.loop.broker.placeOrder
      { ticker := c.symbol, side := .buy, quantity := e.size, price := e.price
        stopLoss := some e.stop, condition := key } (some e.price) with
  | .error err => .raise err s
  | .ok (broker, fill) =>
    let loop := { s.loop with broker := broker }
    match broker.equity px with
    | .error err => .raise err { s with loop := loop }
    | .ok equity =>
      let result : CycleResult :=
        { symbol := c.symbol, condition := c.signal.condition, probability := c.probability
          direction := c.signal.direction, action := .enter
          reason := s!"size {fixed 4 e.size} stop {fixed 0 e.stop}"
          equity := equity, size := e.size, entry := e.price, fills := [fill] }
      .ok { loop := { loop with
              store := loop.store.openTrade c.symbol QUAL_TIMEFRAME c.signal.condition
                c.probability e.price e.size fill.fee (lastLotId broker) }
            results := s.results ++ [result] }

/-- One symbol of `run_cycle`, once its signal is there. -/
def decideSymbol (px : PriceMap) (sym : Ticker) (klines : List Candle) (sig : Signal)
    (s : CycleState) : Ran PyError CycleState :=
  let key := conditionKey sym QUAL_TIMEFRAME sig.condition
  let asked := s.loop.calib.calibratedProbability key (proposeProbability sig)
  let prob := asked.2
  let s := { s with loop := { s.loop with calib := asked.1 } }
  match s.loop.broker.equity px with
  | .error e => .raise e s
  | .ok equity =>
    let c : Candidate :=
      { symbol := sym, klines := klines, signal := sig, probability := prob, equity := equity }
    match entryGates s.loop px c with
    | .error (action, reason) =>
      .ok { s with results := s.results ++
              [{ symbol := sym, condition := sig.condition, probability := prob
                 direction := sig.direction, action := action, reason := reason
                 equity := equity }] }
    | .ok e => enterTrade px c e s

/-- The klines and the signal of a symbol. -/
def fetchSignal (strategy : Strategy) (market : CachedMarket) (sym : Ticker) :
    Except String (List Candle × Signal) := do
  let klines ← market.fetchKlines sym
  let sig ← computeSignal klines sym QUAL_TIMEFRAME strategy
  return (klines, sig)

/-- One symbol of `run_cycle`: a failed fetch or signal is a rejection. -/
def tradeSymbol (strategy : Strategy) (market : CachedMarket) (px : PriceMap)
    (s : CycleState) (sym : Ticker) : Ran PyError CycleState :=
  match fetchSignal strategy market sym with
  | .error e =>
    .ok { s with results := s.results ++
            [{ symbol := sym, condition := "ERR", probability := 0, direction := .flat
               action := .rejected, reason := s!"data error: {e}" }] }
  | .ok (klines, sig) => decideSymbol px sym klines sig s

/-- The end of `run_cycle`: decisions, snapshot, history, calibration file. -/
def finishCycle (market : CachedMarket) (symbols : List Ticker) (s : CycleState) :
    Ran PyError CycleState :=
  let store := s.results.foldl (fun st r => st.recordDecision r.toDecision) s.loop.store
  let pxNow := market.priceMap symbols
  match s.loop.broker.equity pxNow with
  | .error e => .raise e { s with loop := { s.loop with store := store } }
  | .ok equity =>
    let priced := symbols.filterMap fun sym => (pxNow.get sym).map fun p => (sym, p)
    let overlay := overlayEquity store priced PAPER_START_CASH
    .ok { s with loop := { s.loop with
            store := overlay.1.snapshotEquity equity overlay.2
            history := s.loop.history ++ s.results
            calib := s.loop.calib.save } }

/-- `run_cycle` -/
def runCycle (strategy : Strategy) (market : CachedMarket) (symbols : List Ticker)
    (loop : TradingLoop) : Ran PyError CycleState :=
  let px := market.priceMap symbols
  ((loop.manageOpenPositions px).map fun l => ({ loop := l } : CycleState)).andThen fun s =>
    (Ran.loop (tradeSymbol strategy market px) s symbols).andThen
      (finishCycle market symbols)

end PaperTrading.Trading
