import PaperTrading.Library.Conforms
import PaperTrading.Library.Daily
import PaperTrading.Trading.Accounts

/-!
# The live library account

`library/live.py`: one run of a library champion's account. The position is the
broker's, the machine and the last processed day are the account's saved state,
and the decision for a day is taken by the first run after the day has closed,
at that run's price. Days that closed while the cycle was down are replayed in
order; only the net change is traded.

A day whose lookback is not warm is skipped: it is not a flat signal. The
strategies of the catalog are a parameter: a signal function, a mask of its
finite inputs, and a stop.
-/

namespace PaperTrading.Library

open Broker Trading

def SYMBOL : Ticker := "BTC/USDT"

def TIMEFRAME : String := "1d"

def CYCLE_INTERVAL_SECONDS : ℤ := 300

/-- A library strategy with its parameters: one flag a day, and one mask entry a
day. `canonical` says whether the signal function is the catalog's own. -/
structure LibraryStrategy where
  key : String
  signal : List Day → List Bool
  signalReady : List Day → List Bool
  canonical : Bool
  stopFrac : ℚ
  signal_length : ∀ bars, (signal bars).length = bars.length
  ready_length : ∀ bars, (signalReady bars).length = bars.length

/-- `_position_ready`: a stub signal is treated as already warm. -/
def LibraryStrategy.positionReady (s : LibraryStrategy) (bars : List Day) : List Bool :=
  if !s.canonical then List.replicate bars.length true else s.signalReady bars

/-- `xs[i]` of a mask as long as the bars. -/
def flagAt (xs : List Bool) (i : ℕ) : Bool := xs[i]?.getD false

/-- `bars.ts[i]` of a day of the bars. -/
def tsAt (bars : List Day) (i : ℕ) : ℤ := (day bars i).ts

theorem tsAt_lt {bars : List Day} (hasc : bars.Pairwise fun a b => a.ts < b.ts) {i j : ℕ}
    (h : i < j) (hj : j < bars.length) : tsAt bars i < tsAt bars j := by
  unfold tsAt day
  rw [List.getElem?_eq_getElem hj, List.getElem?_eq_getElem (h.trans hj)]
  exact List.pairwise_iff_getElem.mp hasc i j (h.trans hj) hj h

/-! ## The account -/

/-- The blob under the key `library`. -/
structure LibraryRaw where
  machine : Option MachineState := none
  lastDay : Option ℤ := none
  lastSignal : Option Bool := none
  deferEntry : Bool := false
  awaitOpenMs : Option ℤ := none
deriving DecidableEq, Repr

/-- What a run did, or that it did nothing. -/
inductive LiveActionKind where
  | enter
  | rejected
  | closeStop
  | closeSignal
  | hold
  | flat
deriving DecidableEq, Repr

structure LiveAction where
  action : LiveActionKind
  reason : String
  size : ℚ := 0
  entry : ℚ := 0
  stop : Option ℚ := none
  exit : Option ℚ := none
  pnl : Option ℚ := none
deriving DecidableEq, Repr

/-- A row of the decision log of a library account. -/
structure LibraryDecision where
  direction : String
  action : LiveActionKind
  reason : String
  equity : ℚ
  size : ℚ
  entry : ℚ
  signal : Option Bool
  lastDay : Option ℤ
deriving DecidableEq, Repr

/-- One account's database: its tables, the saved broker and the library blob. -/
structure LibraryAccount where
  db : TradeStore := {}
  decisions : List LibraryDecision := []
  broker : Option BrokerState := none
  library : LibraryRaw := {}
deriving DecidableEq, Repr

/-- The account before its first run. -/
def LibraryAccount.fresh : LibraryAccount := { db := AccountFiles.fresh.db }

/-- `at_open`: the first five minutes of a UTC day, the far edge included. -/
def atDailyOpen : Option ℤ → Bool
  | none => false
  | some nowMs => nowMs % DAY_MS ≤ CYCLE_INTERVAL_SECONDS * 1000

/-- 00:00 UTC after `nowMs`. -/
def nextDailyOpenMs (nowMs : ℤ) : ℤ := nowMs - nowMs % DAY_MS + DAY_MS

/-- The broker and the machine of `_open_account`. The broker is the source of
truth for the position. `nextLot` is the process's lot counter. -/
def openAccount (account : LibraryAccount) (nextLot : ℕ) : PaperBroker × MachineState :=
  let broker : PaperBroker := { cash := PAPER_START_CASH, nextLot := nextLot }
  let broker := match account.broker with
    | none => broker
    | some saved => broker.restoreState saved
  let machine := account.library.machine.getD {}
  (broker, { machine with long := broker.lots.any fun lot => lot.ticker = SYMBOL })

/-- A run in progress. -/
structure LiveRun where
  db : TradeStore
  broker : PaperBroker
  raw : LibraryRaw
  machine : MachineState
  actions : List LiveAction := []

/-- `_buy`. The costs are `paperCosts`: the broker is built with the paper fee and
slippage, and a restored state does not change them. -/
def LiveRun.buy (r : LiveRun) (price stopFrac : ℚ) (condition : String) :
    Except PyError LiveRun :=
  let (qty, fillPx, _) := buyFill r.broker.cash price paperCosts
  if qty ≤ 0 then
    .ok { r with actions := r.actions ++ [{ action := .rejected, reason := "no cash" }] }
  else
    let stop := stopPrice fillPx stopFrac
    match r.broker.placeOrder
        { ticker := SYMBOL, side := .buy, quantity := qty, price := price
          stopLoss := some (stop.getD 0), condition := condition } (some price) with
    | .error e => .error e
    | .ok (broker, fill) =>
      .ok { r with
        broker := broker
        db := r.db.openTrade SYMBOL TIMEFRAME condition (1 / 2) fill.price qty fill.fee
          (broker.lots.getLast?.map (·.lotId))
        actions := r.actions ++
          [{ action := .enter, reason := "signal on", size := qty, entry := fill.price
             stop := stop }] }

/-- The row `_sell` closes for a lot: the lot's own, or else the first open one. -/
def rowFor (db : TradeStore) (lot : OpenPosition) : Option ℕ :=
  ((db.openTradeIds.find? fun row => row.symbol = SYMBOL && row.lotId = some lot.lotId).orElse
    fun _ => db.openTradeIds.find? fun row => row.symbol = SYMBOL).map (·.id)

/-- The reason as it is stored. -/
def Reason.text : Reason → String
  | .signal => "signal"
  | .safetyStop => "safety_stop"
  | .windowEnd => "window_end"

/-- One turn of the loop in `_sell`; the action of the last lot is the one kept. -/
def sellLot (price : ℚ) (reason : Reason) (s : LiveRun × Option LiveAction) (lot : OpenPosition) :
    Except PyError (LiveRun × Option LiveAction) :=
  let (r, _) := s
  match r.broker.closeLot lot price with
  | .error e => .error e
  | .ok (broker, fill) =>
    let pnl := (fill.price - lot.entryPrice) * lot.quantity - fill.fee - lot.entryFee
    let pnlPct := if lot.entryPrice = 0 then 0 else fill.price / lot.entryPrice - 1
    let db := match rowFor r.db lot with
      | none => r.db
      | some id => r.db.closeTrade id
          { price := fill.price, reason := reason.text, fee := fill.fee, pnl := pnl
            pnlPct := pnlPct, hit := 0 < pnl }
    .ok ({ r with broker := broker, db := db },
      some { action := if reason = .safetyStop then .closeStop else .closeSignal
             reason := reason.text, exit := some fill.price, pnl := some pnl })

/-- `_sell` -/
def LiveRun.sell (r : LiveRun) (price : ℚ) (reason : Reason) : Except PyError LiveRun :=
  match (r.broker.lots.filter fun lot => lot.ticker = SYMBOL).foldlM (sellLot price reason)
      (r, none) with
  | .error e => .error e
  | .ok (r, none) => .ok r
  | .ok (r, some done) => .ok { r with actions := r.actions ++ [done] }

/-- `_stop_level`: the first lot with a positive stop. -/
def stopLevel (broker : PaperBroker) : Option ℚ :=
  (broker.lots.find? fun lot => lot.ticker = SYMBOL && decide (0 < lot.stopLoss)).map (·.stopLoss)

/-! ## The decision -/

/-- The days to process, and what a first run outside the open window writes down
instead of deciding on days that are already past. -/
def pendingDays (bars : List Day) (signal ready : List Bool) (raw : LibraryRaw)
    (nowMs : Option ℤ) : List ℕ × LibraryRaw :=
  match raw.lastDay with
  | some lastDay => ((List.range bars.length).filter fun i => lastDay < tsAt bars i, raw)
  | none =>
    if atDailyOpen nowMs then ([bars.length - 1], raw)
    else
      let last := bars.length - 1
      let raw := { raw with lastDay := some (tsAt bars last) }
      if flagAt ready last then
        let raw := { raw with lastSignal := some (flagAt signal last) }
        if flagAt signal last then
          ([], { raw with
            deferEntry := true
            awaitOpenMs := match nowMs with
              | none => raw.awaitOpenMs
              | some ms => some (nextDailyOpenMs ms) })
        else ([], raw)
      else ([], raw)

structure Replay where
  machine : MachineState
  exitReason : Option Reason := none
  skipped : Bool := false
deriving DecidableEq, Repr

/-- One pending day. `lotStop` is the stop of the position that was already on
when the run began, `last` the last pending day. -/
def replayDay (bars : List Day) (signal ready : List Bool) (wasLong : Bool) (lotStop : Option ℚ)
    (last : ℕ) (s : Replay) (i : ℕ) : Replay :=
  let s := if s.machine.stopPending && s.machine.long && wasLong then
      { s with machine := stopOut s.machine, exitReason := some .safetyStop }
    else s
  let s := if flagAt ready i then { s with machine := (step s.machine (flagAt signal i)).1 }
    else { s with skipped := true }
  if wasLong && s.machine.long && reaches (day bars i) lotStop then
    -- the run after the breach day is the next daily open
    if i = last then { s with machine := stopOut s.machine, exitReason := some .safetyStop }
    else { s with machine := { s.machine with stopPending := true } }
  else s

/-- `raw` after the pending days: the last of them, and the last warm signal. -/
def markProcessed (bars : List Day) (signal ready : List Bool) (pending : List ℕ)
    (raw : LibraryRaw) : LibraryRaw :=
  match pending.getLast? with
  | none => raw
  | some last =>
    { raw with
      lastDay := some (tsAt bars last)
      lastSignal := match pending.reverse.find? fun i => flagAt ready i with
        | none => raw.lastSignal
        | some i => some (flagAt signal i) }

/-- The signal the run reports. -/
def signalNow (bars : List Day) (signal ready : List Bool) (raw : LibraryRaw) : Option Bool :=
  if flagAt ready (bars.length - 1) then some (flagAt signal (bars.length - 1))
  else raw.lastSignal

/-- A bought position is not deferred any more; a rejected one is not held. -/
def LiveRun.entered (r : LiveRun) : LiveRun :=
  { r with
    raw := { r.raw with deferEntry := false, awaitOpenMs := none }
    machine := match r.actions.getLast? with
      | some a => if a.action = .enter then r.machine else { r.machine with long := false }
      | none => r.machine }

/-- Trade the net change of the replay. -/
def LiveRun.trade (r : LiveRun) (strategy : LibraryStrategy) (condition : String) (price : ℚ)
    (wasLong atOpen : Bool) (exitReason : Option Reason) (signal : Option Bool) :
    Except PyError LiveRun :=
  if r.machine.long && !wasLong then
    if r.raw.deferEntry && !atOpen then
      .ok { r with machine := { r.machine with long := false } }
    else do
      let r ← r.buy price strategy.stopFrac condition
      return r.entered
  else if wasLong && !r.machine.long && !r.broker.lots.isEmpty then
    r.sell price (exitReason.getD .signal)
  else if r.raw.deferEntry && atOpen then
    let r := { r with raw := { r.raw with deferEntry := false, awaitOpenMs := none } }
    if signal = some true && !r.machine.long && !r.machine.lockout then do
      let r ← { r with machine := { r.machine with long := true } }.buy price strategy.stopFrac
        condition
      return r.entered
    else .ok r
  else .ok r

/-- Decide on the days that closed since the last run, and trade. The second part
of the result is the signal of the last close. -/
def LiveRun.decide (r : LiveRun) (strategy : LibraryStrategy) (condition : String)
    (bars : List Day) (price : ℚ) (nowMs : Option ℤ) : Except PyError (LiveRun × Option Bool) :=
  if bars = [] then .ok (r, none)
  else
    let signal := strategy.signal bars
    let ready := strategy.positionReady bars
    let (pending, raw) := pendingDays bars signal ready r.raw nowMs
    let wasLong := r.machine.long
    let lotStop := if wasLong then stopLevel r.broker else none
    let replay := pending.foldl
      (replayDay bars signal ready wasLong lotStop (pending.getLast?.getD 0)) { machine := r.machine }
    let raw := markProcessed bars signal ready pending raw
    let now := signalNow bars signal ready raw
    match { r with raw := raw, machine := replay.machine }.trade strategy condition price wasLong
        (atDailyOpen nowMs) replay.exitReason now with
    | .error e => .error e
    | .ok r => .ok (r, now)

/-- What is written down when nothing was traded. -/
def flatReason (bars : List Day) (r : LiveRun) (signal : Option Bool) : String :=
  if r.raw.deferEntry && signal = some true then "signal on; fill at the next 00:00 UTC open"
  else if bars = [] then "no completed day"
  else (if signal = some true then "signal on" else "signal off") ++
    (if r.machine.lockout then " (locked after stop)" else "")

/-- The price dict of a library run. -/
def symbolPrice (price : ℚ) : PriceMap := fun t => if t = SYMBOL then some (some price) else none

structure LiveResult where
  actions : List LiveAction := []
  long : Option Bool := none
  equity : Option ℚ := none
  signal : Option Bool := none
deriving DecidableEq, Repr

/-- The snapshot, the decision log and the saved state at the end of a run. -/
def LiveRun.finish (r : LiveRun) (account : LibraryAccount) (bars : List Day) (price : ℚ)
    (signal : Option Bool) : Except PyError (LibraryAccount × LiveResult) :=
  match r.broker.equity (symbolPrice price) with
  | .error e => .error e
  | .ok equity =>
    let (db, baseline) := overlayEquity r.db [(SYMBOL, price)] PAPER_START_CASH
    let decisions := if r.actions = [] then
        [{ action := if r.machine.long then LiveActionKind.hold else .flat
           reason := flatReason bars r signal : LiveAction }]
      else r.actions
    .ok ({ db := db.snapshotEquity equity baseline
           decisions := account.decisions ++ decisions.map fun d =>
             { direction := if r.machine.long then "long" else "flat", action := d.action
               reason := d.reason, equity := equity, size := d.size, entry := d.entry
               signal := signal, lastDay := r.raw.lastDay }
           broker := some r.broker.toState
           library := { r.raw with machine := some r.machine } },
      { actions := r.actions, long := some r.machine.long, equity := some equity
        signal := signal })

/-- `run_library_account`: one live decision. Without a positive price nothing is
read or written. -/
def runLibraryAccount (strategy : LibraryStrategy) (account : LibraryAccount) (bars : List Day)
    (price : Option ℚ) (nowMs : Option ℤ) (nextLot : ℕ) :
    Except PyError (LibraryAccount × LiveResult) :=
  match price with
  | none => .ok (account, {})
  | some price =>
    if price ≤ 0 then .ok (account, {})
    else
      let (broker, machine) := openAccount account nextLot
      let condition := SYMBOL ++ "|" ++ TIMEFRAME ++ "|" ++ strategy.key
      match ({ db := account.db, broker := broker, raw := account.library, machine := machine
               : LiveRun }).decide strategy condition bars price nowMs with
      | .error e => .error e
      | .ok (r, signal) => r.finish account bars price signal

end PaperTrading.Library
