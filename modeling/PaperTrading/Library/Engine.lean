import PaperTrading.Broker.Paper
import PaperTrading.Trading.BuyAndHold

/-!
# The daily signal-exit engine

`library/engine.py`: long or flat, all in, one position, exit on the signal. A
signal is the desired position after the close of a completed UTC day; it is
acted on at the next open. A low at or through the safety stop sells at the next
open, and entries stay locked until the signal has been off at a close.

The loop of `run` carries more than the decision needs: the machine's three
flags, cash and quantity, the stop, the open trade with the day it was entered,
and the running fees, days and equity points. `Loop` has them under the
source's names, and a day of the loop is `dayStep`. `Rule.lean` says what the
loop decides, `Accounting.lean` what it adds up.
-/

namespace PaperTrading.Library

open Broker (TAKER_FEE SLIPPAGE)
open Trading (PAPER_START_CASH)

/-- One completed UTC day of `DailyBars`. -/
structure Day where
  ts : ℤ
  open_ : ℚ
  high : ℚ
  low : ℚ
  close : ℚ
deriving DecidableEq, Repr, Inhabited

/-- A fee of at most everything and a slippage of at most the whole price. -/
structure Costs where
  takerFee : ℚ
  slippage : ℚ
  fee_nonneg : 0 ≤ takerFee
  fee_le_one : takerFee ≤ 1
  slippage_nonneg : 0 ≤ slippage
  slippage_le_one : slippage ≤ 1

theorem takerFee_in : 0 ≤ TAKER_FEE ∧ TAKER_FEE ≤ 1 := by decide +kernel

theorem slippage_in : 0 ≤ SLIPPAGE ∧ SLIPPAGE ≤ 1 := by decide +kernel

/-- `Costs()`: the paper broker's fee and slippage. -/
def paperCosts : Costs :=
  ⟨TAKER_FEE, SLIPPAGE, takerFee_in.1, takerFee_in.2, slippage_in.1, slippage_in.2⟩

/-- `REASON_SIGNAL`, `REASON_STOP` and `REASON_END`. -/
inductive Reason where
  | signal
  | safetyStop
  | windowEnd
deriving DecidableEq, Repr

/-- `ENTER` and `EXIT`. -/
inductive Action where
  | enter
  | exit
deriving DecidableEq, Repr

/-- What `run` can raise. -/
inductive RunError where
  /-- `bars.open[d]` or `sig[d - 1]` past the end -/
  | indexError
  /-- `assert trade is not None` -/
  | assertionError
deriving DecidableEq, Repr

/-! ## Fills -/

/-- All-in buy: quantity, fill price, fee. -/
def buyFill (cash refPrice : ℚ) (costs : Costs) : ℚ × ℚ × ℚ :=
  let fill := refPrice * (1 + costs.slippage)
  if cash ≤ 0 ∨ fill ≤ 0 then (0, fill, 0)
  else
    let qty := cash / (fill * (1 + costs.takerFee))
    (qty, fill, qty * fill * costs.takerFee)

/-- Sell everything: fill price, fee, cash received. -/
def sellFill (qty refPrice : ℚ) (costs : Costs) : ℚ × ℚ × ℚ :=
  let fill := refPrice * (1 - costs.slippage)
  let gross := qty * fill
  let fee := gross * costs.takerFee
  (fill, fee, gross - fee)

/-- `none` where the safety stop is switched off. -/
def stopPrice (entryFill stopFrac : ℚ) : Option ℚ :=
  if stopFrac ≤ 0 then none else some (entryFill * (1 - stopFrac))

/-! ## The machine -/

/-- What the decision rule remembers between closes. -/
structure MachineState where
  long : Bool := false
  lockout : Bool := false
  /-- A completed day traded through the stop. The next open sells. -/
  stopPending : Bool := false
deriving DecidableEq, Repr

/-- Apply one completed day's signal. -/
def step (state : MachineState) (on : Bool) : MachineState × Option Action :=
  let (long, action) :=
    if state.long then
      if !on then (false, some Action.exit) else (true, none)
    else if on && !state.lockout then (true, some Action.enter)
    else (false, none)
  ({ state with long := long, lockout := if !on then false else state.lockout }, action)

def stopOut (_ : MachineState) : MachineState :=
  { long := false, lockout := true, stopPending := false }

/-! ## Trades -/

structure Trade where
  entryTs : ℤ
  entryPrice : ℚ
  qty : ℚ
  entryFee : ℚ
  exitTs : ℤ := 0
  exitPrice : ℚ := 0
  exitFee : ℚ := 0
  reason : Option Reason := none
  days : ℤ := 0
deriving DecidableEq, Repr

def Trade.pnl (t : Trade) : ℚ :=
  (t.exitPrice - t.entryPrice) * t.qty - t.entryFee - t.exitFee

/-- What the two fills of a trade were charged. -/
def Trade.fees (t : Trade) : ℚ := t.entryFee + t.exitFee

structure RunResult where
  start : ℤ
  end_ : ℤ
  trades : List Trade := []
  equity : List ℚ := []
  daysLong : ℤ := 0
  fees : ℚ := 0
deriving DecidableEq, Repr

/-! ## The loop of `run` -/

/-- The variables of the loop. -/
structure Loop where
  state : MachineState := {}
  cash : ℚ
  qty : ℚ := 0
  stop : Option ℚ := none
  trade : Option Trade := none
  entryDay : ℕ
  points : List ℚ
  fees : ℚ := 0
  daysLong : ℤ := 0
  trades : List Trade := []
deriving DecidableEq, Repr

def Loop.init (start : ℕ) (startCash : ℚ) : Loop :=
  { cash := startCash, entryDay := start, points := [startCash] }

/-- The trade that selling at `ref` completes. -/
def Trade.closed (t : Trade) (qty : ℚ) (costs : Costs) (ts : ℤ) (ref : ℚ) (reason : Reason)
    (days : ℤ) : Trade :=
  { t with
    exitTs := ts
    exitPrice := (sellFill qty ref costs).1
    exitFee := (sellFill qty ref costs).2.1
    reason := some reason
    days := days }

def Loop.closeTrade (l : Loop) (costs : Costs) (ts : ℤ) (ref : ℚ) (reason : Reason) (days : ℤ) :
    Except RunError Loop :=
  match l.trade with
  | none => .error .assertionError
  | some t =>
    .ok { l with
      cash := l.cash + (sellFill l.qty ref costs).2.2
      fees := l.fees + (sellFill l.qty ref costs).2.1
      trades := l.trades ++ [t.closed l.qty costs ts ref reason days]
      trade := none
      qty := 0
      stop := none }

/-- The `ENTER` branch. -/
def Loop.enter (l : Loop) (costs : Costs) (stopFrac : ℚ) (day : Day) (d : ℕ) : Loop :=
  let (q, fill, fee) := buyFill l.cash day.open_ costs
  { l with
    cash := l.cash - (q * fill + fee)
    fees := l.fees + fee
    qty := q
    stop := stopPrice fill stopFrac
    trade := some { entryTs := day.ts, entryPrice := fill, qty := q, entryFee := fee }
    entryDay := d }

/-- The stop of the day before is filled at this day's open. -/
def Loop.sellStopped (l : Loop) (costs : Costs) (day : Day) (d : ℕ) : Except RunError Loop :=
  if l.state.stopPending && l.state.long then do
    let l ← l.closeTrade costs day.ts day.open_ .safetyStop ((d : ℤ) - l.entryDay)
    return { l with state := stopOut l.state }
  else return l

/-- The signal of the day before is acted on at this day's open. -/
def Loop.act (l : Loop) (costs : Costs) (stopFrac : ℚ) (day : Day) (d : ℕ) (on : Bool) :
    Except RunError Loop :=
  let (state, action) := step l.state on
  let l := { l with state := state }
  match action with
  | some .exit => l.closeTrade costs day.ts day.open_ .signal ((d : ℤ) - l.entryDay)
  | some .enter => return l.enter costs stopFrac day d
  | none => return l

/-- `stop is not None and float(bars.low[d]) <= stop` -/
def reaches (day : Day) : Option ℚ → Bool
  | none => false
  | some stop => day.low ≤ stop

/-- The rest of the day: the low against the stop, the day counted, the mark at
the close. -/
def Loop.mark (l : Loop) (day : Day) : Loop :=
  { l with
    state := { l.state with
      stopPending := (l.state.long && reaches day l.stop) || l.state.stopPending }
    daysLong := if l.state.long then l.daysLong + 1 else l.daysLong
    points := l.points ++ [l.cash + l.qty * day.close] }

/-- `bars.ts[d]`, `bars.open[d]`, ... -/
def dayAt (bars : List Day) (d : ℕ) : Except RunError Day :=
  match bars[d]? with
  | none => .error .indexError
  | some day => .ok day

/-- `bool(sig[d - 1]) if d >= 1 else False` -/
def signalBefore (signal : List Bool) : ℕ → Except RunError Bool
  | 0 => .ok false
  | d + 1 =>
    match signal[d]? with
    | none => .error .indexError
    | some on => .ok on

/-- One day of the loop. -/
def dayStep (bars : List Day) (signal : List Bool) (costs : Costs) (stopFrac : ℚ) (l : Loop)
    (d : ℕ) : Except RunError Loop := do
  let day ← dayAt bars d
  let l ← l.sellStopped costs day d
  let on ← signalBefore signal d
  let l ← l.act costs stopFrac day d on
  return l.mark day

/-- The loop after its first `k` days. -/
def daysFrom (bars : List Day) (signal : List Bool) (costs : Costs) (stopFrac startCash : ℚ)
    (start k : ℕ) : Except RunError Loop :=
  (List.range' start k).foldlM (dayStep bars signal costs stopFrac) (Loop.init start startCash)

/-- A position still open is sold at the close of the last day. -/
def Loop.sellLast (l : Loop) (bars : List Day) (costs : Costs) (last : ℕ) :
    Except RunError Loop :=
  if l.trade.isSome then do
    let day ← dayAt bars last
    let reason := if l.state.stopPending then Reason.safetyStop else Reason.windowEnd
    let l ← l.closeTrade costs day.ts day.close reason ((last : ℤ) - l.entryDay + 1)
    return { l with
      state := if l.state.stopPending then stopOut l.state else l.state
      points := l.points.dropLast ++ [l.cash] }
  else return l

/-- The loop and the window-end sale, over the `k` days from `start`. -/
def runLoop (bars : List Day) (signal : List Bool) (costs : Costs) (stopFrac startCash : ℚ)
    (start k : ℕ) : Except RunError Loop := do
  let l ← daysFrom bars signal costs stopFrac startCash start k
  l.sellLast bars costs (start + k - 1)

/-- `max(0, int(start))` -/
def firstDay (start : ℤ) : ℕ := (max 0 start).toNat

/-- How many days of `[start, end)` there are to score. -/
def scoredDays (bars : List Day) (start end_ : ℤ) : ℕ :=
  (min (bars.length : ℤ) end_ - max 0 start).toNat

/-- `run`: score days `[start, end)` of a book that starts flat. -/
def run (bars : List Day) (signal : List Bool) (start end_ : ℤ)
    (startCash : ℚ := PAPER_START_CASH) (costs : Costs := paperCosts) (stopFrac : ℚ := 0) :
    Except RunError RunResult :=
  let result : RunResult := { start := max 0 start, end_ := min (bars.length : ℤ) end_ }
  if result.end_ ≤ result.start then return { result with equity := [startCash] }
  else do
    let l ← runLoop bars signal costs stopFrac startCash (firstDay start)
      (scoredDays bars start end_)
    return { result with
      trades := l.trades, equity := l.points, daysLong := l.daysLong, fees := l.fees }

end PaperTrading.Library
