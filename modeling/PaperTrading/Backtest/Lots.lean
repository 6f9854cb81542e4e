import PaperTrading.Broker.Paper
import PaperTrading.Risk.Managed
import PaperTrading.Signals.Structure

/-!
# The backtest of an entry signal

`backtest` of `backtest/strategies.py`: lots bought while the signal is on, at
most three, each sold on its stop or its target, or at the end of the window.
Stops and sizes are the live policy's (`Risk/Managed.lean`).

`Book` holds the variables of the function. Its last field, `log`, is a ghost:
the lots opened and closed, in order, and the cash and marked lots right after
each entry. Nothing reads it; it is what the three ledgers of the function (cash,
fees and counters) are compared with in `Conservation.lean`, and what its
extremes are extremes of in `Solvency.lean`.

The Sharpe ratio of the result takes a square root and is left out; `pnlPcts` is
the list it is taken of.
-/

namespace PaperTrading.Backtest

open Broker (TAKER_FEE SLIPPAGE)
open Risk Signals

/-- The parameters of `backtest`, with their defaults. `longStack` is
`long_stack[2]`. -/
structure Setting where
  startCash : ℚ := 10000
  riskFrac : ℚ := RISK_FRAC
  takerFee : ℚ := TAKER_FEE
  slippage : ℚ := SLIPPAGE
  rr : ℚ := TAKE_PROFIT_RR
  momentumLookback : ℕ := 12
  longStack : ℕ := 50
  scoreFrom : Option ℤ := none
  scoreTo : Option ℤ := none
  barsPerDay : ℤ := 288
deriving DecidableEq, Repr

structure Lot where
  qty : ℚ
  entry : ℚ
  stop : ℚ
  opened : ℕ
deriving DecidableEq, Repr

/-- The keys of `exits`. -/
inductive Hit where
  | stop
  | tp
  | eod
deriving DecidableEq, Repr

/-- The counts of `exits`; a missing key reads 0. -/
structure Exits where
  stop : ℕ := 0
  tp : ℕ := 0
  eod : ℕ := 0
deriving DecidableEq, Repr

/-- `exits[hit] = exits.get(hit, 0) + 1` -/
def Exits.bump (e : Exits) : Hit → Exits
  | .stop => { e with stop := e.stop + 1 }
  | .tp => { e with tp := e.tp + 1 }
  | .eod => { e with eod := e.eod + 1 }

def Exits.total (e : Exits) : ℕ := e.stop + e.tp + e.eod

/-- An entry with the account's cash and marked lots right after it, or the close
of a lot at a bar. -/
inductive Event where
  | opened (lot : Lot) (cash notional : ℚ)
  | closed (lot : Lot) (exitPx : ℚ) (hit : Hit) (bar : ℕ)
deriving DecidableEq, Repr

structure Book where
  cash : ℚ
  peak : ℚ
  maxDd : ℚ := 0
  wins : ℕ := 0
  trades : ℕ := 0
  fees : ℚ := 0
  pnlPcts : List ℚ := []
  exits : Exits := {}
  holdBars : ℕ := 0
  minCash : ℚ
  maxNotionalFrac : ℚ := 0
  dailyEquity : List ℚ
  /-- the bar of the last sample, `none` for -1 -/
  lastSample : Option ℕ := none
  lots : List Lot := []
  risk : RiskManager
  log : List Event := []

def Book.init (s : Setting) : Book :=
  { cash := s.startCash, peak := s.startCash, minCash := s.startCash
    dailyEquity := [s.startCash]
    risk := { riskFrac := s.riskFrac, peakEquity := s.startCash } }

/-- What the lots are worth at a price. -/
def notionalAt (lots : List Lot) (px : ℚ) : ℚ := (lots.map fun lot => lot.qty * px).sum

/-- `mark_equity` -/
def Book.markEquity (b : Book) (px : ℚ) : ℚ := b.cash + notionalAt b.lots px

/-- `if eq > peak: peak = eq`, and the drawdown from it. -/
def Book.seeEquity (b : Book) (eq : ℚ) : Book :=
  let peak := if eq > b.peak then eq else b.peak
  let dd := if peak > 0 then (peak - eq) / peak else 0
  { b with peak := peak, maxDd := max b.maxDd dd }

/-! ## Exits -/

/-- `close_lot` -/
def Book.closeLot (b : Book) (s : Setting) (lot : Lot) (exitPx : ℚ) (hit : Hit) (i : ℕ) : Book :=
  let proceeds := exitPx * lot.qty
  let fee := proceeds * s.takerFee
  let pnl := (exitPx - lot.entry) * lot.qty
  let pnlPct := if lot.entry = 0 then 0 else (exitPx - lot.entry) / lot.entry
  let b := { b with
    exits := b.exits.bump hit
    holdBars := b.holdBars + (i - lot.opened)
    cash := b.cash + (proceeds - fee)
    fees := b.fees + fee
    pnlPcts := b.pnlPcts ++ [pnlPct]
    wins := if 0 < pnl then b.wins + 1 else b.wins
    trades := b.trades + 1
    log := b.log ++ [Event.closed lot exitPx hit i] }
  b.seeEquity b.cash

/-- The take-profit price of a lot. -/
def Lot.target (lot : Lot) (rr : ℚ) : ℚ := lot.entry + rr * (lot.entry - lot.stop)

/-- What a bar does to a lot: the stop goes first, also on a bar that reaches
both. -/
def exitOf (s : Setting) (low high : ℚ) (lot : Lot) : Option (ℚ × Hit) :=
  if low ≤ lot.stop ∧ high ≥ lot.target s.rr then some (lot.stop * (1 - s.slippage), .stop)
  else if low ≤ lot.stop then some (lot.stop * (1 - s.slippage), .stop)
  else if high ≥ lot.target s.rr then some (lot.target s.rr * (1 - s.slippage), .tp)
  else none

/-- The loop over the lots: the book, the lots still open, whether one exited. -/
structure ExitPass where
  book : Book
  stillOpen : List Lot := []
  exited : Bool := false

def ExitPass.step (s : Setting) (low high : ℚ) (i : ℕ) (p : ExitPass) (lot : Lot) : ExitPass :=
  match exitOf s low high lot with
  | some (exitPx, hit) =>
    { p with book := p.book.closeLot s lot exitPx hit i, exited := true }
  | none => { p with stillOpen := p.stillOpen ++ [lot] }

/-- The exits of a bar, and whether there was one. -/
def Book.exitLots (b : Book) (s : Setting) (low high : ℚ) (i : ℕ) : Book × Bool :=
  let p := b.lots.foldl (ExitPass.step s low high i) { book := b }
  ({ p.book with lots := p.stillOpen }, p.exited)

/-! ## The mark and the sample -/

/-- The equity at the bar's close: the breaker, the peak, and every `barsPerDay`
bars a point of `daily_equity`. -/
def Book.markBar (b : Book) (s : Setting) (cur : ℚ) (i tradeStart : ℕ) : Book :=
  let eq := b.markEquity cur
  let b := { b with risk := b.risk.updateEquity eq }.seeEquity eq
  if ((i : ℤ) - tradeStart + 1) % max 1 s.barsPerDay = 0 then
    { b with dailyEquity := b.dailyEquity ++ [eq], lastSample := some i }
  else b

/-! ## Entries -/

/-- `(1 + slippage) * (1 + taker_fee)` -/
def Setting.costMult (s : Setting) : ℚ := (1 + s.slippage) * (1 + s.takerFee)

/-- The size the policy allows for a lot with this stop. -/
def Book.sizeFor (b : Book) (s : Setting) (cur stop : ℚ) : RiskDecision :=
  b.risk.sizePosition (b.markEquity cur) cur stop
    (b.lots.map fun lot => { entry := lot.entry, stop := lot.stop, size := lot.qty }) 1
    (some b.cash) s.costMult

/-- The purchase of a lot. -/
def Book.openLot (b : Book) (s : Setting) (cur stop qty : ℚ) (i : ℕ) : Book :=
  let entryPx := cur * (1 + s.slippage)
  let fee := entryPx * qty * s.takerFee
  let cash := b.cash - (entryPx * qty + fee)
  let lot : Lot := { qty := qty, entry := entryPx, stop := stop, opened := i }
  let lots := b.lots ++ [lot]
  let notional := notionalAt lots cur
  let eqAfter := cash + notional
  { b with
    cash := cash
    fees := b.fees + fee
    lots := lots
    minCash := min b.minCash cash
    maxNotionalFrac := if 0 < eqAfter then max b.maxNotionalFrac (notional / eqAfter)
      else b.maxNotionalFrac
    log := b.log ++ [Event.opened lot cash notional] }

/-- The close of bar `i`. -/
def closeAt (o : Ohlc) (i : ℕ) : ℚ := o.closes[i]?.getD 0

/-- `highs[i] if i < n_high else cur` -/
def highAt (o : Ohlc) (i : ℕ) : ℚ := o.highs[i]?.getD (closeAt o i)

def lowAt (o : Ohlc) (i : ℕ) : ℚ := o.lows[i]?.getD (closeAt o i)

/-- `atr_vals[i]`, `none` for `nan`. -/
def stopAtr (o : Ohlc) (i : ℕ) : Option ℚ := ((atrSeries o ATR_PERIOD)[i]?).join

/-- The entry at a bar, if there is one: the stop and the size. `take` is the
signal. -/
def Book.entryAt (b : Book) (s : Setting) (o : Ohlc) (take : ℕ → Bool) (exited : Bool) (i : ℕ) :
    Option (ℚ × ℚ) :=
  let cur := closeAt o i
  if exited && b.lots.isEmpty then none
  else if !take i || b.risk.halted then none
  else if MAX_LOTS_PER_SYMBOL ≤ b.lots.length then none
  else if b.lots.any fun lot => decide ((cur - lot.entry) * lot.qty ≤ 0) then none
  else
    let stop := atrStopPrice cur (stopAtr o i)
    if cur ≤ stop then none
    else
      let rd := b.sizeFor s cur stop
      if !rd.approved || decide (rd.size ≤ 0) then none else some (stop, rd.size)

/-! ## The run -/

/-- A bar up to the point where an entry is decided. -/
def Book.beforeEntry (b : Book) (s : Setting) (o : Ohlc) (tradeStart i : ℕ) : Book :=
  (b.exitLots s (lowAt o i) (highAt o i) i).1.markBar s (closeAt o i) i tradeStart

/-- One bar of the loop. -/
def barStep (s : Setting) (o : Ohlc) (take : ℕ → Bool) (tradeStart : ℕ) (b : Book) (i : ℕ) :
    Book :=
  let marked := b.beforeEntry s o tradeStart i
  match marked.entryAt s o take (b.exitLots s (lowAt o i) (highAt o i) i).2 i with
  | none => marked
  | some (stop, qty) => marked.openLot s (closeAt o i) stop qty i

/-- `max(long_stack[2], momentum_lookback, 14, 20) + 2` -/
def Setting.warmup (s : Setting) : ℕ := max (max (max s.longStack s.momentumLookback) 14) 20 + 2

/-- `trade_start`: the first bar that may trade. -/
def Setting.tradeStart (s : Setting) : ℕ :=
  max s.warmup (match s.scoreFrom with
    | none => 0
    | some first => (max 0 first).toNat)

/-- `end`: the bar after the last scored one. -/
def Setting.endBar (s : Setting) (o : Ohlc) : ℕ :=
  match s.scoreTo with
  | none => o.closes.length
  | some stop => (max 0 (min (o.closes.length : ℤ) stop)).toNat

/-- The book after the first `k` scored bars. -/
def barsFrom (s : Setting) (o : Ohlc) (take : ℕ → Bool) (k : ℕ) : Book :=
  (List.range' s.tradeStart k).foldl (barStep s o take s.tradeStart) (Book.init s)

/-- The lots left at the end of the window are sold at its last close. -/
def Book.closeWindow (b : Book) (s : Setting) (o : Ohlc) (last : ℕ) : Book :=
  { b.lots.foldl (fun b lot => b.closeLot s lot (closeAt o last * (1 - s.slippage)) .eod last) b
    with lots := [] }

/-- The final daily point is the settled equity. -/
def Book.settle (b : Book) (last : ℕ) : Book :=
  { b with
    dailyEquity := if b.lastSample = some last ∧ 1 < b.dailyEquity.length then
      b.dailyEquity.dropLast ++ [b.cash] else b.dailyEquity ++ [b.cash] }

/-- The book when the window has closed. -/
def closedBook (s : Setting) (o : Ohlc) (take : ℕ → Bool) : Book :=
  let last := s.endBar o - 1
  ((barsFrom s o take (s.endBar o - s.tradeStart)).closeWindow s o last).settle last

structure BacktestResult where
  trades : ℕ := 0
  wins : ℕ := 0
  winRate : ℚ := 0
  totalPnl : ℚ := 0
  finalEquity : ℚ := 0
  maxDrawdown : ℚ := 0
  feesPaid : ℚ := 0
  exits : Exits := {}
  holdBars : ℕ := 0
  minCash : ℚ := 0
  maxNotionalFrac : ℚ := 0
  dailyEquity : List ℚ := []
  /-- what the Sharpe ratio is taken of -/
  pnlPcts : List ℚ := []
deriving DecidableEq, Repr

/-- `backtest`. A window with no bar to trade on returns the cash it was given. -/
def backtest (s : Setting) (o : Ohlc) (take : ℕ → Bool) : BacktestResult :=
  if s.endBar o ≤ s.tradeStart then { finalEquity := s.startCash }
  else
    let b := closedBook s o take
    { trades := b.trades, wins := b.wins
      winRate := if b.trades = 0 then 0 else b.wins / b.trades
      totalPnl := b.cash - s.startCash, finalEquity := b.cash, maxDrawdown := b.maxDd
      feesPaid := b.fees, exits := b.exits, holdBars := b.holdBars, minCash := b.minCash
      maxNotionalFrac := b.maxNotionalFrac, dailyEquity := b.dailyEquity, pnlPcts := b.pnlPcts }

end PaperTrading.Backtest
