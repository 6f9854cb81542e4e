import Mathlib.Algebra.BigOperators.Group.List.Basic
import Mathlib.Algebra.Order.Field.Rat
import Mathlib.Tactic.Linarith
import PaperTrading.Lib.Decimal
import PaperTrading.Lib.Dict
import PaperTrading.Lib.Falls
import PaperTrading.Lib.LastByKey

/-!
# The backtest of an alpha model

`backtesting/engine.py` walks the trading days of each ticker, opens a position where the
model has a view, closes it a number of trading days later, and puts the trades of all
tickers in one list, sorted by their entry. The equity curve adds their P&L in that order.
-/

namespace PaperTrading.Backtest.Engine

open PaperTrading.Lib

section
variable {δ M : Type} [LinearOrder δ]

/-! ## Views and trades -/

/-- `Signal`: the conviction of a model, and what it says of it. -/
structure View (M : Type) where
  value : ℚ
  reasoning : Option String
  metadata : M

inductive Direction where
  | long
  | short
deriving DecidableEq, Repr

structure Trade (δ M : Type) where
  ticker : String
  direction : Direction
  entryDate : δ
  exitDate : δ
  entryPrice : ℚ
  exitPrice : ℚ
  shares : ℚ
  pnl : ℚ
  returnPct : ℚ
  holdingDays : ℕ
  reasoning : Option String
  metadata : M
deriving DecidableEq

/-- The arguments of a run. `prices` is what the data client returns of a ticker for the days
from `startDate` on, and `predict` the model. -/
structure Run (δ M : Type) where
  capital : ℚ
  perTrade : ℚ
  prices : String → List (δ × ℚ)
  predict : String → δ → View M
  startDate : δ
  endDate : δ
  threshold : ℚ
  holdingDays : ℕ

namespace Run

variable (r : Run δ M) (ticker : String)

/-- `price_map`: of two prices on one day, the last. -/
def priceMap : Dict δ ℚ := (r.prices ticker).foldl (fun d p => d.set p.1 p.2) .empty

/-- `all_days` -/
def allDays : List δ := (r.priceMap ticker).keys.insertionSort (· ≤ ·)

/-- `grid` -/
def grid : List δ := (r.allDays ticker).filter fun d => r.startDate ≤ d ∧ d ≤ r.endDate

/-- `_build_trade` -/
def buildTrade (direction : Direction) (entryDate exitDate : δ) (view : View M) :
    Option (Trade δ M) :=
  match (r.priceMap ticker).get? entryDate, (r.priceMap ticker).get? exitDate with
  | some entryPrice, some exitPrice =>
    if entryPrice ≤ 0 then none
    else
      let shares := r.perTrade / entryPrice
      let move := if direction = .long then exitPrice - entryPrice else entryPrice - exitPrice
      some
        { ticker := ticker
          direction := direction
          entryDate := entryDate
          exitDate := exitDate
          entryPrice := entryPrice
          exitPrice := exitPrice
          shares := roundTo 4 shares
          pnl := roundTo 2 (shares * move)
          returnPct := roundTo 6 (move / entryPrice)
          holdingDays := r.holdingDays
          reasoning := view.reasoning
          metadata := view.metadata }
  | _, _ => none

/-- The loop of `_trade_ticker` from day `i` of the grid on; none when the fuel ends. -/
def walk : ℕ → ℕ → Bool → Option (List (Trade δ M))
  | 0, _, _ => none
  | fuel + 1, i, armed =>
    match (r.grid ticker)[i]? with
    | none => some []
    | some d =>
      let view := r.predict ticker d
      if armed && decide (r.threshold < |view.value|) then
        let direction := if 0 < view.value then Direction.long else .short
        match (r.allDays ticker)[(r.allDays ticker).idxOf d + r.holdingDays]? with
        | none => some []
        | some exitDay =>
          -- on past the holding period; with no day of it left in the grid, to the end
          (walk fuel ((r.grid ticker).idxOf exitDay) false).map
            ((r.buildTrade ticker direction d exitDay view).toList ++ ·)
      else walk fuel (i + 1) (armed || decide (|view.value| ≤ r.threshold))

/-- `_trade_ticker` -/
def tradeTicker : List (Trade δ M) :=
  (r.walk ticker (2 * (r.grid ticker).length + 2) 0 true).getD []

end Run

/-! ## The curve and the metrics -/

/-- `_build_equity_curve`, after the first `curve` of it. -/
def curveFrom (equity : ℚ) : List (Trade δ M) → List ℚ
  | [] => []
  | t :: trades => roundTo 2 (equity + t.pnl) :: curveFrom (equity + t.pnl) trades

def buildEquityCurve (capital : ℚ) (trades : List (Trade δ M)) : List ℚ :=
  capital :: curveFrom capital trades

/-- The walk over the curve that finds the largest drop from the peak. -/
def drawdownFrom (peak maxDd : ℚ) : List ℚ → Except String ℚ
  | [] => .ok maxDd
  | val :: curve =>
    let peak' := if peak < val then val else peak
    if peak' = 0 then .error "ZeroDivisionError"
    else
      let dd := (peak' - val) / peak'
      drawdownFrom peak' (if maxDd < dd then dd else maxDd) curve

/-- `PerformanceMetrics`, less the figures of the annualized return and the Sharpe ratio. -/
structure PerformanceMetrics where
  totalReturnPct : ℚ
  maxDrawdownPct : ℚ
  winRate : ℚ
  nTrades : ℕ
  nLong : ℕ
  nShort : ℕ
  avgReturnPct : ℚ
  avgHoldingDays : ℚ
deriving DecidableEq

structure BacktestResult (δ M : Type) where
  trades : List (Trade δ M)
  metrics : Option PerformanceMetrics
  equityCurve : List ℚ

/-- `_compute_metrics` of at least one trade. -/
def computeMetrics (capital : ℚ) (trades : List (Trade δ M)) (equityCurve : List ℚ) :
    Except String PerformanceMetrics :=
  if capital = 0 then .error "ZeroDivisionError"
  else do
    let maxDd ← drawdownFrom (equityCurve.headD 0) 0 equityCurve
    let n : ℚ := trades.length
    pure
      { totalReturnPct := roundTo 6 ((equityCurve.getLastD 0 - capital) / capital)
        maxDrawdownPct := roundTo 6 maxDd
        winRate := roundTo 4 ((trades.countP fun t => 0 < t.returnPct : ℕ) / n)
        nTrades := trades.length
        nLong := trades.countP fun t => t.direction = .long
        nShort := trades.countP fun t => t.direction = .short
        avgReturnPct := roundTo 6 ((trades.map (·.returnPct)).sum / n)
        avgHoldingDays := roundTo 1 ((trades.map fun t => (t.holdingDays : ℚ)).sum / n) }

/-- `run_alpha` -/
def runAlpha (r : Run δ M) (tickers : List String) : Except String (BacktestResult δ M) :=
  let trades := tickers.flatMap r.tradeTicker
  if trades = [] then .ok ⟨[], none, []⟩
  else
    let sorted := sortByKey Trade.entryDate trades
    let curve := buildEquityCurve r.capital sorted
    (computeMetrics r.capital sorted curve).map fun metrics => ⟨sorted, some metrics, curve⟩

end

end PaperTrading.Backtest.Engine
