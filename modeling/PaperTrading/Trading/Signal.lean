import Mathlib.Algebra.Order.Field.Rat
import Mathlib.Algebra.BigOperators.Group.List.Basic
import PaperTrading.Broker.Paper

/-!
# The signal of the latest bar

`signals/momentum.py`: the features of a candle series and the named condition
of its last bar. Whether the strategy is long there is a parameter: `evaluate`
stands for `parse_strategy` followed by `eval_predicate` at the last index,
with the text of the exception if one is raised.
-/

namespace PaperTrading.Trading

open Broker

/-- One OHLCV bar; `ts` is the bar open time in milliseconds. -/
structure Candle where
  ts : ℤ
  «open» : ℚ
  high : ℚ
  low : ℚ
  close : ℚ
  volume : ℚ
deriving DecidableEq, Repr

/-- A strategy by name, with what its predicate says of the last bar. -/
structure Strategy where
  name : String
  evaluate : List Candle → Except String Bool

/-- The strategy `dip_1b_lt1pc`: the last close is more than 1% below the one
before it. -/
def dipOneBar : Strategy where
  name := "dip_1b_lt1pc"
  evaluate := fun bars =>
    match (bars.map (·.close)).reverse with
    | last :: prev :: _ => .ok (last / prev - 1 < -1 / 100)
    | _ => .ok false

/-- `range(len(values) - period, len(values))`, as the changes it visits. -/
def lastChanges (values : List ℚ) (period : ℕ) : List ℚ :=
  (List.range period).map fun j =>
    values.getD (values.length - period + j) 0 - values.getD (values.length - period + j - 1) 0

/-- Exponential moving average of the last value. -/
def ema (values : List ℚ) (period : ℕ) : ℚ :=
  let k : ℚ := 2 / (period + 1)
  match values with
  | [] => 0
  | v :: vs => vs.foldl (fun e v => v * k + e * (1 - k)) v

/-- Wilder RSI over the last `period` changes, 50 when there are fewer. -/
def rsi (values : List ℚ) (period : ℕ) : ℚ :=
  if values.length < period + 1 then 50
  else
    let changes := lastChanges values period
    let gains := (changes.filter (0 ≤ ·)).sum
    let losses := ((changes.filter (· < 0)).map (- ·)).sum
    if losses = 0 then 100
    else 100 - 100 / (1 + gains / period / (losses / period))

/-- Return over the last `lookback` closes. -/
def momentum (values : List ℚ) (lookback : ℕ) : ℚ :=
  if values.length ≤ lookback then 0
  else
    let prev := values.getD (values.length - 1 - lookback) 0
    if prev = 0 then 0 else values.getD (values.length - 1) 0 / prev - 1

structure Features where
  mom4h : ℚ := 0
  mom1d : ℚ := 0
  rsi : ℚ := 50
  ema20 : ℚ := 0
  price : ℚ := 0
deriving DecidableEq, Repr

inductive Direction where
  | long
  | flat
deriving DecidableEq, Repr

def Direction.text : Direction → String
  | .long => "long"
  | .flat => "flat"

structure Signal where
  symbol : Ticker
  timeframe : String
  condition : String
  features : Features
  direction : Direction
  rawScore : ℚ
deriving DecidableEq, Repr

def featuresOf (closes : List ℚ) : Features :=
  { mom4h := momentum closes 4, mom1d := momentum closes 24, rsi := rsi closes 14
    ema20 := ema closes 20, price := closes.getLastD 0 }

/-- `compute_signal`; the error is the text of the exception. -/
def computeSignal (series : List Candle) (symbol : Ticker) (timeframe : String)
    (strategy : Strategy) : Except String Signal :=
  let closes := series.map (·.close)
  if closes.length < 2 then
    .error s!"need >=2 bars for {symbol} {timeframe}, got {closes.length}"
  else
    match strategy.evaluate series with
    | .error e => .error e
    | .ok takeLong =>
      .ok { symbol := symbol, timeframe := timeframe
            condition := if takeLong then s!"{strategy.name}_long" else s!"{strategy.name}_flat"
            features := featuresOf closes
            direction := if takeLong then .long else .flat
            rawScore := if takeLong then 1 / 2 else -1 / 2 }

/-- The true range of bar `j` and the close before it. -/
def trueRange (series : List Candle) (j : ℕ) : ℚ :=
  match series[j]?, series[j - 1]? with
  | some c, some prev => max (c.high - c.low) (max |c.high - prev.close| |c.low - prev.close|)
  | _, _ => 0

/-- Average true range at the last bar, `none` (`nan`) with too few bars. -/
def atr (series : List Candle) (period : ℕ) : Option ℚ :=
  if series.length - 1 < period ∨ period = 0 then none
  else
    let window := (List.range period).map fun k => trueRange series (series.length - period + k)
    some (window.sum / window.length)

end PaperTrading.Trading
