import Mathlib.Data.List.Sort
import PaperTrading.Lib.Flt

/-!
# The deflated Sharpe ratio and the probability of overfitting

`trading/multiple_testing.py`. Finite floating-point numbers are exact here; the square
root and the normal distribution's functions are parameters (`Stats`). Both figures, where
they are defined, are numbers: `deflatedSharpeRatio` and `probabilityOfBacktestOverfitting`
turn every other value into 0 or into a rank.
-/

namespace PaperTrading.Gate

open PaperTrading.Lib

/-- `math.sqrt`, and `ppf` and `cdf` of `scipy.stats.norm`: the first gives infinities at 0
and 1, the second a number for every number. -/
structure Stats where
  sqrt : ℚ → ℚ
  ppf : ℚ → Flt
  cdf : ℚ → ℚ

def EULER_MASCHERONI : ℚ := 5772156649015328606 / 10 ^ 19

/-- `math.e` -/
def MATH_E : ℚ := 2718281828459045 / 10 ^ 15

/-- What `return_moments` returns. -/
structure Moments where
  n : ℕ
  mean : ℚ
  std : ℚ
  sharpe : ℚ
  skew : ℚ
  kurtosis : ℚ
deriving DecidableEq

section
variable (stats : Stats)

/-- The finite values of a list. -/
def finites (returns : List Flt) : List ℚ :=
  returns.filterMap fun
    | .fin q => some q
    | _ => none

/-- `return_moments` -/
def returnMoments (returns : List Flt) : Option Moments :=
  let vals := finites returns
  let n := vals.length
  let mean := vals.sum / n
  let power := fun k : ℕ => (vals.map fun x => (x - mean) ^ k).sum
  let m2 := power 2 / n
  let varU := power 2 / (n - 1)
  if n < 2 then none
  else if m2 ≤ 0 then none
  else if varU ≤ 0 then none
  else
    some
      { n := n, mean := mean, std := stats.sqrt varU, sharpe := mean / stats.sqrt varU
        skew := power 3 / n / (m2 * stats.sqrt m2), kurtosis := power 4 / n / m2 ^ 2 }

/-- The term under the root of both standard errors. -/
def inside (sharpe skew kurtosis : ℚ) : ℚ :=
  1 - skew * sharpe + (kurtosis - 1) / 4 * sharpe * sharpe

/-- `sharpe_estimator_std` -/
def sharpeEstimatorStd (sharpe : ℚ) (nObs : ℕ) (skew kurtosis : ℚ) : ℚ :=
  if nObs < 2 ∨ inside sharpe skew kurtosis ≤ 0 then 0
  else stats.sqrt (inside sharpe skew kurtosis / (nObs - 1))

/-- `expected_maximum_sharpe` -/
def expectedMaximumSharpe (nTrials : ℕ) (sharpeStd : ℚ) : Flt :=
  if nTrials = 1 ∨ sharpeStd = 0 then .fin 0
  else
    let z1 := stats.ppf (1 - 1 / nTrials)
    let z2 := stats.ppf (1 - 1 / (nTrials * MATH_E))
    (Flt.fin sharpeStd).mul
      (((Flt.fin (1 - EULER_MASCHERONI)).mul z1).add ((Flt.fin EULER_MASCHERONI).mul z2))

/-- `probabilistic_sharpe_ratio` -/
def probabilisticSharpeRatio (sharpe : ℚ) (srBenchmark : Flt) (nObs : ℕ) (skew kurtosis : ℚ) : ℚ :=
  if nObs < 2 ∨ inside sharpe skew kurtosis ≤ 0 then 0
  else
    match (((Flt.fin sharpe).sub srBenchmark).mul (.fin (stats.sqrt (nObs - 1)))).divBy
      (stats.sqrt (inside sharpe skew kurtosis)) with
    | .fin z => stats.cdf z
    | _ => 0

/-- `deflated_sharpe_ratio` -/
def deflatedSharpeRatio (m : Moments) (nTrials : ℕ) : ℚ :=
  let benchmark := expectedMaximumSharpe stats nTrials
    (sharpeEstimatorStd stats m.sharpe m.n m.skew m.kurtosis)
  probabilisticSharpeRatio stats m.sharpe benchmark m.n m.skew m.kurtosis

/-! ## Combinatorially symmetric cross-validation -/

/-- `np.sqrt` of a number that is not negative. -/
def rootOf : Flt → Flt
  | .fin q => .fin (stats.sqrt q)
  | a => a

/-- `_sharpe_from_sums`, of one sum. -/
def sharpeFromSums (sum sumsq : Flt) (count : ℕ) : Flt :=
  let mean := sum.divBy count
  let tiny := Flt.fin (1 / 10 ^ 15)
  let bySign := if Flt.lt tiny mean then .fin (10 ^ 6)
    else if Flt.lt mean tiny.neg then .fin (-10 ^ 6) else .fin 0
  if count < 2 then bySign
  else
    let varPop := (sumsq.divBy count).sub (mean.mul mean)
    let std := rootOf stats ((varPop.mul (.fin (count / (count - 1)))).maximum (.fin 0))
    if Flt.le std (.fin (1 / 10 ^ 12)) then bySign
    else mean.div (std.maximum (.fin (1 / 10 ^ 12)))

/-- `np.argmax`: the first `nan`, if there is one, else the first greatest. -/
def argmax : List Flt → ℕ
  | [] => 0
  | x :: xs =>
    (xs.zipIdx 1).foldl
      (fun best y => if best.1 ≠ .nan ∧ (y.1 = .nan ∨ Flt.lt best.1 y.1) then y else best)
      (x, 0) |>.2

/-- `np.argsort(kind="mergesort")`: stable, every `nan` at the end. -/
def argsort (xs : List Flt) : List ℕ :=
  (xs.zipIdx.insertionSort fun a b => b.1 = .nan ∨ Flt.le a.1 b.1 = true).map (·.2)

/-- `itertools.combinations`, as lists of indices. -/
def combinations : List ℕ → ℕ → List (List ℕ)
  | _, 0 => [[]]
  | [], _ + 1 => []
  | i :: is, k + 1 => (combinations is k).map (i :: ·) ++ combinations is (k + 1)

/-- The sum and the sum of squares of the rows `is` of a column. -/
def sums (col : List Flt) (is : List ℕ) : Flt × Flt :=
  let vals := is.map fun i => col.getD i (.fin 0)
  (Flt.sum vals, Flt.sum (vals.map fun x => x.mul x))

/-- Whether the winner of the rows `is` ranks in the lower half of the others. -/
def lowerHalf (cols : List (List Flt)) (s : ℕ) (is : List ℕ) : Bool :=
  let inSample := cols.map fun col =>
    sharpeFromSums stats (sums col is).1 (sums col is).2 is.length
  let outOfSample := cols.map fun col =>
    let total := sums col (List.range s)
    sharpeFromSums stats (total.1.sub (sums col is).1) (total.2.sub (sums col is).2) (s - is.length)
  let rank := (argsort outOfSample).idxOf (argmax inSample) + 1
  (rank : ℚ) / (cols.length + 1) ≤ 1 / 2

/-- Of an odd number of rows the last is left out. -/
def evenRows (t : ℕ) : ℕ := if t % 2 = 0 then t else t - 1

/-- `probability_of_backtest_overfitting`, of `t` windows of each configuration. -/
def probabilityOfBacktestOverfitting (cols : List (List Flt)) (t : ℕ) : Option ℚ :=
  let combos := combinations (List.range (evenRows t)) (evenRows t / 2)
  if cols.length < 2 ∨ t < 2 then none
  else if combos = [] then none
  else some ((combos.filter (lowerHalf stats cols (evenRows t))).length / combos.length)

end

/-- A probability. -/
theorem pbo_mem_unit {stats : Stats} {cols : List (List Flt)} {t : ℕ} {p : ℚ}
    (h : probabilityOfBacktestOverfitting stats cols t = some p) : 0 ≤ p ∧ p ≤ 1 := by
  unfold probabilityOfBacktestOverfitting at h
  dsimp only at h
  split at h
  next => cases h
  next =>
    split at h
    next => cases h
    next =>
      obtain rfl := Option.some.inj h
      refine ⟨by positivity, ?_⟩
      refine div_le_one_of_le₀ ?_ (by positivity)
      exact_mod_cast List.length_filter_le _ _

end PaperTrading.Gate
