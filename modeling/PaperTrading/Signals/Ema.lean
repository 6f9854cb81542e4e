import PaperTrading.Signals.Cut

/-!
# Exponential averages

The EMA of `signals/dynamic.py`: seeded with the mean of the first `period`
closes and carried from bar to bar, so its value at a bar depends on every close
before it. The atoms on it, and the higher-timeframe atom with either average.
The caches of the series are left out.
-/

namespace PaperTrading.Signals

open Lib

/-- `closes[idx] * k + val * (1.0 - k)`. -/
def emaStep (k val close : ℚ) : ℚ := close * k + val * (1 - k)

/-- `_ema_series`, the SMA-seeded EMA at every bar. -/
def emaSeries (closes : List ℚ) (period : ℕ) : List (Option ℚ) :=
  if period = 0 ∨ closes.length < period then List.replicate closes.length none
  else
    let k : ℚ := 2 / (period + 1)
    let seed := (closes.take period).sum / period
    List.replicate (period - 1) none ++ ((closes.drop period).scanl (emaStep k) seed).map some

def ema (closes : List ℚ) (period i : ℕ) : Except String (Option ℚ) :=
  if i < period - 1 ∨ period = 0 then .ok none else item (emaSeries closes period) i

/-! ## Atoms -/

section Average

variable (ma : List ℚ → ℕ → ℕ → Except String (Option ℚ))

/-- `_eval_sma_stack` and `_eval_ema_stack`, where `ma` is the average. -/
def evalStack (closes : List ℚ) (periods : List ℕ) (i : ℕ) : Except String Bool := do
  let vals ← periods.mapM fun p => ma closes p i
  if anyNan vals then pure false else stacked closes vals.reduceOption i

/-- `_eval_sma_above` and `_eval_ema_above`, where `ma` is the average. -/
def evalAbove (closes : List ℚ) (period i : ℕ) : Except String Bool := do
  match ← ma closes period i with
  | none => pure false
  | some v => do
    let c ← item closes i
    pure (v < c)

/-- `htf_close_above_ma`, where `ma` is the average `kind` names. -/
def htfCloseAbove (closes : List ℚ) (i barsPer period : ℕ) : Except String Bool :=
  if period = 0 ∨ barsPer = 0 then .ok false
  else if completedHtfCount i barsPer < period then .ok false
  else
    let htf := htfClosesAll closes barsPer
    let nComplete := min (completedHtfCount i barsPer) htf.length
    if nComplete < period then .ok false
    else do
      let idx := nComplete - 1
      match ← ma htf period idx with
      | none => pure false
      | some v => do
        let c ← item htf idx
        pure (v < c)

end Average

theorem evalStack_sma : evalStack sma = evalSmaStack := rfl

theorem evalAbove_sma : evalAbove sma = evalSmaAbove := rfl

theorem htfCloseAbove_sma : htfCloseAbove sma = htfCloseAboveMa := rfl

def evalEmaStack (closes : List ℚ) (periods : List ℕ) (i : ℕ) : Except String Bool :=
  evalStack ema closes periods i

def evalEmaAbove (closes : List ℚ) (period i : ℕ) : Except String Bool :=
  evalAbove ema closes period i

/-! ## No look-ahead -/

@[simp] theorem emaSeries_length (closes : List ℚ) (period : ℕ) :
    (emaSeries closes period).length = closes.length := by
  unfold emaSeries
  split
  · simp
  · simp only [List.length_append, List.length_replicate, List.length_map, List.length_scanl,
      List.length_drop]
    omega

/-- The recurrence starts at the front, so a cut at the end leaves what came
before as it was. -/
theorem emaSeries_causal (period : ℕ) : Causal List.take fun closes => emaSeries closes period := by
  intro closes m
  dsimp only
  unfold emaSeries
  by_cases hz : period = 0 ∨ closes.length < period
  · rw [if_pos hz, if_pos (by simp only [List.length_take]; omega), List.take_replicate,
      List.length_take]
  · rw [if_neg hz]
    by_cases hm : m < period
    · -- The cut series is too short for the seed, and the seed's place is cut off.
      rw [if_pos (by simp only [List.length_take]; omega), List.length_take,
        List.take_append_of_le_length (by simp; omega), List.take_replicate]
      congr 1
      omega
    · rw [if_neg (by simp only [List.length_take]; omega)]
      have htail : m - (period - 1) = m - period + 1 := by omega
      dsimp only
      rw [List.take_take, Nat.min_eq_left (by omega), List.drop_take, List.take_append,
        List.length_replicate, List.take_replicate, Nat.min_eq_right (by omega), htail,
        ← List.map_take, List.take_scanl]

section Closes

variable (xs : List ℚ) {m i : ℕ} (hi : i < m)

include hi

theorem ema_take (period : ℕ) : ema (xs.take m) period i = ema xs period i := by
  unfold ema
  rw [item_causal (emaSeries_causal period) xs hi]

theorem evalEmaStack_take (periods : List ℕ) :
    evalEmaStack (xs.take m) periods i = evalEmaStack xs periods i := by
  unfold evalEmaStack evalStack
  rw [mapM_congr fun p _ => ema_take xs hi p]
  simp only [stacked_take xs hi]

theorem evalEmaAbove_take (period : ℕ) :
    evalEmaAbove (xs.take m) period i = evalEmaAbove xs period i := by
  unfold evalEmaAbove evalAbove
  rw [ema_take xs hi, item_take xs hi]

/-- The bucket that closes last by bar `i` is complete in the cut series too, and
the average at it does not look further. -/
theorem htfCloseAbove_take {ma : List ℚ → ℕ → ℕ → Except String (Option ℚ)}
    (hma : ∀ (htf : List ℚ) {m k : ℕ}, k < m → ∀ period,
      ma (htf.take m) period k = ma htf period k) (barsPer period : ℕ) :
    htfCloseAbove ma (xs.take m) i barsPer period = htfCloseAbove ma xs i barsPer period := by
  by_cases hm : m ≤ xs.length
  · unfold htfCloseAbove
    by_cases hz : period = 0 ∨ barsPer = 0
    · rw [if_pos hz, if_pos hz]
    · rw [if_neg hz, if_neg hz]
      by_cases hc : completedHtfCount i barsPer < period
      · rw [if_pos hc, if_pos hc]
      · rw [if_neg hc, if_neg hc]
        have hcount : completedHtfCount i barsPer = (i + 1) / barsPer := if_neg (by omega)
        have hcut : (i + 1) / barsPer ≤ m / barsPer := Nat.div_le_div_right hi
        have hall : m / barsPer ≤ xs.length / barsPer := Nat.div_le_div_right hm
        have hlen : (htfClosesAll (xs.take m) barsPer).length = m / barsPer := by
          rw [htfClosesAll_length, List.length_take, Nat.min_eq_left hm]
        have hidx : (i + 1) / barsPer - 1 < m / barsPer := by omega
        dsimp only
        rw [hlen, htfClosesAll_length, hcount, Nat.min_eq_left hcut,
          Nat.min_eq_left (hcut.trans hall), htfClosesAll_take, hma _ hidx, item_take _ hidx]
  · rw [List.take_of_length_le (Nat.le_of_not_le hm)]

end Closes

end PaperTrading.Signals
