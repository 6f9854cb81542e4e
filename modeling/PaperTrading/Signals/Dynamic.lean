import Mathlib.Data.List.ReduceOption
import PaperTrading.Signals.Series

/-!
# Close-only indicators and atoms

`signals/dynamic.py` and the Bollinger bands of `signals/indicators.py`: the
indicator at bar `i` of a close list, `nan` while the list is too short, and the
condition built on it. The caches of the SMA series are left out; the branch of
`sma` that skips the series at the last bar is kept.

Each indicator has one lemma, `*_sameTail`: it is the same on lists that agree
on the entries it reads.
-/

namespace PaperTrading.Signals

open Lib

/-! ## Indicators -/

/-- `_sma_series`, window SMA at every bar. -/
def smaSeries (closes : List ℚ) (period : ℕ) : List (Option ℚ) :=
  if period = 0 ∨ closes.length < period then List.replicate closes.length none
  else (List.range closes.length).map fun idx =>
    if idx < period - 1 then none else some ((lastWindow closes period idx).sum / period)

def sma (closes : List ℚ) (period i : ℕ) : Except String (Option ℚ) :=
  if i < period - 1 ∨ period = 0 then .ok none
  else if i = closes.length - 1 then .ok (some ((lastWindow closes period i).sum / period))
  else item (smaSeries closes period) i

/-- `closes[idx] - closes[idx - 1]` for the last `count` bars up to `i`. -/
def changes (closes : List ℚ) (count i : ℕ) : Except String (List ℚ) :=
  (List.range count).mapM fun k => do
    let cur ← item closes (i + 1 - count + k)
    let prev ← item closes (i + 1 - count + k - 1)
    pure (cur - prev)

/-- `100 - 100 / (1 + rs)`, and its value when nothing was lost. -/
def rsiOf (avgGain avgLoss : ℚ) : Except String ℚ :=
  if avgLoss = 0 then .ok (if 0 < avgGain then 100 else 50)
  else do
    let share ← divide 100 (1 + avgGain / avgLoss)
    pure (100 - share)

/-- `rsi`; the period of a dict spec may be negative, and its window is empty
then. -/
def rsi (closes : List ℚ) (period : ℤ) (i : ℕ) : Except String (Option ℚ) :=
  if (i : ℤ) < period then .ok none
  else do
    let diffs ← changes closes period.toNat i
    let avgGain ← divide (diffs.map fun d => max 0 d).sum period
    let avgLoss ← divide (diffs.map fun d => max 0 (-d)).sum period
    let r ← rsiOf avgGain avgLoss
    pure (some r)

def rollingRet (closes : List ℚ) (i lookback : ℕ) : Except String (Option ℚ) :=
  if i < lookback ∨ lookback = 0 then .ok none
  else do
    let cur ← item closes i
    let prev ← item closes (i - lookback)
    let ratio ← divide cur prev
    pure (some (ratio - 1))

/-- `abs(closes[j] - closes[j - 1]) / closes[j - 1]` for
`j in range(max(1, i - lb + 1), i + 1)`. -/
def relativeMoves (closes : List ℚ) (lb i : ℕ) : Except String (List ℚ) :=
  let first := max 1 (i + 1 - lb)
  (List.range (i + 1 - first)).mapM fun k => do
    let cur ← item closes (first + k)
    let prev ← item closes (first + k - 1)
    divide |cur - prev| prev

def volRatio (closes : List ℚ) (i shortLb longLb : ℕ) : Except String (Option ℚ) :=
  if i < longLb then .ok none
  else do
    let shortV ← relativeMoves closes shortLb i
    let longV ← relativeMoves closes longLb i
    if shortV.isEmpty ∨ longV.isEmpty then pure none
    else do
      let ratio ← divide (shortV.sum / shortV.length) (longV.sum / longV.length)
      pure (some ratio)

/-- `bollinger_bands`: lower, middle and upper band, `none` for three `nan`s.
`sqrt` is `math.sqrt`. -/
def bollingerBands (sqrt : ℚ → ℚ) (closes : List ℚ) (period : ℕ) (stdDev : ℚ) (i : ℕ) :
    Option (ℚ × ℚ × ℚ) :=
  if i < period - 1 ∨ period = 0 then none
  else
    let window := lastWindow closes period i
    let mid := window.sum / period
    let squares : List ℚ := window.map fun x => (x - mid) ^ 2
    let variance := squares.sum / period
    let sd := sqrt variance
    some (mid - stdDev * sd, mid, mid + stdDev * sd)

/-- The series and the branch that skips it have the same entry. -/
theorem sma_of_lt {closes : List ℚ} {i : ℕ} (period : ℕ) (h : i < closes.length) :
    sma closes period i = .ok (if i < period - 1 ∨ period = 0 then none
      else some ((lastWindow closes period i).sum / period)) := by
  unfold sma
  by_cases hg : i < period - 1 ∨ period = 0
  · rw [if_pos hg, if_pos hg]
  · rw [if_neg hg, if_neg hg]
    by_cases hlast : i = closes.length - 1
    · rw [if_pos hlast]
    · have hlen : i < (smaSeries closes period).length := by
        unfold smaSeries
        split <;> simpa using h
      rw [if_neg hlast, item_of_lt hlen]
      unfold smaSeries
      have hfull : ¬ (period = 0 ∨ closes.length < period) := by omega
      simp only [hfull, if_false, List.getElem_map, List.getElem_range]
      rw [if_neg fun hi => hg (.inl hi)]

theorem sma_sameTail {L period i j : ℕ} {xs ys : List ℚ} (h : SameTail L xs i ys j)
    (hp : period ≤ L) : sma xs period i = sma ys period j := by
  have hi := h.left_back
  have hj := h.right_back
  rw [sma_of_lt period h.left_in, sma_of_lt period h.right_in, h.window hp]
  by_cases hz : period = 0
  · rw [if_pos (.inr hz), if_pos (.inr hz)]
  · rw [if_neg (by omega), if_neg (by omega)]

theorem changes_sameTail {L count i j : ℕ} {xs ys : List ℚ} (h : SameTail L xs i ys j)
    (hc : count + 1 ≤ L) : changes xs count i = changes ys count j := by
  have hi := h.left_back
  have hj := h.right_back
  unfold changes
  refine mapM_congr fun k hk => ?_
  have hk := List.mem_range.mp hk
  rw [h.item_back (a := i + 1 - count + k) (b := j + 1 - count + k) (d := count - 1 - k)
      (by omega) (by omega) (by omega),
    h.item_back (a := i + 1 - count + k - 1) (b := j + 1 - count + k - 1) (d := count - k)
      (by omega) (by omega) (by omega)]

theorem rsi_sameTail {L i j : ℕ} {period : ℤ} {xs ys : List ℚ} (h : SameTail L xs i ys j)
    (hp : period.toNat + 1 ≤ L) : rsi xs period i = rsi ys period j := by
  have hi := h.left_back
  have hj := h.right_back
  unfold rsi
  rw [if_neg (by omega), if_neg (by omega), changes_sameTail h hp]

theorem rollingRet_sameTail {L i j lookback : ℕ} {xs ys : List ℚ} (h : SameTail L xs i ys j)
    (hl : lookback + 1 ≤ L) : rollingRet xs i lookback = rollingRet ys j lookback := by
  have hi := h.left_back
  have hj := h.right_back
  unfold rollingRet
  by_cases hz : lookback = 0
  · rw [if_pos (.inr hz), if_pos (.inr hz)]
  · rw [if_neg (by omega), if_neg (by omega), h.item_last (by omega),
      h.item_back (a := i - lookback) (b := j - lookback) (d := lookback)
        (by omega) (by omega) (by omega)]

theorem relativeMoves_sameTail {L i j lb : ℕ} {xs ys : List ℚ} (h : SameTail L xs i ys j)
    (hl : lb + 1 ≤ L) : relativeMoves xs lb i = relativeMoves ys lb j := by
  have hi := h.left_back
  have hj := h.right_back
  unfold relativeMoves
  dsimp only
  rw [show i + 1 - max 1 (i + 1 - lb) = lb by omega,
    show j + 1 - max 1 (j + 1 - lb) = lb by omega]
  refine mapM_congr fun k hk => ?_
  have hk := List.mem_range.mp hk
  rw [h.item_back (a := max 1 (i + 1 - lb) + k) (b := max 1 (j + 1 - lb) + k)
      (d := lb - 1 - k) (by omega) (by omega) (by omega),
    h.item_back (a := max 1 (i + 1 - lb) + k - 1) (b := max 1 (j + 1 - lb) + k - 1)
      (d := lb - k) (by omega) (by omega) (by omega)]

theorem volRatio_sameTail {L i j shortLb longLb : ℕ} {xs ys : List ℚ}
    (h : SameTail L xs i ys j) (hl : max shortLb longLb + 1 ≤ L) :
    volRatio xs i shortLb longLb = volRatio ys j shortLb longLb := by
  have hi := h.left_back
  have hj := h.right_back
  unfold volRatio
  have hshort : relativeMoves xs shortLb i = relativeMoves ys shortLb j :=
    relativeMoves_sameTail h (by omega)
  have hlong : relativeMoves xs longLb i = relativeMoves ys longLb j :=
    relativeMoves_sameTail h (by omega)
  rw [if_neg (by omega), if_neg (by omega), hshort, hlong]

theorem bollingerBands_sameTail {L i j period : ℕ} {xs ys : List ℚ} (sqrt : ℚ → ℚ)
    (h : SameTail L xs i ys j) (stdDev : ℚ) (hp : period ≤ L) :
    bollingerBands sqrt xs period stdDev i = bollingerBands sqrt ys period stdDev j := by
  have hi := h.left_back
  have hj := h.right_back
  unfold bollingerBands
  rw [h.window hp]
  by_cases hz : period = 0
  · rw [if_pos (.inr hz), if_pos (.inr hz)]
  · rw [if_neg (by omega), if_neg (by omega)]

/-! ## Atoms -/

/-- `closes[i] > vals[0]` and each value above the next one. -/
def stacked (closes vals : List ℚ) (i : ℕ) : Except String Bool := do
  let c ← item closes i
  let first ← item vals 0
  pure (first < c ∧ ∀ p ∈ vals.zip vals.tail, p.2 < p.1)

/-- `any(math.isnan(v) for v in vals)`. -/
def anyNan (vals : List (Option ℚ)) : Bool := vals.any Option.isNone

def evalSmaStack (closes : List ℚ) (periods : List ℕ) (i : ℕ) : Except String Bool := do
  let vals ← periods.mapM fun p => sma closes p i
  if anyNan vals then pure false else stacked closes vals.reduceOption i

def evalSmaAbove (closes : List ℚ) (period i : ℕ) : Except String Bool := do
  match ← sma closes period i with
  | none => pure false
  | some s => do
    let c ← item closes i
    pure (s < c)

def evalRsiRange (closes : List ℚ) (period : ℤ) (minVal maxVal : ℚ) (i : ℕ) :
    Except String Bool := do
  match ← rsi closes period i with
  | none => pure false
  | some r => pure (minVal < r ∧ r ≤ maxVal)

def evalMomGt (closes : List ℚ) (lookback : ℕ) (threshold : ℚ) (i : ℕ) :
    Except String Bool := do
  match ← rollingRet closes i lookback with
  | none => pure false
  | some r => pure (threshold < r)

def evalMomLt (closes : List ℚ) (lookback : ℕ) (threshold : ℚ) (i : ℕ) :
    Except String Bool := do
  match ← rollingRet closes i lookback with
  | none => pure false
  | some r => pure (r < threshold)

def evalVolLow (closes : List ℚ) (shortLb longLb i : ℕ) : Except String Bool := do
  match ← volRatio closes i shortLb longLb with
  | none => pure false
  | some ratio => pure (ratio < 1)

/-- `bb_lower_p_sd`: the close is at or under the lower band. -/
def evalBbLower (sqrt : ℚ → ℚ) (closes : List ℚ) (period : ℕ) (stdDev : ℚ) (i : ℕ) :
    Except String Bool := do
  let c ← item closes i
  match bollingerBands sqrt closes period stdDev i with
  | none => pure false
  | some bands => pure (c ≤ bands.1)

/-- `bb_upper_p_sd`: the close is at or over the upper band. -/
def evalBbUpper (sqrt : ℚ → ℚ) (closes : List ℚ) (period : ℕ) (stdDev : ℚ) (i : ℕ) :
    Except String Bool := do
  let c ← item closes i
  match bollingerBands sqrt closes period stdDev i with
  | none => pure false
  | some bands => pure (bands.2.2 ≤ c)

section SameTail

variable {L i j : ℕ} {xs ys : List ℚ} (h : SameTail L xs i ys j)

include h

theorem stacked_sameTail (hL : 0 < L) (vals : List ℚ) :
    stacked xs vals i = stacked ys vals j := by
  unfold stacked
  rw [h.item_last hL]

theorem evalSmaStack_sameTail {periods : List ℕ} (hL : 0 < L) (hp : ∀ p ∈ periods, p ≤ L) :
    evalSmaStack xs periods i = evalSmaStack ys periods j := by
  unfold evalSmaStack
  rw [mapM_congr fun p hmem => sma_sameTail h (hp p hmem)]
  simp only [stacked_sameTail h hL]

theorem evalSmaAbove_sameTail {period : ℕ} (hL : 0 < L) (hp : period ≤ L) :
    evalSmaAbove xs period i = evalSmaAbove ys period j := by
  unfold evalSmaAbove
  rw [sma_sameTail h hp, h.item_last hL]

theorem evalRsiRange_sameTail {period : ℤ} (minVal maxVal : ℚ) (hp : period.toNat + 1 ≤ L) :
    evalRsiRange xs period minVal maxVal i = evalRsiRange ys period minVal maxVal j := by
  unfold evalRsiRange
  rw [rsi_sameTail h hp]

theorem evalMomGt_sameTail {lookback : ℕ} (threshold : ℚ) (hl : lookback + 1 ≤ L) :
    evalMomGt xs lookback threshold i = evalMomGt ys lookback threshold j := by
  unfold evalMomGt
  rw [rollingRet_sameTail h hl]

theorem evalMomLt_sameTail {lookback : ℕ} (threshold : ℚ) (hl : lookback + 1 ≤ L) :
    evalMomLt xs lookback threshold i = evalMomLt ys lookback threshold j := by
  unfold evalMomLt
  rw [rollingRet_sameTail h hl]

theorem evalVolLow_sameTail {shortLb longLb : ℕ} (hl : max shortLb longLb + 1 ≤ L) :
    evalVolLow xs shortLb longLb i = evalVolLow ys shortLb longLb j := by
  unfold evalVolLow
  rw [volRatio_sameTail h hl]

theorem evalBbLower_sameTail {period : ℕ} (sqrt : ℚ → ℚ) (stdDev : ℚ) (hL : 0 < L)
    (hp : period ≤ L) :
    evalBbLower sqrt xs period stdDev i = evalBbLower sqrt ys period stdDev j := by
  unfold evalBbLower
  rw [h.item_last hL, bollingerBands_sameTail sqrt h stdDev hp]

theorem evalBbUpper_sameTail {period : ℕ} (sqrt : ℚ → ℚ) (stdDev : ℚ) (hL : 0 < L)
    (hp : period ≤ L) :
    evalBbUpper sqrt xs period stdDev i = evalBbUpper sqrt ys period stdDev j := by
  unfold evalBbUpper
  rw [h.item_last hL, bollingerBands_sameTail sqrt h stdDev hp]

end SameTail

end PaperTrading.Signals
