import PaperTrading.Lib.Causal
import PaperTrading.Signals.Structure
import PaperTrading.Signals.Htf

/-!
# Series cut after a bar

`Ohlc.take m` is a series as it stood after its first `m` bars. The indicators
and atoms of bounded lookback answer the same at a bar of the cut series as at
that bar of the whole one: one lemma, `*_take`, for each. A whole-series pass
reads later bars than the one it is asked about, so for those the lemma says
that its entry does not depend on them.
-/

namespace PaperTrading.Signals

open Lib

/-- The first `m` bars. -/
def Ohlc.take (m : ℕ) (s : Ohlc) : Ohlc where
  closes := s.closes.take m
  highs := s.highs.take m
  lows := s.lows.take m
  highs_length := by simp [s.highs_length]
  lows_length := by simp [s.lows_length]

@[simp] theorem Ohlc.take_closes (m : ℕ) (s : Ohlc) : (s.take m).closes = s.closes.take m := rfl
@[simp] theorem Ohlc.take_highs (m : ℕ) (s : Ohlc) : (s.take m).highs = s.highs.take m := rfl
@[simp] theorem Ohlc.take_lows (m : ℕ) (s : Ohlc) : (s.take m).lows = s.lows.take m := rfl

/-! ## Reads -/

section Reads

variable {α : Type} (xs : List α) {m i : ℕ} (hi : i < m)

include hi

theorem item_take : item (xs.take m) i = item xs i := by
  unfold item
  rw [List.getElem?_take_of_lt hi]

theorem getD_take (d : α) : (xs.take m).getD i d = xs.getD i d := by
  rw [List.getD_eq_getElem?_getD, List.getD_eq_getElem?_getD, List.getElem?_take_of_lt hi]

theorem lastWindow_take (period : ℕ) : lastWindow (xs.take m) period i = lastWindow xs period i := by
  unfold lastWindow
  rw [List.take_take, Nat.min_eq_left hi]

end Reads

/-- The entry of a causal series. -/
theorem item_causal {X α : Type} {cut : ℕ → X → X} {F : X → List α} (hF : Causal cut F) (x : X)
    {m i : ℕ} (hi : i < m) : item (F (cut m x)) i = item (F x) i := by
  rw [hF x m, item_take (F x) hi]

/-! ## Close-only indicators and atoms -/

section Closes

variable (xs : List ℚ) {m i : ℕ} (hi : i < m)

include hi

theorem sma_take (period : ℕ) : sma (xs.take m) period i = sma xs period i := by
  by_cases hm : m ≤ xs.length
  · have hlen : i < (xs.take m).length := by simp only [List.length_take]; omega
    rw [sma_of_lt period hlen, sma_of_lt period (hi.trans_le hm), lastWindow_take xs hi]
  · rw [List.take_of_length_le (Nat.le_of_not_le hm)]

theorem changes_take {count : ℕ} (hc : count ≤ i + 1) :
    changes (xs.take m) count i = changes xs count i := by
  unfold changes
  refine mapM_congr fun k hk => ?_
  have hk := List.mem_range.mp hk
  rw [item_take xs (i := i + 1 - count + k) (by omega),
    item_take xs (i := i + 1 - count + k - 1) (by omega)]

theorem rsi_take (period : ℤ) : rsi (xs.take m) period i = rsi xs period i := by
  unfold rsi
  by_cases hp : (i : ℤ) < period
  · rw [if_pos hp, if_pos hp]
  · rw [if_neg hp, if_neg hp, changes_take xs hi (by omega)]

theorem rollingRet_take (lookback : ℕ) :
    rollingRet (xs.take m) i lookback = rollingRet xs i lookback := by
  unfold rollingRet
  rw [item_take xs hi, item_take xs (i := i - lookback) (by omega)]

theorem relativeMoves_take (lb : ℕ) : relativeMoves (xs.take m) lb i = relativeMoves xs lb i := by
  unfold relativeMoves
  refine mapM_congr fun k hk => ?_
  have hk := List.mem_range.mp hk
  rw [item_take xs (i := max 1 (i + 1 - lb) + k) (by omega),
    item_take xs (i := max 1 (i + 1 - lb) + k - 1) (by omega)]

theorem volRatio_take (shortLb longLb : ℕ) :
    volRatio (xs.take m) i shortLb longLb = volRatio xs i shortLb longLb := by
  unfold volRatio
  rw [relativeMoves_take xs hi shortLb, relativeMoves_take xs hi longLb]

theorem bollingerBands_take (sqrt : ℚ → ℚ) (period : ℕ) (stdDev : ℚ) :
    bollingerBands sqrt (xs.take m) period stdDev i = bollingerBands sqrt xs period stdDev i := by
  unfold bollingerBands
  rw [lastWindow_take xs hi]

theorem stacked_take (vals : List ℚ) : stacked (xs.take m) vals i = stacked xs vals i := by
  unfold stacked
  rw [item_take xs hi]

theorem evalSmaStack_take (periods : List ℕ) :
    evalSmaStack (xs.take m) periods i = evalSmaStack xs periods i := by
  unfold evalSmaStack
  rw [mapM_congr fun p _ => sma_take xs hi p]
  simp only [stacked_take xs hi]

theorem evalSmaAbove_take (period : ℕ) :
    evalSmaAbove (xs.take m) period i = evalSmaAbove xs period i := by
  unfold evalSmaAbove
  rw [sma_take xs hi, item_take xs hi]

theorem evalRsiRange_take (period : ℤ) (minVal maxVal : ℚ) :
    evalRsiRange (xs.take m) period minVal maxVal i = evalRsiRange xs period minVal maxVal i := by
  unfold evalRsiRange
  rw [rsi_take xs hi]

theorem evalMomGt_take (lookback : ℕ) (threshold : ℚ) :
    evalMomGt (xs.take m) lookback threshold i = evalMomGt xs lookback threshold i := by
  unfold evalMomGt
  rw [rollingRet_take xs hi]

theorem evalMomLt_take (lookback : ℕ) (threshold : ℚ) :
    evalMomLt (xs.take m) lookback threshold i = evalMomLt xs lookback threshold i := by
  unfold evalMomLt
  rw [rollingRet_take xs hi]

theorem evalVolLow_take (shortLb longLb : ℕ) :
    evalVolLow (xs.take m) shortLb longLb i = evalVolLow xs shortLb longLb i := by
  unfold evalVolLow
  rw [volRatio_take xs hi]

theorem evalBbLower_take (sqrt : ℚ → ℚ) (period : ℕ) (stdDev : ℚ) :
    evalBbLower sqrt (xs.take m) period stdDev i = evalBbLower sqrt xs period stdDev i := by
  unfold evalBbLower
  rw [item_take xs hi, bollingerBands_take xs hi]

theorem evalBbUpper_take (sqrt : ℚ → ℚ) (period : ℕ) (stdDev : ℚ) :
    evalBbUpper sqrt (xs.take m) period stdDev i = evalBbUpper sqrt xs period stdDev i := by
  unfold evalBbUpper
  rw [item_take xs hi, bollingerBands_take xs hi]

end Closes

/-! ## Donchian levels and true range -/

/-- The level at one bar: the front of the deque run on the `n` values before. -/
def levelBefore (values : List ℚ) (n : ℕ) (high : Bool) (i : ℕ) : Option ℚ :=
  if n ≤ i then (MonotoneDeque.stack (beaten high)
    ((List.range n).map fun k => values.getD (i - n + k) 0)).head?
  else none

theorem rangeBefore_eq (values : List ℚ) (n : ℕ) (high : Bool) :
    rangeBefore values n high = (List.range values.length).map (levelBefore values n high) := by
  unfold rangeBefore
  by_cases hn : n < 1
  · have hz : n = 0 := Nat.lt_one_iff.mp hn
    subst hz
    rw [if_pos hn]
    refine (List.eq_replicate_iff.mpr ⟨by simp, fun b hb => ?_⟩).symm
    obtain ⟨i, -, rfl⟩ := List.mem_map.mp hb
    rfl
  · rw [if_neg hn, rangePass_eq]
    refine List.map_congr_left fun i _ => ?_
    have hval : (List.range n).map (fun k => values.getD (i - n + k) 0) =
        (List.range' (i - n) n).map fun j => values.getD j 0 := by
      rw [List.range'_eq_map_range, List.map_map]
      rfl
    unfold levelBefore
    by_cases hi : n ≤ i
    · rw [if_pos hi, if_pos hi, hval, ← MonotoneDeque.map_stack, List.head?_map]
      rfl
    · rw [if_neg hi, if_neg hi]

theorem levelBefore_take (values : List ℚ) {m i : ℕ} (hi : i < m) (n : ℕ) (high : Bool) :
    levelBefore (values.take m) n high i = levelBefore values n high i := by
  unfold levelBefore
  by_cases hn : n ≤ i
  · rw [if_pos hn, if_pos hn]
    congr 2
    refine List.map_congr_left fun k hk => ?_
    have hk := List.mem_range.mp hk
    exact getD_take values (by omega) 0
  · rw [if_neg hn, if_neg hn]

theorem rangeBefore_causal (n : ℕ) (high : Bool) :
    Causal List.take fun values => rangeBefore values n high := by
  simp only [rangeBefore_eq]
  exact causal_perEntry (fun m values => List.length_take) fun values m i hi =>
    levelBefore_take values hi n high

theorem priorDonchian_take (values : List ℚ) {m i : ℕ} (hi : i < m) (high : Bool) (n : ℕ) :
    priorDonchian high (values.take m) n i = priorDonchian high values n i := by
  unfold priorDonchian
  rw [item_causal (rangeBefore_causal n high) values hi]

theorem trueRangeAt_take (s : Ohlc) {m j : ℕ} (hj : j < m) :
    trueRangeAt (s.take m) j = trueRangeAt s j := by
  unfold trueRangeAt
  simp only [Ohlc.take_closes, Ohlc.take_highs, Ohlc.take_lows]
  rw [getD_take s.highs hj, getD_take s.lows hj, getD_take s.closes (i := j - 1) (by omega)]

/-- `_atr_series` at one bar. -/
def atrEntry (period : ℕ) (s : Ohlc) (i : ℕ) : Option ℚ :=
  if i < period ∨ period = 0 then none
  else some (((List.range period).map fun k => trueRangeAt s (i + 1 - period + k)).sum / period)

theorem atrSeries_eq (s : Ohlc) (period : ℕ) :
    atrSeries s period = (List.range s.closes.length).map (atrEntry period s) := by
  unfold atrSeries
  by_cases hshort : period = 0 ∨ s.closes.length ≤ period
  · rw [if_pos hshort]
    refine (List.eq_replicate_iff.mpr ⟨by simp, fun b hb => ?_⟩).symm
    obtain ⟨i, hi, rfl⟩ := List.mem_map.mp hb
    have hi := List.mem_range.mp hi
    exact if_pos (by omega)
  · rw [if_neg hshort]
    refine List.map_congr_left fun i _ => ?_
    unfold atrEntry
    by_cases hi : i < period
    · rw [if_pos hi, if_pos (.inl hi)]
    · rw [if_neg hi, if_neg (by omega)]
      simp

theorem atrSeries_causal (period : ℕ) : Causal Ohlc.take fun s => atrSeries s period := by
  simp only [atrSeries_eq]
  refine causal_perEntry (fun m s => List.length_take) fun s m i hi => ?_
  unfold atrEntry
  by_cases hp : i < period ∨ period = 0
  · rw [if_pos hp, if_pos hp]
  · rw [if_neg hp, if_neg hp]
    congr 3
    refine List.map_congr_left fun k hk => ?_
    have hk := List.mem_range.mp hk
    exact trueRangeAt_take s (by omega)

theorem atrAt_take (s : Ohlc) {m i : ℕ} (hi : i < m) (period : ℕ) :
    atrAt (s.take m) period i = atrAt s period i := by
  unfold atrAt
  rw [item_causal (atrSeries_causal period) s hi]

theorem donHi_take (s : Ohlc) {m i : ℕ} (hi : i < m) (n : ℕ) :
    donHi (s.take m) n i = donHi s n i := by
  unfold donHi priorDonchianHigh
  rw [Ohlc.take_highs, Ohlc.take_closes, priorDonchian_take s.highs hi, item_take s.closes hi]

theorem donLo_take (s : Ohlc) {m i : ℕ} (hi : i < m) (n : ℕ) :
    donLo (s.take m) n i = donLo s n i := by
  unfold donLo priorDonchianLow
  rw [Ohlc.take_lows, Ohlc.take_closes, priorDonchian_take s.lows hi, item_take s.closes hi,
    atrAt_take s hi]

/-! ## Higher-timeframe closes -/

/-- The cut ends in the middle of a bucket; its completed buckets are the first
ones of the whole series. -/
theorem htfClosesAll_take (closes : List ℚ) (m barsPer : ℕ) :
    htfClosesAll (closes.take m) barsPer = (htfClosesAll closes barsPer).take (m / barsPer) := by
  unfold htfClosesAll
  have hmono : Monotone fun n : ℕ => n / barsPer := fun a b h => Nat.div_le_div_right h
  have hmin : min m closes.length / barsPer = min (m / barsPer) (closes.length / barsPer) :=
    hmono.map_min
  rw [← List.map_take, List.take_range, List.length_take, hmin]
  refine List.map_congr_left fun k hk => getD_take closes ?_ 0
  have hk := (Nat.lt_min.mp (List.mem_range.mp hk)).1
  have hpos : 0 < barsPer := Nat.pos_of_ne_zero fun hz => by simp [hz] at hk
  have hle : (k + 1) * barsPer ≤ m := (Nat.le_div_iff_mul_le hpos).mp hk
  have hmul : 0 < (k + 1) * barsPer := Nat.mul_pos (Nat.succ_pos k) hpos
  unfold htfBucketCloseIndex
  omega

end PaperTrading.Signals
