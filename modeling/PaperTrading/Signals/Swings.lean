import Mathlib.Data.List.GetD
import PaperTrading.Lib.Bisect
import PaperTrading.Signals.Cut

/-!
# Fractal swings

`signals/structure.py`: the pivots of a series, found in one pass over the whole
of it, and the atoms on the ones confirmed by bar `i`. A pivot needs `k` bars on
its right, so the pass reads bars the decision bar has not seen; the binary
search keeps the pivots whose right-hand bars are there.

`confirmedSwings_eq` says what it keeps: the pivots among the bars up to `i - k`,
each a matter of the `k` bars on either side.
-/

namespace PaperTrading.Signals

open Lib

def HOLD_PCT : ℚ := 1 / 100
def HOLD_ATR_MULT : ℚ := 1

/-! ## Pivots -/

/-- `_range_after`, max or min of the `k` values after each position. -/
def rangeAfter (values : List ℚ) (k : ℕ) (high : Bool) : List (Option ℚ) :=
  (rangeBefore values.reverse k high).reverse

/-- `v` is above both levels, or below both. -/
def extreme (high : Bool) (v lv rv : ℚ) : Bool :=
  if high then lv < v ∧ rv < v else v < lv ∧ v < rv

/-- One position of the loop of `pivot_arrays`. -/
def pivotAt (values : List ℚ) (left right : List (Option ℚ)) (high : Bool) (j : ℕ) :
    Option (ℕ × ℚ) :=
  let v := values.getD j 0
  match left.getD j none, right.getD j none with
  | some lv, some rv =>
    if extreme high v lv rv then some (j, v) else none
  | _, _ => none

/-- `pivot_arrays`, indexes and prices of the pivots, oldest first. -/
def pivotArrays (values : List ℚ) (k : ℕ) (high : Bool) : List (ℕ × ℚ) :=
  if k < 1 ∨ values.length < 2 * k + 1 then []
  else
    let left := rangeBefore values k high
    let right := rangeAfter values k high
    (List.range' k (values.length - 2 * k)).filterMap (pivotAt values left right high)

/-- `confirmed_swings`, newest first. -/
def confirmedSwings (values : List ℚ) (k i : ℕ) (high : Bool) (limit : Option ℕ) :
    List (ℕ × ℚ) :=
  if k < 1 ∨ i < 2 * k then []
  else
    let pivots := pivotArrays values k high
    let lo := bisect (fun mid => decide ((pivots.getD mid (0, 0)).1 + k ≤ i)) 0 pivots.length
    if lo = 0 then []
    else
      let start := match limit with
        | none => 0
        | some l => lo - l
      ((pivots.take lo).drop start).reverse

def lastConfirmedSwing (values : List ℚ) (k i : ℕ) (high : Bool) : Option ℚ :=
  (confirmedSwings values k i high (some 1)).head?.map (·.2)

/-! ## Atoms -/

/-- The close is near the last confirmed swing. -/
def nearSwing (s : Ohlc) (k i : ℕ) (high : Bool) : Except String Bool :=
  match lastConfirmedSwing (if high then s.highs else s.lows) k i high with
  | none => pure false
  | some level => do
    let c ← item s.closes i
    let atrVal ← atrAt s NEAR_ATR_PERIOD i
    pure (isNearLevel c level atrVal)

def nearSwingHi (s : Ohlc) (k i : ℕ) : Except String Bool := nearSwing s k i true

def nearSwingLo (s : Ohlc) (k i : ℕ) : Except String Bool := nearSwing s k i false

/-- `hold_band`. -/
def holdBand (firstLevel : ℚ) (atrVal : Option ℚ) : ℚ :=
  let band := HOLD_PCT * |firstLevel|
  match atrVal with
  | none => band
  | some a => if 0 < a then max band (HOLD_ATR_MULT * a) else band

def swingsHold (first second : ℚ) (atrVal : Option ℚ) : Bool :=
  |second - first| ≤ holdBand first atrVal

/-- Two confirmed swings, the newer within the hold band of the older, and the
close beyond the newer. -/
def doubled (s : Ohlc) (k i : ℕ) (top : Bool) : Except String Bool :=
  match confirmedSwings (if top then s.highs else s.lows) k i top (some 2) with
  | newer :: older :: _ => do
    let atrVal ← atrAt s NEAR_ATR_PERIOD i
    if swingsHold older.2 newer.2 atrVal then do
      let c ← item s.closes i
      pure (if top then c < newer.2 else newer.2 < c)
    else pure false
  | _ => pure false

def dblBot (s : Ohlc) (k i : ℕ) : Except String Bool := doubled s k i false

def dblTop (s : Ohlc) (k i : ℕ) : Except String Bool := doubled s k i true

/-! ## What is confirmed -/

/-- The level of the `k` values after `j`, read backwards as the pass over the
reversed list does. -/
def levelAfter (values : List ℚ) (k : ℕ) (high : Bool) (j : ℕ) : Option ℚ :=
  (MonotoneDeque.stack (beaten high) ((List.range k).map fun t => values.getD (j + k - t) 0)).head?

/-- The pivot at `j`, if there is one, from the values around it. -/
def pivotOf (values : List ℚ) (k : ℕ) (high : Bool) (j : ℕ) : Option (ℕ × ℚ) :=
  let v := values.getD j 0
  match levelBefore values k high j, levelAfter values k high j with
  | some lv, some rv =>
    if extreme high v lv rv then some (j, v) else none
  | _, _ => none

/-- The pivots among the bars whose `k` right-hand bars are there by bar `i`. -/
def swingsBy (values : List ℚ) (k : ℕ) (high : Bool) (i : ℕ) : List (ℕ × ℚ) :=
  (List.range' k (i + 1 - 2 * k)).filterMap (pivotOf values k high)

/-- The front of a list that is newest first, at most `limit` of it. -/
def newest {α : Type} : Option ℕ → List α → List α
  | none, xs => xs
  | some l, xs => xs.take l

theorem rangeAfter_getD {values : List ℚ} {k j : ℕ} (high : Bool) (h : j + k < values.length) :
    (rangeAfter values k high).getD j none = levelAfter values k high j := by
  have hsrc : values.length - 1 - j < values.length := by omega
  unfold rangeAfter
  rw [rangeBefore_eq, List.getD_eq_getElem?_getD, List.getElem?_reverse (by simp; omega)]
  simp only [List.length_map, List.length_range, List.length_reverse, List.getElem?_map,
    List.getElem?_range hsrc, Option.map_some, Option.getD_some]
  unfold levelBefore levelAfter
  rw [if_pos (by omega)]
  congr 2
  refine List.map_congr_left fun t ht => ?_
  have ht := List.mem_range.mp ht
  rw [List.getD_eq_getElem?_getD, List.getElem?_reverse (by omega), List.getD_eq_getElem?_getD]
  congr 2
  omega

theorem pivotArrays_eq (values : List ℚ) {k : ℕ} (high : Bool) (hk : 1 ≤ k) :
    pivotArrays values k high =
      (List.range' k (values.length - 2 * k)).filterMap (pivotOf values k high) := by
  unfold pivotArrays
  by_cases hn : k < 1 ∨ values.length < 2 * k + 1
  · rw [if_pos hn, show values.length - 2 * k = 0 by omega]
    rfl
  · rw [if_neg hn]
    refine List.filterMap_congr fun j hj => ?_
    have hj := List.mem_range'_1.mp hj
    have hleft : (rangeBefore values k high).getD j none = levelBefore values k high j := by
      rw [rangeBefore_eq, List.getD_eq_getElem?_getD, List.getElem?_map,
        List.getElem?_range (by omega)]
      rfl
    unfold pivotAt pivotOf
    rw [hleft, rangeAfter_getD high (by omega)]

theorem pivotOf_index {values : List ℚ} {k j : ℕ} {high : Bool} {p : ℕ × ℚ}
    (h : pivotOf values k high j = some p) : p.1 = j := by
  unfold pivotOf at h
  dsimp only at h
  split at h
  · split at h
    · cases h
      rfl
    · cases h
  · cases h

theorem swingsBy_index {values : List ℚ} {k i : ℕ} {high : Bool} {p : ℕ × ℚ}
    (h : p ∈ swingsBy values k high i) : p.1 + k ≤ i := by
  obtain ⟨j, hj, hp⟩ := List.mem_filterMap.mp h
  have hj := List.mem_range'_1.mp hj
  rw [pivotOf_index hp]
  omega

/-- The pivots of the whole series are those confirmed by bar `i`, then those
that are not. -/
theorem pivotArrays_split {values : List ℚ} {k i : ℕ} (high : Bool) (hk : 1 ≤ k)
    (hi : i < values.length) : ∃ later, pivotArrays values k high =
      swingsBy values k high i ++ later ∧ ∀ p ∈ later, i < p.1 + k := by
  refine ⟨(List.range' (k + (i + 1 - 2 * k))
    (values.length - 2 * k - (i + 1 - 2 * k))).filterMap (pivotOf values k high), ?_, ?_⟩
  · have hsplit : List.range' k (values.length - 2 * k) = List.range' k (i + 1 - 2 * k) ++
        List.range' (k + (i + 1 - 2 * k)) (values.length - 2 * k - (i + 1 - 2 * k)) := by
      rw [List.range'_append_1]
      congr 1
      omega
    rw [pivotArrays_eq values high hk, hsplit, List.filterMap_append]
    rfl
  · intro p hp
    obtain ⟨j, hj, hp⟩ := List.mem_filterMap.mp hp
    have hj := List.mem_range'_1.mp hj
    rw [pivotOf_index hp]
    omega

/-- The search ends behind the last confirmed pivot. -/
theorem bisect_swings {values : List ℚ} {k i : ℕ} (high : Bool) (hk : 1 ≤ k)
    (hi : i < values.length) :
    bisect (fun mid => decide (((pivotArrays values k high).getD mid (0, 0)).1 + k ≤ i)) 0
      (pivotArrays values k high).length = (swingsBy values k high i).length := by
  obtain ⟨later, hsplit, hlater⟩ := pivotArrays_split high hk hi
  rw [hsplit]
  refine bisect_append (0, 0) (fun p hp => decide_eq_true (swingsBy_index hp)) fun p hp => ?_
  exact decide_eq_false (Nat.not_le.mpr (hlater p hp))

theorem confirmedSwings_eq {values : List ℚ} {k i : ℕ} (high : Bool) (limit : Option ℕ)
    (hi : i < values.length) : confirmedSwings values k i high limit =
      if k < 1 then [] else newest limit (swingsBy values k high i).reverse := by
  unfold confirmedSwings
  by_cases hk : k < 1
  · rw [if_pos hk, if_pos (.inl hk)]
  · rw [if_neg hk]
    by_cases hshort : i < 2 * k
    · have hnone : swingsBy values k high i = [] := by
        unfold swingsBy
        rw [show i + 1 - 2 * k = 0 by omega]
        rfl
      rw [if_pos (.inr hshort), hnone]
      cases limit <;> simp [newest]
    · obtain ⟨later, hsplit, -⟩ := pivotArrays_split high (Nat.le_of_not_lt hk) hi
      rw [if_neg (by omega)]
      dsimp only
      rw [bisect_swings high (Nat.le_of_not_lt hk) hi, hsplit, List.take_left]
      by_cases hnone : (swingsBy values k high i).length = 0
      · rw [if_pos hnone, List.eq_nil_of_length_eq_zero hnone]
        cases limit <;> simp [newest]
      · rw [if_neg hnone]
        cases limit with
        | none => rfl
        | some l => exact List.take_reverse.symm

/-! ## No look-ahead -/

theorem pivotOf_take (values : List ℚ) {m k j : ℕ} (high : Bool) (hj : j + k < m) :
    pivotOf (values.take m) k high j = pivotOf values k high j := by
  have hafter : levelAfter (values.take m) k high j = levelAfter values k high j := by
    unfold levelAfter
    congr 2
    refine List.map_congr_left fun t _ => getD_take values (by omega) 0
  unfold pivotOf
  rw [levelBefore_take values (by omega), hafter, getD_take values (by omega)]

theorem swingsBy_take (values : List ℚ) {m i : ℕ} (hi : i < m) (k : ℕ) (high : Bool) :
    swingsBy (values.take m) k high i = swingsBy values k high i := by
  unfold swingsBy
  refine List.filterMap_congr fun j hj => pivotOf_take values high ?_
  have hj := List.mem_range'_1.mp hj
  omega

theorem confirmedSwings_take (values : List ℚ) {m i : ℕ} (hi : i < m) (k : ℕ) (high : Bool)
    (limit : Option ℕ) :
    confirmedSwings (values.take m) k i high limit = confirmedSwings values k i high limit := by
  by_cases hm : m ≤ values.length
  · have hlen : i < (values.take m).length := by simp only [List.length_take]; omega
    rw [confirmedSwings_eq high limit hlen, confirmedSwings_eq high limit (hi.trans_le hm),
      swingsBy_take values hi]
  · rw [List.take_of_length_le (Nat.le_of_not_le hm)]

theorem nearSwing_take (s : Ohlc) {m i : ℕ} (hi : i < m) (k : ℕ) (high : Bool) :
    nearSwing (s.take m) k i high = nearSwing s k i high := by
  have hside : (if high then (s.take m).highs else (s.take m).lows) =
      (if high then s.highs else s.lows).take m := by cases high <;> rfl
  unfold nearSwing lastConfirmedSwing
  rw [hside, confirmedSwings_take _ hi, Ohlc.take_closes, item_take s.closes hi, atrAt_take s hi]

theorem doubled_take (s : Ohlc) {m i : ℕ} (hi : i < m) (k : ℕ) (top : Bool) :
    doubled (s.take m) k i top = doubled s k i top := by
  have hside : (if top then (s.take m).highs else (s.take m).lows) =
      (if top then s.highs else s.lows).take m := by cases top <;> rfl
  unfold doubled
  rw [hside, confirmedSwings_take _ hi, Ohlc.take_closes, item_take s.closes hi, atrAt_take s hi]

end PaperTrading.Signals

/-!
## Levels and pivots as they are meant

The one-pass helpers of `signals/structure.py` against their definitions: the level of a
deque is the largest or smallest of the values before (`rangeBefore_extreme`), the pivots
are the positions whose value is the strict extreme of the `k` values on either side
(`pivotArrays_marks`), and the binary search keeps of them those confirmed
(`confirmedSwings_confirmed`). Each is said of every list, window and bar, also where the
window is longer than the list and where the bar is behind its end.
-/

namespace PaperTrading.Signals

open Lib

/-! ### The level -/

/-- The largest value, or the smallest. -/
def extremeOf (high : Bool) (values : List ℚ) : Option ℚ :=
  if high then values.max? else values.min?

/-- `values[i-n:i]` -/
def valuesBefore (values : List ℚ) (n i : ℕ) : List ℚ := (values.drop (i - n)).take n

theorem beaten_total (high : Bool) (a b : ℚ) : beaten high a b = true ∨ beaten high b a = true := by
  unfold beaten
  cases high with
  | true => simpa using le_total a b
  | false => simpa using le_total b a

theorem beaten_trans (high : Bool) (a b c : ℚ) (hab : beaten high a b = true)
    (hbc : beaten high b c = true) : beaten high a c = true := by
  unfold beaten at hab hbc ⊢
  cases high with
  | true =>
    rw [if_pos rfl, decide_eq_true_eq] at hab hbc ⊢
    exact hab.trans hbc
  | false =>
    rw [if_neg Bool.false_ne_true, decide_eq_true_eq] at hab hbc ⊢
    exact hbc.trans hab

theorem extremeOf_eq_some {high : Bool} {values : List ℚ} {m : ℚ} :
    extremeOf high values = some m ↔ m ∈ values ∧ ∀ x ∈ values, beaten high x m = true := by
  unfold extremeOf beaten
  cases high with
  | true =>
    simp only [if_pos, decide_eq_true_eq]
    exact List.max?_eq_some_iff
  | false =>
    simp only [Bool.false_eq_true, if_false, decide_eq_true_eq]
    exact List.min?_eq_some_iff

/-- The front of the deque is the extreme of its window. -/
theorem head?_stack_eq (high : Bool) (values : List ℚ) :
    (MonotoneDeque.stack (beaten high) values).head? = extremeOf high values := by
  by_cases hnil : values = []
  · rw [hnil]
    cases high <;> rfl
  · obtain ⟨m, hm⟩ := Option.isSome_iff_exists.mp
      (List.isSome_head?.mpr (MonotoneDeque.stack_ne_nil (r := beaten high) hnil))
    rw [hm]
    exact (extremeOf_eq_some.mpr
      (MonotoneDeque.head?_stack (beaten_total high) (beaten_trans high) hm)).symm

theorem map_getD_eq (values : List ℚ) {n i : ℕ} (hn : n ≤ i) (hi : i ≤ values.length) :
    ((List.range n).map fun t => values.getD (i - n + t) 0) = valuesBefore values n i := by
  unfold valuesBefore
  refine List.ext_getElem (by simp; omega) fun t ht _ => ?_
  rw [List.length_map, List.length_range] at ht
  rw [List.getElem_map, List.getElem_range, List.getElem_take, List.getElem_drop,
    List.getD_eq_getElem _ _ (by omega)]

/-- `_range_before` is what its docstring says, for every window. -/
theorem rangeBefore_extreme (values : List ℚ) (n : ℕ) (high : Bool) :
    rangeBefore values n high = (List.range values.length).map fun i =>
      if 1 ≤ n ∧ n ≤ i then extremeOf high (valuesBefore values n i) else none := by
  rw [rangeBefore_eq]
  refine List.map_congr_left fun i hi => ?_
  have hi := List.mem_range.mp hi
  unfold levelBefore
  by_cases hni : n ≤ i
  · rw [if_pos hni, head?_stack_eq, map_getD_eq values hni hi.le]
    by_cases hn : 1 ≤ n
    · rw [if_pos ⟨hn, hni⟩]
    · have hz : n = 0 := by omega
      subst hz
      rw [if_neg fun h => hn h.1]
      unfold valuesBefore
      rw [List.take_zero]
      cases high <;> rfl
  · rw [if_neg hni, if_neg fun h => hni h.2]

/-! ### Pivots -/

/-- The value is strictly above the other, or strictly below. -/
def Beats (high : Bool) (v x : ℚ) : Prop := if high then x < v else v < x

theorem beats_iff (high : Bool) (v x : ℚ) : Beats high v x ↔ beaten high v x = false := by
  unfold Beats beaten
  cases high <;> simp

/-- A value beats all others when it beats the extreme of them. -/
theorem beats_extreme {high : Bool} {values : List ℚ} {m : ℚ} (h : extremeOf high values = some m)
    (v : ℚ) : Beats high v m ↔ ∀ x ∈ values, Beats high v x := by
  obtain ⟨hmem, hall⟩ := extremeOf_eq_some.mp h
  constructor
  · intro hv x hx
    rw [beats_iff] at hv ⊢
    cases hvx : beaten high v x with
    | false => rfl
    | true => exact absurd (beaten_trans high v x m hvx (hall x hx)) (by rw [hv]; exact Bool.false_ne_true)
  · intro hv
    exact hv m hmem

/-- The value at `j` is the strict extreme of the window from `j - k` to `j + k`, which is
in the list. -/
structure IsPivot (values : List ℚ) (k : ℕ) (high : Bool) (j : ℕ) : Prop where
  before : k ≤ j
  after : j + k < values.length
  extreme : ∀ i, j ≤ i + k → i ≤ j + k → i ≠ j → Beats high (values.getD j 0) (values.getD i 0)

theorem extreme_iff (high : Bool) (v lv rv : ℚ) :
    extreme high v lv rv = true ↔ Beats high v lv ∧ Beats high v rv := by
  unfold extreme Beats
  cases high <;> simp

theorem extremeOf_isSome (high : Bool) {values : List ℚ} (h : values ≠ []) :
    ∃ m, extremeOf high values = some m := by
  rw [← head?_stack_eq]
  exact Option.isSome_iff_exists.mp (List.isSome_head?.mpr (MonotoneDeque.stack_ne_nil h))

/-- The pivot the pass finds at a position in the list is the one that is meant. -/
theorem pivotOf_eq {values : List ℚ} {k j : ℕ} (high : Bool) (hk : 1 ≤ k) (hj : k ≤ j)
    (hlen : j + k < values.length) (p : ℕ × ℚ) :
    pivotOf values k high j = some p ↔ IsPivot values k high j ∧ p = (j, values.getD j 0) := by
  have hleft : levelBefore values k high j = extremeOf high (valuesBefore values k j) := by
    unfold levelBefore
    rw [if_pos hj, head?_stack_eq, map_getD_eq values hj (by omega)]
  have hright : levelAfter values k high j =
      extremeOf high ((List.range k).map fun t => values.getD (j + k - t) 0) := head?_stack_eq _ _
  obtain ⟨lv, hlv⟩ := extremeOf_isSome high
    (show valuesBefore values k j ≠ [] by
      rw [← map_getD_eq values hj (by omega)]
      exact fun h => absurd (congrArg List.length h) (by simp; omega))
  obtain ⟨rv, hrv⟩ := extremeOf_isSome high
    (show ((List.range k).map fun t => values.getD (j + k - t) 0) ≠ [] from
      fun h => absurd (congrArg List.length h) (by simp; omega))
  have hbefore := beats_extreme hlv (values.getD j 0)
  have hafter := beats_extreme hrv (values.getD j 0)
  rw [← map_getD_eq values hj (by omega)] at hbefore
  simp only [List.forall_mem_map, List.mem_range] at hbefore hafter
  have hpivot : extreme high (values.getD j 0) lv rv = true ↔ IsPivot values k high j := by
    rw [extreme_iff, hbefore, hafter]
    constructor
    · rintro ⟨hb, ha⟩
      refine ⟨hj, hlen, fun i hi hi' hne => ?_⟩
      rcases Nat.lt_or_gt_of_ne hne with hlt | hgt
      · have hat := hb (i + k - j) (by omega)
        rwa [show j - k + (i + k - j) = i by omega] at hat
      · have hat := ha (j + k - i) (by omega)
        rwa [show j + k - (j + k - i) = i by omega] at hat
    · intro h
      exact ⟨fun t ht => h.extreme _ (by omega) (by omega) (by omega),
        fun t ht => h.extreme _ (by omega) (by omega) (by omega)⟩
  unfold pivotOf
  rw [hleft, hright, hlv, hrv]
  dsimp only
  by_cases he : extreme high (values.getD j 0) lv rv = true
  · rw [if_pos he, Option.some.injEq]
    exact ⟨fun h => ⟨hpivot.mp he, h.symm⟩, fun h => h.2.symm⟩
  · rw [if_neg he]
    exact iff_of_false (fun h => by cases h) fun h => he (hpivot.mpr h.1)

/-- The pivot arrays mark the pivots, with their values. -/
theorem pivotArrays_marks (values : List ℚ) (k : ℕ) (high : Bool) (p : ℕ × ℚ) :
    p ∈ pivotArrays values k high ↔
      1 ≤ k ∧ IsPivot values k high p.1 ∧ p.2 = values.getD p.1 0 := by
  by_cases hk : 1 ≤ k
  · rw [pivotArrays_eq values high hk, List.mem_filterMap]
    constructor
    · rintro ⟨j, hj, hp⟩
      obtain ⟨hkj, hlt⟩ := List.mem_range'_1.mp hj
      obtain ⟨hpivot, rfl⟩ := (pivotOf_eq high hk hkj (by omega) p).mp hp
      exact ⟨hk, hpivot, rfl⟩
    · rintro ⟨-, hpivot, hv⟩
      have hbefore := hpivot.before
      have hafter := hpivot.after
      refine ⟨p.1, List.mem_range'_1.mpr ⟨hbefore, by omega⟩, ?_⟩
      exact (pivotOf_eq high hk hbefore hafter p).mpr ⟨hpivot, Prod.ext rfl hv⟩
  · have hnone : pivotArrays values k high = [] := if_pos (Or.inl (not_le.mp hk))
    rw [hnone]
    exact ⟨fun h => (List.not_mem_nil h).elim, fun h => absurd h.1 hk⟩

/-- The pivots are there oldest first. -/
theorem pivotArrays_oldestFirst (values : List ℚ) (k : ℕ) (high : Bool) :
    (pivotArrays values k high).Pairwise fun p q => p.1 < q.1 := by
  by_cases hk : 1 ≤ k
  · rw [pivotArrays_eq values high hk]
    refine List.pairwise_filterMap.mpr ?_
    refine List.Pairwise.imp (fun {i j} hij p hp q hq => ?_) (List.pairwise_lt_range')
    rw [pivotOf_index hp, pivotOf_index hq]
    exact hij
  · have hnone : pivotArrays values k high = [] := if_pos (Or.inl (not_le.mp hk))
    rw [hnone]
    exact List.Pairwise.nil

/-! ### Confirmed pivots -/

/-- The search keeps the pivots confirmed by the bar. -/
theorem confirmedSwings_confirmed (values : List ℚ) (k i : ℕ) (high : Bool) (limit : Option ℕ) :
    confirmedSwings values k i high limit =
      newest limit ((pivotArrays values k high).filter fun p => p.1 + k ≤ i).reverse := by
  have hsorted : (pivotArrays values k high).Pairwise fun p q =>
      decide (q.1 + k ≤ i) = true → decide (p.1 + k ≤ i) = true := by
    refine (pivotArrays_oldestFirst values k high).imp fun hlt hq => ?_
    rw [decide_eq_true_eq] at hq ⊢
    omega
  have hsearch := bisect_filter (0, 0) hsorted
  unfold confirmedSwings
  by_cases hshort : k < 1 ∨ i < 2 * k
  · -- no pivot is confirmed so early
    have hnone : (pivotArrays values k high).filter (fun p => decide (p.1 + k ≤ i)) = [] := by
      refine List.filter_eq_nil_iff.mpr fun p hp => ?_
      obtain ⟨hk, hpivot, -⟩ := (pivotArrays_marks values k high p).mp hp
      have hbefore := hpivot.before
      rw [decide_eq_true_eq]
      omega
    rw [if_pos hshort, hnone]
    cases limit <;> simp [newest]
  · rw [if_neg hshort]
    dsimp only
    rw [hsearch, take_filter hsorted]
    generalize (pivotArrays values k high).filter (fun p => decide (p.1 + k ≤ i)) = found
    by_cases hnone : found.length = 0
    · rw [if_pos hnone, List.eq_nil_of_length_eq_zero hnone]
      cases limit <;> simp [newest]
    · rw [if_neg hnone]
      cases limit with
      | none => rfl
      | some l => exact List.take_reverse.symm

/-! ### All of it -/

/-- Every list, window and bar: the level is the extreme of the values before, the pivots
are the strict extremes of their windows, oldest first, and what is confirmed by the bar is
read from them, newest first. -/
theorem helpers_as_defined (values : List ℚ) (n k i : ℕ) (high : Bool) (limit : Option ℕ) :
    (rangeBefore values n high = (List.range values.length).map fun i =>
        if 1 ≤ n ∧ n ≤ i then extremeOf high (valuesBefore values n i) else none) ∧
      ((∀ p, p ∈ pivotArrays values k high ↔
          1 ≤ k ∧ IsPivot values k high p.1 ∧ p.2 = values.getD p.1 0) ∧
        (pivotArrays values k high).Pairwise fun p q => p.1 < q.1) ∧
      confirmedSwings values k i high limit =
        newest limit ((pivotArrays values k high).filter fun p => p.1 + k ≤ i).reverse :=
  ⟨rangeBefore_extreme values n high,
    ⟨pivotArrays_marks values k high, pivotArrays_oldestFirst values k high⟩,
    confirmedSwings_confirmed values k i high limit⟩

end PaperTrading.Signals
