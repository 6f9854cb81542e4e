import Mathlib.Algebra.BigOperators.Field
import Mathlib.Algebra.Order.BigOperators.Group.Finset
import Mathlib.Algebra.Order.Field.Basic
import Mathlib.Tactic.Ring
import Mathlib.Tactic.FieldSimp

/-!
# A cross-section of scores

Scores of the members of a finite set, taken from their mean (`demeaned`) and scaled so that
their sizes add up to a target (`scaledTo`), unless there is next to nothing to scale. The sizes
add up to the target or are all zero (`sum_abs_scaledTo`) and what was demeaned adds up to zero
(`sum_scaledTo_demeaned`).

Members of score zero can be left out before the scaling (`scaledTo_subset`). Before the
demeaning they cannot, unless the scores add up to zero or nothing is scaled anyway
(`scaledTo_demeaned_subset_iff`): the mean of the set sets them apart.
-/

namespace PaperTrading.Lib

variable {ι K : Type} [Field K]

def mean (T : Finset ι) (c : ι → K) : K := (∑ t ∈ T, c t) / T.card

def demeaned (T : Finset ι) (c : ι → K) (t : ι) : K := c t - mean T c

theorem demeaned_of_sum {T : Finset ι} {c : ι → K} (h : ∑ t ∈ T, c t = 0) : demeaned T c = c := by
  funext t
  unfold demeaned mean
  rw [h, zero_div, sub_zero]

variable [LinearOrder K]

/-- The sizes of the scores together. -/
def spread (T : Finset ι) (c : ι → K) : K := ∑ t ∈ T, |c t|

section
variable [IsStrictOrderedRing K]

theorem sum_demeaned (T : Finset ι) (c : ι → K) : ∑ t ∈ T, demeaned T c t = 0 := by
  unfold demeaned mean
  rw [Finset.sum_sub_distrib, Finset.sum_const, nsmul_eq_mul]
  rcases T.eq_empty_or_nonempty with rfl | hne
  · simp
  · have hcard : (T.card : K) ≠ 0 := Nat.cast_ne_zero.mpr hne.card_ne_zero
    rw [mul_div_cancel₀ _ hcard, sub_self]

theorem spread_subset {T V : Finset ι} {c : ι → K} (hV : V ⊆ T)
    (hzero : ∀ t ∈ T, t ∉ V → c t = 0) : spread V c = spread T c :=
  Finset.sum_subset hV fun t ht hnot => by rw [hzero t ht hnot, abs_zero]

end

variable [DecidableEq ι]

/-- The scores scaled to sizes of `g` together, or zero where their spread is below `ε`. -/
def scaledTo (ε : K) (T : Finset ι) (c : ι → K) (g : K) (t : ι) : K :=
  if t ∈ T then (if spread T c < ε then 0 else c t / spread T c * g) else 0

variable {ε g : K} {T V : Finset ι} {c : ι → K}

theorem scaledTo_of_lt (h : spread T c < ε) (t : ι) : scaledTo ε T c g t = 0 := by
  unfold scaledTo
  rw [if_pos h, ite_self]

theorem scaledTo_of_le (h : ε ≤ spread T c) {t : ι} (ht : t ∈ T) :
    scaledTo ε T c g t = c t / spread T c * g := by
  unfold scaledTo
  rw [if_pos ht, if_neg (not_lt.mpr h)]

theorem scaledTo_of_notMem {t : ι} (ht : t ∉ T) : scaledTo ε T c g t = 0 := if_neg ht

/-- A score that is scaled keeps off zero. -/
theorem scaledTo_ne_zero (hε : 0 < ε) (hg : 0 < g) (h : ε ≤ spread T c) {t : ι} (ht : t ∈ T)
    (hc : c t ≠ 0) : scaledTo ε T c g t ≠ 0 := by
  rw [scaledTo_of_le h ht]
  exact mul_ne_zero (div_ne_zero hc (hε.trans_le h).ne') hg.ne'

variable [IsStrictOrderedRing K]

/-- The sizes add up to the target, or all are zero. -/
theorem sum_abs_scaledTo (hε : 0 < ε) (hg : 0 ≤ g) :
    ∑ t ∈ T, |scaledTo ε T c g t| = g ∨ ∀ t, scaledTo ε T c g t = 0 := by
  rcases lt_or_ge (spread T c) ε with hlt | hge
  · exact Or.inr (scaledTo_of_lt hlt)
  · refine Or.inl ?_
    have hpos : 0 < spread T c := hε.trans_le hge
    have hterm : ∀ t ∈ T, |scaledTo ε T c g t| = |c t| * (g / spread T c) := by
      intro t ht
      rw [scaledTo_of_le hge ht, abs_mul, abs_div, abs_of_pos hpos, abs_of_nonneg hg]
      ring
    rw [Finset.sum_congr rfl hterm, ← Finset.sum_mul]
    exact mul_div_cancel₀ g hpos.ne'

theorem sum_scaledTo (h : ∑ t ∈ T, c t = 0) : ∑ t ∈ T, scaledTo ε T c g t = 0 := by
  rcases lt_or_ge (spread T c) ε with hlt | hge
  · exact Finset.sum_eq_zero fun t _ => scaledTo_of_lt hlt t
  · have hterm : ∀ t ∈ T, scaledTo ε T c g t = c t * (g / spread T c) := by
      intro t ht
      rw [scaledTo_of_le hge ht]
      ring
    rw [Finset.sum_congr rfl hterm, ← Finset.sum_mul, h, zero_mul]

/-! ## Members of score zero -/

section
variable (hV : V ⊆ T) (hzero : ∀ t ∈ T, t ∉ V → c t = 0)
include hV hzero

theorem scaledTo_subset (t : ι) : scaledTo ε V c g t = scaledTo ε T c g t := by
  unfold scaledTo
  rw [spread_subset hV hzero]
  by_cases ht : t ∈ V
  · rw [if_pos ht, if_pos (hV ht)]
  · rw [if_neg ht]
    by_cases hT : t ∈ T
    · rw [if_pos hT, hzero t hT ht, zero_div, zero_mul, ite_self]
    · rw [if_neg hT]

/-- Leaving them out before the demeaning changes nothing exactly when there are none, or the
scores add up to zero, or the scores are not scaled with or without them. -/
theorem scaledTo_demeaned_subset_iff (hε : 0 < ε) (hg : 0 < g) :
    (∀ t, scaledTo ε V (demeaned V c) g t = scaledTo ε T (demeaned T c) g t) ↔
      T ⊆ V ∨ ∑ t ∈ T, c t = 0 ∨
        spread V (demeaned V c) < ε ∧ spread T (demeaned T c) < ε := by
  have hsum : ∑ t ∈ V, c t = ∑ t ∈ T, c t := Finset.sum_subset hV hzero
  constructor
  · intro h
    by_contra hno
    obtain ⟨hmore, hsumne, hscaled⟩ : ¬ T ⊆ V ∧ ∑ t ∈ T, c t ≠ 0 ∧
        ¬ (spread V (demeaned V c) < ε ∧ spread T (demeaned T c) < ε) := by
      rw [not_or, not_or] at hno
      exact hno
    obtain ⟨t, ht, hnot⟩ := Finset.not_subset.mp hmore
    rcases lt_or_ge (spread T (demeaned T c)) ε with hlt | hge
    · -- scaled without them alone: then some score off zero would be scaled to zero
      refine hscaled ⟨not_le.mp fun hge => ?_, hlt⟩
      have hsome : ∃ s ∈ V, |demeaned V c s| ≠ 0 :=
        Finset.exists_ne_zero_of_sum_ne_zero (hε.trans_le hge).ne'
      obtain ⟨s, hs, hoff⟩ := hsome
      refine scaledTo_ne_zero hε hg hge hs (abs_ne_zero.mp hoff) ?_
      rw [h s, scaledTo_of_lt hlt]
    · -- one of score zero is off the mean
      have hcard : (T.card : K) ≠ 0 := Nat.cast_ne_zero.mpr (Finset.card_ne_zero_of_mem ht)
      have hoff : demeaned T c t ≠ 0 := by
        unfold demeaned
        rw [hzero t ht hnot, zero_sub]
        exact neg_ne_zero.mpr (div_ne_zero hsumne hcard)
      refine scaledTo_ne_zero hε hg hge ht hoff ?_
      rw [← h t, scaledTo_of_notMem hnot]
  · rintro (hsame | hnull | ⟨hltV, hltT⟩) t
    · rw [Finset.Subset.antisymm hV hsame]
    · rw [demeaned_of_sum (hsum.trans hnull), demeaned_of_sum hnull]
      exact scaledTo_subset hV hzero t
    · rw [scaledTo_of_lt hltV, scaledTo_of_lt hltT]

end

end PaperTrading.Lib
