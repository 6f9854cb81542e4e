import Mathlib.Algebra.Order.Field.Basic
import Mathlib.Data.List.Induction

/-!
# The largest fall from a running peak

`maxFall start values` is the largest fall of a sequence, as a share of the highest value
so far. `isGreatest_maxFall` says that it is the greatest of the falls at the values
(and 0), `maxFall_append` how it is computed in steps.
-/

namespace PaperTrading.Lib

variable {α : Type} [LinearOrder α]

/-- The highest of `values` and `start`. -/
def peakOf (start : α) (values : List α) : α := values.foldl max start

theorem peakOf_concat (start : α) (values : List α) (x : α) :
    peakOf start (values ++ [x]) = max (peakOf start values) x := by
  unfold peakOf
  rw [List.foldl_append, List.foldl_cons, List.foldl_nil]

variable [Field α]

/-- How far `x` is below `peak`. -/
def fall (peak x : α) : α := if 0 < peak then (peak - x) / peak else 0

def maxFall (start : α) : List α → α
  | [] => 0
  | x :: rest => max (fall (max start x) x) (maxFall (max start x) rest)

theorem maxFall_nonneg (start : α) (values : List α) : 0 ≤ maxFall start values := by
  induction values generalizing start with
  | nil => exact le_refl _
  | cons x rest ih => exact (ih _).trans (le_max_right _ _)

theorem maxFall_append (start : α) (values more : List α) :
    maxFall start (values ++ more) =
      max (maxFall start values) (maxFall (peakOf start values) more) := by
  induction values generalizing start with
  | nil => exact (max_eq_right (maxFall_nonneg start more)).symm
  | cons x rest ih => rw [List.cons_append, maxFall, maxFall, ih, max_assoc]; rfl

/-- One more value. -/
theorem maxFall_concat (start : α) (values : List α) (x : α) :
    maxFall start (values ++ [x]) =
      max (maxFall start values) (fall (max (peakOf start values) x) x) := by
  have hfall : 0 ≤ max (maxFall start values) (fall (max (peakOf start values) x) x) :=
    (maxFall_nonneg start values).trans (le_max_left _ _)
  rw [maxFall_append, maxFall, maxFall, ← max_assoc, max_eq_left hfall]

/-- The fall at every value is counted. -/
theorem fall_le_maxFall (start : α) (before : List α) (x : α) (after : List α) :
    fall (peakOf start (before ++ [x])) x ≤ maxFall start (before ++ x :: after) := by
  rw [peakOf_concat, maxFall_append, maxFall]
  exact (le_max_left _ _).trans (le_max_right _ _)

/-- It is the greatest of the falls at the values, each from the highest value up to it. -/
theorem isGreatest_maxFall (start : α) (values : List α) :
    IsGreatest {d | d = 0 ∨ ∃ before x after, values = before ++ x :: after ∧
      d = fall (peakOf start (before ++ [x])) x} (maxFall start values) := by
  constructor
  · induction values using List.reverseRecOn with
    | nil => exact Or.inl rfl
    | append_singleton values x ih =>
      rw [maxFall_concat]
      rcases max_choice (maxFall start values) (fall (max (peakOf start values) x) x) with h | h
      · rw [h]
        rcases ih with hzero | ⟨before, y, after, rfl, hd⟩
        · exact Or.inl hzero
        · exact Or.inr ⟨before, y, after ++ [x], by rw [List.append_assoc]; rfl, hd⟩
      · rw [h, ← peakOf_concat]
        exact Or.inr ⟨values, x, [], rfl, rfl⟩
  · rintro d (rfl | ⟨before, x, after, rfl, rfl⟩)
    · exact maxFall_nonneg start values
    · exact fall_le_maxFall start before x after

/-- Values above zero never fall by the whole of a peak above zero. -/
theorem maxFall_lt_one [IsStrictOrderedRing α] {values : List α} : ∀ {start : α}, 0 < start →
    (∀ x ∈ values, 0 < x) → maxFall start values < 1 := by
  induction values with
  | nil => exact fun _ _ => zero_lt_one
  | cons x rest ih =>
    intro start hstart hpos
    have hpeak : 0 < max start x := hstart.trans_le (le_max_left _ _)
    refine max_lt ?_ (ih hpeak fun y hy => hpos y (List.mem_cons_of_mem _ hy))
    unfold fall
    rw [if_pos hpeak, div_lt_one hpeak]
    exact sub_lt_self _ (hpos x List.mem_cons_self)

/-! ## Gains from one entry to the next -/

/-- What is gained from each entry of a list to the next. -/
def gains {β : Type} (gain : β → β → α) (l : List β) : List α := List.zipWith gain l l.tail

omit [LinearOrder α] in
/-- Where each value is the one before and a gain, a value is the first and the gains up to it. -/
theorem value_of_gains {β : Type} {f : β → α} {gain : β → β → α} : ∀ {l : List β} {x : β},
    (x :: l).IsChain (fun a b => f b = f a + gain a b) → ∀ {k : ℕ} {y : β}, (x :: l)[k]? = some y →
      f y = f x + ((gains gain (x :: l)).take k).sum := by
  intro l
  induction l with
  | nil =>
    intro x _ k y hy
    cases k with
    | zero =>
      rw [← Option.some.inj hy, List.take_zero, List.sum_nil, add_zero]
    | succ k => cases hy
  | cons z l ih =>
    intro x h k y hy
    rw [List.isChain_cons_cons] at h
    cases k with
    | zero => rw [← Option.some.inj hy, List.take_zero, List.sum_nil, add_zero]
    | succ k =>
      have hrest := ih h.2 hy
      have hgains : gains gain (x :: z :: l) = gain x z :: gains gain (z :: l) := rfl
      rw [hrest, h.1, hgains, List.take_succ_cons, List.sum_cons, add_assoc]

end PaperTrading.Lib
