import Mathlib.Algebra.BigOperators.Group.List.Basic
import Mathlib.Algebra.Field.Basic
import Mathlib.Order.Basic
import Mathlib.Order.Defs.LinearOrder
import Mathlib.Order.Lattice
import Mathlib.Algebra.GroupWithZero.Nat

/-!
# Blocks that tile a span

`Tiles s segs e`: the blocks follow on each other from `s` to `e`, each with its start in
and its end out. A point of the span is then in exactly one block (`Tiles.countP_holds`), and
the ratios of a figure over the blocks multiply to its ratio over the span
(`Tiles.prod_ratio`).
-/

namespace PaperTrading.Lib

variable {β : Type}

section
variable [LinearOrder β]

/-- The blocks follow on each other from `s` to `e`. -/
def Tiles : β → List (β × β) → β → Prop
  | s, [], e => s = e
  | s, seg :: segs, e => seg.1 = s ∧ seg.1 < seg.2 ∧ Tiles seg.2 segs e

/-- The point is in the block. -/
def holds (seg : β × β) (x : β) : Bool := seg.1 ≤ x && x < seg.2

theorem holds_iff {seg : β × β} {x : β} : holds seg x = true ↔ seg.1 ≤ x ∧ x < seg.2 := by
  unfold holds
  rw [Bool.and_eq_true, decide_eq_true_eq, decide_eq_true_eq]

theorem Tiles.le : ∀ {segs : List (β × β)} {s e : β}, Tiles s segs e → s ≤ e := by
  intro segs
  induction segs with
  | nil => intro s e h; exact le_of_eq h
  | cons seg segs ih =>
    intro s e h
    obtain ⟨rfl, hlt, hrest⟩ := h
    exact hlt.le.trans (ih hrest)

theorem Tiles.bounds : ∀ {segs : List (β × β)} {s e : β}, Tiles s segs e → ∀ seg ∈ segs,
    s ≤ seg.1 ∧ seg.1 < seg.2 ∧ seg.2 ≤ e := by
  intro segs
  induction segs with
  | nil => intro s e _ seg hseg; cases hseg
  | cons first segs ih =>
    intro s e h seg hseg
    obtain ⟨rfl, hlt, hrest⟩ := h
    rcases List.mem_cons.mp hseg with rfl | hseg
    · exact ⟨le_refl _, hlt, hrest.le⟩
    · obtain ⟨hs, hlt', he⟩ := ih hrest seg hseg
      exact ⟨hlt.le.trans hs, hlt', he⟩

/-- A point of the span is in exactly one block, any other in none. -/
theorem Tiles.countP_holds (x : β) : ∀ {segs : List (β × β)} {s e : β}, Tiles s segs e →
    segs.countP (holds · x) = if s ≤ x ∧ x < e then 1 else 0 := by
  intro segs
  induction segs with
  | nil =>
    intro s e h
    have h : s = e := h
    rw [if_neg fun hx => absurd (h ▸ hx.1) (not_le.mpr hx.2)]
    rfl
  | cons seg segs ih =>
    intro s e h
    obtain ⟨rfl, hlt, hrest⟩ := h
    rw [List.countP_cons, ih hrest]
    by_cases hin : seg.1 ≤ x ∧ x < seg.2
    · rw [if_neg fun hx => absurd hin.2 (not_lt.mpr hx.1), if_pos (holds_iff.mpr hin),
        if_pos ⟨hin.1, hin.2.trans_le hrest.le⟩]
    · rw [if_neg (show ¬ holds seg x = true from fun hx => hin (holds_iff.mp hx)), Nat.add_zero]
      by_cases hlater : seg.2 ≤ x ∧ x < e
      · rw [if_pos hlater, if_pos ⟨hlt.le.trans hlater.1, hlater.2⟩]
      · rw [if_neg hlater, if_neg]
        rintro ⟨hs, he⟩
        rcases lt_or_ge x seg.2 with hx | hx
        · exact hin ⟨hs, hx⟩
        · exact hlater ⟨hx, he⟩

/-- The blocks between neighbours of an ascending list. -/
theorem tiles_zip : ∀ {edges : List β} {s : β}, (s :: edges).Pairwise (· < ·) →
    Tiles s ((s :: edges).zip edges) ((s :: edges).getLast (List.cons_ne_nil _ _)) := by
  intro edges
  induction edges with
  | nil => intro s _; exact rfl
  | cons t edges ih =>
    intro s h
    have hlt : s < t := List.rel_of_pairwise_cons h List.mem_cons_self
    exact ⟨rfl, hlt, ih (List.pairwise_cons.mp h).2⟩

/-- The ratios of a figure over the blocks multiply to its ratio over the span. -/
theorem Tiles.prod_ratio {K : Type} [Field K] (f : β → K) :
    ∀ {segs : List (β × β)} {s e : β}, Tiles s segs e → (∀ seg ∈ segs, f seg.1 ≠ 0) →
      f s * (segs.map fun seg => f seg.2 / f seg.1).prod = f e := by
  intro segs
  induction segs with
  | nil =>
    intro s e h _
    have h : s = e := h
    rw [List.map_nil, List.prod_nil, mul_one, h]
  | cons seg segs ih =>
    intro s e h hne
    obtain ⟨rfl, _, hrest⟩ := h
    rw [List.map_cons, List.prod_cons, ← mul_assoc,
      mul_div_cancel₀ _ (hne seg List.mem_cons_self)]
    exact ih hrest fun seg' hseg' => hne seg' (List.mem_cons_of_mem _ hseg')

end

/-- Counting pairs by the one side or by the other. -/
theorem sum_countP_comm {α γ : Type} (p : α → γ → Bool) (xs : List α) (ys : List γ) :
    (xs.map fun x => ys.countP (p x)).sum = (ys.map fun y => xs.countP (p · y)).sum := by
  induction xs with
  | nil => simp
  | cons x xs ih =>
    have hsum : ∀ l : List γ, (l.map fun y => (x :: xs).countP (p · y)).sum =
        l.countP (p x) + (l.map fun y => xs.countP (p · y)).sum := by
      intro l
      induction l with
      | nil => rfl
      | cons y l ihl =>
        rw [List.map_cons, List.sum_cons, ihl, List.map_cons, List.sum_cons, List.countP_cons,
          List.countP_cons]
        omega
    rw [List.map_cons, List.sum_cons, ih, hsum]

end PaperTrading.Lib
