import Mathlib.Data.List.Sort
import Mathlib.Order.Lattice

/-!
# Merges and pages

`List.merge` of two lists takes the head of the first as long as it is `before`
the head of the second. `merge_pairwise_iff` says when the result is in an order
of its own, one that neither list need be sorted by `before` in: an element of the
first list comes behind the elements of the second that stand in front of the
first one it is before.

`flatMap_windows` puts pages of one size together.
-/

namespace PaperTrading.Lib

variable {α : Type}

/-! ## Merges -/

/-- A merge is in the order `r` when both lists are, and every element of the first
is behind what the merge takes ahead of it and in front of the rest. -/
theorem merge_pairwise_iff {r : α → α → Prop} {before : α → α → Bool} : ∀ {l₁ l₂ : List α},
    l₁.Pairwise (fun x x' => ∀ y, before x' y = true → before x y = true) →
    ((List.merge l₁ l₂ before).Pairwise r ↔ l₁.Pairwise r ∧ l₂.Pairwise r ∧
      ∀ x ∈ l₁, (∀ y ∈ l₂.takeWhile fun y => !before x y, r y x) ∧
        ∀ y ∈ l₂.dropWhile fun y => !before x y, r x y) := by
  intro l₁ l₂ hmono
  fun_induction List.merge l₁ l₂ before with
  | case1 l₂ => simp
  | case2 l₁ => simp
  | case3 x l₁ y l₂ hle ih =>
    -- `x` goes first, in front of all of the second list
    have htake : (y :: l₂).takeWhile (fun z => !before x z) = [] := by
      simp [hle]
    have hdrop : (y :: l₂).dropWhile (fun z => !before x z) = y :: l₂ := by
      simp [hle]
    rw [List.pairwise_cons, ih (List.pairwise_cons.mp hmono).2, List.pairwise_cons (l := l₁),
      List.forall_mem_cons, htake, hdrop]
    constructor
    · rintro ⟨hx, hl₁, hl₂, hrest⟩
      refine ⟨⟨fun z hz => hx z (List.mem_merge_left _ hz), hl₁⟩, hl₂, ⟨?_, ?_⟩, hrest⟩
      · intro z hz
        cases hz
      · intro z hz
        exact hx z (List.mem_merge_right _ hz)
    · rintro ⟨⟨hx, hl₁⟩, hl₂, ⟨_, hfront⟩, hrest⟩
      refine ⟨?_, hl₁, hl₂, hrest⟩
      intro z hz
      exact (List.mem_merge.mp hz).elim (hx z) (hfront z)
  | case4 x l₁ y l₂ hle ih =>
    -- `y` goes first: nothing of the first list is before it
    have hnone : ∀ x' ∈ x :: l₁, before x' y = false := by
      intro x' hx'
      rcases List.mem_cons.mp hx' with rfl | hx'
      · simpa using hle
      · cases h : before x' y with
        | false => rfl
        | true => exact absurd ((List.pairwise_cons.mp hmono).1 x' hx' y h) hle
    have htake : ∀ x' ∈ x :: l₁, (y :: l₂).takeWhile (fun z => !before x' z) =
        y :: l₂.takeWhile fun z => !before x' z := by
      intro x' hx'
      rw [List.takeWhile_cons_of_pos (by simp [hnone x' hx'])]
    have hdrop : ∀ x' ∈ x :: l₁, (y :: l₂).dropWhile (fun z => !before x' z) =
        l₂.dropWhile fun z => !before x' z := by
      intro x' hx'
      rw [List.dropWhile_cons_of_pos (by simp [hnone x' hx'])]
    rw [List.pairwise_cons, ih hmono, List.pairwise_cons (l := l₂)]
    constructor
    · rintro ⟨hy, hl₁, hl₂, hrest⟩
      refine ⟨hl₁, ⟨fun z hz => hy z (List.mem_merge_right _ hz), hl₂⟩, ?_⟩
      intro x' hx'
      rw [htake x' hx', hdrop x' hx', List.forall_mem_cons]
      exact ⟨⟨hy x' (List.mem_merge_left _ hx'), (hrest x' hx').1⟩, (hrest x' hx').2⟩
    · rintro ⟨hl₁, ⟨hy, hl₂⟩, hrest⟩
      refine ⟨?_, hl₁, hl₂, ?_⟩
      · intro z hz
        rcases List.mem_merge.mp hz with hz | hz
        · have := (hrest z hz).1
          rw [htake z hz, List.forall_mem_cons] at this
          exact this.1
        · exact hy z hz
      · intro x' hx'
        obtain ⟨htw, hdw⟩ := hrest x' hx'
        rw [htake x' hx', List.forall_mem_cons] at htw
        rw [hdrop x' hx'] at hdw
        exact ⟨htw.2, hdw⟩

section
variable {κ : Type} [LinearOrder κ] {key : α → κ}

/-- In a list that is strictly sorted, what stands behind the first element to fail
is what is not in front of it. -/
theorem mem_takeWhile_sorted {p : α → Bool} : ∀ {l : List α},
    l.Pairwise (fun a b => key a < key b) → ∀ {a : α},
      a ∈ l.takeWhile p ↔ a ∈ l ∧ ∀ b ∈ l, key b ≤ key a → p b = true := by
  intro l
  induction l with
  | nil => simp
  | cons c l ih =>
    intro hsorted a
    obtain ⟨hc, hl⟩ := List.pairwise_cons.mp hsorted
    by_cases hp : p c = true
    · rw [List.takeWhile_cons_of_pos hp, List.mem_cons, List.mem_cons, List.forall_mem_cons, ih hl]
      constructor
      · intro h
        rcases h with rfl | ⟨ha, hall⟩
        · refine ⟨Or.inl rfl, fun _ => hp, ?_⟩
          intro b hb hle
          exact absurd (hc b hb) (not_lt.mpr hle)
        · exact ⟨Or.inr ha, fun _ => hp, hall⟩
      · intro h
        obtain ⟨ha, _, hall⟩ := h
        exact ha.imp id fun ha => ⟨ha, hall⟩
    · rw [List.takeWhile_cons_of_neg hp]
      constructor
      · intro h
        cases h
      · intro h
        obtain ⟨ha, hall⟩ := h
        refine absurd (hall c List.mem_cons_self ?_) hp
        rcases List.mem_cons.mp ha with rfl | ha
        · exact le_refl _
        · exact (hc a ha).le

theorem mem_dropWhile_sorted {p : α → Bool} {l : List α}
    (hsorted : l.Pairwise fun a b => key a < key b) {a : α} :
    a ∈ l.dropWhile p ↔ a ∈ l ∧ a ∉ l.takeWhile p := by
  have hnodup : l.Nodup := hsorted.imp fun h heq => absurd (congrArg key heq) h.ne
  rw [← List.takeWhile_append_dropWhile (p := p) (l := l), List.nodup_append] at hnodup
  constructor
  · intro h
    refine ⟨(List.dropWhile_sublist p).subset h, ?_⟩
    intro htake
    exact hnodup.2.2 a htake a h rfl
  · intro h
    have hmem := h.1
    rw [← List.takeWhile_append_dropWhile (p := p) (l := l), List.mem_append] at hmem
    exact hmem.resolve_left h.2

/-- A strictly sorted list is in another order exactly when elements with smaller
keys are in front in that order. -/
theorem pairwise_iff_of_sorted {r : α → α → Prop} : ∀ {l : List α},
    l.Pairwise (fun a b => key a < key b) →
      (l.Pairwise r ↔ ∀ a ∈ l, ∀ b ∈ l, key a < key b → r a b) := by
  intro l
  induction l with
  | nil => simp
  | cons c l ih =>
    intro hsorted
    obtain ⟨hc, hl⟩ := List.pairwise_cons.mp hsorted
    rw [List.pairwise_cons, ih hl]
    constructor
    · intro h a ha b hb hab
      rcases List.mem_cons.mp ha with hac | ha'
      · rcases List.mem_cons.mp hb with hbc | hb'
        · rw [hac, hbc] at hab
          exact absurd hab (lt_irrefl _)
        · exact hac ▸ h.1 b hb'
      · rcases List.mem_cons.mp hb with hbc | hb'
        · rw [hbc] at hab
          exact absurd (hc a ha') (lt_asymm hab)
        · exact h.2 a ha' b hb' hab
    · intro h
      refine ⟨fun b hb => h c List.mem_cons_self b (List.mem_cons_of_mem _ hb) (hc b hb), ?_⟩
      intro a ha b hb
      exact h a (List.mem_cons_of_mem _ ha) b (List.mem_cons_of_mem _ hb)

end

/-! ## Pages -/

/-- Pages of one size, one behind the other, are the list as far as they reach. -/
theorem flatMap_windows (l : List α) (size : ℕ) : ∀ pages : ℕ,
    ((List.range pages).flatMap fun i => (l.drop (i * size)).take size) = l.take (pages * size) := by
  intro pages
  induction pages with
  | zero => simp
  | succ pages ih =>
    rw [List.range_succ, List.flatMap_append, ih, List.flatMap_singleton, Nat.succ_mul, List.take_add]

end PaperTrading.Lib
