import Mathlib.Data.Finset.Card
import Mathlib.Data.Finset.Filter
import Mathlib.Data.Finset.Range
import Mathlib.Data.List.Sort
import Mathlib.Order.Basic
import Mathlib.Order.Defs.LinearOrder
import Mathlib.Order.Lattice

/-!
# Ranks in a stable order

The positions of a list are put in the stable increasing order of its values
(`stableOrder`), and a search takes the first greatest value (`firstGreatest`). What comes
of both is a count over the positions: the rank of a position is the number of positions
that come before it, being smaller or being equal and earlier (`idxOf_stableOrder`), and the
first greatest position is the one no other value exceeds and no earlier one reaches
(`firstGreatest_spec`).
-/

/-!
## The first element of a least key

A scan that keeps the element at hand until one with a smaller key comes ends at the first
element whose key is least: those before it have greater keys, those after it no smaller ones
(`firstLeast_eq_some`). The greatest key is the least one of the dual order.
-/

namespace PaperTrading.Lib

variable {α κ : Type} [LinearOrder κ]

/-- Keep the one at hand unless the other has a smaller key. -/
def lesserOf (key : α → κ) (best : Option α) (x : α) : Option α :=
  match best with
  | none => some x
  | some b => if key x < key b then some x else some b

/-- The first element of a least key. -/
def firstLeast (key : α → κ) (l : List α) : Option α := l.foldl (lesserOf key) none

variable {key : α → κ}

theorem lesserOf_of_le {b x : α} (h : key b ≤ key x) : lesserOf key (some b) x = some b :=
  if_neg (not_lt.mpr h)

theorem foldl_lesserOf_of_le {b : α} {l : List α} (h : ∀ a ∈ l, key b ≤ key a) :
    l.foldl (lesserOf key) (some b) = some b := by
  induction l with
  | nil => rfl
  | cons x l ih =>
    rw [List.foldl_cons, lesserOf_of_le (h x List.mem_cons_self)]
    exact ih fun a ha => h a (List.mem_cons_of_mem _ ha)

/-- A scan holds nothing, or an element it has met. -/
theorem firstLeast_mem {l : List α} {b : α} (h : firstLeast key l = some b) : b ∈ l := by
  have hscan : ∀ (l : List α) (best : Option α), l.foldl (lesserOf key) best = some b →
      best = some b ∨ b ∈ l := by
    intro l
    induction l with
    | nil => exact fun best hbest => Or.inl hbest
    | cons x l ih =>
      intro best hbest
      rcases ih _ hbest with hstep | hmem
      · cases best with
        | none => exact Or.inr (List.mem_cons.mpr (Or.inl (Option.some.inj hstep).symm))
        | some b' =>
          unfold lesserOf at hstep
          dsimp only at hstep
          split at hstep
          · exact Or.inr (List.mem_cons.mpr (Or.inl (Option.some.inj hstep).symm))
          · exact Or.inl hstep
      · exact Or.inr (List.mem_cons_of_mem _ hmem)
  exact (hscan l none h).resolve_left nofun

theorem firstLeast_of_split {l₁ l₂ : List α} {b : α} (h₁ : ∀ a ∈ l₁, key b < key a)
    (h₂ : ∀ a ∈ l₂, key b ≤ key a) : firstLeast key (l₁ ++ b :: l₂) = some b := by
  unfold firstLeast
  rw [List.foldl_append, List.foldl_cons]
  have hb : lesserOf key (l₁.foldl (lesserOf key) none) b = some b := by
    cases hbest : l₁.foldl (lesserOf key) none with
    | none => rfl
    | some a => exact if_pos (h₁ a (firstLeast_mem hbest))
  rw [hb]
  exact foldl_lesserOf_of_le h₂

/-- Every list that is not empty has such an element. -/
theorem exists_split (key : α → κ) {l : List α} (h : l ≠ []) : ∃ l₁ b l₂, l = l₁ ++ b :: l₂ ∧
    (∀ a ∈ l₁, key b < key a) ∧ ∀ a ∈ l₂, key b ≤ key a := by
  induction l with
  | nil => exact absurd rfl h
  | cons x l ih =>
    cases l with
    | nil => exact ⟨[], x, [], rfl, nofun, nofun⟩
    | cons y l =>
      obtain ⟨l₁, b, l₂, hl, h₁, h₂⟩ := ih (List.cons_ne_nil y l)
      rcases lt_or_ge (key b) (key x) with hlt | hle
      · refine ⟨x :: l₁, b, l₂, by rw [hl, List.cons_append], ?_, h₂⟩
        intro a ha
        rcases List.mem_cons.mp ha with rfl | ha
        · exact hlt
        · exact h₁ a ha
      · refine ⟨[], x, y :: l, rfl, nofun, ?_⟩
        intro a ha
        rw [hl] at ha
        rcases List.mem_append.mp ha with ha | ha
        · exact hle.trans (h₁ a ha).le
        · rcases List.mem_cons.mp ha with rfl | ha
          · exact hle
          · exact hle.trans (h₂ a ha)

theorem firstLeast_eq_some {l : List α} {b : α} : firstLeast key l = some b ↔
    ∃ l₁ l₂, l = l₁ ++ b :: l₂ ∧ (∀ a ∈ l₁, key b < key a) ∧ ∀ a ∈ l₂, key b ≤ key a := by
  constructor
  · intro h
    have hne : l ≠ [] := by
      rintro rfl
      cases h
    obtain ⟨l₁, b', l₂, rfl, h₁, h₂⟩ := exists_split key hne
    rw [firstLeast_of_split h₁ h₂] at h
    obtain rfl := Option.some.inj h
    exact ⟨l₁, l₂, rfl, h₁, h₂⟩
  · rintro ⟨l₁, l₂, rfl, h₁, h₂⟩
    exact firstLeast_of_split h₁ h₂

theorem firstLeast_eq_none {l : List α} : firstLeast key l = none ↔ l = [] := by
  constructor
  · intro h
    by_contra hne
    obtain ⟨l₁, b, l₂, rfl, h₁, h₂⟩ := exists_split key hne
    rw [firstLeast_of_split h₁ h₂] at h
    cases h
  · rintro rfl
    rfl

theorem firstLeast_le {l : List α} {b : α} (h : firstLeast key l = some b) :
    ∀ a ∈ l, key b ≤ key a := by
  obtain ⟨l₁, l₂, rfl, h₁, h₂⟩ := firstLeast_eq_some.mp h
  intro a ha
  rcases List.mem_append.mp ha with ha | ha
  · exact (h₁ a ha).le
  · rcases List.mem_cons.mp ha with rfl | ha
    · exact le_refl _
    · exact h₂ a ha

/-- Before the first occurrence of it all keys are greater. -/
theorem lt_of_firstLeast {l₁ l₂ : List α} {b : α} (h : firstLeast key (l₁ ++ b :: l₂) = some b)
    (hfirst : b ∉ l₁) : ∀ a ∈ l₁, key b < key a := by
  obtain ⟨m₁, m₂, hsplit, hless, _⟩ := firstLeast_eq_some.mp h
  have hnot : b ∉ m₁ := fun hb => lt_irrefl _ (hless b hb)
  rcases List.append_eq_append_iff.mp hsplit with ⟨c, rfl, hc⟩ | ⟨c, rfl, hc⟩
  · exact fun a ha => hless a (List.mem_append_left _ ha)
  · cases c with
    | nil =>
      rw [List.append_nil]
      exact hless
    | cons x c =>
      obtain ⟨rfl, -⟩ := List.cons.inj hc
      exact absurd (List.mem_append_right _ List.mem_cons_self) hfirst

/-- Leaving out others does not change it. -/
theorem firstLeast_filter {l : List α} {b : α} (h : firstLeast key l = some b) {p : α → Bool}
    (hp : p b = true) : firstLeast key (l.filter p) = some b := by
  obtain ⟨l₁, l₂, rfl, h₁, h₂⟩ := firstLeast_eq_some.mp h
  rw [List.filter_append, List.filter_cons_of_pos hp]
  exact firstLeast_of_split (fun a ha => h₁ a (List.mem_filter.mp ha).1)
    fun a ha => h₂ a (List.mem_filter.mp ha).1

end PaperTrading.Lib

namespace PaperTrading.Lib

section
variable {κ : Type}

theorem zipIdx_ascending (xs : List κ) : ∀ n, (xs.zipIdx n).Pairwise fun a b => a.2 < b.2 := by
  induction xs with
  | nil => intro n; exact List.Pairwise.nil
  | cons x xs ih =>
    intro n
    rw [List.zipIdx_cons]
    refine List.pairwise_cons.mpr ⟨fun b hb => ?_, ih (n + 1)⟩
    exact Nat.lt_of_succ_le (List.le_snd_of_mem_zipIdx hb)

/-- A list given by its positions, with them. -/
theorem zipIdx_map_range (f : ℕ → κ) (n : ℕ) :
    ((List.range n).map f).zipIdx = (List.range n).map fun j => (f j, j) := by
  refine List.ext_getElem? fun j => ?_
  rw [List.getElem?_zipIdx, List.getElem?_map, List.getElem?_map]
  by_cases hj : j < n
  · rw [List.getElem?_range hj, Option.map_some, Option.map_some, Option.map_some, Nat.zero_add]
  · rw [List.getElem?_eq_none (by rw [List.length_range]; exact not_lt.mp hj)]
    rfl

end

variable {κ : Type} [LinearOrder κ]

/-- Smaller, or equal and earlier. -/
def Before (a b : κ × ℕ) : Prop := a.1 < b.1 ∨ a.1 = b.1 ∧ a.2 < b.2

instance (a b : κ × ℕ) : Decidable (Before a b) :=
  inferInstanceAs (Decidable (a.1 < b.1 ∨ a.1 = b.1 ∧ a.2 < b.2))

/-- The positions of a list in the stable increasing order of its values. -/
def stableOrder (xs : List κ) : List ℕ :=
  (xs.zipIdx.insertionSort fun a b => a.1 ≤ b.1).map (·.2)

/-- The greater of two placed values, the first where they are equal. -/
def greaterOf (best y : κ × ℕ) : κ × ℕ := if best.1 < y.1 then y else best

/-- The first position of a greatest value. -/
def firstGreatest : List κ → ℕ
  | [] => 0
  | x :: xs => ((xs.zipIdx 1).foldl greaterOf (x, 0)).2

/-! ## The stable order -/

theorem Before.asymm {a b : κ × ℕ} (h : Before a b) : ¬ Before b a := by
  rintro (hlt | ⟨heq, hlt⟩)
  · rcases h with h | ⟨h, _⟩
    · exact lt_asymm h hlt
    · exact hlt.ne' h
  · rcases h with h | ⟨_, h⟩
    · exact h.ne' heq
    · exact Nat.lt_asymm h hlt

/-- Inserting a value placed before all of a list keeps the list in the stable order. -/
theorem orderedInsert_before {a : κ × ℕ} : ∀ {l : List (κ × ℕ)}, (∀ b ∈ l, a.2 < b.2) →
    l.Pairwise Before → (l.orderedInsert (fun a b => a.1 ≤ b.1) a).Pairwise Before := by
  intro l
  induction l with
  | nil => intro _ _; exact List.pairwise_singleton _ _
  | cons b l ih =>
    intro hfirst hl
    rw [List.orderedInsert_cons]
    split
    next hle =>
      refine List.pairwise_cons.mpr ⟨fun c hc => ?_, hl⟩
      have hplace := hfirst c hc
      rcases hle.lt_or_eq with hlt | heq
      · -- smaller than the head, and the head comes before the rest
        rcases List.mem_cons.mp hc with rfl | hc
        · exact Or.inl hlt
        · rcases List.rel_of_pairwise_cons hl hc with hbc | ⟨hbc, _⟩
          · exact Or.inl (hlt.trans hbc)
          · exact Or.inl (hbc ▸ hlt)
      · rcases List.mem_cons.mp hc with rfl | hc
        · exact Or.inr ⟨heq, hplace⟩
        · rcases List.rel_of_pairwise_cons hl hc with hbc | ⟨hbc, _⟩
          · exact Or.inl (heq ▸ hbc)
          · exact Or.inr ⟨heq.trans hbc, hplace⟩
    next hgt =>
      refine List.pairwise_cons.mpr ⟨fun c hc => ?_,
        ih (fun c hc => hfirst c (List.mem_cons_of_mem _ hc)) (List.pairwise_cons.mp hl).2⟩
      rcases (List.mem_orderedInsert _).mp hc with rfl | hc
      · exact Or.inl (not_le.mp hgt)
      · exact List.rel_of_pairwise_cons hl hc

theorem insertionSort_before : ∀ {l : List (κ × ℕ)}, l.Pairwise (fun a b => a.2 < b.2) →
    (l.insertionSort fun a b => a.1 ≤ b.1).Pairwise Before := by
  intro l
  induction l with
  | nil => intro _; exact List.Pairwise.nil
  | cons a l ih =>
    intro h
    rw [List.insertionSort_cons]
    refine orderedInsert_before (fun b hb => ?_) (ih (List.pairwise_cons.mp h).2)
    exact List.rel_of_pairwise_cons h ((List.mem_insertionSort _).mp hb)

/-- In a list in the stable order a member stands behind those that come before it. -/
theorem idxOf_of_before {a : κ × ℕ} : ∀ {l : List (κ × ℕ)}, l.Pairwise Before → a ∈ l →
    (l.map (·.2)).Nodup →
    (l.map (·.2)).idxOf a.2 = (l.filter fun b => decide (Before b a)).length := by
  intro l
  induction l with
  | nil => intro _ h; cases h
  | cons b l ih =>
    intro hl ha hnodup
    rw [List.map_cons, List.nodup_cons] at hnodup
    rcases List.mem_cons.mp ha with rfl | hmem
    · -- nothing of the rest comes before the head
      have hnone : (a :: l).filter (fun b => decide (Before b a)) = [] := by
        refine List.filter_eq_nil_iff.mpr fun c hc => ?_
        rw [decide_eq_true_eq]
        rcases List.mem_cons.mp hc with rfl | hc
        · exact fun h => h.asymm h
        · exact (List.rel_of_pairwise_cons hl hc).asymm
      rw [hnone, List.map_cons, List.idxOf_cons_self]
      rfl
    · have hne : b.2 ≠ a.2 := fun heq =>
        hnodup.1 (heq ▸ List.mem_map_of_mem hmem)
      have hbefore : Before b a := List.rel_of_pairwise_cons hl hmem
      rw [List.map_cons, List.idxOf_cons_ne _ hne, ih (List.pairwise_cons.mp hl).2 hmem hnodup.2,
        List.filter_cons_of_pos (by exact decide_eq_true hbefore)]
      rfl

/-- The rank of a position is the number of positions that come before it. -/
theorem idxOf_stableOrder (f : ℕ → κ) {n i : ℕ} (h : i < n) :
    (stableOrder ((List.range n).map f)).idxOf i =
      ((Finset.range n).filter fun j => Before (f j, j) (f i, i)).card := by
  have hzip := zipIdx_map_range f n
  have hsnd : (((List.range n).map f).zipIdx.map (·.2)).Nodup := by
    rw [hzip, List.map_map]
    exact (List.map_id (List.range n)).symm ▸ List.nodup_range
  have hperm : (((List.range n).map f).zipIdx.insertionSort fun a b => a.1 ≤ b.1).Perm
      ((List.range n).map f).zipIdx := List.perm_insertionSort _ _
  have hmem : ((f i, i) : κ × ℕ) ∈ ((List.range n).map f).zipIdx := by
    rw [hzip]
    exact List.mem_map.mpr ⟨i, List.mem_range.mpr h, rfl⟩
  have hidx := idxOf_of_before (insertionSort_before (zipIdx_ascending _ 0))
    (hperm.mem_iff.mpr hmem) ((hperm.map _).nodup_iff.mpr hsnd)
  unfold stableOrder
  rw [hidx, (hperm.filter _).length_eq, hzip, List.filter_map, List.length_map,
    ← List.toFinset_card_of_nodup (List.nodup_range.filter _)]
  congr 1
  ext j
  rw [List.mem_toFinset, List.mem_filter, Finset.mem_filter, List.mem_range, Finset.mem_range]
  exact and_congr_right fun _ => decide_eq_true_iff

/-! ## The first greatest -/

/-- What is known of the best of the values seen so far, `seen` being those. -/
structure Greatest (seen : List (κ × ℕ)) (best : κ × ℕ) : Prop where
  mem : best ∈ seen
  le : ∀ y ∈ seen, y.1 ≤ best.1
  first : ∀ y ∈ seen, y.2 < best.2 → y.1 < best.1

theorem foldl_greaterOf : ∀ (l seen : List (κ × ℕ)) {best : κ × ℕ}, Greatest seen best →
    (seen ++ l).Pairwise (fun a b => a.2 < b.2) → Greatest (seen ++ l) (l.foldl greaterOf best) := by
  intro l
  induction l with
  | nil =>
    intro seen best h _
    rw [List.append_nil]
    exact h
  | cons y l ih =>
    intro seen best h hsorted
    rw [List.append_cons] at hsorted ⊢
    rw [List.foldl_cons]
    refine ih (seen ++ [y]) ?_ hsorted
    have hlater : ∀ z ∈ seen, z.2 < y.2 := fun z hz =>
      (List.pairwise_append.mp (List.pairwise_append.mp hsorted).1).2.2 z hz y
        List.mem_cons_self
    unfold greaterOf
    split
    next hlt =>
      refine ⟨List.mem_append_right _ List.mem_cons_self, fun z hz => ?_, fun z hz hless => ?_⟩
      · rcases List.mem_append.mp hz with hz | hz
        · exact (h.le z hz).trans hlt.le
        · exact (List.mem_singleton.mp hz) ▸ le_refl _
      · rcases List.mem_append.mp hz with hz | hz
        · exact (h.le z hz).trans_lt hlt
        · obtain rfl := List.mem_singleton.mp hz
          exact absurd hless (lt_irrefl _)
    next hge =>
      refine ⟨List.mem_append_left _ h.mem, fun z hz => ?_, fun z hz hless => ?_⟩
      · rcases List.mem_append.mp hz with hz | hz
        · exact h.le z hz
        · exact (List.mem_singleton.mp hz) ▸ not_lt.mp hge
      · rcases List.mem_append.mp hz with hz | hz
        · exact h.first z hz hless
        · obtain rfl := List.mem_singleton.mp hz
          exact absurd hless (Nat.lt_asymm (hlater best h.mem))

/-- No value exceeds the one at `firstGreatest`, and no earlier one reaches it. -/
theorem firstGreatest_spec {xs : List κ} (h : xs ≠ []) :
    ∃ x, xs[firstGreatest xs]? = some x ∧
      ∀ (j : ℕ) y, xs[j]? = some y → y ≤ x ∧ (j < firstGreatest xs → y < x) := by
  cases xs with
  | nil => exact absurd rfl h
  | cons x xs =>
    have hone : Greatest [(x, 0)] (x, 0) :=
      ⟨List.mem_singleton_self _, fun y hy => (List.mem_singleton.mp hy) ▸ le_refl _,
        fun y hy hless => by rw [List.mem_singleton.mp hy] at hless; exact absurd hless (lt_irrefl _)⟩
    have hall := foldl_greaterOf (xs.zipIdx 1) [(x, 0)] hone (zipIdx_ascending (x :: xs) 0)
    have hlist : [(x, 0)] ++ xs.zipIdx 1 = (x :: xs).zipIdx := rfl
    rw [hlist] at hall
    refine ⟨_, List.mk_mem_zipIdx_iff_getElem?.mp hall.mem, fun j y hy => ?_⟩
    have hmem : (y, j) ∈ (x :: xs).zipIdx := List.mk_mem_zipIdx_iff_getElem?.mpr hy
    exact ⟨hall.le _ hmem, hall.first _ hmem⟩

end PaperTrading.Lib
