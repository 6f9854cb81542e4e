import Mathlib.Data.List.Nodup
import Mathlib.Data.List.Perm.Basic

/-!
# Things with several keys, taken one at a time

A thing has a key of every kind. A book takes a thing only when it shares no key with the
things that are in it (`Admitted.step`); what is taken that way, in one go or in several
(`Admitted.trans`), shares no key with the book it began with, nor among itself.

`drawLoop` is a loop that makes one attempt an index until it has enough: every attempt
uses its index up (`drawLoop_draws`), whether it gives something or not.
-/

namespace PaperTrading.Lib

section
variable {ι α κ : Type} (key : ι → α → κ)

/-- No key in common. -/
def Apart (a b : α) : Prop := ∀ i, key i a ≠ key i b

/-- `added` was taken between the books `book` and `book'`. -/
structure Admitted (book book' added : List α) : Prop where
  free : ∀ a ∈ added, ∀ b ∈ book, Apart key b a
  apart : added.Pairwise (Apart key)
  kept : added ⊆ book'
  grows : book ⊆ book'

end

section
variable {ι α κ : Type} {key : ι → α → κ} {a b : α} {book book₁ book₂ added added' : List α}

theorem Apart.symm (h : Apart key a b) : Apart key b a := fun i => (h i).symm

namespace Admitted

theorem refl : Admitted key book book [] where
  free := fun _ h => absurd h List.not_mem_nil
  apart := List.Pairwise.nil
  kept := List.nil_subset _
  grows := List.Subset.refl _

theorem step (h : ∀ b ∈ book, Apart key b a) : Admitted key book (a :: book) [a] where
  free := by
    intro a' ha'
    rw [List.mem_singleton.mp ha']
    exact h
  apart := List.pairwise_singleton _ _
  kept := List.cons_subset_cons _ (List.nil_subset _)
  grows := List.subset_cons_self _ _

theorem trans (h₁ : Admitted key book book₁ added) (h₂ : Admitted key book₁ book₂ added') :
    Admitted key book book₂ (added ++ added') where
  free := by
    intro a ha b hb
    rcases List.mem_append.mp ha with ha | ha
    · exact h₁.free a ha b hb
    · exact h₂.free a ha b (h₁.grows hb)
  apart := by
    refine List.pairwise_append.mpr ⟨h₁.apart, h₂.apart, fun a ha b hb => ?_⟩
    exact h₂.free b hb a (h₁.kept ha)
  kept := List.append_subset.mpr ⟨List.Subset.trans h₁.kept h₂.grows, h₂.kept⟩
  grows := List.Subset.trans h₁.grows h₂.grows

theorem sublist (h : Admitted key book book₁ added) (hs : added'.Sublist added) :
    Admitted key book book₁ added' where
  free := fun a ha => h.free a (hs.subset ha)
  apart := h.apart.sublist hs
  kept := List.Subset.trans hs.subset h.kept
  grows := h.grows

theorem perm (h : Admitted key book book₁ added) (hp : added'.Perm added) :
    Admitted key book book₁ added' where
  free := fun a ha => h.free a (hp.subset ha)
  apart := (hp.pairwise_iff fun h => h.symm).mpr h.apart
  kept := List.Subset.trans hp.subset h.kept
  grows := h.grows

end Admitted

end

/-! ## Attempts -/

section
variable {σ α : Type}

/-- A loop of attempts: what it has, what it knows, its next index, and the indices it used
up. -/
structure Drawn (σ α : Type) where
  out : List α := []
  state : σ
  next : ℕ
  draws : List ℕ := []

/-- After an attempt. -/
def Drawn.after (d : Drawn σ α) (got : Option (α × σ)) : Drawn σ α where
  out := d.out ++ (got.map Prod.fst).toList
  state := (got.map Prod.snd).getD d.state
  next := d.next + 1
  draws := d.draws ++ [d.next]

variable (attempt : σ → ℕ → Option (α × σ)) (want : ℕ)

/-- Attempts until there are `want` things, at most so many. -/
def drawLoop : ℕ → Drawn σ α → Drawn σ α
  | 0, d => d
  | limit + 1, d =>
    if d.out.length < want then drawLoop limit (d.after (attempt d.state d.next)) else d

variable {attempt want}

/-- What an attempt keeps, the loop keeps. -/
theorem drawLoop_inv {P : Drawn σ α → Prop} (hstep : ∀ d : Drawn σ α, d.out.length < want → P d →
    P (d.after (attempt d.state d.next))) (limit : ℕ) {d : Drawn σ α} (h : P d) :
    P (drawLoop attempt want limit d) := by
  induction limit generalizing d with
  | zero => exact h
  | succ limit ih =>
    unfold drawLoop
    split
    next hlt => exact ih (hstep d hlt h)
    next => exact h

theorem drawLoop_length (limit : ℕ) {d : Drawn σ α} (h : d.out.length ≤ want) :
    (drawLoop attempt want limit d).out.length ≤ want := by
  refine drawLoop_inv (P := fun d => d.out.length ≤ want) (fun d hlt _ => ?_) limit h
  have hgot : ∀ got : Option (α × σ), (got.map Prod.fst).toList.length ≤ 1 := fun got => by
    cases got <;> simp
  show (d.out ++ _).length ≤ want
  rw [List.length_append]
  exact Nat.le_trans (Nat.add_le_add_left (hgot _) _) hlt

/-- Every index from the first on is used up once. -/
theorem drawLoop_draws (limit : ℕ) (d : Drawn σ α) : d.next ≤ (drawLoop attempt want limit d).next ∧
    (drawLoop attempt want limit d).draws =
      d.draws ++ List.range' d.next ((drawLoop attempt want limit d).next - d.next) := by
  refine drawLoop_inv (P := fun d' : Drawn σ α => d.next ≤ d'.next ∧
    d'.draws = d.draws ++ List.range' d.next (d'.next - d.next)) (fun d' _ h => ?_) limit ?_
  · obtain ⟨hle, hdraws⟩ := h
    refine ⟨Nat.le_succ_of_le hle, ?_⟩
    show d'.draws ++ [d'.next] = d.draws ++ List.range' d.next (d'.next + 1 - d.next)
    rw [Nat.sub_add_comm hle, List.range'_concat, Nat.one_mul, Nat.add_sub_cancel' hle, hdraws,
      List.append_assoc]
  · rw [Nat.sub_self, List.range'_zero, List.append_nil]
    exact ⟨Nat.le_refl _, rfl⟩

theorem drawLoop_from (limit start : ℕ) (s : σ) :
    start ≤ (drawLoop attempt want limit { state := s, next := start }).next ∧
      (drawLoop attempt want limit { state := s, next := start }).draws =
        List.range' start ((drawLoop attempt want limit { state := s, next := start }).next - start) :=
  drawLoop_draws limit { state := s, next := start }

/-- Two stretches of indices, one behind the other. -/
theorem range'_behind {a b c : ℕ} (hab : a ≤ b) (hbc : b ≤ c) :
    List.range' a (b - a) ++ List.range' b (c - b) = List.range' a (c - a) := by
  obtain ⟨k, rfl⟩ := Nat.exists_eq_add_of_le hab
  obtain ⟨l, rfl⟩ := Nat.exists_eq_add_of_le hbc
  rw [Nat.add_sub_cancel_left, Nat.add_sub_cancel_left, List.range'_append_1, Nat.add_assoc,
    Nat.add_sub_cancel_left]

end

end PaperTrading.Lib
