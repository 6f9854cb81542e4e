import Mathlib.Data.List.Basic
import Mathlib.Data.Option.Basic

/-!
# A base file and a journal that extends it

The base document carries a generation and the journal names the one it extends;
a reader applies the journal's lines only to a base of that generation. Every
write to either file moves a stamp, as the stat of a file does.

An operation is the list of states its writes leave behind one another, so a
crash is a cut of that list (`cut`). `load_cut_append` and `load_cut_replace`
say what a reader finds after any cut: the document from before the operation, or
the one the operation leaves. The second asks for a generation that the journal
on disk does not name.

A view of the document, taken with the stamp it was read at, is good as long as
the stamp is (`ViewGood`).
-/

namespace PaperTrading.Lib

variable {G B D L σ : Type}

/-! ## Cutting a list of writes -/

/-- The state after the first `k` writes. -/
def cut (s : σ) (writes : List σ) (k : ℕ) : σ := ((writes.take k).getLast?).getD s

/-- The state after all of them. -/
def done (s : σ) (writes : List σ) : σ := (writes.getLast?).getD s

/-- What holds before the writes and after each of them holds at every cut. -/
theorem cut_cases {P : σ → Prop} {s : σ} {writes : List σ} (hs : P s) (hw : ∀ x ∈ writes, P x)
    (k : ℕ) : P (cut s writes k) := by
  unfold cut
  cases h : (writes.take k).getLast? with
  | none => exact hs
  | some x => exact hw x (List.mem_of_mem_take (List.mem_of_getLast? h))

theorem done_cases {P : σ → Prop} {s : σ} {writes : List σ} (hs : P s) (hw : ∀ x ∈ writes, P x) :
    P (done s writes) := by
  unfold done
  cases h : writes.getLast? with
  | none => exact hs
  | some x => exact hw x (List.mem_of_getLast? h)

/-- A cut behind all writes is no cut. -/
theorem cut_of_length_le {s : σ} {writes : List σ} {k : ℕ} (h : writes.length ≤ k) :
    cut s writes k = done s writes := by
  unfold cut done
  rw [List.take_of_length_le h]

/-! ## Views and their stamps -/

/-- A view with the stamp it was read at: it is not of the future, and while the
stamp is the files' own it is what a reader finds. -/
def ViewGood (stamp : ℕ) (doc : D) (view : Option (ℕ × D)) : Prop :=
  ∀ v ∈ view, v.1 ≤ stamp ∧ (v.1 = stamp → v.2 = doc)

theorem viewGood_none {stamp : ℕ} {doc : D} : ViewGood stamp doc none := fun _ h => (nomatch h)

theorem viewGood_fresh {stamp : ℕ} {doc : D} : ViewGood stamp doc (some (stamp, doc)) := by
  intro v hv
  rw [← Option.some.inj hv]
  exact ⟨Nat.le_refl _, fun _ => rfl⟩

/-- A view of files that were written since is not asked. -/
theorem ViewGood.stale {stamp stamp' : ℕ} {doc doc' : D} {view : Option (ℕ × D)}
    (h : ViewGood stamp doc view) (hlt : stamp < stamp') : ViewGood stamp' doc' view := by
  intro v hv
  have hle := (h v hv).1
  exact ⟨by omega, fun heq => absurd heq (by omega)⟩

/-! ## The two files -/

/-- A base document of some generation, and the journal. -/
structure Journaled (G B L : Type) where
  gen : G
  base : B
  journal : Option (G × List L)
  stamp : ℕ

namespace Journaled

section
variable [DecidableEq G] (read : B → D) (apply : D → L → D)

/-- What a reader makes of the files. -/
def load (s : Journaled G B L) : D :=
  match s.journal with
  | some (g, lines) => if g = s.gen then lines.foldl apply (read s.base) else read s.base
  | none => read s.base

/-- Append lines: a missing journal gets its header first, one for another
generation is replaced as a whole. -/
def appendWrites (s : Journaled G B L) (lines : List L) : List (Journaled G B L) :=
  match s.journal with
  | none =>
    [{ s with journal := some (s.gen, []), stamp := s.stamp + 1 },
     { s with journal := some (s.gen, lines), stamp := s.stamp + 2 }]
  | some (g, old) =>
    if g = s.gen then [{ s with journal := some (g, old ++ lines), stamp := s.stamp + 1 }]
    else [s, { s with journal := some (s.gen, lines), stamp := s.stamp + 1 }]

/-- Install a base of generation `g` and drop the journal; the new base is
written beside the old one first. -/
def replaceWrites (s : Journaled G B L) (g : G) (base : B) : List (Journaled G B L) :=
  [s, { s with gen := g, base := base, stamp := s.stamp + 1 },
   { s with gen := g, base := base, journal := none, stamp := s.stamp + 2 }]

/-! ## What a reader finds -/

variable {read apply} {s : Journaled G B L}

theorem load_done_append (lines : List L) :
    (done s (s.appendWrites lines)).load read apply = lines.foldl apply (s.load read apply) := by
  unfold appendWrites load
  cases hj : s.journal with
  | none => simp [done]
  | some j =>
    obtain ⟨g, old⟩ := j
    by_cases hg : g = s.gen
    · simp [done, hg]
    · simp [done, hg]

/-- After any cut of an append the lines are there, or none is. -/
theorem load_cut_append (lines : List L) (k : ℕ) :
    (cut s (s.appendWrites lines) k).load read apply = s.load read apply ∨
    (cut s (s.appendWrites lines) k).load read apply =
      (done s (s.appendWrites lines)).load read apply := by
  rw [load_done_append]
  apply cut_cases (P := fun x : Journaled G B L => x.load read apply = s.load read apply ∨
    x.load read apply = lines.foldl apply (s.load read apply)) (Or.inl rfl)
  intro x hx
  unfold appendWrites at hx
  cases hj : s.journal with
  | none =>
    rw [hj] at hx
    simp only [List.mem_cons, List.not_mem_nil, or_false] at hx
    rcases hx with hx | hx
    · left
      simp [hx, load, hj]
    · right
      simp [hx, load, hj]
  | some j =>
    obtain ⟨g, old⟩ := j
    rw [hj] at hx
    -- a journal of another generation is emptied before it is written
    by_cases hg : g = s.gen
    · simp only [hg, if_true, List.mem_cons, List.not_mem_nil, or_false] at hx
      right
      simp [hx, load, hj, hg]
    · simp only [hg, if_false, List.mem_cons, List.not_mem_nil, or_false] at hx
      rcases hx with hx | hx
      · left
        rw [hx]
      · right
        simp [hx, load, hj, hg]

/-- The journal on disk does not name the generation. -/
def Unnamed (s : Journaled G B L) (g : G) : Prop := ∀ j ∈ s.journal, j.1 ≠ g

/-- After any cut of a replacement a reader finds the old document or the new
base: the journal that is still there extends another generation. -/
theorem load_cut_replace {g : G} (hg : s.Unnamed g) (base : B) (k : ℕ) :
    (cut s (s.replaceWrites g base) k).load read apply = s.load read apply ∨
    (cut s (s.replaceWrites g base) k).load read apply = read base := by
  apply cut_cases (P := fun x : Journaled G B L => x.load read apply = s.load read apply ∨
    x.load read apply = read base) (Or.inl rfl)
  intro x hx
  simp only [replaceWrites, List.mem_cons, List.not_mem_nil, or_false] at hx
  rcases hx with hx | hx | hx
  · left
    rw [hx]
  · right
    rw [hx]
    cases hj : s.journal with
    | none => simp [load]
    | some j => simp [load, hg j hj]
  · right
    rw [hx]
    rfl

/-! ## What each write leaves -/

/-- A write of an append leaves the files alone or extends this base. -/
theorem mem_appendWrites {lines : List L} {x : Journaled G B L} (h : x ∈ s.appendWrites lines) :
    x = s ∨ ∃ ls n, s.stamp < n ∧ x = { s with journal := some (s.gen, ls), stamp := n } := by
  unfold appendWrites at h
  cases hj : s.journal with
  | none =>
    rw [hj] at h
    simp only [List.mem_cons, List.not_mem_nil, or_false] at h
    rcases h with h | h
    · exact Or.inr ⟨_, _, Nat.lt_succ_self _, h⟩
    · exact Or.inr ⟨_, _, by omega, h⟩
  | some j =>
    obtain ⟨g, old⟩ := j
    rw [hj] at h
    by_cases hg : g = s.gen
    · simp only [hg, if_true, List.mem_cons, List.not_mem_nil, or_false] at h
      exact Or.inr ⟨_, _, Nat.lt_succ_self _, h⟩
    · simp only [hg, if_false, List.mem_cons, List.not_mem_nil, or_false] at h
      rcases h with h | h
      · exact Or.inl h
      · exact Or.inr ⟨_, _, Nat.lt_succ_self _, h⟩

omit [DecidableEq G] in
/-- A write of a replacement leaves the files alone or has the new base, with the
old journal or without one. -/
theorem mem_replaceWrites {g : G} {base : B} {x : Journaled G B L} (h : x ∈ s.replaceWrites g base) :
    x = s ∨ ∃ j n, s.stamp < n ∧ (j = s.journal ∨ j = none) ∧
      x = { gen := g, base := base, journal := j, stamp := n } := by
  simp only [replaceWrites, List.mem_cons, List.not_mem_nil, or_false] at h
  rcases h with h | h | h
  · exact Or.inl h
  · exact Or.inr ⟨_, _, Nat.lt_succ_self _, Or.inl rfl, h⟩
  · exact Or.inr ⟨_, _, by omega, Or.inr rfl, h⟩

/-- An operation that is finished moved the stamp. -/
theorem stamp_lt_append (lines : List L) : s.stamp < (done s (s.appendWrites lines)).stamp := by
  unfold appendWrites
  cases hj : s.journal with
  | none => simp [done]
  | some j =>
    obtain ⟨g, old⟩ := j
    by_cases hg : g = s.gen
    · simp [done, hg]
    · simp [done, hg]

omit [DecidableEq G] in
theorem stamp_lt_replace (g : G) (base : B) : s.stamp < (done s (s.replaceWrites g base)).stamp := by
  simp [done, replaceWrites]

end

end Journaled

end PaperTrading.Lib
