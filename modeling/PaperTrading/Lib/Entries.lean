import Mathlib.Data.List.Basic

/-!
# One entry of a table changes

A table of calls, threads or sessions is a list; a step of one of them sets its entry.
`set_perm` trades the old value for the new one, and what is counted or collected over
the table changes by that entry alone (`countP_set_entry`, `filterMap_set_entry`).
-/

namespace PaperTrading.Lib

variable {α β : Type} {a b : α} {l : List α} {i : ℕ}

/-- Setting an entry trades one value for another. -/
theorem set_perm : ∀ {l : List α} {i : ℕ}, l[i]? = some a → (a :: l.set i b).Perm (b :: l) := by
  intro l
  induction l with
  | nil => intro i h; simp at h
  | cons x l ih =>
    intro i h
    cases i with
    | zero =>
      rw [List.getElem?_cons_zero, Option.some.injEq] at h
      rw [List.set_cons_zero, h]
      exact List.Perm.swap b a l
    | succ i =>
      rw [List.getElem?_cons_succ] at h
      rw [List.set_cons_succ]
      exact (List.Perm.swap x a _).trans (((ih h).cons x).trans (List.Perm.swap b x l))

theorem countP_set_entry {p : α → Bool} (h : l[i]? = some a) :
    (l.set i b).countP p + (if p a then 1 else 0) = l.countP p + (if p b then 1 else 0) := by
  have hperm := (set_perm (b := b) h).countP_eq p
  rwa [List.countP_cons, List.countP_cons] at hperm

theorem filterMap_set_entry {f : α → Option β} (h : l[i]? = some a) :
    ((f a).toList ++ (l.set i b).filterMap f).Perm ((f b).toList ++ l.filterMap f) := by
  have hperm := (set_perm (b := b) h).filterMap f
  have hcons (x : α) (xs : List α) :
      (x :: xs).filterMap f = (f x).toList ++ xs.filterMap f := by
    rw [List.filterMap_cons]
    cases f x with
    | none => rfl
    | some c => rfl
  rwa [hcons, hcons] at hperm

end PaperTrading.Lib
