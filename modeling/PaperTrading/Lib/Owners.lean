import Mathlib.Logic.Function.Basic

/-!
# Exclusive locks and their owners

A table of locks says of each lock who has it, if anyone. `Owners lock needs` says that the
table is right about what everybody needs: a lock is with an owner exactly when that owner
needs it. So no two owners need one lock (`Owners.unique`). An owner whose needs change
keeps the table right if it takes a free lock (`Owners.take`), gives one back
(`Owners.give`), or leaves the table alone where its needs did not change
(`Owners.keep`).
-/

namespace PaperTrading.Lib

variable {α τ : Type}

/-- Each lock is with the owner that needs it. -/
def Owners (lock : α → Option τ) (needs : τ → α → Prop) : Prop :=
  ∀ a t, lock a = some t ↔ needs t a

namespace Owners

variable {lock : α → Option τ} {needs : τ → α → Prop}

theorem unique (h : Owners lock needs) {a : α} {t u : τ} (ht : needs t a) (hu : needs u a) :
    t = u := by
  have ht' := (h a t).mpr ht
  rw [(h a u).mpr hu] at ht'
  exact (Option.some.inj ht').symm

theorem not_needed (h : Owners lock needs) {a : α} (hfree : lock a = none) (t : τ) :
    ¬ needs t a := by
  intro ht
  rw [(h a t).mpr ht] at hfree
  cases hfree

variable [DecidableEq τ] {t : τ} {q : α → Prop}

/-- The needs of `t` change to `q`. -/
def withNeeds (needs : τ → α → Prop) (t : τ) (q : α → Prop) : τ → α → Prop :=
  fun u a => if u = t then q a else needs u a

theorem keep (h : Owners lock needs) (hq : ∀ a, q a ↔ needs t a) :
    Owners lock (withNeeds needs t q) := by
  intro a u
  unfold withNeeds
  by_cases hu : u = t
  · rw [if_pos hu, hq, hu]
    exact h a t
  · rw [if_neg hu]
    exact h a u

variable [DecidableEq α] {a : α}

theorem take (h : Owners lock needs) (hfree : lock a = none)
    (hq : ∀ b, q b ↔ needs t b ∨ b = a) :
    Owners (Function.update lock a (some t)) (withNeeds needs t q) := by
  intro b u
  unfold withNeeds
  by_cases hb : b = a
  · subst hb
    rw [Function.update_self]
    by_cases hu : u = t
    · subst hu
      rw [if_pos rfl, hq]
      exact iff_of_true rfl (.inr rfl)
    · rw [if_neg hu]
      exact iff_of_false (fun e => hu (Option.some.inj e).symm) (h.not_needed hfree u)
  · rw [Function.update_of_ne hb]
    by_cases hu : u = t
    · subst hu
      rw [if_pos rfl, hq, or_iff_left hb]
      exact h b u
    · rw [if_neg hu]
      exact h b u

theorem give (h : Owners lock needs) (hneeds : needs t a)
    (hq : ∀ b, q b ↔ needs t b ∧ b ≠ a) :
    Owners (Function.update lock a none) (withNeeds needs t q) := by
  intro b u
  unfold withNeeds
  by_cases hb : b = a
  · subst hb
    rw [Function.update_self]
    by_cases hu : u = t
    · rw [if_pos hu, hq]
      exact iff_of_false (Option.some_ne_none u).symm fun h' => h'.2 rfl
    · rw [if_neg hu]
      exact iff_of_false (Option.some_ne_none u).symm fun h' => hu (h.unique h' hneeds)
  · rw [Function.update_of_ne hb]
    by_cases hu : u = t
    · subst hu
      rw [if_pos rfl, hq, and_iff_left hb]
      exact h b u
    · rw [if_neg hu]
      exact h b u

end Owners

end PaperTrading.Lib
