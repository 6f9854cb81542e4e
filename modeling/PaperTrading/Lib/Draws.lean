import Mathlib.Data.List.Basic

/-!
# Draws from a random source

A computation that draws numbers is a tree: it is done, or it branches on the next number.
`run` follows the numbers of a source. `CanGive x a` says that some branch ends with `a`, which
is that some source makes `x` come to `a` (`canGive_iff_run`): what holds of everything a
computation can give holds whatever the source is. Each construct has one rule that says what
it can give.
-/

namespace PaperTrading.Lib

/-- A computation that draws numbers: the next one is at most `n`. -/
inductive Draws (α : Type) : Type
  | done (a : α) : Draws α
  | draw (n : ℕ) (next : Fin (n + 1) → Draws α) : Draws α

namespace Draws

variable {α β : Type}

/-- What is done with the result. -/
def andThen : Draws α → (α → Draws β) → Draws β
  | done a, f => f a
  | draw n next, f => draw n fun i => (next i).andThen f

instance : Monad Draws where
  pure := done
  bind := andThen

/-- The result for a source, which gives one number after the other. -/
def run : Draws α → (ℕ → ℕ) → α
  | done a, _ => a
  | draw n next, r => (next ⟨r 0 % (n + 1), Nat.mod_lt _ n.succ_pos⟩).run fun k => r (k + 1)

/-- One of the options. -/
def choice (options : List α) (h : options ≠ []) : Draws α :=
  draw (options.length - 1) fun i => done (options.get ⟨i.val, by
    have hpos := List.length_pos_iff.mpr h
    omega⟩)

/-- A number below `n`, for a positive `n`. -/
def randrange (n : ℕ) (h : 0 < n) : Draws ℕ := choice (List.range n) (by
  rw [ne_eq, List.range_eq_nil]
  omega)

/-! ## What can come of a computation -/

/-- Some branch ends with `a`. -/
def CanGive : Draws α → α → Prop
  | done b, a => a = b
  | draw _ next, a => ∃ i, (next i).CanGive a

theorem canGive_pure {a b : α} : CanGive (pure a) b ↔ b = a := Iff.rfl

theorem canGive_bind {x : Draws α} {f : α → Draws β} {b : β} :
    CanGive (x >>= f) b ↔ ∃ a, CanGive x a ∧ CanGive (f a) b := by
  show CanGive (x.andThen f) b ↔ _
  induction x with
  | done a =>
    constructor
    · intro h
      exact ⟨a, rfl, h⟩
    · intro hgot
      obtain ⟨_, rfl, h⟩ := hgot
      exact h
  | draw n next ih =>
    constructor
    · intro hgot
      obtain ⟨i, h⟩ := hgot
      obtain ⟨a, ha, h⟩ := (ih i).mp h
      exact ⟨a, ⟨i, ha⟩, h⟩
    · intro hgot
      obtain ⟨a, ⟨i, ha⟩, h⟩ := hgot
      exact ⟨i, (ih i).mpr ⟨a, ha, h⟩⟩

/-- A result that is only worked on afterwards. -/
theorem canGive_map {x : Draws α} {g : α → β} {b : β} :
    CanGive (x >>= fun a => pure (g a)) b ↔ ∃ a, CanGive x a ∧ b = g a := canGive_bind

theorem canGive_choice {options : List α} {h : options ≠ []} {a : α} :
    CanGive (choice options h) a ↔ a ∈ options := by
  constructor
  · intro hgot
    obtain ⟨i, hi⟩ := hgot
    obtain rfl : a = _ := hi
    exact List.get_mem _ _
  · intro ha
    obtain ⟨i, hi, rfl⟩ := List.getElem_of_mem ha
    exact ⟨⟨i, by omega⟩, rfl⟩

theorem canGive_randrange {n k : ℕ} {h : 0 < n} : CanGive (randrange n h) k ↔ k < n :=
  canGive_choice.trans List.mem_range

/-- What a computation can give is what it comes to for some source. -/
theorem canGive_iff_run {x : Draws α} {a : α} : CanGive x a ↔ ∃ r, x.run r = a := by
  induction x with
  | done b =>
    constructor
    · intro h
      exact ⟨id, h.symm⟩
    · intro hgot
      obtain ⟨_, h⟩ := hgot
      exact h.symm
  | draw n next ih =>
    constructor
    · intro hgot
      obtain ⟨i, h⟩ := hgot
      obtain ⟨r, h⟩ := (ih i).mp h
      -- The source gives the number of the branch first.
      refine ⟨fun k => if k = 0 then i.val else r (k - 1), ?_⟩
      have hfirst : (⟨i.val % (n + 1), Nat.mod_lt _ n.succ_pos⟩ : Fin (n + 1)) = i :=
        Fin.ext (Nat.mod_eq_of_lt i.isLt)
      show (next ⟨i.val % (n + 1), _⟩).run r = a
      rw [hfirst, h]
    · intro hgot
      obtain ⟨r, h⟩ := hgot
      exact ⟨_, (ih _).mpr ⟨_, h⟩⟩

end Draws

end PaperTrading.Lib
