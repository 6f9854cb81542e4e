import Mathlib.Data.List.Basic
import Mathlib.Tactic.Basic
import PaperTrading.Lib.Runs

/-!
# Computations that keep their state when they raise

An imperative method that raises leaves behind whatever it had already
written. `Ran ε σ` is the result of such a method: the state it left, and the
exception if there was one. `andThen` sequences two methods and `loop` is a
`for` loop over a list; both stop at the first exception and keep the state
reached there.

The rules below are the ones the pass proofs use. `loop_inv` carries a
predicate through a loop whether or not it raises, and `loop_proj` says that a
loop seen through a projection is the projected loop, so a field that only
depends on itself can be reasoned about alone. `loop_good_iff` is the rule for
a loop whose steps go wrong, for good, exactly when a condition on the state
before them fails.
-/

namespace PaperTrading.Lib

/-- What a method left: the state, and the exception if it raised. -/
@[ext] structure Ran (ε σ : Type) where
  state : σ
  error : Option ε
deriving DecidableEq, Repr

namespace Ran

variable {ε σ τ α : Type}

/-- The method returned. -/
def ok (s : σ) : Ran ε σ := ⟨s, none⟩

/-- The method raised `e` with the state at `s`. -/
def raise (e : ε) (s : σ) : Ran ε σ := ⟨s, some e⟩

/-- The method returned normally. -/
def Returns (r : Ran ε σ) : Prop := r.error = none

instance (r : Ran ε σ) : Decidable r.Returns :=
  inferInstanceAs (Decidable (r.error = none))

@[simp] theorem ok_state (s : σ) : (ok s : Ran ε σ).state = s := rfl
@[simp] theorem ok_error (s : σ) : (ok s : Ran ε σ).error = none := rfl
@[simp] theorem raise_state (e : ε) (s : σ) : (raise e s).state = s := rfl
@[simp] theorem raise_error (e : ε) (s : σ) : (raise e s).error = some e := rfl
@[simp] theorem ok_returns (s : σ) : (ok s : Ran ε σ).Returns := rfl
@[simp] theorem raise_returns (e : ε) (s : σ) : ¬ (raise e s).Returns := by
  simp [Returns]

/-- Run `f` on the state left, unless the first method raised. -/
def andThen (r : Ran ε σ) (f : σ → Ran ε σ) : Ran ε σ :=
  match r.error with
  | none => f r.state
  | some _ => r

@[simp] theorem ok_andThen (s : σ) (f : σ → Ran ε σ) : (ok s).andThen f = f s := rfl
@[simp] theorem raise_andThen (e : ε) (s : σ) (f : σ → Ran ε σ) :
    (raise e s).andThen f = raise e s := rfl

theorem andThen_returns {r : Ran ε σ} {f : σ → Ran ε σ} (h : r.Returns) :
    r.andThen f = f r.state := by
  unfold Returns at h
  simp only [andThen, h]

/-- Either the first method raised and nothing more ran, or the second one
started from the state the first one left. -/
theorem andThen_cases (r : Ran ε σ) (f : σ → Ran ε σ) :
    (¬ r.Returns ∧ r.andThen f = r) ∨ (r.Returns ∧ r.andThen f = f r.state) := by
  unfold andThen Returns
  cases h : r.error with
  | none => exact Or.inr ⟨rfl, rfl⟩
  | some e => exact Or.inl ⟨by simp, rfl⟩

theorem andThen_assoc (r : Ran ε σ) (f g : σ → Ran ε σ) :
    (r.andThen f).andThen g = r.andThen fun s => (f s).andThen g := by
  unfold andThen
  cases h : r.error with
  | none => rfl
  | some e => simp only [h]

/-- See the state through a projection, keeping the exception. -/
def map (g : σ → τ) (r : Ran ε σ) : Ran ε τ := ⟨g r.state, r.error⟩

@[simp] theorem map_state (g : σ → τ) (r : Ran ε σ) : (r.map g).state = g r.state := rfl
@[simp] theorem map_error (g : σ → τ) (r : Ran ε σ) : (r.map g).error = r.error := rfl
@[simp] theorem map_ok (g : σ → τ) (s : σ) : (ok s : Ran ε σ).map g = ok (g s) := rfl
@[simp] theorem map_raise (g : σ → τ) (e : ε) (s : σ) :
    (raise e s).map g = raise e (g s) := rfl

/-! ## Loops -/

/-- `for x in xs: f x`, stopping at the first exception. -/
def loop (f : σ → α → Ran ε σ) (s : σ) : List α → Ran ε σ
  | [] => ok s
  | x :: xs => (f s x).andThen fun s' => loop f s' xs

@[simp] theorem loop_nil (f : σ → α → Ran ε σ) (s : σ) : loop f s [] = ok s := rfl

theorem loop_cons (f : σ → α → Ran ε σ) (s : σ) (x : α) (xs : List α) :
    loop f s (x :: xs) = (f s x).andThen fun s' => loop f s' xs := rfl

theorem loop_cons_returns {f : σ → α → Ran ε σ} {s : σ} {x : α} {xs : List α}
    (h : (f s x).Returns) : loop f s (x :: xs) = loop f (f s x).state xs := by
  rw [loop_cons, andThen_returns h]

/-- A predicate every step keeps, raising or not, holds of what the loop
leaves. -/
theorem loop_inv {f : σ → α → Ran ε σ} {P : σ → Prop}
    (hstep : ∀ s x, P s → P (f s x).state) :
    ∀ (xs : List α) (s : σ), P s → P (loop f s xs).state := by
  intro xs
  induction xs with
  | nil => intro s hs; exact hs
  | cons x xs ih =>
    intro s hs
    rw [loop_cons]
    rcases andThen_cases (f s x) (fun s' => loop f s' xs) with ⟨_, h⟩ | ⟨_, h⟩
    · rw [h]; exact hstep s x hs
    · rw [h]; exact ih _ (hstep s x hs)

/-- A loop seen through a projection is the projected loop. -/
theorem loop_proj {f : σ → α → Ran ε σ} {g : τ → α → Ran ε τ} (π : σ → τ)
    (hstep : ∀ s x, (f s x).map π = g (π s) x) :
    ∀ (xs : List α) (s : σ), (loop f s xs).map π = loop g (π s) xs := by
  intro xs
  induction xs with
  | nil => intro s; rfl
  | cons x xs ih =>
    intro s
    have hx := hstep s x
    have hstate : (g (π s) x).state = π (f s x).state := by rw [← hx]; rfl
    have herror : (g (π s) x).error = (f s x).error := by rw [← hx]; rfl
    rw [loop_cons, loop_cons]
    unfold andThen
    rw [herror]
    cases he : (f s x).error with
    | none => rw [hstate]; exact ih _
    | some e => exact hx

/-- Steps that meet `C` return and keep the invariant, so a loop all of whose
steps meet it does. -/
theorem loop_of_along {f : σ → α → Ran ε σ} {I : σ → Prop} {C : σ → α → Prop}
    (hstep : ∀ s x, I s → C s x → (f s x).Returns ∧ I (f s x).state) :
    ∀ (xs : List α) (s : σ), I s → Along (fun s x => (f s x).state) C s xs →
      (loop f s xs).Returns ∧ I (loop f s xs).state := by
  intro xs
  induction xs with
  | nil => intro s hs _; exact ⟨rfl, hs⟩
  | cons x xs ih =>
    intro s hs hC
    obtain ⟨hret, hs'⟩ := hstep s x hs hC.1
    rw [loop_cons_returns hret]
    exact ih _ hs' hC.2

/-- A loop returns with nothing gone wrong exactly when every step of it met
its condition: a step that does not meet it raises or goes wrong, and what went
wrong stays so. -/
theorem loop_good_iff {f : σ → α → Ran ε σ} {I W : σ → Prop} {C : σ → α → Prop}
    (hinit : ∀ s, I s → ¬ W s)
    (hstays : ∀ s x, W s → W (f s x).state)
    (hiff : ∀ s x, I s → (C s x ↔ (f s x).Returns ∧ ¬ W (f s x).state))
    (hinv : ∀ s x, I s → C s x → I (f s x).state) :
    ∀ (xs : List α) (s : σ), I s →
      ((loop f s xs).Returns ∧ ¬ W (loop f s xs).state ↔
        Along (fun s x => (f s x).state) C s xs) := by
  intro xs
  induction xs with
  | nil => intro s hs; exact ⟨fun _ => trivial, fun _ => ⟨rfl, hinit s hs⟩⟩
  | cons x xs ih =>
    intro s hs
    rw [along_cons]
    by_cases hC : C s x
    · rw [loop_cons_returns ((hiff s x hs).mp hC).1, ih _ (hinv s x hs hC)]
      exact (and_iff_right hC).symm
    · refine ⟨fun ⟨hret, hright⟩ => absurd ?_ hC, fun h => absurd h.1 hC⟩
      rw [loop_cons] at hret hright
      rcases andThen_cases (f s x) (fun s' => loop f s' xs) with ⟨hno, h⟩ | ⟨hx, h⟩
      · rw [h] at hret
        exact absurd hret hno
      · rw [h] at hright
        exact (hiff s x hs).mpr ⟨hx, fun hw => hright (loop_inv hstays xs _ hw)⟩

end Ran

end PaperTrading.Lib
