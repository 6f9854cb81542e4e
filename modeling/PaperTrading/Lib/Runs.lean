import Mathlib.Data.List.Basic
import Mathlib.Data.Nat.Init
import Mathlib.Order.WellFounded
import Mathlib.Tactic.Basic

/-!
# Runs of a step function

`step s i` is the state a system is in after it has taken the step with input
`i` in state `s`; a run is a list of inputs. `Along step P s is` says that `P`
holds at every step of the run, of the state before the step and the step's
input, so a property of the state reached is written
`fun s i => Q (step s i)`.

The rules carry a fact from one step to all of a run: `along_of_inv` (an
invariant that the condition on the steps keeps), `run_inv` (the same, for the
last state), `along_congr` (two properties that agree at every step agree along
the run), `run_origin` and `run_since` (which step a fact came from, and that it
stays) and `flag_run_iff` (a flag that is only ever raised is up when some step
raised it).
-/

namespace PaperTrading.Lib

variable {σ ι : Type}

/-- `P` holds at every step of the run `is` from `s`. -/
def Along (step : σ → ι → σ) (P : σ → ι → Prop) : σ → List ι → Prop
  | _, [] => True
  | s, i :: is => P s i ∧ Along step P (step s i) is

section
variable {step : σ → ι → σ} {P Q C : σ → ι → Prop} {I : σ → Prop}

@[simp] theorem along_nil (s : σ) : Along step P s [] := trivial

theorem along_cons {s : σ} {i : ι} {is : List ι} :
    Along step P s (i :: is) ↔ P s i ∧ Along step P (step s i) is := Iff.rfl

/-- A run can be checked step by step. -/
instance Along.decidable [∀ s i, Decidable (P s i)] :
    ∀ (is : List ι) (s : σ), Decidable (Along step P s is)
  | [], _ => inferInstanceAs (Decidable True)
  | i :: is, s =>
    have := Along.decidable is (step s i)
    inferInstanceAs (Decidable (P s i ∧ Along step P (step s i) is))

theorem along_append (is js : List ι) {s : σ} :
    Along step P s (is ++ js) ↔ Along step P s is ∧ Along step P (is.foldl step s) js := by
  induction is generalizing s with
  | nil => exact (and_iff_right (along_nil s)).symm
  | cons i is ih => rw [List.cons_append, along_cons, along_cons, ih, and_assoc, List.foldl_cons]

theorem along_of_forall (h : ∀ s i, P s i) : ∀ (is : List ι) {s : σ}, Along step P s is := by
  intro is
  induction is with
  | nil => intro s; exact trivial
  | cons i is ih => intro s; exact ⟨h s i, ih⟩

/-- A condition on the inputs alone. -/
theorem along_of_mem {C : ι → Prop} : ∀ (is : List ι) {s : σ}, (∀ i ∈ is, C i) →
    Along step (fun _ i => C i) s is := by
  intro is
  induction is with
  | nil => intro s _; exact trivial
  | cons i is ih =>
    intro s h
    exact ⟨h i List.mem_cons_self, ih fun j hj => h j (List.mem_cons_of_mem _ hj)⟩

/-- An invariant that steps meeting `C` keep, and from which they give `P`,
gives `P` along every run whose steps meet `C`. -/
theorem along_of_inv (hstep : ∀ s i, I s → C s i → P s i ∧ I (step s i)) :
    ∀ (is : List ι) {s : σ}, I s → Along step C s is → Along step P s is := by
  intro is
  induction is with
  | nil => intro s _ _; exact trivial
  | cons i is ih =>
    intro s hs hC
    obtain ⟨hP, hs'⟩ := hstep s i hs hC.1
    exact ⟨hP, ih hs' hC.2⟩

/-- An invariant that steps meeting `C` keep holds of the last state. -/
theorem run_inv (hstep : ∀ s i, I s → C s i → I (step s i)) :
    ∀ (is : List ι) {s : σ}, I s → Along step C s is → I (is.foldl step s) := by
  intro is
  induction is with
  | nil => intro s hs _; exact hs
  | cons i is ih =>
    intro s hs hC
    exact ih (hstep s i hs hC.1) hC.2

/-- Two step properties that agree at every step agree along every run. -/
theorem along_congr (heq : ∀ s i, P s i ↔ Q s i) :
    ∀ (is : List ι) {s : σ}, Along step P s is ↔ Along step Q s is := by
  intro is
  induction is with
  | nil => intro s; exact Iff.rfl
  | cons i is ih =>
    intro s
    rw [along_cons, along_cons, heq s i, ih]

/-- Two step properties that agree where an invariant holds, which the second
one keeps, agree along every run that starts in it. -/
theorem along_congr_inv (heq : ∀ s i, I s → (P s i ↔ Q s i))
    (hinv : ∀ s i, I s → Q s i → I (step s i)) :
    ∀ (is : List ι) {s : σ}, I s → (Along step P s is ↔ Along step Q s is) := by
  intro is
  induction is with
  | nil => intro s _; exact Iff.rfl
  | cons i is ih =>
    intro s hs
    rw [along_cons, along_cons, heq s i hs]
    exact and_congr_right fun hq => ih (hinv s i hs hq)

/-- Two step properties that agree where an invariant holds agree along every run whose
steps meet the condition that keeps it. -/
theorem along_congr_kept (heq : ∀ s i, I s → (P s i ↔ Q s i))
    (hstep : ∀ s i, I s → C s i → I (step s i)) :
    ∀ (is : List ι) {s : σ}, I s → Along step C s is → (Along step P s is ↔ Along step Q s is) := by
  intro is
  induction is with
  | nil => intro s _ _; exact Iff.rfl
  | cons i is ih =>
    intro s hs hC
    rw [along_cons, along_cons, heq s i hs, ih (hstep s i hs hC.1) hC.2]

/-- What holds at the end of a run held at the start or came about at some
step. -/
theorem run_origin {Q : σ → Prop} {R : σ → ι → Prop} (hstep : ∀ s i, Q (step s i) → Q s ∨ R s i) :
    ∀ (is : List ι) {s : σ}, Q (is.foldl step s) →
      Q s ∨ ∃ pre i post, is = pre ++ i :: post ∧ R (pre.foldl step s) i := by
  intro is
  induction is with
  | nil => intro s h; exact Or.inl h
  | cons i is ih =>
    intro s h
    rcases ih h with hQ | ⟨pre, j, post, his, hR⟩
    · rcases hstep s i hQ with hQ | hR
      · exact Or.inl hQ
      · exact Or.inr ⟨[], i, is, rfl, hR⟩
    · exact Or.inr ⟨i :: pre, j, post, by rw [his, List.cons_append], hR⟩

/-- What a step brings about, and every step keeps, holds at the end of every
run that takes the step. -/
theorem run_since {Q : σ → Prop} {R : σ → ι → Prop} (hcause : ∀ s i, R s i → Q (step s i))
    (hkeep : ∀ s i, Q s → Q (step s i)) {s : σ} {pre : List ι} {i : ι} (post : List ι)
    (h : R (pre.foldl step s) i) : Q ((pre ++ i :: post).foldl step s) := by
  rw [List.foldl_append, List.foldl_cons]
  exact run_inv (fun s i hs _ => hkeep s i hs) post (hcause _ i h)
    (along_of_forall (P := fun _ _ => True) (fun _ _ => trivial) post)

/-- A flag that steps raise and never lower is up at the end of a run exactly
when it was up at the start or some step raised it. -/
theorem flag_run_iff (flag : σ → Prop) (raises : σ → ι → Prop)
    (hstep : ∀ s i, flag (step s i) ↔ flag s ∨ raises s i) :
    ∀ (is : List ι) (s : σ), flag (is.foldl step s) ↔
      flag s ∨ ∃ pre i post, is = pre ++ i :: post ∧ raises (pre.foldl step s) i := by
  intro is s
  have hkeep : ∀ s i, flag s → flag (step s i) := fun s i h => (hstep s i).mpr (Or.inl h)
  constructor
  · exact run_origin (fun s i => (hstep s i).mp) is
  · intro h
    rcases h with h | ⟨pre, i, post, rfl, h⟩
    · exact run_inv (fun s i hs _ => hkeep s i hs) is h
        (along_of_forall (P := fun _ _ => True) (fun _ _ => trivial) is)
    · exact run_since (fun s i h => (hstep s i).mpr (Or.inr h)) hkeep post h

end

end PaperTrading.Lib

/-!
## Runs on endless inputs

The states of a step function that is fed a stream of inputs. `after_inv` carries an
invariant along the run. Two rules say that something comes about: `after_reaches`, when
every step that has not brought it about yet lowers a well-founded rank, and
`after_stops`, when a count that never falls and has a bound goes up again and again
until then.
-/

namespace PaperTrading.Lib

variable {σ ι : Type}

/-- The state after the first `n` inputs. -/
def after (step : σ → ι → σ) (s : σ) (is : ℕ → ι) : ℕ → σ
  | 0 => s
  | n + 1 => step (after step s is n) (is n)

section
variable {step : σ → ι → σ} {s : σ} {is : ℕ → ι}

theorem after_succ (n : ℕ) : after step s is (n + 1) = step (after step s is n) (is n) := rfl

/-- An invariant that steps meeting a condition keep. -/
theorem after_inv {I : σ → Prop} {C : σ → ι → Prop} (hstep : ∀ s i, I s → C s i → I (step s i))
    (hs : I s) (hC : ∀ n, C (after step s is n) (is n)) : ∀ n, I (after step s is n) := by
  intro n
  induction n with
  | zero => exact hs
  | succ n ih => exact hstep _ _ ih (hC n)

/-- What every step either brings about or comes nearer to comes about, from any point on. -/
theorem after_reaches {α : Type} {r : α → α → Prop} (hr : WellFounded r) (rank : σ → α)
    (s : σ) (is : ℕ → ι) (P : σ → Prop)
    (hstep : ∀ s i, ¬ P s → P (step s i) ∨ r (rank (step s i)) (rank s)) (n : ℕ) :
    ∃ m, n ≤ m ∧ P (after step s is m) := by
  induction h : rank (after step s is n) using hr.induction generalizing n with
  | _ a ih =>
    subst h
    by_cases hP : P (after step s is n)
    · exact ⟨n, le_refl n, hP⟩
    · rcases hstep _ (is n) hP with hnext | hlt
      · exact ⟨n + 1, Nat.le_succ n, hnext⟩
      · obtain ⟨m, hm, hPm⟩ := ih _ hlt (n + 1) rfl
        exact ⟨m, Nat.le_of_succ_le hm, hPm⟩

theorem after_mono {f : σ → ℕ} (hmono : ∀ n, f (after step s is n) ≤ f (after step s is (n + 1)))
    {m n : ℕ} (hmn : m ≤ n) : f (after step s is m) ≤ f (after step s is n) := by
  induction hmn with
  | refl => exact le_refl _
  | step _ ih => exact ih.trans (hmono _)

/-- A count that never falls and has a bound cannot go up for ever. -/
theorem after_stops (step : σ → ι → σ) (s : σ) (is : ℕ → ι) (P : σ → Prop) (f : σ → ℕ) (bound : ℕ)
    (hmono : ∀ n, f (after step s is n) ≤ f (after step s is (n + 1)))
    (hbound : ∀ n, f (after step s is n) ≤ bound)
    (hprogress : ∀ n, ∃ m, n ≤ m ∧
      (P (after step s is m) ∨ f (after step s is m) < f (after step s is (m + 1)))) :
    ∃ n, P (after step s is n) := by
  by_contra hnever
  -- the count passes every number
  have hclimb : ∀ k, ∃ n, k ≤ f (after step s is n) := by
    intro k
    induction k with
    | zero => exact ⟨0, Nat.zero_le _⟩
    | succ k ih =>
      obtain ⟨n, hn⟩ := ih
      obtain ⟨m, hm, hPm | hlt⟩ := hprogress n
      · exact absurd ⟨m, hPm⟩ hnever
      · exact ⟨m + 1, (hn.trans (after_mono hmono hm)).trans_lt hlt⟩
  obtain ⟨n, hn⟩ := hclimb (bound + 1)
  exact absurd (hn.trans (hbound n)) (Nat.not_succ_le_self bound)

end

end PaperTrading.Lib
