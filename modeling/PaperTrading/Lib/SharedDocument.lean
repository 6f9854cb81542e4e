import Mathlib.Logic.Function.Basic
import Mathlib.Algebra.Group.Defs
import Mathlib.Algebra.Group.Basic
import PaperTrading.Lib.Runs

/-!
# Whole-document updates of a shared cell

Several processes share one document. Each loads a copy, works on it, and
writes a whole document back later; other operations read and write the
document in one step. A `Discipline` says what each operation writes and,
through a `view`, which change of the document it stands for.

`expected` is the view with the change of every operation applied, in the order
of the writes. `reflects_iff` says when the document keeps up with it: exactly
when every write that goes through would have had the same outcome on the
current document as on the copy it was computed from, and every operation that
writes nothing stands for no change. For a view into a group whose changes are
additions, the first means that copy and document have the same view
(`sameOutcome_add`).
-/

namespace PaperTrading.Lib

variable {ι α κ σ V : Type}

/-- A document, the copies processes hold, and the view the operations so far
stand for. -/
structure Shared (ι σ V : Type) where
  cell : σ
  held : ι → σ
  expected : V

/-- Process `i` loads a copy, or writes back what operation `a` made of it; or
operation `k` reads and writes in one step. -/
inductive Access (ι α κ : Type) where
  | load (i : ι)
  | store (i : ι) (a : α)
  | atomic (k : κ)
deriving DecidableEq, Repr

/-- The operations on a document. `store a copy cell` is the document after
operation `a` worked on `copy` and found `cell`; it is `cell`, as far as the
view goes, unless `a` saves. -/
structure Discipline (α κ σ V : Type) where
  Good : σ → Prop
  view : σ → V
  store : α → σ → σ → σ
  Saves : α → σ → σ → Prop
  change : α → σ → σ → V → V
  view_saves : ∀ {a copy cell}, Good copy → Good cell → Saves a copy cell →
    view (store a copy cell) = change a copy cell (view copy)
  view_skips : ∀ {a copy cell}, Good copy → Good cell → ¬ Saves a copy cell →
    view (store a copy cell) = view cell
  good_store : ∀ a {copy cell}, Good copy → Good cell → Good (store a copy cell)
  atomic : κ → σ → σ
  atomicChange : κ → σ → V → V
  view_atomic : ∀ k {cell}, Good cell → view (atomic k cell) = atomicChange k cell (view cell)
  good_atomic : ∀ k {cell}, Good cell → Good (atomic k cell)

namespace Discipline

variable (d : Discipline α κ σ V)

/-- Operation `a` writes what it made of `copy`. -/
def write (s : Shared ι σ V) (copy : σ) (a : α) : Shared ι σ V :=
  { s with
    cell := d.store a copy s.cell
    expected := d.change a copy s.cell s.expected }

def step [DecidableEq ι] (s : Shared ι σ V) : Access ι α κ → Shared ι σ V
  | .load i => { s with held := Function.update s.held i s.cell }
  | .store i a => d.write s (s.held i) a
  | .atomic k =>
    { s with cell := d.atomic k s.cell, expected := d.atomicChange k s.cell s.expected }

/-- The document shows every change made so far, and document and copies are
good. -/
structure Sound (s : Shared ι σ V) : Prop where
  reflects : d.view s.cell = s.expected
  cell : d.Good s.cell
  held : ∀ i, d.Good (s.held i)

/-- After the access the document shows every change made so far. -/
def Reflects [DecidableEq ι] (s : Shared ι σ V) (acc : Access ι α κ) : Prop :=
  d.view (d.step s acc).cell = (d.step s acc).expected

/-- If `a` saves, its change has the same outcome on the document as on the
copy; if it does not, it changes nothing. -/
def SameOutcome (a : α) (copy cell : σ) : Prop :=
  (d.Saves a copy cell →
    d.change a copy cell (d.view copy) = d.change a copy cell (d.view cell)) ∧
  (¬ d.Saves a copy cell → d.change a copy cell (d.view cell) = d.view cell)

/-- The write of an access, if it is one, has the same outcome on the
document. -/
def Fits (s : Shared ι σ V) : Access ι α κ → Prop
  | .store i a => d.SameOutcome a (s.held i) s.cell
  | _ => True

theorem write_reflects {s : Shared ι σ V} (hs : d.Sound s) {copy : σ} (hcopy : d.Good copy)
    (a : α) : d.view (d.write s copy a).cell = (d.write s copy a).expected ↔
      d.SameOutcome a copy s.cell := by
  unfold write SameOutcome
  dsimp only
  rw [← hs.reflects]
  by_cases h : d.Saves a copy s.cell
  · rw [d.view_saves hcopy hs.cell h]
    simp [h]
  · rw [d.view_skips hcopy hs.cell h]
    simp only [h, false_imp_iff, not_false_eq_true, true_imp_iff, true_and]
    exact eq_comm

theorem write_sound {s : Shared ι σ V} (hs : d.Sound s) {copy : σ} (hcopy : d.Good copy) {a : α}
    (h : d.SameOutcome a copy s.cell) : d.Sound (d.write s copy a) :=
  ⟨(d.write_reflects hs hcopy a).mpr h, d.good_store a hcopy hs.cell, hs.held⟩

section
variable [DecidableEq ι]

theorem reflects_step {s : Shared ι σ V} (hs : d.Sound s) (acc : Access ι α κ) :
    d.Reflects s acc ↔ d.Fits s acc := by
  cases acc with
  | load i => exact iff_of_true hs.reflects trivial
  | store i a => exact d.write_reflects hs (hs.held i) a
  | atomic k =>
    refine iff_of_true ?_ trivial
    show d.view (d.atomic k s.cell) = d.atomicChange k s.cell s.expected
    rw [d.view_atomic k hs.cell, hs.reflects]

theorem sound_step {s : Shared ι σ V} (hs : d.Sound s) {acc : Access ι α κ} (h : d.Fits s acc) :
    d.Sound (d.step s acc) := by
  cases acc with
  | load i =>
    refine ⟨hs.reflects, hs.cell, fun j => ?_⟩
    show d.Good (Function.update s.held i s.cell j)
    rcases eq_or_ne j i with rfl | hne
    · rw [Function.update_self]
      exact hs.cell
    · rw [Function.update_of_ne hne]
      exact hs.held j
  | store i a => exact d.write_sound hs (hs.held i) h
  | atomic k => exact ⟨(d.reflects_step hs (.atomic k)).mpr h, d.good_atomic k hs.cell, hs.held⟩

/-- **Whole-document updates.** A run keeps the document in line with its
operations exactly when every write fits the document it replaces. -/
theorem reflects_iff (accs : List (Access ι α κ)) {s : Shared ι σ V} (hs : d.Sound s) :
    Along d.step d.Reflects s accs ↔ Along d.step d.Fits s accs :=
  along_congr_inv (I := d.Sound) (fun _ acc hs => d.reflects_step hs acc)
    (fun _ _ hs h => d.sound_step hs h) accs hs

end

/-- An operation that saves and adds `w` has the same outcome on two documents
exactly when they have the same view. -/
theorem sameOutcome_add [AddGroup V] {a : α} {copy cell : σ} {w : V}
    (hchange : d.change a copy cell = fun v => v + w) :
    d.SameOutcome a copy cell ↔
      (d.Saves a copy cell → d.view copy = d.view cell) ∧ (¬ d.Saves a copy cell → w = 0) := by
  unfold SameOutcome
  rw [hchange]
  simp only [add_left_inj, add_eq_left]

/-- A document that all processes hold a copy of. -/
theorem sound_start {cell : σ} (h : d.Good cell) :
    d.Sound ({ cell := cell, held := fun _ => cell, expected := d.view cell } : Shared ι σ V) :=
  ⟨rfl, h, fun _ => h⟩

end Discipline

end PaperTrading.Lib
