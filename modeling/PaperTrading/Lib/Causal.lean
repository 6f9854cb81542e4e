import Mathlib.Data.List.Basic

/-!
# Causal series

A history can be cut after its first `m` entries. A series computed from the
history is causal when cutting the history cuts the series, and a question about
entry `i` is causal when its answer is the same on every cut that still holds
entry `i`. Causal series are closed under maps, zips and composition, so an
indicator is causal when its parts are.

`CausalAt.agree` is the two-run reading: histories with the same first `m`
entries get the same answers about them.
-/

namespace PaperTrading.Lib

variable {X α β γ : Type*}

/-- `F` of the first `m` entries of a history is the first `m` entries of `F`. -/
def Causal (cut : ℕ → X → X) (F : X → List α) : Prop :=
  ∀ x m, F (cut m x) = (F x).take m

/-- What is said of entry `i` does not depend on the entries after it. -/
def CausalAt (cut : ℕ → X → X) (p : X → ℕ → α) : Prop :=
  ∀ x m i, i < m → p (cut m x) i = p x i

/-! ## Series -/

theorem Causal.comp {cut : ℕ → X → X} {F : X → List α} {G : List α → List β}
    (hG : Causal List.take G) (hF : Causal cut F) : Causal cut fun x => G (F x) := by
  intro x m
  dsimp only
  rw [hF x m, hG (F x) m]

theorem Causal.map {cut : ℕ → X → X} {F : X → List α} (f : α → β) (hF : Causal cut F) :
    Causal cut fun x => (F x).map f := by
  intro x m
  dsimp only
  rw [hF x m, List.map_take]

theorem Causal.zipWith {cut : ℕ → X → X} {F : X → List α} {G : X → List β} (f : α → β → γ)
    (hF : Causal cut F) (hG : Causal cut G) : Causal cut fun x => (F x).zipWith f (G x) := by
  intro x m
  dsimp only
  rw [hF x m, hG x m, List.take_zipWith]

/-- A series written entry by entry is causal when its entries are. -/
theorem causal_perEntry {cut : ℕ → X → X} {len : X → ℕ} {f : X → ℕ → β}
    (hlen : ∀ m x, len (cut m x) = min m (len x)) (hf : CausalAt cut f) :
    Causal cut fun x => (List.range (len x)).map (f x) := by
  intro x m
  dsimp only
  rw [← List.map_take, List.take_range, hlen]
  refine List.map_congr_left fun i hi => hf x m i ?_
  exact (Nat.lt_min.mp (List.mem_range.mp hi)).1

/-! ## Questions -/

section CausalAt

variable {cut : ℕ → X → X}

/-- Histories with the same first `m` entries get the same answers about them. -/
theorem CausalAt.agree {p : X → ℕ → α} (hp : CausalAt cut p) {x y : X} {m i : ℕ}
    (h : cut m x = cut m y) (hi : i < m) : p x i = p y i := by
  rw [← hp x m i hi, h, hp y m i hi]

end CausalAt

end PaperTrading.Lib
