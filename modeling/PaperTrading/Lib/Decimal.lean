import Mathlib.Data.Rat.Floor
import Mathlib.Algebra.Order.Ring.Rat
import Mathlib.Tactic.Linarith
import Mathlib.Tactic.FieldSimp

/-!
# Rounding and printing to a number of decimals

`roundTo d q` rounds `q` to `d` decimals, halves to even, and `fixed d q` prints
it with exactly `d` decimals. `roundTo` is a projection (`roundTo_idem`) that
keeps what already has `d` decimals (`roundTo_intCast_div`) and, for integers
`z`, does not cross them (`le_roundTo`).
-/

namespace PaperTrading.Lib

/-- The nearest integer, halves to even. -/
def roundHalfEven (q : ℚ) : ℤ :=
  if q - q.floor < 1 / 2 then q.floor
  else if 1 / 2 < q - q.floor then q.floor + 1
  else if q.floor % 2 = 0 then q.floor else q.floor + 1

/-- `q` to `d` decimals, halves to even. -/
def roundTo (d : ℕ) (q : ℚ) : ℚ := roundHalfEven (q * 10 ^ d) / 10 ^ d

/-- `n`, written with at least `d` digits. -/
def padded (d n : ℕ) : String :=
  String.ofList (List.replicate (d - (toString n).length) '0') ++ toString n

/-- `q` printed with exactly `d` decimals. -/
def fixed (d : ℕ) (q : ℚ) : String :=
  let n := (roundHalfEven (|q| * 10 ^ d)).toNat
  let digits :=
    if d = 0 then toString n
    else toString (n / 10 ^ d) ++ "." ++ padded d (n % 10 ^ d)
  if q < 0 then "-" ++ digits else digits

/-- `q` printed as a percentage with `d` decimals. -/
def percent (d : ℕ) (q : ℚ) : String := fixed d (q * 100) ++ "%"

example : fixed 2 (1234567 / 1000) = "1234.57" := by decide +kernel

@[simp] theorem roundHalfEven_intCast (z : ℤ) : roundHalfEven (z : ℚ) = z := by
  unfold roundHalfEven
  rw [Rat.floor_intCast, sub_self, if_pos (by norm_num)]

/-- What already has `d` decimals is kept. -/
theorem roundTo_intCast_div (d : ℕ) (z : ℤ) :
    roundTo d ((z : ℚ) / 10 ^ d) = (z : ℚ) / 10 ^ d := by
  unfold roundTo
  rw [div_mul_cancel₀ _ (by positivity), roundHalfEven_intCast]

@[simp] theorem roundTo_idem (d : ℕ) (q : ℚ) : roundTo d (roundTo d q) = roundTo d q :=
  roundTo_intCast_div d _

/-- Rounding keeps `q` shifted by an integer. -/
theorem roundTo_add_one {d : ℕ} {q : ℚ} (h : roundTo d q = q) :
    roundTo d (q + 1) = q + 1 := by
  have hq : q = (roundHalfEven (q * 10 ^ d) : ℚ) / 10 ^ d := h.symm
  have h1 := roundTo_intCast_div d (roundHalfEven (q * 10 ^ d) + 10 ^ d)
  push_cast at h1
  rw [add_div, div_self (by positivity), ← hq] at h1
  exact h1

theorem le_roundHalfEven {z : ℤ} {q : ℚ} (h : (z : ℚ) ≤ q) : z ≤ roundHalfEven q := by
  have hz : z ≤ q.floor := Rat.le_floor_iff.mpr h
  unfold roundHalfEven
  split_ifs <;> omega

/-- Rounding does not cross an integer. -/
theorem le_roundTo {d : ℕ} {z : ℤ} {q : ℚ} (h : (z : ℚ) ≤ q) : (z : ℚ) ≤ roundTo d q := by
  have hpow : (0 : ℚ) < 10 ^ d := by positivity
  have h1 : ((z * 10 ^ d : ℤ) : ℚ) ≤ q * 10 ^ d := by
    push_cast
    exact mul_le_mul_of_nonneg_right h hpow.le
  have h2 := le_roundHalfEven h1
  unfold roundTo
  rw [le_div_iff₀ hpow]
  exact_mod_cast h2

theorem roundHalfEven_bounds (q : ℚ) : q.floor ≤ roundHalfEven q ∧ roundHalfEven q ≤ q.floor + 1 := by
  unfold roundHalfEven
  split_ifs <;> omega

/-- Rounding keeps the order. -/
theorem roundHalfEven_mono {q r : ℚ} (h : q ≤ r) : roundHalfEven q ≤ roundHalfEven r := by
  have hfloor : q.floor ≤ r.floor := Rat.le_floor_iff.mpr ((Rat.floor_le q).trans h)
  rcases hfloor.lt_or_eq with hlt | heq
  · have hq := (roundHalfEven_bounds q).2
    have hr := (roundHalfEven_bounds r).1
    omega
  · unfold roundHalfEven
    rw [heq]
    have hfrac : q - r.floor ≤ r - r.floor := sub_le_sub_right h _
    split_ifs <;> first | omega | linarith

theorem roundTo_mono {d : ℕ} {q r : ℚ} (h : q ≤ r) : roundTo d q ≤ roundTo d r := by
  have hpow : (0 : ℚ) < 10 ^ d := by positivity
  have hround := roundHalfEven_mono (mul_le_mul_of_nonneg_right h hpow.le)
  unfold roundTo
  exact div_le_div_of_nonneg_right (Int.cast_le.mpr hround) hpow.le

end PaperTrading.Lib
