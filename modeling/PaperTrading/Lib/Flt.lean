import Mathlib.Algebra.Field.Rat
import Mathlib.Algebra.Order.Ring.Rat
import Mathlib.Tactic.Basic
import PaperTrading.Lib.Decimal

/-!
# Numbers that may be infinite or no number

`Flt` is what a floating-point value can be: a finite number, here exact, one of the
infinities, or `nan`. Every comparison with `nan` is false, so a check that rejects below
a bound lets it through and a check that accepts from a bound on does not.
-/

namespace PaperTrading.Lib

inductive Flt where
  | fin (q : ℚ)
  | inf (neg : Bool)
  | nan
deriving DecidableEq, Repr

namespace Flt

instance : Coe ℚ Flt := ⟨fin⟩

def isFinite : Flt → Bool
  | fin _ => true
  | _ => false

/-- `a < b` -/
def lt : Flt → Flt → Bool
  | nan, _ | _, nan => false
  | fin a, fin b => a < b
  | fin _, inf neg => !neg
  | inf neg, fin _ => neg
  | inf a, inf b => a && !b

/-- `a <= b` -/
def le : Flt → Flt → Bool
  | nan, _ | _, nan => false
  | fin a, fin b => a ≤ b
  | fin _, inf neg => !neg
  | inf neg, fin _ => neg
  | inf a, inf b => a || !b

def neg : Flt → Flt
  | fin q => fin (-q)
  | inf neg => inf !neg
  | nan => nan

def add : Flt → Flt → Flt
  | nan, _ | _, nan => nan
  | fin a, fin b => fin (a + b)
  | inf a, inf b => if a = b then inf a else nan
  | inf a, fin _ => inf a
  | fin _, inf b => inf b

def sub (a b : Flt) : Flt := a.add b.neg

def mul : Flt → Flt → Flt
  | nan, _ | _, nan => nan
  | fin a, fin b => fin (a * b)
  | inf a, inf b => inf (a != b)
  | inf a, fin b => if b = 0 then nan else inf (a != decide (b < 0))
  | fin a, inf b => if a = 0 then nan else inf (decide (a < 0) != b)

/-- The quotient by a positive number. -/
def divBy (a : Flt) (d : ℚ) : Flt := a.mul (fin d⁻¹)

/-- The quotient by a number other than zero. -/
def div (a : Flt) : Flt → Flt
  | fin d => a.divBy d
  | inf _ => if a.isFinite then fin 0 else nan
  | nan => nan

/-- `max(a, b)` of arrays: `nan` if one is. -/
def maximum : Flt → Flt → Flt
  | nan, _ | _, nan => nan
  | a, b => if lt a b then b else a

/-- `sum` -/
def sum (l : List Flt) : Flt := l.foldl add (fin 0)

/-- `round(a, d)` -/
def round (d : ℕ) : Flt → Flt
  | fin q => fin (roundTo d q)
  | a => a

/-- `f"{a:.df}"` -/
def text (d : ℕ) : Flt → String
  | fin q => fixed d q
  | inf neg => if neg then "-inf" else "inf"
  | nan => "nan"

@[simp] theorem lt_fin (a b : ℚ) : lt (fin a) (fin b) = decide (a < b) := rfl

@[simp] theorem le_fin (a b : ℚ) : le (fin a) (fin b) = decide (a ≤ b) := rfl

theorem exists_of_isFinite {a : Flt} (h : a.isFinite = true) : ∃ q, a = fin q := by
  cases a with
  | fin q => exact ⟨q, rfl⟩
  | inf _ => cases h
  | nan => cases h

/-- A finite number from a finite bound on. -/
theorem le_and_finite {b : ℚ} {a : Flt} :
    le (fin b) a = true ∧ a.isFinite = true ↔ ∃ q, a = fin q ∧ b ≤ q := by
  constructor
  · rintro ⟨hle, hfin⟩
    obtain ⟨q, rfl⟩ := exists_of_isFinite hfin
    exact ⟨q, rfl, of_decide_eq_true hle⟩
  · rintro ⟨q, rfl, hle⟩
    exact ⟨decide_eq_true hle, rfl⟩

end Flt

end PaperTrading.Lib

/-!
## Doubles

`toDouble q` is the double next to `q`, ties to even: the nearest multiple of the unit in
the last place of its binade. The exponent is not bounded, so there is no overflow and no
gradual underflow.
-/

namespace PaperTrading.Lib

/-- The exponent of the power of two at or below `|q|`. -/
def binade (q : ℚ) : ℤ :=
  let d : ℤ := (Nat.log2 q.num.natAbs : ℤ) - Nat.log2 q.den
  if (2 : ℚ) ^ d ≤ |q| then d else d - 1

/-- The double next to `q`. -/
def toDouble (q : ℚ) : ℚ :=
  if q = 0 then 0
  else roundHalfEven (q / (2 : ℚ) ^ (binade q - 52)) * (2 : ℚ) ^ (binade q - 52)

example : toDouble (1 / 10) = 3602879701896397 / 36028797018963968 := by decide +kernel

end PaperTrading.Lib
