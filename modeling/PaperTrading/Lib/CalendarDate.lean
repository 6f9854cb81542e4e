import Mathlib.Order.Defs.LinearOrder
import Mathlib.Order.Lattice
import Mathlib.Data.Nat.Notation
import Mathlib.Algebra.Group.Nat.Defs
import Mathlib.Algebra.GroupWithZero.Nat

/-!
# Dates of the calendar

A date of the proleptic Gregorian calendar. It is ordered as its text of the form YYYY-MM-DD
is, year first, and `ordinal` numbers the days. The two agree (`ordinal_lt`).
-/

namespace PaperTrading.Lib

/-- `n` in `w` digits. -/
def decimal : ℕ → ℕ → List Char
  | 0, _ => []
  | w + 1, n => decimal w (n / 10) ++ [Nat.digitChar (n % 10)]

@[simp] theorem length_decimal (w : ℕ) : ∀ n, (decimal w n).length = w := by
  induction w with
  | zero => exact fun _ => rfl
  | succ w ih =>
    intro n
    rw [decimal, List.length_append, ih]
    rfl

theorem digitChar_inj : ∀ a < 10, ∀ b < 10, Nat.digitChar a = Nat.digitChar b → a = b := by decide

/-- Different numbers have different digits. -/
theorem decimal_inj {w : ℕ} : ∀ {m n : ℕ}, m < 10 ^ w → n < 10 ^ w → decimal w m = decimal w n →
    m = n := by
  induction w with
  | zero =>
    intro m n hm hn _
    omega
  | succ w ih =>
    intro m n hm hn h
    obtain ⟨hfront, hlast⟩ := List.append_inj h (by rw [length_decimal, length_decimal])
    have hdigit := digitChar_inj (m % 10) (Nat.mod_lt _ (by omega)) (n % 10)
      (Nat.mod_lt _ (by omega)) (List.singleton_inj.mp hlast)
    rw [Nat.pow_succ] at hm hn
    have hrest := ih (Nat.div_lt_of_lt_mul (by omega)) (Nat.div_lt_of_lt_mul (by omega)) hfront
    omega

def isLeap (year : ℕ) : Bool := year % 4 = 0 && (year % 100 ≠ 0 || year % 400 = 0)

def daysInMonth (leap : Bool) : ℕ → ℕ
  | 2 => if leap then 29 else 28
  | 4 | 6 | 9 | 11 => 30
  | _ => 31

/-- Days of the year before the first of a month. -/
def daysBeforeMonth (leap : Bool) (month : ℕ) : ℕ :=
  ((List.range' 1 (month - 1)).map (daysInMonth leap)).sum

/-- Days before the first of January. -/
def daysBeforeYear (year : ℕ) : ℕ :=
  (year - 1) * 365 + (year - 1) / 4 - (year - 1) / 100 + (year - 1) / 400

structure Date where
  year : ℕ
  month : ℕ
  day : ℕ
  year_in : 1 ≤ year ∧ year ≤ 9999
  month_in : 1 ≤ month ∧ month ≤ 12
  day_in : 1 ≤ day ∧ day ≤ daysInMonth (isLeap year) month
deriving DecidableEq

namespace Date

/-- The digits of the date in order. -/
def digits (d : Date) : ℕ := d.year * 10000 + d.month * 100 + d.day

/-- `YYYY-MM-DD` -/
def text (d : Date) : List Char :=
  decimal 4 d.year ++ '-' :: (decimal 2 d.month ++ '-' :: decimal 2 d.day)

/-- `date.toordinal` -/
def ordinal (d : Date) : ℤ :=
  daysBeforeYear d.year + daysBeforeMonth (isLeap d.year) d.month + d.day

theorem daysInMonth_le (leap : Bool) (month : ℕ) : daysInMonth leap month ≤ 31 := by
  unfold daysInMonth
  split
  · cases leap <;> decide
  all_goals omega

theorem day_lt (d : Date) : d.day < 100 := by
  have hday := d.day_in.2.trans (daysInMonth_le _ _)
  omega

theorem digits_injective : Function.Injective digits := by
  intro a b h
  have ha := a.day_lt
  have hb := b.day_lt
  have ham := a.month_in
  have hbm := b.month_in
  unfold digits at h
  have hyear : a.year = b.year := by omega
  have hmonth : a.month = b.month := by omega
  have hday : a.day = b.day := by omega
  cases a
  cases b
  cases hyear
  cases hmonth
  cases hday
  rfl

theorem text_injective : Function.Injective text := by
  intro a b h
  unfold text at h
  have ha := a.day_lt
  have hb := b.day_lt
  have hay := a.year_in
  have hby := b.year_in
  have ham := a.month_in
  have hbm := b.month_in
  obtain ⟨hyear, h⟩ := List.append_inj h (by rw [length_decimal, length_decimal])
  obtain ⟨hmonth, h⟩ := List.append_inj (List.cons_inj_right _ |>.mp h)
    (by rw [length_decimal, length_decimal])
  have hday := List.cons_inj_right _ |>.mp h
  have hyear := decimal_inj (by omega) (by omega) hyear
  have hmonth := decimal_inj (by omega) (by omega) hmonth
  have hday := decimal_inj (by omega) (by omega) hday
  apply digits_injective
  unfold digits
  rw [hyear, hmonth, hday]

instance : LinearOrder Date := LinearOrder.lift' digits digits_injective

theorem lt_iff {a b : Date} : a < b ↔ a.digits < b.digits := Iff.rfl

/-! ## The days before -/

theorem month_ends (leap : Bool) : ∀ m < 13, 1 ≤ m → ∀ n < 13, m < n →
    daysBeforeMonth leap m + daysInMonth leap m ≤ daysBeforeMonth leap n := by
  cases leap <;> decide

theorem year_ends (leap : Bool) : ∀ m < 13, 1 ≤ m →
    daysBeforeMonth leap m + daysInMonth leap m ≤ if leap then 366 else 365 := by
  cases leap <;> decide

/-- The days of a year. -/
def daysInYear (year : ℕ) : ℕ := if isLeap year then 366 else 365

theorem daysBeforeYear_succ (t : ℕ) :
    daysBeforeYear (t + 2) = daysBeforeYear (t + 1) + daysInYear (t + 1) := by
  have h4 : (t + 1) / 4 = t / 4 + if (t + 1) % 4 = 0 then 1 else 0 := by split <;> omega
  have h100 : (t + 1) / 100 = t / 100 + if (t + 1) % 100 = 0 then 1 else 0 := by split <;> omega
  have h400 : (t + 1) / 400 = t / 400 + if (t + 1) % 400 = 0 then 1 else 0 := by split <;> omega
  -- a year of the century divides by four, one of the fourth century by a hundred
  have hcentury : (t + 1) % 100 = 0 → (t + 1) % 4 = 0 := by omega
  have hfourth : (t + 1) % 400 = 0 → (t + 1) % 100 = 0 := by omega
  have hle : t / 100 ≤ t := Nat.div_le_self _ _
  unfold daysBeforeYear daysInYear isLeap
  rw [show t + 2 - 1 = t + 1 from rfl, show t + 1 - 1 = t from rfl, h4, h100, h400]
  by_cases c4 : (t + 1) % 4 = 0 <;> by_cases c100 : (t + 1) % 100 = 0 <;>
    by_cases c400 : (t + 1) % 400 = 0 <;> simp [c4, c100, c400] at hcentury hfourth ⊢ <;> omega

/-- A year is over before the next one begins. -/
theorem daysBeforeYear_le {y z : ℕ} (hy : 1 ≤ y) (h : y < z) :
    daysBeforeYear y + daysInYear y ≤ daysBeforeYear z := by
  obtain ⟨t, rfl⟩ := Nat.exists_eq_add_of_le' hy
  induction z, (show t + 2 ≤ z from h) using Nat.le_induction with
  | base => exact (daysBeforeYear_succ t).ge
  | succ z hz ih =>
    have hstep := daysBeforeYear_succ (z - 1)
    rw [show z - 1 + 2 = z + 1 by omega, show z - 1 + 1 = z by omega] at hstep
    have hbefore := ih (by omega)
    omega

/-- The later date has the greater number. -/
theorem ordinal_lt {a b : Date} (h : a < b) : a.ordinal < b.ordinal := by
  have ha := a.day_in
  have hb := b.day_in
  have ham := a.month_in
  have hbm := b.month_in
  have hend : _ ≤ daysInYear a.year := year_ends (isLeap a.year) a.month (by omega) ham.1
  rw [lt_iff] at h
  have hady := a.day_lt
  have hbdy := b.day_lt
  unfold digits at h
  unfold ordinal
  rcases Nat.lt_trichotomy a.year b.year with hyear | hyear | hyear
  · have hyears := daysBeforeYear_le a.year_in.1 hyear
    omega
  · rw [hyear] at ha hend ⊢
    rcases Nat.lt_trichotomy a.month b.month with hmonth | hmonth | hmonth
    · have hmonths := month_ends (isLeap b.year) a.month (by omega) ham.1 b.month (by omega) hmonth
      omega
    · rw [hmonth]
      omega
    · omega
  · omega

theorem ordinal_le {a b : Date} (h : a ≤ b) : a.ordinal ≤ b.ordinal := by
  rcases h.lt_or_eq with hlt | rfl
  · exact (ordinal_lt hlt).le
  · exact le_refl _

end Date

end PaperTrading.Lib
