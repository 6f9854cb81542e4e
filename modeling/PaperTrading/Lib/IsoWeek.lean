import Mathlib.Data.List.Induction
import Mathlib.Data.List.Lex
import Mathlib.Order.Basic
import PaperTrading.Lib.CalendarDate

/-!
# Weeks of the calendar and dates as texts

`isoWeek` is the year and number of a date's ISO week, computed from the Monday the first
week of a year begins on. Two dates are of one week exactly when they have the same Monday
(`isoWeek_eq_iff`), so no week is cut by the end of a year.

`Date.ofText` reads a date of the form YYYY-MM-DD. The texts of dates are ordered as the
dates are (`text_lt_iff`).
-/

namespace PaperTrading.Lib

namespace Date

/-! ## ISO weeks -/

/-- The Monday the first ISO week of a year begins on: the week of its first Thursday. -/
def isoWeek1Monday (year : ℕ) : ℤ :=
  let firstday : ℤ := daysBeforeYear year + 1
  let firstweekday := (firstday + 6) % 7
  if 3 < firstweekday then firstday - firstweekday + 7 else firstday - firstweekday

/-- `date.isocalendar`, the year and the week -/
def isoWeek (d : Date) : ℕ × ℤ :=
  let week := (d.ordinal - isoWeek1Monday d.year) / 7
  if week < 0 then (d.year - 1, (d.ordinal - isoWeek1Monday (d.year - 1)) / 7 + 1)
  else if 52 ≤ week ∧ isoWeek1Monday (d.year + 1) ≤ d.ordinal then (d.year + 1, 1)
  else (d.year, week + 1)

/-- The Monday on the day or before it. -/
def monday (d : Date) : ℤ := d.ordinal - (d.ordinal + 6) % 7

example : isoWeek ⟨2024, 12, 30, by decide, by decide, by decide⟩ = (2025, 1) := by decide

/-- The first week begins on a Monday, at most three days from the first of January. -/
theorem isoWeek1Monday_near (year : ℕ) : isoWeek1Monday year % 7 = 1 ∧
    (daysBeforeYear year : ℤ) + 1 - 3 ≤ isoWeek1Monday year ∧
    isoWeek1Monday year ≤ (daysBeforeYear year : ℤ) + 1 + 3 := by
  unfold isoWeek1Monday
  dsimp only
  split <;> omega

theorem daysInYear_cases (year : ℕ) : daysInYear year = 365 ∨ daysInYear year = 366 := by
  unfold daysInYear
  split
  · exact Or.inr rfl
  · exact Or.inl rfl

theorem daysBeforeYear_next {year : ℕ} (h : 1 ≤ year) :
    daysBeforeYear (year + 1) = daysBeforeYear year + daysInYear year := by
  obtain ⟨t, rfl⟩ := Nat.exists_eq_add_of_le' h
  exact daysBeforeYear_succ t

/-- A date is of the days of its year. -/
theorem ordinal_in (d : Date) : (daysBeforeYear d.year : ℤ) + 1 ≤ d.ordinal ∧
    d.ordinal ≤ daysBeforeYear d.year + daysInYear d.year := by
  have hmonth := d.month_in
  have hday := d.day_in
  have hend : _ ≤ daysInYear d.year := year_ends (isLeap d.year) d.month (by omega) hmonth.1
  unfold ordinal
  constructor <;> omega

theorem isoWeek1Monday_lt {year : ℕ} (h : 1 ≤ year) :
    isoWeek1Monday year < isoWeek1Monday (year + 1) := by
  have hnear := isoWeek1Monday_near year
  have hnext := isoWeek1Monday_near (year + 1)
  have hlength := daysInYear_cases year
  rw [daysBeforeYear_next h] at hnext
  omega

theorem isoWeek1Monday_mono {y z : ℕ} (hy : 1 ≤ y) (h : y ≤ z) :
    isoWeek1Monday y ≤ isoWeek1Monday z := by
  induction z, h using Nat.le_induction with
  | base => exact le_refl _
  | succ z hz ih => exact ih.trans (isoWeek1Monday_lt (hy.trans hz)).le

/-- What the week of a date says: its Monday is so many weeks into a year that has begun and
not yet ended. -/
theorem isoWeek_spec (d : Date) : 1 ≤ d.isoWeek.1 ∧
    isoWeek1Monday d.isoWeek.1 + 7 * (d.isoWeek.2 - 1) = d.monday ∧
    isoWeek1Monday d.isoWeek.1 ≤ d.monday ∧ d.monday < isoWeek1Monday (d.isoWeek.1 + 1) := by
  have hyear := d.year_in.1
  have hin := d.ordinal_in
  have hlength := daysInYear_cases d.year
  have hnear := isoWeek1Monday_near d.year
  have hnext := isoWeek1Monday_near (d.year + 1)
  rw [daysBeforeYear_next hyear] at hnext
  unfold isoWeek monday
  dsimp only
  by_cases hbefore : (d.ordinal - isoWeek1Monday d.year) / 7 < 0
  · rw [if_pos hbefore]
    -- the first of January of the first year is a Monday
    have hlater : 2 ≤ d.year := by
      by_contra hfirst
      have hone : d.year = 1 := by omega
      have hmonday : isoWeek1Monday 1 = 1 := by decide
      have hzero : daysBeforeYear 1 = 0 := by decide
      rw [hone] at hbefore hin
      omega
    obtain ⟨y, hy⟩ : ∃ y, d.year = y + 1 := ⟨d.year - 1, by omega⟩
    have hlast := isoWeek1Monday_near y
    have hdays := @daysBeforeYear_next y (by omega)
    have hcases := daysInYear_cases y
    rw [hy] at hin hnear hbefore ⊢
    rw [Nat.add_sub_cancel]
    refine ⟨by omega, ?_, ?_, ?_⟩ <;> dsimp only <;> omega
  · rw [if_neg hbefore]
    by_cases hafter : 52 ≤ (d.ordinal - isoWeek1Monday d.year) / 7 ∧
        isoWeek1Monday (d.year + 1) ≤ d.ordinal
    · rw [if_pos hafter]
      have hgrows := @isoWeek1Monday_lt (d.year + 1) (by omega)
      have hthird := isoWeek1Monday_near (d.year + 2)
      refine ⟨by omega, ?_, ?_, ?_⟩ <;> dsimp only <;> omega
    · rw [if_neg hafter]
      refine ⟨hyear, ?_, ?_, ?_⟩ <;> dsimp only <;> omega

/-- One week, one Monday. -/
theorem isoWeek_eq_iff {a b : Date} : a.isoWeek = b.isoWeek ↔ a.monday = b.monday := by
  obtain ⟨haone, ha, hale, halt⟩ := a.isoWeek_spec
  obtain ⟨hbone, hb, hble, hblt⟩ := b.isoWeek_spec
  constructor
  · intro h
    rw [← ha, ← hb, h]
  · intro h
    have hyear : a.isoWeek.1 = b.isoWeek.1 := by
      rcases Nat.lt_trichotomy a.isoWeek.1 b.isoWeek.1 with hlt | heq | hlt
      · have hmono := isoWeek1Monday_mono (Nat.le_add_left 1 _) hlt
        omega
      · exact heq
      · have hmono := isoWeek1Monday_mono (Nat.le_add_left 1 _) hlt
        omega
    rw [hyear] at ha
    exact Prod.ext hyear (by omega)

/-! ## Dates as texts -/

/-- The number some digits write. -/
def numeral (cs : List Char) : Option ℕ :=
  if cs.all Char.isDigit then some (cs.foldl (fun n c => 10 * n + (c.toNat - 48)) 0) else none

theorem digitChar_of_isDigit {c : Char} (h : c.isDigit = true) :
    Nat.digitChar (c.toNat - 48) = c ∧ c.toNat - 48 < 10 := by
  have hrange : 48 ≤ c.toNat ∧ c.toNat ≤ 57 := Char.isDigit_iff_toNat.mp h
  have hall : ∀ n < 10, Nat.digitChar n = Char.ofNat (n + 48) := by decide
  constructor
  · rw [hall _ (by omega), Nat.sub_add_cancel hrange.1, Char.ofNat_toNat]
  · omega

/-- The digits of the number are what was read. -/
theorem decimal_of_numeral {cs : List Char} : ∀ {n : ℕ}, numeral cs = some n →
    decimal cs.length n = cs := by
  induction cs using List.reverseRecOn with
  | nil => exact fun _ => rfl
  | append_singleton cs c ih =>
    intro n h
    unfold numeral at h ih
    split at h
    next hall =>
      rw [List.all_append, Bool.and_eq_true, List.all_cons, List.all_nil, Bool.and_true] at hall
      obtain ⟨hchar, hlt⟩ := digitChar_of_isDigit hall.2
      rw [List.foldl_append, List.foldl_cons, List.foldl_nil] at h
      rw [if_pos hall.1] at ih
      have hn := (Option.some.inj h).symm
      rw [List.length_append, List.length_singleton, decimal]
      rw [show n / 10 = cs.foldl (fun n c => 10 * n + (c.toNat - 48)) 0 by omega, ih rfl,
        show n % 10 = c.toNat - 48 by omega, hchar]
    next => cases h

/-- `date.fromisoformat`, of a text of the form YYYY-MM-DD -/
def ofText : List Char → Option Date
  | [y₁, y₂, y₃, y₄, s, m₁, m₂, s', d₁, d₂] =>
    match numeral [y₁, y₂, y₃, y₄], numeral [m₁, m₂], numeral [d₁, d₂] with
    | some y, some m, some d =>
      if h : (s = '-' ∧ s' = '-') ∧ (1 ≤ y ∧ y ≤ 9999) ∧ (1 ≤ m ∧ m ≤ 12) ∧
          (1 ≤ d ∧ d ≤ daysInMonth (isLeap y) m) then
        some ⟨y, m, d, h.2.1, h.2.2.1, h.2.2.2⟩
      else none
    | _, _, _ => none
  | _ => none

example : (ofText "2024-12-30".toList).map isoWeek = some (2025, 1) := by decide

/-- A text that is read is the text of the date. -/
theorem text_of_ofText {t : List Char} {d : Date} (h : ofText t = some d) : d.text = t := by
  unfold ofText at h
  split at h
  next y₁ y₂ y₃ y₄ s m₁ m₂ s' d₁ d₂ =>
    split at h
    next y m n hy hm hn =>
      split at h
      next hvalid =>
        cases h
        unfold text
        have hyear := decimal_of_numeral hy
        have hmonth := decimal_of_numeral hm
        have hday := decimal_of_numeral hn
        simp only [List.length_cons, List.length_nil, Nat.zero_add, Nat.reduceAdd] at hyear
        simp only [List.length_cons, List.length_nil, Nat.zero_add, Nat.reduceAdd] at hmonth hday
        rw [hyear, hmonth, hday, hvalid.1.1, hvalid.1.2]
        rfl
      next => cases h
    next => cases h
  next => cases h

theorem append_lt_append : ∀ {u v : List Char} (s t : List Char), u.length = v.length → u < v →
    u ++ s < v ++ t := by
  intro u
  induction u with
  | nil =>
    intro v s t hlength h
    cases v with
    | nil => exact absurd h (List.lt_irrefl _)
    | cons b v => cases hlength
  | cons a u ih =>
    intro v s t hlength h
    cases v with
    | nil => cases hlength
    | cons b v =>
      rw [List.cons_append, List.cons_append]
      rcases List.cons_lt_cons_iff.mp h with hlt | ⟨heq, hlt⟩
      · exact List.cons_lt_cons_iff.mpr (Or.inl hlt)
      · exact List.cons_lt_cons_iff.mpr
          (Or.inr ⟨heq, ih s t (Nat.succ.inj hlength) hlt⟩)

theorem append_left_lt (u : List Char) {s t : List Char} (h : s < t) : u ++ s < u ++ t := by
  induction u with
  | nil => exact h
  | cons a u ih =>
    rw [List.cons_append, List.cons_append]
    exact List.cons_lt_cons_iff.mpr (Or.inr ⟨rfl, ih⟩)

theorem digitChar_lt : ∀ a < 10, ∀ b < 10, a < b → Nat.digitChar a < Nat.digitChar b := by decide

/-- The digits of the greater number are the greater text. -/
theorem decimal_lt {w : ℕ} : ∀ {m n : ℕ}, n < 10 ^ w → m < n → decimal w m < decimal w n := by
  induction w with
  | zero =>
    intro m n hn h
    omega
  | succ w ih =>
    intro m n hn h
    rw [Nat.pow_succ] at hn
    rw [decimal, decimal]
    by_cases hfront : m / 10 < n / 10
    · exact append_lt_append _ _ (by rw [length_decimal, length_decimal])
        (ih (Nat.div_lt_of_lt_mul (by omega)) hfront)
    · have heq : m / 10 = n / 10 := by omega
      rw [heq]
      exact append_left_lt _ (List.cons_lt_cons_iff.mpr (Or.inl
        (digitChar_lt _ (Nat.mod_lt _ (by omega)) _ (Nat.mod_lt _ (by omega)) (by omega))))

/-- The later date has the greater text. -/
theorem text_lt {a b : Date} (h : a < b) : a.text < b.text := by
  have ha := a.day_lt
  have hb := b.day_lt
  have hby := b.year_in
  have ham := a.month_in
  have hbm := b.month_in
  rw [lt_iff] at h
  unfold digits at h
  unfold text
  rcases Nat.lt_trichotomy a.year b.year with hyear | hyear | hyear
  · exact append_lt_append _ _ (by rw [length_decimal, length_decimal])
      (decimal_lt (w := 4) (by omega) hyear)
  · rw [hyear]
    refine append_left_lt (decimal 4 b.year) (append_left_lt ['-'] ?_)
    rcases Nat.lt_trichotomy a.month b.month with hmonth | hmonth | hmonth
    · exact append_lt_append _ _ (by rw [length_decimal, length_decimal])
        (decimal_lt (w := 2) (by omega) hmonth)
    · rw [hmonth]
      have hday : decimal 2 a.day < decimal 2 b.day := decimal_lt (by omega) (by omega)
      exact append_left_lt (decimal 2 b.month) (append_left_lt ['-'] hday)
    · omega
  · omega

theorem text_lt_iff {a b : Date} : a.text < b.text ↔ a < b := by
  constructor
  · intro h
    rcases lt_trichotomy a b with hlt | rfl | hlt
    · exact hlt
    · exact absurd h (List.lt_irrefl _)
    · exact absurd (List.lt_trans h (text_lt hlt)) (List.lt_irrefl _)
  · exact text_lt

end Date

end PaperTrading.Lib
