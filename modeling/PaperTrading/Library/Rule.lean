import PaperTrading.Library.Engine

/-!
# The signal-exit rule

What the engine is for, with no cash in it: a position that is flat, locked
after a stop, or long since some day, moved once a day at the open. `Rule` is
what the position depends on: the signal of the close before each open, and
whether the low of a day reaches the stop of a long entered on an earlier one.

`sales` lists the positions sold at the opens and `allSales` adds the one sold
at the last close. What follows from the rule alone: a position is decided by
the days before it (`position_congr`), a stopped long is sold at the next open
and not re-entered before an off close (`sale_of_breach`,
`position_locked_while_on`), without stops the position is the last signal
(`position_long_iff_on`), and the sales lie one after another
(`allSales_ordered`).
-/

namespace PaperTrading.Library

/-- A position after the open of a day. `long e` was entered at the open of
day `e`. -/
inductive Position where
  | flat
  | locked
  | long (entry : ℕ)
deriving DecidableEq, Repr

/-- `on d`: the signal is on at the close before the open of day `d`.
`breached e d`: the low of day `d` is at or through the stop of a long entered
on day `e`. -/
structure Rule where
  on : ℕ → Bool
  breached : ℕ → ℕ → Bool

/-- A position that was sold: the day it was entered, the day it was sold, why,
and whether at that day's close rather than its open. -/
structure Sale where
  entry : ℕ
  exit : ℕ
  reason : Reason
  atClose : Bool := false
deriving DecidableEq, Repr

namespace Position

def isLong : Position → Bool
  | .long _ => true
  | _ => false

/-- The position after the open of day `d`, from the one after the open before. -/
def next (R : Rule) (d : ℕ) : Position → Position
  | .flat => if R.on d then .long d else .flat
  | .locked => if R.on d then .locked else .flat
  | .long e =>
    if R.breached e (d - 1) then if R.on d then .locked else .flat
    else if R.on d then .long e else .flat

/-- What is sold at the open of day `d`. -/
def sale (R : Rule) (d : ℕ) : Position → Option Sale
  | .long e =>
    if R.breached e (d - 1) then some { entry := e, exit := d, reason := .safetyStop }
    else if R.on d then none else some { entry := e, exit := d, reason := .signal }
  | _ => none

/-- What is sold at the close of day `d`, the last one. -/
def lastSale (R : Rule) (d : ℕ) : Position → Option Sale
  | .long e =>
    some { entry := e, exit := d, atClose := true
           reason := if R.breached e d then .safetyStop else .windowEnd }
  | _ => none

end Position

/-- The days on which a position was open: an exit at an open does not count
that day. -/
def Sale.days (s : Sale) : ℤ :=
  if s.atClose then (s.exit : ℤ) - s.entry + 1 else (s.exit : ℤ) - s.entry

/-- The first day after the position is gone: the day of a sale at the open,
the day after one at the close. -/
def Sale.over (s : Sale) : ℕ := if s.atClose then s.exit + 1 else s.exit

theorem Sale.days_eq (s : Sale) : s.days = (s.over : ℤ) - s.entry := by
  unfold Sale.days Sale.over
  split
  · omega
  · rfl

namespace Rule

variable (R : Rule) (start : ℕ)

/-- The position after the first `k` opens of a book that starts flat. -/
def position : ℕ → Position
  | 0 => .flat
  | k + 1 => (position k).next R (start + k)

/-- The positions sold at the first `k` opens. -/
def sales : ℕ → List Sale
  | 0 => []
  | k + 1 => sales k ++ ((R.position start k).sale R (start + k)).toList

/-- The positions sold over `k` days, the last one at the last close. -/
def allSales (k : ℕ) : List Sale :=
  R.sales start k ++ ((R.position start k).lastSale R (start + k - 1)).toList

/-- Of the first `k` days, those with a position after the open. -/
def daysLong : ℕ → ℤ
  | 0 => 0
  | k + 1 => daysLong k + if (R.position start (k + 1)).isLong then 1 else 0

variable {R : Rule} {start : ℕ}

/-! ## One open -/

/-- After an open, a long position is the one held before or one just entered. -/
theorem long_of_next {p : Position} {d e : ℕ} (h : p.next R d = .long e) :
    R.on d = true ∧ (p = .flat ∧ e = d ∨ p = .long e ∧ R.breached e (d - 1) = false) := by
  cases p with
  | flat =>
    simp only [Position.next] at h
    split at h
    next hon => exact ⟨hon, Or.inl ⟨rfl, by cases h; rfl⟩⟩
    next => cases h
  | locked =>
    simp only [Position.next] at h
    split at h <;> cases h
  | long e' =>
    simp only [Position.next] at h
    split at h
    · split at h <;> cases h
    next hb =>
      split at h
      next hon =>
        cases h
        exact ⟨hon, Or.inr ⟨rfl, by simpa using hb⟩⟩
      next => cases h

/-- A position is sold at an open exactly when it was long before and is not
after. -/
theorem sale_isSome_iff {p : Position} {d : ℕ} :
    (p.sale R d).isSome = true ↔ p.isLong = true ∧ (p.next R d).isLong = false := by
  cases p with
  | flat => simp [Position.sale, Position.isLong]
  | locked => simp [Position.sale, Position.isLong]
  | long e =>
    cases hb : R.breached e (d - 1) <;> cases hon : R.on d <;>
      simp [Position.sale, Position.next, Position.isLong, hb, hon]

theorem sale_entry {p : Position} {d : ℕ} {s : Sale} (h : p.sale R d = some s) :
    p = .long s.entry ∧ s.exit = d ∧ s.atClose = false := by
  cases p with
  | flat => cases h
  | locked => cases h
  | long e =>
    simp only [Position.sale] at h
    split at h
    · cases h
      exact ⟨rfl, rfl, rfl⟩
    · split at h
      · cases h
      · cases h
        exact ⟨rfl, rfl, rfl⟩

theorem lastSale_entry {p : Position} {d : ℕ} {s : Sale} (h : p.lastSale R d = some s) :
    p = .long s.entry ∧ s.exit = d ∧ s.atClose = true := by
  cases p with
  | flat => cases h
  | locked => cases h
  | long e =>
    cases h
    exact ⟨rfl, rfl, rfl⟩

/-! ## All opens -/

/-- A position was entered on one of the days so far. -/
theorem position_entry {k e : ℕ} (h : R.position start k = .long e) :
    start ≤ e ∧ e < start + k := by
  induction k generalizing e with
  | zero => cases h
  | succ k ih =>
    obtain ⟨-, ⟨-, rfl⟩ | ⟨hp, -⟩⟩ := long_of_next h
    · omega
    · have := ih hp
      omega

/-- The position after an open is decided by the closes and lows before it. -/
theorem position_congr {R' : Rule} {k : ℕ}
    (hon : ∀ d, start ≤ d → d < start + k → R.on d = R'.on d)
    (hbreach : ∀ e d, start ≤ e → e ≤ d → d + 1 < start + k →
      R.breached e d = R'.breached e d) :
    R.position start k = R'.position start k := by
  induction k with
  | zero => rfl
  | succ k ih =>
    have hp := ih (fun d h h' => hon d h (by omega)) fun e d h h' h'' => hbreach e d h h' (by omega)
    have hd := hon (start + k) (by omega) (by omega)
    show (R.position start k).next R _ = (R'.position start k).next R' _
    rw [← hp]
    cases hpos : R.position start k with
    | flat => simp only [Position.next, hd]
    | locked => simp only [Position.next, hd]
    | long e =>
      have he := position_entry hpos
      simp only [Position.next, hd,
        hbreach e (start + k - 1) he.1 (by omega) (by omega)]

/-! ## The stop -/

/-- A long whose stop a day's low reaches is sold at the next open. -/
theorem sale_of_breach {k e : ℕ} (h : R.position start k = .long e)
    (hb : R.breached e (start + k - 1) = true) :
    { entry := e, exit := start + k, reason := Reason.safetyStop } ∈ R.sales start (k + 1) := by
  show _ ∈ R.sales start k ++ _
  rw [h]
  simp [Position.sale, hb]

/-- What was sold stays sold. -/
theorem sales_subset {i k : ℕ} (h : i ≤ k) : R.sales start i ⊆ R.sales start k := by
  induction k with
  | zero =>
    obtain rfl : i = 0 := by omega
    exact fun _ h => h
  | succ k ih =>
    rcases Nat.lt_or_ge k i with hi | hi
    · obtain rfl : i = k + 1 := by omega
      exact fun _ h => h
    · intro s hs
      exact List.mem_append_left _ (ih hi hs)

/-- After a stop the book stays locked as long as every close since the stop's
day has the signal on. -/
theorem position_locked_while_on {k e : ℕ} (h : R.position start k = .long e)
    (hb : R.breached e (start + k - 1) = true) {j : ℕ}
    (hon : ∀ d, start + k ≤ d → d ≤ start + k + j → R.on d = true) :
    R.position start (k + j + 1) = .locked := by
  induction j with
  | zero =>
    show (R.position start k).next R (start + k) = .locked
    rw [h]
    simp only [Position.next, hb, hon (start + k) le_rfl (by omega), if_true]
  | succ j ih =>
    have hlock := ih fun d h h' => hon d h (by omega)
    show (R.position start (k + j + 1)).next R (start + (k + j + 1)) = .locked
    rw [hlock]
    simp only [Position.next, hon (start + (k + j + 1)) (by omega) (by omega), if_true]

/-- A lock is opened by an off close and by nothing else. -/
theorem position_of_locked {k : ℕ} (h : R.position start k = .locked) :
    R.position start (k + 1) = if R.on (start + k) then .locked else .flat := by
  show (R.position start k).next R (start + k) = _
  rw [h]
  rfl

/-- Where no low reaches a stop, the book is never locked. -/
theorem position_ne_locked (hno : ∀ e d, R.breached e d = false) (k : ℕ) :
    R.position start k ≠ .locked := by
  induction k with
  | zero => exact nofun
  | succ k ih =>
    show (R.position start k).next R (start + k) ≠ .locked
    cases hpos : R.position start k with
    | flat => simp only [Position.next]; split <;> exact nofun
    | locked => exact absurd hpos ih
    | long e =>
      simp only [Position.next, hno, Bool.false_eq_true, if_false]
      split <;> exact nofun

/-- Where no low reaches a stop, the position is the signal of the close
before. -/
theorem position_long_iff_on (hno : ∀ e d, R.breached e d = false) (k : ℕ) :
    (R.position start (k + 1)).isLong = R.on (start + k) := by
  show ((R.position start k).next R (start + k)).isLong = _
  cases hpos : R.position start k with
  | flat => cases hon : R.on (start + k) <;> simp [Position.next, Position.isLong, hon]
  | locked => exact absurd hpos (position_ne_locked hno k)
  | long e => cases hon : R.on (start + k) <;> simp [Position.next, Position.isLong, hno, hon]

/-! ## The sales in time -/

/-- A sale comes after its entry, both inside the days so far, and before any
position still held. -/
structure SoldBefore (start : ℕ) (p : Position) (day : ℕ) (s : Sale) : Prop where
  entry_ge : start ≤ s.entry
  entry_lt : s.entry < s.over
  over_le : s.over ≤ day
  held_later : ∀ e, p = .long e → s.over < e

theorem sales_soldBefore (R : Rule) (start k : ℕ) :
    (R.sales start k).Pairwise (fun a b => a.over < b.entry) ∧
    ∀ s ∈ R.sales start k, SoldBefore start (R.position start k) (start + k - 1) s := by
  induction k with
  | zero => exact ⟨List.Pairwise.nil, nofun⟩
  | succ k ih =>
    obtain ⟨hpair, hall⟩ := ih
    -- an earlier sale stays before whatever is held after this open
    have hold : ∀ s ∈ R.sales start k,
        SoldBefore start (R.position start (k + 1)) (start + (k + 1) - 1) s := by
      intro s hs
      obtain ⟨hge, hlt, hle, hlater⟩ := hall s hs
      refine ⟨hge, hlt, by omega, ?_⟩
      intro e he
      obtain ⟨-, ⟨-, rfl⟩ | ⟨hp, -⟩⟩ := long_of_next he
      · omega
      · exact hlater e hp
    show (R.sales start k ++ _).Pairwise _ ∧ ∀ s ∈ R.sales start k ++ _, _
    cases hsale : (R.position start k).sale R (start + k) with
    | none => simpa using ⟨hpair, hold⟩
    | some s =>
      obtain ⟨hp, hexit, hopen⟩ := sale_entry hsale
      have hentry := position_entry hp
      have hover : s.over = start + k := by simp [Sale.over, hopen, hexit]
      have hnot : (R.position start (k + 1)).isLong = false :=
        (sale_isSome_iff.mp (by rw [hsale]; rfl)).2
      refine ⟨?_, ?_⟩
      · rw [List.pairwise_append]
        refine ⟨hpair, List.pairwise_singleton _ _, ?_⟩
        intro a ha b hb
        obtain rfl : b = s := by simpa using hb
        exact (hall a ha).held_later b.entry hp
      · intro a ha
        rcases List.mem_append.mp ha with ha | ha
        · exact hold a ha
        · obtain rfl : a = s := by simpa using ha
          refine ⟨hentry.1, by omega, by omega, ?_⟩
          intro e he
          rw [he] at hnot
          cases hnot

/-- The sales of a run lie inside its days, one after another. -/
theorem allSales_ordered (R : Rule) (start k : ℕ) :
    (R.allSales start k).Pairwise (fun a b => a.over < b.entry) ∧
    ∀ s ∈ R.allSales start k, start ≤ s.entry ∧ s.entry < s.over ∧ s.over ≤ start + k := by
  obtain ⟨hpair, hall⟩ := sales_soldBefore R start k
  have hin : ∀ s ∈ R.sales start k, start ≤ s.entry ∧ s.entry < s.over ∧ s.over ≤ start + k := by
    intro s hs
    obtain ⟨hge, hlt, hle, -⟩ := hall s hs
    exact ⟨hge, hlt, by omega⟩
  unfold allSales
  cases hsale : (R.position start k).lastSale R (start + k - 1) with
  | none => simpa using ⟨hpair, hin⟩
  | some s =>
    obtain ⟨hp, hexit, hclose⟩ := lastSale_entry hsale
    have hentry := position_entry hp
    have hover : s.over = start + k - 1 + 1 := by simp [Sale.over, hclose, hexit]
    refine ⟨?_, ?_⟩
    · rw [List.pairwise_append]
      refine ⟨hpair, List.pairwise_singleton _ _, ?_⟩
      intro a ha b hb
      obtain rfl : b = s := by simpa using hb
      exact (hall a ha).held_later b.entry hp
    · intro a ha
      rcases List.mem_append.mp ha with ha | ha
      · exact hin a ha
      · obtain rfl : a = s := by simpa using ha
        exact ⟨hentry.1, by omega, by omega⟩

/-! ## The days -/

/-- The days so far of a position still held. -/
def heldDays (p : Position) (day : ℕ) : ℤ :=
  match p with
  | .long e => (day : ℤ) - e
  | _ => 0

/-- The days with a position are those of the sales and of the position held. -/
theorem daysLong_eq (R : Rule) (start k : ℕ) :
    R.daysLong start k =
      ((R.sales start k).map Sale.days).sum + heldDays (R.position start k) (start + k) := by
  induction k with
  | zero => rfl
  | succ k ih =>
    rw [daysLong, ih, sales, List.map_append, List.sum_append]
    show _ = _ + heldDays ((R.position start k).next R (start + k)) _
    have hnext : R.position start (k + 1) = (R.position start k).next R (start + k) := rfl
    rw [hnext]
    cases R.position start k with
    | flat =>
      cases hon : R.on (start + k) <;>
        simp [Position.next, Position.sale, Position.isLong, heldDays, hon]
    | locked =>
      cases hon : R.on (start + k) <;>
        simp [Position.next, Position.sale, Position.isLong, heldDays, hon]
    | long e =>
      cases hb : R.breached e (start + k - 1) <;> cases hon : R.on (start + k) <;>
        simp [Position.next, Position.sale, Position.isLong, heldDays, Sale.days, hb, hon]
      ring

/-- The days with a position are those of all sales. -/
theorem daysLong_allSales (R : Rule) (start k : ℕ) (hk : 0 < k) :
    R.daysLong start k = ((R.allSales start k).map Sale.days).sum := by
  rw [daysLong_eq, allSales, List.map_append, List.sum_append]
  cases R.position start k with
  | flat => simp [Position.lastSale, heldDays]
  | locked => simp [Position.lastSale, heldDays]
  | long e =>
    simp only [Position.lastSale, heldDays, Option.toList_some, List.map_cons, List.map_nil,
      List.sum_cons, List.sum_nil, Sale.days, if_true]
    omega

end Rule

end PaperTrading.Library
