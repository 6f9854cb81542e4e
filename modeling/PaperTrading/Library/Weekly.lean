import PaperTrading.Library.Live

/-!
# Time-series momentum by the week

One strategy of `library/catalog.py` in full, `tsmom1w`: at each Sunday close,
long if the close is above the Sunday close `weeks` weeks earlier, held until the
next Sunday. Its mask of finite inputs is `_eval_ready`: warm from the first
evaluation that has its earlier week, and nowhere at all on a tape where a later
evaluation misses it.
-/

namespace PaperTrading.Library

/-- `week_number`: Monday-based week index of a UTC day. -/
def weekNumber (ts : ℤ) : ℤ := (ts / DAY_MS + 3) / 7

/-- `is_week_end`: Sundays. 1970-01-01 was a Thursday. -/
def isWeekEnd (ts : ℤ) : Bool := (ts / DAY_MS + 3) % 7 = 6

/-- `np.flatnonzero(is_week_end(bars.ts))` -/
def weekEnds (bars : List Day) : List ℕ :=
  (List.range bars.length).filter fun i => isWeekEnd (tsAt bars i)

/-- Every evaluation that has one `k` evaluations earlier, with that one. -/
def evaluations (k : ℕ) (idx : List ℕ) : List (ℕ × ℕ) := (idx.drop k).zip idx

/-- The evaluation `i` is `k` weeks after `prev`. -/
def weeksApart (bars : List Day) (k : ℕ) (i prev : ℕ) : Bool :=
  weekNumber (tsAt bars i) - weekNumber (tsAt bars prev) = k

/-- `value[i]` of `_tsmom_periodic`, `none` for NaN. A close divided by zero is
infinite or NaN, so positive exactly when it is. -/
def tsmomValue (bars : List Day) (k i : ℕ) : Option ℚ :=
  match (evaluations k (weekEnds bars)).find? fun e => e.1 = i with
  | none => none
  | some (i, prev) =>
    if weeksApart bars k i prev then
      let close := (day bars i).close
      let before := (day bars prev).close
      some (if (if before = 0 then 0 < close else 0 < close / before - 1) then 1 else -1)
    else none

/-- `hold_between`: the position changes on evaluation days only. -/
def holdBetween (mask : ℕ → Bool) (value : ℕ → Option ℚ) : List ℕ → Bool → List Bool
  | [], _ => []
  | i :: is, state =>
    let state := if mask i then (match value i with
      | none => false
      | some v => decide (0 < v)) else state
    state :: holdBetween mask value is state

/-- `_tsmom_weekly` -/
def tsmomWeekly (weeks : ℕ) (bars : List Day) : List Bool :=
  holdBetween (fun i => isWeekEnd (tsAt bars i)) (tsmomValue bars weeks) (List.range bars.length)
    false

/-- The loop of `_eval_ready`: the first evaluation with its earlier period.
`none` when a later one misses its own. -/
def evalFirst (apart : ℕ → ℕ → Bool) : List (ℕ × ℕ) → Option ℕ → Option (Option ℕ)
  | [], first => some first
  | (i, prev) :: es, first =>
    if apart i prev then evalFirst apart es (some (first.getD i))
    else if first.isSome then none
    else evalFirst apart es first

/-- `_eval_ready`, on week ends, `start_j` being `lag` as at its callers. -/
def evalReady (bars : List Day) (lag : ℕ) : List Bool :=
  let zeros := List.replicate bars.length false
  if lag = 0 ∨ (weekEnds bars).length ≤ lag then zeros
  else
    match evalFirst (weeksApart bars lag) (evaluations lag (weekEnds bars)) none with
    | some (some first) => (List.range bars.length).map fun i => decide (first ≤ i)
    | _ => zeros

theorem holdBetween_length (mask : ℕ → Bool) (value : ℕ → Option ℚ) (is : List ℕ) :
    ∀ state, (holdBetween mask value is state).length = is.length := by
  induction is with
  | nil => exact fun _ => rfl
  | cons i is ih => exact fun state => congrArg Nat.succ (ih _)

theorem evalReady_length (lag : ℕ) (bars : List Day) :
    (evalReady bars lag).length = bars.length := by
  unfold evalReady
  dsimp only
  split
  · exact List.length_replicate
  · split
    · rw [List.length_map, List.length_range]
    · exact List.length_replicate

def LIBRARY_STOP_FRAC : ℚ := 1 / 5

/-- `lib.tsmom1w` -/
def tsmom1w : LibraryStrategy where
  key := "tsmom1w"
  signal := tsmomWeekly 1
  signalReady := fun bars => evalReady bars 1
  canonical := true
  stopFrac := LIBRARY_STOP_FRAC
  signal_length := by
    intro bars
    rw [tsmomWeekly, holdBetween_length, List.length_range]
  ready_length := evalReady_length 1

end PaperTrading.Library
