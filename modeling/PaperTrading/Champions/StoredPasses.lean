import PaperTrading.Champions.Archive
import PaperTrading.Lib.Latest

/-!
# The startup backfill

`_stored_library_latest` gathers the passes of the discovery log and of
`library_results.json` and keeps the newest of each name;
`_backfill_stored_passes_unlocked` seats those that are neither seated nor blocked.
`instant` is `_instant`: the point in time a timestamp stands for, if it can be read.

The passes are picked out before the timestamps are compared, so a fail that is newer
than a stored pass is not seen. `backfill_newest_iff` says when that matters.
-/

namespace PaperTrading.Champions

open PaperTrading.Lib

/-- `latest_eval_per_strategy`: the log is stored newest first. -/
def latestEvalPerStrategy (seen : List String) : List EvalRow → List EvalRow
  | [] => []
  | row :: log =>
    if row.strategy = "" ∨ row.strategy ∈ seen then latestEvalPerStrategy seen log
    else row :: latestEvalPerStrategy (row.strategy :: seen) log

/-- The evaluations the backfill goes through. `stored` are the values of
`library_results.json`. -/
def considered (log stored : List EvalRow) : List EvalRow :=
  latestEvalPerStrategy [] log ++ stored

/-- `library_pass_record` -/
def libraryPassRecord (claimNames : List String) (row : EvalRow) : Bool :=
  row.strategy ∈ claimNames && verdictQualified row

section
variable (claimNames : List String) (instant : String → Option ℕ)

/-- `consider` -/
def consider (newest : String → Option EvalRow) (row : EvalRow) : String → Option EvalRow :=
  if libraryPassRecord claimNames row then
    Function.update newest row.strategy
      (later (fun r => instant r.testedAt) (newest row.strategy) row)
  else newest

/-- `_stored_library_latest` -/
def storedLibraryLatest (log stored : List EvalRow) : List EvalRow :=
  claimNames.filterMap ((considered log stored).foldl (consider claimNames instant) fun _ => none)

/-- `_retired_after_latest_pass` -/
def retiredAfterLatestPass (b : Book) (record : EvalRow) : Bool :=
  match b.archive record.strategy with
  | none => false
  | some row =>
    match instant row.retiredAt, instant record.testedAt with
    | some retiredAt, some testedAt => testedAt ≤ retiredAt
    | _, _ => true

/-- The records the backfill hands on. -/
def backfillRecords (log stored : List EvalRow) (b : Book) : List EvalRow :=
  (storedLibraryLatest claimNames instant log stored).filter
    fun r => !retiredAfterLatestPass instant b r

/-- `_backfill_stored_passes_unlocked` on what is stored. -/
def startupBackfill (log stored : List EvalRow) (stamp : String) (b : Book) : Book :=
  let records := backfillRecords claimNames instant log stored b
  b.backfill claimNames records ((records.map (·.strategy)).filter b.isRetired) stamp

/-! ## What it should seat -/

/-- The newest stored evaluation of a name, pass or fail: of the log's newest and the
stored one the later. -/
def newestStored (log stored : List EvalRow) (name : String) : Option EvalRow :=
  latest (fun r => instant r.testedAt) ((considered log stored).filter fun r => r.strategy = name)

/-- The name is not seated or graduated, and not retired since this evaluation. -/
def Unblocked (b : Book) (r : EvalRow) : Prop :=
  r.strategy ∉ b.pool.map (·.name) ∧ r.strategy ∉ b.graduatedNames ∧
    retiredAfterLatestPass instant b r = false

/-- The backfill seats just the names whose newest evaluation is a pass. -/
def SeatsOnNewest (log stored : List EvalRow) (stamp : String) (b : Book) : Prop :=
  ∀ name, (name ∈ (startupBackfill claimNames instant log stored stamp b).pool.map (·.name) ∧
      name ∉ b.pool.map (·.name)) ↔
    ∃ e, newestStored instant log stored name = some e ∧
      libraryPassRecord claimNames e = true ∧ Unblocked instant b e

/-- No name has a newest evaluation that is no pass and beside it an older pass that could
be seated. -/
def NoStalePass (log stored : List EvalRow) (b : Book) : Prop :=
  ∀ name e, newestStored instant log stored name = some e →
    libraryPassRecord claimNames e = false →
      ∀ r ∈ considered log stored, r.strategy = name → libraryPassRecord claimNames r = true →
        ¬ Unblocked instant b r

end

/-! ## The newest pass -/

section
variable {claimNames : List String} {instant : String → Option ℕ} {log stored : List EvalRow}
  {stamp : String} {b : Book}

theorem consider_pass {newest : String → Option EvalRow} {row : EvalRow}
    (h : libraryPassRecord claimNames row = true) :
    consider claimNames instant newest row = Function.update newest row.strategy
      (later (fun r => instant r.testedAt) (newest row.strategy) row) := if_pos h

theorem consider_fail {newest : String → Option EvalRow} {row : EvalRow}
    (h : ¬ libraryPassRecord claimNames row = true) :
    consider claimNames instant newest row = newest := if_neg h

theorem foldl_consider (rows : List EvalRow) (name : String) :
    rows.foldl (consider claimNames instant) (fun _ => none) name =
      latest (fun r => instant r.testedAt)
        ((rows.filter fun r => r.strategy = name).filter (libraryPassRecord claimNames)) := by
  induction rows using List.reverseRecOn with
  | nil => rfl
  | append_singleton rows r ih =>
    rw [List.foldl_append, List.foldl_cons, List.foldl_nil, List.filter_append, List.filter_append]
    by_cases hpass : libraryPassRecord claimNames r = true
    · rw [consider_pass hpass]
      by_cases hname : r.strategy = name
      · subst hname
        rw [Function.update_self, ih, List.filter_cons_of_pos (by simp), List.filter_nil,
          List.filter_cons_of_pos hpass, List.filter_nil, latest_append_singleton]
      · rw [Function.update_of_ne (Ne.symm hname), ih, List.filter_cons_of_neg (by simpa using hname),
          List.filter_nil, List.filter_nil, List.append_nil]
    · rw [consider_fail hpass, ih]
      by_cases hname : r.strategy = name
      · rw [List.filter_cons_of_pos (by simpa using hname), List.filter_nil,
          List.filter_cons_of_neg hpass, List.filter_nil, List.append_nil]
      · rw [List.filter_cons_of_neg (by simpa using hname), List.filter_nil, List.filter_nil,
          List.append_nil]

/-- The newest stored pass of a name. -/
def newestPass (claimNames : List String) (instant : String → Option ℕ)
    (log stored : List EvalRow) (name : String) : Option EvalRow :=
  latest (fun r => instant r.testedAt)
    (((considered log stored).filter fun r => r.strategy = name).filter
      (libraryPassRecord claimNames))

theorem newestPass_spec {name : String} {p : EvalRow}
    (h : newestPass claimNames instant log stored name = some p) :
    p ∈ considered log stored ∧ p.strategy = name ∧ libraryPassRecord claimNames p = true := by
  obtain ⟨hmem, hpass⟩ := List.mem_filter.mp (latest_max h).1
  obtain ⟨hmem, hname⟩ := List.mem_filter.mp hmem
  exact ⟨hmem, of_decide_eq_true hname, hpass⟩

theorem mem_storedLibraryLatest {r : EvalRow} :
    r ∈ storedLibraryLatest claimNames instant log stored ↔
      newestPass claimNames instant log stored r.strategy = some r := by
  unfold storedLibraryLatest
  rw [List.mem_filterMap]
  constructor
  · rintro ⟨name, -, hr⟩
    rw [foldl_consider] at hr
    have hr : newestPass claimNames instant log stored name = some r := hr
    have hname := (newestPass_spec hr).2.1
    rw [hname]
    exact hr
  · intro h
    have hpass := (newestPass_spec h).2.2
    unfold libraryPassRecord at hpass
    rw [Bool.and_eq_true, decide_eq_true_eq] at hpass
    refine ⟨r.strategy, hpass.1, ?_⟩
    rw [foldl_consider]
    exact h

/-- A pass that is not newer than one that is blocked is blocked. -/
theorem Unblocked.atMost {p r : EvalRow} (hname : r.strategy = p.strategy)
    (hle : AtMost (fun r => instant r.testedAt) r p) (h : Unblocked instant b r) :
    Unblocked instant b p := by
  obtain ⟨hpool, hgrad, hretired⟩ := h
  refine ⟨hname ▸ hpool, hname ▸ hgrad, ?_⟩
  unfold retiredAfterLatestPass at hretired ⊢
  rw [hname] at hretired
  cases harch : b.archive p.strategy with
  | none => rfl
  | some row =>
    rw [harch] at hretired
    dsimp only at hretired ⊢
    split at hretired
    next retiredAt testedAt hret htest =>
      obtain ⟨t, ht, hle⟩ := hle testedAt htest
      rw [hret, show instant p.testedAt = some t from ht]
      exact decide_eq_false fun hno => of_decide_eq_false hretired (hle.trans hno)
    next => cases hretired

theorem mem_startupBackfill {name : String} :
    (name ∈ (startupBackfill claimNames instant log stored stamp b).pool.map (·.name) ∧
        name ∉ b.pool.map (·.name)) ↔
      Seating.SeatedBy claimNames b.graduatedNames
        (fun n => n ∈ ((backfillRecords claimNames instant log stored b).map
          (·.strategy)).filter b.isRetired)
        (backfillStart b) (backfillRecords claimNames instant log stored b) name := by
  obtain ⟨hpast, -, hadm⟩ := Seating.library_fold claimNames b.graduatedNames
    (fun n => decide (n ∈ ((backfillRecords claimNames instant log stored b).map
      (·.strategy)).filter b.isRetired))
    stamp (backfillStart_admitted b) (backfillRecords claimNames instant log stored b)
  rw [← hadm]
  unfold startupBackfill Book.backfill
  dsimp only
  split
  next hnone =>
    rw [show (Book.backfillSeats claimNames b _ _ stamp).admitted =
      (List.foldl _ (backfillStart b) _).admitted from rfl] at hnone
    rw [hnone]
    exact iff_of_false (fun h => h.2 h.1) List.not_mem_nil
  next =>
    show name ∈ (b.savePool (List.foldl _ (backfillStart b) _).st).pool.map (·.name) ∧ _ ↔ _
    obtain ⟨rows, hst, hnames⟩ := hpast.rows
    rw [names_savePool, hst, List.map_append, List.mem_append, ← hnames]
    constructor
    · exact fun ⟨hor, hno⟩ => hor.resolve_left hno
    · exact fun h => ⟨.inr h, (hpast.seated name h).1⟩

variable (stamp) in
/-- The backfill seats a name when its newest pass may be seated. -/
theorem seated_iff {name : String} :
    (name ∈ (startupBackfill claimNames instant log stored stamp b).pool.map (·.name) ∧
        name ∉ b.pool.map (·.name)) ↔
      ∃ p, newestPass claimNames instant log stored name = some p ∧ Unblocked instant b p := by
  rw [mem_startupBackfill]
  constructor
  · rintro ⟨r, hr, rfl, -, -, hpool, hgrad, -⟩
    obtain ⟨hr, hfree⟩ := List.mem_filter.mp hr
    refine ⟨r, mem_storedLibraryLatest.mp hr, hpool, hgrad, ?_⟩
    simpa using hfree
  · rintro ⟨p, hp, hpool, hgrad, hfree⟩
    obtain ⟨-, rfl, hpass⟩ := newestPass_spec hp
    have hrec : p ∈ backfillRecords claimNames instant log stored b :=
      List.mem_filter.mpr ⟨mem_storedLibraryLatest.mpr hp, by rw [hfree]; rfl⟩
    unfold libraryPassRecord at hpass
    rw [Bool.and_eq_true, decide_eq_true_eq] at hpass
    refine ⟨p, hrec, rfl, hpass.1, hpass.2, hpool, hgrad, ?_⟩
    split
    next hretired =>
      exact decide_eq_true (List.mem_filter.mpr ⟨List.mem_map_of_mem hrec, hretired⟩)
    next hfresh =>
      have hretired : b.isRetired p.strategy = false := Bool.eq_false_iff.mpr hfresh
      simp only [backfillStart, hretired, decide_eq_false hpool, decide_eq_false hgrad]
      rfl

/-- **The startup backfill seats on the newest evaluation** exactly when no older pass
stands beside a newer evaluation that is none. -/
theorem backfill_newest_iff (claimNames : List String) (instant : String → Option ℕ)
    (log stored : List EvalRow) (stamp : String) (b : Book) :
    SeatsOnNewest claimNames instant log stored stamp b ↔
      NoStalePass claimNames instant log stored b := by
  -- a newest evaluation that is a pass is the newest pass
  have hnewest : ∀ name e, newestStored instant log stored name = some e →
      libraryPassRecord claimNames e = true →
        newestPass claimNames instant log stored name = some e :=
    fun name e he hpass => latest_filter he hpass
  constructor
  · intro h name e he hfail r hr hname hpass hfree
    have hp : newestPass claimNames instant log stored name ≠ none := by
      unfold newestPass
      rw [ne_eq, latest_eq_none]
      exact List.ne_nil_of_mem (List.mem_filter.mpr
        ⟨List.mem_filter.mpr ⟨hr, decide_eq_true hname⟩, hpass⟩)
    obtain ⟨p, hp⟩ := Option.ne_none_iff_exists'.mp hp
    have hmem : r ∈ ((considered log stored).filter fun r => r.strategy = name).filter
        (libraryPassRecord claimNames) :=
      List.mem_filter.mpr ⟨List.mem_filter.mpr ⟨hr, decide_eq_true hname⟩, hpass⟩
    have hpname := (newestPass_spec hp).2.1
    have hpfree := hfree.atMost (hname.trans hpname.symm) ((latest_max hp).2 r hmem)
    obtain ⟨e', he', hpass', -⟩ := (h name).mp ((seated_iff _).mpr ⟨p, hp, hpfree⟩)
    rw [he] at he'
    cases he'
    rw [hfail] at hpass'
    cases hpass'
  · intro h name
    rw [seated_iff]
    constructor
    · rintro ⟨p, hp, hfree⟩
      obtain ⟨hmem, hname, hpass⟩ := newestPass_spec hp
      have he : newestStored instant log stored name ≠ none := by
        unfold newestStored
        rw [ne_eq, latest_eq_none]
        exact List.ne_nil_of_mem (List.mem_filter.mpr ⟨hmem, decide_eq_true hname⟩)
      obtain ⟨e, he⟩ := Option.ne_none_iff_exists'.mp he
      cases hfail : libraryPassRecord claimNames e with
      | false => exact absurd hfree (h name e he hfail p hmem hname hpass)
      | true =>
        have heq := hnewest name e he hfail
        rw [hp] at heq
        cases heq
        exact ⟨p, he, hfail, hfree⟩
    · rintro ⟨e, he, hpass, hfree⟩
      exact ⟨e, hnewest name e he hpass, hfree⟩

end

/-- Two days, in seconds from the first. -/
def twoDays (timestamp : String) : Option ℕ :=
  if timestamp = "2026-11-01T00:00:00+00:00" then some 0
  else if timestamp = "2026-11-02T00:00:00+00:00" then some 86400
  else none

/-- The log has a fail of the second day, `library_results.json` still the pass of the
first: the name is seated. -/
theorem stale_pass_seated : ¬ SeatsOnNewest ["lib.sma100"] twoDays
    [{ strategy := "lib.sma100", qualified := false, testedAt := "2026-11-02T00:00:00+00:00",
       gate := some ⟨false, GATE_RULES⟩, library := true }]
    [{ strategy := "lib.sma100", qualified := true, testedAt := "2026-11-01T00:00:00+00:00",
       gate := some ⟨true, GATE_RULES⟩, library := true }] "2026-11-03T00:00:00+00:00" {} := by
  intro h
  obtain ⟨e, he, hpass, -⟩ := (h "lib.sma100").mp (by decide +kernel)
  have hfail : libraryPassRecord ["lib.sma100"] e = false := by
    have hnewest : (newestStored twoDays
        [{ strategy := "lib.sma100", qualified := false, testedAt := "2026-11-02T00:00:00+00:00",
           gate := some ⟨false, GATE_RULES⟩, library := true }]
        [{ strategy := "lib.sma100", qualified := true, testedAt := "2026-11-01T00:00:00+00:00",
           gate := some ⟨true, GATE_RULES⟩, library := true }] "lib.sma100").map
          (libraryPassRecord ["lib.sma100"]) = some false := by decide +kernel
    rw [he] at hnewest
    exact Option.some.inj hnewest
  rw [hfail] at hpass
  cases hpass

end PaperTrading.Champions
