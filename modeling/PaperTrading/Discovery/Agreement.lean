import PaperTrading.Discovery.ResultsCounts
import PaperTrading.Discovery.TestedCrash

/-!
# Log, index and results

`append_discovery_evaluations` and `save_discovery_log` write the display log and the
tested-name index under the discovery lock, and then bring the rows they were called with
to the results store, under its own lock. Between the two other calls come in.

`Accounted` is what holds in between: the flag of a name is that of its newest row in the
log, and the results have that row, or a call that has not been there yet brings it.
`log_index_results_agree` draws from it that the three agree once all calls have returned,
in runs where no call reaches the results behind a later writer of one of its names.
`crossed_retests_disagree` is a run where one does.
-/

namespace PaperTrading.Discovery.Agreement

open PaperTrading.Lib
open Results (Row Line seenRows rowLine pendingLines scan latest)

/-! ## The two sections of a call -/

/-- What the code gets from `_metric_from_row`, beside what the results get from the
standard library. -/
structure Env extends Results.Env where
  metricFromRow : Row → Option Tested.Metric

/-- A call between its two locks, with what it hands to `sync_discovery_results`. -/
structure Call where
  rows : List Row
  fresh : List String

/-- The display log, newest row first, the index, the results, and the calls that have
released the discovery lock. -/
structure Desk where
  log : List Row := []
  index : Tested.Store
  results : Results.Store
  calls : List Call := []

inductive Event where
  /-- `append_discovery_evaluations` up to the release of the lock, with the answer of
  `still_valid` -/
  | append (rows : List Row) (cap : ℕ) (valid : Bool)
  /-- `save_discovery_log` up to there -/
  | save (rows : List Row)
  /-- one of the calls syncs its rows, in a process, and returns -/
  | sync (i pid : ℕ)

/-- A value under a key, and whether that changes something. -/
def put {α : Type} [DecidableEq α] (merged : Dict String α × Bool) (name : String) (value : α) :
    Dict String α × Bool :=
  if merged.1.get? name = some value then merged else (merged.1.set name value, true)

/-- `merge_tested_rows`: the flags, and whether one changed. -/
def mergeTestedRows (index : Dict String Bool) (rows : List Row) : Dict String Bool × Bool :=
  (seenRows rows).foldl (fun merged row => put merged row.strategy row.qualified) (index, false)

namespace Env
variable (env : Env)

/-- `merge_tested_metrics` -/
def mergeTestedMetrics (metrics : Dict String Tested.Metric) (rows : List Row) :
    Dict String Tested.Metric × Bool :=
  (seenRows rows).foldl (fun merged row =>
    match env.metricFromRow row with
    | none => merged
    | some item => put merged row.strategy item) (metrics, false)

/-- The index lines of `_append_batch_locked`, one row after the other. -/
def overlayTested (index : Tested.Store) (row : Row) : Tested.Store :=
  index.finish (.append row.strategy row.qualified (env.metricFromRow row))

/-- `_append_batch_locked` -/
def appendBatch (st : Desk) (rows : List Row) (cap : ℕ) : Desk :=
  { st with
    log := (rows ++ st.log).take cap
    index := rows.foldl env.overlayTested st.index
    calls := st.calls ++ [⟨rows, rows.map (·.strategy)⟩] }

/-- The locked part of `save_discovery_log`. -/
def saveLog (st : Desk) (rows : List Row) : Desk :=
  let index := mergeTestedRows st.index.current.flags rows
  let metrics := env.mergeTestedMetrics st.index.current.metrics rows
  { st with
    log := rows
    index :=
      if index.2 ∨ metrics.2 then st.index.finish (.save index.1 (some metrics.1)) else st.index
    calls := st.calls ++ [⟨rows, []⟩] }

/-- `sync_discovery_results` of a call. -/
def syncResults (st : Desk) (i pid : ℕ) : Desk :=
  match st.calls[i]? with
  | none => st
  | some call =>
    { st with
      results := st.results.step env.toEnv ⟨pid, .sync call.rows call.fresh, none⟩
      calls := st.calls.eraseIdx i }

def step (st : Desk) : Event → Desk
  | .append rows cap valid =>
    if rows = [] ∨ valid = false then st else env.appendBatch st rows cap
  | .save rows => env.saveLog st rows
  | .sync i pid => env.syncResults st i pid

end Env

/-- The newest row of a name. -/
def newest (log : List Row) (name : String) : Option Row :=
  log.find? fun row => row.strategy = name

/-- The latest record of the row's name has its flag and its time. -/
def Shown (rows : Results.Rows) (row : Row) : Prop :=
  ∃ stored, rows.get? row.strategy = some stored ∧ stored.line.qualified = row.qualified ∧
    stored.line.testedAt = row.testedAt

/-- A call that has not been to the results brings them. -/
def Brought (calls : List Call) (row : Row) : Prop :=
  ∃ call ∈ calls, ∃ r, newest call.rows row.strategy = some r ∧ r.qualified = row.qualified ∧
    r.testedAt = row.testedAt

/-- Log, index and results say the same of every name in the log. -/
def Agrees (st : Desk) : Prop :=
  ∀ name row, name ≠ "" → newest st.log name = some row →
    st.index.current.flags.get? name = some row.qualified ∧
      Shown (latest st.results.disk.lines) row

/-! ## First rows -/

theorem newest_name {log : List Row} {name : String} {row : Row} (h : newest log name = some row) :
    row.strategy = name := by
  have hrow := List.find?_some h
  exact of_decide_eq_true hrow

theorem newest_seenRows {rows : List Row} {name : String} (hname : name ≠ "") :
    newest (seenRows rows) name = newest rows name := by
  refine find?_greedy (fun row : Row => row.strategy) rows (fun row hrow => ?_) List.not_mem_nil
  exact decide_eq_false fun hempty => hname (hrow.symm.trans hempty)

theorem newest_mem {rows : List Row} {name : String} {row : Row} (hname : name ≠ "")
    (h : newest rows name = some row) : row ∈ seenRows rows := by
  rw [← newest_seenRows hname] at h
  exact List.mem_of_find?_eq_some h

theorem seenRows_nodup (rows : List Row) : ((seenRows rows).map (·.strategy)).Nodup := by
  have h : (keysOf (fun row : Row => some row.strategy) (seenRows rows)).Nodup :=
    (keysOf_greedy rows []).1
  rwa [keysOf, List.filterMap_eq_map'] at h

theorem seenRows_named {rows : List Row} {row : Row} (h : row ∈ seenRows rows) :
    row.strategy ≠ "" := by
  simpa using (mem_greedy h).1

/-- Whoever has a row of the name has a first one. -/
theorem newest_of_mem {rows : List Row} {row : Row} (h : row ∈ rows) :
    ∃ first, newest rows row.strategy = some first := by
  refine Option.isSome_iff_exists.mp (List.find?_isSome.mpr ⟨row, h, ?_⟩)
  exact decide_eq_true rfl

/-! ## The index -/

section
variable {α : Type} [DecidableEq α] {merged : Dict String α × Bool} {name other : String} {value : α}

theorem get?_put : (put merged name value).1.get? other =
    if other = name then some value else merged.1.get? other := by
  unfold put
  split
  next h =>
    split
    next heq => rw [heq, h]
    next => rfl
  next => rw [Dict.get?_set]

theorem put_same (h : (put merged name value).2 = false) : put merged name value = merged := by
  unfold put at h ⊢
  split
  next => rfl
  next hne =>
    rw [if_neg hne] at h
    cases h

end

section
variable {env : Env} {index : Tested.Store} {name : String}

/-- The flags after some rows of different names. -/
theorem get?_foldl_put (kept : List Row) (hnodup : (kept.map (·.strategy)).Nodup)
    (merged : Dict String Bool × Bool) (name : String) :
    (kept.foldl (fun merged row => put merged row.strategy row.qualified) merged).1.get? name =
      match newest kept name with
      | some row => some row.qualified
      | none => merged.1.get? name := by
  induction kept generalizing merged with
  | nil => rfl
  | cons row kept ih =>
    rw [List.map_cons, List.nodup_cons] at hnodup
    rw [List.foldl_cons, ih hnodup.2, get?_put]
    unfold newest
    rw [List.find?_cons]
    by_cases hrow : row.strategy = name
    · have hnone : kept.find? (fun r => r.strategy = name) = none := by
        refine List.find?_eq_none.mpr fun r hr hname => hnodup.1 ?_
        rw [hrow, ← of_decide_eq_true hname]
        exact List.mem_map_of_mem hr
      rw [hnone, decide_eq_true hrow, if_pos hrow.symm]
    · rw [decide_eq_false hrow, if_neg fun h => hrow h.symm]

theorem get?_mergeTestedRows (flags : Dict String Bool) (rows : List Row) (hname : name ≠ "") :
    (mergeTestedRows flags rows).1.get? name =
      match newest rows name with
      | some row => some row.qualified
      | none => flags.get? name := by
  rw [← newest_seenRows hname]
  exact get?_foldl_put (seenRows rows) (seenRows_nodup rows) (flags, false) name

/-- Without a change the flags are those from before. -/
theorem mergeTestedRows_same (flags : Dict String Bool) (rows : List Row)
    (h : (mergeTestedRows flags rows).2 = false) : (mergeTestedRows flags rows).1 = flags := by
  have hfold : ∀ (kept : List Row) (merged : Dict String Bool × Bool),
      (kept.foldl (fun merged row => put merged row.strategy row.qualified) merged).2 = false →
      merged.2 = false ∧
        kept.foldl (fun merged row => put merged row.strategy row.qualified) merged = merged := by
    intro kept
    induction kept with
    | nil => exact fun _ h => ⟨h, rfl⟩
    | cons row kept ih =>
      intro merged h
      rw [List.foldl_cons] at h ⊢
      obtain ⟨hrest, hsame⟩ := ih _ h
      have hput := put_same hrest
      rw [hput] at hrest hsame ⊢
      exact ⟨hrest, hsame⟩
  exact congrArg Prod.fst (hfold _ _ h).2

/-- Metrics of names that no row has stay. -/
theorem get?_mergeTestedMetrics (metrics : Dict String Tested.Metric) (rows : List Row)
    (hname : ∀ row ∈ seenRows rows, row.strategy ≠ name) :
    (env.mergeTestedMetrics metrics rows).1.get? name = metrics.get? name := by
  have hfold : ∀ (kept : List Row) (merged : Dict String Tested.Metric × Bool),
      (∀ row ∈ kept, row.strategy ≠ name) →
      (kept.foldl (fun merged row =>
        match env.metricFromRow row with
        | none => merged
        | some item => put merged row.strategy item) merged).1.get? name = merged.1.get? name := by
    intro kept
    induction kept with
    | nil => exact fun _ _ => rfl
    | cons row kept ih =>
      intro merged h
      rw [List.foldl_cons, ih _ fun r hr => h r (List.mem_cons_of_mem _ hr)]
      split
      next => rfl
      next => rw [get?_put, if_neg (h row List.mem_cons_self).symm]
  exact hfold _ _ hname

/-- The flag of a name after the index lines of a batch: the last row of the name sets it. -/
theorem flags_overlay (rows : List Row) (h : Tested.Valid index) (hname : name ≠ "") :
    Tested.Valid (rows.foldl env.overlayTested index) ∧
      (rows.foldl env.overlayTested index).disk.document.flags.get? name =
        match newest rows.reverse name with
        | some row => some row.qualified
        | none => index.disk.document.flags.get? name := by
  induction rows generalizing index with
  | nil => exact ⟨h, rfl⟩
  | cons row rows ih =>
    have hvalid : Tested.Valid (env.overlayTested index row) :=
      Tested.valid_step h (.append row.strategy row.qualified (env.metricFromRow row), none)
    obtain ⟨hrest, hflag⟩ := ih hvalid
    refine ⟨hrest, ?_⟩
    rw [List.foldl_cons, hflag, List.reverse_cons]
    unfold newest
    rw [List.find?_append]
    cases rows.reverse.find? (fun r => r.strategy = name) with
    | some r => rfl
    | none =>
      have hmeets := Tested.append_meets h row.strategy row.qualified (env.metricFromRow row)
      simp only [Tested.Op.Meets] at hmeets
      simp only [Option.none_or, List.find?_cons, List.find?_nil]
      by_cases hrow : row.strategy = name
      · rw [if_neg (hrow ▸ hname)] at hmeets
        rw [decide_eq_true hrow]
        exact (hmeets.flags name).trans (by rw [Dict.get?_set, if_pos hrow.symm])
      · rw [decide_eq_false hrow]
        split at hmeets
        next => exact hmeets.flags name
        next => exact (hmeets.flags name).trans (by rw [Dict.get?_set, if_neg fun h => hrow h.symm])

variable (env) in
/-- A bulk save keeps every entry of the index, so it is whole. -/
theorem saveLog_whole (current : Tested.Doc) (hnamed : Tested.Named current) (rows : List Row) :
    Tested.Whole current (mergeTestedRows current.flags rows).1
      (some (env.mergeTestedMetrics current.metrics rows).1) := by
  have hunnamed : newest (seenRows rows) "" = none := by
    refine List.find?_eq_none.mpr fun row hrow hempty => ?_
    exact seenRows_named hrow (of_decide_eq_true hempty)
  refine ⟨?_, ?_, fun _ metrics hmetrics name hout => ?_⟩
  · rw [← Dict.get?_eq_none]
    have hflag := get?_foldl_put (seenRows rows) (seenRows_nodup rows) (current.flags, false) ""
    rw [hunnamed] at hflag
    exact hflag.trans hnamed.flags
  · intro metrics hmetrics
    rw [← Option.some.inj hmetrics, ← Dict.get?_eq_none,
      get?_mergeTestedMetrics _ _ fun row hrow => seenRows_named hrow]
    exact hnamed.metrics
  · rw [← Option.some.inj hmetrics]
    refine get?_mergeTestedMetrics _ _ fun row hrow hname => ?_
    -- a name with a row is in the index
    obtain ⟨first, hfirst⟩ := newest_of_mem ((greedy_sublist rows []).mem hrow)
    rw [hname] at hfirst
    have hflag := get?_mergeTestedRows current.flags rows (hname ▸ seenRows_named hrow)
    rw [hfirst, Dict.get?_eq_none.mpr hout] at hflag
    cases hflag

/-- The flag of a name after a bulk save: the first row of the name sets it. -/
theorem flags_saveLog (st : Desk) (rows : List Row) (h : Tested.Valid st.index) (hname : name ≠ "") :
    Tested.Valid (env.saveLog st rows).index ∧
      (env.saveLog st rows).index.disk.document.flags.get? name =
        match newest rows name with
        | some row => some row.qualified
        | none => st.index.disk.document.flags.get? name := by
  rw [← get?_mergeTestedRows st.index.disk.document.flags rows hname]
  unfold Env.saveLog
  simp only [h.current]
  split
  next =>
    refine ⟨Tested.valid_step h (.save _ _, none), ?_⟩
    have hmeets := (Tested.save_meets_iff h _ _).mpr
      (saveLog_whole env _ (Tested.named_document st.index.disk) rows)
    exact hmeets.flags name
  next hsame =>
    rw [not_or, Bool.not_eq_true] at hsame
    rw [mergeTestedRows_same _ _ hsame.1]
    exact ⟨h, rfl⟩

end

/-! ## The results -/

section
variable {name : String}

theorem get?_record (rows : Results.Rows) (entry : Line × ℕ) (hname : entry.1.strategy ≠ "") :
    (Results.record rows entry).get? name =
      if name = entry.1.strategy then some ⟨entry.1, entry.2⟩ else rows.get? name := by
  unfold Results.record
  rw [if_neg hname, Dict.get?_set]

/-- Lines of other names leave the latest record of a name. -/
theorem get?_scan_of_ne (lines : List Line) (rows : Results.Rows) (start : ℕ)
    (hne : ∀ line ∈ lines, line.strategy ≠ name) : (scan rows start lines).get? name = rows.get? name := by
  induction lines generalizing rows start with
  | nil => rfl
  | cons line lines ih =>
    show (scan (Results.record rows (line, start)) (start + 1) lines).get? name = _
    rw [ih _ _ fun l hl => hne l (List.mem_cons_of_mem _ hl)]
    unfold Results.record
    split
    next => rfl
    next => rw [Dict.get?_set, if_neg (hne line List.mem_cons_self).symm]

/-- Of lines of different names, each is the latest of its own. -/
theorem get?_scan_of_mem (lines : List Line) (rows : Results.Rows) (start : ℕ)
    (hnodup : (lines.map (·.strategy)).Nodup) {line : Line} (hline : line ∈ lines)
    (hname : line.strategy ≠ "") :
    ∃ offset, (scan rows start lines).get? line.strategy = some ⟨line, offset⟩ := by
  induction lines generalizing rows start with
  | nil => cases hline
  | cons first lines ih =>
    rw [List.map_cons, List.nodup_cons] at hnodup
    show ∃ offset, (scan (Results.record rows (first, start)) (start + 1) lines).get? _ = _
    rcases List.mem_cons.mp hline with rfl | hline
    · refine ⟨start, ?_⟩
      rw [get?_scan_of_ne lines _ _ fun l hl heq => hnodup.1 ?_, get?_record _ _ hname, if_pos rfl]
      exact heq.symm ▸ List.mem_map_of_mem hl
    · exact ih _ _ hnodup.2 hline

/-- The lines a sync appends leave a name that no row has. -/
theorem pendingLines_ne (rows : Results.Rows) (incoming : List Row) (fresh : List String)
    (hnone : newest incoming name = none) :
    ∀ line ∈ pendingLines rows incoming fresh none, line.strategy ≠ name := by
  intro line hline heq
  unfold pendingLines at hline
  rcases List.mem_append.mp hline with hline | hline
  · obtain ⟨row, hrow, hof⟩ := List.mem_filterMap.mp hline
    obtain ⟨first, hfirst⟩ := newest_of_mem ((greedy_sublist incoming []).mem hrow)
    rw [← Results.rowLine_name row line hof, heq, hnone] at hfirst
    cases hfirst
  · cases hline

/-- What a sync leaves of a name: the verdict of the first row that has it. -/
theorem shown_of_newest (lines : List Line) (incoming : List Row) (fresh : List String) {row : Row}
    (hname : name ≠ "") (hrow : newest incoming name = some row) :
    Shown (latest (lines ++ pendingLines (latest lines) incoming fresh none)) row := by
  have hkeyed := Results.keyed_latest lines
  have hnodup := Results.pendingLines_nodup hkeyed incoming fresh none
  have hnamed : row.strategy = name := newest_name hrow
  have hmem := newest_mem hname hrow
  rw [Results.latest_append]
  cases hline : rowLine (latest lines) fresh none row with
  | some line =>
    have hkind : line = Results.recordFromRow row
        (Results.gateFor row fresh ((latest lines).get? row.strategy)) := by
      unfold rowLine at hline
      simp only [Option.ite_none_left_eq_some] at hline
      exact (Option.some.inj hline.2).symm
    have hstrategy : line.strategy = row.strategy := by rw [hkind]; rfl
    have hpending : line ∈ pendingLines (latest lines) incoming fresh none :=
      List.mem_append_left _ (List.mem_filterMap.mpr ⟨row, hmem, hline⟩)
    obtain ⟨offset, hstored⟩ := get?_scan_of_mem _ (latest lines) lines.length hnodup hpending
      (hstrategy ▸ hnamed ▸ hname)
    rw [hstrategy] at hstored
    exact ⟨_, hstored, by rw [hkind]; rfl, by rw [hkind]; rfl⟩
  | none =>
    -- the record on file has this evaluation
    have hsame : ∃ stored, (latest lines).get? row.strategy = some stored ∧
        stored.line.qualified = row.qualified ∧ stored.line.testedAt = row.testedAt := by
      unfold rowLine at hline
      simp only [ite_eq_left_iff, reduceCtorEq, imp_false, not_not] at hline
      obtain ⟨stored, hstored, heval⟩ := (Option.any_eq_true _ _).mp hline
      refine ⟨stored, hstored, ?_⟩
      unfold Results.sameEval at heval
      simp only [Bool.and_eq_true, decide_eq_true_eq] at heval
      exact ⟨heval.1.1.1, heval.1.1.2⟩
    obtain ⟨stored, hstored, hverdict⟩ := hsame
    refine ⟨stored, ?_, hverdict⟩
    rw [get?_scan_of_ne _ _ _ fun line hpending heq => ?_]
    · exact hstored
    · unfold pendingLines at hpending
      rcases List.mem_append.mp hpending with hpending | hpending
      · obtain ⟨other, hother, hof⟩ := List.mem_filterMap.mp hpending
        -- rows that are looked at have different names
        have hsame : other = row := by
          refine List.inj_on_of_nodup_map (seenRows_nodup incoming) hother hmem ?_
          rw [← Results.rowLine_name other line hof, heq]
        rw [hsame, hline] at hof
        cases hof
      · cases hpending

end

/-! ## What holds between the two locks -/

/-- The flags are those of the newest rows, and the results have their verdicts or get them
from a call under way. -/
structure Accounted (env : Env) (st : Desk) : Prop where
  index : Tested.Valid st.index
  results : Results.Valid env.toEnv st.results
  flags : ∀ name row, name ≠ "" → newest st.log name = some row →
    st.index.disk.document.flags.get? name = some row.qualified
  verdict : ∀ name row, name ≠ "" → newest st.log name = some row →
    Shown (latest st.results.disk.lines) row ∨ Brought st.calls row

/-- The condition on a step. A batch does not end on another flag for a name than it starts
with. A call that reaches the results has, for each of its names in the log, the verdict of
the newest row, or a call under way has it. -/
def InOrder (st : Desk) : Event → Prop
  | .append rows cap valid => valid = true → ∀ name row last, name ≠ "" →
      newest (rows.take cap) name = some row → newest rows.reverse name = some last →
        last.qualified = row.qualified
  | .save _ => True
  | .sync i _ => ∀ call, st.calls[i]? = some call → ∀ name row, name ≠ "" →
      newest call.rows name ≠ none → newest st.log name = some row → Brought st.calls row

section
variable {env : Env} {st : Desk} {rows : List Row} {name : String} {row : Row}

theorem newest_append (l m : List Row) (name : String) :
    newest (l ++ m) name = (newest l name).or (newest m name) := List.find?_append

theorem newest_of_front {l : List Row} (n : ℕ) (h : newest (l.take n) name = some row) :
    newest l name = some row := by
  rw [← List.take_append_drop n l, newest_append, h]
  rfl

theorem Brought.mono {calls more : List Call} (h : Brought calls row) : Brought (calls ++ more) row := by
  obtain ⟨call, hcall, hrow⟩ := h
  exact ⟨call, List.mem_append_left _ hcall, hrow⟩

/-- The call that has just written a name's newest row brings it. -/
theorem brought_last {calls : List Call} {call : Call} (h : newest call.rows name = some row) :
    Brought (calls ++ [call]) row :=
  ⟨call, List.mem_append_right _ (List.mem_singleton_self _), row, newest_name h ▸ h, rfl, rfl⟩

/-- The newest row of a name in a cut log: of the batch, or of the log before it, which the
batch then does not name. -/
theorem newest_cut {log : List Row} {cap : ℕ} (h : newest ((rows ++ log).take cap) name = some row) :
    newest (rows.take cap) name = some row ∨
      newest rows name = none ∧ newest log name = some row := by
  rw [List.take_append, newest_append] at h
  cases hfirst : newest (rows.take cap) name with
  | some first => rw [hfirst] at h; exact Or.inl h
  | none =>
    rw [hfirst, Option.none_or] at h
    refine Or.inr ⟨?_, newest_of_front _ h⟩
    have hroom : rows.length < cap := by
      by_contra hfull
      rw [Nat.sub_eq_zero_of_le (Nat.not_lt.mp hfull), List.take_zero] at h
      cases h
    rwa [List.take_of_length_le hroom.le] at hfirst

theorem newest_reverse_none (h : newest rows name = none) : newest rows.reverse name = none := by
  refine List.find?_eq_none.mpr fun r hr => ?_
  exact List.find?_eq_none.mp h r (List.mem_reverse.mp hr)

theorem append_accounted (h : Accounted env st) (cap : ℕ)
    (hflags : ∀ name row last, name ≠ "" → newest (rows.take cap) name = some row →
      newest rows.reverse name = some last → last.qualified = row.qualified) :
    Accounted env (env.appendBatch st rows cap) := by
  refine ⟨?_, h.results, fun name row hname hrow => ?_, fun name row hname hrow => ?_⟩
  · -- any name will do
    exact (flags_overlay rows h.index (show "a" ≠ "" by decide)).1
  · show (rows.foldl env.overlayTested st.index).disk.document.flags.get? name = _
    rw [(flags_overlay rows h.index hname).2]
    rcases newest_cut hrow with hrow | ⟨hnone, hrow⟩
    · have hmem : row ∈ rows.reverse :=
        List.mem_reverse.mpr (List.mem_of_mem_take (List.mem_of_find?_eq_some hrow))
      obtain ⟨last, hlast⟩ := newest_of_mem hmem
      rw [newest_name hrow] at hlast
      rw [hlast]
      exact congrArg some (hflags name row last hname hrow hlast)
    · rw [newest_reverse_none hnone]
      exact h.flags name row hname hrow
  · rcases newest_cut hrow with hrow | ⟨_, hrow⟩
    · exact Or.inr (brought_last (newest_of_front cap hrow))
    · exact (h.verdict name row hname hrow).imp_right Brought.mono

theorem save_accounted (h : Accounted env st) (rows : List Row) :
    Accounted env (env.saveLog st rows) := by
  refine ⟨?_, h.results, fun name row hname hrow => ?_, fun name row _ hrow => ?_⟩
  · exact (flags_saveLog st rows h.index (show "a" ≠ "" by decide)).1
  · have hrow : newest rows name = some row := hrow
    rw [(flags_saveLog st rows h.index hname).2, hrow]
  · exact Or.inr (brought_last hrow)

/-- The lines after a sync. -/
theorem lines_sync (h : Results.Valid env.toEnv st.results) (pid : ℕ) (rows : List Row)
    (fresh : List String) :
    (st.results.step env.toEnv ⟨pid, .sync rows fresh, none⟩).disk.lines =
      st.results.disk.lines ++ pendingLines (latest st.results.disk.lines) rows fresh none := by
  simp only [Results.Store.step, Results.Disk.after, Results.effect, Results.syncDiscoveryResults,
    (h.procs pid).loadMap]
  split
  next =>
    split
    next => rfl
    next => rfl
  next =>
    split
    next hnil => rw [hnil]
    next => rfl

theorem mem_eraseIdx_or {α : Type} {l : List α} {i : ℕ} {a b : α} (hi : l[i]? = some a) (hb : b ∈ l) :
    b = a ∨ b ∈ l.eraseIdx i := by
  obtain ⟨j, hj⟩ := List.mem_iff_getElem?.mp hb
  by_cases hij : j = i
  · rw [hij, hi] at hj
    exact Or.inl (Option.some.inj hj).symm
  · exact Or.inr (List.mem_eraseIdx_iff_getElem?.mpr ⟨j, hij, hj⟩)

theorem sync_accounted (h : Accounted env st) (i pid : ℕ) (horder : InOrder st (.sync i pid)) :
    Accounted env (env.syncResults st i pid) := by
  unfold Env.syncResults
  split
  next => exact h
  next call hcall =>
    refine ⟨h.index, Results.valid_step h.results _ trivial, h.flags, fun name row hname hrow => ?_⟩
    have hstrategy : row.strategy = name := newest_name hrow
    show Shown (latest (Results.Store.step env.toEnv st.results
      ⟨pid, .sync call.rows call.fresh, none⟩).disk.lines) row ∨ _
    rw [lines_sync h.results]
    cases hfirst : newest call.rows name with
    | none =>
      -- the call does not have the name
      rcases h.verdict name row hname hrow with ⟨stored, hstored, hverdict⟩ | ⟨other, hother, r, hr, hverdict⟩
      · refine Or.inl ⟨stored, ?_, hverdict⟩
        rw [Results.latest_append, hstrategy, get?_scan_of_ne _ _ _ (pendingLines_ne _ _ _ hfirst),
          ← hstrategy]
        exact hstored
      · rcases mem_eraseIdx_or hcall hother with rfl | hother
        · rw [hstrategy, hfirst] at hr
          cases hr
        · exact Or.inr ⟨other, hother, r, hr, hverdict⟩
    | some first =>
      obtain ⟨other, hother, r, hr, hqualified, htested⟩ := horder call hcall name row hname
        (by rw [hfirst]; exact fun hnone => by cases hnone) hrow
      rcases mem_eraseIdx_or hcall hother with rfl | hother
      · rw [hstrategy, hfirst] at hr
        obtain rfl := Option.some.inj hr
        obtain ⟨stored, hstored, hq, ht⟩ :=
          shown_of_newest st.results.disk.lines other.rows other.fresh hname hfirst
        rw [newest_name hfirst, ← hstrategy] at hstored
        exact Or.inl ⟨stored, hstored, hq.trans hqualified, ht.trans htested⟩
      · exact Or.inr ⟨other, hother, r, hr, hqualified, htested⟩

theorem step_accounted (h : Accounted env st) (e : Event) (horder : InOrder st e) :
    Accounted env (env.step st e) := by
  cases e with
  | append rows cap valid =>
    simp only [Env.step]
    split
    next => exact h
    next hwrites =>
      rw [not_or, Bool.not_eq_false] at hwrites
      exact append_accounted h cap (horder hwrites.2)
  | save rows => exact save_accounted h rows
  | sync i pid => exact sync_accounted h i pid horder

/-- With no call under way the three agree. -/
theorem Accounted.agrees (h : Accounted env st) (hcalls : st.calls = []) : Agrees st := by
  intro name row hname hrow
  refine ⟨h.index.current ▸ h.flags name row hname hrow, ?_⟩
  rcases h.verdict name row hname hrow with hshown | ⟨call, hcall, _⟩
  · exact hshown
  · rw [hcalls] at hcall
    cases hcall

end

/-- Before a run: the stores are in order, no call is under way, and the three agree. -/
structure Quiet (env : Env) (st : Desk) : Prop where
  index : Tested.Valid st.index
  results : Results.Valid env.toEnv st.results
  calls : st.calls = []
  agrees : Agrees st

theorem Quiet.accounted {env : Env} {st : Desk} (h : Quiet env st) : Accounted env st where
  index := h.index
  results := h.results
  flags name row hname hrow := h.index.current ▸ (h.agrees name row hname hrow).1
  verdict name row hname hrow := Or.inl (h.agrees name row hname hrow).2

/-- **Log, index and results agree.** In every run of appends and saves, whose second
sections come in any order that leaves no verdict behind, the three agree in every state
in which all calls have returned. -/
theorem log_index_results_agree (env : Env) (st : Desk) (hquiet : Quiet env st)
    (events : List Event) (horder : Along env.step InOrder st events) :
    Along env.step (fun st e => (env.step st e).calls = [] → Agrees (env.step st e)) st events := by
  refine along_of_inv (I := Accounted env) (fun st e h ho => ?_) events hquiet.accounted horder
  have hnext := step_accounted h e ho
  exact ⟨hnext.agrees, hnext⟩

/-- Files from before any call. -/
def newDesk : Desk where
  index := Tested.Store.start Tested.Doc.empty none
  results := Results.Store.start []

def sampleEnv : Env := ⟨Results.sampleEnv, fun _ => none⟩

theorem newDesk_quiet : Quiet sampleEnv newDesk where
  index := Tested.valid_start _ _
  results := Results.valid_start []
  calls := rfl
  agrees _ _ _ hrow := by cases hrow

/-- An evaluation, and its flip by a bulk save. -/
def failedRow : Row := Results.sampleRow "rsi_14" false "2026-01-01T00:00:00+00:00"
def flippedRow : Row := Results.sampleRow "rsi_14" true "2026-01-01T00:00:00+00:00"

theorem log_index_results_agree_flip :
    Along sampleEnv.step
      (fun st e => (sampleEnv.step st e).calls = [] → Agrees (sampleEnv.step st e)) newDesk
      [.append [failedRow] 500 true, .sync 0 0, .save [flippedRow], .sync 0 0] := by
  refine log_index_results_agree sampleEnv newDesk newDesk_quiet _ ⟨?_, ?_, trivial, ?_, trivial⟩
  · intro _ name row last _ hrow hlast
    rw [Option.some.inj (hrow.symm.trans hlast)]
  · intro call hcall name row _ _ hrow
    obtain rfl := Option.some.inj hcall
    exact brought_last hrow
  · intro call hcall name row _ _ hrow
    obtain rfl := Option.some.inj hcall
    exact brought_last hrow

/-- A retest of the name, an hour later. -/
def retestRow : Row := Results.sampleRow "rsi_14" true "2026-01-01T01:00:00+00:00"

/-- The retest is logged behind the first evaluation, and is in the results before it. -/
theorem crossed_retests_disagree :
    ¬ Along sampleEnv.step
      (fun st e => (sampleEnv.step st e).calls = [] → Agrees (sampleEnv.step st e)) newDesk
      [.append [failedRow] 500 true, .append [retestRow] 500 true, .sync 1 0, .sync 0 1] := by
  intro h
  obtain ⟨stored, hstored, hqualified, _⟩ :=
    (h.2.2.2.1 (by decide +kernel) "rsi_14" retestRow (by decide) (by decide +kernel)).2
  have hlatest : stored.line.qualified = false := by
    have hline : ((latest ([Event.append [failedRow] 500 true, .append [retestRow] 500 true,
        .sync 1 0, .sync 0 1].foldl sampleEnv.step newDesk).results.disk.lines).get? "rsi_14").map
          (fun stored => stored.line.qualified) = some false := by decide +kernel
    exact Option.some.inj ((congrArg (Option.map _) hstored).symm.trans hline)
  rw [hlatest] at hqualified
  cases hqualified

end PaperTrading.Discovery.Agreement
