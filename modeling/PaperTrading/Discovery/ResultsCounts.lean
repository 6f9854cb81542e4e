import PaperTrading.Discovery.Results
import PaperTrading.Lib.Runs

/-!
# The totals of the discovery results

The totals are the header of the base table with the journal's records added up,
and each record says what its line changes. The index is in step with the history
(`InStep`) when the base is the table of an older part of the history and the
journal has the records of the lines behind it, in order. Then the totals are those
of the map of the whole history (`counts_of_inStep`).

`result_counts_right` follows this through every run of syncs, backfills and
compactions by any number of processes, whose crashes leave no line in the history
that the index does not have.
-/

namespace PaperTrading.Discovery.Results

open PaperTrading.Lib

variable {env : Env}

/-! ## Scanning lines -/

theorem scan_append (rows : Rows) (start : ℕ) (l m : List Line) :
    scan rows start (l ++ m) = scan (scan rows start l) (start + l.length) m := by
  unfold scan
  rw [List.zipIdx_append, List.foldl_append]

theorem latest_append (l m : List Line) : latest (l ++ m) = scan (latest l) l.length m := by
  unfold latest
  rw [scan_append, Nat.zero_add]

/-- The rows are kept under their own names, and every name is one. -/
def Keyed (rows : Rows) : Prop :=
  ∀ name row, rows.get? name = some row → row.line.strategy = name ∧ name ≠ ""

theorem Keyed.record {rows : Rows} (h : Keyed rows) (entry : Line × ℕ) :
    Keyed (record rows entry) := by
  unfold Results.record
  split
  next => exact h
  next hname =>
    intro name row hrow
    rw [Dict.get?_set] at hrow
    split at hrow
    next heq =>
      rw [heq, ← Option.some.inj hrow]
      exact ⟨rfl, hname⟩
    next => exact h name row hrow

theorem keyed_scan : ∀ (lines : List Line) {rows : Rows} (start : ℕ), Keyed rows →
    Keyed (scan rows start lines) := by
  intro lines
  induction lines with
  | nil => intro rows _ h; exact h
  | cons line lines ih => intro rows start h; exact ih (start + 1) (h.record (line, start))

theorem keyed_latest (lines : List Line) : Keyed (latest lines) :=
  keyed_scan lines 0 fun _ _ h => (nomatch h)

/-! ## One line and its record -/

/-- The journal record of a line moves the totals as the line moves the map. -/
theorem foldRecord_record {rows : Rows} {entry : Line × ℕ} (h : entry.1.strategy ≠ "") :
    Index.foldRecord (countsOf rows) (env.journalRecord rows entry) = countsOf (record rows entry) := by
  have hlen := Dict.countP_set rows entry.1.strategy ⟨entry.1, entry.2⟩ fun _ => true
  have hpass := Dict.countP_set rows entry.1.strategy ⟨entry.1, entry.2⟩ fun row => row.line.qualified
  unfold Results.record countsOf passed Index.foldRecord Env.journalRecord
  rw [if_neg h]
  simp only [List.countP_true, List.countP_cons, List.countP_nil] at hlen hpass ⊢
  -- the flags of the record are those of the row it replaces
  cases hprev : rows.get? entry.1.strategy with
  | none =>
    rw [hprev] at hlen hpass
    cases hq : entry.1.qualified
    all_goals
      simp [hq] at hlen hpass ⊢
      omega
  | some prev =>
    rw [hprev] at hlen hpass
    cases hq : entry.1.qualified
    all_goals
      cases hp : prev.line.qualified
      all_goals
        simp [hq, hp] at hlen hpass ⊢
        omega

/-! ## The records of some lines -/

/-- The journal records of lines that are appended one after the other. -/
def journalOf (env : Env) : Rows → ℕ → List Line → List JournalRecord
  | _, _, [] => []
  | rows, start, line :: lines =>
    env.journalRecord rows (line, start) :: journalOf env (record rows (line, start)) (start + 1) lines

theorem journalOf_append : ∀ (l m : List Line) (rows : Rows) (start : ℕ),
    journalOf env rows start (l ++ m) =
      journalOf env rows start l ++ journalOf env (scan rows start l) (start + l.length) m := by
  intro l
  induction l with
  | nil => intros; rfl
  | cons line l ih =>
    intro m rows start
    rw [List.cons_append, journalOf, journalOf, ih, List.cons_append, List.length_cons,
      Nat.add_comm l.length 1, ← Nat.add_assoc]
    rfl

/-- The records of lines take the totals of a map to those of the map with the
lines. -/
theorem fold_journalOf : ∀ (lines : List Line) (rows : Rows) (start : ℕ),
    (∀ line ∈ lines, line.strategy ≠ "") →
      (journalOf env rows start lines).foldl Index.foldRecord (countsOf rows) =
        countsOf (scan rows start lines) := by
  intro lines
  induction lines with
  | nil => intros; rfl
  | cons line lines ih =>
    intro rows start h
    rw [journalOf, List.foldl_cons, foldRecord_record (h line List.mem_cons_self)]
    exact ih _ _ fun l hl => h l (List.mem_cons_of_mem _ hl)

/-- Lines with different names can be described by what was there before all of
them. -/
theorem journalOf_distinct {rows : Rows} : ∀ (lines : List Line) {rows' : Rows} (start : ℕ),
    (lines.map (·.strategy)).Nodup →
    (∀ line ∈ lines, rows'.get? line.strategy = rows.get? line.strategy) →
      journalOf env rows' start lines = (lines.zipIdx start).map (env.journalRecord rows) := by
  intro lines
  induction lines with
  | nil => intros; rfl
  | cons line lines ih =>
    intro rows' start hnodup hsame
    rw [List.map_cons, List.nodup_cons] at hnodup
    rw [journalOf, List.zipIdx_cons, List.map_cons]
    congr 1
    · unfold Env.journalRecord
      rw [hsame line List.mem_cons_self]
    · apply ih (start + 1) hnodup.2
      intro l hl
      have hne : l.strategy ≠ line.strategy := fun heq => hnodup.1 (heq ▸ List.mem_map_of_mem hl)
      rw [← hsame l (List.mem_cons_of_mem _ hl)]
      unfold Results.record
      split
      next => rfl
      next => rw [Dict.get?_set, if_neg hne]

/-! ## The lines of an operation -/

theorem mem_pendingLines {rows : Rows} (hrows : Keyed rows) {incoming : List Row}
    {fresh : List String} {index : Option (Dict String Bool)} {line : Line}
    (h : line ∈ pendingLines rows incoming fresh index) : line.strategy ≠ "" := by
  rcases List.mem_append.mp h with h | h
  · obtain ⟨row, hrow, hline⟩ := List.mem_filterMap.mp h
    have hname : row.strategy ≠ "" := by
      simpa using (mem_greedy hrow).1
    unfold rowLine at hline
    simp only [Option.ite_none_left_eq_some] at hline
    rw [← Option.some.inj hline.2]
    exact hname
  · obtain ⟨entry, _, hline⟩ := List.mem_filterMap.mp h
    unfold indexLine at hline
    simp only [Option.ite_none_left_eq_some, not_or] at hline
    obtain ⟨⟨hname, _⟩, hline⟩ := hline
    cases hprev : rows.get? entry.1 with
    | none =>
      rw [hprev] at hline
      rw [← Option.some.inj hline]
      exact hname
    | some stored =>
      simp only [hprev, Option.ite_none_right_eq_some] at hline
      rw [← Option.some.inj hline.2]
      exact (hrows _ _ hprev).1 ▸ hname

theorem rowLine_name {rows : Rows} {fresh : List String} {index : Option (Dict String Bool)}
    (row : Row) (line : Line) (h : rowLine rows fresh index row = some line) :
    line.strategy = row.strategy := by
  unfold rowLine at h
  simp only [Option.ite_none_left_eq_some] at h
  rw [← Option.some.inj h.2]
  rfl

theorem indexLine_name {rows : Rows} (hrows : Keyed rows) {seen : List String} (entry : String × Bool)
    (line : Line) (h : indexLine rows seen entry = some line) :
    line.strategy = entry.1 ∧ entry.1 ∉ seen := by
  unfold indexLine at h
  simp only [Option.ite_none_left_eq_some, not_or] at h
  obtain ⟨⟨_, hseen⟩, h⟩ := h
  refine ⟨?_, hseen⟩
  cases hprev : rows.get? entry.1 with
  | none =>
    rw [hprev] at h
    rw [← Option.some.inj h]
    rfl
  | some stored =>
    simp only [hprev, Option.ite_none_right_eq_some] at h
    rw [← Option.some.inj h.2]
    exact (hrows _ _ hprev).1

/-- The lines of one operation have different names. -/
theorem pendingLines_nodup {rows : Rows} (hrows : Keyed rows) (incoming : List Row)
    (fresh : List String) (index : Option (Dict String Bool)) :
    ((pendingLines rows incoming fresh index).map (·.strategy)).Nodup := by
  have hkept : ((seenRows incoming).map (·.strategy)).Nodup := by
    have h : (keysOf (fun row : Row => some row.strategy) (seenRows incoming)).Nodup :=
      (keysOf_greedy incoming []).1
    rwa [keysOf, List.filterMap_eq_map'] at h
  have hfirst : (((seenRows incoming).filterMap (rowLine rows fresh index)).map (·.strategy)).Sublist
      ((seenRows incoming).map (·.strategy)) := Dict.map_filterMap_sublist rowLine_name _
  unfold pendingLines
  rw [List.map_append]
  -- rows first, one of each name, then index entries whose names no row has
  refine (hfirst.nodup hkept).append ?_ ?_
  · refine (Dict.map_filterMap_sublist (g := Prod.fst)
      (fun e l h => (indexLine_name hrows e l h).1) _).nodup ?_
    cases index with
    | none => exact List.nodup_nil
    | some flags => exact flags.nodup
  · intro name h₁ h₂
    obtain ⟨line, hline, rfl⟩ := List.mem_map.mp h₂
    obtain ⟨entry, _, hentry⟩ := List.mem_filterMap.mp hline
    obtain ⟨hname, hseen⟩ := indexLine_name hrows entry line hentry
    exact hseen (hname ▸ hfirst.subset h₁)

/-! ## An index in step with the history -/

/-- The base is the table of an older part of the history, and the journal has the
records of the lines behind it. -/
structure InStep (env : Env) (d : Disk) : Prop where
  unpublished : d.index.base = none → d.index.journal = none
  published : ∀ table, d.index.base = some table → ∃ n ≤ d.lines.length,
    table = env.indexBytes (latest (d.lines.take n)) ∧
    (∀ line ∈ d.lines.drop n, line.strategy ≠ "") ∧
    d.index.journalRecords = journalOf env (latest (d.lines.take n)) n (d.lines.drop n)

/-- What is not counted is the rest. -/
theorem countP_not {α : Type} (p : α → Bool) (l : List α) :
    l.countP p + l.countP (fun a => !p a) = l.length := by
  rw [List.length_eq_countP_add_countP p]
  congr 1
  apply List.countP_congr
  intro a _
  cases p a <;> simp

/-- The header of a table has the totals of its rows. -/
theorem header_indexBytes (rows : Rows) :
    (⟨(env.indexBytes rows).count, (env.indexBytes rows).npass, (env.indexBytes rows).nfail⟩ : Counts) =
      countsOf rows := by
  have hperm : (env.ordered rows).Perm (rows.entries.map Prod.snd) :=
    List.perm_insertionSort _ _
  have hlen : (env.ordered rows).length = rows.entries.length := by
    rw [hperm.length_eq, List.length_map]
  have hpass : (env.ordered rows).countP (fun row => row.line.qualified) = passed rows := by
    rw [hperm.countP_eq, List.countP_map]
    rfl
  have hrest := countP_not (fun row : Stored => row.line.qualified) (env.ordered rows)
  unfold Env.indexBytes countsOf
  simp only [← List.countP_eq_length_filter, Counts.mk.injEq]
  refine ⟨by rw [hlen], by rw [hpass], ?_⟩
  omega

theorem counts_of_inStep {d : Disk} (h : InStep env d) :
    d.index.counts = d.index.base.map fun _ => countsOf (latest d.lines) := by
  unfold Index.counts
  cases hb : d.index.base with
  | none => rfl
  | some table =>
    obtain ⟨n, hn, htable, hnamed, hjournal⟩ := h.published table hb
    rw [Option.map_some, Option.map_some, htable, header_indexBytes, hjournal,
      fold_journalOf _ _ _ hnamed]
    have hlen : (d.lines.take n).length = n := List.length_take_of_le hn
    conv_rhs => rw [← List.take_append_drop n d.lines, latest_append, hlen]

/-! ## Writes of the index files -/

theorem journalRecords_append (ix : Index) (records : List JournalRecord) :
    (done ix (ix.appendJournalWrites records)).journalRecords = ix.journalRecords ++ records ∧
    (done ix (ix.appendJournalWrites records)).base = ix.base := by
  unfold Index.appendJournalWrites
  cases hj : ix.journal with
  | none => simp [done, Index.journalRecords, hj]
  | some j =>
    obtain ⟨gen, old⟩ := j
    by_cases hg : gen = ix.gen
    · simp [done, Index.journalRecords, hj, hg]
    · simp [done, Index.journalRecords, hj, hg]

/-! ## What an operation writes -/

/-- An operation writes nothing to the index files, or journals its lines, or
installs the table of the history with its lines. It `replaces` a base only in the
last of these. -/
inductive Shape (env : Env) (d : Disk) (replaces : Bool) : List Line → List Index → Prop where
  | quiet {lines : List Line} (h : lines = [] ∨ d.index.base = none) : Shape env d replaces lines []
  | journal {lines : List Line} (hbase : d.index.base ≠ none) (hnew : lines ≠ [])
      (hnamed : ∀ line ∈ lines, line.strategy ≠ "") (hnodup : (lines.map (·.strategy)).Nodup)
      (h : replaces = false) :
      Shape env d replaces lines
        (d.index.appendJournalWrites (newRecords env d (latest d.lines) lines))
  | install (lines : List Line) (h : replaces = true ∨ d.index.base = none) :
      Shape env d replaces lines
        (d.index.installWrites (env.indexBytes (latest (d.lines ++ lines))))

/-- Where the history is unpublished, or no line is missing from the index, it is in
step. -/
theorem inStep_unpublished {d : Disk} (h : InStep env d) (hbase : d.index.base = none)
    (lines : List Line) : InStep env { d with lines := lines } :=
  ⟨h.unpublished, fun table ht => by rw [hbase] at ht; cases ht⟩

theorem inStep_journal {d : Disk} (h : InStep env d) {lines : List Line}
    (hnamed : ∀ line ∈ lines, line.strategy ≠ "") (hnodup : (lines.map (·.strategy)).Nodup)
    (hbase : d.index.base ≠ none) :
    InStep env
      { lines := d.lines ++ lines
        index := done d.index (d.index.appendJournalWrites (newRecords env d (latest d.lines) lines)) } := by
  obtain ⟨hrecords, hkeep⟩ :=
    journalRecords_append d.index (newRecords env d (latest d.lines) lines)
  constructor
  · intro hnone
    exact absurd (hkeep ▸ hnone) hbase
  · intro table htable
    obtain ⟨n, hn, htab, hold, hjournal⟩ := h.published table (hkeep ▸ htable)
    have hlen : (d.lines.take n).length = n := List.length_take_of_le hn
    refine ⟨n, by rw [List.length_append]; omega, ?_, ?_, ?_⟩
    · rw [List.take_append_of_le_length hn]
      exact htab
    · rw [List.drop_append_of_le_length hn]
      intro line hline
      exact (List.mem_append.mp hline).elim (hold line) (hnamed line)
    · -- the new records describe their lines as if each came behind the others
      have hall : scan (latest (d.lines.take n)) n (d.lines.drop n) = latest d.lines := by
        conv_rhs => rw [← List.take_append_drop n d.lines, latest_append, hlen]
      have hnext : n + (d.lines.drop n).length = d.lines.length := by
        rw [List.length_drop]
        omega
      rw [List.take_append_of_le_length hn, List.drop_append_of_le_length hn, journalOf_append,
        hall, hnext, hrecords, hjournal, newRecords,
        journalOf_distinct lines _ hnodup fun _ _ => rfl]

/-- A base with the table of all lines, and no journal for it. -/
theorem inStep_table {d : Disk} (hbase : d.index.base = some (env.indexBytes (latest d.lines)))
    (hjournal : d.index.journalRecords = []) : InStep env d := by
  constructor
  · intro hnone
    rw [hbase] at hnone
    cases hnone
  · intro table htable
    rw [hbase] at htable
    -- the older part is the whole history
    refine ⟨d.lines.length, le_refl _, ?_, ?_, ?_⟩
    · rw [List.take_length]
      exact (Option.some.inj htable).symm
    · rw [List.drop_length]
      intro line hline
      cases hline
    · rw [List.drop_length, hjournal]
      rfl

/-- The files grow: lines are only added, and where an index is published the stat
of the index files moves with them. -/
structure Grows (d d' : Disk) : Prop where
  lines : d.lines <+: d'.lines
  index : d'.index = d.index ∧ (d'.lines = d.lines ∨ d.index.base = none) ∨
    d.index.stamp < d'.index.stamp

/-- The files grow into files that are in step. -/
structure Kept (env : Env) (d d' : Disk) : Prop where
  inStep : InStep env d'
  grows : Grows d d'

/-- With the index files as they were, no line is new, or nothing is published. -/
theorem kept_index {d : Disk} (hd : InStep env d) {lines : List Line}
    (h : lines = [] ∨ d.index.base = none) : Kept env d { d with lines := d.lines ++ lines } := by
  rcases h with rfl | h
  · rw [List.append_nil]
    exact ⟨hd, List.prefix_refl _, Or.inl ⟨rfl, Or.inl rfl⟩⟩
  · exact ⟨inStep_unpublished hd h _, List.prefix_append _ _, Or.inl ⟨rfl, Or.inr h⟩⟩

theorem stamp_lt_appendJournal (ix : Index) (records : List JournalRecord) :
    ix.stamp < (done ix (ix.appendJournalWrites records)).stamp := by
  unfold Index.appendJournalWrites
  cases hj : ix.journal with
  | none => simp [done]
  | some j =>
    obtain ⟨gen, old⟩ := j
    by_cases hg : gen = ix.gen
    · simp [done, hg]
    · simp [done, hg]

/-- An operation that is finished leaves the index in step. -/
theorem Shape.finish {d : Disk} {replaces : Bool} {lines : List Line} {writes : List Index}
    (h : Shape env d replaces lines writes) (hd : InStep env d) :
    Kept env d { lines := d.lines ++ lines, index := done d.index writes } := by
  cases h with
  | quiet h => exact kept_index hd h
  | journal hbase _ hnamed hnodup =>
    exact ⟨inStep_journal hd hnamed hnodup hbase, List.prefix_append _ _,
      Or.inr (stamp_lt_appendJournal _ _)⟩
  | install =>
    exact ⟨inStep_table rfl rfl, List.prefix_append _ _, Or.inr (Journaled.stamp_lt_replace _ _)⟩

/-- The number of writes of the index files behind which the index has the lines:
a new base has them before the old journal is gone. -/
def indexedAfter (replaces : Bool) (writes : List Index) : ℕ := if replaces then 2 else writes.length

/-- So does a crash that leaves no line out of the index, and no journal behind
that the new base would take for its own. -/
theorem Shape.crash {d : Disk} {replaces : Bool} {lines : List Line} {writes : List Index}
    (h : Shape env d replaces lines writes) (hd : InStep env d) {k : ℕ}
    (hlines : d.index.base = none ∨ lines = [] ∨ indexedAfter replaces writes ≤ k)
    (hgen : k = 2 → replaces = true → d.index.Unnamed d.index.nextGeneration) :
    Kept env d { lines := d.lines ++ lines, index := cut d.index writes k } := by
  have hall : writes.length ≤ k →
      Kept env d { lines := d.lines ++ lines, index := cut d.index writes k } := by
    intro hk
    rw [cut_of_length_le hk]
    exact h.finish hd
  cases h with
  | quiet => exact hall (Nat.zero_le k)
  | journal hbase hnew _ _ hr =>
    subst hr
    exact hall ((hlines.resolve_left hbase).resolve_left hnew)
  | install hr =>
    -- before the new base: then no line is new, or nothing is published yet
    have hbefore : k < 2 → Kept env d { d with lines := d.lines ++ lines } := by
      intro hk
      apply kept_index hd
      rcases hlines with h | h | h
      · exact Or.inr h
      · exact Or.inl h
      · rcases hr with hr | hr
        · rw [hr] at h
          exact absurd h (by simp [indexedAfter]; omega)
        · exact Or.inr hr
    rcases k with _ | _ | _ | k
    · exact hbefore (by omega)
    · exact hbefore (by omega)
    · -- the new base with the old journal
      refine ⟨inStep_table rfl ?_, List.prefix_append _ _, Or.inr (Nat.lt_succ_self _)⟩
      have hunnamed : d.index.Unnamed d.index.nextGeneration := by
        rcases hr with hr | hr
        · exact hgen rfl hr
        · intro j hj
          rw [hd.unpublished hr] at hj
          cases hj
      unfold Index.journalRecords
      cases hj : d.index.journal with
      | none => simp [cut, Index.installWrites, Journaled.replaceWrites, hj]
      | some j =>
        have hne : j.1 ≠ d.index.nextGeneration := hunnamed j hj
        simp [cut, Index.installWrites, Journaled.replaceWrites, hj, hne]
    · exact hall (by simp [Index.installWrites, Journaled.replaceWrites])

/-! ## Runs -/

/-- The operation installs a base over one that may be there. -/
def Op.replacesBase : Op → Bool
  | .backfill _ _ => true
  | .install => true
  | _ => false

/-- The condition on a step. Where an index is published, a crash comes before the
first new line or behind the write that brings the lines into the index. And a
journal that a crash leaves behind a new base is for another generation. -/
def Indexed (env : Env) (s : Store) (i : Step) : Prop :=
  let d := s.disk
  let e := effect env d (s.procs i.pid) i.op
  match i.crash with
  | none => True
  | some (.lines k) => d.index.base = none ∨ e.lines.take k = []
  | some (.index k) =>
    (d.index.base = none ∨ e.lines = [] ∨ indexedAfter i.op.replacesBase e.index ≤ k) ∧
      (k = 2 → i.op.replacesBase = true → d.index.Unnamed d.index.nextGeneration)

/-- Every process that asks for the totals gets those of the map of the whole
history, or none while no index is published. -/
def CountsRight (s : Store) : Prop :=
  ∀ pid, (s.procs pid).peek s.disk.index =
    s.disk.index.base.map fun _ => countsOf (latest s.disk.lines)

/-- What a process keeps is right, as long as it is asked. -/
structure ProcGood (env : Env) (d : Disk) (p : Process) : Prop where
  map : ∀ m ∈ p.map, m.1 ≤ d.lines.length ∧ m.2 = latest (d.lines.take m.1)
  counts : ∀ c ∈ p.counts, c.1 ≤ d.index.stamp ∧ (c.1 = d.index.stamp → d.index.counts = some c.2)
  snapshot : ∀ snap ∈ p.snapshot, snap.1 ≤ d.index.stamp ∧
    (snap.1 = d.index.stamp → d.index.base ≠ none ∧
      snap.2.1 = d.index.nextGeneration ∧ snap.2.2 = env.indexBytes (latest d.lines))

structure Valid (env : Env) (s : Store) : Prop where
  inStep : InStep env s.disk
  procs : ∀ pid, ProcGood env s.disk (s.procs pid)

theorem procGood_empty {d : Disk} : ProcGood env d {} :=
  ⟨fun _ h => (nomatch h), fun _ h => (nomatch h), fun _ h => (nomatch h)⟩

theorem ProcGood.loadMap {d : Disk} {p : Process} (h : ProcGood env d p) :
    p.loadMap d.lines = latest d.lines := by
  unfold Process.loadMap
  split
  next pos rows hm =>
    obtain ⟨hpos, hrows⟩ := h.map _ hm
    simp only at hpos hrows
    have hlen : (d.lines.take pos).length = pos := List.length_take_of_le hpos
    rw [if_pos hpos, hrows]
    conv_rhs => rw [← List.take_append_drop pos d.lines, latest_append, hlen]
  next => rfl

theorem ProcGood.peek {d : Disk} {p : Process} (h : ProcGood env d p) :
    p.peek d.index = d.index.counts := by
  unfold Process.peek
  split
  next key counts hc =>
    split
    next hkey => exact ((h.counts _ hc).2 hkey).symm
    next => rfl
  next => rfl

theorem Valid.countsRight {s : Store} (h : Valid env s) : CountsRight s := by
  intro pid
  rw [(h.procs pid).peek, counts_of_inStep h.inStep]

theorem ProcGood.grows {d d' : Disk} {p : Process} (h : ProcGood env d p) (hg : Grows d d') :
    ProcGood env d' p := by
  constructor
  · intro m hm
    obtain ⟨hpos, hrows⟩ := h.map m hm
    obtain ⟨extra, hextra⟩ := hg.lines
    rw [← hextra, List.take_append_of_le_length hpos, List.length_append]
    exact ⟨by omega, hrows⟩
  · intro c hc
    obtain ⟨hle, hsame⟩ := h.counts c hc
    rcases hg.index with ⟨hindex, _⟩ | hlt
    · rw [hindex]
      exact ⟨hle, hsame⟩
    · exact ⟨by omega, fun heq => absurd heq (by omega)⟩
  · intro snap hsnap
    obtain ⟨hle, hsame⟩ := h.snapshot snap hsnap
    rcases hg.index with ⟨hindex, hlines⟩ | hlt
    · rw [hindex]
      refine ⟨hle, ?_⟩
      intro heq
      obtain ⟨hbase, hgen, htable⟩ := hsame heq
      rw [hlines.resolve_right hbase]
      exact ⟨hbase, hgen, htable⟩
    · exact ⟨by omega, fun heq => absurd heq (by omega)⟩

section
variable {d : Disk} {p : Process}

/-- What each operation writes, by a process that is up to date. -/
theorem shape_effect (hp : ProcGood env d p) (op : Op) :
    Shape env d op.replacesBase (effect env d p op).lines (effect env d p op).index := by
  have hkeyed := keyed_latest d.lines
  cases op with
  | sync rows fresh =>
    simp only [effect, syncDiscoveryResults, hp.loadMap]
    cases hbase : d.index.base with
    -- the first publish writes the whole table
    | none =>
      simp only
      split
      next => exact .quiet (Or.inr hbase)
      next =>
        rw [← latest_append]
        exact .install _ (Or.inr hbase)
    | some table =>
      simp only
      split
      next => exact .quiet (Or.inl rfl)
      next hnew =>
        exact .journal (by simp [hbase]) hnew (fun line hline => mem_pendingLines hkeyed hline)
          (pendingLines_nodup hkeyed _ _ _) rfl
  | backfill logRows index =>
    simp only [effect, backfillDiscoveryResults, hp.loadMap]
    split
    next =>
      rw [← latest_append]
      exact .install _ (Or.inl rfl)
    next => exact .quiet (Or.inl rfl)
  | snapshot =>
    simp only [effect, compactSnapshot]
    split
    next => exact .quiet (Or.inl rfl)
    next => exact .quiet (Or.inl rfl)
  | install =>
    simp only [effect, compactInstall]
    split
    next => exact .quiet (Or.inl rfl)
    next stat gen table hsnap =>
      split
      next hstat =>
        -- the files did not move, so the table in flight is that of all lines
        obtain ⟨_, hgen, htable⟩ := (hp.snapshot _ hsnap).2 hstat
        simp only at hgen htable
        rw [hgen, htable]
        have h : Shape env d Op.install.replacesBase []
            (d.index.installWrites (env.indexBytes (latest (d.lines ++ [])))) :=
          .install [] (Or.inl rfl)
        rwa [List.append_nil] at h
      next => exact .quiet (Or.inl rfl)
  | peek => exact .quiet (Or.inl rfl)
  | restart => exact .quiet (Or.inl rfl)

/-- A process that keeps no more than it did, but for its map. -/
theorem ProcGood.keep {d : Disk} {p q : Process} (hp : ProcGood env d p)
    (hmap : ∀ m ∈ q.map, m.1 ≤ d.lines.length ∧ m.2 = latest (d.lines.take m.1))
    (hcounts : q.counts = none ∨ q.counts = p.counts)
    (hsnap : q.snapshot = none ∨ q.snapshot = p.snapshot) : ProcGood env d q := by
  refine ⟨hmap, ?_, ?_⟩
  · rcases hcounts with h | h
    · rw [h]
      exact fun _ hc => (nomatch hc)
    · rw [h]
      exact hp.counts
  · rcases hsnap with h | h
    · rw [h]
      exact fun _ hc => (nomatch hc)
    · rw [h]
      exact hp.snapshot

/-- The totals behind a peek are those a reader finds. -/
theorem ProcGood.peeked (hp : ProcGood env d p) : ∀ c ∈ p.peeked d.index,
    c.1 ≤ d.index.stamp ∧ (c.1 = d.index.stamp → d.index.counts = some c.2) := by
  intro c hc
  obtain ⟨counts, hcounts, rfl⟩ := Option.map_eq_some_iff.mp hc
  rw [hp.peek] at hcounts
  exact ⟨le_refl _, fun _ => hcounts⟩

/-- The map behind some lines is the one of the history with them. -/
theorem map_scan {lines : List Line} : ∀ m ∈ some (d.lines.length + lines.length,
    scan (latest d.lines) d.lines.length lines),
    m.1 ≤ (d.lines ++ lines).length ∧ m.2 = latest ((d.lines ++ lines).take m.1) := by
  intro m hm
  rw [← Option.some.inj hm, ← List.length_append, ← latest_append, List.take_length]
  exact ⟨le_refl _, rfl⟩

/-- An operation that writes nothing leaves the files as they are. -/
theorem after_quiet (d : Disk) (q : Process) : d.after { proc := q } none = d := by
  simp [Disk.after, done]

/-- The map a process has loaded is the one of all lines. -/
theorem map_loaded : ∀ m ∈ some (d.lines.length, latest d.lines),
    m.1 ≤ d.lines.length ∧ m.2 = latest (d.lines.take m.1) := by
  intro m hm
  rw [← Option.some.inj hm, List.take_length]
  exact ⟨le_refl _, rfl⟩

theorem procGood_sync (hd : InStep env d) (hp : ProcGood env d p) (rows : List Row)
    (fresh : List String) :
    ProcGood env (d.after (syncDiscoveryResults env d p rows fresh) none)
      (syncDiscoveryResults env d p rows fresh).proc := by
  have hnext := hp.grows ((shape_effect hp (.sync rows fresh)).finish hd).grows
  simp only [effect, syncDiscoveryResults, hp.loadMap] at hnext ⊢
  cases hbase : d.index.base with
  | none =>
    simp only [hbase] at hnext ⊢
    split
    next h =>
      rw [if_pos h] at hnext
      exact hnext.keep map_scan (Or.inr rfl) (Or.inr rfl)
    next h =>
      rw [if_neg h] at hnext
      exact hnext.keep map_scan (Or.inl rfl) (Or.inr rfl)
  | some table =>
    simp only [hbase] at hnext ⊢
    split
    next h =>
      rw [if_pos h] at hnext
      rw [h] at hnext ⊢
      exact hnext.keep map_scan (Or.inr rfl) (Or.inr rfl)
    next h =>
      rw [if_neg h] at hnext
      exact hnext.keep map_scan (Or.inl rfl) (Or.inr rfl)

theorem procGood_backfill (hd : InStep env d) (hp : ProcGood env d p) (logRows : List Row)
    (index : Dict String Bool) :
    ProcGood env (d.after (backfillDiscoveryResults env d p logRows index) none)
      (backfillDiscoveryResults env d p logRows index).proc := by
  have hnext := hp.grows ((shape_effect hp (.backfill logRows index)).finish hd).grows
  simp only [effect, backfillDiscoveryResults, hp.loadMap] at hnext ⊢
  split
  next h =>
    rw [if_pos h] at hnext
    exact hnext.keep map_scan (Or.inl rfl) (Or.inr rfl)
  next h =>
    -- nothing was due, so the files are as they were
    have hnil : pendingLines (latest d.lines) logRows [] (some index) = [] := by
      by_contra hne
      exact h (Or.inl hne)
    rw [hnil, after_quiet]
    exact ⟨map_loaded, hp.peeked, hp.snapshot⟩

theorem procGood_compactSnapshot (hd : InStep env d) (hp : ProcGood env d p) :
    ProcGood env (d.after (compactSnapshot env d p) none) (compactSnapshot env d p).proc := by
  simp only [compactSnapshot, hp.loadMap]
  split
  next =>
    rw [after_quiet]
    exact hp
  next hlive =>
    rw [after_quiet]
    refine ⟨map_loaded, hp.counts, ?_⟩
    intro snap hsnap
    rw [← Option.some.inj hsnap]
    refine ⟨le_refl _, fun _ => ⟨?_, rfl, rfl⟩⟩
    -- a journal with records extends a base
    intro hbase
    apply hlive
    unfold Index.journalRecords
    rw [hd.unpublished hbase]

theorem procGood_compactInstall (hd : InStep env d) (hp : ProcGood env d p) :
    ProcGood env (d.after (compactInstall d p) none) (compactInstall d p).proc := by
  have hnext := hp.grows ((shape_effect hp .install).finish hd).grows
  simp only [effect, compactInstall] at hnext ⊢
  cases hs : p.snapshot with
  | none =>
    rw [after_quiet]
    exact hp
  | some snap =>
    obtain ⟨stat, gen, table⟩ := snap
    simp only [hs] at hnext ⊢
    split
    next h =>
      rw [if_pos h] at hnext
      exact hnext.keep hnext.map (Or.inl rfl) (Or.inl rfl)
    next =>
      rw [after_quiet]
      exact hp.keep hp.map (Or.inr rfl) (Or.inl rfl)

/-- What an operation that is finished leaves in its process. -/
theorem procGood_effect (hd : InStep env d) (hp : ProcGood env d p) (op : Op) :
    ProcGood env (d.after (effect env d p op) none) (effect env d p op).proc := by
  cases op with
  | sync rows fresh => exact procGood_sync hd hp rows fresh
  | backfill logRows index => exact procGood_backfill hd hp logRows index
  | snapshot => exact procGood_compactSnapshot hd hp
  | install => exact procGood_compactInstall hd hp
  | peek =>
    show ProcGood env (d.after (peekResultCounts d p) none) (peekResultCounts d p).proc
    rw [peekResultCounts, after_quiet]
    exact ⟨hp.map, hp.peeked, hp.snapshot⟩
  | restart => exact procGood_empty

end

/-! ## Every run -/

theorem valid_step {s : Store} (h : Valid env s) (i : Step) (hi : Indexed env s i) :
    Valid env (s.step env i) := by
  have hp := h.procs i.pid
  have hshape := shape_effect hp i.op
  have hkept : Kept env s.disk (s.step env i).disk := by
    unfold Indexed at hi
    simp only [Store.step]
    cases hc : i.crash with
    | none => exact hshape.finish h.inStep
    | some point =>
      rw [hc] at hi
      cases point with
      | lines k => exact kept_index h.inStep hi.symm
      | index k => exact hshape.crash h.inStep hi.1 hi.2
  refine ⟨hkept.inStep, ?_⟩
  intro pid
  -- the process that took the step, and those that only see files that grew
  by_cases hpid : pid = i.pid
  · simp only [Store.step, hpid, Function.update_self]
    cases hc : i.crash with
    | none => exact procGood_effect h.inStep hp i.op
    | some point => exact procGood_empty
  · have hother : (s.step env i).procs pid = s.procs pid := by
      simp [Store.step, hpid]
    rw [hother]
    exact (h.procs pid).grows hkept.grows

theorem valid_start (lines : List Line) : Valid env (Store.start lines) :=
  ⟨⟨fun _ => rfl, fun _ h => (nomatch h)⟩, fun _ => procGood_empty⟩

/-- **The totals of the results.** Over any history, in any run of syncs, backfills
and compactions by processes that share the files, whose crashes leave no line in
the history that the index does not have: after every step the totals a process
gets are those of the map of the whole history. -/
theorem result_counts_right (env : Env) (lines : List Line) (steps : List Step)
    (h : Along (Store.step env) (Indexed env) (Store.start lines) steps) :
    Along (Store.step env) (fun s i => CountsRight (s.step env i)) (Store.start lines) steps := by
  refine along_of_inv (I := Valid env) ?_ steps (valid_start lines) h
  intro s i hvalid hi
  have hnext := valid_step hvalid i hi
  exact ⟨hnext.countsRight, hnext⟩

/-- The digests of two names, and two timestamps. -/
def sampleEnv : Env where
  nameHash name :=
    if name = "mom_12" then 16578910714081400353
    else if name = "rsi_14" then 11986786493744677149
    else 0
  parseTestedAt value :=
    if value = "2026-01-01T00:00:00+00:00" then some 1767225600000000
    else if value = "2026-01-01T01:00:00+00:00" then some 1767229200000000
    else none

/-- An evaluation of a name. -/
def sampleRow (name : String) (qualified : Bool) (testedAt : String) : Row where
  strategy := name
  qualified := qualified
  testedAt := some testedAt
  scored := ""
  retest := ""
  rest := ""
  requalifySource := none

/-- One name is published, and a second one is synced. -/
def publishedThen (testedAt : String) (crash : Option Point) : List Step :=
  [⟨0, .sync [sampleRow "rsi_14" true "2026-01-01T00:00:00+00:00"] ["rsi_14"], none⟩,
    ⟨0, .sync [sampleRow "mom_12" false testedAt] ["mom_12"], crash⟩]

/-- The second name is journaled, and a compaction that folds it into a new base is
cut short before the journal is removed. -/
theorem folded_counts_right :
    Along (Store.step sampleEnv) (fun s i => CountsRight (s.step sampleEnv i)) (Store.start [])
      (publishedThen "2026-01-01T01:00:00+00:00" none ++
        [⟨0, .snapshot, none⟩, ⟨0, .install, some (.index 2)⟩]) := by
  apply result_counts_right
  refine ⟨trivial, trivial, trivial, ⟨Or.inr (Or.inl ?_), fun _ _ => ?_⟩, trivial⟩
  · decide +kernel
  · unfold Journaled.Unnamed
    decide +kernel

/-- The second name's line is in the history, and the process ends before it is
journaled. Syncing the name again finds the line, and the totals still miss it. -/
theorem unjournaled_line_uncounted :
    ¬ Along (Store.step sampleEnv) (fun s i => CountsRight (s.step sampleEnv i)) (Store.start [])
      (publishedThen "2026-01-01T01:00:00+00:00" (some (.lines 1)) ++
        [⟨0, .sync [sampleRow "mom_12" false "2026-01-01T01:00:00+00:00"] ["mom_12"], none⟩]) := by
  intro h
  have hcounts := h.2.2.1 0
  revert hcounts
  decide +kernel

end PaperTrading.Discovery.Results
