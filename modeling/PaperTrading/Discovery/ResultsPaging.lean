import PaperTrading.Discovery.ResultsListing

/-!
# Paging through the discovery results

A reader asks for pages of one size at consecutive offsets. `results_listed_iff`
says when the pages list each name's latest row of a status once, newest first, as
many as the total says, and the same rows in the same order behind a compaction:
exactly when the rows of one second are `InOrder`.

The first and the third hold in every state. The order can change: rows that are in
the journal are listed by the hash of their names, and a compaction lists them by
the names.
-/

namespace PaperTrading.Discovery.Results

open PaperTrading.Lib

variable {env : Env}

/-- The lines of the latest rows of a status. -/
def matchingLines (d : Disk) (status : Status) : List Line :=
  ((latest d.lines).entries.map fun e => e.2.line).filter fun line => status.matches line.qualified

/-- One page, as a process of the store reads it. -/
def page (env : Env) (s : Store) (pid offset limit : ℕ) (status : Status) : List Line × ℤ :=
  pageResultRecords env s.disk (s.procs pid) offset limit status

/-- The pages at consecutive offsets, up to the total. -/
def pages (env : Env) (s : Store) (pid limit : ℕ) (status : Status) : List Line :=
  let total := (page env s pid 0 limit status).2.toNat
  (List.range (total / limit + 1)).flatMap fun i => (page env s pid (i * limit) limit status).1

/-- `compact_results_index`, with nothing in between. -/
def compacted (env : Env) (s : Store) (pid : ℕ) : Store :=
  (s.step env ⟨pid, .snapshot, none⟩).step env ⟨pid, .install, none⟩

/-- What the pages of one size are to be. -/
structure Listed (env : Env) (s : Store) (pid limit : ℕ) (status : Status) : Prop where
  once : (pages env s pid limit status).Perm (matchingLines s.disk status)
  newest : (pages env s pid limit status).Pairwise fun a b =>
    env.instant b.testedAt ≤ env.instant a.testedAt
  total : ∀ offset, (page env s pid offset limit status).2 = (pages env s pid limit status).length
  compacted : pages env (compacted env s pid) pid limit status = pages env s pid limit status

/-! ## The total -/

theorem sectionRows_perm (rows : Rows) (status : Status) : (sectionRows env rows status).Perm
    ((rows.entries.map Prod.snd).filter fun row => status.matches row.line.qualified) :=
  (List.perm_insertionSort _ _).filter _

theorem map_sectionRows_perm (d : Disk) (status : Status) :
    ((sectionRows env (latest d.lines) status).map (·.line)).Perm (matchingLines d status) := by
  refine ((sectionRows_perm _ status).map _).trans ?_
  unfold matchingLines
  rw [List.filter_map, List.filter_map, List.map_map]
  rfl

/-- The total of a status is the number of its latest rows. -/
theorem total_countsOf (env : Env) (rows : Rows) (status : Status) :
    (countsOf rows).total status = (sectionRows env rows status).length := by
  rw [(sectionRows_perm rows status).length_eq, ← List.countP_eq_length_filter, List.countP_map]
  unfold countsOf passed
  cases status with
  | all => simp [Counts.total, Status.matches, Function.comp_def]
  | pass => rfl
  | fail =>
    have hrest := countP_not (fun e : String × Stored => e.2.line.qualified) rows.entries
    simp only [Counts.total, Status.matches, Function.comp_def]
    omega

/-! ## Pages of a store -/

/-- A published index that is in step is a base over some lines and a journal of the
rest. -/
theorem based_of_inStep {d : Disk} (h : InStep env d) {table : Table} (hbase : d.index.base = some table)
    (hinj : {name | ∃ line ∈ d.lines, line.strategy = name}.InjOn env.nameHash) :
    ∃ n, Based env d n ∧ table = env.indexBytes (latest (d.lines.take n)) := by
  obtain ⟨n, hn, htable, hnamed, hjournal⟩ := h.published table hbase
  exact ⟨n, ⟨hn, hnamed, hjournal, hinj⟩, htable⟩

section
variable {s : Store} {pid limit : ℕ} {status : Status}

/-- Any page, and the total it reports. -/
theorem page_eq (h : Valid env s) {n : ℕ} {table : Table} (hbase : s.disk.index.base = some table)
    (hbased : Based env s.disk n) (htable : table = env.indexBytes (latest (s.disk.lines.take n)))
    (hlimit : 0 < limit) (offset : ℕ) : page env s pid offset limit status =
      ((((listing env s.disk n status).drop offset).take limit).map (·.line),
        ((listing env s.disk n status).length : ℤ)) := by
  have htotal : (countsOf (latest s.disk.lines)).total status = (listing env s.disk n status).length := by
    rw [total_countsOf env, (hbased.listing_perm status).length_eq]
  unfold page pageResultRecords
  rw [(h.procs pid).peek, counts_of_inStep h.inStep, hbase]
  simp only [Option.map_some, Option.getD_some, htotal]
  rw [← hbased.page_eq htable offset limit status]
  split
  next hnone =>
    -- the page is behind the listing
    have hle : (listing env s.disk n status).length ≤ offset := by
      rcases hnone with hnone | hnone | hnone
      · omega
      · exact_mod_cast hnone
      · omega
    rw [hbased.page_eq htable offset limit status, List.drop_eq_nil_of_le hle, List.take_nil,
      List.map_nil]
  next =>
    split
    next => rfl
    next => rfl

theorem pages_eq (h : Valid env s) {n : ℕ} {table : Table} (hbase : s.disk.index.base = some table)
    (hbased : Based env s.disk n) (htable : table = env.indexBytes (latest (s.disk.lines.take n)))
    (hlimit : 0 < limit) :
    pages env s pid limit status = (listing env s.disk n status).map (·.line) := by
  unfold pages
  simp only [page_eq h hbase hbased htable hlimit, Int.toNat_natCast]
  rw [← List.map_flatMap, flatMap_windows, List.take_of_length_le]
  rw [Nat.mul_comm]
  exact (Nat.lt_mul_div_succ _ hlimit).le

/-- The second half of a compaction leaves the lines, and leaves the index as it was
or as a base without a journal. -/
theorem compactInstall_disk (d : Disk) (p : Process) :
    (d.after (compactInstall d p) none).lines = d.lines ∧
    ((d.after (compactInstall d p) none).index = d.index ∧
        (∀ snap ∈ p.snapshot, snap.1 ≠ d.index.stamp) ∨
      (d.after (compactInstall d p) none).index.journal = none ∧
        (d.after (compactInstall d p) none).index.base ≠ none) := by
  unfold compactInstall
  split
  next hnone =>
    refine ⟨List.append_nil _, Or.inl ⟨rfl, ?_⟩⟩
    rw [hnone]
    exact fun _ hs => (nomatch hs)
  next stat gen table hsnap =>
    split
    next => exact ⟨List.append_nil _, Or.inr ⟨rfl, fun hn => (nomatch hn)⟩⟩
    next hstat =>
      refine ⟨List.append_nil _, Or.inl ⟨rfl, ?_⟩⟩
      rw [hsnap]
      intro snap hs
      rw [← Option.some.inj hs]
      exact hstat

/-- A compaction leaves no record in the journal, and the lines as they were. -/
theorem compacted_disk (env : Env) (s : Store) (pid : ℕ) :
    (compacted env s pid).disk.lines = s.disk.lines ∧
    (compacted env s pid).disk.index.journalRecords = [] ∧
    (s.disk.index.base ≠ none → (compacted env s pid).disk.index.base ≠ none) := by
  have hsame : (s.step env ⟨pid, .snapshot, none⟩).disk = s.disk := by
    simp only [Store.step, effect, compactSnapshot]
    split
    next => simp [Disk.after, done]
    next => simp [Disk.after, done]
  have hproc : ((s.step env ⟨pid, .snapshot, none⟩).procs pid) =
      (compactSnapshot env s.disk (s.procs pid)).proc := by
    simp only [Store.step, Function.update_self]
    rfl
  obtain ⟨hlines, hindex⟩ := compactInstall_disk s.disk (compactSnapshot env s.disk (s.procs pid)).proc
  have hdisk : (compacted env s pid).disk =
      s.disk.after (compactInstall s.disk (compactSnapshot env s.disk (s.procs pid)).proc) none := by
    unfold compacted
    rw [← hproc, ← hsame]
    rfl
  rw [hdisk]
  refine ⟨hlines, ?_⟩
  rcases hindex with ⟨hindex, hstat⟩ | ⟨hjournal, hbase⟩
  · -- nothing was installed, so there was nothing to fold
    rw [hindex]
    refine ⟨?_, id⟩
    by_contra hlive
    unfold compactSnapshot at hstat
    rw [if_neg hlive] at hstat
    exact hstat _ rfl rfl
  · refine ⟨?_, fun _ => hbase⟩
    unfold Index.journalRecords
    rw [hjournal]

theorem valid_compacted (h : Valid env s) : Valid env (compacted env s pid) :=
  valid_step (valid_step h ⟨pid, .snapshot, none⟩ trivial) ⟨pid, .install, none⟩ trivial

/-- Behind a compaction the pages are the section of a base over all lines. -/
theorem pages_compacted (h : Valid env s) (hbase : s.disk.index.base ≠ none)
    (hinj : {name | ∃ line ∈ s.disk.lines, line.strategy = name}.InjOn env.nameHash)
    (hlimit : 0 < limit) : pages env (compacted env s pid) pid limit status =
      (sectionRows env (latest s.disk.lines) status).map (·.line) := by
  obtain ⟨hlines, hnil, hkeep⟩ := compacted_disk env s pid
  have hvalid : Valid env (compacted env s pid) := valid_compacted h
  obtain ⟨table, htable⟩ := Option.ne_none_iff_exists'.mp (hkeep hbase)
  rw [← hlines] at hinj
  obtain ⟨n, hbased, heq⟩ := based_of_inStep hvalid.inStep htable hinj
  rw [pages_eq hvalid htable hbased heq hlimit, hbased.listing_compacted hnil, hlines]

/-- A latest row can be told by its line. -/
theorem rows_of_lines {d : Disk} {rows rows' : List Stored} (h : ∀ row ∈ rows, Matching d status row)
    (h' : ∀ row ∈ rows', Matching d status row) (heq : rows.map (·.line) = rows'.map (·.line)) :
    rows = rows' := by
  have hback : ∀ rows : List Stored, (∀ row ∈ rows, Matching d status row) →
      (rows.map (·.line)).filterMap (fun line => (latest d.lines).get? line.strategy) = rows := by
    intro rows hrows
    rw [List.filterMap_map]
    refine (List.filterMap_congr (g := some) ?_).trans List.filterMap_some
    intro row hrow
    exact (hrows row hrow).1
  rw [← hback rows h, heq, hback rows' h']

/-- **Paging through the results.** Whatever the base, the journal, the status and
the page size, the pages list what they are to list, and the same behind a
compaction, exactly when the rows of one second are in order. -/
theorem results_listed_iff (h : Valid env s) (hbase : s.disk.index.base ≠ none)
    (hinj : {name | ∃ line ∈ s.disk.lines, line.strategy = name}.InjOn env.nameHash)
    (hlimit : 0 < limit) :
    Listed env s pid limit status ↔ InOrder env s.disk status := by
  obtain ⟨table, htable⟩ := Option.ne_none_iff_exists'.mp hbase
  obtain ⟨n, hbased, heq⟩ := based_of_inStep h.inStep htable hinj
  have hpages : pages env s pid limit status = (listing env s.disk n status).map (·.line) :=
    pages_eq h htable hbased heq hlimit
  have hafter : pages env (compacted env s pid) pid limit status =
      (sectionRows env (latest s.disk.lines) status).map (·.line) :=
    pages_compacted h hbase hinj hlimit
  have hperm := hbased.listing_perm status
  have hsorted : (sectionRows env (latest s.disk.lines) status).Pairwise
      fun a b => env.sortKey a < env.sortKey b := sectionRows_sorted (keyed_latest _) status
  -- the same pages behind a compaction: the listing is sorted by names already
  have hsame : pages env (compacted env s pid) pid limit status = pages env s pid limit status ↔
      (listing env s.disk n status).Pairwise fun a b => env.sortKey a < env.sortKey b := by
    rw [hpages, hafter]
    constructor
    · intro hlines
      have hrows := rows_of_lines (fun row hrow => mem_sectionRows_iff.mp hrow)
        (fun row hrow => mem_sectionRows_iff.mp (hperm.mem_iff.mp hrow)) hlines
      rw [← hrows]
      exact hsorted
    · intro hlisting
      rw [hperm.eq_of_pairwise (fun a b _ _ hab hba => absurd hab (lt_asymm hba)) hlisting hsorted]
  constructor
  · intro hlisted
    have hlist := hsame.mp hlisted.compacted
    have hnewest := hlisted.newest
    rw [← hlisted.compacted, hafter, List.pairwise_map] at hnewest
    obtain ⟨hjournal, hbaseOrder⟩ := hbased.sorted_iff.mp hlist
    exact ⟨newest_iff.mp hnewest, hjournal, hbaseOrder⟩
  · intro horder
    have hcompacted := hsame.mpr (hbased.sorted_iff.mpr ⟨horder.journal, horder.base⟩)
    refine ⟨?_, ?_, ?_, hcompacted⟩
    · rw [hpages]
      exact (hperm.map _).trans (map_sectionRows_perm _ _)
    · rw [← hcompacted, hafter, List.pairwise_map]
      exact newest_iff.mpr horder.seconds
    · intro offset
      rw [page_eq h htable hbased heq hlimit, hpages, List.length_map]

end

/-- A published name, and a journaled one tested at another time. -/
def twoNames (testedAt : String) : Store :=
  (publishedThen testedAt none).foldl (Store.step sampleEnv) (Store.start [])

theorem valid_twoNames (testedAt : String) : Valid sampleEnv (twoNames testedAt) :=
  run_inv (C := Indexed sampleEnv) (fun _ i h => valid_step h i) (publishedThen testedAt none)
    (valid_start []) ⟨trivial, trivial, trivial⟩

/-- Tested an hour apart, the two are listed one a page. -/
theorem hour_apart_listed : Listed sampleEnv (twoNames "2026-01-01T01:00:00+00:00") 0 1 .all := by
  have hhashes : ∀ l ∈ (twoNames "2026-01-01T01:00:00+00:00").disk.lines,
      ∀ l' ∈ (twoNames "2026-01-01T01:00:00+00:00").disk.lines,
        sampleEnv.nameHash l.strategy = sampleEnv.nameHash l'.strategy → l.strategy = l'.strategy := by
    decide +kernel
  have hunix : ∀ a ∈ (latest (twoNames "2026-01-01T01:00:00+00:00").disk.lines).entries.map Prod.snd,
      ∀ b ∈ (latest (twoNames "2026-01-01T01:00:00+00:00").disk.lines).entries.map Prod.snd,
        sampleEnv.unix a = sampleEnv.unix b → a = b := by
    decide +kernel
  have hrows : ∀ a b, Matching (twoNames "2026-01-01T01:00:00+00:00").disk .all a →
      Matching (twoNames "2026-01-01T01:00:00+00:00").disk .all b →
        sampleEnv.unix a = sampleEnv.unix b → a = b := fun a b ha hb =>
    hunix a ((mem_rows (keyed_latest _)).mpr ha.1) b ((mem_rows (keyed_latest _)).mpr hb.1)
  refine (results_listed_iff (valid_twoNames _) (by decide +kernel) ?_ (by decide)).mpr ⟨?_, ?_, ?_⟩
  · rintro _ ⟨l, hl, rfl⟩ _ ⟨l', hl', rfl⟩ heq
    exact hhashes l hl l' hl' heq
  · intro a b ha hb heq hlt
    exact absurd hlt (hrows a b ha hb heq ▸ lt_irrefl _)
  · intro a b ha hb _ _ heq hlt
    exact absurd hlt (hrows a b ha hb heq ▸ lt_irrefl _)
  · intro a b ha hb hja hjb heq
    exact absurd (hrows a b ha hb heq ▸ hja) hjb

/-- Tested in the same second, the journaled name is listed behind the published one
as long as it is in the journal, by their hashes, and in front of it behind a
compaction, by the names. -/
theorem tied_rows_move : ¬ Listed sampleEnv (twoNames "2026-01-01T00:00:00+00:00") 0 1 .all := by
  intro h
  have hmoved := h.compacted
  revert hmoved
  decide +kernel

end PaperTrading.Discovery.Results
