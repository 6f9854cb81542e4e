import PaperTrading.Discovery.Ingest
import PaperTrading.Lib.Greedy
import PaperTrading.Lib.Journaled
import PaperTrading.Lib.Runs

/-!
# The two files of the discovery log

`discovery_log.json` is the base, newest row first. An append writes to
`discovery_log_delta.jsonl` only, oldest row first, and a reader merges the two:
a row of the delta whose `(strategy, tested_at)` is in the base, or was seen
already, is dropped. A compaction writes the merged rows as the new base and then
removes the delta, and a crash can come between the two.

The process keeps the log it last read or wrote, with the stat of the files.

`log_files_agree` says for which runs the merged log is what was appended, newest
first and up to the cap, and the log in memory is the one on disk. Both the key
and the cap can break it: a row without a key is not recognised in the base, and
neither is one that the base has no room for.
-/

namespace PaperTrading.Discovery.LogFiles

open PaperTrading.Lib

/-- A row of the log. A field that is missing, or is no string, is `none`. -/
structure Row where
  strategy : Option String
  testedAt : Option String
  rest : String
deriving DecidableEq

/-- `_row_key` -/
def rowKey (row : Row) : Option (String × String) :=
  match row.strategy, row.testedAt with
  | some name, some tested => if name ≠ "" ∧ tested ≠ "" then some (name, tested) else none
  | _, _ => none

/-- The base, newest first, the lines of the delta, oldest first, and the stat of
both. -/
structure Disk where
  base : List Row := []
  delta : List Row := []
  stamp : ℕ := 0

namespace Disk
variable (disk : Disk)

/-- The rows of the delta that a reader puts in front of the base. -/
def fresh : List Row :=
  greedy rowKey (fun _ => false) (keysOf rowKey disk.base) disk.delta.reverse

/-- `_read_discovery_log` -/
def readDiscoveryLog : List Row :=
  if disk.delta.reverse = [] then disk.base
  else (disk.fresh ++ disk.base).take DISCOVERY_LOG_CAP

/-- `_append_delta` -/
def appendDelta (records : List Row) : Disk :=
  { disk with delta := disk.delta ++ records.reverse, stamp := disk.stamp + 1 }

/-- `_write_log_blob` -/
def writeLog (rows : List Row) : Disk := { disk with base := rows, stamp := disk.stamp + 1 }

/-- `_clear_delta` -/
def clearDelta : Disk := { disk with delta := [], stamp := disk.stamp + 1 }

end Disk

/-- The files, the log the process keeps, and the rows of a compaction in
flight. -/
structure Store where
  disk : Disk := {}
  cache : Option (ℕ × List Row) := none
  snapshot : Option (ℕ × List Row) := none

namespace Store
variable (s : Store)

/-- `load_discovery_log` -/
def loadDiscoveryLog : List Row :=
  match s.cache with
  | some (key, rows) => if key = s.disk.stamp then rows else s.disk.readDiscoveryLog
  | none => s.disk.readDiscoveryLog

/-- What `load_discovery_log` leaves in the process. -/
def loaded : Store := { s with cache := some (s.disk.stamp, s.loadDiscoveryLog) }

/-- `_append_batch_locked`: the log in memory is the one from before the write
with the records in front. -/
def appendBatch (records : List Row) (cap : ℕ) : Store :=
  let prior := s.loadDiscoveryLog
  let disk := s.disk.appendDelta records
  { s with disk := disk, cache := some (disk.stamp, (records ++ prior).take cap) }

/-- `append_discovery_evaluations` -/
def appendDiscoveryEvaluations (records : List Row) (cap : ℕ) : Store :=
  if records = [] then s.loaded else s.appendBatch records cap

/-- The first half of `_compact_log`. -/
def compactSnapshot : Store := { s with snapshot := some (s.disk.stamp, s.disk.readDiscoveryLog) }

/-- Its second half, skipped when the files moved. A crash comes behind the new
base. -/
def compactInstall (crash : Bool) : Store :=
  match s.snapshot with
  | none => s
  | some (fp, rows) =>
    if fp = s.disk.stamp then
      if crash then { disk := s.disk.writeLog rows }
      else
        let disk := (s.disk.writeLog rows).clearDelta
        { disk := disk, cache := some (disk.stamp, rows) }
    else { s with snapshot := none }

end Store

inductive Op where
  | append (records : List Row) (cap : ℕ)
  | load
  | snapshot
  | install (crash : Bool)
  | restart

def Store.step (s : Store) : Op → Store
  | .append records cap => s.appendDiscoveryEvaluations records cap
  | .load => s.loaded
  | .snapshot => s.compactSnapshot
  | .install crash => s.compactInstall crash
  | .restart => { disk := s.disk }

/-! ## Reading the files -/

theorem read_eq {disk : Disk} (h : disk.base.length ≤ DISCOVERY_LOG_CAP) :
    disk.readDiscoveryLog = (disk.fresh ++ disk.base).take DISCOVERY_LOG_CAP := by
  unfold Disk.readDiscoveryLog
  split
  next hnil =>
    unfold Disk.fresh
    rw [hnil, greedy, List.nil_append, List.take_of_length_le h]
  next => rfl

/-- The first elements do not change when the elements behind them are
filtered. -/
theorem take_filter_append {α : Type} {p : α → Bool} {l m : List α} {n : ℕ}
    (h : ∀ a ∈ l.take n, p a = true) : (l.filter p ++ m).take n = (l ++ m).take n := by
  rcases Nat.le_total l.length n with hle | hle
  · rw [List.take_of_length_le hle] at h
    rw [List.filter_eq_self.mpr h]
  · have hlen : (l.take n).length = n := List.length_take_of_le hle
    have hsplit : l.filter p = l.take n ++ (l.drop n).filter p := by
      conv_lhs => rw [← List.take_append_drop n l, List.filter_append, List.filter_eq_self.mpr h]
    rw [hsplit, List.append_assoc, List.take_left' hlen, List.take_append_of_le_length hle]

/-- Behind `l`, as much of `m` is taken as there is room for. -/
theorem take_append_take {α : Type} (l m : List α) (n : ℕ) :
    (l ++ m.take n).take n = (l ++ m).take n := by
  rw [List.take_append, List.take_append, List.take_take, Nat.min_eq_left (Nat.sub_le _ _)]

/-- Records can be told from what is there: those that the cap leaves room for
have keys that differ from each other and from those of the base, and no row that
stays in the log has the key of one. -/
structure Distinct (base history records : List Row) : Prop where
  nodup : (keysOf rowKey ((records ++ history).take DISCOVERY_LOG_CAP)).Nodup
  free : ∀ k ∈ keysOf rowKey (records.take DISCOVERY_LOG_CAP), k ∉ keysOf rowKey base

/-- Behind an append a reader finds the records in front of what it found
before. -/
theorem read_appendDelta {disk : Disk} {records : List Row}
    (hbase : disk.base.length ≤ DISCOVERY_LOG_CAP)
    (hrecords : Distinct disk.base disk.readDiscoveryLog records) :
    (disk.appendDelta records).readDiscoveryLog =
      (records ++ disk.readDiscoveryLog).take DISCOVERY_LOG_CAP := by
  have hnodup := hrecords.nodup
  have hfree := hrecords.free
  have hreverse : (disk.delta ++ records.reverse).reverse = records ++ disk.delta.reverse := by
    rw [List.reverse_append, List.reverse_reverse]
  have hafter : (disk.appendDelta records).readDiscoveryLog =
      ((disk.appendDelta records).fresh ++ (disk.appendDelta records).base).take DISCOVERY_LOG_CAP :=
    read_eq hbase
  rw [read_eq hbase, take_append_take] at hnodup ⊢
  rw [hafter]
  show (greedy rowKey (fun _ => false) (keysOf rowKey disk.base)
    (disk.delta ++ records.reverse).reverse ++ disk.base).take DISCOVERY_LOG_CAP = _
  rw [hreverse]
  rcases Nat.le_total DISCOVERY_LOG_CAP records.length with hle | hle
  · -- the records fill the log, and those that get in are all fresh
    have hlen : (records.take DISCOVERY_LOG_CAP).length = DISCOVERY_LOG_CAP :=
      List.length_take_of_le hle
    rw [List.take_append_of_le_length hle] at hnodup ⊢
    conv_lhs => rw [← List.take_append_drop DISCOVERY_LOG_CAP records, List.append_assoc]
    rw [greedy_fresh_append _ hnodup hfree, List.append_assoc, List.take_left' hlen]
  · -- all records are fresh; of the rest only rows past the cap can have their keys
    rw [List.take_of_length_le hle] at hfree
    rw [List.take_append, List.take_of_length_le hle] at hnodup
    unfold keysOf at hnodup
    rw [List.filterMap_append] at hnodup
    obtain ⟨hrecs, _, hapart⟩ := List.nodup_append.mp hnodup
    rw [greedy_fresh_append _ hrecs hfree, greedy_more, List.append_assoc, List.take_append]
    conv_rhs => rw [List.take_append]
    congr 1
    apply take_filter_append
    intro row hrow
    have hin : row ∈ (disk.fresh ++ disk.base).take (DISCOVERY_LOG_CAP - records.length) := by
      rw [List.take_append]
      exact List.mem_append_left _ hrow
    cases hk : rowKey row with
    | none => rfl
    | some k =>
      have hnot : k ∉ keysOf rowKey records := by
        intro hmem
        exact hapart k hmem k (mem_keysOf hin hk) rfl
      simpa [keyTaken] using hnot

/-- With the merged rows as the base, a delta of rows that are all among them
adds nothing. -/
theorem read_writeLog {disk : Disk} {rows : List Row} (hlen : rows.length ≤ DISCOVERY_LOG_CAP)
    (hdelta : ∀ row ∈ disk.delta, ∃ k ∈ keysOf rowKey rows, rowKey row = some k) :
    (disk.writeLog rows).readDiscoveryLog = rows := by
  have hnone : (disk.writeLog rows).fresh = [] := by
    apply greedy_all_taken
    intro row hrow
    obtain ⟨k, hk, hrowk⟩ := hdelta row (List.mem_reverse.mp hrow)
    show keyTaken (keysOf rowKey rows) (rowKey row) = true
    simpa [hrowk, keyTaken] using hk
  rw [read_eq hlen, hnone, List.nil_append]
  exact List.take_of_length_le hlen

/-! ## Runs -/

/-- The store with all rows that were appended, newest first. -/
structure Traced where
  store : Store := {}
  history : List Row := []

def Traced.step (t : Traced) (op : Op) : Traced where
  store := t.store.step op
  history :=
    match op with
    | .append records _ => records ++ t.history
    | _ => t.history

/-- The merged log is what was appended, up to the cap, and the log in memory is
what a fresh read finds. -/
structure Agrees (t : Traced) : Prop where
  merged : t.store.disk.readDiscoveryLog = t.history.take DISCOVERY_LOG_CAP
  memory : t.store.loadDiscoveryLog = t.store.disk.readDiscoveryLog

/-- The condition on a step. The records of an append can be told from what is
there, and the append's cap cuts where the reader's does. At a crash between the
two writes of a compaction every row of the delta is known, by its key, to be in
the new base. -/
def Told (t : Traced) : Op → Prop
  | .append records cap => records = [] ∨
      Distinct t.store.disk.base (t.history.take DISCOVERY_LOG_CAP) records ∧
      (cap = DISCOVERY_LOG_CAP ∨ records.length + t.history.length ≤ min cap DISCOVERY_LOG_CAP)
  | .install crash => crash = true → ∀ row ∈ t.store.disk.delta,
      ∃ k ∈ keysOf rowKey (t.history.take DISCOVERY_LOG_CAP), rowKey row = some k
  | _ => True

/-- What the steps keep. -/
structure Valid (t : Traced) : Prop where
  base : t.store.disk.base.length ≤ DISCOVERY_LOG_CAP
  merged : t.store.disk.readDiscoveryLog = t.history.take DISCOVERY_LOG_CAP
  cache : ViewGood t.store.disk.stamp t.store.disk.readDiscoveryLog t.store.cache
  snapshot : ViewGood t.store.disk.stamp t.store.disk.readDiscoveryLog t.store.snapshot

section
variable {t : Traced}

theorem Valid.load (h : Valid t) : t.store.loadDiscoveryLog = t.store.disk.readDiscoveryLog := by
  unfold Store.loadDiscoveryLog
  split
  next key rows hc =>
    split
    next hkey => exact (h.cache _ hc).2 hkey
    next => rfl
  next => rfl

theorem Valid.agrees (h : Valid t) : Agrees t := ⟨h.merged, h.load⟩

theorem valid_loaded (h : Valid t) : Valid { t with store := t.store.loaded } := by
  refine ⟨h.base, h.merged, ?_, h.snapshot⟩
  show ViewGood _ t.store.disk.readDiscoveryLog (some (t.store.disk.stamp, t.store.loadDiscoveryLog))
  rw [h.load]
  exact viewGood_fresh

/-- The cap of the append and that of the reader leave the same rows. -/
theorem take_cap {records : List Row} {cap : ℕ}
    (hcap : cap = DISCOVERY_LOG_CAP ∨
      records.length + t.history.length ≤ min cap DISCOVERY_LOG_CAP) :
    (records ++ t.history.take DISCOVERY_LOG_CAP).take cap =
      (records ++ t.history.take DISCOVERY_LOG_CAP).take DISCOVERY_LOG_CAP := by
  rcases hcap with rfl | hcap
  · rfl
  · have hlen : (records ++ t.history.take DISCOVERY_LOG_CAP).length ≤
        min cap DISCOVERY_LOG_CAP := by
      rw [List.length_append, List.length_take]
      omega
    rw [List.take_of_length_le (hlen.trans (Nat.min_le_left _ _)),
      List.take_of_length_le (hlen.trans (Nat.min_le_right _ _))]

theorem valid_append (h : Valid t) {records : List Row} {cap : ℕ} (htold : Told t (.append records cap)) :
    Valid (t.step (.append records cap)) := by
  by_cases hnil : records = []
  · have hstep : t.step (.append records cap) = { t with store := t.store.loaded } := by
      simp [Traced.step, Store.step, Store.appendDiscoveryEvaluations, hnil]
    rw [hstep]
    exact valid_loaded h
  · obtain ⟨hdistinct, hcap⟩ := htold.resolve_left hnil
    have hstep : (t.step (.append records cap)).store = t.store.appendBatch records cap := by
      simp [Traced.step, Store.step, Store.appendDiscoveryEvaluations, hnil]
    -- the cap of the reader cuts the merged rows as the process cuts its own
    have hread : (t.store.disk.appendDelta records).readDiscoveryLog =
        (records ++ t.history.take DISCOVERY_LOG_CAP).take DISCOVERY_LOG_CAP := by
      rw [← h.merged] at hdistinct ⊢
      exact read_appendDelta h.base hdistinct
    constructor
    · rw [hstep]
      exact h.base
    · rw [hstep]
      show (t.store.disk.appendDelta records).readDiscoveryLog = (records ++ t.history).take _
      rw [hread, take_append_take]
    · rw [hstep]
      show ViewGood (t.store.disk.stamp + 1) (t.store.disk.appendDelta records).readDiscoveryLog
        (some (t.store.disk.stamp + 1, (records ++ t.store.loadDiscoveryLog).take cap))
      rw [h.load, h.merged, take_cap hcap, ← hread]
      exact viewGood_fresh
    · rw [hstep]
      exact h.snapshot.stale (Nat.lt_succ_self _)

theorem valid_install (h : Valid t) {crash : Bool} (htold : Told t (.install crash)) :
    Valid (t.step (.install crash)) := by
  cases hs : t.store.snapshot with
  | none =>
    have hstep : t.step (.install crash) = t := by
      simp [Traced.step, Store.step, Store.compactInstall, hs]
    rw [hstep]
    exact h
  | some snap =>
    obtain ⟨fp, rows⟩ := snap
    by_cases hfp : fp = t.store.disk.stamp
    · have hrows : rows = t.history.take DISCOVERY_LOG_CAP := by
        rw [← h.merged]
        exact (h.snapshot _ hs).2 hfp
      have hlen : rows.length ≤ DISCOVERY_LOG_CAP := by
        rw [hrows]
        exact List.length_take_le _ _
      -- behind a crash the delta is still there, and adds nothing to the new base
      cases crash with
      | true =>
        have hstep : t.step (.install true) =
            { t with store := { disk := t.store.disk.writeLog rows } } := by
          simp [Traced.step, Store.step, Store.compactInstall, hs, hfp]
        rw [hstep]
        refine ⟨hlen, ?_, viewGood_none, viewGood_none⟩
        show (t.store.disk.writeLog rows).readDiscoveryLog = t.history.take DISCOVERY_LOG_CAP
        rw [read_writeLog hlen (by rw [hrows]; exact htold rfl), hrows]
      | false =>
        have hstep : t.step (.install false) =
            { t with store :=
                { disk := (t.store.disk.writeLog rows).clearDelta
                  cache := some ((t.store.disk.writeLog rows).clearDelta.stamp, rows) } } := by
          simp [Traced.step, Store.step, Store.compactInstall, hs, hfp]
        rw [hstep]
        exact ⟨hlen, hrows, viewGood_fresh, viewGood_none⟩
    · have hstep : t.step (.install crash) =
          { t with store := { t.store with snapshot := none } } := by
        simp [Traced.step, Store.step, Store.compactInstall, hs, hfp]
      rw [hstep]
      exact ⟨h.base, h.merged, h.cache, viewGood_none⟩

theorem valid_step (h : Valid t) (op : Op) (htold : Told t op) : Valid (t.step op) := by
  cases op with
  | append records cap => exact valid_append h htold
  | load => exact valid_loaded h
  | snapshot => exact ⟨h.base, h.merged, h.cache, viewGood_fresh⟩
  | install crash => exact valid_install h htold
  | restart => exact ⟨h.base, h.merged, viewGood_none, viewGood_none⟩

end

/-- Two rows of one strategy, an hour apart. -/
def firstRow : Row := ⟨some "rsi_14", some "2026-01-01T00:00:00+00:00", "first"⟩
def secondRow : Row := ⟨some "rsi_14", some "2026-01-01T01:00:00+00:00", "second"⟩

end PaperTrading.Discovery.LogFiles
