import Mathlib.Data.Prod.Lex
import Mathlib.Data.String.Basic
import PaperTrading.Lib.Dict
import PaperTrading.Lib.Greedy
import PaperTrading.Lib.Journaled
import PaperTrading.Lib.LastByKey

/-!
# The discovery results

`discovery_results.py`: full evaluation records in an append-only file, one line
a record, and an index over them. The index is a base table, with the totals and
the references of each section in the order they are listed, and a journal of
references that extends it. The base carries a generation, and a journal for
another generation is ignored.

Several processes share the files. Each keeps the latest line of every name with
the place it has read to, the totals it last read, and the table of a compaction
in flight.

A sync and a backfill write lines first and the index behind them, and a crash can
come between any two writes.
-/

namespace PaperTrading.Discovery.Results

open PaperTrading.Lib

/-- What the code gets from the standard library: the digest of a name, and the
microseconds since the epoch that a timestamp stands for. -/
structure Env where
  nameHash : String → ℕ
  parseTestedAt : String → Option ℤ

/-- A line of `discovery_results.jsonl`. `scored` is the rest of `_CORE`, `retest`
the `_RETEST_FIELDS`, `rest` everything else. -/
structure Line where
  strategy : String
  qualified : Bool
  testedAt : Option String
  scored : String
  retest : String
  gate : String
  rest : String
deriving DecidableEq, Inhabited

/-- A row of the map `name -> latest row`, with the place of its line. -/
structure Stored where
  line : Line
  offset : ℕ
deriving DecidableEq

abbrev Rows := Dict String Stored

/-! ## The map of a history -/

/-- One line of `_scan_jsonl`. -/
def record (rows : Rows) (entry : Line × ℕ) : Rows :=
  if entry.1.strategy = "" then rows else rows.set entry.1.strategy ⟨entry.1, entry.2⟩

/-- `_scan_jsonl`: the lines from `start` on, over what was there. -/
def scan (rows : Rows) (start : ℕ) (lines : List Line) : Rows := (lines.zipIdx start).foldl record rows

/-- The latest row of every name. -/
def latest (lines : List Line) : Rows := scan Dict.empty 0 lines

structure Counts where
  unique : ℤ
  testedPass : ℤ
  testedFail : ℤ
deriving DecidableEq

def passed (rows : Rows) : ℕ := rows.entries.countP fun e => e.2.line.qualified

/-- The totals of a map. -/
def countsOf (rows : Rows) : Counts :=
  ⟨rows.entries.length, passed rows, rows.entries.length - passed rows⟩

/-! ## The index -/

/-- `_REF` -/
structure Ref where
  offset : ℕ
  unix : ℤ
  qualified : Bool
deriving DecidableEq

/-- `discovery_results.ix`: the header, and the references of its three
sections. -/
structure Table where
  count : ℕ
  npass : ℕ
  nfail : ℕ
  refs : List Ref
deriving DecidableEq

/-- `_JREC` -/
structure JournalRecord where
  offset : ℕ
  unix : ℤ
  qualified : Bool
  isNew : Bool
  prevQualified : Bool
  nameHash : ℕ
deriving DecidableEq

/-- A sort key: newest first, times that are missing last, and then by `x`. -/
def timeKey {κ : Type} (unix : ℤ) (x : κ) : Bool ×ₗ ℤ ×ₗ κ :=
  toLex (decide (unix ≤ 0), toLex (-unix, x))

namespace Env
variable (env : Env)

/-- The instant a record was tested at, in microseconds. -/
def instant (testedAt : Option String) : ℤ :=
  match testedAt with
  | none => 0
  | some value => if value = "" then 0 else (env.parseTestedAt value).getD 0

/-- `_tested_unix` -/
def testedUnix (testedAt : Option String) : ℤ := (env.instant testedAt).tdiv 1000000

def unix (row : Stored) : ℤ := env.testedUnix row.line.testedAt

/-- `_sort_key` -/
def sortKey (row : Stored) : Bool ×ₗ ℤ ×ₗ String := timeKey (env.unix row) row.line.strategy

def ref (row : Stored) : Ref := ⟨row.offset, env.unix row, row.line.qualified⟩

/-- The rows in the order a base lists them. -/
def ordered (rows : Rows) : List Stored := sortByKey env.sortKey (rows.entries.map Prod.snd)

/-- `_index_bytes` -/
def indexBytes (rows : Rows) : Table :=
  let all := env.ordered rows
  let pass := all.filter fun row => row.line.qualified
  let fail := all.filter fun row => !row.line.qualified
  { count := all.length
    npass := pass.length
    nfail := fail.length
    refs := (all ++ pass ++ fail).map env.ref }

/-- The journal record of a line that is appended to a history with these
rows. -/
def journalRecord (rows : Rows) (entry : Line × ℕ) : JournalRecord :=
  let prev := rows.get? entry.1.strategy
  { offset := entry.2
    unix := env.testedUnix entry.1.testedAt
    qualified := entry.1.qualified
    isNew := prev.isNone
    prevQualified := prev.any fun row => row.line.qualified
    nameHash := env.nameHash entry.1.strategy }

end Env

/-- The index files. A base that is missing has generation 0. -/
abbrev Index := Journaled ℕ (Option Table) JournalRecord

namespace Index
variable (ix : Index)

/-- `_read_journal_records` -/
def journalRecords : List JournalRecord :=
  match ix.journal with
  | some (gen, records) => if gen = ix.gen then records else []
  | none => []

/-- One record of `_fold_counts`. -/
def foldRecord (c : Counts) (rec : JournalRecord) : Counts :=
  if rec.isNew then
    if rec.qualified then ⟨c.unique + 1, c.testedPass + 1, c.testedFail⟩
    else ⟨c.unique + 1, c.testedPass, c.testedFail + 1⟩
  else if rec.prevQualified ∧ ¬ rec.qualified then ⟨c.unique, c.testedPass - 1, c.testedFail + 1⟩
  else if rec.qualified ∧ ¬ rec.prevQualified then ⟨c.unique, c.testedPass + 1, c.testedFail - 1⟩
  else c

/-- `_peek_unlocked` without its cache. -/
def counts : Option Counts :=
  ix.base.map fun table =>
    ix.journalRecords.foldl foldRecord ⟨table.count, table.npass, table.nfail⟩

/-- The generation of the next base. -/
def nextGeneration : ℕ := (ix.gen + 1) % 2 ^ 32

/-- `_install_full_index`: the base is replaced, then the journal removed. -/
def installWrites (table : Table) : List Index := ix.replaceWrites ix.nextGeneration (some table)

/-- `_append_journal`: a journal for another generation is emptied first. -/
def appendJournalWrites (records : List JournalRecord) : List Index :=
  match ix.journal with
  | none => [{ ix with journal := some (ix.gen, records), stamp := ix.stamp + 1 }]
  | some (gen, old) =>
    if gen = ix.gen then [{ ix with journal := some (gen, old ++ records), stamp := ix.stamp + 1 }]
    else
      [{ ix with journal := none, stamp := ix.stamp + 1 },
       { ix with journal := some (ix.gen, records), stamp := ix.stamp + 2 }]

end Index

structure Disk where
  lines : List Line
  index : Index

/-! ## The lines of a sync or a backfill -/

/-- A row as it comes in. -/
structure Row where
  strategy : String
  qualified : Bool
  testedAt : Option String
  scored : String
  retest : String
  rest : String
  requalifySource : Option String
deriving DecidableEq

/-- `DISCOVERY_GATE_TAG` -/
def DISCOVERY_GATE_TAG : String := "aggregate_oos_no_window_veto"

/-- `str.strip` -/
def strip (s : String) : String :=
  String.ofList ((s.toList.dropWhile Char.isWhitespace).reverse.dropWhile Char.isWhitespace).reverse

/-- `_gate_for` -/
def gateFor (row : Row) (fresh : List String) (prev : Option Stored) : String :=
  let source := strip (row.requalifySource.getD "")
  if source ≠ "" then source
  else if row.strategy ∈ fresh then DISCOVERY_GATE_TAG
  else
    match prev with
    | some stored =>
      if stored.line.gate ∈ ["", "index_only"] then "backfill" else stored.line.gate
    | none => "backfill"

/-- `_record_from_row` -/
def recordFromRow (row : Row) (gate : String) : Line where
  strategy := row.strategy
  qualified := row.qualified
  testedAt := row.testedAt
  scored := row.scored
  retest := row.retest
  gate := gate
  rest := row.rest

/-- `_stub` -/
def stub (name : String) (qualified : Bool) : Line where
  strategy := name
  qualified := qualified
  testedAt := none
  scored := ""
  retest := ""
  gate := "index_only"
  rest := "partial"

/-- `_same_core` and `_same_retest` -/
def sameEval (left right : Line) : Bool :=
  left.qualified = right.qualified && left.testedAt = right.testedAt && left.scored = right.scored &&
    left.retest = right.retest

/-- The rows that are looked at: those with a name, the first of each. -/
def seenRows (incoming : List Row) : List Row :=
  greedy (fun row => some row.strategy) (fun row => decide (row.strategy = "")) [] incoming

/-- The line of an incoming row, unless its evaluation is the one on record. -/
def rowLine (rows : Rows) (fresh : List String) (index : Option (Dict String Bool)) (row : Row) :
    Option Line :=
  let prev := rows.get? row.strategy
  let line := recordFromRow row (gateFor row fresh prev)
  let line := { line with qualified := (index.bind fun flags => flags.get? row.strategy).getD line.qualified }
  if prev.any fun stored => sameEval stored.line line then none else some line

/-- The line of an index entry that no row brought: a stub for a new name, the old
line when the flag is another. -/
def indexLine (rows : Rows) (seen : List String) (entry : String × Bool) : Option Line :=
  if entry.1 = "" ∨ entry.1 ∈ seen then none
  else
    match rows.get? entry.1 with
    | none => some (stub entry.1 entry.2)
    | some stored =>
      if stored.line.qualified ≠ entry.2 then some { stored.line with qualified := entry.2 } else none

/-- The lines `_apply_rows` appends. -/
def pendingLines (rows : Rows) (incoming : List Row) (fresh : List String)
    (index : Option (Dict String Bool)) : List Line :=
  let kept := seenRows incoming
  kept.filterMap (rowLine rows fresh index) ++
    ((index.map (·.entries)).getD []).filterMap (indexLine rows (kept.map (·.strategy)))

/-! ## Processes and their operations -/

/-- What a process keeps. -/
structure Process where
  map : Option (ℕ × Rows) := none
  counts : Option (ℕ × Counts) := none
  snapshot : Option (ℕ × ℕ × Table) := none

/-- `_load_map`: from the place it has read to, or from the start. -/
def Process.loadMap (p : Process) (lines : List Line) : Rows :=
  match p.map with
  | some (pos, rows) => if pos ≤ lines.length then scan rows pos (lines.drop pos) else latest lines
  | none => latest lines

/-- `_peek_unlocked` -/
def Process.peek (p : Process) (ix : Index) : Option Counts :=
  match p.counts with
  | some (key, counts) => if key = ix.stamp then some counts else ix.counts
  | none => ix.counts

/-- The totals a process keeps behind a peek. -/
def Process.peeked (p : Process) (ix : Index) : Option (ℕ × Counts) :=
  (p.peek ix).map fun counts => (ix.stamp, counts)

/-- What an operation does: the lines it appends, the writes of the index files
behind them, and what the process keeps when it is through. -/
structure Effect where
  lines : List Line := []
  index : List Index := []
  proc : Process

inductive Op where
  | sync (rows : List Row) (fresh : List String)
  | backfill (logRows : List Row) (index : Dict String Bool)
  | snapshot
  | install
  | peek
  | restart

section
variable (env : Env) (d : Disk) (p : Process)

/-- `_index_current` -/
def indexCurrent (rows : Rows) : Bool :=
  match p.peek d.index with
  | none => rows.entries.isEmpty
  | some counts => counts = countsOf rows

/-- The journal records of lines that were just appended. -/
def newRecords (rows : Rows) (lines : List Line) : List JournalRecord :=
  (lines.zipIdx d.lines.length).map (env.journalRecord rows)

/-- `sync_discovery_results` -/
def syncDiscoveryResults (rows : List Row) (fresh : List String) : Effect :=
  let current := p.loadMap d.lines
  let lines := pendingLines current rows fresh none
  let after := scan current d.lines.length lines
  let proc := { p with map := some (d.lines.length + lines.length, after) }
  match d.index.base with
  | none =>
    if after.entries.isEmpty then { lines := lines, proc := proc }
    else
      { lines := lines
        index := d.index.installWrites (env.indexBytes after)
        proc := { proc with counts := none } }
  | some _ =>
    if lines = [] then { proc := proc }
    else
      { lines := lines
        index := d.index.appendJournalWrites (newRecords env d current lines)
        proc := { proc with counts := none } }

/-- `backfill_discovery_results`, with the display log and the tested-name index
as it reads them. -/
def backfillDiscoveryResults (logRows : List Row) (index : Dict String Bool) : Effect :=
  let current := p.loadMap d.lines
  let lines := pendingLines current logRows [] (some index)
  let after := scan current d.lines.length lines
  let proc := { p with map := some (d.lines.length + lines.length, after) }
  if lines ≠ [] ∨ indexCurrent d p after = false then
    { lines := lines
      index := d.index.installWrites (env.indexBytes after)
      proc := { proc with counts := none } }
  else { proc := { proc with counts := p.peeked d.index } }

/-- The first half of `compact_results_index`. -/
def compactSnapshot : Effect :=
  if d.index.journalRecords = [] then { proc := p }
  else
    let rows := p.loadMap d.lines
    { proc :=
        { p with
          map := some (d.lines.length, rows)
          snapshot := some (d.index.stamp, d.index.nextGeneration, env.indexBytes rows) } }

/-- Its second half, skipped when the index files moved. -/
def compactInstall : Effect :=
  match p.snapshot with
  | none => { proc := p }
  | some (stat, gen, table) =>
    if stat = d.index.stamp then
      { index := d.index.replaceWrites gen (some table)
        proc := { p with counts := none, snapshot := none } }
    else { proc := { p with snapshot := none } }

/-- `peek_result_counts` -/
def peekResultCounts : Effect where
  proc := { p with counts := p.peeked d.index }

def effect : Op → Effect
  | .sync rows fresh => syncDiscoveryResults env d p rows fresh
  | .backfill logRows index => backfillDiscoveryResults env d p logRows index
  | .snapshot => compactSnapshot env d p
  | .install => compactInstall d p
  | .peek => peekResultCounts d p
  | .restart => { proc := {} }

end

/-! ## Runs -/

/-- Where a crash comes: behind some of the lines, or behind all of them and some
writes of the index files. -/
inductive Point where
  | lines (k : ℕ)
  | index (k : ℕ)

/-- The files and the processes that share them. -/
structure Store where
  disk : Disk
  procs : ℕ → Process

/-- A history from before there was an index. -/
def Store.start (lines : List Line) : Store where
  disk := { lines := lines, index := { gen := 0, base := none, journal := none, stamp := 0 } }
  procs := fun _ => {}

/-- The files after an operation that was finished, or one that a crash cut
short. -/
def Disk.after (d : Disk) (e : Effect) : Option Point → Disk
  | none => { lines := d.lines ++ e.lines, index := done d.index e.index }
  | some (.lines k) => { d with lines := d.lines ++ e.lines.take k }
  | some (.index k) => { lines := d.lines ++ e.lines, index := cut d.index e.index k }

/-- An operation of one of the processes, and where a crash interrupts it. -/
structure Step where
  pid : ℕ
  op : Op
  crash : Option Point

/-- A crash takes what the process keeps. -/
def Store.step (env : Env) (s : Store) (i : Step) : Store :=
  let e := effect env s.disk (s.procs i.pid) i.op
  { disk := s.disk.after e i.crash
    procs := Function.update s.procs i.pid
      (match i.crash with
       | none => e.proc
       | some _ => {}) }

end PaperTrading.Discovery.Results
