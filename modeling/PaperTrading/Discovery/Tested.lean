import Mathlib.Data.Rat.Defs
import PaperTrading.Lib.Dict
import PaperTrading.Lib.Journaled

/-!
# The tested-name index

`tested_index.py`: the names that were tested, each with a qualified flag, and
the slim metrics of some of them. The document is a base file of a generation
plus a journal of overlay lines. An ingest appends a line
(`append_tested_overlay`), a save appends the lines that differ or rewrites the
base (`save_tested_index`), and a compaction folds the journal into a new base,
in two steps with others in between.

The process keeps the merged document and the snapshot of a compaction in
flight, both with the fingerprint they were read at. A crash can come between
any two writes of an operation and loses both.
-/

namespace PaperTrading.Discovery.Tested

open PaperTrading.Lib

/-- `_JOURNAL_REPLACE_MIN` -/
def JOURNAL_REPLACE_MIN : ℕ := 64

/-- `TestedMetric`: only what was measured is there, and something was. -/
structure Metric where
  sharpe : Option ℚ
  trades : Option ℤ
  opsPark : Bool
  measured : sharpe.isSome ∨ trades.isSome ∨ opsPark = true
deriving DecidableEq

/-- The index document: `names` and `metrics`. -/
structure Doc where
  flags : Dict String Bool
  metrics : Dict String Metric
deriving DecidableEq

def Doc.empty : Doc := ⟨Dict.empty, Dict.empty⟩

/-- Two documents that say the same of every name. -/
structure Same (d e : Doc) : Prop where
  flags : ∀ name, d.flags.get? name = e.flags.get? name
  metrics : ∀ name, d.metrics.get? name = e.metrics.get? name

/-- A journal line. `dropMetric` is the mark `m0`. -/
structure Line where
  name : String
  qualified : Bool
  metric : Option Metric := none
  dropMetric : Bool := false
deriving DecidableEq

/-- Entries with a name. -/
def named {α : Type} (d : Dict String α) : Dict String α :=
  d.filterMap fun name v => if name = "" then none else some v

/-- `_flags_from_document` and `_metrics_from_document` -/
def fromDocument (base : Doc) : Doc := ⟨named base.flags, named base.metrics⟩

/-- `_apply_journal_line` -/
def applyJournalLine (d : Doc) (line : Line) : Doc :=
  if line.name = "" then d
  else
    { flags := d.flags.set line.name line.qualified
      metrics :=
        match line.metric with
        | some metric => d.metrics.set line.name metric
        | none => if line.dropMetric then d.metrics.erase line.name else d.metrics }

/-- The two files. A generation is the stamp of the write that made the base; a
base from before generations has none. -/
abbrev Disk := Journaled (Option ℕ) Doc Line

/-- `_derived_now` from the files. -/
def Disk.document (disk : Disk) : Doc := disk.load fromDocument applyJournalLine

/-- The files, the merged document the process keeps, and the snapshot of a
compaction in flight. -/
structure Store where
  disk : Disk
  derived : Option (ℕ × Doc) := none
  snapshot : Option (ℕ × Doc) := none

/-- A store over files from before generations: a base and maybe a journal. -/
def Store.start (base : Doc) (journal : Option (List Line)) : Store where
  disk :=
    { gen := none
      base := base
      journal := journal.map fun lines => (none, lines)
      stamp := 0 }

/-! ## Operations -/

/-- What an operation does: its writes, and what the process keeps when it is
through. -/
structure Effect where
  writes : List Disk := []
  derived : Option (ℕ × Doc)
  snapshot : Option (ℕ × Doc)

/-- The names differ. -/
def namesDiffer (index flags : Dict String Bool) : Bool :=
  !(index.keys.all (· ∈ flags.keys) && flags.keys.all (· ∈ index.keys))

/-- The line `save_tested_index` journals for a name, when its flag or metric
differs. -/
def overlayLine (current : Doc) (metrics : Dict String Metric) (name : String) (qualified : Bool) :
    Option Line :=
  let metric := metrics.get? name
  if current.flags.get? name = some qualified ∧ current.metrics.get? name = metric then none
  else some
    { name := name
      qualified := qualified
      metric := metric
      dropMetric := metric = none ∧ (current.metrics.get? name).isSome }

def overlayLines (current : Doc) (index : Dict String Bool) (metrics : Dict String Metric) :
    List Line :=
  index.entries.filterMap fun e => overlayLine current metrics e.1 e.2

namespace Store
variable (s : Store)

/-- `_derived_now` -/
def current : Doc :=
  match s.derived with
  | some (fp, doc) => if fp = s.disk.stamp then doc else s.disk.document
  | none => s.disk.document

/-- What `_derived_now` leaves in the process. -/
def viewed : Option (ℕ × Doc) := some (s.disk.stamp, s.current)

/-- `_append_journal_lines`: the merged document is patched in place. -/
def appendJournalLines (lines : List Line) : Effect :=
  if lines = [] then { derived := s.viewed, snapshot := s.snapshot }
  else
    let writes := s.disk.appendWrites lines
    { writes := writes
      derived := some ((done s.disk writes).stamp, lines.foldl applyJournalLine s.current)
      snapshot := s.snapshot }

/-- `append_tested_overlay` -/
def appendTestedOverlay (name : String) (qualified : Bool) (metric : Option Metric) : Effect :=
  if name = "" then { derived := s.derived, snapshot := s.snapshot }
  else if s.current.flags.get? name = some qualified ∧
      (metric = none ∨ s.current.metrics.get? name = metric) then
    { derived := s.viewed, snapshot := s.snapshot }
  else s.appendJournalLines [{ name := name, qualified := qualified, metric := metric }]

/-- `write_tested_document` and the journal's removal: the base gets a new
generation. -/
def replaceWrites (payload : Doc) : List Disk :=
  Journaled.replaceWrites s.disk (some (s.disk.stamp + 1)) payload

/-- `_replace_tested_base`: the written document is what the process keeps. -/
def replaceTestedBase (payload : Doc) : Effect :=
  let writes := s.replaceWrites payload
  { writes := writes
    derived := some ((done s.disk writes).stamp, ⟨named payload.flags, payload.metrics⟩)
    snapshot := s.snapshot }

/-- `save_tested_index`. `metrics` omitted keeps what is stored. -/
def saveTestedIndex (index : Dict String Bool) (metrics : Option (Dict String Metric)) : Effect :=
  let metrics := (metrics.map named).getD s.current.metrics
  if namesDiffer index s.current.flags then s.replaceTestedBase ⟨index, metrics⟩
  else
    let lines := overlayLines s.current index metrics
    if JOURNAL_REPLACE_MIN < lines.length then s.replaceTestedBase ⟨index, metrics⟩
    else s.appendJournalLines lines

/-- The first half of `_compact_tested_index`. -/
def compactSnapshot : Effect := { derived := s.viewed, snapshot := s.viewed }

/-- Its second half, skipped when the files moved. -/
def compactInstall : Effect :=
  match s.snapshot with
  | none => { derived := s.derived, snapshot := none }
  | some (fp, doc) =>
    if fp = s.disk.stamp then { writes := s.replaceWrites doc, derived := none, snapshot := none }
    else { derived := s.derived, snapshot := none }

end Store

inductive Op where
  | append (name : String) (qualified : Bool) (metric : Option Metric)
  | save (index : Dict String Bool) (metrics : Option (Dict String Metric))
  | snapshot
  | install
  | restart

def Store.effect (s : Store) : Op → Effect
  | .append name qualified metric => s.appendTestedOverlay name qualified metric
  | .save index metrics => s.saveTestedIndex index metrics
  | .snapshot => s.compactSnapshot
  | .install => s.compactInstall
  | .restart => { derived := none, snapshot := none }

/-- The store after an operation that was finished. -/
def Store.finish (s : Store) (op : Op) : Store where
  disk := done s.disk (s.effect op).writes
  derived := (s.effect op).derived
  snapshot := (s.effect op).snapshot

/-- The store after a crash behind the first `k` writes of an operation. -/
def Store.crash (s : Store) (op : Op) (k : ℕ) : Store := { disk := cut s.disk (s.effect op).writes k }

/-- An operation, and where a crash interrupts it, if one does. -/
def Store.step (s : Store) (i : Op × Option ℕ) : Store :=
  match i.2 with
  | none => s.finish i.1
  | some k => s.crash i.1 k

end PaperTrading.Discovery.Tested
