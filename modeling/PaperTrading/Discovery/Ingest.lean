import PaperTrading.Champions.Pool

/-!
# Ingesting evaluations

`ingest_discovery_payload` as the sections it takes the lock for, with the
files they share: the discovery log, the tested-name index and the two queues
of names to retest.

The first section (`Section.begin`) decides through which branch each
evaluation will be appended. Each append is a section of its own, which checks
that branch again and, for a retest, completes the queue entry
(`appendEvaluation`). The last section (`Section.finish`) can seat names, and
completes the retest of a name it seats by force.

What the payload brings is arbitrary: repeated names, rows sent again, any
number of ingests at once. A file the sections only read for other purposes
(the pool, the requalify queue) is an input of the section that reads it.
-/

namespace PaperTrading.Discovery

open Champions (EvalRow)

/-- `DISCOVERY_LOG_CAP` -/
def DISCOVERY_LOG_CAP : ℕ := 10000

/-- `CORRECTED_NAMES` -/
def CORRECTED_NAMES : List String := ["lib.td_cd", "lib.pierce", "lib.soldiers"]

/-- The branch a row is appended through. All but the first stamp it as a
retest. -/
inductive Lane where
  | first
  | bhRetest
  | libraryRetest
  | correction
deriving DecidableEq, Repr

/-- A row of the discovery log. `revised` says whether its `signal_revision`
is the current one. -/
structure LogRow where
  row : EvalRow
  lane : Lane
  revised : Bool
deriving DecidableEq, Repr

def LogRow.name (r : LogRow) : String := r.row.strategy

/-- The status of a queue entry. -/
inductive Status where
  | pending
  | completed (testedAt : String)
deriving DecidableEq, Repr

/-- The entries of one of the two retest queues. -/
abbrev Queue := String → Option Status

/-- `complete_retest_unlocked` and `complete_library_retest_unlocked`: a no-op
when the name was not pending. -/
def Queue.complete (q : Queue) (name testedAt : String) : Queue :=
  if q name = some .pending then Function.update q name (some (.completed testedAt)) else q

/-- The files. `bhQueue` is the queue of `requeue_v4_bh`, `libraryQueue` that
of `requeue_library_gate`. -/
structure Disk where
  log : List LogRow := []
  index : String → Bool := fun _ => false
  bhQueue : Queue := fun _ => none
  libraryQueue : Queue := fun _ => none

namespace Disk

/-- `cached_tested_names`: the index and the names of the log. -/
def tested (d : Disk) (name : String) : Bool := d.index name || d.log.any fun r => r.name = name

/-- `signal_correction_pending`: the newest row of the name lacks the
revision. -/
def correctionPending (d : Disk) (name : String) : Bool :=
  name ∈ CORRECTED_NAMES &&
    match d.log.find? fun r => r.name = name with
    | some r => !r.revised
    | none => false

/-- `_append_batch_locked`, one row. -/
def appendRow (d : Disk) (r : LogRow) : Disk :=
  { d with
    log := (r :: d.log).take DISCOVERY_LOG_CAP
    index := Function.update d.index r.name true }

/-- `still_valid` of the row's branch. -/
def stillValid (d : Disk) (r : LogRow) : Bool :=
  match r.lane with
  | .first => !d.tested r.name
  | .libraryRetest => d.libraryQueue r.name = some .pending
  | .correction => d.correctionPending r.name
  | .bhRetest => d.bhQueue r.name = some .pending

/-- `after_commit` of the row's branch. -/
def afterCommit (d : Disk) (r : LogRow) : Disk :=
  match r.lane with
  | .libraryRetest => { d with libraryQueue := d.libraryQueue.complete r.name r.row.testedAt }
  | .bhRetest => { d with bhQueue := d.bhQueue.complete r.name r.row.testedAt }
  | _ => d

/-- `append_discovery_evaluation` -/
def appendEvaluation (d : Disk) (r : LogRow) : Option Disk :=
  if d.stillValid r then some ((d.appendRow r).afterCommit r) else none

/-- The branch of each row of a payload that is to be appended. `already` are
the tested names and those the payload has brought so far; `requalifies` says
which rows the requalify lane takes. -/
def plan (d : Disk) (existing : String → Bool) (requalifies : EvalRow → Bool) :
    (String → Bool) → List (EvalRow × Bool) → List LogRow
  | _, [] => []
  | already, (rec, revised) :: evals =>
    let name := rec.strategy
    let as (lane : Lane) : LogRow :=
      { row := rec, lane := lane, revised := revised || name ∈ CORRECTED_NAMES }
    if d.libraryQueue name = some .pending then
      as .libraryRetest :: plan d existing requalifies already evals
    else if d.correctionPending name then
      as .correction :: plan d existing requalifies already evals
    else if requalifies rec then plan d existing requalifies already evals
    else if existing name then plan d existing requalifies already evals
    else if already name then
      if d.bhQueue name = some .pending then
        as .bhRetest :: plan d existing requalifies already evals
      else plan d existing requalifies already evals
    else as .first :: plan d existing requalifies (Function.update already name true) evals

/-- The newest row of the name is marked qualified. -/
def qualifyNewest (name : String) : List LogRow → List LogRow
  | [] => []
  | r :: rows =>
    if r.name = name then { r with row := { r.row with qualified := true } } :: rows
    else r :: qualifyNewest name rows

/-- The names `_apply_force_admit` seats: not known, and in the log. -/
def forceSeats (d : Disk) (existing : String → Bool) : List String → List String
  | [] => []
  | name :: names =>
    if existing name ∨ ¬ d.log.any (fun r => r.name = name) then forceSeats d existing names
    else name :: forceSeats d (Function.update existing name true) names

/-- What `_apply_force_admit` does to the files for a name it seats. -/
def forceSeat (stamp : String) (d : Disk) (name : String) : Disk :=
  { d with log := qualifyNewest name d.log, bhQueue := d.bhQueue.complete name stamp }

/-- `_apply_force_admit` and, if it seated anyone, `save_discovery_log`, which
folds the log into the index. -/
def forceAdmit (d : Disk) (existing : String → Bool) (forced : List String) (stamp : String) :
    Disk :=
  let seated := d.forceSeats existing forced
  if seated = [] then d
  else { seated.foldl (forceSeat stamp) d with index := d.tested }

end Disk

/-- The system: the files, the rows every ingest has yet to append, and all
rows there ever were in the log, newest first. -/
structure Farm where
  disk : Disk
  flights : ℕ → List LogRow := fun _ => []
  written : List LogRow := []

/-- The sections of ingest `i`. An evaluation comes with whether the payload
itself carries the current signal revision. -/
inductive Section where
  | begin (i : ℕ) (evals : List (EvalRow × Bool)) (existing : String → Bool)
      (requalifies : EvalRow → Bool)
  | append (i : ℕ)
  | finish (i : ℕ) (existing : String → Bool) (forced : List String) (stamp : String)

namespace Farm

/-- A farm that starts from these files. -/
def start (d : Disk) : Farm := { disk := d, written := d.log }

def step (f : Farm) : Section → Farm
  | .begin i evals existing requalifies =>
    let rows := f.disk.plan existing requalifies f.disk.tested evals
    { f with flights := Function.update f.flights i rows }
  | .append i =>
    match f.flights i with
    | [] => f
    | r :: rest =>
      let flights := Function.update f.flights i rest
      match f.disk.appendEvaluation r with
      | none => { f with flights := flights }
      | some disk => { disk := disk, flights := flights, written := r :: f.written }
  | .finish _ existing forced stamp => { f with disk := f.disk.forceAdmit existing forced stamp }

end Farm

end PaperTrading.Discovery
