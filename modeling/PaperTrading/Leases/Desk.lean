import PaperTrading.Discovery.Ingest
import PaperTrading.Leases.QueueCache
import PaperTrading.Leases.Requalify

/-!
# The claim desk

`leases.py` as a whole: a claim draws names from the re-qualification queue, the
retest queues, the leftovers and a mint, or in library mode from the catalog. It
keeps its leases in `discovery_leases.json`, the re-qualification lane in a file
of its own. Heartbeats, releases and ingests move both.

`Desk` is what the operations share: the lease file, the re-qualification file,
the discovery files with their retest queues, and the claimable queue with its
cache. `Desk.step` is one operation, some time after the last. What an operation
only reads from elsewhere (the farm switch, the mode, what the mint proposes, the
names ingest must not admit) is its input.
-/

namespace PaperTrading.Leases

open PaperTrading.Lib
open PaperTrading.Leases.Queue (QueueRules)

/-- `MAX_CLAIM` -/
def MAX_CLAIM : ℕ := 64

/-- `LEASES_PER_LANE` -/
def LEASES_PER_LANE : ℕ := 2

/-- `ABSENT_PARALLEL_LEASE_CAP` -/
def ABSENT_PARALLEL_LEASE_CAP : ℕ := 12

/-- The widest `parallel` a claim may send. -/
def MAX_PARALLEL : ℕ := 256

/-- `WORKER_RETENTION`, in seconds. -/
def WORKER_RETENTION : ℤ := 604800

/-- A record of `leases`. -/
structure Lease where
  workerId : String
  times : LeaseTimes
  retest : Bool := false
  library : Bool := false
  libraryRetest : Bool := false
deriving DecidableEq, Repr

/-- A record of `workers`. -/
structure Worker where
  lastSeen : ℤ
  parallel : Option ℕ := none
deriving DecidableEq, Repr

/-- What stays fixed: the eval timeout, the rules of the queue, the library
catalog, and the frozen orders of the two retest batches. -/
structure Setup where
  timeout : ℤ
  rules : QueueRules
  catalog : List String
  bhOrder : List String
  libraryOrder : List String

/-- The files the operations share, and the queue cache. -/
structure Desk where
  clock : ℤ
  leases : Dict String Lease
  workers : Dict String Worker
  requalify : Requalify.State
  disk : Discovery.Disk
  queue : Queue.Store

/-- A desk without leases, over a log, the tested names and the retest queues.
The index covers the log. -/
def Desk.start (clock : ℤ) (log : List Discovery.LogRow) (tested : List String)
    (bhQueue libraryQueue : Discovery.Queue) (extended book : List String) : Desk where
  clock := clock
  leases := Dict.empty
  workers := Dict.empty
  requalify := Requalify.State.empty
  disk :=
    { log := log
      index := fun name => name ∈ tested ++ log.map Discovery.LogRow.name
      bhQueue := bhQueue
      libraryQueue := libraryQueue }
  queue :=
    { files :=
        { tested := tested ++ log.map Discovery.LogRow.name
          extended := extended
          book := book } }

/-! ## Retests -/

/-- `pending_retest_names` -/
def pendingRetestNames (su : Setup) (disk : Discovery.Disk) : List String :=
  su.bhOrder.filter fun name => disk.bhQueue name = some .pending

/-- `pending_library_retest_names` -/
def pendingLibraryRetestNames (su : Setup) (disk : Discovery.Disk) : List String :=
  su.libraryOrder.filter fun name => disk.libraryQueue name = some .pending

/-- `pending_signal_correction_names` -/
def pendingSignalCorrectionNames (disk : Discovery.Disk) : List String :=
  Discovery.CORRECTED_NAMES.filter disk.correctionPending

/-- `keep_tested`: fail-once is lifted for the name. -/
def retestPending (su : Setup) (disk : Discovery.Disk) (name : String) : Bool :=
  name ∈ pendingRetestNames su disk ∨ name ∈ pendingLibraryRetestNames su disk ∨
    name ∈ pendingSignalCorrectionNames disk

/-! ## Leases and workers -/

/-- `_drop_expired_and_tested` -/
def dropExpiredAndTested (su : Setup) (disk : Discovery.Disk) (now : ℤ) (leases : Dict String Lease) :
    Dict String Lease :=
  leases.filterMap fun name lease =>
    if disk.tested name ∧ ¬ retestPending su disk name then none
    else if lease.times.expired now then none else some lease

/-- `worker_lease_count` -/
def workerLeaseCount (leases : Dict String Lease) (worker : String) (now : ℤ) : ℕ :=
  (leases.entries.filter fun e => e.2.workerId = worker ∧ ¬ e.2.times.isStaleUnstarted now).length

/-- `worker_lease_cap` -/
def workerLeaseCap (workers : Dict String Worker) (worker : String) (parallel : Option ℕ) : ℕ :=
  match parallel <|> (workers.get? worker).bind Worker.parallel with
  | some width => LEASES_PER_LANE * width
  | none => ABSENT_PARALLEL_LEASE_CAP

/-- `lease_room` -/
def leaseRoom (d : Desk) (leases : Dict String Lease) (worker : String) (parallel : Option ℕ)
    (now : ℤ) : ℕ :=
  workerLeaseCap d.workers worker parallel - workerLeaseCount leases worker now

/-- `_touch`: a width that was not sent keeps the stored one. -/
def touch (workers : Dict String Worker) (worker : String) (now : ℤ) (parallel : Option ℕ) :
    Dict String Worker :=
  workers.set worker
    { lastSeen := iso now
      parallel := parallel <|> (workers.get? worker).bind Worker.parallel }

/-- `_prune_workers` -/
def pruneWorkers (workers : Dict String Worker) (leases : Dict String Lease) (now : ℤ) :
    Dict String Worker :=
  workers.filterMap fun wid worker =>
    if leases.entries.any (fun e => e.2.workerId = wid) then some worker
    else if worker.lastSeen * SECOND < now - WORKER_RETENTION * SECOND then none else some worker

/-- A lease as a claim writes it. -/
def newLease (worker : String) (now : ℤ) : Lease where
  workerId := worker
  times :=
    { claimedAt := some (iso now)
      expiresAt := some (iso (now + FARM_HEARTBEAT_STALE_SECONDS * SECOND)) }

/-- Lease names in turn, up to `n`, passing over those to skip and those that
have a lease. -/
def takeNames (lease : Lease) (skip : String → Bool) :
    ℕ → List String → Dict String Lease → List String × Dict String Lease
  | _, [], leases => ([], leases)
  | 0, _ :: _, leases => ([], leases)
  | n + 1, name :: names, leases =>
    if skip name ∨ name ∈ leases.keys then takeNames lease skip (n + 1) names leases
    else
      let rest := takeNames lease skip n names (leases.set name lease)
      (name :: rest.1, rest.2)

/-! ## Claims -/

/-- What a claim reads from elsewhere: the farm switch, the discovery mode, and
the names the mint proposes if it is asked. -/
structure ClaimEnv where
  farmEnabled : Bool := true
  libraryMode : Bool := false
  proposals : List String := []
deriving DecidableEq, Repr

namespace Desk
variable (su : Setup) (d : Desk)

/-- The names on the book. -/
def book : List String := d.queue.files.book

/-- `_take_retests` -/
def takeRetests (n : ℕ) (worker : String) (now : ℤ) (leases : Dict String Lease) :
    List String × Dict String Lease :=
  takeNames { newLease worker now with retest := true } (fun name => name ∈ d.book) n
    (pendingRetestNames su d.disk) leases

/-- `_take_library` -/
def takeLibrary (n : ℕ) (worker : String) (now : ℤ) (leases : Dict String Lease) :
    List String × Dict String Lease :=
  takeNames { newLease worker now with library := true }
    (fun name => d.disk.tested name ∨ name ∈ d.book) n su.catalog leases

/-- `_take_library_retests` -/
def takeLibraryRetests (n : ℕ) (worker : String) (now : ℤ) (leases : Dict String Lease) :
    List String × Dict String Lease :=
  let gate := pendingLibraryRetestNames su d.disk
  takeNames { newLease worker now with library := true, libraryRetest := true } (fun _ => false) n
    (gate ++ (pendingSignalCorrectionNames d.disk).filter (· ∉ gate)) leases

/-- `_mint_unlocked`: of the proposed names those that are neither taken, nor
proposed before, nor banned. -/
def mintUnlocked (active : List String) (proposals : List String) : List String :=
  greedy some su.rules.blocks
    (Queue.discoveryUniverse su.rules d.queue.files.extended ++ (d.queue.view su.rules).blocked ++
      active ++ d.queue.claimable su.rules active) proposals

/-- What `_claimable_names` mints: nothing when the queue suffices. -/
def minted (rest : ℕ) (active : List String) (env : ClaimEnv) : List String :=
  if (d.queue.claimable su.rules active).length < rest then d.mintUnlocked su active env.proposals
  else []

/-- `_claimable_names` and the leases on the first of them; nothing is asked of
the queue when there is no room. -/
def takeLeftovers (rest : ℕ) (worker : String) (now : ℤ) (env : ClaimEnv)
    (leases : Dict String Lease) : List String × Dict String Lease × Queue.Store :=
  if rest = 0 then ([], leases, d.queue)
  else
    let added := d.minted su rest leases.keys env
    let fresh := (d.queue.claimableWith su.rules leases.keys added).take rest
    (fresh, fresh.foldl (fun leases name => leases.set name (newLease worker now)) leases,
      d.queue.claimView su.rules leases.keys added)

/-- `_claim_library_unlocked`, after the worker was touched. -/
def claimLibrary (worker : String) (n : ℕ) (parallel : Option ℕ) (now : ℤ) : List String × Desk :=
  let rest := min n (leaseRoom d d.leases worker parallel now)
  let retest := d.takeLibraryRetests su rest worker now d.leases
  let library := d.takeLibrary su (rest - retest.1.length) worker now retest.2
  (retest.1 ++ library.1, { d with leases := library.2 })

/-- The random mode of `_claim_unlocked`, after the worker was touched. -/
def claimRandom (worker : String) (n : ℕ) (parallel : Option ℕ) (now : ℤ) (env : ClaimEnv) :
    List String × Desk :=
  let requal := Requalify.picks d.requalify n now
  let requalify :=
    Requalify.leaseRequalify d.requalify worker n FARM_HEARTBEAT_STALE_SECONDS.toNat now
  let rest := min (n - requal.length) (leaseRoom d d.leases worker parallel now)
  let retest := d.takeRetests su rest worker now d.leases
  let fresh := d.takeLeftovers su (rest - retest.1.length) worker now env retest.2
  (requal ++ retest.1 ++ fresh.1,
    { d with requalify := requalify, leases := fresh.2.1, queue := fresh.2.2 })

/-- The worker is noted, and the stale ones are forgotten. -/
def touched (worker : String) (now : ℤ) (parallel : Option ℕ) : Desk :=
  { d with workers := touch d.workers worker now parallel }

def pruned (now : ℤ) : Desk := { d with workers := pruneWorkers d.workers d.leases now }

/-- `_claim_unlocked` -/
def claimUnlocked (worker : String) (n : ℕ) (parallel : Option ℕ) (now : ℤ) (env : ClaimEnv) :
    List String × Desk :=
  let dropped := { d with leases := dropExpiredAndTested su d.disk now d.leases }
  let touched := dropped.touched worker now parallel
  if !env.farmEnabled then ([], touched.pruned now)
  else
    let claimed :=
      if env.libraryMode then touched.claimLibrary su worker n parallel now
      else touched.claimRandom su worker n parallel now env
    (claimed.1, claimed.2.pruned now)

/-- `claim_discovery_batch`: a request out of range is refused. -/
def claim (worker : String) (n : ℕ) (parallel : Option ℕ) (now : ℤ) (env : ClaimEnv) :
    List String × Desk :=
  if 1 ≤ n ∧ n ≤ MAX_CLAIM ∧ parallel.all (fun width => 1 ≤ width ∧ width ≤ MAX_PARALLEL) then
    d.claimUnlocked su worker n parallel now env
  else ([], d)

/-! ## Heartbeats, releases and cleared leases -/

/-- What a heartbeat of its worker makes of a lease. -/
def refreshLease (worker : String) (now : ℤ) (hb : Heartbeat) (name : String) (lease : Lease) :
    Option Lease :=
  if lease.workerId = worker then
    match lease.times.heartbeatLeaseAction now name hb with
    | .renew => some { lease with times := lease.times.bumpLeaseExpiry su.timeout now name hb }
    | .keep => some lease
    | .drop => none
  else some lease

/-- `touch_worker_unlocked` -/
def touchWorker (worker : String) (now : ℤ) (hb : Heartbeat) : Desk :=
  let touched := d.touched worker now none
  let refreshed :=
    if hb.status = "paused" then touched
    else { touched with leases := touched.leases.filterMap (refreshLease su worker now hb) }
  { refreshed.pruned now with
    requalify := Requalify.refreshRequalify su.timeout d.requalify worker hb now }

/-- `_release_unlocked` -/
def release (worker : String) (names : Option (List String)) (now : ℤ) : Desk :=
  let released := { d with
    leases := d.leases.filterMap fun name (lease : Lease) =>
      if lease.workerId = worker ∧ names.all (name ∈ ·) then none else some lease
    requalify := Requalify.releaseRequalify d.requalify worker names }
  (released.touched worker now none).pruned now

/-- `clear_leases_unlocked` -/
def clear (names : List String) : Desk :=
  { d with leases := d.leases.filterMap fun name lease => if name ∈ names then none else some lease }

end Desk

/-! ## Ingest -/

/-- An evaluation of a payload. `revised` says whether it carries the current
signal revision itself. -/
structure Evaluation where
  row : Champions.EvalRow
  revised : Bool := false
  regimesTested : Option ℤ := none
  fields : List (String × String) := []

/-- The evaluation as the re-qualification lane takes it. -/
def Evaluation.requalify (e : Evaluation) : Requalify.Evaluation where
  strategy := e.row.strategy
  qualified := e.row.qualified
  regimesTested := e.regimesTested
  fields := e.fields

/-- What an ingest brings, and the names it must not admit. -/
structure Payload where
  evals : List Evaluation := []
  existing : String → Bool := fun _ => false
  forced : List String := []
  stamp : String := ""
  extended : List String := []
  heartbeat : Option (String × Heartbeat) := none

/-- What the first section makes of the evaluations: the rows to append, the
names whose leases are to be cleared, and the re-qualification file. -/
structure Triage where
  rows : List Discovery.LogRow
  cleared : List String
  requalify : Requalify.State

/-- The loop over the evaluations. -/
def triage (disk : Discovery.Disk) (existing : String → Bool) (now : ℤ) :
    (String → Bool) → Requalify.State → List Evaluation → Triage
  | _, requalify, [] => ⟨[], [], requalify⟩
  | already, requalify, e :: evals =>
    let name := e.row.strategy
    let append (lane : Discovery.Lane) (t : Triage) : Triage :=
      { t with
        rows := { row := e.row, lane := lane, revised := e.revised || name ∈ Discovery.CORRECTED_NAMES }
          :: t.rows
        cleared := name :: t.cleared }
    -- `_validate_eval` refuses a row without a name
    if name = "" then triage disk existing now already requalify evals
    else if disk.libraryQueue name = some .pending then
      append .libraryRetest (triage disk existing now already requalify evals)
    else if disk.correctionPending name then
      append .correction (triage disk existing now already requalify evals)
    else if Requalify.records requalify e.requalify then
      triage disk existing now already
        (Requalify.recordRequalify requalify e.requalify now) evals
    else if existing name then
      let t := triage disk existing now already requalify evals
      { t with cleared := name :: t.cleared }
    else if already name then
      if disk.bhQueue name = some .pending then
        append .bhRetest (triage disk existing now already requalify evals)
      else
        let t := triage disk existing now already requalify evals
        { t with cleared := name :: t.cleared }
    else append .first (triage disk existing now (Function.update already name true) requalify evals)

namespace Desk
variable (su : Setup) (d : Desk)

/-- `append_discovery_evaluation`, with the note to the queue cache. -/
def appendRow (r : Discovery.LogRow) : Desk :=
  match d.disk.appendEvaluation r with
  | none => d
  | some disk => { d with disk := disk, queue := d.queue.appendTested su.rules [r.name] }

/-- `_apply_force_admit` and the rewrite of the log, if it seated anyone. -/
def forceAdmit (p : Payload) : Desk :=
  let forced := p.forced.map Requalify.strip
  if d.disk.forceSeats p.existing forced = [] then d
  else
    { d with
      disk := d.disk.forceAdmit p.existing forced p.stamp
      queue := { d.queue with files := d.queue.files.write (.tested d.queue.files.tested) } }

/-- The sections of an ingest that append rows and seat names. -/
def written (p : Payload) (now : ℤ) : Desk :=
  let t := triage d.disk p.existing now d.disk.tested d.requalify p.evals
  (t.rows.foldl (appendRow su) { d with requalify := t.requalify }).forceAdmit p

/-- The names whose leases an ingest clears: ingested, already tested, or
already known. -/
def ingestCleared (p : Payload) (now : ℤ) : List String :=
  (triage d.disk p.existing now d.disk.tested d.requalify p.evals).cleared ++
    (p.forced.map Requalify.strip).filter fun name => p.existing name

/-- `ingest_discovery_payload` -/
def ingest (p : Payload) (now : ℤ) : Desk :=
  let written := d.written su p now
  let extended := { written with queue := written.queue.appendExtended (p.extended.filter (· ≠ "")) }
  let cleared := extended.clear (d.ingestCleared p now)
  match p.heartbeat with
  | none => cleared
  | some (worker, hb) => cleared.touchWorker su worker now hb

end Desk

/-! ## Operations and runs -/

inductive DeskOp where
  | claim (worker : String) (n : ℕ) (parallel : Option ℕ) (env : ClaimEnv)
  | heartbeat (worker : String) (hb : Heartbeat)
  | release (worker : String) (names : Option (List String))
  | clear (names : List String)
  | ingest (p : Payload)
  | enqueue (batchId : String) (names : List String)
  | ensure (batchId : String) (names : List String)
  | refill (proposals : List String)
  | bookChanged (names : List String)

namespace Desk
variable (su : Setup) (d : Desk)

/-- One operation at a clock reading. -/
def apply (now : ℤ) : DeskOp → Desk
  | .claim worker n parallel env => (d.claim su worker n parallel now env).2
  | .heartbeat worker hb => d.touchWorker su worker now hb
  | .release worker names => d.release worker names now
  | .clear names => d.clear names
  | .ingest p => d.ingest su p now
  | .enqueue batchId names =>
    { d with requalify := Requalify.enqueueUnlocked d.requalify batchId names now }
  | .ensure batchId names =>
    { d with requalify := Requalify.ensureBatchUnlocked d.requalify batchId names now }
  | .refill proposals =>
    { d with queue :=
        d.queue.refillCommit su.rules d.leases.keys (d.mintUnlocked su d.leases.keys proposals) }
  | .bookChanged names => { d with queue := { d.queue with files := d.queue.files.write (.book names) } }

/-- An operation, so many clock ticks after the last one. -/
def step (d : Desk) (i : ℕ × DeskOp) : Desk :=
  { d.apply su (d.clock + i.1) i.2 with clock := d.clock + i.1 }

end Desk

end PaperTrading.Leases
