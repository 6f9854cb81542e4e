import PaperTrading.Lib.Dict
import PaperTrading.Lib.Runs
import PaperTrading.Leases.Record

/-!
# The re-qualification lane

`requalify.py`: a queue of names to evaluate once more, kept in a file of its
own. A batch enqueues names; a claim leases queued ones after it has expired
what is overdue (`leaseRequalify`); a heartbeat renews or drops the leases of
its worker; a release gives them back; a result closes the entry.

`State.apply` is one of these operations and `Op.moves` what it makes of one
entry: `get?_apply` says that this is all it does. The lane runs on a clock that
every step advances (`Lane.step`).
-/

namespace PaperTrading.Leases.Requalify

open PaperTrading.Lib

/-- `MAX_ATTEMPTS` -/
def MAX_ATTEMPTS : ℕ := 3

/-- `QUAL_N_WINDOWS` -/
def QUAL_N_WINDOWS : ℤ := 23

/-- `_RESULT_KEYS` -/
def RESULT_KEYS : List String :=
  ["qualified", "fail_reasons", "sharpe", "trades", "test_pnl", "train_pnl", "win_rate_pct",
    "bh_oos_pnl", "sma_stack_oos_pnl", "daily_sharpe", "bh_daily_sharpe", "avg_hold_hours",
    "gate_rules", "regimes_tested", "all_windows_nonneg", "ops_park", "tested_at", "worker_id",
    "data_end", "data_hash", "provenance", "gate"]

/-- `status` of an entry. -/
inductive Status where
  | queued
  | leased
  | done
  | noResult
deriving DecidableEq, Repr

/-- An evaluation as ingest hands it over: what the lane looks at, and all its
fields as they are written. -/
structure Evaluation where
  strategy : String
  qualified : Bool
  regimesTested : Option ℤ
  fields : List (String × String)
deriving DecidableEq, Repr

/-- The verdict kept on a finished entry. -/
structure Verdict where
  fields : List (String × String)
  qualified : Bool
  gateNWindows : ℤ
  currentGate : Bool
deriving DecidableEq, Repr

def Verdict.of (rec : Evaluation) : Verdict where
  fields := RESULT_KEYS.filterMap fun key => (rec.fields.lookup key).map (key, ·)
  qualified := rec.qualified
  gateNWindows := QUAL_N_WINDOWS
  currentGate := rec.regimesTested = some QUAL_N_WINDOWS

/-- `previous`: the finished verdict of the batch an entry was in before. -/
structure Previous where
  batchId : String
  result : Option Verdict
  recordedAt : Option ℤ
deriving DecidableEq, Repr

/-- One entry of `names`. -/
structure Entry where
  batchId : String
  status : Status
  queuedAt : ℤ
  attempts : ℕ
  previous : Option Previous := none
  workerId : Option String := none
  times : LeaseTimes := {}
  result : Option Verdict := none
  recordedAt : Option ℤ := none
deriving DecidableEq, Repr

/-- One entry of `batches`. -/
structure Batch where
  batchId : String
  createdAt : ℤ
  size : ℕ
deriving DecidableEq, Repr

/-- The file. A missing one is `State.empty`. -/
structure State where
  names : Dict String Entry
  batches : List Batch
  seeded : List String
deriving DecidableEq

def State.empty : State := ⟨Dict.empty, [], []⟩

/-! ## Enqueueing -/

/-- The characters `str.strip` removes. -/
def isSpace (c : Char) : Bool :=
  let n := c.toNat
  (9 ≤ n && n ≤ 13) || (28 ≤ n && n ≤ 32) || n == 133 || n == 160 || n == 5760 ||
    (8192 ≤ n && n ≤ 8202) || n == 8232 || n == 8233 || n == 8239 || n == 8287 || n == 12288

/-- `str.strip` -/
def strip (s : String) : String :=
  String.ofList ((s.toList.dropWhile isSpace).reverse.dropWhile isSpace).reverse

/-- The names a batch asks for, stripped, blank ones left out. -/
def wanted (names : List String) : List String := (names.map strip).filter (· ≠ "")

/-- A fresh entry of a batch. The verdict of another batch's finished entry is
kept for the record. -/
def fresh (batchId : String) (now : ℤ) (prev : Option Entry) : Entry where
  batchId := batchId
  status := .queued
  queuedAt := iso now
  attempts := 0
  previous := prev.bind fun p =>
    if p.status = .done then some ⟨p.batchId, p.result, p.recordedAt⟩ else none

/-- The entry is one of this batch already. -/
def sameBatch (batchId : String) (prev : Option Entry) : Bool :=
  prev.any fun p => p.batchId = batchId

/-- The loop of `_enqueue_unlocked`; returns the names it queued. -/
def enqueueNames (batchId : String) (now : ℤ) :
    Dict String Entry → List String → List String × Dict String Entry
  | d, [] => ([], d)
  | d, name :: names =>
    if sameBatch batchId (d.get? name) then enqueueNames batchId now d names
    else
      let r := enqueueNames batchId now (d.set name (fresh batchId now (d.get? name))) names
      (name :: r.1, r.2)

/-- `_enqueue_unlocked` -/
def enqueueUnlocked (s : State) (batchId : String) (names : List String) (now : ℤ) : State :=
  let r := enqueueNames batchId now s.names (wanted names)
  { s with names := r.2, batches := s.batches ++ [⟨batchId, iso now, r.1.length⟩] }

/-- `ensure_auto_batch_unlocked` and its siblings: each batch id once. -/
def ensureBatchUnlocked (s : State) (batchId : String) (names : List String) (now : ℤ) : State :=
  if batchId ∈ s.seeded then s
  else { enqueueUnlocked s batchId names now with seeded := s.seeded ++ [batchId] }

/-! ## Leasing -/

namespace Entry

/-- The entry without its worker and its expiry; the other stamps stay. -/
def unlease (e : Entry) (status : Status) : Entry :=
  { e with status := status, workerId := none, times := { e.times with expiresAt := none } }

/-- Where an entry goes that was leased and brought no result. -/
def backTo (e : Entry) : Status := if MAX_ATTEMPTS ≤ e.attempts then .noResult else .queued

/-- `_expire`, one entry. -/
def expire (now : ℤ) (e : Entry) : Entry :=
  if e.status = .leased ∧ e.times.expired now then e.unlease e.backTo else e

/-- What `lease_requalify_unlocked` makes of an entry it picks. -/
def lease (worker : String) (ttl : ℕ) (now : ℤ) (e : Entry) : Entry :=
  { e with
    status := .leased
    workerId := some worker
    times := { e.times with claimedAt := some (iso now), expiresAt := some (iso (now + ttl * SECOND)) }
    attempts := e.attempts + 1 }

/-- The entry is leased to this worker. -/
def heldBy (worker : String) (e : Entry) : Bool :=
  e.status = .leased ∧ e.workerId = some worker

/-- What a heartbeat of its worker makes of an entry. A dropped one gets its
attempt back. -/
def refresh (timeout : ℤ) (worker : String) (now : ℤ) (hb : Heartbeat) (name : String) (e : Entry) :
    Entry :=
  if e.heldBy worker then
    match e.times.heartbeatLeaseAction now name hb with
    | .renew => { e with times := e.times.bumpLeaseExpiry timeout now name hb }
    | .keep => e
    | .drop => { e.unlease .queued with attempts := e.attempts - 1 }
  else e

/-- What a release by its worker makes of an entry. -/
def release (worker : String) (names : Option (List String)) (name : String) (e : Entry) : Entry :=
  if e.heldBy worker ∧ names.all (name ∈ ·) then e.unlease e.backTo else e

/-- What a result makes of an entry. -/
def record (rec : Evaluation) (now : ℤ) (e : Entry) : Entry :=
  if e.status = .queued ∨ e.status = .leased then
    { e with
      status := .done
      result := some (Verdict.of rec)
      recordedAt := some (iso now)
      times := { e.times with expiresAt := none } }
  else e

end Entry

/-- The first `n` queued entries, once the overdue ones are expired. -/
def picks (s : State) (n : ℕ) (now : ℤ) : List String :=
  (((s.names.map fun _ e => e.expire now).entries.filter fun e => e.2.status = .queued).take n).map
    Prod.fst

/-- `lease_requalify_unlocked`; the names it leases are `picks s n now`. -/
def leaseRequalify (s : State) (worker : String) (n ttl : ℕ) (now : ℤ) : State :=
  { s with names := s.names.map fun name e =>
      if name ∈ picks s n now then (e.expire now).lease worker ttl now else e.expire now }

/-- `refresh_requalify_leases_unlocked`, as `touch_worker_unlocked` calls it: not
for a paused worker. -/
def refreshRequalify (timeout : ℤ) (s : State) (worker : String) (hb : Heartbeat) (now : ℤ) :
    State :=
  if hb.status = "paused" then s
  else { s with names := s.names.map (Entry.refresh timeout worker now hb) }

/-- `release_requalify_unlocked` -/
def releaseRequalify (s : State) (worker : String) (names : Option (List String)) : State :=
  { s with names := s.names.map (Entry.release worker names) }

/-- `pending_requalify_names` -/
def pendingNames (s : State) : List String :=
  (s.names.filterMap fun _ e =>
    if e.status = .queued ∨ e.status = .leased then some e else none).keys

/-- `record_requalify_unlocked` takes the evaluation. -/
def records (s : State) (rec : Evaluation) : Bool :=
  (s.names.get? rec.strategy).any fun e => e.status = .queued ∨ e.status = .leased

/-- `record_requalify_unlocked` -/
def recordRequalify (s : State) (rec : Evaluation) (now : ℤ) : State :=
  { s with names := s.names.map fun name e => if name = rec.strategy then e.record rec now else e }

/-! ## Operations and runs -/

inductive Op where
  | enqueue (batchId : String) (names : List String)
  | ensure (batchId : String) (names : List String)
  | claim (worker : String) (n ttl : ℕ)
  | heartbeat (worker : String) (hb : Heartbeat)
  | release (worker : String) (names : Option (List String))
  | result (rec : Evaluation)
deriving DecidableEq, Repr

/-- One operation at a clock reading. -/
def State.apply (timeout : ℤ) (s : State) (now : ℤ) : Op → State
  | .enqueue batchId names => enqueueUnlocked s batchId names now
  | .ensure batchId names => ensureBatchUnlocked s batchId names now
  | .claim worker n ttl => leaseRequalify s worker n ttl now
  | .heartbeat worker hb => refreshRequalify timeout s worker hb now
  | .release worker names => releaseRequalify s worker names
  | .result rec => recordRequalify s rec now

/-- The lane: the file, and the time of the last operation. -/
structure Lane where
  clock : ℤ := 0
  state : State := State.empty
deriving DecidableEq

/-- An operation, so many clock ticks after the last one. -/
def Lane.step (timeout : ℤ) (l : Lane) (i : ℕ × Op) : Lane :=
  { clock := l.clock + i.1, state := l.state.apply timeout (l.clock + i.1) i.2 }

/-! ## What an operation makes of one entry -/

/-- The batch puts a fresh entry under the name. -/
def requeues (batchId : String) (names : List String) (name : String) (prev : Option Entry) : Bool :=
  name ∈ wanted names ∧ ¬ sameBatch batchId prev

/-- The entry under `name` after an operation on `s`, from the one before. -/
def Op.moves (timeout : ℤ) (s : State) (now : ℤ) (name : String) (prev : Option Entry) :
    Op → Option Entry
  | .enqueue batchId names =>
    if requeues batchId names name prev then some (fresh batchId now prev) else prev
  | .ensure batchId names =>
    if batchId ∉ s.seeded ∧ requeues batchId names name prev then some (fresh batchId now prev)
    else prev
  | .claim worker n ttl =>
    prev.map fun e =>
      if name ∈ picks s n now then (e.expire now).lease worker ttl now else e.expire now
  | .heartbeat worker hb =>
    if hb.status = "paused" then prev else prev.map (Entry.refresh timeout worker now hb name)
  | .release worker names => prev.map (Entry.release worker names name)
  | .result rec => prev.map fun e => if name = rec.strategy then e.record rec now else e

theorem sameBatch_fresh (batchId : String) (now : ℤ) (prev : Option Entry) :
    sameBatch batchId (some (fresh batchId now prev)) = true := by
  simp [sameBatch, fresh]

/-- A name that occurs again finds the entry of its own batch. -/
theorem get?_enqueueNames {batchId : String} {now : ℤ} (name : String) :
    ∀ (names : List String) (d : Dict String Entry),
      (enqueueNames batchId now d names).2.get? name =
        if name ∈ names ∧ ¬ sameBatch batchId (d.get? name)
        then some (fresh batchId now (d.get? name)) else d.get? name := by
  intro names
  induction names with
  | nil => intro d; simp [enqueueNames]
  | cons head names ih =>
    intro d
    unfold enqueueNames
    split
    next hsame =>
      rw [ih]
      by_cases hn : name = head
      · rw [hn, hsame]
        simp
      · simp [hn]
    next hnew =>
      simp only [ih, Dict.get?_set]
      by_cases hn : name = head
      · rw [hn]
        simp [sameBatch_fresh, hnew]
      · simp [hn]

theorem get?_enqueue {s : State} {batchId : String} {names : List String} {now : ℤ} (name : String) :
    (enqueueUnlocked s batchId names now).names.get? name =
      if requeues batchId names name (s.names.get? name)
      then some (fresh batchId now (s.names.get? name)) else s.names.get? name := by
  unfold enqueueUnlocked requeues
  simp only [get?_enqueueNames, decide_eq_true_eq]

/-- An operation does to every entry what `Op.moves` says, and nothing else. -/
theorem get?_apply {timeout : ℤ} {s : State} {now : ℤ} (op : Op) (name : String) :
    (s.apply timeout now op).names.get? name = op.moves timeout s now name (s.names.get? name) := by
  cases op with
  | enqueue batchId names => exact get?_enqueue name
  | ensure batchId names =>
    simp only [State.apply, ensureBatchUnlocked, Op.moves]
    by_cases h : batchId ∈ s.seeded
    · simp [h]
    · simp [h, get?_enqueue]
  | claim worker n ttl => simp only [State.apply, leaseRequalify, Op.moves, Dict.get?_map]
  | heartbeat worker hb =>
    simp only [State.apply, refreshRequalify, Op.moves]
    split
    next => rfl
    next => rw [Dict.get?_map]
  | release worker names => simp only [State.apply, releaseRequalify, Op.moves, Dict.get?_map]
  | result rec => simp only [State.apply, recordRequalify, Op.moves, Dict.get?_map]

theorem get?_step {timeout : ℤ} {l : Lane} {i : ℕ × Op} (name : String) :
    (l.step timeout i).state.names.get? name =
      i.2.moves timeout l.state (l.clock + i.1) name (l.state.names.get? name) :=
  get?_apply i.2 name

theorem picks_nodup (s : State) (n : ℕ) (now : ℤ) : (picks s n now).Nodup :=
  (((List.take_sublist _ _).trans List.filter_sublist).map Prod.fst).nodup (Dict.keys_nodup _)

/-- A name that is picked has an entry. -/
theorem get?_of_mem_picks {s : State} {n : ℕ} {now : ℤ} {name : String} (h : name ∈ picks s n now) :
    ∃ e, s.names.get? name = some e := by
  unfold picks at h
  obtain ⟨p, hp, rfl⟩ := List.mem_map.mp h
  have hin := (List.mem_filter.mp (List.mem_of_mem_take hp)).1
  have hget : (s.names.map fun _ e => e.expire now).get? p.1 = some p.2 := Dict.get?_eq_some.mpr hin
  rw [Dict.get?_map, Option.map_eq_some_iff] at hget
  obtain ⟨e, he, _⟩ := hget
  exact ⟨e, he⟩

/-- A claim picks only entries that are queued once the overdue ones are
expired. -/
theorem queued_of_mem_picks {s : State} {n : ℕ} {now : ℤ} {name : String} {e : Entry}
    (hmem : name ∈ picks s n now) (he : s.names.get? name = some e) :
    (e.expire now).status = .queued := by
  unfold picks at hmem
  obtain ⟨p, hp, rfl⟩ := List.mem_map.mp hmem
  obtain ⟨hin, hq⟩ := List.mem_filter.mp (List.mem_of_mem_take hp)
  have hget : (s.names.map fun _ e => e.expire now).get? p.1 = some p.2 := Dict.get?_eq_some.mpr hin
  rw [Dict.get?_map, he] at hget
  have hp2 : e.expire now = p.2 := by simpa using hget
  rw [hp2]
  simpa using hq

end PaperTrading.Leases.Requalify
