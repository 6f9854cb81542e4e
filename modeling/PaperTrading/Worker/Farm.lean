import Mathlib.Data.Rat.Defs
import Mathlib.Algebra.Order.Field.Rat
import PaperTrading.Lib.Runs

/-!
# The pause flag of the discovery farm

`trading/farm.py` keeps one file with the flag the Stop and Start buttons set and the last
heartbeat of the worker. `set_farm_enabled` and the heartbeats rewrite the whole file under
the lock `discovery`, in two parts: the file is truncated, then filled. A claim checks the
flag under the same lock; `load_farm` and `farm_status_block` read the file without it. A
file that cannot be parsed reads as the default, and the default is enabled.

So a stopped farm reads as enabled between the two parts of any rewrite, and a crash there
leaves a file that the next heartbeat makes an enabled one for good
(`stopped_farm_restarted`). `stopped_stays_stopped` says that this is all: an interleaving
shows a stopped farm stopped throughout, and no heartbeat changes the flag, exactly when no
read without the lock and no crash comes between the two parts of a write while the farm is
stopped.
-/

namespace PaperTrading.Worker

open PaperTrading.Lib

/-! ## The file -/

/-- What the code takes out of the file. -/
structure FarmData where
  enabled : Bool
  updatedAt : Option String
  heartbeatAt : Option String
  heartbeatStatus : Option String
  source : Option String
deriving DecidableEq, Repr

/-- The keys a JSON object in the file has; `enabled` is its truth value. -/
structure ParsedFarm where
  enabled : Option Bool
  updatedAt : Option (Option String)
  heartbeatAt : Option (Option String)
  heartbeatStatus : Option (Option String)
  source : Option (Option String)
deriving DecidableEq, Repr

/-- `unreadable`: no JSON object, as a truncated file. -/
inductive FarmFile where
  | absent
  | unreadable
  | object (parsed : ParsedFarm)
deriving DecidableEq, Repr

def WINDOWS_WORKER : String := "windows_worker"

def FARM_HEARTBEAT_STALE_SECONDS : ℚ := 900

def defaultFarm : FarmData :=
  { enabled := true, updatedAt := none, heartbeatAt := none, heartbeatStatus := none,
    source := some WINDOWS_WORKER }

/-- `_read_farm_unlocked` -/
def readFarmUnlocked : FarmFile → FarmData
  | .absent => defaultFarm
  | .unreadable => defaultFarm
  | .object parsed =>
    { enabled := parsed.enabled.getD defaultFarm.enabled
      updatedAt := parsed.updatedAt.getD defaultFarm.updatedAt
      heartbeatAt := parsed.heartbeatAt.getD defaultFarm.heartbeatAt
      heartbeatStatus := parsed.heartbeatStatus.getD defaultFarm.heartbeatStatus
      source := parsed.source.getD defaultFarm.source }

/-- Python's `s or d` for a text that may be missing. -/
def textOr (s : Option String) (d : String) : String :=
  match s with
  | some t => if t = "" then d else t
  | none => d

/-- The payload of `_write_farm_unlocked`, as the next read parses it. -/
def farmPayload (data : FarmData) : ParsedFarm :=
  { enabled := some data.enabled
    updatedAt := some data.updatedAt
    heartbeatAt := some data.heartbeatAt
    heartbeatStatus := some data.heartbeatStatus
    source := some (some (textOr data.source WINDOWS_WORKER)) }

def loadFarm (file : FarmFile) : FarmData := readFarmUnlocked file

def farmEnabledUnlocked (file : FarmFile) : Bool := (readFarmUnlocked file).enabled

/-- The status of a heartbeat that is not empty. -/
def statusGiven (status : Option String) : Option String :=
  status.bind fun s => if s = "" then none else some s

/-- Who rewrites the file. -/
inductive FarmWrite where
  /-- `set_farm_enabled` -/
  | setEnabled (enabled : Bool)
  /-- `apply_heartbeat_unlocked` -/
  | heartbeat (status : Option String)
deriving DecidableEq, Repr

/-- What the writer makes of the data it read; `now` is the clock. -/
def FarmWrite.edit (w : FarmWrite) (now : String) (data : FarmData) : FarmData :=
  match w with
  | .setEnabled enabled => { data with enabled := enabled, updatedAt := some now }
  | .heartbeat status =>
    { data with
      heartbeatAt := some now
      heartbeatStatus := (statusGiven status).or data.heartbeatStatus }

/-! ## The status block -/

structure FarmStatus where
  enabled : Bool
  status : String
  workerSeen : Bool
  updatedAt : Option String
  heartbeatAt : Option String
  heartbeatAgeSeconds : Option ℚ
  heartbeatStatus : Option String
  source : String
  note : String

def unseenNote (age : Option ℚ) : String :=
  if age.isNone then
    "Worker not seen — no heartbeat yet. Start will not relaunch " ++
      "the process. On each host run: python scripts/discovery_worker.py --workers 2"
  else
    "Worker not seen — Start will not relaunch the process. " ++
      "On each host run: python scripts/discovery_worker.py --workers 2"

def pausedNote : String :=
  "Paused — worker idles with near-zero CPU so the PC can be used " ++
    "for games. Start resumes the next batch. A batch already running " ++
    "may finish first."

/-- The status of the block. -/
def farmStatus (enabled seen inFlightActive : Bool) : String :=
  if !enabled then "paused"
  else if !seen then "worker_unseen"
  else if inFlightActive then "running"
  else "worker_idle"

/-- `farm_status_block` of what the file says; `parseTestedAt` gives the seconds of a time. -/
def farmStatusBlock (parseTestedAt : Option String → Option ℚ) (file : FarmFile)
    (inFlightActive : Bool) (clock : ℚ) : FarmStatus :=
  let raw := readFarmUnlocked file
  let age := (parseTestedAt raw.heartbeatAt).map fun ts => clock - ts
  let seen := age.any fun a => decide (a ≤ FARM_HEARTBEAT_STALE_SECONDS)
  let status := farmStatus raw.enabled seen inFlightActive
  let note :=
    if !seen then (if !raw.enabled then "Paused. " ++ unseenNote age else unseenNote age)
    else if !raw.enabled then pausedNote
    else if status = "running" then "Running — Windows worker is evaluating never-tested names."
    else "Worker idle — process is up, no batch in flight."
  { enabled := raw.enabled, status := status, workerSeen := seen, updatedAt := raw.updatedAt,
    heartbeatAt := raw.heartbeatAt, heartbeatAgeSeconds := age,
    heartbeatStatus := raw.heartbeatStatus, source := textOr raw.source WINDOWS_WORKER,
    note := note }

/-- The block shows the flag of the file, and a farm that is not enabled as paused. -/
theorem farmStatusBlock_enabled (parseTestedAt : Option String → Option ℚ) (file : FarmFile)
    (inFlightActive : Bool) (clock : ℚ) :
    (farmStatusBlock parseTestedAt file inFlightActive clock).enabled =
      farmEnabledUnlocked file := rfl

theorem farmStatusBlock_paused (parseTestedAt : Option String → Option ℚ) (file : FarmFile)
    (inFlightActive : Bool) (clock : ℚ) :
    (farmStatusBlock parseTestedAt file inFlightActive clock).status = "paused" ↔
      farmEnabledUnlocked file = false := by
  have hstatus : ∀ enabled seen : Bool,
      farmStatus enabled seen inFlightActive = "paused" ↔ enabled = false := by
    intro enabled seen
    cases enabled <;> cases seen <;> cases inFlightActive <;> decide
  exact hstatus _ _

/-! ## Threads and processes -/

/-- Where the holder of the lock is. -/
inductive FarmPhase where
  /-- in the block, at no write -/
  | holding
  /-- a write read the file and worked out the new data -/
  | loaded (w : FarmWrite) (data : FarmData)
  /-- it truncated the file -/
  | truncated (w : FarmWrite) (data : FarmData)
deriving DecidableEq, Repr

section
variable {ι : Type}

/-- The file, the thread in a block on the lock and where it is there. `stopped` is beside
the code: Stop was pressed last, which is from when `set_farm_enabled(False)` has filled the
file to when a `set_farm_enabled(True)` truncates it. -/
structure FarmState (ι : Type) where
  file : FarmFile
  holder : Option (ι × FarmPhase)
  stopped : Bool
deriving DecidableEq

/-- One thread enters or leaves a block on the lock, checks the flag in it (a claim), or goes
one part of a write further; a process dies; somebody reads without the lock. A thread
that waits for the lock does nothing. -/
inductive FarmEvent (ι : Type) where
  | lock (i : ι)
  | check (i : ι)
  | load (i : ι) (w : FarmWrite) (now : String)
  | truncate (i : ι)
  | fill (i : ι)
  | unlock (i : ι)
  | crash (i : ι)
  | read (inFlightActive : Bool) (clock : ℚ)

/-- A file found at the start, and nobody in a block. -/
def FarmState.start (file : FarmFile) : FarmState ι :=
  { file := file, holder := none, stopped := !farmEnabledUnlocked file }

/-- `stopped` once the file is truncated by `w`, and once it is filled. -/
def FarmWrite.onTruncate (w : FarmWrite) (stopped : Bool) : Bool :=
  if w = .setEnabled true then false else stopped

def FarmWrite.onFill (w : FarmWrite) (stopped : Bool) : Bool :=
  if w = .setEnabled false then true else stopped

variable [DecidableEq ι]

/-- Where thread `i` is in its block, if it is in one. -/
def FarmState.phaseOf (s : FarmState ι) (i : ι) : Option FarmPhase :=
  s.holder.bind fun h => if h.1 = i then some h.2 else none

def FarmState.step (s : FarmState ι) : FarmEvent ι → FarmState ι
  | .lock i => if s.holder = none then { s with holder := some (i, .holding) } else s
  | .check _ => s
  | .load i w now =>
    if s.phaseOf i = some .holding then
      { s with holder := some (i, .loaded w (w.edit now (readFarmUnlocked s.file))) }
    else s
  | .truncate i =>
    match s.phaseOf i with
    | some (.loaded w data) =>
      { file := .unreadable, holder := some (i, .truncated w data),
        stopped := w.onTruncate s.stopped }
    | _ => s
  | .fill i =>
    match s.phaseOf i with
    | some (.truncated w data) =>
      { file := .object (farmPayload data), holder := some (i, .holding),
        stopped := w.onFill s.stopped }
    | _ => s
  | .unlock i => if s.phaseOf i = some .holding then { s with holder := none } else s
  | .crash i => if (s.phaseOf i).isSome then { s with holder := none } else s
  | .read _ _ => s

/-- The file is truncated and not filled yet, by thread `i`. -/
def FarmState.midWriteBy (s : FarmState ι) (i : ι) : Bool :=
  match s.phaseOf i with
  | some (.truncated _ _) => true
  | _ => false

/-- The file is truncated and not filled yet. -/
def FarmState.midWrite (s : FarmState ι) : Bool :=
  match s.holder with
  | some (_, .truncated _ _) => true
  | _ => false

/-- The data a heartbeat of thread `i` is about to fill the file with. -/
def FarmState.heartbeatData (s : FarmState ι) (i : ι) : Option FarmData :=
  match s.phaseOf i with
  | some (.truncated (.heartbeat _) data) => some data
  | _ => none

/-- What the events have to show: a check in a block and a read find a stopped farm stopped,
a heartbeat writes the flag as it is, and a process that dies leaves a file that shows a
stopped farm stopped. -/
def FarmState.Shown (parseTestedAt : Option String → Option ℚ) (s : FarmState ι) : FarmEvent ι → Prop
  | .check i =>
    s.phaseOf i = some .holding → s.stopped = true → farmEnabledUnlocked s.file = false
  | .read inFlightActive clock =>
    s.stopped = true →
      (loadFarm s.file).enabled = false ∧
      (farmStatusBlock parseTestedAt s.file inFlightActive clock).enabled = false
  | .fill i => ∀ data ∈ s.heartbeatData i, (farmPayload data).enabled = some !s.stopped
  | .crash i =>
    (s.phaseOf i).isSome = true → s.stopped = true →
      (loadFarm (s.step (.crash i)).file).enabled = false
  | _ => True

/-- While the farm is stopped, no read and no crash of the writer comes between the
truncation of the file and its filling. -/
def FarmState.Whole (s : FarmState ι) : FarmEvent ι → Prop
  | .read _ _ => s.stopped = true → s.midWrite = false
  | .crash i => s.stopped = true → s.midWriteBy i = false
  | _ => True

/-! ## What holds between the events -/

/-- The file shows the flag unless a writer is in between, and what a writer has worked out
is the flag as it will be once the file is filled. -/
structure FarmState.Inv (s : FarmState ι) : Prop where
  shows : s.midWrite = false → farmEnabledUnlocked s.file = !s.stopped
  torn : s.midWrite = true → s.file = .unreadable
  loaded : ∀ i w data, s.holder = some (i, .loaded w data) →
    data.enabled = !w.onFill (w.onTruncate s.stopped)
  truncated : ∀ i w data, s.holder = some (i, .truncated w data) →
    data.enabled = !w.onFill s.stopped

theorem phaseOf_eq_some {s : FarmState ι} {i : ι} {p : FarmPhase} :
    s.phaseOf i = some p ↔ s.holder = some (i, p) := by
  unfold FarmState.phaseOf
  cases s.holder with
  | none => exact iff_of_false (by simp) (by simp)
  | some h =>
    obtain ⟨j, q⟩ := h
    by_cases hj : j = i
    · simp [hj]
    · simp [hj]

/-- The data a write works out of a file that shows the flag. -/
theorem edit_enabled (w : FarmWrite) (now : String) {data : FarmData} {stopped : Bool}
    (h : data.enabled = !stopped) :
    (w.edit now data).enabled = !w.onFill (w.onTruncate stopped) := by
  cases w with
  | heartbeat status => exact h
  | setEnabled enabled => cases enabled <;> rfl

omit [DecidableEq ι] in
theorem FarmState.inv_start (file : FarmFile) : (FarmState.start file : FarmState ι).Inv where
  shows _ := (Bool.not_not _).symm
  torn h := by cases h
  loaded _ _ _ h := by cases h
  truncated _ _ _ h := by cases h

omit [DecidableEq ι] in
/-- A holder that is at no write. -/
theorem FarmState.Inv.at_rest {s s' : FarmState ι} (hs : s.Inv) (hmid : s.midWrite = false)
    (hfile : s'.file = s.file) (hstop : s'.stopped = s.stopped)
    (hholder : s'.holder = none ∨ ∃ i, s'.holder = some (i, .holding)) : s'.Inv := by
  have hmid' : s'.midWrite = false := by
    unfold FarmState.midWrite
    obtain h | ⟨i, h⟩ := hholder <;> rw [h]
  refine ⟨fun _ => ?_, fun h => ?_, fun i w data h => ?_, fun i w data h => ?_⟩
  · rw [hfile, hstop]
    exact hs.shows hmid
  · rw [hmid'] at h
    cases h
  · obtain h' | ⟨j, h'⟩ := hholder <;> rw [h'] at h <;> cases h
  · obtain h' | ⟨j, h'⟩ := hholder <;> rw [h'] at h <;> cases h

/-- A thread at rest in its block is not in the middle of a write. -/
theorem midWrite_of_holding {s : FarmState ι} {i : ι} (h : s.phaseOf i = some .holding) :
    s.midWrite = false := by
  unfold FarmState.midWrite
  rw [phaseOf_eq_some.mp h]

theorem midWriteBy_iff {s : FarmState ι} {i : ι} (h : (s.phaseOf i).isSome = true) :
    s.midWriteBy i = s.midWrite := by
  obtain ⟨p, hp⟩ := Option.isSome_iff_exists.mp h
  unfold FarmState.midWriteBy FarmState.midWrite
  rw [hp, phaseOf_eq_some.mp hp]
  cases p <;> rfl

omit [DecidableEq ι] in
/-- In the middle of a write the file reads as enabled. -/
theorem enabled_of_midWrite {s : FarmState ι} (hs : s.Inv) (h : s.midWrite = true) :
    farmEnabledUnlocked s.file = true := by
  rw [hs.torn h]
  rfl

omit [DecidableEq ι] in
/-- A stopped farm reads as stopped exactly when nobody is in the middle of a write. -/
theorem enabled_eq_midWrite {s : FarmState ι} (hs : s.Inv) (hstop : s.stopped = true) :
    farmEnabledUnlocked s.file = s.midWrite := by
  cases hmid : s.midWrite with
  | true => exact enabled_of_midWrite hs hmid
  | false => rw [hs.shows hmid, hstop]; rfl

/-! ## One event -/

section
variable {s : FarmState ι} (hs : s.Inv)
include hs

theorem inv_load (i : ι) (w : FarmWrite) (now : String) : (s.step (.load i w now)).Inv := by
  simp only [FarmState.step]
  by_cases hi : s.phaseOf i = some .holding
  · rw [if_pos hi]
    have hmid := midWrite_of_holding hi
    refine ⟨fun _ => hs.shows hmid, fun h => ?_, fun j v data h => ?_, fun j v data h => ?_⟩
    · cases h
    · cases h
      exact edit_enabled w now (hs.shows hmid)
    · cases h
  · rw [if_neg hi]
    exact hs

theorem inv_truncate (i : ι) : (s.step (.truncate i)).Inv := by
  simp only [FarmState.step]
  split
  next w data hi =>
    refine ⟨fun h => ?_, fun _ => rfl, fun j v data' h => ?_, fun j v data' h => ?_⟩
    · cases h
    · cases h
    · cases h
      exact hs.loaded i w data (phaseOf_eq_some.mp hi)
  next => exact hs

theorem inv_fill (i : ι) : (s.step (.fill i)).Inv := by
  simp only [FarmState.step]
  split
  next w data hi =>
    refine ⟨fun _ => ?_, fun h => ?_, fun j v data' h => ?_, fun j v data' h => ?_⟩
    · exact hs.truncated i w data (phaseOf_eq_some.mp hi)
    · cases h
    · cases h
    · cases h
  next => exact hs

theorem inv_unlock (i : ι) : (s.step (.unlock i)).Inv := by
  simp only [FarmState.step]
  by_cases hi : s.phaseOf i = some .holding
  · rw [if_pos hi]
    exact hs.at_rest (midWrite_of_holding hi) rfl rfl (.inl rfl)
  · rw [if_neg hi]
    exact hs

theorem inv_lock (i : ι) : (s.step (.lock i)).Inv := by
  simp only [FarmState.step]
  by_cases hfree : s.holder = none
  · rw [if_pos hfree]
    have hmid : s.midWrite = false := by
      unfold FarmState.midWrite
      rw [hfree]
    exact hs.at_rest hmid rfl rfl (.inr ⟨i, rfl⟩)
  · rw [if_neg hfree]
    exact hs

/-- A crash leaves a file that shows the flag, unless the farm is stopped and the crash came
in the middle of a write. -/
theorem inv_crash (i : ι) (hwhole : s.Whole (.crash i)) : (s.step (.crash i)).Inv := by
  simp only [FarmState.step]
  by_cases hi : (s.phaseOf i).isSome = true
  · rw [if_pos hi]
    refine ⟨fun _ => ?_, fun h => ?_, fun j v data h => ?_, fun j v data h => ?_⟩
    · cases hmid : s.midWrite with
      | false => exact hs.shows hmid
      | true =>
        have hstop : s.stopped = false := by
          refine Bool.eq_false_iff.mpr fun hstop => ?_
          have := hwhole hstop
          rw [midWriteBy_iff hi, hmid] at this
          cases this
        rw [enabled_of_midWrite hs hmid, hstop]
        rfl
    · cases h
    · cases h
    · cases h
  · rw [if_neg hi]
    exact hs

theorem inv_step (e : FarmEvent ι) (hwhole : s.Whole e) : (s.step e).Inv := by
  cases e with
  | lock i => exact inv_lock hs i
  | check _ => exact hs
  | load i w now => exact inv_load hs i w now
  | truncate i => exact inv_truncate hs i
  | fill i => exact inv_fill hs i
  | unlock i => exact inv_unlock hs i
  | crash i => exact inv_crash hs i hwhole
  | read _ _ => exact hs

/-- A heartbeat fills the file with the flag as it is. -/
theorem heartbeat_keeps {i : ι} {data : FarmData} (h : data ∈ s.heartbeatData i) :
    data.enabled = !s.stopped := by
  unfold FarmState.heartbeatData at h
  split at h
  next status data' hi =>
    cases h
    exact hs.truncated i _ data (phaseOf_eq_some.mp hi)
  next => cases h

/-- A thread that dies leaves a stopped farm shown as stopped exactly when it is not in the
middle of a write. -/
theorem crash_shown_iff (parseTestedAt : Option String → Option ℚ) (i : ι) :
    s.Shown parseTestedAt (.crash i) ↔ s.Whole (.crash i) := by
  by_cases hi : (s.phaseOf i).isSome = true
  · have hfile : (s.step (.crash i)).file = s.file := by
      simp only [FarmState.step, if_pos hi]
    refine (forall_prop_of_true hi).trans (forall_congr' fun hstop => ?_)
    rw [hfile, midWriteBy_iff hi, ← enabled_eq_midWrite hs hstop]
    rfl
  · have hnot : s.midWriteBy i = false := by
      unfold FarmState.midWriteBy
      rw [Option.not_isSome_iff_eq_none.mp hi]
    exact iff_of_true (fun h => absurd h hi) fun _ => hnot

/-- An event shows what it has to exactly when it meets the condition. -/
theorem shown_iff_whole (parseTestedAt : Option String → Option ℚ) (e : FarmEvent ι) :
    s.Shown parseTestedAt e ↔ s.Whole e := by
  cases e with
  | lock _ | load _ _ _ | truncate _ | unlock _ => exact Iff.rfl
  | check i =>
    refine iff_of_true (fun hi hstop => ?_) trivial
    rw [enabled_eq_midWrite hs hstop, midWrite_of_holding hi]
  | fill i =>
    refine iff_of_true (fun data h => ?_) trivial
    exact congrArg some (heartbeat_keeps hs h)
  | crash i => exact crash_shown_iff hs parseTestedAt i
  | read inFlightActive clock =>
    refine forall_congr' fun hstop => ?_
    rw [farmStatusBlock_enabled, ← enabled_eq_midWrite hs hstop]
    exact and_self_iff

end

/-! ## Every interleaving -/

/-- In every interleaving of the threads, from any file: a read and a check show a stopped
farm stopped, no heartbeat changes the flag and no crash makes the file show a stopped farm
enabled, exactly when, while the farm is stopped, no read without the lock and no crash
comes between the truncation of the file and its filling. -/
theorem stopped_stays_stopped (parseTestedAt : Option String → Option ℚ) (file : FarmFile)
    (events : List (FarmEvent ι)) :
    Along FarmState.step (FarmState.Shown parseTestedAt) (FarmState.start file) events ↔
      Along FarmState.step FarmState.Whole (FarmState.start file) events :=
  along_congr_inv (I := FarmState.Inv) (fun _ e hs => shown_iff_whole hs parseTestedAt e)
    (fun _ e hs hwhole => inv_step hs e hwhole) events (FarmState.inv_start file)

end

/-- Stop is pressed, then a worker's heartbeat is about to fill the file when somebody reads
it. -/
def readInHeartbeat : List (FarmEvent ℕ) :=
  [.lock 0, .load 0 (.setEnabled false) "t0", .truncate 0, .fill 0, .unlock 0,
    .lock 1, .load 1 (.heartbeat (some "paused")) "t1", .truncate 1, .read false 0]

/-- The same heartbeat dies there; the next one makes the farm an enabled one. -/
def crashInHeartbeat : List (FarmEvent ℕ) :=
  [.lock 0, .load 0 (.setEnabled false) "t0", .truncate 0, .fill 0, .unlock 0,
    .lock 1, .load 1 (.heartbeat (some "paused")) "t1", .truncate 1, .crash 1,
    .lock 2, .load 2 (.heartbeat (some "paused")) "t2", .truncate 2, .fill 2, .unlock 2,
    .read false 0]

/-- A stopped farm read in the middle of a heartbeat is shown enabled; and after a crash
there and another heartbeat the file itself says so, with Start never pressed. -/
theorem stopped_farm_restarted :
    ¬ Along FarmState.step (FarmState.Shown fun _ => none) (FarmState.start .absent)
        readInHeartbeat ∧
      (crashInHeartbeat.foldl FarmState.step (FarmState.start .absent)).stopped = true ∧
      (loadFarm (crashInHeartbeat.foldl FarmState.step (FarmState.start .absent)).file).enabled =
        true := by
  refine ⟨fun h => ?_, rfl, rfl⟩
  have hread := h.2.2.2.2.2.2.2.2.1 rfl
  cases hread.1

end PaperTrading.Worker
