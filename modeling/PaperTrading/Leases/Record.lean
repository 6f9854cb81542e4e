import Mathlib.Algebra.Order.Ring.Int
import Mathlib.Data.Option.Basic
import Mathlib.Tactic.Ring

/-!
# Lease times and the renewal rule

The part of a lease record both lanes share: when it was claimed, first
reported in flight, last reported waiting, and when it expires. The clock is in
microseconds; `iso` writes it to a file in whole seconds.

`heartbeatLeaseAction` and `bumpLeaseExpiry` are the rule `leases.py` applies to
every lease of a worker that sends a heartbeat. `bump_expiresAt` says what the
second one writes, in seconds: a grace from now, but not past the cap of the
lease.
-/

namespace PaperTrading.Leases

/-- Clock ticks in a second. -/
def SECOND : ℤ := 1000000

/-- `FARM_HEARTBEAT_STALE_SECONDS`, the grace of a heartbeat. -/
def FARM_HEARTBEAT_STALE_SECONDS : ℤ := 900

/-- `DEFAULT_EVAL_TIMEOUT_SECONDS` -/
def DEFAULT_EVAL_TIMEOUT_SECONDS : ℤ := 600

/-- `LEASE_TTL_FACTOR` -/
def LEASE_TTL_FACTOR : ℤ := 2

/-- `UNSTARTED_STALE_SECONDS` -/
def UNSTARTED_STALE_SECONDS : ℤ := 300

/-- `ORPHAN_GRACE_SECONDS` -/
def ORPHAN_GRACE_SECONDS : ℤ := 180

/-- `_iso`: a clock reading as a file shows it, in whole seconds. -/
def iso (now : ℤ) : ℤ := now / SECOND

/-- `per_name_lease_seconds` for a configured eval timeout. -/
def perNameLeaseSeconds (timeout : ℤ) : ℤ :=
  LEASE_TTL_FACTOR * if timeout ≤ 0 then DEFAULT_EVAL_TIMEOUT_SECONDS else timeout

/-- The stamps of a lease record, in seconds. -/
structure LeaseTimes where
  claimedAt : Option ℤ := none
  expiresAt : Option ℤ := none
  startedAt : Option ℤ := none
  queuedSeenAt : Option ℤ := none
deriving DecidableEq, Repr

/-- A heartbeat, and the names it lists as in flight and as waiting. A list it
did not send is `none`. -/
structure Heartbeat where
  status : String
  evaluating : Option (List String) := none
  queued : Option (List String) := none
deriving DecidableEq, Repr

def Heartbeat.evaluates (hb : Heartbeat) (name : String) : Bool :=
  hb.evaluating.any fun names => name ∈ names

def Heartbeat.queues (hb : Heartbeat) (name : String) : Bool :=
  hb.queued.any fun names => name ∈ names

/-- Neither list names anything. -/
def Heartbeat.empty (hb : Heartbeat) : Bool :=
  (hb.evaluating.getD []).isEmpty && (hb.queued.getD []).isEmpty

/-- `RENEW`, `KEEP` and `DROP` -/
inductive LeaseAction where
  | renew
  | keep
  | drop
deriving DecidableEq, Repr

namespace LeaseTimes

/-- A lease counts as expired when its stamp is missing or not after `now`. -/
def expired (t : LeaseTimes) (now : ℤ) : Bool :=
  match t.expiresAt with
  | none => true
  | some e => e * SECOND ≤ now

/-- `is_stale_unstarted` -/
def isStaleUnstarted (t : LeaseTimes) (now : ℤ) : Bool :=
  if t.startedAt.isSome then false
  else
    match t.queuedSeenAt <|> t.claimedAt with
    | none => true
    | some seen => UNSTARTED_STALE_SECONDS * SECOND ≤ now - seen * SECOND

/-- `unstarted_hard_cap` -/
def unstartedHardCap (timeout : ℤ) (t : LeaseTimes) : Option ℤ :=
  t.claimedAt.map (· + perNameLeaseSeconds timeout)

/-- `heartbeat_lease_action` -/
def heartbeatLeaseAction (t : LeaseTimes) (now : ℤ) (name : String) (hb : Heartbeat) :
    LeaseAction :=
  if hb.evaluates name || hb.queues name then .renew
  else if t.startedAt.isSome then
    if hb.evaluating = none ∧ hb.status ≠ "idle" then .renew else .keep
  else if hb.status = "idle" ∧ hb.empty then .drop
  else if hb.queued.isSome then
    match t.claimedAt with
    | none => .drop
    | some claimed => if ORPHAN_GRACE_SECONDS * SECOND ≤ now - claimed * SECOND then .drop else .keep
  else .keep

/-- `started_at` after a heartbeat: the first that lists the name sets it. -/
def startedBy (t : LeaseTimes) (now : ℤ) (name : String) (hb : Heartbeat) : Option ℤ :=
  if hb.evaluates name ∧ t.startedAt = none then some (iso now) else t.startedAt

/-- The hard end of a lease: its cap from `started`, or from the claim. -/
def hardCap (timeout : ℤ) (t : LeaseTimes) (started : Option ℤ) : Option ℤ :=
  match started with
  | some s => some (s + perNameLeaseSeconds timeout)
  | none => t.unstartedHardCap timeout

/-- `bump_lease_expiry` -/
def bumpLeaseExpiry (timeout : ℤ) (t : LeaseTimes) (now : ℤ) (name : String) (hb : Heartbeat) :
    LeaseTimes :=
  let started := t.startedBy now name hb
  let horizon := now + FARM_HEARTBEAT_STALE_SECONDS * SECOND
  { t with
    startedAt := started
    queuedSeenAt := if hb.queues name then some (iso now) else t.queuedSeenAt
    expiresAt := some (iso (match t.hardCap timeout started with
      | some hard => min horizon (hard * SECOND)
      | none => horizon)) }

end LeaseTimes

/-! ## Seconds and clock ticks -/

theorem second_pos : 0 < SECOND := by decide

theorem iso_mul (n : ℤ) : iso (n * SECOND) = n := Int.mul_ediv_cancel n second_pos.ne'

theorem iso_add (now n : ℤ) : iso (now + n * SECOND) = iso now + n :=
  Int.add_mul_ediv_right now n second_pos.ne'

theorem iso_mono {a b : ℤ} (h : a ≤ b) : iso a ≤ iso b := Int.ediv_le_ediv second_pos h

theorem iso_min (a b : ℤ) : iso (min a b) = min (iso a) (iso b) :=
  Monotone.map_min (fun _ _ h => iso_mono h)

/-- `iso` drops less than a second. -/
theorem lt_iso_add_one (now : ℤ) : now < (iso now + 1) * SECOND :=
  Int.lt_ediv_add_one_mul_self now second_pos

/-! ## What a renewal writes -/

theorem perNameLeaseSeconds_pos (timeout : ℤ) : 0 < perNameLeaseSeconds timeout := by
  unfold perNameLeaseSeconds LEASE_TTL_FACTOR DEFAULT_EVAL_TIMEOUT_SECONDS
  split <;> omega

namespace LeaseTimes

variable {timeout now : ℤ} {t : LeaseTimes} {name : String} {hb : Heartbeat}

@[simp] theorem bump_claimedAt :
    (t.bumpLeaseExpiry timeout now name hb).claimedAt = t.claimedAt := rfl

@[simp] theorem bump_startedAt :
    (t.bumpLeaseExpiry timeout now name hb).startedAt = t.startedBy now name hb := rfl

@[simp] theorem bump_queuedSeenAt :
    (t.bumpLeaseExpiry timeout now name hb).queuedSeenAt =
      if hb.queues name then some (iso now) else t.queuedSeenAt := rfl

/-- A renewal runs a grace from now, but not past the cap. -/
theorem bump_expiresAt :
    (t.bumpLeaseExpiry timeout now name hb).expiresAt =
      some (match t.hardCap timeout (t.startedBy now name hb) with
        | some hard => min (iso now + FARM_HEARTBEAT_STALE_SECONDS) hard
        | none => iso now + FARM_HEARTBEAT_STALE_SECONDS) := by
  unfold bumpLeaseExpiry
  simp only
  cases t.hardCap timeout (t.startedBy now name hb) with
  | none => simp only [iso_add]
  | some hard => simp only [iso_min, iso_add, iso_mul]

/-- A start stamp is the old one or the heartbeat's own second. -/
theorem startedBy_cases {s : ℤ} (h : t.startedBy now name hb = some s) :
    t.startedAt = some s ∨ t.startedAt = none ∧ s = iso now := by
  unfold startedBy at h
  split at h
  next hnew => exact Or.inr ⟨hnew.2, by simpa using h.symm⟩
  next => exact Or.inl h

end LeaseTimes

end PaperTrading.Leases
