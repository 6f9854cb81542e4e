import PaperTrading.Leases.Grants

/-!
# How many leases a worker may hold

A worker may lease ahead by two names for each lane it reports: `lease_room` is
what its cap leaves over what it holds, where a lease nobody has reported for
long does not count. The two lanes of a claim fill that room in turn (`Fills`);
the re-qualification lane fills the request before them and keeps its leases in
a file of its own.

Main result: `claim_within_cap`. A claim does not lift a worker above its cap,
and the names it newly leases, in both files, are on its reply, which is no
longer than the request.
-/

namespace PaperTrading.Leases

open PaperTrading.Lib

/-- The lease uses the worker's room. -/
def Lease.usesRoom (worker : String) (now : ℤ) (lease : Lease) : Bool :=
  lease.workerId = worker ∧ ¬ lease.times.isStaleUnstarted now

theorem workerLeaseCount_eq (leases : Dict String Lease) (worker : String) (now : ℤ) :
    workerLeaseCount leases worker now =
      leases.entries.countP fun e => e.2.usesRoom worker now := by
  rw [List.countP_eq_length_filter]
  rfl

/-- One more lease is at most one more to count. -/
theorem workerLeaseCount_set (leases : Dict String Lease) (name : String) (lease : Lease)
    (worker : String) (now : ℤ) :
    workerLeaseCount (leases.set name lease) worker now ≤
      workerLeaseCount leases worker now + 1 := by
  rw [workerLeaseCount_eq, workerLeaseCount_eq]
  have hset := Dict.countP_set leases name lease (Lease.usesRoom worker now)
  have hone : [lease].countP (Lease.usesRoom worker now) ≤ 1 := List.countP_le_length
  omega

/-- The cleanup of a claim only takes leases away. -/
theorem workerLeaseCount_dropExpiredAndTested (su : Setup) (disk : Discovery.Disk)
    (leases : Dict String Lease) (worker : String) (now : ℤ) :
    workerLeaseCount (dropExpiredAndTested su disk now leases) worker now ≤
      workerLeaseCount leases worker now := by
  rw [workerLeaseCount_eq, workerLeaseCount_eq]
  have hsub : (dropExpiredAndTested su disk now leases).entries.Sublist leases.entries := by
    refine Dict.entries_filterMap_sublist fun name lease kept hkept => ?_
    split at hkept
    next => cases hkept
    next =>
      split at hkept
      next => cases hkept
      next => exact (Option.some.inj hkept).symm
  exact hsub.countP_le

/-! ## A lane fills part of a request -/

/-- A lane took these names for the worker, at most `rest` of them, and the
worker's count went up by no more. -/
structure Fills (worker : String) (now : ℤ) (rest : ℕ) (before after : Dict String Lease)
    (names : List String) : Prop where
  atMost : names.length ≤ rest
  counted : workerLeaseCount after worker now ≤
    workerLeaseCount before worker now + names.length

namespace Fills
variable {worker : String} {now : ℤ} {rest : ℕ} {a b c : Dict String Lease}
  {names more : List String}

theorem none : Fills worker now rest a a [] := ⟨Nat.zero_le _, Nat.le_refl _⟩

/-- The next lane fills what is left of the request. -/
theorem append (h : Fills worker now rest a b names)
    (h' : Fills worker now (rest - names.length) b c more) :
    Fills worker now rest a c (names ++ more) := by
  have hfirst := h.atMost
  have hcount := h.counted
  have hsecond := h'.atMost
  have hcount' := h'.counted
  constructor
  · rw [List.length_append]
    omega
  · rw [List.length_append]
    omega

theorem cons {name : String} {lease : Lease}
    (h : Fills worker now rest (a.set name lease) b names) :
    Fills worker now (rest + 1) a b (name :: names) := by
  have hset := workerLeaseCount_set a name lease worker now
  have hatMost := h.atMost
  have hcount := h.counted
  constructor
  · rw [List.length_cons]
    omega
  · rw [List.length_cons]
    omega

/-- Names taken within the room leave the worker within its cap, or where it
was. -/
theorem within {cap : ℕ} (h : Fills worker now rest a b names)
    (hroom : rest ≤ cap - workerLeaseCount a worker now) :
    workerLeaseCount b worker now ≤ max (workerLeaseCount a worker now) cap := by
  have hatMost := h.atMost
  have hcount := h.counted
  omega

end Fills

section
variable {lease : Lease} {skip : String → Bool} {worker : String} {now : ℤ}

theorem fills_takeNames : ∀ (names : List String) (n : ℕ) (leases : Dict String Lease),
    Fills worker now n leases (takeNames lease skip n names leases).2
      (takeNames lease skip n names leases).1 := by
  intro names
  induction names with
  | nil => intro n leases; simpa [takeNames] using Fills.none
  | cons head names ih =>
    intro n leases
    cases n with
    | zero => simpa [takeNames] using Fills.none
    | succ n =>
      unfold takeNames
      split
      next => exact ih _ _
      next => exact (ih _ _).cons

theorem fills_foldl : ∀ (names : List String) (leases : Dict String Lease),
    Fills worker now names.length leases
      (names.foldl (fun leases name => leases.set name lease) leases) names := by
  intro names
  induction names with
  | nil => intro leases; exact Fills.none
  | cons head names ih =>
    intro leases
    exact (ih _).cons

end

/-! ## The two modes -/

variable {su : Setup} {d : Desk} {worker : String} {n : ℕ} {parallel : Option ℕ} {now : ℤ}
  {env : ClaimEnv}

theorem fills_takeLeftovers (rest : ℕ) (leases : Dict String Lease) :
    Fills worker now rest leases (d.takeLeftovers su rest worker now env leases).2.1
      (d.takeLeftovers su rest worker now env leases).1 := by
  unfold Desk.takeLeftovers
  split
  next => exact Fills.none
  next => exact ⟨List.length_take_le _ _, (fills_foldl _ _).counted⟩

theorem fills_claimLibrary :
    Fills worker now (min n (leaseRoom d d.leases worker parallel now)) d.leases
      (d.claimLibrary su worker n parallel now).2.leases
      (d.claimLibrary su worker n parallel now).1 := by
  unfold Desk.claimLibrary Desk.takeLibraryRetests Desk.takeLibrary
  exact (fills_takeNames _ _ _).append (fills_takeNames _ _ _)

/-- The discovery lanes of a random claim fill what the re-qualification lane
left of the request. -/
theorem fills_claimRandom :
    Fills worker now
      (min (n - (Requalify.picks d.requalify n now).length)
        (leaseRoom d d.leases worker parallel now))
      d.leases (d.claimRandom su worker n parallel now env).2.leases
      (d.discoveryPicks su worker n parallel now env) := by
  unfold Desk.claimRandom Desk.discoveryPicks Desk.takeRetests
  exact (fills_takeNames _ _ _).append (fills_takeLeftovers _ _)

theorem length_picks_le (s : Requalify.State) (n : ℕ) (now : ℤ) :
    (Requalify.picks s n now).length ≤ n := by
  unfold Requalify.picks
  rw [List.length_map]
  exact List.length_take_le _ _

theorem length_claimRandom_le :
    (d.claimRandom su worker n parallel now env).1.length ≤ n := by
  rw [claimRandom_names, List.length_append]
  have hpicks := length_picks_le d.requalify n now
  have hfresh : (d.discoveryPicks su worker n parallel now env).length ≤
      min (n - (Requalify.picks d.requalify n now).length)
        (leaseRoom d d.leases worker parallel now) := fills_claimRandom.atMost
  omega

/-- The width a claim sends is stored before the room is computed, and the cap
is the same with it. -/
theorem workerLeaseCap_touch (workers : Dict String Worker) :
    workerLeaseCap (touch workers worker now parallel) worker parallel =
      workerLeaseCap workers worker parallel := by
  unfold workerLeaseCap touch
  rw [Dict.get?_set, if_pos rfl]
  cases parallel with
  | none => rfl
  | some width => rfl

theorem leaseRoom_cleaned :
    leaseRoom (d.cleaned su worker now parallel) (d.cleaned su worker now parallel).leases worker
        parallel now =
      workerLeaseCap d.workers worker parallel -
        workerLeaseCount (d.cleaned su worker now parallel).leases worker now := by
  unfold leaseRoom
  exact congrArg (· - _) (workerLeaseCap_touch d.workers)

/-! ## What a claim newly leases -/

/-- The name has a lease afterwards that it did not have, in either file. -/
def NewlyLeased (before after : Desk) (name : String) : Prop :=
  (∃ lease, after.leases.get? name = some lease ∧ before.leases.get? name ≠ some lease) ∨
    ∃ e, after.requalify.names.get? name = some e ∧ e.status = .leased ∧
      before.requalify.names.get? name ≠ some e

/-- An entry that is leased once the overdue ones are expired was leased and is
unchanged. -/
theorem expire_of_leased {e : Requalify.Entry} (h : (e.expire now).status = .leased) :
    e.expire now = e := by
  unfold Requalify.Entry.expire at h ⊢
  split
  next hover =>
    rw [if_pos hover] at h
    -- an overdue entry goes back to the queue, or is given up
    have hback : e.backTo ≠ .leased := by
      unfold Requalify.Entry.backTo
      split <;> exact fun h => nomatch h
    exact absurd h hback
  next => rfl

theorem requalify_pruned : (d.pruned now).requalify = d.requalify := rfl

/-- A re-qualification lease of a random claim is one it picked, or was there. -/
theorem leased_of_claimRandom {name : String} {e : Requalify.Entry}
    (he : (d.claimRandom su worker n parallel now env).2.requalify.names.get? name = some e)
    (hleased : e.status = .leased) :
    name ∈ (d.claimRandom su worker n parallel now env).1 ∨
      d.requalify.names.get? name = some e := by
  rw [claimRandom_names]
  have hget : (Requalify.leaseRequalify d.requalify worker n FARM_HEARTBEAT_STALE_SECONDS.toNat
      now).names.get? name = some e := he
  unfold Requalify.leaseRequalify at hget
  rw [Dict.get?_map, Option.map_eq_some_iff] at hget
  obtain ⟨old, hold, hnew⟩ := hget
  split at hnew
  next hpicked => exact Or.inl (List.mem_append_left _ hpicked)
  next =>
    right
    rw [← hnew] at hleased
    rw [hold, ← hnew, expire_of_leased hleased]

/-- A re-qualification lease after a claim is on the reply, or was there. -/
theorem leased_of_claim {name : String} {e : Requalify.Entry}
    (he : (d.claim su worker n parallel now env).2.requalify.names.get? name = some e)
    (hleased : e.status = .leased) :
    name ∈ (d.claim su worker n parallel now env).1 ∨
      d.requalify.names.get? name = some e := by
  rcases claim_cases su d worker n parallel now env with heq | ⟨_, heq⟩ | ⟨_, heq⟩ | ⟨_, heq⟩
  · rw [heq] at he
    exact Or.inr he
  · rw [heq] at he
    exact Or.inr he
  · rw [heq] at he
    exact Or.inr he
  · rw [heq, requalify_pruned] at he
    rw [heq]
    exact leased_of_claimRandom he hleased

theorem length_claim_le (su : Setup) (d : Desk) (worker : String) (n : ℕ) (parallel : Option ℕ)
    (now : ℤ) (env : ClaimEnv) : (d.claim su worker n parallel now env).1.length ≤ n := by
  rcases claim_cases su d worker n parallel now env with heq | ⟨_, heq⟩ | ⟨_, heq⟩ | ⟨_, heq⟩
  · rw [heq]; exact Nat.zero_le _
  · rw [heq]; exact Nat.zero_le _
  · rw [heq]
    exact fills_claimLibrary.atMost.trans (Nat.min_le_left _ _)
  · rw [heq]
    exact length_claimRandom_le

theorem count_claim_le (su : Setup) (d : Desk) (worker : String) (n : ℕ) (parallel : Option ℕ)
    (now : ℤ) (env : ClaimEnv) :
    workerLeaseCount (d.claim su worker n parallel now env).2.leases worker now ≤
      max (workerLeaseCount d.leases worker now) (workerLeaseCap d.workers worker parallel) := by
  have hcleaned : workerLeaseCount (d.cleaned su worker now parallel).leases worker now ≤
      workerLeaseCount d.leases worker now :=
    workerLeaseCount_dropExpiredAndTested su d.disk d.leases worker now
  -- what a mode takes within the room of the cleaned desk
  have hfilled : ∀ {rest : ℕ} {after : Dict String Lease} {names : List String},
      Fills worker now rest (d.cleaned su worker now parallel).leases after names →
      rest ≤ leaseRoom (d.cleaned su worker now parallel)
        (d.cleaned su worker now parallel).leases worker parallel now →
      workerLeaseCount after worker now ≤
        max (workerLeaseCount d.leases worker now)
          (workerLeaseCap d.workers worker parallel) := by
    intro rest after names hfills hroom
    rw [leaseRoom_cleaned] at hroom
    have hwithin := hfills.within hroom
    omega
  rcases claim_cases su d worker n parallel now env with heq | ⟨_, heq⟩ | ⟨_, heq⟩ | ⟨_, heq⟩
  · rw [heq]
    exact Nat.le_max_left _ _
  · rw [heq, leases_pruned]
    exact hcleaned.trans (Nat.le_max_left _ _)
  · rw [heq, leases_pruned]
    exact hfilled fills_claimLibrary (Nat.min_le_right _ _)
  · rw [heq, leases_pruned]
    exact hfilled fills_claimRandom (Nat.min_le_right _ _)

/-- After a claim the worker's leases that are not stale number at most what
they did, or its cap; and the names newly leased in either file are on the
reply, which is no longer than the request. -/
theorem claim_within_cap (su : Setup) (d : Desk) (worker : String) (n : ℕ)
    (parallel : Option ℕ) (now : ℤ) (env : ClaimEnv) :
    workerLeaseCount (d.claim su worker n parallel now env).2.leases worker now ≤
        max (workerLeaseCount d.leases worker now) (workerLeaseCap d.workers worker parallel) ∧
      (d.claim su worker n parallel now env).1.length ≤ n ∧
      ∀ name, NewlyLeased d (d.claim su worker n parallel now env).2 name →
        name ∈ (d.claim su worker n parallel now env).1 := by
  refine ⟨count_claim_le su d worker n parallel now env,
    length_claim_le su d worker n parallel now env, ?_⟩
  intro name hnew
  rcases hnew with ⟨lease, hget, hold⟩ | ⟨e, hget, hleased, hold⟩
  · exact ((lease_of_claim hget).resolve_right hold).1
  · exact (leased_of_claim hget hleased).resolve_right hold

end PaperTrading.Leases
