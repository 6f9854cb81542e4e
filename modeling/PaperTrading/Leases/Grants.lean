import PaperTrading.Leases.Desk

/-!
# What a claim grants

A claim writes new leases on the names it hands out and leaves every other lease
as its cleanup left it (`Grants`). `lease_of_step` is the same for any
operation: a lease that is there afterwards is new, was renewed, or is the one
that was there.
-/

namespace PaperTrading.Leases

open PaperTrading.Lib

/-- The names have new leases of the worker, and the other leases did not
change. -/
structure Grants (worker : String) (now : ℤ) (before after : Dict String Lease)
    (names : List String) : Prop where
  granted : ∀ name ∈ names, ∃ lease, after.get? name = some lease ∧ lease.workerId = worker ∧
    lease.times = (newLease worker now).times
  others : ∀ name, name ∉ names → after.get? name = before.get? name

namespace Grants
variable {worker : String} {now : ℤ} {a b c : Dict String Lease} {names more : List String}

theorem none : Grants worker now a a [] := ⟨fun _ h => (nomatch h), fun _ _ => rfl⟩

theorem append (h : Grants worker now a b names) (h' : Grants worker now b c more) :
    Grants worker now a c (names ++ more) := by
  constructor
  · intro name hname
    by_cases hmore : name ∈ more
    · exact h'.granted name hmore
    · rw [h'.others name hmore]
      exact h.granted name ((List.mem_append.mp hname).resolve_right hmore)
  · intro name hname
    rw [List.mem_append, not_or] at hname
    rw [h'.others name hname.2, h.others name hname.1]

/-- One name after another. -/
theorem cons {name : String} {lease : Lease} (hw : lease.workerId = worker)
    (ht : lease.times = (newLease worker now).times)
    (h : Grants worker now (a.set name lease) b names) : Grants worker now a b (name :: names) := by
  have hone : Grants worker now a (a.set name lease) [name] := by
    constructor
    · intro other hother
      rw [List.mem_singleton.mp hother]
      exact ⟨lease, by rw [Dict.get?_set, if_pos rfl], hw, ht⟩
    · intro other hother
      rw [Dict.get?_set, if_neg (by simpa using hother)]
  exact hone.append h

/-- A lease is one of the granted ones or was there before. -/
theorem lease_cases (h : Grants worker now a b names) {name : String} {lease : Lease}
    (hget : b.get? name = some lease) :
    (name ∈ names ∧ lease.times = (newLease worker now).times) ∨ a.get? name = some lease := by
  by_cases hname : name ∈ names
  · obtain ⟨granted, hg, _, ht⟩ := h.granted name hname
    have : granted = lease := Option.some.inj (hg.symm.trans hget)
    rw [← this]
    exact Or.inl ⟨hname, ht⟩
  · rw [← h.others name hname]
    exact Or.inr hget

end Grants

/-! ## Leasing names in turn -/

section
variable {lease : Lease} {skip : String → Bool}

/-- What is taken is on the list, is not to be skipped, and had no lease. -/
theorem mem_takeNames {name : String} : ∀ {names : List String} {n : ℕ} {leases : Dict String Lease},
    name ∈ (takeNames lease skip n names leases).1 →
      name ∈ names ∧ skip name = false ∧ leases.get? name = none := by
  intro names
  induction names with
  | nil => intro n leases h; simp [takeNames] at h
  | cons head names ih =>
    intro n leases h
    cases n with
    | zero => simp [takeNames] at h
    | succ n =>
      unfold takeNames at h
      split at h
      next =>
        obtain ⟨hin, hfree⟩ := ih h
        exact ⟨List.mem_cons_of_mem _ hin, hfree⟩
      next htake =>
        rw [not_or] at htake
        rcases List.mem_cons.mp h with hhead | h
        · rw [hhead]
          exact ⟨List.mem_cons_self, by simpa using htake.1, Dict.get?_eq_none.mpr htake.2⟩
        · obtain ⟨hin, hskip, hfree⟩ := ih h
          rw [Dict.get?_set] at hfree
          split at hfree
          next => cases hfree
          next => exact ⟨List.mem_cons_of_mem _ hin, hskip, hfree⟩

/-- No name is taken twice: the second time it has a lease. -/
theorem takeNames_nodup : ∀ (names : List String) (n : ℕ) (leases : Dict String Lease),
    (takeNames lease skip n names leases).1.Nodup := by
  intro names
  induction names with
  | nil => intro n leases; simp [takeNames]
  | cons head names ih =>
    intro n leases
    cases n with
    | zero => simp [takeNames]
    | succ n =>
      unfold takeNames
      split
      next => exact ih _ _
      next =>
        refine List.nodup_cons.mpr ⟨?_, ih _ _⟩
        intro hmem
        obtain ⟨_, _, hfree⟩ := mem_takeNames hmem
        rw [Dict.get?_set, if_pos rfl] at hfree
        cases hfree

theorem takeNames_grants {worker : String} {now : ℤ} (hw : lease.workerId = worker)
    (ht : lease.times = (newLease worker now).times) :
    ∀ (names : List String) (n : ℕ) (leases : Dict String Lease),
      Grants worker now leases (takeNames lease skip n names leases).2
        (takeNames lease skip n names leases).1 := by
  intro names
  induction names with
  | nil => intro n leases; simpa [takeNames] using Grants.none
  | cons head names ih =>
    intro n leases
    cases n with
    | zero => simpa [takeNames] using Grants.none
    | succ n =>
      unfold takeNames
      split
      next => exact ih _ _
      next => exact (ih _ _).cons hw ht

end

/-- Leasing a list of names one by one. -/
theorem grants_foldl {worker : String} {now : ℤ} : ∀ (names : List String) (leases : Dict String Lease),
    Grants worker now leases
      (names.foldl (fun leases name => leases.set name (newLease worker now)) leases) names := by
  intro names
  induction names with
  | nil => intro leases; exact Grants.none
  | cons head names ih =>
    intro leases
    exact (ih _).cons rfl rfl

/-! ## The claim -/

variable {su : Setup} {d : Desk} {worker : String} {n : ℕ} {parallel : Option ℕ} {now : ℤ}
  {env : ClaimEnv}

theorem grants_takeLeftovers (rest : ℕ) (leases : Dict String Lease) :
    Grants worker now leases (d.takeLeftovers su rest worker now env leases).2.1
      (d.takeLeftovers su rest worker now env leases).1 := by
  unfold Desk.takeLeftovers
  split
  next => exact Grants.none
  next => exact grants_foldl _ _

theorem grants_takeRetests (rest : ℕ) (leases : Dict String Lease) :
    Grants worker now leases (d.takeRetests su rest worker now leases).2
      (d.takeRetests su rest worker now leases).1 := by
  unfold Desk.takeRetests
  exact takeNames_grants (by rfl) (by rfl) _ _ _

theorem grants_takeLibrary (rest : ℕ) (leases : Dict String Lease) :
    Grants worker now leases (d.takeLibrary su rest worker now leases).2
      (d.takeLibrary su rest worker now leases).1 := by
  unfold Desk.takeLibrary
  exact takeNames_grants (by rfl) (by rfl) _ _ _

theorem grants_takeLibraryRetests (rest : ℕ) (leases : Dict String Lease) :
    Grants worker now leases (d.takeLibraryRetests su rest worker now leases).2
      (d.takeLibraryRetests su rest worker now leases).1 := by
  unfold Desk.takeLibraryRetests
  exact takeNames_grants (by rfl) (by rfl) _ _ _

theorem grants_claimLibrary :
    Grants worker now d.leases (d.claimLibrary su worker n parallel now).2.leases
      (d.claimLibrary su worker n parallel now).1 := by
  unfold Desk.claimLibrary
  exact (grants_takeLibraryRetests _ _).append (grants_takeLibrary _ _)

/-- The names a random claim takes for the discovery lanes. -/
def Desk.discoveryPicks (su : Setup) (d : Desk) (worker : String) (n : ℕ) (parallel : Option ℕ)
    (now : ℤ) (env : ClaimEnv) : List String :=
  let requal := Requalify.picks d.requalify n now
  let rest := min (n - requal.length) (leaseRoom d d.leases worker parallel now)
  let retest := d.takeRetests su rest worker now d.leases
  retest.1 ++ (d.takeLeftovers su (rest - retest.1.length) worker now env retest.2).1

theorem claimRandom_names :
    (d.claimRandom su worker n parallel now env).1 =
      Requalify.picks d.requalify n now ++ d.discoveryPicks su worker n parallel now env :=
  List.append_assoc _ _ _

theorem grants_claimRandom :
    Grants worker now d.leases (d.claimRandom su worker n parallel now env).2.leases
      (d.discoveryPicks su worker n parallel now env) := by
  unfold Desk.claimRandom Desk.discoveryPicks
  exact (grants_takeRetests _ _).append (grants_takeLeftovers _ _)

/-- What a claim leaves of the leases before it hands out names. -/
theorem get?_dropExpiredAndTested {disk : Discovery.Disk} {leases : Dict String Lease} {name : String}
    {lease : Lease} : (dropExpiredAndTested su disk now leases).get? name = some lease ↔
      leases.get? name = some lease ∧ lease.times.expired now = false ∧
        (disk.tested name = true → retestPending su disk name = true) := by
  unfold dropExpiredAndTested
  rw [Dict.get?_filterMap, Option.bind_eq_some_iff]
  constructor
  · intro h
    obtain ⟨l, hl, hkeep⟩ := h
    split at hkeep
    next => cases hkeep
    next htested =>
      split at hkeep
      next => cases hkeep
      next hexp =>
        rw [← Option.some.inj hkeep]
        exact ⟨hl, by simpa using hexp, by simpa using htested⟩
  · intro h
    obtain ⟨hl, hexp, htested⟩ := h
    refine ⟨lease, hl, ?_⟩
    rw [if_neg (by simpa using htested), if_neg (by simp [hexp])]

@[simp] theorem leases_pruned : (d.pruned now).leases = d.leases := rfl

/-- The desk a claim hands out names from. -/
def Desk.cleaned (su : Setup) (d : Desk) (worker : String) (now : ℤ) (parallel : Option ℕ) : Desk :=
  { d with leases := dropExpiredAndTested su d.disk now d.leases }.touched worker now parallel

/-- A claim is refused, or cleans up and hands out nothing, library names or the
names of a random claim. -/
theorem claim_cases (su : Setup) (d : Desk) (worker : String) (n : ℕ) (parallel : Option ℕ) (now : ℤ)
    (env : ClaimEnv) :
    d.claim su worker n parallel now env = ([], d) ∨
    env.farmEnabled = false ∧ d.claim su worker n parallel now env =
      ([], (d.cleaned su worker now parallel).pruned now) ∨
    (env.farmEnabled = true ∧ env.libraryMode = true) ∧ d.claim su worker n parallel now env =
      (((d.cleaned su worker now parallel).claimLibrary su worker n parallel now).1,
        ((d.cleaned su worker now parallel).claimLibrary su worker n parallel now).2.pruned now) ∨
    (env.farmEnabled = true ∧ env.libraryMode = false) ∧ d.claim su worker n parallel now env =
      (((d.cleaned su worker now parallel).claimRandom su worker n parallel now env).1,
        ((d.cleaned su worker now parallel).claimRandom su worker n parallel now env).2.pruned
          now) := by
  unfold Desk.claim
  split
  next =>
    unfold Desk.claimUnlocked
    cases hfarm : env.farmEnabled with
    | false => exact Or.inr (Or.inl ⟨rfl, rfl⟩)
    | true =>
      cases hmode : env.libraryMode with
      | true => exact Or.inr (Or.inr (Or.inl ⟨⟨rfl, rfl⟩, rfl⟩))
      | false => exact Or.inr (Or.inr (Or.inr ⟨⟨rfl, rfl⟩, rfl⟩))
  next => exact Or.inl rfl

/-- A lease after a claim is one of the names handed out, or was kept by the
cleanup. -/
theorem lease_of_claim {name : String} {lease : Lease}
    (h : (d.claim su worker n parallel now env).2.leases.get? name = some lease) :
    (name ∈ (d.claim su worker n parallel now env).1 ∧
      lease.times = (newLease worker now).times) ∨ d.leases.get? name = some lease := by
  have hold : (d.cleaned su worker now parallel).leases.get? name = some lease →
      d.leases.get? name = some lease := fun h => (get?_dropExpiredAndTested.mp h).1
  rcases claim_cases su d worker n parallel now env with heq | ⟨_, heq⟩ | ⟨_, heq⟩ | ⟨_, heq⟩
  · rw [heq] at h
    exact Or.inr h
  · rw [heq] at h
    exact Or.inr (hold h)
  · rw [heq, leases_pruned] at h
    rw [heq]
    exact (grants_claimLibrary.lease_cases h).imp id hold
  · rw [heq, leases_pruned] at h
    rw [heq]
    rcases grants_claimRandom.lease_cases h with hnew | hkept
    · refine Or.inl ⟨?_, hnew.2⟩
      rw [claimRandom_names]
      exact List.mem_append_right _ hnew.1
    · exact Or.inr (hold hkept)

/-! ## The other operations -/

theorem leases_foldl_appendRow : ∀ (rows : List Discovery.LogRow) (d : Desk),
    (rows.foldl (Desk.appendRow su) d).leases = d.leases := by
  intro rows
  induction rows with
  | nil => intro d; rfl
  | cons r rows ih =>
    intro d
    rw [List.foldl_cons, ih]
    unfold Desk.appendRow
    split <;> rfl

theorem leases_forceAdmit (p : Payload) : (d.forceAdmit p).leases = d.leases := by
  unfold Desk.forceAdmit
  simp only
  split <;> rfl

theorem get?_clear {names : List String} {name : String} {lease : Lease} :
    (d.clear names).leases.get? name = some lease ↔
      d.leases.get? name = some lease ∧ name ∉ names := by
  unfold Desk.clear
  rw [Dict.get?_filterMap, Option.bind_eq_some_iff]
  constructor
  · intro h
    obtain ⟨l, hl, hkeep⟩ := h
    split at hkeep
    next => cases hkeep
    next hno => exact ⟨by rw [hl, Option.some.inj hkeep], hno⟩
  · intro h
    exact ⟨lease, h.1, by rw [if_neg h.2]⟩

/-- The lease is the one before, or that one renewed by a heartbeat. -/
def Renewed (su : Setup) (now : ℤ) (before : Option Lease) (name : String) (lease : Lease) : Prop :=
  before = some lease ∨ ∃ old hb, before = some old ∧
    lease = { old with times := old.times.bumpLeaseExpiry su.timeout now name hb }

theorem lease_of_touchWorker {hb : Heartbeat} {name : String} {lease : Lease}
    (h : (d.touchWorker su worker now hb).leases.get? name = some lease) :
    Renewed su now (d.leases.get? name) name lease := by
  unfold Desk.touchWorker at h
  simp only at h
  split at h
  next => exact Or.inl h
  next =>
    have hget : (d.leases.filterMap (Desk.refreshLease su worker now hb)).get? name = some lease := h
    rw [Dict.get?_filterMap, Option.bind_eq_some_iff] at hget
    obtain ⟨old, hold, hnew⟩ := hget
    unfold Desk.refreshLease at hnew
    split at hnew
    next =>
      cases hact : old.times.heartbeatLeaseAction now name hb with
      | renew =>
        rw [hact] at hnew
        exact Or.inr ⟨old, hb, hold, (Option.some.inj hnew).symm⟩
      | keep =>
        rw [hact] at hnew
        exact Or.inl (by rw [hold, Option.some.inj hnew])
      | drop => rw [hact] at hnew; cases hnew
    next => exact Or.inl (by rw [hold, Option.some.inj hnew])

theorem leases_written (p : Payload) : (d.written su p now).leases = d.leases := by
  unfold Desk.written
  simp only
  rw [leases_forceAdmit, leases_foldl_appendRow]

/-- A lease after an ingest was there before and was not cleared. -/
theorem lease_of_ingest {p : Payload} {name : String} {lease : Lease}
    (h : (d.ingest su p now).leases.get? name = some lease) :
    Renewed su now (d.leases.get? name) name lease ∧ name ∉ d.ingestCleared p now := by
  have hclear : ∀ {queue : Queue.Store} {l : Lease},
      (({ d.written su p now with queue := queue } : Desk).clear
        (d.ingestCleared p now)).leases.get? name = some l →
      d.leases.get? name = some l ∧ name ∉ d.ingestCleared p now := by
    intro queue l hl
    obtain ⟨hget, hno⟩ := get?_clear.mp hl
    exact ⟨@leases_written su d now p ▸ hget, hno⟩
  unfold Desk.ingest at h
  cases hhb : p.heartbeat with
  | none =>
    rw [hhb] at h
    obtain ⟨hl, hno⟩ := hclear h
    exact ⟨Or.inl hl, hno⟩
  | some whb =>
    rw [hhb] at h
    rcases lease_of_touchWorker h with hsame | ⟨old, hb, hold, hnew⟩
    · obtain ⟨hl, hno⟩ := hclear hsame
      exact ⟨Or.inl hl, hno⟩
    · obtain ⟨hl, hno⟩ := hclear hold
      exact ⟨Or.inr ⟨old, hb, hl, hnew⟩, hno⟩

/-- A lease after an operation is new and was handed out by it, or is the one
before, renewed or not. -/
theorem lease_of_step {i : ℕ × DeskOp} {name : String} {lease : Lease}
    (h : (d.step su i).leases.get? name = some lease) :
    (∃ worker n parallel env, i.2 = .claim worker n parallel env ∧
      name ∈ (d.claim su worker n parallel (d.clock + i.1) env).1 ∧
      lease.times = (newLease worker (d.clock + i.1)).times) ∨
    Renewed su (d.clock + i.1) (d.leases.get? name) name lease := by
  obtain ⟨delay, op⟩ := i
  cases op with
  | claim worker n parallel env =>
    rcases lease_of_claim h with hnew | hold
    · exact Or.inl ⟨worker, n, parallel, env, rfl, hnew⟩
    · exact Or.inr (Or.inl hold)
  | heartbeat worker hb => exact Or.inr (lease_of_touchWorker h)
  | release worker names =>
    right
    left
    -- a release only takes leases away
    have hget : (d.leases.filterMap fun name (lease : Lease) =>
        if lease.workerId = worker ∧ names.all (name ∈ ·) then none else some lease).get? name =
          some lease := h
    rw [Dict.get?_filterMap, Option.bind_eq_some_iff] at hget
    obtain ⟨old, hold, hkeep⟩ := hget
    split at hkeep
    next => cases hkeep
    next => rw [hold, Option.some.inj hkeep]
  | clear names => exact Or.inr (Or.inl (get?_clear.mp h).1)
  | ingest p => exact Or.inr (lease_of_ingest h).1
  | enqueue batchId names => exact Or.inr (Or.inl h)
  | ensure batchId names => exact Or.inr (Or.inl h)
  | refill proposals => exact Or.inr (Or.inl h)
  | bookChanged names => exact Or.inr (Or.inl h)

end PaperTrading.Leases

/-!
## How long a discovery lease can last

A lease that was not reported started is to end by its claim plus the per-name
cap, a started one by its start plus that cap. A renewal keeps to both. A claim
does not look at the cap: it writes one heartbeat grace, which is more when the
configured eval timeout is under half the grace (`lifetimes_bounded_iff`).
-/

namespace PaperTrading.Leases

open PaperTrading.Lib

/-- The lease does not outlive its cap, from its start or else from its claim. -/
def WithinLimits (timeout : ℤ) (t : LeaseTimes) : Prop :=
  match t.startedAt with
  | some s => ∀ e ∈ t.expiresAt, e ≤ s + perNameLeaseSeconds timeout
  | none => ∀ c ∈ t.claimedAt, ∀ e ∈ t.expiresAt, e ≤ c + perNameLeaseSeconds timeout

/-- Every lease of the desk keeps to its limit. -/
def AllWithinLimits (timeout : ℤ) (d : Desk) : Prop :=
  ∀ name lease, d.leases.get? name = some lease → WithinLimits timeout lease.times

/-- Whatever the lease was, a renewal ends it within its limit. -/
theorem withinLimits_bump (timeout now : ℤ) (t : LeaseTimes) (name : String) (hb : Heartbeat) :
    WithinLimits timeout (t.bumpLeaseExpiry timeout now name hb) := by
  unfold WithinLimits
  rw [LeaseTimes.bump_startedAt, LeaseTimes.bump_expiresAt, LeaseTimes.bump_claimedAt]
  cases hs : t.startedBy now name hb with
  | some s =>
    intro e he
    rw [← Option.some.inj he]
    exact min_le_right _ _
  | none =>
    intro c hc e he
    rw [LeaseTimes.hardCap, LeaseTimes.unstartedHardCap, Option.mem_def.mp hc] at he
    rw [← Option.some.inj he]
    exact min_le_right _ _

/-- A new lease lasts one heartbeat grace. -/
theorem withinLimits_new {timeout : ℤ} (h : FARM_HEARTBEAT_STALE_SECONDS ≤ perNameLeaseSeconds timeout)
    (worker : String) (now : ℤ) : WithinLimits timeout (newLease worker now).times := by
  intro c hc e he
  have hc' : iso now = c := Option.some.inj hc
  have he' : iso (now + FARM_HEARTBEAT_STALE_SECONDS * SECOND) = e := Option.some.inj he
  rw [← hc', ← he', iso_add]
  omega

theorem withinLimits_step {su : Setup} {d : Desk} {i : ℕ × DeskOp}
    (hcap : FARM_HEARTBEAT_STALE_SECONDS ≤ perNameLeaseSeconds su.timeout)
    (h : AllWithinLimits su.timeout d) : AllWithinLimits su.timeout (d.step su i) := by
  intro name lease hget
  rcases lease_of_step hget with ⟨worker, n, parallel, env, _, _, hnew⟩ | hsame | ⟨old, hb, _, hnew⟩
  · rw [hnew]
    exact withinLimits_new hcap worker _
  · exact h name lease hsame
  · rw [hnew]
    exact withinLimits_bump su.timeout _ old.times name hb

theorem withinLimits_run {su : Setup} (hcap : FARM_HEARTBEAT_STALE_SECONDS ≤ perNameLeaseSeconds su.timeout)
    {d : Desk} (h : AllWithinLimits su.timeout d) (ops : List (ℕ × DeskOp)) :
    AllWithinLimits su.timeout (ops.foldl (Desk.step su) d) :=
  run_inv (C := fun _ _ => True) (fun _ _ hd _ => withinLimits_step hcap hd) ops h
    (along_of_forall (fun _ _ => trivial) ops)

/-! ### When the grace exceeds the cap -/

/-- A desk that has one library strategy to hand out. -/
def oneStrategy (timeout : ℤ) : Setup where
  timeout := timeout
  rules :=
    { canonicalName := id
      nearDuplicateKey := id
      blocks := fun _ => false
      staticUniverse := [] }
  catalog := ["lib.td_cd"]
  bhOrder := []
  libraryOrder := []

/-- A fresh desk at time zero. -/
def emptyDesk : Desk := Desk.start 0 [] [] (fun _ => none) (fun _ => none) [] []

/-- One claim of a worker in library mode. -/
def oneClaim : List (ℕ × DeskOp) := [(0, .claim "laptop" 1 none { libraryMode := true })]

/-- Its lease lasts the grace, whatever the timeout. -/
theorem oneClaim_lease (timeout : ℤ) :
    (oneClaim.foldl (Desk.step (oneStrategy timeout)) emptyDesk).leases.get? "lib.td_cd" =
      some { workerId := "laptop", times := { claimedAt := some 0, expiresAt := some 900 },
             library := true } := by
  have hsame : (oneClaim.foldl (Desk.step (oneStrategy timeout)) emptyDesk).leases =
      (oneClaim.foldl (Desk.step (oneStrategy 600)) emptyDesk).leases := rfl
  rw [hsame]
  decide +kernel

/-- The grace is within the cap when the timeout is off, or at least half the
grace. -/
theorem grace_le_cap_iff (timeout : ℤ) :
    FARM_HEARTBEAT_STALE_SECONDS ≤ perNameLeaseSeconds timeout ↔ timeout ≤ 0 ∨ 450 ≤ timeout := by
  unfold FARM_HEARTBEAT_STALE_SECONDS perNameLeaseSeconds LEASE_TTL_FACTOR DEFAULT_EVAL_TIMEOUT_SECONDS
  split <;> omega

/-- **Lease lifetimes.** With an eval timeout that is off or at least 450
seconds, every lease keeps to its limit in every state reached; with any other
timeout some run reaches a lease that does not. -/
theorem lifetimes_bounded_iff (timeout : ℤ) :
    (∀ su : Setup, su.timeout = timeout → ∀ clock log tested bhQueue libraryQueue extended book,
      ∀ ops : List (ℕ × DeskOp), AllWithinLimits timeout (ops.foldl (Desk.step su)
        (Desk.start clock log tested bhQueue libraryQueue extended book))) ↔
    timeout ≤ 0 ∨ 450 ≤ timeout := by
  rw [← grace_le_cap_iff]
  constructor
  · intro hall
    have hlimit := hall (oneStrategy timeout) rfl 0 [] [] (fun _ => none) (fun _ => none) [] [] oneClaim
      "lib.td_cd" _ (oneClaim_lease timeout) 0 rfl 900 rfl
    rw [zero_add] at hlimit
    exact hlimit
  · intro hcap su hsu clock log tested bhQueue libraryQueue extended book ops
    rw [← hsu] at hcap ⊢
    apply withinLimits_run hcap
    intro name lease hget
    cases hget

/-- With a timeout of 300 seconds a lease nobody reports is to end after 600, and
is held for 900. -/
theorem claim_outlives_cap :
    ¬ AllWithinLimits 300 (oneClaim.foldl (Desk.step (oneStrategy 300)) emptyDesk) := by
  intro h
  have hlimit := h "lib.td_cd" _ (oneClaim_lease 300) 0 rfl 900 rfl
  revert hlimit
  decide

end PaperTrading.Leases
