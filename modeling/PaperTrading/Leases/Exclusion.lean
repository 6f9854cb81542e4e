import PaperTrading.Leases.Retests
import PaperTrading.Leases.Serves

/-!
# One holder at a time

What a claim hands out is to be free: without an unexpired lease in either file,
each name once; and a tested name keeps a lease only while it is a pending
retest (`Exclusive`). Within the discovery file the code sees to it. The two
files do not know of each other: a name that is queued for re-qualification and
open to a discovery lane as well is handed out from both.

`lease_exclusion` holds along every run that keeps the two lanes apart and does
not end a retest under its lease (`LanesApart`). `held_name_handed_out` is a name
that one worker holds and another one gets.
-/

namespace PaperTrading.Leases

open PaperTrading.Lib

namespace Desk
variable (su : Setup) (d : Desk)

/-- The name has an unexpired lease in `discovery_leases.json`. -/
def discoveryHeld (now : ℤ) (name : String) : Bool :=
  (d.leases.get? name).any fun lease => !lease.times.expired now

/-- The name has an unexpired lease in `discovery_requalify.json`. -/
def requalifyHeld (now : ℤ) (name : String) : Bool :=
  (d.requalify.names.get? name).any fun e => e.status = .leased && !e.times.expired now

/-- The re-qualification lane has the name to hand out. -/
def requalifyOffers (now : ℤ) (name : String) : Bool :=
  (d.requalify.names.get? name).any fun e => (e.expire now).status = .queued

/-- The names the discovery lanes of a claim choose from. -/
def discoveryLists (env : ClaimEnv) (name : String) : Bool :=
  if env.libraryMode then
    name ∈ pendingLibraryRetestNames su d.disk ∨ name ∈ pendingSignalCorrectionNames d.disk ∨
      name ∈ su.catalog ∧ ¬ d.disk.tested name ∧ name ∉ d.book
  else
    name ∈ pendingRetestNames su d.disk ∧ name ∉ d.book ∨ name ∈ (d.queue.view su.rules).base ∨
      name ∈ env.proposals

end Desk

/-- A claim hands out free names, each once; and after any operation a tested
name that has a lease is a pending retest. -/
structure Exclusive (su : Setup) (d : Desk) (i : ℕ × DeskOp) : Prop where
  distinct : ∀ worker n parallel env, i.2 = .claim worker n parallel env →
    (d.claim su worker n parallel (d.clock + i.1) env).1.Nodup
  free : ∀ worker n parallel env, i.2 = .claim worker n parallel env →
    ∀ name ∈ (d.claim su worker n parallel (d.clock + i.1) env).1,
      d.discoveryHeld (d.clock + i.1) name = false ∧ d.requalifyHeld (d.clock + i.1) name = false
  retests : ∀ name lease, (d.step su i).leases.get? name = some lease →
    (d.step su i).disk.tested name = true → retestPending su (d.step su i).disk name = true

/-- A claim finds the lanes apart: what the re-qualification lane offers the
discovery lanes neither hold nor list, and what it holds they do not list
unless they hold it too. -/
def ClaimApart (su : Setup) (d : Desk) (now : ℤ) (env : ClaimEnv) : Prop :=
  env.farmEnabled = true → ∀ name ∈ d.requalify.names.keys,
    (env.libraryMode = false → d.requalifyOffers now name = true →
      d.discoveryHeld now name = false ∧ d.discoveryLists su env name = false) ∧
    (d.requalifyHeld now name = true → d.discoveryLists su env name = true →
      d.discoveryHeld now name = true)

/-- An ingest keeps the retests of the leased names. -/
def IngestKeeps (d : Desk) (p : Payload) : Prop := ∀ name ∈ d.leases.keys, KeepsRetest d p name

/-- The lanes are apart at a claim, and an ingest keeps the leased retests. -/
def LanesApart (su : Setup) (d : Desk) (i : ℕ × DeskOp) : Prop :=
  match i.2 with
  | .claim _ _ _ env => ClaimApart su d (d.clock + i.1) env
  | .ingest p => IngestKeeps d p
  | _ => True

/-- What every operation keeps: the queue serves untested names, the files it is
built from cover the tested names, and leased tested names are retests. -/
structure Sound (su : Setup) (d : Desk) : Prop where
  serves : Queue.Serves d.queue
  covered : ∀ name, d.disk.tested name = true → name ∈ d.queue.files.tested
  retests : ∀ name lease, d.leases.get? name = some lease → d.disk.tested name = true →
    retestPending su d.disk name = true

/-! ## The names a claim hands out -/

section
variable {su : Setup} {d : Desk} {worker : String} {n : ℕ} {parallel : Option ℕ} {now : ℤ}
  {env : ClaimEnv}

/-- The mint proposes each name once, and none that is claimable already. -/
theorem minted_nodup (rest : ℕ) (active : List String) : (d.minted su rest active env).Nodup := by
  unfold Desk.minted
  split
  next => exact greedy_nodup (fun _ => rfl) _ _
  next => exact List.nodup_nil

theorem mem_minted {rest : ℕ} {active : List String} {name : String}
    (h : name ∈ d.minted su rest active env) :
    name ∈ env.proposals ∧ name ∉ d.queue.claimable su.rules active := by
  unfold Desk.minted at h
  split at h
  next =>
    refine ⟨(greedy_sublist _ _).mem h, ?_⟩
    intro hin
    have hfree := (mem_greedy h).2
    simp only [keyTaken, Option.any_some, decide_eq_false_iff_not] at hfree
    exact hfree (List.mem_append_right _ hin)
  next => cases h

/-- A name the discovery lanes hand out: it has no lease, is on their list, and
if it is tested it is a pending retest. -/
structure Picked (su : Setup) (d : Desk) (env : ClaimEnv) (leases : Dict String Lease)
    (name : String) : Prop where
  unleased : leases.get? name = none
  listed : d.discoveryLists su env name = true
  retest : d.disk.tested name = true → retestPending su d.disk name = true

theorem picked_retest (hmode : env.libraryMode = false) {rest : ℕ} {leases : Dict String Lease}
    {name : String} (h : name ∈ (d.takeRetests su rest worker now leases).1) :
    Picked su d env leases name := by
  unfold Desk.takeRetests at h
  obtain ⟨hin, hskip, hfree⟩ := mem_takeNames h
  have hbook : name ∉ d.book := by simpa using hskip
  refine ⟨hfree, ?_, ?_⟩
  · simp [Desk.discoveryLists, hmode, hin, hbook]
  · intro _
    simp [retestPending, hin]

theorem picked_leftover (h : Sound su d) (hmode : env.libraryMode = false) {rest : ℕ}
    {leases : Dict String Lease} {name : String}
    (hmem : name ∈ (d.takeLeftovers su rest worker now env leases).1) :
    Picked su d env leases name := by
  unfold Desk.takeLeftovers at hmem
  split at hmem
  next => cases hmem
  next =>
    obtain ⟨hin, hactive, huntested⟩ :=
      Queue.mem_claimableWith h.serves (List.mem_of_mem_take hmem)
    refine ⟨Dict.get?_eq_none.mpr hactive, ?_, ?_⟩
    · rcases hin with hbase | hmint
      · simp [Desk.discoveryLists, hmode, hbase]
      · simp [Desk.discoveryLists, hmode, (mem_minted hmint).1]
    · intro htested
      exact absurd (h.covered name htested) huntested

theorem leftovers_nodup (h : Sound su d) (rest : ℕ) (leases : Dict String Lease) :
    (d.takeLeftovers su rest worker now env leases).1.Nodup := by
  unfold Desk.takeLeftovers
  split
  next => exact List.nodup_nil
  next =>
    apply (List.take_sublist _ _).nodup
    apply Queue.claimableWith_nodup h.serves (minted_nodup _ _)
    intro name hname
    exact (mem_minted hname).2

/-- Names that a second lane hands out had no lease after the first. -/
theorem nodup_append_grants {before after : Dict String Lease} {names more : List String}
    (hnames : names.Nodup) (hmore : more.Nodup) (h : Grants worker now before after names)
    (hfree : ∀ name ∈ more, after.get? name = none) : (names ++ more).Nodup := by
  refine List.Nodup.append hnames hmore ?_
  intro name hname hname'
  obtain ⟨lease, hget, _⟩ := h.granted name hname
  rw [hfree name hname'] at hget
  cases hget

/-- And none before it either. -/
theorem unleased_before {before after : Dict String Lease} {names : List String} {name : String}
    (h : Grants worker now before after names) (hfree : after.get? name = none) :
    before.get? name = none := by
  by_cases hname : name ∈ names
  · obtain ⟨lease, hget, _⟩ := h.granted name hname
    rw [hfree] at hget
    cases hget
  · rw [← h.others name hname]
    exact hfree

theorem discoveryPicks_nodup (h : Sound su d) (hmode : env.libraryMode = false) :
    (d.discoveryPicks su worker n parallel now env).Nodup := by
  unfold Desk.discoveryPicks
  apply nodup_append_grants (takeNames_nodup _ _ _) (leftovers_nodup h _ _) (grants_takeRetests _ _)
  intro name hname
  exact (picked_leftover h hmode hname).unleased

theorem picked_of_discoveryPicks (h : Sound su d) (hmode : env.libraryMode = false) {name : String}
    (hmem : name ∈ d.discoveryPicks su worker n parallel now env) :
    Picked su d env d.leases name := by
  unfold Desk.discoveryPicks at hmem
  rcases List.mem_append.mp hmem with hretest | hfresh
  · exact picked_retest hmode hretest
  · have hp := picked_leftover h hmode hfresh
    exact ⟨unleased_before (grants_takeRetests _ _) hp.unleased, hp.listed, hp.retest⟩

theorem picked_libraryRetest (hmode : env.libraryMode = true) {rest : ℕ} {leases : Dict String Lease}
    {name : String} (h : name ∈ (d.takeLibraryRetests su rest worker now leases).1) :
    Picked su d env leases name := by
  unfold Desk.takeLibraryRetests at h
  obtain ⟨hin, _, hfree⟩ := mem_takeNames h
  have hpending : name ∈ pendingLibraryRetestNames su d.disk ∨
      name ∈ pendingSignalCorrectionNames d.disk :=
    (List.mem_append.mp hin).imp id fun hc => (List.mem_filter.mp hc).1
  refine ⟨hfree, ?_, ?_⟩
  · rcases hpending with hp | hp
    · simp [Desk.discoveryLists, hmode, hp]
    · simp [Desk.discoveryLists, hmode, hp]
  · intro _
    rcases hpending with hp | hp
    · simp [retestPending, hp]
    · simp [retestPending, hp]

theorem picked_library (hmode : env.libraryMode = true) {rest : ℕ} {leases : Dict String Lease}
    {name : String} (h : name ∈ (d.takeLibrary su rest worker now leases).1) :
    Picked su d env leases name := by
  unfold Desk.takeLibrary at h
  obtain ⟨hin, hskip, hfree⟩ := mem_takeNames h
  simp only [decide_eq_false_iff_not, not_or, Bool.not_eq_true] at hskip
  refine ⟨hfree, ?_, ?_⟩
  · simp [Desk.discoveryLists, hmode, hin, hskip]
  · intro htested
    rw [hskip.1] at htested
    cases htested

theorem claimLibrary_nodup (hmode : env.libraryMode = true) :
    (d.claimLibrary su worker n parallel now).1.Nodup := by
  unfold Desk.claimLibrary
  apply nodup_append_grants (takeNames_nodup _ _ _) (takeNames_nodup _ _ _)
    (grants_takeLibraryRetests _ _)
  intro name hname
  exact (picked_library hmode hname).unleased

theorem picked_of_claimLibrary (hmode : env.libraryMode = true) {name : String}
    (hmem : name ∈ (d.claimLibrary su worker n parallel now).1) : Picked su d env d.leases name := by
  unfold Desk.claimLibrary at hmem
  rcases List.mem_append.mp hmem with hretest | hlib
  · exact picked_libraryRetest hmode hretest
  · have hp := picked_library (d := d) hmode hlib
    exact ⟨unleased_before (grants_takeLibraryRetests _ _) hp.unleased, hp.listed, hp.retest⟩

/-! ## A claim -/

/-- Cleaning up leaves everything but the leases and the workers. -/
theorem sound_cleaned (h : Sound su d) : Sound su (d.cleaned su worker now parallel) :=
  ⟨h.serves, h.covered, fun _ _ hget htested => (get?_dropExpiredAndTested.mp hget).2.2 htested⟩

/-- What the discovery lanes pick after the cleanup nobody held before it in
their file. -/
theorem not_held_of_picked {name : String}
    (h : Picked su (d.cleaned su worker now parallel) env (d.cleaned su worker now parallel).leases
      name) : d.discoveryHeld now name = false := by
  cases hheld : d.discoveryHeld now name with
  | false => rfl
  | true =>
    unfold Desk.discoveryHeld at hheld
    obtain ⟨lease, hget, hexp⟩ := (Option.any_eq_true _ _).mp hheld
    have hkept : (d.cleaned su worker now parallel).leases.get? name = some lease :=
      get?_dropExpiredAndTested.mpr ⟨hget, by simpa using hexp, h.retest⟩
    rw [h.unleased] at hkept
    cases hkept

theorem offers_of_picks {name : String} (h : name ∈ Requalify.picks d.requalify n now) :
    name ∈ d.requalify.names.keys ∧ d.requalifyOffers now name = true ∧
      d.requalifyHeld now name = false := by
  obtain ⟨e, he⟩ := Requalify.get?_of_mem_picks h
  have hq := Requalify.queued_of_mem_picks h he
  refine ⟨Dict.mem_keys_of_get? he, ?_, ?_⟩
  · simp [Desk.requalifyOffers, he, hq]
  · unfold Desk.requalifyHeld
    rw [he, Option.any_some]
    by_cases hl : e.status = .leased
    · by_cases hexp : e.times.expired now = true
      · simp [hexp]
      · rw [Requalify.Entry.expire, if_neg (by simp [hexp])] at hq
        rw [hq] at hl
        cases hl
    · simp [hl]

theorem key_of_held {name : String} (h : d.requalifyHeld now name = true) :
    name ∈ d.requalify.names.keys := by
  unfold Desk.requalifyHeld at h
  obtain ⟨e, he, _⟩ := (Option.any_eq_true _ _).mp h
  exact Dict.mem_keys_of_get? he

/-- A picked name is free, when the lanes are apart. -/
theorem free_of_picked (hfarm : env.farmEnabled = true) (hapart : ClaimApart su d now env) {name : String}
    (h : Picked su (d.cleaned su worker now parallel) env (d.cleaned su worker now parallel).leases
      name) : d.discoveryHeld now name = false ∧ d.requalifyHeld now name = false := by
  have hdisc := not_held_of_picked h
  refine ⟨hdisc, ?_⟩
  cases hheld : d.requalifyHeld now name with
  | false => rfl
  | true =>
    have := (hapart hfarm name (key_of_held hheld)).2 hheld h.listed
    rw [hdisc] at this
    cases this

theorem claim_exclusive (h : Sound su d) (hapart : ClaimApart su d now env) :
    (d.claim su worker n parallel now env).1.Nodup ∧
    ∀ name ∈ (d.claim su worker n parallel now env).1,
      d.discoveryHeld now name = false ∧ d.requalifyHeld now name = false := by
  have hclean : Sound su (d.cleaned su worker now parallel) := sound_cleaned h
  rcases claim_cases su d worker n parallel now env with heq | ⟨_, heq⟩ | ⟨⟨hfarm, hmode⟩, heq⟩ |
    ⟨⟨hfarm, hmode⟩, heq⟩
  · rw [heq]
    exact ⟨List.nodup_nil, fun _ hname => (nomatch hname)⟩
  · rw [heq]
    exact ⟨List.nodup_nil, fun _ hname => (nomatch hname)⟩
  · rw [heq]
    refine ⟨claimLibrary_nodup hmode, ?_⟩
    intro name hname
    exact free_of_picked hfarm hapart (picked_of_claimLibrary hmode hname)
  · rw [heq]
    simp only [claimRandom_names]
    constructor
    -- the requalify names come first, and none of them is on a discovery lane
    · refine List.Nodup.append (Requalify.picks_nodup _ _ _) (discoveryPicks_nodup hclean hmode) ?_
      intro name hrequal hdisc
      obtain ⟨hkey, hoffers, _⟩ := offers_of_picks (d := d) hrequal
      have hlists := ((hapart hfarm name hkey).1 hmode hoffers).2
      have hp := picked_of_discoveryPicks hclean hmode hdisc
      have hlisted : d.discoveryLists su env name = true := hp.listed
      rw [hlists] at hlisted
      cases hlisted
    · intro name hname
      rcases List.mem_append.mp hname with hrequal | hdisc
      · obtain ⟨hkey, hoffers, hheld⟩ := offers_of_picks (d := d) hrequal
        exact ⟨((hapart hfarm name hkey).1 hmode hoffers).1, hheld⟩
      · exact free_of_picked hfarm hapart (picked_of_discoveryPicks hclean hmode hdisc)

theorem serves_takeLeftovers (h : Sound su d) (rest : ℕ) (leases : Dict String Lease) :
    Queue.Serves (d.takeLeftovers su rest worker now env leases).2.2 := by
  unfold Desk.takeLeftovers
  split
  next => exact h.serves
  next => exact Queue.serves_claim h.serves _ _

theorem tested_takeLeftovers (rest : ℕ) (leases : Dict String Lease) :
    (d.takeLeftovers su rest worker now env leases).2.2.files.tested = d.queue.files.tested := by
  unfold Desk.takeLeftovers
  split
  next => rfl
  next =>
    simp only [Queue.Store.claimView, Queue.Store.appendExtended, Queue.Store.queueView]
    split <;> rfl

/-- The leases a claim leaves of tested names are on pending retests. -/
theorem retests_grants {before after : Dict String Lease} {names : List String}
    (h : Grants worker now before after names)
    (hpicked : ∀ name ∈ names, d.disk.tested name = true → retestPending su d.disk name = true)
    (hbefore : ∀ name lease, before.get? name = some lease → d.disk.tested name = true →
      retestPending su d.disk name = true) :
    ∀ name lease, after.get? name = some lease → d.disk.tested name = true →
      retestPending su d.disk name = true := by
  intro name lease hget htested
  rcases h.lease_cases hget with ⟨hname, _⟩ | hold
  · exact hpicked name hname htested
  · exact hbefore name lease hold htested

theorem sound_claim (h : Sound su d) : Sound su (d.claim su worker n parallel now env).2 := by
  have hclean : Sound su (d.cleaned su worker now parallel) := sound_cleaned h
  rcases claim_cases su d worker n parallel now env with heq | ⟨_, heq⟩ | ⟨⟨_, hmode⟩, heq⟩ |
    ⟨⟨_, hmode⟩, heq⟩
  · rw [heq]
    exact h
  · rw [heq]
    exact ⟨hclean.serves, hclean.covered, hclean.retests⟩
  · rw [heq]
    refine ⟨hclean.serves, hclean.covered, ?_⟩
    simp only [leases_pruned]
    exact retests_grants (d := d.cleaned su worker now parallel) grants_claimLibrary
      (fun name hname => (picked_of_claimLibrary hmode hname).retest) hclean.retests
  · rw [heq]
    refine ⟨serves_takeLeftovers hclean _ _, ?_, ?_⟩
    · intro name htested
      have hfiles := @tested_takeLeftovers su (d.cleaned su worker now parallel) worker now env
      show name ∈ (Desk.takeLeftovers su _ _ worker now env _).2.2.files.tested
      rw [hfiles]
      exact hclean.covered name htested
    · simp only [leases_pruned]
      exact retests_grants (d := d.cleaned su worker now parallel) grants_claimRandom
        (fun name hname => (picked_of_discoveryPicks hclean hmode hname).retest) hclean.retests

/-! ## An ingest -/

/-- Appended rows keep the queue and the files it is built from in step. -/
structure QueueSound (d : Desk) : Prop where
  serves : Queue.Serves d.queue
  covered : ∀ name, d.disk.tested name = true → name ∈ d.queue.files.tested

theorem queueSound_appendRow (h : QueueSound d) {r : Discovery.LogRow} (hr : r.name ≠ "") :
    QueueSound (d.appendRow su r) := by
  unfold Desk.appendRow
  cases happ : d.disk.appendEvaluation r with
  | none => exact h
  | some disk =>
    refine ⟨Queue.serves_appendTested h.serves _, ?_⟩
    intro name htested
    show name ∈ (d.queue.appendTested su.rules [r.name]).files.tested
    rw [Queue.appendTested_eq]
    by_cases hname : name = r.name
    · rw [hname]
      exact List.mem_append_right _ (by simp [Queue.noted, hr])
    · exact List.mem_append_left _ (h.covered name ((elsewhere_append happ hname).tested htested))

theorem queueSound_rows : ∀ (rows : List Discovery.LogRow) {d : Desk}, QueueSound d →
    (∀ r ∈ rows, r.name ≠ "") → QueueSound (rows.foldl (Desk.appendRow su) d) := by
  intro rows
  induction rows with
  | nil => intro d h _; exact h
  | cons r rows ih =>
    intro d h hne
    rw [List.foldl_cons]
    exact ih (queueSound_appendRow h (hne r List.mem_cons_self))
      fun x hx => hne x (List.mem_cons_of_mem _ hx)

theorem queueSound_forceAdmit (h : QueueSound d) (p : Payload) : QueueSound (d.forceAdmit p) := by
  constructor
  · unfold Desk.forceAdmit
    simp only
    split
    next => exact h.serves
    next => exact Queue.serves_write h.serves (.tested d.queue.files.tested)
  · intro name htested
    rw [disk_forceAdmit, tested_forceAdmit] at htested
    have hin := h.covered name htested
    unfold Desk.forceAdmit
    simp only
    split
    next => exact hin
    next => exact hin

theorem queueSound_touchWorker (h : QueueSound d) (hb : Heartbeat) :
    QueueSound (d.touchWorker su worker now hb) := by
  unfold Desk.touchWorker
  simp only
  split
  next => exact ⟨h.serves, h.covered⟩
  next => exact ⟨h.serves, h.covered⟩

theorem queueSound_written (h : QueueSound d) (p : Payload) : QueueSound (d.written su p now) := by
  unfold Desk.written
  have hstart : QueueSound { d with requalify :=
      (triage d.disk p.existing now d.disk.tested d.requalify p.evals).requalify } :=
    ⟨h.serves, h.covered⟩
  apply queueSound_forceAdmit
  apply queueSound_rows _ hstart
  intro r hr
  exact (triage_rows _ _ _ r hr).1

theorem queueSound_ingest (h : QueueSound d) (p : Payload) : QueueSound (d.ingest su p now) := by
  have hwritten := @queueSound_written su d now h p
  have hcleared : ∀ added names, QueueSound (Desk.clear
      { d.written su p now with queue := (d.written su p now).queue.appendExtended added } names) := by
    intro added names
    refine ⟨Queue.serves_appendExtended hwritten.serves added, ?_⟩
    intro name htested
    have hin := hwritten.covered name htested
    unfold Desk.clear Queue.Store.appendExtended
    simp only
    split
    next => exact hin
    next => exact hin
  unfold Desk.ingest
  cases p.heartbeat with
  | none => exact hcleared _ _
  | some whb => exact queueSound_touchWorker (hcleared _ _) _

theorem sound_ingest (h : Sound su d) {p : Payload} (hkeep : IngestKeeps d p) :
    Sound su (d.ingest su p now) := by
  obtain ⟨hserves, hcovered⟩ := @queueSound_ingest su d now ⟨h.serves, h.covered⟩ p
  refine ⟨hserves, hcovered, ?_⟩
  intro name lease hget htested
  obtain ⟨hrenewed, hclear⟩ := lease_of_ingest hget
  obtain ⟨old, hold⟩ : ∃ old, d.leases.get? name = some old := by
    rcases hrenewed with hsame | ⟨old, _, hold, _⟩
    · exact ⟨lease, hsame⟩
    · exact ⟨old, hold⟩
  rw [disk_ingest] at htested ⊢
  exact retestPending_ingest (hkeep name (Dict.mem_keys_of_get? hold)) hclear
    (h.retests name old hold (tested_ingest hclear htested))

end

/-! ## Every run -/

theorem sound_step {su : Setup} {d : Desk} {i : ℕ × DeskOp} (h : Sound su d)
    (hapart : LanesApart su d i) : Sound su (d.step su i) := by
  -- an operation that keeps the files, and adds no lease
  have hkeep : ∀ {d' : Desk}, d'.disk = d.disk → d'.queue = d.queue →
      (∀ name lease, d'.leases.get? name = some lease →
        ∃ old, d.leases.get? name = some old) → Sound su d' := by
    intro d' hdisk hqueue hleases
    refine ⟨hqueue ▸ h.serves, ?_, ?_⟩
    · rw [hdisk, hqueue]
      exact h.covered
    · intro name lease hget
      obtain ⟨old, hold⟩ := hleases name lease hget
      rw [hdisk]
      exact h.retests name old hold
  -- a renewed lease was there before
  have hrenew : ∀ {now name lease}, Renewed su now (d.leases.get? name) name lease →
      ∃ old, d.leases.get? name = some old := by
    intro now name lease hr
    rcases hr with hsame | ⟨old, _, hold, _⟩
    · exact ⟨lease, hsame⟩
    · exact ⟨old, hold⟩
  obtain ⟨delay, op⟩ := i
  cases op with
  | claim worker n parallel env =>
    obtain ⟨hs, hc, hr⟩ := @sound_claim su d worker n parallel (d.clock + delay) env h
    exact ⟨hs, hc, hr⟩
  | heartbeat worker hb =>
    apply hkeep
    · exact disk_touchWorker worker hb
    · show (d.touchWorker su worker (d.clock + delay) hb).queue = d.queue
      unfold Desk.touchWorker
      simp only
      split <;> rfl
    · intro name lease hget
      exact hrenew (lease_of_touchWorker hget)
  | release worker names =>
    apply hkeep
    · rfl
    · rfl
    intro name lease hget
    rcases lease_of_step (i := (delay, .release worker names)) hget with ⟨_, _, _, _, hop, _⟩ | hr
    · cases hop
    · exact hrenew hr
  | clear names =>
    apply hkeep
    · rfl
    · rfl
    intro name lease hget
    exact ⟨lease, (get?_clear.mp hget).1⟩
  | ingest p =>
    obtain ⟨hs, hc, hr⟩ := @sound_ingest su d (d.clock + delay) h _ hapart
    exact ⟨hs, hc, hr⟩
  | enqueue batchId names => exact ⟨h.serves, h.covered, h.retests⟩
  | ensure batchId names => exact ⟨h.serves, h.covered, h.retests⟩
  | refill proposals =>
    refine ⟨Queue.serves_refill h.serves _ _, ?_, h.retests⟩
    -- a refill appends names to the queue and keeps the tested ones
    intro name htested
    have hin := h.covered name htested
    show name ∈ (Queue.Store.refillCommit su.rules d.queue _ _).files.tested
    simp only [Queue.Store.refillCommit, Queue.Store.appendExtended, Queue.Store.queueView]
    split
    next => exact hin
    next => exact hin
  | bookChanged names => exact ⟨Queue.serves_write h.serves (.book names), h.covered, h.retests⟩

theorem exclusive_step {su : Setup} {d : Desk} {i : ℕ × DeskOp} (h : Sound su d)
    (hapart : LanesApart su d i) : Exclusive su d i := by
  obtain ⟨delay, op⟩ := i
  have hclaim : ∀ worker n parallel env, op = .claim worker n parallel env →
      (d.claim su worker n parallel (d.clock + delay) env).1.Nodup ∧
      ∀ name ∈ (d.claim su worker n parallel (d.clock + delay) env).1,
        d.discoveryHeld (d.clock + delay) name = false ∧
          d.requalifyHeld (d.clock + delay) name = false := by
    intro worker n parallel env hop
    rw [LanesApart, hop] at hapart
    exact claim_exclusive h hapart
  constructor
  · intro worker n parallel env hop
    exact (hclaim worker n parallel env hop).1
  · intro worker n parallel env hop
    exact (hclaim worker n parallel env hop).2
  · exact (sound_step h hapart).retests

/-- A desk starts sound. -/
theorem sound_start (su : Setup) (clock : ℤ) (log : List Discovery.LogRow) (tested : List String)
    (bhQueue libraryQueue : Discovery.Queue) (extended book : List String) :
    Sound su (Desk.start clock log tested bhQueue libraryQueue extended book) := by
  refine ⟨Queue.serves_cold _, ?_, ?_⟩
  · intro name htested
    show name ∈ tested ++ log.map Discovery.LogRow.name
    rcases Bool.or_eq_true_iff.mp htested with hindex | hlog
    · simpa [Desk.start] using hindex
    · obtain ⟨r, hr, hname⟩ := List.any_eq_true.mp hlog
      rw [← (by simpa using hname : r.name = name)]
      exact List.mem_append_right _ (List.mem_map_of_mem hr)
  · intro name lease hget
    cases hget

/-- **Lease exclusion.** In every run whose claims find the lanes apart and whose
ingests keep the leased retests, a claim hands out only names that no worker
holds, each once, and a tested name is leased only while it is a pending
retest. -/
theorem lease_exclusion (su : Setup) (clock : ℤ) (log : List Discovery.LogRow) (tested : List String)
    (bhQueue libraryQueue : Discovery.Queue) (extended book : List String) (ops : List (ℕ × DeskOp))
    (hapart : Along (Desk.step su) (LanesApart su)
      (Desk.start clock log tested bhQueue libraryQueue extended book) ops) :
    Along (Desk.step su) (Exclusive su)
      (Desk.start clock log tested bhQueue libraryQueue extended book) ops :=
  along_of_inv (I := Sound su) (fun _ _ hs ha => ⟨exclusive_step hs ha, sound_step hs ha⟩) ops
    (sound_start su clock log tested bhQueue libraryQueue extended book) hapart

/-- One buy-and-hold retest and one name that was never tested. -/
def oneRetest : Setup where
  timeout := 600
  rules :=
    { canonicalName := id
      nearDuplicateKey := id
      blocks := fun _ => false
      staticUniverse := ["mom_12"] }
  catalog := []
  bhOrder := ["rsi_14"]
  libraryOrder := []

/-- The result of a name, as a row. -/
def resultRow (name testedAt : String) : Champions.EvalRow where
  strategy := name
  qualified := false
  testedAt := testedAt

/-- The retest's name is tested, and pending in the buy-and-hold queue. -/
def retestDesk : Desk :=
  Desk.start 0 [{ row := resultRow "rsi_14" "2026-10-01", lane := .first, revised := false }] []
    (fun name => if name = "rsi_14" then some .pending else none) (fun _ => none) [] []

/-- Two workers claim a name each, and the first one's result comes in. -/
def twoWorkers : List (ℕ × DeskOp) :=
  [ (0, .claim "a" 1 none {}),
    (1000000, .claim "b" 1 none {}),
    (60000000, .ingest { evals := [{ row := resultRow "rsi_14" "2026-10-27" }] }) ]

/-- The first worker gets the retest, the second the untested name. -/
theorem two_workers_exclusive :
    Along (Desk.step oneRetest) (Exclusive oneRetest) retestDesk twoWorkers ∧
      (twoWorkers.foldl (Desk.step oneRetest) retestDesk).leases.keys = ["mom_12"] := by
  refine ⟨lease_exclusion oneRetest _ _ _ _ _ _ _ twoWorkers ?_, by decide +kernel⟩
  refine ⟨fun _ _ hname => (nomatch hname), fun _ _ hname => (nomatch hname), ?_, trivial⟩
  intro name _
  refine ⟨fun hforced => (nomatch hforced), ?_⟩
  intro hpending
  have hcorrected := (correctionPending_iff.mp hpending).2
  obtain ⟨r, hr, _⟩ := hcorrected
  have hname := List.find?_some hr
  exact List.any_eq_true.mpr ⟨r, List.mem_of_find?_eq_some hr, hname⟩

/-- The retest is queued for re-qualification too, and two workers claim. -/
def bothLanes : List (ℕ × DeskOp) :=
  [ (0, .enqueue "recheck" ["rsi_14"]),
    (1000000, .claim "a" 1 none {}),
    (1000000, .claim "b" 1 none {}) ]

/-- The first worker gets the name from one lane and holds it for fifteen
minutes; the second one gets it a second later from the other. -/
theorem held_name_handed_out :
    ¬ Along (Desk.step oneRetest) (Exclusive oneRetest) retestDesk bothLanes := by
  intro h
  obtain ⟨_, _, hclaim, _⟩ := h
  have hfree := hclaim.free "b" 1 none {} rfl "rsi_14" (by decide +kernel)
  revert hfree
  decide +kernel

end PaperTrading.Leases
