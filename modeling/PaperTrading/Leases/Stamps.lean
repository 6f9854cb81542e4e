import PaperTrading.Leases.Requalify

/-!
# Start and queue stamps of a re-leased entry

An entry that expires, is released or is dropped goes back to the queue with its
`started_at` and `queued_seen_at`, and a new lease does not clear them. The
renewal rule then takes an old start for the new holder's: its next heartbeat
can set an expiry that is past already.

`fresh_attempt_iff` says when a re-lease is a fresh attempt: in a run, exactly
when every claim picks entries that carry no stamp from before it.
-/

namespace PaperTrading.Leases.Requalify

open PaperTrading.Lib

/-- No start or queue stamp is older than `since`. -/
def NoStampBefore (since : ℤ) (t : LeaseTimes) : Prop :=
  (∀ s ∈ t.startedAt, since ≤ s) ∧ ∀ q ∈ t.queuedSeenAt, since ≤ q

instance (since : ℤ) (t : LeaseTimes) : Decidable (NoStampBefore since t) :=
  inferInstanceAs (Decidable (_ ∧ _))

/-- The cap of the entry's holder, in seconds: from its start if it has started
since its claim, else from the claim. -/
def holderCap (timeout : ℤ) (t : LeaseTimes) : Option ℤ :=
  t.claimedAt.map fun c =>
    (match t.startedAt with
      | some s => if c ≤ s then s else c
      | none => c) + perNameLeaseSeconds timeout

/-- After the step every leased entry is a fresh attempt, and a heartbeat that
renewed one before its holder's cap put the expiry in the future. -/
structure FreshAttempt (timeout : ℤ) (l : Lane) (i : ℕ × Op) : Prop where
  stamps : ∀ name e, (l.step timeout i).state.names.get? name = some e → e.status = .leased →
    ∀ c ∈ e.times.claimedAt, NoStampBefore c e.times
  notPast : ∀ worker hb, i.2 = .heartbeat worker hb → hb.status ≠ "paused" →
    ∀ name e, l.state.names.get? name = some e → e.heldBy worker →
      e.times.heartbeatLeaseAction (l.clock + i.1) name hb = .renew →
      (∀ cap ∈ holderCap timeout e.times, l.clock + i.1 < cap * SECOND) →
      ∃ e' x, (l.step timeout i).state.names.get? name = some e' ∧ e'.times.expiresAt = some x ∧
        l.clock + i.1 < x * SECOND

/-- A claim picks only entries without a stamp from before its own second. -/
def PicksUnstamped (l : Lane) (i : ℕ × Op) : Prop :=
  match i.2 with
  | .claim _ n _ => ∀ name ∈ picks l.state n (l.clock + i.1), ∀ e ∈ l.state.names.get? name,
      NoStampBefore (iso (l.clock + i.1)) e.times
  | _ => True

/-! ## Where a leased entry comes from -/

@[simp] theorem expire_startedAt (e : Entry) (now : ℤ) :
    (e.expire now).times.startedAt = e.times.startedAt := by
  unfold Entry.expire
  split <;> rfl

@[simp] theorem expire_queuedSeenAt (e : Entry) (now : ℤ) :
    (e.expire now).times.queuedSeenAt = e.times.queuedSeenAt := by
  unfold Entry.expire
  split <;> rfl

theorem not_leased_backTo (e : Entry) : e.backTo ≠ .leased := by
  unfold Entry.backTo
  split <;> decide

/-- Expiry leaves a leased entry alone or takes the lease away. -/
theorem expire_of_leased {e : Entry} {now : ℤ} (h : (e.expire now).status = .leased) :
    e.expire now = e := by
  unfold Entry.expire at h ⊢
  split at h
  next => exact absurd h (not_leased_backTo e)
  next hno => rw [if_neg hno]

/-- A heartbeat leaves an entry leased only by renewing it or not touching it. -/
theorem refresh_of_leased {timeout : ℤ} {worker : String} {now : ℤ} {hb : Heartbeat} {name : String}
    {e : Entry} (h : (e.refresh timeout worker now hb name).status = .leased) :
    e.refresh timeout worker now hb name = e ∨
      e.heldBy worker = true ∧ e.refresh timeout worker now hb name =
        { e with times := e.times.bumpLeaseExpiry timeout now name hb } := by
  unfold Entry.refresh at h ⊢
  split at h
  next hheld =>
    rw [if_pos hheld]
    cases hact : e.times.heartbeatLeaseAction now name hb with
    | renew => exact Or.inr ⟨hheld, rfl⟩
    | keep => exact Or.inl rfl
    | drop => rw [hact] at h; cases h
  next hheld => rw [if_neg hheld]; exact Or.inl rfl

/-- An entry that is leased after an operation was picked by it, renewed by it,
or is as it was. -/
theorem leased_of_moves {timeout : ℤ} {s : State} {now : ℤ} {name : String} {prev : Option Entry}
    {e : Entry} (op : Op) (he : op.moves timeout s now name prev = some e)
    (hl : e.status = .leased) :
    (∃ worker n ttl e₀, op = .claim worker n ttl ∧ name ∈ picks s n now ∧ prev = some e₀ ∧
      e = (e₀.expire now).lease worker ttl now) ∨
    (∃ worker hb e₀, op = .heartbeat worker hb ∧ prev = some e₀ ∧ e₀.heldBy worker = true ∧
      e = { e₀ with times := e₀.times.bumpLeaseExpiry timeout now name hb }) ∨
    prev = some e := by
  cases op with
  | enqueue batchId names =>
    simp only [Op.moves] at he
    split at he
    -- a new entry is queued
    next => rw [← Option.some.inj he] at hl; cases hl
    next => exact Or.inr (Or.inr he)
  | ensure batchId names =>
    simp only [Op.moves] at he
    split at he
    next => rw [← Option.some.inj he] at hl; cases hl
    next => exact Or.inr (Or.inr he)
  | claim worker n ttl =>
    obtain ⟨e₀, h₀, rfl⟩ := Option.map_eq_some_iff.mp he
    split at hl
    next hpick => rw [if_pos hpick]; exact Or.inl ⟨worker, n, ttl, e₀, rfl, hpick, h₀, rfl⟩
    next hpick =>
      rw [if_neg hpick, expire_of_leased hl]
      exact Or.inr (Or.inr h₀)
  | heartbeat worker hb =>
    simp only [Op.moves] at he
    split at he
    next => exact Or.inr (Or.inr he)
    next =>
      obtain ⟨e₀, h₀, rfl⟩ := Option.map_eq_some_iff.mp he
      rcases refresh_of_leased hl with heq | ⟨hheld, heq⟩
      · rw [heq]
        exact Or.inr (Or.inr h₀)
      · exact Or.inr (Or.inl ⟨worker, hb, e₀, rfl, h₀, hheld, heq⟩)
  | release worker names =>
    obtain ⟨e₀, h₀, rfl⟩ := Option.map_eq_some_iff.mp he
    unfold Entry.release at hl ⊢
    split at hl
    next => exact absurd hl (not_leased_backTo e₀)
    -- a result for an entry that is not open changes nothing
    next hno => rw [if_neg hno]; exact Or.inr (Or.inr h₀)
  | result rec =>
    obtain ⟨e₀, h₀, rfl⟩ := Option.map_eq_some_iff.mp he
    unfold Entry.record at hl ⊢
    split at hl
    next hname =>
      rw [if_pos hname]
      split at hl
      next => cases hl
      next hno => rw [if_neg hno]; exact Or.inr (Or.inr h₀)
    next hname => rw [if_neg hname]; exact Or.inr (Or.inr h₀)

/-! ## The renewal of a fresh attempt -/

/-- A heartbeat adds no stamp older than its own second. -/
theorem noStampBefore_bump {timeout c now : ℤ} {t : LeaseTimes} {name : String} {hb : Heartbeat}
    (h : NoStampBefore c t) (hc : c ≤ iso now) :
    NoStampBefore c (t.bumpLeaseExpiry timeout now name hb) := by
  constructor
  · intro s hs
    rw [LeaseTimes.bump_startedAt] at hs
    rcases LeaseTimes.startedBy_cases hs with hold | ⟨_, rfl⟩
    · exact h.1 s hold
    · exact hc
  · intro q hq
    rw [LeaseTimes.bump_queuedSeenAt] at hq
    split at hq
    next =>
      rw [← Option.some.inj hq]
      exact hc
    next => exact h.2 q hq

/-- Before its holder's cap a fresh attempt is renewed into the future: the
grace is a whole number of seconds, and the hard end is not before the holder's
cap. -/
theorem bump_after_now {timeout now c : ℤ} {t : LeaseTimes} {name : String} {hb : Heartbeat}
    (hc : t.claimedAt = some c) (hfresh : NoStampBefore c t)
    (hcap : ∀ cap ∈ holderCap timeout t, now < cap * SECOND) :
    ∃ x, (t.bumpLeaseExpiry timeout now name hb).expiresAt = some x ∧ now < x * SECOND := by
  have hgrace : now < (iso now + FARM_HEARTBEAT_STALE_SECONDS) * SECOND := by
    have := lt_iso_add_one now
    unfold FARM_HEARTBEAT_STALE_SECONDS SECOND at *
    omega
  have hpos := perNameLeaseSeconds_pos timeout
  -- the cap is the holder's own, or one that starts now
  have hhard : ∀ hard ∈ t.hardCap timeout (t.startedBy now name hb), now < hard * SECOND := by
    intro hard hhard
    cases hs : t.startedBy now name hb with
    | none =>
      rw [hs] at hhard
      have hnone : t.startedAt = none := by
        unfold LeaseTimes.startedBy at hs
        split at hs
        next => cases hs
        next => exact hs
      apply hcap
      simpa [LeaseTimes.hardCap, LeaseTimes.unstartedHardCap, holderCap, hc, hnone] using hhard
    | some s =>
      rw [hs] at hhard
      have hval : hard = s + perNameLeaseSeconds timeout := by
        simpa [LeaseTimes.hardCap, eq_comm] using hhard
      rw [hval]
      rcases LeaseTimes.startedBy_cases hs with hold | ⟨_, rfl⟩
      · have hcs := hfresh.1 s hold
        apply hcap
        simp [holderCap, hc, hold, hcs]
      · have := lt_iso_add_one now
        have hle : (iso now + 1) * SECOND ≤ (iso now + perNameLeaseSeconds timeout) * SECOND :=
          mul_le_mul_of_nonneg_right (by omega) second_pos.le
        omega
  rw [LeaseTimes.bump_expiresAt]
  cases h : t.hardCap timeout (t.startedBy now name hb) with
  | none => exact ⟨_, rfl, hgrace⟩
  | some hard =>
    refine ⟨_, rfl, ?_⟩
    show now < min (iso now + FARM_HEARTBEAT_STALE_SECONDS) hard * SECOND
    rcases min_choice (iso now + FARM_HEARTBEAT_STALE_SECONDS) hard with hmin | hmin
    · rw [hmin]
      exact hgrace
    · rw [hmin]
      exact hhard hard h

/-! ## Runs -/

/-- What the lane keeps as long as claims pick unstamped entries: every leased
entry has a claim stamp that is not in the future, and none older. -/
def AllFresh (l : Lane) : Prop :=
  ∀ name e, l.state.names.get? name = some e → e.status = .leased →
    ∃ c, e.times.claimedAt = some c ∧ c ≤ iso l.clock ∧ NoStampBefore c e.times

theorem iso_clock_le (l : Lane) (i : ℕ × Op) : iso l.clock ≤ iso (l.clock + i.1) :=
  iso_mono (by omega)

theorem allFresh_step {timeout : ℤ} {l : Lane} {i : ℕ × Op} (h : AllFresh l)
    (hpick : PicksUnstamped l i) : AllFresh (l.step timeout i) := by
  intro name e he hl
  show ∃ c, e.times.claimedAt = some c ∧ c ≤ iso (l.clock + i.1) ∧ NoStampBefore c e.times
  rw [get?_step] at he
  have hclock := iso_clock_le l i
  rcases leased_of_moves i.2 he hl with ⟨worker, n, ttl, e₀, hop, hmem, h₀, rfl⟩ |
    ⟨worker, hb, e₀, hop, h₀, hheld, rfl⟩ | h₀
  · refine ⟨iso (l.clock + i.1), rfl, le_refl _, ?_⟩
    have hun : NoStampBefore (iso (l.clock + i.1)) e₀.times := by
      rw [PicksUnstamped, hop] at hpick
      exact hpick name hmem e₀ h₀
    simpa [NoStampBefore, Entry.lease] using hun
  · have hl₀ : e₀.status = .leased := hl
    obtain ⟨c, hc, hle, hfresh⟩ := h name e₀ h₀ hl₀
    exact ⟨c, hc, hle.trans hclock, noStampBefore_bump hfresh (hle.trans hclock)⟩
  · obtain ⟨c, hc, hle, hfresh⟩ := h name e h₀ hl
    exact ⟨c, hc, hle.trans hclock, hfresh⟩

/-- From fresh entries, a step keeps to the rule exactly when its claim picks
unstamped entries. -/
theorem freshAttempt_iff {timeout : ℤ} {l : Lane} {i : ℕ × Op} (h : AllFresh l) :
    FreshAttempt timeout l i ↔ PicksUnstamped l i := by
  constructor
  · intro hfresh
    unfold PicksUnstamped
    split
    next worker n ttl hop =>
      intro name hmem e he
      -- a picked entry keeps its stamps, under the claim of this second
      have hafter : (l.step timeout i).state.names.get? name =
          some ((e.expire (l.clock + i.1)).lease worker ttl (l.clock + i.1)) := by
        rw [get?_step, hop, Option.mem_def.mp he]
        simp [Op.moves, hmem]
      have := hfresh.stamps name _ hafter rfl (iso (l.clock + i.1)) rfl
      simpa [NoStampBefore, Entry.lease] using this
    next => trivial
  · intro hpick
    constructor
    · intro name e he hl c hc
      obtain ⟨c', hc', _, hst⟩ := allFresh_step h hpick name e he hl
      have hcc : c' = c := Option.some.inj (hc'.symm.trans hc)
      rw [← hcc]
      exact hst
    · intro worker hb hop hpaused name e he hheld hact hcap
      have hl : e.status = .leased := by
        simp only [Entry.heldBy, decide_eq_true_eq] at hheld
        exact hheld.1
      -- a heartbeat of the holder, before the holder's cap
      obtain ⟨c, hc, _, hst⟩ := h name e he hl
      obtain ⟨x, hx, hlt⟩ := @bump_after_now _ _ _ _ name hb hc hst hcap
      refine ⟨{ e with times := e.times.bumpLeaseExpiry timeout (l.clock + i.1) name hb }, x, ?_, hx,
        hlt⟩
      rw [get?_step, hop, he]
      simp [Op.moves, hpaused, Entry.refresh, hheld, hact]

/-- One name: claimed and reported started, released, claimed again twenty-five
minutes later, and reported a minute after that. -/
def restartedRun : List (ℕ × Op) :=
  [ (0, .enqueue "gate23" ["rsi_14"]),
    (1000000, .claim "a" 1 900),
    (1000000, .heartbeat "a" { status := "running", evaluating := some ["rsi_14"] }),
    (1000000, .release "a" none),
    (1500000000, .claim "b" 1 900),
    (60000000, .heartbeat "b" { status := "running", evaluating := some ["rsi_14"] }) ]

end PaperTrading.Leases.Requalify
