import PaperTrading.Leases.Requalify

/-!
# Attempts of a re-qualification entry

Whatever happens to the lane, in whatever order (`attempts_accounted`): a queued
entry has attempts left, a leased one has used at least one and at most all of
them; a name that was ever enqueued stays, in exactly one status; and it is done
only by a result that was recorded for it.

The counter is raised by a lease, which only picks queued entries, and lowered
by a heartbeat that drops one, which only happens to leased entries; an entry
that goes back with all its attempts used is not queued again.
-/

namespace PaperTrading.Leases.Requalify

open PaperTrading.Lib

/-- The bounds an entry's counter keeps; and a finished entry has a verdict. -/
structure Accounted (e : Entry) : Prop where
  queued : e.status = .queued → e.attempts < MAX_ATTEMPTS
  leased : e.status = .leased → 1 ≤ e.attempts ∧ e.attempts ≤ MAX_ATTEMPTS
  done : e.status = .done → ∃ verdict, e.result = some verdict

/-! ## What one operation does to the counter -/

theorem accounted_fresh (batchId : String) (now : ℤ) (prev : Option Entry) :
    Accounted (fresh batchId now prev) := by
  constructor
  · intro _
    show 0 < MAX_ATTEMPTS
    decide
  · intro h
    cases h
  · intro h
    cases h

/-- Going back to the queue is only for an entry with attempts left. -/
theorem accounted_unlease_backTo (e : Entry) : Accounted (e.unlease e.backTo) := by
  unfold Entry.unlease Entry.backTo
  split
  next => exact ⟨fun h => (nomatch h), fun h => (nomatch h), fun h => (nomatch h)⟩
  next hleft =>
    exact ⟨fun _ => Nat.lt_of_not_le hleft, fun h => (nomatch h), fun h => (nomatch h)⟩

theorem Accounted.expire {e : Entry} (h : Accounted e) (now : ℤ) : Accounted (e.expire now) := by
  unfold Entry.expire
  split
  next => exact accounted_unlease_backTo e
  next => exact h

/-- A queued entry has an attempt left for the lease to take. -/
theorem Accounted.lease {e : Entry} (h : Accounted e) (hq : e.status = .queued) (worker : String)
    (ttl : ℕ) (now : ℤ) : Accounted (e.lease worker ttl now) := by
  have hlt := h.queued hq
  constructor
  · intro hs
    cases hs
  · intro _
    show 1 ≤ e.attempts + 1 ∧ e.attempts + 1 ≤ MAX_ATTEMPTS
    omega
  · intro hs
    cases hs

theorem Accounted.refresh {e : Entry} (h : Accounted e) (timeout : ℤ) (worker : String) (now : ℤ)
    (hb : Heartbeat) (name : String) : Accounted (e.refresh timeout worker now hb name) := by
  unfold Entry.refresh
  split
  next hheld =>
    -- only a leased entry reaches the drop, so the attempt given back was taken
    have hl : e.status = .leased := by
      have := hheld
      simp only [Entry.heldBy, decide_eq_true_eq] at this
      exact this.1
    obtain ⟨hone, hmax⟩ := h.leased hl
    cases e.times.heartbeatLeaseAction now name hb with
    | renew => exact ⟨h.queued, h.leased, h.done⟩
    | keep => exact h
    | drop =>
      constructor
      · intro _
        show e.attempts - 1 < MAX_ATTEMPTS
        omega
      · intro hs
        cases hs
      · intro hs
        cases hs
  next => exact h

theorem Accounted.release {e : Entry} (h : Accounted e) (worker : String)
    (names : Option (List String)) (name : String) : Accounted (e.release worker names name) := by
  unfold Entry.release
  split
  next => exact accounted_unlease_backTo e
  next => exact h

theorem Accounted.record {e : Entry} (h : Accounted e) (rec : Evaluation) (now : ℤ) :
    Accounted (e.record rec now) := by
  unfold Entry.record
  split
  next =>
    constructor
    · intro hs
      cases hs
    · intro hs
      cases hs
    · intro _
      exact ⟨Verdict.of rec, rfl⟩
  next => exact h

/-- Every operation keeps the bounds of every entry. -/
theorem accounted_moves {timeout : ℤ} {s : State} {now : ℤ} {name : String} {e : Entry} (op : Op)
    (h : ∀ e, s.names.get? name = some e → Accounted e)
    (he : op.moves timeout s now name (s.names.get? name) = some e) : Accounted e := by
  cases op with
  | enqueue batchId names =>
    simp only [Op.moves] at he
    -- a name that is new to the batch gets a fresh entry
    split at he
    next => rw [← Option.some.inj he]; exact accounted_fresh _ _ _
    next => exact h e he
  | ensure batchId names =>
    simp only [Op.moves] at he
    split at he
    next => rw [← Option.some.inj he]; exact accounted_fresh _ _ _
    next => exact h e he
  | claim worker n ttl =>
    -- expiry first, then the lease of those picked
    obtain ⟨e₀, h₀, rfl⟩ := Option.map_eq_some_iff.mp he
    split
    next hpick =>
      exact ((h e₀ h₀).expire now).lease (queued_of_mem_picks hpick h₀) worker ttl now
    next => exact (h e₀ h₀).expire now
  | heartbeat worker hb =>
    simp only [Op.moves] at he
    split at he
    next => exact h e he
    next =>
      obtain ⟨e₀, h₀, rfl⟩ := Option.map_eq_some_iff.mp he
      exact (h e₀ h₀).refresh timeout worker now hb name
  | release worker names =>
    obtain ⟨e₀, h₀, rfl⟩ := Option.map_eq_some_iff.mp he
    exact (h e₀ h₀).release worker names name
  | result rec =>
    obtain ⟨e₀, h₀, rfl⟩ := Option.map_eq_some_iff.mp he
    split
    next => exact (h e₀ h₀).record rec now
    next => exact h e₀ h₀

/-! ## No entry is lost -/

/-- The names an operation asks the lane to queue. -/
def Op.asks (s : State) : Op → List String
  | .enqueue _ names => wanted names
  | .ensure batchId names => if batchId ∈ s.seeded then [] else wanted names
  | _ => []

/-- An operation takes no name away. -/
theorem moves_isSome {timeout : ℤ} {s : State} {now : ℤ} {name : String} {prev : Option Entry}
    (op : Op) (h : prev.isSome) : (op.moves timeout s now name prev).isSome := by
  cases op with
  | enqueue batchId names => simp only [Op.moves]; split <;> simp [h]
  | ensure batchId names => simp only [Op.moves]; split <;> simp [h]
  | claim worker n ttl => simpa [Op.moves] using h
  | heartbeat worker hb => simp only [Op.moves]; split <;> simp [h]
  | release worker names => simpa [Op.moves] using h
  | result rec => simpa [Op.moves] using h

/-- A name a batch asks for has an entry: a fresh one, or the one of this
batch. -/
theorem requeues_or_isSome {batchId : String} {names : List String} {name : String}
    {prev : Option Entry} (h : name ∈ wanted names) :
    requeues batchId names name prev = true ∨ prev.isSome := by
  cases prev with
  | none => exact Or.inl (by simp [requeues, sameBatch, h])
  | some e => exact Or.inr rfl

theorem isSome_of_asks {timeout : ℤ} {s : State} {now : ℤ} {name : String} {prev : Option Entry}
    {op : Op} (h : name ∈ op.asks s) : (op.moves timeout s now name prev).isSome := by
  cases op with
  | enqueue batchId names =>
    simp only [Op.moves]
    split
    next => rfl
    next hno => exact (requeues_or_isSome h).resolve_left hno
  | ensure batchId names =>
    simp only [Op.asks] at h
    split at h
    next => cases h
    next hseed =>
      simp only [Op.moves, hseed, not_false_eq_true, true_and]
      split
      next => rfl
      next hno => exact (requeues_or_isSome h).resolve_left hno
  | claim worker n ttl => cases h
  | heartbeat worker hb => cases h
  | release worker names => cases h
  | result rec => cases h

/-- The names of one status. -/
def State.inStatus (s : State) (status : Status) : List String :=
  (s.names.entries.filter fun e => e.2.status = status).map Prod.fst

theorem mem_inStatus {s : State} {status : Status} {name : String} :
    name ∈ s.inStatus status ↔ ∃ e, s.names.get? name = some e ∧ e.status = status := by
  unfold State.inStatus
  constructor
  · intro h
    obtain ⟨p, hp, rfl⟩ := List.mem_map.mp h
    obtain ⟨hin, hst⟩ := List.mem_filter.mp hp
    exact ⟨p.2, Dict.get?_eq_some.mpr hin, by simpa using hst⟩
  · intro h
    obtain ⟨e, he, hst⟩ := h
    exact List.mem_map.mpr ⟨(name, e), List.mem_filter.mpr ⟨Dict.get?_eq_some.mp he, by simpa using hst⟩,
      rfl⟩

theorem one_status {s : State} {name : String} (h : (s.names.get? name).isSome) :
    ∃! status, name ∈ s.inStatus status := by
  obtain ⟨e, he⟩ := Option.isSome_iff_exists.mp h
  refine ⟨e.status, mem_inStatus.mpr ⟨e, he, rfl⟩, ?_⟩
  intro status hst
  obtain ⟨e', he', rfl⟩ := mem_inStatus.mp hst
  rw [he] at he'
  rw [Option.some.inj he']

/-! ## Done only by a result -/

/-- The operation is a result for `name`, which the lane takes, with this
verdict. -/
def Op.records (s : State) (name : String) (verdict : Verdict) (op : Op) : Prop :=
  ∃ rec, op = .result rec ∧ rec.strategy = name ∧ Requalify.records s rec = true ∧
    verdict = Verdict.of rec

/-- The entry is done with this verdict. -/
def Finished (verdict : Verdict) (prev : Option Entry) : Prop :=
  ∃ e, prev = some e ∧ e.status = .done ∧ e.result = some verdict

/-- Only a result that the lane takes makes an entry done, with its verdict. -/
theorem done_of_moves {timeout : ℤ} {s : State} {now : ℤ} {name : String} {verdict : Verdict}
    (op : Op) (h : Finished verdict (op.moves timeout s now name (s.names.get? name))) :
    Finished verdict (s.names.get? name) ∨ op.records s name verdict := by
  obtain ⟨e, he, hdone, hres⟩ := h
  -- an entry that did not change was finished before
  have hcarry : ∀ {e₀ : Entry}, s.names.get? name = some e₀ → e = e₀ →
      Finished verdict (s.names.get? name) := by
    intro e₀ h₀ heq
    exact ⟨e₀, h₀, heq ▸ hdone, heq ▸ hres⟩
  cases op with
  | enqueue batchId names =>
    simp only [Op.moves] at he
    split at he
    next => rw [← Option.some.inj he] at hdone; cases hdone
    next => exact Or.inl ⟨e, he, hdone, hres⟩
  | ensure batchId names =>
    simp only [Op.moves] at he
    split at he
    next => rw [← Option.some.inj he] at hdone; cases hdone
    next => exact Or.inl ⟨e, he, hdone, hres⟩
  | claim worker n ttl =>
    obtain ⟨e₀, h₀, rfl⟩ := Option.map_eq_some_iff.mp he
    -- a claimed entry is leased, and expiry does not touch a done one
    have hexp : (e₀.expire now).status = .done → e₀.expire now = e₀ := by
      unfold Entry.expire
      split
      next =>
        intro hst
        simp only [Entry.unlease, Entry.backTo] at hst
        split at hst <;> cases hst
      next => intro _; rfl
    split at hdone
    next => cases hdone
    next hpick => exact Or.inl (hcarry h₀ (by rw [if_neg hpick]; exact hexp hdone))
  | heartbeat worker hb =>
    simp only [Op.moves] at he
    split at he
    next => exact Or.inl ⟨e, he, hdone, hres⟩
    next =>
      obtain ⟨e₀, h₀, rfl⟩ := Option.map_eq_some_iff.mp he
      unfold Entry.refresh at hdone hcarry
      split at hdone
      next hheld =>
        simp only [Entry.heldBy, decide_eq_true_eq] at hheld
        -- a held entry stays leased, or is dropped to the queue
        cases hact : e₀.times.heartbeatLeaseAction now name hb with
        | renew => rw [hact] at hdone; simp only [hheld.1] at hdone; cases hdone
        | keep => rw [hact] at hdone; simp only [hheld.1] at hdone; cases hdone
        | drop => rw [hact] at hdone; cases hdone
      next hheld => exact Or.inl (hcarry h₀ (by rw [if_neg hheld]))
  | release worker names =>
    obtain ⟨e₀, h₀, rfl⟩ := Option.map_eq_some_iff.mp he
    unfold Entry.release at hdone hcarry
    split at hdone
    next =>
      simp only [Entry.unlease, Entry.backTo] at hdone
      split at hdone <;> cases hdone
    next hheld => exact Or.inl (hcarry h₀ (by rw [if_neg hheld]))
  | result rec =>
    obtain ⟨e₀, h₀, rfl⟩ := Option.map_eq_some_iff.mp he
    unfold Entry.record at hres hcarry
    split at hres
    next hname =>
      split at hres
      next hopen =>
        right
        refine ⟨rec, rfl, hname.symm, ?_, (Option.some.inj hres).symm⟩
        unfold Requalify.records
        rw [← hname, h₀]
        simpa using hopen
      next hopen => exact Or.inl (hcarry h₀ (by rw [if_pos hname, if_neg hopen]))
    next hname => exact Or.inl (hcarry h₀ (by rw [if_neg hname]))

/-! ## Every run -/

theorem accounted_run {timeout : ℤ} (ops : List (ℕ × Op)) {l : Lane}
    (h : ∀ name e, l.state.names.get? name = some e → Accounted e) :
    ∀ name e, (ops.foldl (Lane.step timeout) l).state.names.get? name = some e → Accounted e := by
  apply run_inv (I := fun l : Lane => ∀ name e, l.state.names.get? name = some e → Accounted e)
    (C := fun _ _ => True) _ ops h (along_of_forall (fun _ _ => trivial) ops)
  intro l i hl _ name e he
  rw [get?_step] at he
  exact accounted_moves i.2 (hl name) he

/-- A name stays from the step that asked for it. -/
theorem kept_run {timeout : ℤ} {l : Lane} {pre : List (ℕ × Op)} {i : ℕ × Op} {name : String}
    (post : List (ℕ × Op)) (h : name ∈ i.2.asks (pre.foldl (Lane.step timeout) l).state) :
    (((pre ++ i :: post).foldl (Lane.step timeout) l).state.names.get? name).isSome := by
  apply run_since (Q := fun l : Lane => (l.state.names.get? name).isSome)
    (R := fun l i => name ∈ i.2.asks l.state) _ _ post h
  · intro l i h
    rw [get?_step]
    exact isSome_of_asks h
  · intro l i h
    rw [get?_step]
    exact moves_isSome i.2 h

/-- A verdict came with the step that recorded it. -/
theorem done_run {timeout : ℤ} (ops : List (ℕ × Op)) {l : Lane} {name : String} {verdict : Verdict}
    (h : Finished verdict ((ops.foldl (Lane.step timeout) l).state.names.get? name)) :
    Finished verdict (l.state.names.get? name) ∨
      ∃ pre i post, ops = pre ++ i :: post ∧
        i.2.records (pre.foldl (Lane.step timeout) l).state name verdict := by
  apply run_origin (Q := fun l : Lane => Finished verdict (l.state.names.get? name))
    (R := fun l i => i.2.records l.state name verdict) _ ops h
  intro l i h
  rw [get?_step] at h
  exact done_of_moves i.2 h

/-- **Attempt accounting.** After any operations in any order, from the empty
file: every entry's counter is in its bounds, every name that was enqueued is in
exactly one status, and an entry is done only by a result that the lane took for
it. -/
theorem attempts_accounted (timeout clock : ℤ) (ops : List (ℕ × Op)) :
    let start : Lane := { clock := clock }
    let step := Lane.step timeout
    let last := (ops.foldl step start).state
    (∀ name e, last.names.get? name = some e → Accounted e) ∧
    (∀ pre i post, ops = pre ++ i :: post → ∀ name ∈ i.2.asks (pre.foldl step start).state,
      ∃! status, name ∈ last.inStatus status) ∧
    (∀ name e, last.names.get? name = some e → e.status = .done →
      ∃ verdict pre i post, e.result = some verdict ∧ ops = pre ++ i :: post ∧
        i.2.records (pre.foldl step start).state name verdict) := by
  intro start step last
  have hempty : ∀ name, start.state.names.get? name = none := fun name => Dict.get?_empty name
  have hacc : ∀ name e, last.names.get? name = some e → Accounted e := by
    apply accounted_run ops
    intro name e he
    rw [hempty] at he
    cases he
  refine ⟨hacc, ?_, ?_⟩
  · intro pre i post hops name hname
    apply one_status
    show ((ops.foldl step start).state.names.get? name).isSome
    rw [hops]
    exact kept_run post hname
  · intro name e he hdone
    obtain ⟨verdict, hres⟩ := (hacc name e he).done hdone
    -- no entry is done at the start, so a step of the run recorded the verdict
    rcases done_run ops ⟨e, he, hdone, hres⟩ with hstart | ⟨pre, i, post, hops, hrec⟩
    · obtain ⟨e, he, _⟩ := hstart
      rw [hempty] at he
      cases he
    · exact ⟨verdict, pre, i, post, hres, hops, hrec⟩

end PaperTrading.Leases.Requalify
