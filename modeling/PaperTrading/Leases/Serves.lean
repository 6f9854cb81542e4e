import PaperTrading.Leases.QueueCache

/-!
# What the queue serves

Whatever spelling was tested and whatever is cached, the queue serves each name
once and no name that is tested under that spelling (`Serves`). The cache may
keep an alias of a tested name (`alias_stays_claimable`); it never keeps the name.
-/

namespace PaperTrading.Leases.Queue

open PaperTrading.Lib

variable {r : QueueRules}

/-- A cache lists no name twice; while its stamps are the files', it lists no
tested name and blocks them all. -/
structure Serves (s : Store) : Prop where
  notNewer : ∀ c ∈ s.cache, NotNewer c.fp s.files
  nodup : ∀ c ∈ s.cache, c.base.Nodup
  untested : ∀ c ∈ s.cache, c.fp = s.files.fingerprint → ∀ name ∈ c.base, name ∉ s.files.tested
  blocked : ∀ c ∈ s.cache, c.fp = s.files.fingerprint → ∀ name ∈ s.files.tested, name ∈ c.blocked

theorem serves_cold (f : Files) : Serves { files := f } :=
  ⟨fun _ h => (nomatch h), fun _ h => (nomatch h), fun _ h => (nomatch h), fun _ h => (nomatch h)⟩

/-- A cache whose stamp differs from the files' has nothing to answer for. -/
theorem Serves.of_stale {s : Store} (hnew : ∀ c ∈ s.cache, NotNewer c.fp s.files)
    (hnodup : ∀ c ∈ s.cache, c.base.Nodup) (hne : ∀ c ∈ s.cache, c.fp ≠ s.files.fingerprint) :
    Serves s :=
  ⟨hnew, hnodup, fun c hc hfp => absurd hfp (hne c hc), fun c hc hfp => absurd hfp (hne c hc)⟩

/-! ## A rebuild and a look -/

theorem discoveryUniverse_nodup (r : QueueRules) (extended : List String) :
    (discoveryUniverse r extended).Nodup := by
  unfold discoveryUniverse
  exact (List.perm_insertionSort _ _).nodup_iff.mpr (List.nodup_dedup _)

theorem rebuiltBase_sublist (r : QueueRules) (f : Files) :
    (rebuiltBase r f).Sublist (untestedCandidates r (blockedNames f) (discoveryUniverse r f.extended)) := by
  rw [rebuiltBase_eq]
  exact greedy_sublist _ _

theorem rebuiltBase_nodup (r : QueueRules) (f : Files) : (rebuiltBase r f).Nodup :=
  ((rebuiltBase_sublist r f).trans (greedy_sublist _ _)).nodup (discoveryUniverse_nodup r f.extended)

theorem rebuiltBase_untested {f : Files} {name : String} (h : name ∈ rebuiltBase r f) :
    name ∉ f.tested := by
  have hnot := not_mem_blocked ((rebuiltBase_sublist r f).mem h)
  unfold blockedNames at hnot
  intro htested
  exact hnot (List.mem_append_right _ htested)

/-- What is served is a repeat-free list of untested names, and what is blocked
with it covers the tested ones. -/
structure ServedBy (f : Files) (c : Cache) : Prop where
  nodup : c.base.Nodup
  untested : ∀ name ∈ c.base, name ∉ f.tested
  blocked : ∀ name ∈ f.tested, name ∈ c.blocked

theorem servedBy_rebuild (r : QueueRules) (f : Files) : ServedBy f (rebuild r f) where
  nodup := rebuiltBase_nodup r f
  untested _ h := rebuiltBase_untested h
  blocked _ h := List.mem_append_right _ h

theorem Serves.servedBy_hit {s : Store} (h : Serves s) {c : Cache} (hc : c ∈ s.hit) :
    ServedBy s.files c := by
  obtain ⟨hin, hfp⟩ := Option.filter_eq_some_iff.mp hc
  have hfp' : c.fp = s.files.fingerprint := by simpa using hfp
  exact ⟨h.nodup c hin, h.untested c hin hfp', h.blocked c hin hfp'⟩

theorem Serves.servedBy_view {s : Store} (h : Serves s) : ServedBy s.files (s.view r) := by
  unfold Store.view
  cases hhit : s.hit with
  | none => exact servedBy_rebuild r s.files
  | some c => exact h.servedBy_hit hhit

/-- A store whose cache answers for its files. -/
theorem serves_of_servedBy {f : Files} {c : Cache} (hnew : NotNewer c.fp f) (h : ServedBy f c) :
    Serves { files := f, cache := some c } := by
  constructor
  · intro c' hc'
    rw [← Option.some.inj hc']
    exact hnew
  · intro c' hc'
    rw [← Option.some.inj hc']
    exact h.nodup
  · intro c' hc' _
    rw [← Option.some.inj hc']
    exact h.untested
  · intro c' hc' _
    rw [← Option.some.inj hc']
    exact h.blocked

theorem serves_view {s : Store} (h : Serves s) : Serves (s.queueView r) := by
  apply serves_of_servedBy
  · rw [view_fp]
    exact notNewer_self s.files
  · exact h.servedBy_view

/-! ## Minted names -/

/-- A mint keeps some of the names, free ones. -/
theorem mem_appendMinted {active : List String} {name : String} : ∀ {added : List String} {c : Cache},
    name ∈ (appendMinted r active c added).2 → name ∈ added ∧ name ∉ active ∧ name ∉ c.blocked := by
  intro added
  induction added with
  | nil => intro c h; cases h
  | cons head added ih =>
    intro c h
    unfold appendMinted at h
    split at h
    next =>
      obtain ⟨hin, hfree⟩ := ih h
      exact ⟨List.mem_cons_of_mem _ hin, hfree⟩
    next hfree =>
      simp only [not_or] at hfree
      rcases List.mem_cons.mp h with hhead | h
      · rw [hhead]
        exact ⟨List.mem_cons_self, hfree.1, hfree.2.1⟩
      · obtain ⟨hin, hrest⟩ := ih h
        exact ⟨List.mem_cons_of_mem _ hin, hrest⟩

theorem appendMinted_sublist {active : List String} : ∀ (added : List String) (c : Cache),
    (appendMinted r active c added).2.Sublist added := by
  intro added
  induction added with
  | nil => intro c; exact List.Sublist.refl _
  | cons head added ih =>
    intro c
    unfold appendMinted
    split
    next => exact (ih c).cons head
    next => exact (ih _).cons_cons head

theorem appendMinted_nodup {active : List String} : ∀ (added : List String) {c : Cache},
    c.base.Nodup → (appendMinted r active c added).1.base.Nodup := by
  intro added
  induction added with
  | nil => intro c h; exact h
  | cons head added ih =>
    intro c h
    unfold appendMinted
    split
    next => exact ih h
    next =>
      apply ih
      show (if head ∈ c.base then c.base else c.base ++ [head]).Nodup
      split
      next => exact h
      next hnew => exact List.Nodup.append h (List.nodup_singleton head) (by simpa using hnew)

/-- After names went to the sidecar the cache is stale. -/
theorem serves_extended {s : Store} {added : List String} {c : Cache}
    (hfp : c.fp = s.files.fingerprint) (hnodup : c.base.Nodup) (hne : added ≠ []) :
    Serves { s.appendExtended added with cache := some c } := by
  apply Serves.of_stale
  · intro c' hc'
    rw [← Option.some.inj hc']
    exact (notNewer_extended hfp hne).1
  · intro c' hc'
    rw [← Option.some.inj hc']
    exact hnodup
  · intro c' hc'
    rw [← Option.some.inj hc']
    exact (notNewer_extended hfp hne).2

theorem serves_claim {s : Store} (h : Serves s) (active added : List String) :
    Serves (s.claimView r active added) := by
  unfold Store.claimView
  by_cases hadded : added = []
  · rw [hadded]
    exact serves_view h
  · exact serves_extended (s := s.queueView r) (appendMinted_fp.trans (view_fp s))
      (appendMinted_nodup _ h.servedBy_view.nodup) hadded

theorem serves_refill {s : Store} (h : Serves s) (active added : List String) :
    Serves (s.refillCommit r active added) := by
  unfold Store.refillCommit
  by_cases hkept : (appendMinted r active (s.view r) added).2 = []
  · have hsame := appendMinted_none hkept
    simp only [hkept, hsame]
    exact serves_view h
  · exact serves_extended (s := s.queueView r) (appendMinted_fp.trans (view_fp s))
      (appendMinted_nodup _ h.servedBy_view.nodup) hkept

/-! ## Tested names and other writes -/

theorem serves_appendTested {s : Store} (h : Serves s) (names : List String) :
    Serves (s.appendTested r names) := by
  rw [appendTested_eq]
  cases hhit : s.hit with
  | none => exact serves_cold _
  | some c =>
    have hserved := h.servedBy_hit hhit
    apply serves_of_servedBy (notNewer_self _)
    constructor
    · exact hserved.nodup.filter _
    · intro name hname htested
      obtain ⟨hbase, hnot⟩ := List.mem_filter.mp hname
      rcases List.mem_append.mp htested with hold | hnew
      · exact hserved.untested name hbase hold
      · exact absurd hnew (by simpa using hnot)
    · intro name htested
      rcases List.mem_append.mp htested with hold | hnew
      · exact List.mem_append_left _ (hserved.blocked name hold)
      · exact List.mem_append_right _ hnew

theorem serves_write {s : Store} (h : Serves s) (w : FileWrite) :
    Serves { s with files := s.files.write w } :=
  Serves.of_stale (fun c hc => ((h.notNewer c hc).write w).1) h.nodup
    (fun c hc => ((h.notNewer c hc).write w).2)

theorem serves_appendExtended {s : Store} (h : Serves s) (added : List String) :
    Serves (s.appendExtended added) := by
  unfold Store.appendExtended
  split
  next => exact h
  next => exact serves_write h (.extended _)

/-! ## What a claim finds -/

/-- A claim is offered untested names without a lease, each once, if what was
minted for it is new to the queue. -/
theorem mem_claimableWith {s : Store} (h : Serves s) {active added : List String} {name : String}
    (hmem : name ∈ s.claimableWith r active added) :
    (name ∈ (s.view r).base ∨ name ∈ added) ∧ name ∉ active ∧ name ∉ s.files.tested := by
  unfold Store.claimableWith at hmem
  have hserved : ServedBy s.files (s.view r) := h.servedBy_view
  rcases List.mem_append.mp hmem with hbase | hmint
  · obtain ⟨hin, hnot⟩ := List.mem_filter.mp hbase
    exact ⟨Or.inl hin, by simpa using hnot, hserved.untested name hin⟩
  · obtain ⟨hin, hactive, hblocked⟩ := mem_appendMinted hmint
    exact ⟨Or.inr hin, hactive, fun htested => hblocked (hserved.blocked name htested)⟩

theorem claimableWith_nodup {s : Store} (h : Serves s) {active added : List String}
    (hadded : added.Nodup) (hnew : ∀ name ∈ added, name ∉ s.claimable r active) :
    (s.claimableWith r active added).Nodup := by
  unfold Store.claimableWith
  refine List.Nodup.append ?_ ((appendMinted_sublist added _).nodup hadded) ?_
  · have hserved : ServedBy s.files (s.view r) := h.servedBy_view
    exact hserved.nodup.filter _
  · intro name hbase hmint
    exact hnew name (mem_appendMinted hmint).1 hbase

end PaperTrading.Leases.Queue
