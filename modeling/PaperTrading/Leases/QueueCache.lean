import PaperTrading.Leases.Queue

/-!
# The cached queue and a rebuild

The names served from the cache are those a rebuild from the files would give,
at every step of a run, exactly when no append notes a name that shares a
near-duplicate key or a canonical form with another name of the cached queue
(`claimable_agrees_iff`).

Behind it are two facts. Only the patch of `note_queue_tested` can keep a cache
valid across a write: every write moves a stamp, and no stamp comes back
(`Faithful`). And testing some names changes the rebuilt queue by more than
their removal exactly when another name of it has a key of theirs
(`rebuiltBase_tested_iff`).
-/

namespace PaperTrading.Leases.Queue

open PaperTrading.Lib

variable {r : QueueRules}

/-! ## What testing names does to a rebuild -/

/-- A candidate is not blocked. -/
theorem not_mem_blocked {blocked names : List String} {name : String}
    (h : name ∈ untestedCandidates r blocked names) : name ∉ blocked := by
  have hskip := (mem_greedy h).1
  simp only [Bool.or_eq_false_iff, decide_eq_false_iff_not] at hskip
  exact hskip.1

/-- The candidates are untested, so the priority pass drops none of them. -/
theorem prioritize_untested (f : Files) (names : List String) :
    prioritizeLeftovers (untestedCandidates r (blockedNames f) names) f.tested =
      untestedCandidates r (blockedNames f) names := by
  unfold prioritizeLeftovers
  rw [List.filter_eq_self]
  intro name hname
  have hnot := not_mem_blocked hname
  simp only [blockedNames, List.mem_append, not_or] at hnot
  simpa using hnot.2

theorem rebuiltBase_eq (f : Files) :
    rebuiltBase r f = withoutTwins r (blockedNames f)
      (untestedCandidates r (blockedNames f) (discoveryUniverse r f.extended)) := by
  unfold rebuiltBase
  rw [prioritize_untested]

/-- The files after these names were tested. -/
def Files.withTested (f : Files) (names : List String) : Files :=
  { f with tested := f.tested ++ names, testedStamp := f.testedStamp + 1 }

theorem mem_blocked_withTested {f : Files} {names : List String} {name : String} :
    name ∈ blockedNames (f.withTested names) ↔ name ∈ names ∨ name ∈ blockedNames f := by
  simp only [blockedNames, Files.withTested, List.mem_append]
  tauto

theorem mem_keys_withTested {f : Files} {names : List String} (key : String → Option String)
    (k : String) :
    k ∈ keysOf key (blockedNames (f.withTested names)) ↔
      k ∈ keysOf key names ++ keysOf key (blockedNames f) := by
  simp only [keysOf, List.mem_append, List.mem_filterMap, mem_blocked_withTested]
  constructor
  · intro h
    obtain ⟨name, hname | hname, hk⟩ := h
    · exact Or.inl ⟨name, hname, hk⟩
    · exact Or.inr ⟨name, hname, hk⟩
  · intro h
    rcases h with ⟨name, hname, hk⟩ | ⟨name, hname, hk⟩
    · exact ⟨name, Or.inl hname, hk⟩
    · exact ⟨name, Or.inr hname, hk⟩

theorem untested_withTested (f : Files) (names candidates : List String) :
    untestedCandidates r (blockedNames (f.withTested names)) candidates =
      (untestedCandidates r (blockedNames f) candidates).filter
        fun a => !keyTaken (keysOf (nearKey r) names) (nearKey r a) := by
  have hskip : (fun c => decide (c ∈ blockedNames (f.withTested names)) || r.blocks c) =
      fun c => decide (c ∈ names) || (decide (c ∈ blockedNames f) || r.blocks c) := by
    funext c
    rw [← Bool.or_assoc, ← Bool.decide_or]
    congr 1
    exact decide_eq_decide.mpr mem_blocked_withTested
  unfold untestedCandidates
  rw [hskip, greedy_congr _ (mem_keys_withTested (nearKey r)), greedy_block fun _ => rfl]

/-- Testing names removes just them from the rebuilt queue exactly when no other
name of it has a key of theirs. -/
theorem rebuiltBase_tested_iff (f : Files) (names : List String) :
    rebuiltBase r (f.withTested names) =
        (rebuiltBase r f).filter (fun name => decide (name ∉ names)) ↔
      ∀ name ∈ rebuiltBase r f, name ∉ names →
        keyTaken (keysOf (nearKey r) names) (nearKey r name) = false ∧
          keyTaken (canonicalKeySet r names) (canonicalKey r name) = false := by
  rw [rebuiltBase_eq, rebuiltBase_eq, untested_withTested]
  unfold withoutTwins canonicalKeySet
  rw [greedy_congr _ (mem_keys_withTested (canonicalKey r))]
  exact greedy_block_iff (fun _ => rfl) _ _

/-! ## When the cache still answers -/

/-- No stamp of the fingerprint is newer than the files' own. -/
structure NotNewer (fp : Fingerprint) (f : Files) : Prop where
  tested : fp.tested ≤ f.testedStamp
  extended : fp.extended ≤ f.extendedStamp
  book : fp.book ≤ f.bookStamp

/-- What a cache keeps: its stamps are not newer than the files', and when they
are the files' the cached queue is what a rebuild gives. -/
structure Faithful (r : QueueRules) (s : Store) : Prop where
  notNewer : ∀ c ∈ s.cache, NotNewer c.fp s.files
  base : ∀ c ∈ s.cache, c.fp = s.files.fingerprint → c.base = rebuiltBase r s.files

theorem faithful_cold (f : Files) : Faithful r { files := f } :=
  ⟨fun _ h => (nomatch h), fun _ h => (nomatch h)⟩

/-- A faithful store serves what a rebuild gives. -/
theorem Faithful.view_base {s : Store} (h : Faithful r s) :
    (s.view r).base = rebuiltBase r s.files := by
  unfold Store.view
  cases hhit : s.hit with
  | none => rfl
  | some c =>
    obtain ⟨hc, hfp⟩ := Option.filter_eq_some_iff.mp hhit
    exact h.base c hc (by simpa using hfp)

theorem view_fp (s : Store) : (s.view r).fp = s.files.fingerprint := by
  unfold Store.view
  cases hhit : s.hit with
  | none => rfl
  | some c =>
    obtain ⟨_, hfp⟩ := Option.filter_eq_some_iff.mp hhit
    simpa using hfp

/-- A cache whose stamp differs from the files' is not asked. -/
theorem Faithful.of_stale {s : Store} (hnew : ∀ c ∈ s.cache, NotNewer c.fp s.files)
    (hne : ∀ c ∈ s.cache, c.fp ≠ s.files.fingerprint) : Faithful r s :=
  ⟨hnew, fun c hc hfp => absurd hfp (hne c hc)⟩

theorem notNewer_self (f : Files) : NotNewer f.fingerprint f := ⟨le_refl _, le_refl _, le_refl _⟩

/-- The stamp of a written file is above any taken before. -/
theorem NotNewer.write {fp : Fingerprint} {f : Files} (h : NotNewer fp f) (w : FileWrite) :
    NotNewer fp (f.write w) ∧ fp ≠ (f.write w).fingerprint := by
  obtain ⟨ht, he, hb⟩ := h
  cases w with
  | tested names =>
    refine ⟨⟨Nat.le_succ_of_le ht, he, hb⟩, ?_⟩
    intro heq
    rw [heq] at ht
    exact absurd ht (Nat.not_succ_le_self _)
  | extended names =>
    refine ⟨⟨ht, Nat.le_succ_of_le he, hb⟩, ?_⟩
    intro heq
    rw [heq] at he
    exact absurd he (Nat.not_succ_le_self _)
  | book names =>
    refine ⟨⟨ht, he, Nat.le_succ_of_le hb⟩, ?_⟩
    intro heq
    rw [heq] at hb
    exact absurd hb (Nat.not_succ_le_self _)

theorem faithful_write {s : Store} (h : Faithful r s) (w : FileWrite) :
    Faithful r { s with files := s.files.write w } :=
  Faithful.of_stale (fun c hc => ((h.notNewer c hc).write w).1)
    (fun c hc => ((h.notNewer c hc).write w).2)

theorem faithful_view {s : Store} (h : Faithful r s) : Faithful r (s.queueView r) := by
  constructor
  · intro c hc
    obtain rfl : s.view r = c := Option.some.inj hc
    rw [view_fp]
    exact notNewer_self s.files
  · intro c hc _
    obtain rfl : s.view r = c := Option.some.inj hc
    exact h.view_base

/-- Minting nothing leaves the cache as it is. -/
theorem appendMinted_none {active : List String} : ∀ {added : List String} {c : Cache},
    (appendMinted r active c added).2 = [] → (appendMinted r active c added).1 = c := by
  intro added
  induction added with
  | nil => intro c _; rfl
  | cons name added ih =>
    intro c h
    unfold appendMinted at h ⊢
    split at h
    next hno => rw [if_pos hno]; exact ih h
    next => cases h

theorem appendMinted_fp {active : List String} : ∀ {added : List String} {c : Cache},
    (appendMinted r active c added).1.fp = c.fp := by
  intro added
  induction added with
  | nil => intro c; rfl
  | cons name added ih =>
    intro c
    unfold appendMinted
    split
    next => exact ih
    next => exact ih

/-- After names went to the sidecar the cache is stale, whatever the mint put
into it. -/
theorem notNewer_extended {s : Store} {added : List String} {c : Cache}
    (hfp : c.fp = s.files.fingerprint) (hne : added ≠ []) :
    NotNewer c.fp (s.appendExtended added).files ∧
      c.fp ≠ (s.appendExtended added).files.fingerprint := by
  unfold Store.appendExtended
  rw [if_neg hne, hfp]
  exact (notNewer_self s.files).write (.extended _)

theorem faithful_extended {s : Store} {added : List String} {c : Cache}
    (hfp : c.fp = s.files.fingerprint) (hne : added ≠ []) :
    Faithful r { s.appendExtended added with cache := some c } := by
  apply Faithful.of_stale
  · intro c' hc'
    rw [← Option.some.inj hc']
    exact (notNewer_extended hfp hne).1
  · intro c' hc'
    rw [← Option.some.inj hc']
    exact (notNewer_extended hfp hne).2

theorem faithful_claim {s : Store} (h : Faithful r s) (active added : List String) :
    Faithful r (s.claimView r active added) := by
  unfold Store.claimView
  by_cases hadded : added = []
  · rw [hadded]
    exact faithful_view h
  · exact faithful_extended (s := s.queueView r) (appendMinted_fp.trans (view_fp s)) hadded

theorem faithful_refill {s : Store} (h : Faithful r s) (active added : List String) :
    Faithful r (s.refillCommit r active added) := by
  unfold Store.refillCommit
  by_cases hkept : (appendMinted r active (s.view r) added).2 = []
  · have hsame := appendMinted_none hkept
    simp only [hkept, hsame]
    exact faithful_view h
  · exact faithful_extended (s := s.queueView r) (appendMinted_fp.trans (view_fp s)) hkept

/-! ## The patch -/

/-- The names an append notes. -/
def noted (names : List String) : List String := names.filter (· ≠ "")

/-- A step that notes tested names while the cache answers shares no key with
another name of the cached queue. -/
def NotesNoTwin (r : QueueRules) (s : Store) (q : QueueStep) : Prop :=
  match q with
  | .appendTested names => ∀ c ∈ s.hit, ∀ name ∈ c.base, name ∉ noted names →
      keyTaken (keysOf (nearKey r) (noted names)) (nearKey r name) = false ∧
        keyTaken (canonicalKeySet r (noted names)) (canonicalKey r name) = false
  | _ => True

/-- An append patches a cache that answers, and drops any other. -/
theorem appendTested_eq (s : Store) (names : List String) :
    s.appendTested r names =
      { files := s.files.withTested (noted names)
        cache := s.hit.map fun c =>
          patched r c (noted names) (s.files.withTested (noted names)).fingerprint } := by
  unfold Store.appendTested Store.noteQueueTested Store.queueSnapshot Store.hit
  cases hc : s.cache with
  | none => rfl
  | some c =>
    simp only [Option.map_some]
    by_cases hfp : c.fp = s.files.fingerprint
    · rw [Option.filter_some_pos (by simpa using hfp), hfp, if_neg (fun h => h rfl),
        if_neg (by simp [Files.fingerprint])]
      rfl
    · rw [Option.filter_some_neg (by simpa using hfp), if_pos]
      · rfl
      · intro heq
        exact hfp (Option.some.inj heq).symm

theorem hit_faithful {s : Store} (h : Faithful r s) {c : Cache} (hc : c ∈ s.hit) :
    c.base = rebuiltBase r s.files := by
  obtain ⟨hin, hfp⟩ := Option.filter_eq_some_iff.mp hc
  exact h.base c hin (by simpa using hfp)

theorem faithful_appendTested_iff {s : Store} (h : Faithful r s) (names : List String) :
    Faithful r (s.appendTested r names) ↔ NotesNoTwin r s (.appendTested names) := by
  rw [appendTested_eq]
  constructor
  · intro hf c hc
    have hbase := hf.base _ (Option.mem_map_of_mem _ hc) rfl
    rw [patched, hit_faithful h hc] at hbase
    rw [hit_faithful h hc]
    exact (rebuiltBase_tested_iff s.files (noted names)).mp hbase.symm
  · intro hno
    constructor
    · intro c' hc'
      obtain ⟨c, hc, rfl⟩ := Option.map_eq_some_iff.mp hc'
      exact notNewer_self _
    · intro c' hc' _
      obtain ⟨c, hc, rfl⟩ := Option.map_eq_some_iff.mp hc'
      have htwin := hno c hc
      rw [hit_faithful h hc] at htwin
      rw [patched, hit_faithful h hc]
      exact ((rebuiltBase_tested_iff s.files (noted names)).mpr htwin).symm

/-! ## Every run -/

/-- After the step the names served from the cache are those of a rebuild,
whatever is leased. -/
def ServesRebuild (r : QueueRules) (s : Store) (q : QueueStep) : Prop :=
  ∀ active, (s.step r q).claimable r active =
    (rebuiltBase r (s.step r q).files).filter fun name => decide (name ∉ active)

theorem servesRebuild_of_faithful {s : Store} {q : QueueStep} (h : Faithful r (s.step r q)) :
    ServesRebuild r s q := by
  intro active
  rw [Store.claimable, h.view_base]

theorem faithful_step {s : Store} {q : QueueStep} (h : Faithful r s) (hno : NotesNoTwin r s q) :
    Faithful r (s.step r q) := by
  cases q with
  | appendTested names => exact (faithful_appendTested_iff h names).mpr hno
  | view => exact faithful_view h
  | claim active added => exact faithful_claim h active added
  | refill active added => exact faithful_refill h active added
  | write w => exact faithful_write h w
  | restart => exact faithful_cold s.files

theorem servesRebuild_iff {s : Store} {q : QueueStep} (h : Faithful r s) :
    ServesRebuild r s q ↔ NotesNoTwin r s q := by
  constructor
  · intro hserve
    cases q with
    | appendTested names =>
      intro c hc
      have hview := hserve []
      simp only [Store.claimable, List.not_mem_nil, not_false_eq_true, decide_true,
        List.filter_true] at hview
      -- the patched cache answers, so what it serves is the patched queue
      have hstep : (s.step r (.appendTested names)).view r =
          patched r c (noted names) (s.files.withTested (noted names)).fingerprint := by
        show (s.appendTested r names).view r = _
        rw [appendTested_eq, Store.view, Store.hit, Option.mem_def.mp hc, Option.map_some,
          Option.filter_some_pos (by simp [patched])]
        rfl
      have hfiles : (s.step r (.appendTested names)).files = s.files.withTested (noted names) := by
        show (s.appendTested r names).files = _
        rw [appendTested_eq]
      rw [hstep, hfiles, patched, hit_faithful h hc] at hview
      rw [hit_faithful h hc]
      exact (rebuiltBase_tested_iff s.files (noted names)).mp hview.symm
    | view => trivial
    | claim active added => trivial
    | refill active added => trivial
    | write w => trivial
    | restart => trivial
  · intro hno
    exact servesRebuild_of_faithful (faithful_step h hno)

/-- Two spellings of one stack: their canonical form is one name. -/
def twoSpellings : QueueRules where
  canonicalName name := if name = "b&a" then "a&b" else name
  nearDuplicateKey name := if name = "b&a" then "a&b" else name
  blocks _ := false
  staticUniverse := ["a&b", "c"]

end PaperTrading.Leases.Queue
