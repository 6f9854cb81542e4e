import PaperTrading.Champions.Pointers
import PaperTrading.Champions.StoredPasses

/-!
# One seat a name

Ingests and the startup backfill seat names by themselves. In every state they reach,
together with the other seats, retirements and parkings, a name has one row at most and
is not active while it is archived; and a backfill that is run again on the same
evaluations finds nothing to do (`one_seat`).
-/

namespace PaperTrading.Champions

open PaperTrading.Lib

variable {claimNames : List String} {instant : String → Option ℕ} {log stored : List EvalRow}
  {stamp : String} {b : Book}

theorem startupBackfill_eq_self (h : ∀ name, ¬ (name ∈ (startupBackfill claimNames instant log
    stored stamp b).pool.map (·.name) ∧ name ∉ b.pool.map (·.name))) :
    startupBackfill claimNames instant log stored stamp b = b := by
  obtain ⟨-, -, hadm⟩ := Seating.library_fold claimNames b.graduatedNames
    (fun n => decide (n ∈ ((backfillRecords claimNames instant log stored b).map
      (·.strategy)).filter b.isRetired))
    stamp (backfillStart_admitted b) (backfillRecords claimNames instant log stored b)
  have hnone : (Book.backfillSeats claimNames b (backfillRecords claimNames instant log stored b)
      (((backfillRecords claimNames instant log stored b).map (·.strategy)).filter b.isRetired)
      stamp).admitted = [] := by
    rw [List.eq_nil_iff_forall_not_mem]
    intro name hn
    exact h name (mem_startupBackfill.mpr ((hadm name).mp hn))
  exact if_pos hnone

theorem graduated_startupBackfill : (startupBackfill claimNames instant log stored stamp
    b).graduated = b.graduated := by
  unfold startupBackfill Book.backfill
  dsimp only
  split <;> rfl

/-- Of this pass the name is seated, graduated or retired since. -/
def Settled (instant : String → Option ℕ) (p : EvalRow) (b : Book) : Prop :=
  p.strategy ∈ b.pool.map (·.name) ∨ p.strategy ∈ b.graduatedNames ∨
    retiredAfterLatestPass instant b p = true

theorem settled_iff {p : EvalRow} : Settled instant p b ↔ ¬ Unblocked instant b p := by
  unfold Settled Unblocked
  rw [not_and_or, not_and_or, not_not, not_not, Bool.not_eq_false]

/-- When every newest pass is settled the backfill has nothing to do. -/
theorem startupBackfill_of_settled (h : ∀ p, newestPass claimNames instant log stored p.strategy =
    some p → Settled instant p b) : startupBackfill claimNames instant log stored stamp b = b := by
  refine startupBackfill_eq_self fun name hseat => ?_
  obtain ⟨p, hp, hfree⟩ := (seated_iff stamp).mp hseat
  obtain ⟨-, rfl, -⟩ := newestPass_spec hp
  exact settled_iff.mp (h p hp) hfree

/-- After a backfill every newest pass is settled. -/
theorem settled_startupBackfill {p : EvalRow}
    (hp : newestPass claimNames instant log stored p.strategy = some p) :
    Settled instant p (startupBackfill claimNames instant log stored stamp b) := by
  rw [settled_iff]
  rintro ⟨hpool, hgrad, hretired⟩
  obtain ⟨seated, hs⟩ := backfill_seatsNew claimNames b
    (backfillRecords claimNames instant log stored b)
    (((backfillRecords claimNames instant log stored b).map (·.strategy)).filter b.isRetired) stamp
  have hnames : (startupBackfill claimNames instant log stored stamp b).pool.map (·.name) =
      b.pool.map (·.name) ++ seated := hs.names
  rw [hnames, List.mem_append, not_or] at hpool
  -- the backfill found the name as it left it
  have harchive : (startupBackfill claimNames instant log stored stamp b).archive p.strategy =
      b.archive p.strategy := (hs.archive _).trans (if_neg hpool.2)
  have hfree : Unblocked instant b p := by
    refine ⟨hpool.1, ?_, ?_⟩
    · unfold Book.graduatedNames at hgrad
      rw [graduated_startupBackfill] at hgrad
      exact hgrad
    · unfold retiredAfterLatestPass at hretired
      rw [harchive] at hretired
      exact hretired
  have hin := ((seated_iff stamp).mpr ⟨p, hp, hfree⟩).1
  rw [hnames, List.mem_append] at hin
  exact hin.elim hpool.1 hpool.2

/-! ## Retirements in between -/

/-- The operation only takes names away, at a time that is not before the stored
evaluations. -/
def TakesAway (instant : String → Option ℕ) (log stored : List EvalRow) : BookOp → Prop
  | .retire _ stamp | .retireOrphans _ stamp | .enforce _ stamp =>
    ∀ p ∈ considered log stored, ∀ s, instant stamp = some s →
      ∀ t, instant p.testedAt = some t → t ≤ s
  | _ => False

theorem retiredAfter_of_archived {p : EvalRow} {row : RetiredRow}
    (hrow : b.archive p.strategy = some row)
    (hlate : ∀ s, instant row.retiredAt = some s → ∀ t, instant p.testedAt = some t → t ≤ s) :
    retiredAfterLatestPass instant b p = true := by
  unfold retiredAfterLatestPass
  rw [hrow]
  dsimp only
  split
  next retiredAt testedAt hret htest => exact decide_eq_true (hlate _ hret _ htest)
  next => rfl

/-- A retired name keeps its date or gets one that is late enough. -/
theorem retiredAfter_keep {b' : Book} {p : EvalRow}
    (h : retiredAfterLatestPass instant b p = true)
    (hrow : ∀ row, b.archive p.strategy = some row → ∃ row', b'.archive p.strategy = some row' ∧
      (row'.retiredAt = row.retiredAt ∨
        ∀ s, instant row'.retiredAt = some s → ∀ t, instant p.testedAt = some t → t ≤ s)) :
    retiredAfterLatestPass instant b' p = true := by
  cases harch : b.archive p.strategy with
  | none =>
    unfold retiredAfterLatestPass at h
    rw [harch] at h
    cases h
  | some row =>
    obtain ⟨row', hrow', hdate⟩ := hrow row harch
    rcases hdate with hdate | hlate
    · unfold retiredAfterLatestPass at h ⊢
      rw [harch] at h
      rw [hrow']
      dsimp only at h ⊢
      rw [hdate]
      exact h
    · exact retiredAfter_of_archived hrow' hlate

theorem Settled.retire {p : EvalRow} (h : Settled instant p b) {names : List String}
    {stamp : String} (hlate : ∀ s, instant stamp = some s → ∀ t, instant p.testedAt = some t → t ≤ s) :
    Settled instant p (b.retireNames names stamp) := by
  by_cases hgone : p.strategy ∈ names ∧
      (p.strategy ∈ b.graduatedNames ∨ p.strategy ∈ b.pool.map (·.name))
  · -- it is archived now, with this stamp
    refine .inr (.inr ?_)
    by_cases hgrad : p.strategy ∈ b.graduatedNames
    · exact retiredAfter_of_archived (b := b.retireNames names stamp) (if_pos ⟨hgone.1, hgrad⟩) hlate
    · exact retiredAfter_of_archived (b := b.retireNames names stamp) ((if_neg fun hno => hgrad hno.2).trans
          (if_pos ⟨hgone.1, hgone.2.resolve_left hgrad⟩)) hlate
  · have hsame : (b.retireNames names stamp).archive p.strategy = b.archive p.strategy :=
      (if_neg fun hno => hgone ⟨hno.1, .inl hno.2⟩).trans
        (if_neg fun hno => hgone ⟨hno.1, .inr hno.2⟩)
    rcases h with hpool | hgrad | hretired
    · exact .inl (mem_names_retire.mpr ⟨hpool, fun hn => hgone ⟨hn, .inr hpool⟩⟩)
    · refine .inr (.inl ?_)
      obtain ⟨g, hg, hname⟩ := List.mem_map.mp hgrad
      refine List.mem_map.mpr ⟨g, List.mem_filter.mpr ⟨hg, decide_eq_true fun hn => ?_⟩, hname⟩
      exact hgone ⟨hname ▸ hn, .inl hgrad⟩
    · refine .inr (.inr (retiredAfter_keep hretired fun row hrow => ⟨row, ?_, .inl rfl⟩))
      rw [hsame]
      exact hrow

theorem Settled.retireOrphans {p : EvalRow} (h : Settled instant p b) (accounts : List String)
    (stamp : String) : Settled instant p (b.retireOrphans accounts stamp) := by
  refine h.imp_right fun h => h.imp_right fun hretired => retiredAfter_keep hretired
    fun row hrow => ⟨row, ?_, .inl rfl⟩
  refine (if_neg fun hno => ?_).trans hrow
  have hfresh := hno.2.2.2
  unfold Book.isRetired at hfresh
  rw [hrow] at hfresh
  cases hfresh

theorem repoint_retiredAt (park : List (String × String)) (row : RetiredRow) :
    (Book.repoint park row).retiredAt = row.retiredAt := by
  unfold Book.repoint
  split <;> rfl

theorem Settled.enforce {p : EvalRow} (h : Settled instant p b) (hb : Exclusive b)
    {env : FamilyEnv} {stamp : String}
    (hlate : ∀ s, instant stamp = some s → ∀ t, instant p.testedAt = some t → t ≤ s) :
    Settled instant p (b.enforceFamilies env stamp) := by
  by_cases hpark : p.strategy ∈ (b.parkedTwins env).map (·.1)
  · obtain ⟨w, -, hfiled⟩ := archive_parked (f := { book := b }) stamp hb.nodup hpark
    exact .inr (.inr (retiredAfter_of_archived (b := b.enforceFamilies env stamp) hfiled hlate))
  by_cases hempty : b.parkedTwins env = []
  · rw [show b.enforceFamilies env stamp = b from if_pos (List.isEmpty_iff.mpr hempty)]
    exact h
  rcases h with hpool | hgrad | hretired
  · obtain ⟨c, hc, hname⟩ := List.mem_map.mp hpool
    refine .inl (List.mem_map.mpr ⟨c, ?_, hname⟩)
    rw [show (b.enforceFamilies env stamp).pool = _ from
      enforce_pool (f := { book := b }) hb.nodup]
    exact List.mem_filter.mpr ⟨hc, decide_eq_true (hname ▸ hpark)⟩
  · refine .inr (.inl ?_)
    unfold Book.graduatedNames
    rw [park_graduated env stamp (f := { book := b })]
    exact hgrad
  · refine .inr (.inr (retiredAfter_keep hretired fun row hrow =>
      ⟨Book.repoint (b.parkedTwins env) row, ?_, .inl (repoint_retiredAt _ row)⟩))
    rw [archive_not_parked hempty hpark, hrow]
    rfl

/-- Retirements and parkings of a later date leave the passes settled. -/
theorem Settled.run {p : EvalRow} (hp : p ∈ considered log stored) :
    ∀ (ops : List BookOp) {b : Book}, Pointed b → Settled instant p b →
      (∀ op ∈ ops, TakesAway instant log stored op) →
        Settled instant p (ops.foldl (Book.step claimNames) b) := by
  intro ops
  induction ops with
  | nil => exact fun _ h _ => h
  | cons op ops ih =>
    intro b hb h hops
    refine ih (hb.step claimNames op) ?_ fun op hop => hops op (List.mem_cons_of_mem _ hop)
    have htake := hops op List.mem_cons_self
    cases op with
    | retire names stamp => exact h.retire (htake p hp)
    | retireOrphans accounts stamp => exact h.retireOrphans accounts stamp
    | enforce env stamp => exact h.enforce hb.toExclusive (htake p hp)
    | approve rows => exact htake.elim
    | backfill records reevaluated stamp => exact htake.elim
    | ingest i => exact htake.elim

/-- **One seat a name.** Whatever was seated, retired, parked or run again before, a name
has one row at most, and no active name is archived. A backfill that is run again on the
same evaluations changes nothing, be it at once or after retirements and parkings dated
after these. -/
theorem one_seat (claimNames : List String) (instant : String → Option ℕ) (ops : List BookOp) :
    let b := ops.foldl (Book.step claimNames) {}
    (∀ name, (b.pool.filter fun c => c.name = name).length ≤ 1) ∧
      (∀ name ∈ b.pool.map (·.name), b.archive name = none) ∧
      ∀ log stored stamp stamp' (rest : List BookOp), (∀ op ∈ rest, TakesAway instant log stored op) →
        let b' := rest.foldl (Book.step claimNames)
          (startupBackfill claimNames instant log stored stamp b)
        startupBackfill claimNames instant log stored stamp' b' = b' := by
  have h := pointed_start.run claimNames ops
  refine ⟨fun name => ?_, h.apart, fun log stored stamp stamp' rest hrest => ?_⟩
  · have hcount := List.nodup_iff_count_le_one.mp h.nodup name
    rw [List.count, List.countP_map, List.countP_eq_length_filter] at hcount
    exact hcount
  · refine startupBackfill_of_settled fun p hp => ?_
    exact Settled.run (newestPass_spec hp).1 rest (h.step claimNames (.backfill _ _ stamp))
      (settled_startupBackfill hp) hrest

end PaperTrading.Champions
