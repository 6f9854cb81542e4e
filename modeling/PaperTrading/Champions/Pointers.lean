import PaperTrading.Champions.FamilyRule
import PaperTrading.Champions.LiveResults

/-!
# Winners of parked twins

A parked twin is blocked while its winner is active. When the winner is parked by a
better row its twins are pointed at that one in the same write (`repoint`), and when it
is retired the twin may be considered again. `Pointed` is what every seat, retirement
and parking keeps: a name is not active and archived at once, and a pointer ends at an
active name or at a retired one that is no twin. `pointers_one_step` is this for every
state the operations reach.
-/

namespace PaperTrading.Champions

open PaperTrading.Lib

/-! ## Operations -/

/-- One row of an approved batch: it is seated unless its name is known. -/
def Seating.approve (s : Seating) (row : Champion) : Seating :=
  if s.existing row.name then s else s.admitRow row

namespace Book

/-- The seats of an approved batch; `promote_candidates` takes the same ones. -/
def approve (b : Book) (rows : List Champion) : Book :=
  let s := rows.foldl Seating.approve (backfillStart b)
  if s.admitted = [] then b else b.savePool s.st

/-- `ensure_orphan_live_retire_unlocked` for the accounts its scan finds flat. -/
def retireOrphans (b : Book) (accounts : List String) (stamp : String) : Book :=
  { b with archive := fun n =>
      if n ∈ accounts.map accountSlug ∧ n ∉ b.pool.map (fun c => accountSlug c.name) ∧
          n ∉ b.graduatedNames.map accountSlug ∧ b.isRetired n = false then
        some { role := .orphanLive, retiredAt := stamp }
      else b.archive n }

end Book

/-- The seats, retirements and parkings. An ingest is followed by a parking of its own. -/
inductive BookOp where
  | approve (rows : List Champion)
  | backfill (records : List EvalRow) (reevaluated : List String) (stamp : String)
  | ingest (i : Ingest)
  | retire (names : List String) (stamp : String)
  | retireOrphans (accounts : List String) (stamp : String)
  | enforce (env : FamilyEnv) (stamp : String)

def Book.step (claimNames : List String) (b : Book) : BookOp → Book
  | .approve rows => b.approve rows
  | .backfill records reevaluated stamp => b.backfill claimNames records reevaluated stamp
  | .ingest i => Book.seatIngest claimNames i b b
  | .retire names stamp => b.retireNames names stamp
  | .retireOrphans accounts stamp => b.retireOrphans accounts stamp
  | .enforce env stamp => b.enforceFamilies env stamp

/-! ## The invariant -/

/-- A name is active once at most, and not while it is archived. -/
structure Exclusive (b : Book) : Prop where
  nodup : (b.pool.map (·.name)).Nodup
  apart : ∀ n ∈ b.pool.map (·.name), b.archive n = none

/-- A twin points at an active name or at a retired one that is no twin. -/
structure Pointed (b : Book) : Prop extends Exclusive b where
  oneStep : ∀ n row, b.archive n = some row → row.role = .parkedTwin →
    ∃ w, row.familyWinner = some w ∧ (w ∈ b.pool.map (·.name) ∨
      ∃ old, b.archive w = some old ∧ old.role ≠ .parkedTwin)

theorem pointed_start : Pointed {} where
  nodup := List.nodup_nil
  apart := fun _ _ => rfl
  oneStep := fun _ _ h => by cases h

section
variable {b b' : Book}

/-- Names that are seated are new, and leave the archive. -/
structure SeatsNew (b b' : Book) (seated : List String) : Prop where
  names : b'.pool.map (·.name) = b.pool.map (·.name) ++ seated
  nodup : seated.Nodup
  fresh : ∀ n ∈ seated, n ∉ b.pool.map (·.name)
  archive : ∀ n, b'.archive n = if n ∈ seated then none else b.archive n

theorem Exclusive.seat (h : Exclusive b) {seated : List String} (hs : SeatsNew b b' seated) :
    Exclusive b' where
  nodup := by
    rw [hs.names, List.nodup_append]
    exact ⟨h.nodup, hs.nodup, fun a ha c hc heq => hs.fresh c hc (heq ▸ ha)⟩
  apart := fun n hn => by
    rw [hs.archive]
    split
    next => rfl
    next hno =>
      rw [hs.names] at hn
      exact h.apart n ((List.mem_append.mp hn).resolve_right hno)

theorem Pointed.seat (h : Pointed b) {seated : List String} (hs : SeatsNew b b' seated) :
    Pointed b' where
  toExclusive := h.toExclusive.seat hs
  oneStep := fun n row hrow hrole => by
    rw [hs.archive] at hrow
    split at hrow
    next => cases hrow
    next hno =>
      obtain ⟨w, hw, hend⟩ := h.oneStep n row hrow hrole
      refine ⟨w, hw, ?_⟩
      rw [hs.names, List.mem_append, hs.archive]
      by_cases hseat : w ∈ seated
      · exact .inl (.inr hseat)
      · rw [if_neg hseat]
        exact hend.imp_left .inl

theorem SeatsNew.refl (b : Book) : SeatsNew b b [] where
  names := (List.append_nil _).symm
  nodup := List.nodup_nil
  fresh := fun _ h => by cases h
  archive := fun _ => (if_neg List.not_mem_nil).symm

/-- The saved pool of a seating, over an archive without the names it seated. -/
theorem Seating.Past.seatsNew {start s : Seating} (h : Seating.Past start s)
    (hst : start.st = b.pool) (hpool : b'.pool = (b.savePool s.st).pool)
    (harchive : ∀ n, b'.archive n = if n ∈ s.admitted then none else b.archive n) :
    SeatsNew b b' s.admitted where
  names := by
    obtain ⟨rows, hrows, hadm⟩ := h.rows
    rw [hpool, names_savePool, hrows, List.map_append, hst, hadm]
  nodup := h.nodup
  fresh := fun n hn => by
    rw [← hst]
    exact (h.seated n hn).1
  archive := harchive

end

/-! ## Seats -/

section
variable (claimNames : List String) (b : Book)

theorem backfill_seatsNew (records : List EvalRow) (reevaluated : List String) (stamp : String) :
    ∃ seated, SeatsNew b (b.backfill claimNames records reevaluated stamp) seated := by
  obtain ⟨hpast, hgone, -⟩ := Seating.library_fold claimNames b.graduatedNames
    (fun n => decide (n ∈ reevaluated)) stamp (backfillStart_admitted b) records
  unfold Book.backfill
  dsimp only
  split
  next => exact ⟨[], .refl b⟩
  next =>
    refine ⟨_, hpast.seatsNew rfl rfl fun n => ?_⟩
    split
    next hn => exact hgone n hn
    next hn => exact (hpast.kept n hn).2

theorem ingest_seatsNew (i : Ingest) :
    ∃ seated, SeatsNew b (Book.seatIngest claimNames i b b) seated := by
  obtain ⟨hpast, hgone, hsame, hadm, -⟩ := ingest_seats claimNames { book := b } i
  unfold Book.seatIngest
  dsimp only
  split
  next => exact ⟨[], .refl b⟩
  next =>
    refine ⟨_, hpast.seatsNew rfl rfl fun n => ?_⟩
    show unpark _ _ n = _
    split
    next hn =>
      refine unpark_twin hn fun old hold => ?_
      rcases (hadm n).mp hn with hlib | ⟨-, hforced⟩
      · rw [hgone n hlib] at hold
        cases hold
      · by_cases hlib : Seating.SeatedBy claimNames b.graduatedNames
            (fun n => decide (n ∈ i.written.map (·.strategy))) (ingestStart b) i.written n
        · rw [hgone n hlib] at hold
          cases hold
        · obtain ⟨row, hrow⟩ := Option.isSome_iff_exists.mp hforced
          rw [hsame n hlib] at hold
          exact (forced_archived (f := { book := b }) hrow).2.2.2.2 old hold
    next hn =>
      rw [unpark_of_not_mem hn]
      exact (hpast.kept n hn).2

theorem approve_fold {start : Seating} (hnone : start.admitted = []) (hknows : start.KnowsPool)
    (rows : List Champion) :
    let s := rows.foldl Seating.approve start
    Seating.Past start s ∧ s.archive = start.archive ∧
      ∀ n ∈ s.admitted, start.existing n = false := by
  induction rows using List.reverseRecOn with
  | nil => exact ⟨.self hnone, rfl, fun n hn => by rw [List.foldl_nil, hnone] at hn; cases hn⟩
  | append_singleton rows row ih =>
    obtain ⟨hpast, harchive, hnew⟩ := ih
    dsimp only
    rw [List.foldl_append, List.foldl_cons, List.foldl_nil, Seating.approve]
    split
    next => exact ⟨hpast, harchive, hnew⟩
    next hknown =>
      have hno : row.name ∉ (rows.foldl Seating.approve start).admitted :=
        fun hn => hknown (hpast.seated _ hn).2
      have hstart : start.existing row.name = false := by
        rw [← (hpast.kept _ hno).1]
        exact Bool.eq_false_iff.mpr hknown
      have hfree : row.name ∉ start.st.map (·.name) := fun hmem => by
        rw [hknows _ hmem] at hstart
        cases hstart
      refine ⟨hpast.admitted_row row hno hfree fun _ _ => rfl, harchive, fun n hn => ?_⟩
      rcases List.mem_append.mp hn with hn | hn
      · exact hnew n hn
      · rw [List.mem_singleton.mp hn]
        exact hstart

theorem approve_seatsNew (rows : List Champion) : ∃ seated, SeatsNew b (b.approve rows) seated := by
  have hknows : (backfillStart b).KnowsPool := fun n hn => by
    have hmem : n ∈ b.pool.map (·.name) := hn
    show (decide (n ∈ b.pool.map (·.name)) || _ || _) = true
    rw [decide_eq_true hmem]
    rfl
  obtain ⟨hpast, harchive, hnew⟩ := approve_fold rfl hknows rows
  unfold Book.approve
  dsimp only
  split
  next => exact ⟨[], .refl b⟩
  next =>
    refine ⟨_, hpast.seatsNew rfl rfl fun n => ?_⟩
    split
    next hn =>
      have hfree := hnew n hn
      simp only [backfillStart, Book.isRetired, Bool.or_eq_false_iff] at hfree
      exact Option.isSome_eq_false_iff.mp hfree.2 |> Option.isNone_iff_eq_none.mp
    next => rfl

end

/-! ## Retirements -/

section
variable {b : Book}

theorem names_retire_sublist (names : List String) (stamp : String) :
    ((b.retireNames names stamp).pool.map (·.name)).Sublist (b.pool.map (·.name)) := by
  rw [retire_pool (f := { book := b })]
  split
  next =>
    rw [names_savePool]
    exact List.filter_sublist.map _
  next => exact List.Sublist.refl _

theorem mem_names_retire {names : List String} {stamp n : String} :
    n ∈ (b.retireNames names stamp).pool.map (·.name) ↔
      n ∈ b.pool.map (·.name) ∧ n ∉ names := by
  constructor
  · intro hn
    obtain ⟨c, hc, rfl⟩ := List.mem_map.mp hn
    exact ⟨(names_retire_sublist names stamp).mem hn, not_mem_of_retired (f := { book := b }) hc⟩
  · rintro ⟨hn, hstay⟩
    rw [retire_pool (f := { book := b })]
    split
    next =>
      rw [names_savePool]
      obtain ⟨c, hc, rfl⟩ := List.mem_map.mp hn
      exact List.mem_map.mpr ⟨c, List.mem_filter.mpr ⟨hc, decide_eq_true hstay⟩, rfl⟩
    next => exact hn

/-- A name that was active or listed is archived as such; the others stay as they were. -/
theorem archive_retire (names : List String) (stamp n : String) :
    (b.retireNames names stamp).archive n = b.archive n ∧
        ¬ (n ∈ names ∧ (n ∈ b.graduatedNames ∨ n ∈ b.pool.map (·.name))) ∨
      ∃ row, (b.retireNames names stamp).archive n = some row ∧ row.role ≠ .parkedTwin := by
  show (if n ∈ names ∧ n ∈ b.graduatedNames then some _ else
    if n ∈ names ∧ n ∈ b.pool.map (·.name) then some _ else b.archive n) = _ ∧ _ ∨ ∃ row,
      (if n ∈ names ∧ n ∈ b.graduatedNames then some _ else
        if n ∈ names ∧ n ∈ b.pool.map (·.name) then some _ else b.archive n) = some row ∧ _
  split
  next => exact .inr ⟨_, rfl, nofun⟩
  next hg =>
    split
    next => exact .inr ⟨_, rfl, nofun⟩
    next hp =>
      exact .inl ⟨rfl, fun h => h.2.elim (fun hl => hg ⟨h.1, hl⟩) fun ha => hp ⟨h.1, ha⟩⟩

theorem Pointed.retire (h : Pointed b) (names : List String) (stamp : String) :
    Pointed (b.retireNames names stamp) where
  nodup := h.nodup.sublist (names_retire_sublist names stamp)
  apart := fun n hn => by
    obtain ⟨hmem, hstay⟩ := mem_names_retire.mp hn
    rw [show (b.retireNames names stamp).archive n = b.archive n from
      (if_neg fun hno => hstay hno.1).trans (if_neg fun hno => hstay hno.1)]
    exact h.apart n hmem
  oneStep := fun n row hrow hrole => by
    rcases archive_retire (b := b) names stamp n with ⟨hsame, -⟩ | ⟨row', hrow', hrole'⟩
    · rw [hsame] at hrow
      obtain ⟨w, hw, hend⟩ := h.oneStep n row hrow hrole
      refine ⟨w, hw, ?_⟩
      rcases archive_retire (b := b) names stamp w with ⟨hsame, hno⟩ | hretired
      · rcases hend with hactive | hold
        · refine .inl (mem_names_retire.mpr ⟨hactive, fun hwanted => hno ⟨hwanted, .inr hactive⟩⟩)
        · exact .inr (hsame ▸ hold)
      · exact .inr hretired
    · rw [hrow] at hrow'
      cases hrow'
      exact absurd hrole hrole'

theorem accountSlug_idem (name : String) : accountSlug (accountSlug name) = accountSlug name := by
  unfold accountSlug
  rw [String.toList_ofList, List.map_map]
  congr 1
  refine List.map_congr_left fun c _ => ?_
  by_cases h : c = '/' ∨ c = ':'
  · simp [h]
  · simp [h]

theorem Pointed.retireOrphans (h : Pointed b) (accounts : List String) (stamp : String) :
    Pointed (b.retireOrphans accounts stamp) where
  nodup := h.nodup
  apart := fun n hn => by
    have hsame : (b.retireOrphans accounts stamp).archive n = b.archive n := by
      refine if_neg fun ⟨haccount, hno, _⟩ => hno ?_
      obtain ⟨a, -, rfl⟩ := List.mem_map.mp haccount
      obtain ⟨c, hc, hname⟩ := List.mem_map.mp hn
      refine List.mem_map.mpr ⟨c, hc, ?_⟩
      rw [hname, accountSlug_idem]
    rw [hsame]
    exact h.apart n hn
  oneStep := fun n row hrow hrole => by
    have hkept : ∀ m old, b.archive m = some old →
        (b.retireOrphans accounts stamp).archive m = some old := by
      intro m old hold
      refine (if_neg fun hno => ?_).trans hold
      have hretired := hno.2.2.2
      unfold Book.isRetired at hretired
      rw [hold] at hretired
      cases hretired
    have hold : b.archive n = some row := by
      unfold Book.retireOrphans at hrow
      dsimp only at hrow
      split at hrow
      next =>
        cases hrow
        cases hrole
      next => exact hrow
    obtain ⟨w, hw, hend⟩ := h.oneStep n row hold hrole
    exact ⟨w, hw, hend.imp_right fun ⟨old, hold, hne⟩ => ⟨old, hkept w old hold, hne⟩⟩

/-! ## Parkings -/

@[simp] theorem repoint_role (park : List (String × String)) (row : RetiredRow) :
    (Book.repoint park row).role = row.role := by
  unfold Book.repoint
  split <;> rfl

theorem repoint_winner (park : List (String × String)) {row : RetiredRow} {w : String}
    (hrole : row.role = .parkedTwin) (hw : row.familyWinner = some w) :
    (Book.repoint park row).familyWinner = some ((park.lookup w).getD w) := by
  unfold Book.repoint
  rw [hrole, hw, Option.bind_some]
  cases park.lookup w with
  | none => exact hw
  | some w' => rfl

theorem repoint_other (park : List (String × String)) {row : RetiredRow}
    (hrole : row.role ≠ .parkedTwin) : Book.repoint park row = row := by
  unfold Book.repoint
  split
  next heq _ => exact absurd heq hrole
  next => rfl

/-- A row that is not parked is pointed at the new winner of its winner. -/
theorem archive_not_parked {env : FamilyEnv} {stamp n : String}
    (hpark : b.parkedTwins env ≠ []) (hn : n ∉ (b.parkedTwins env).map (·.1)) :
    (b.enforceFamilies env stamp).archive n =
      (b.archive n).map (Book.repoint (b.parkedTwins env)) := by
  unfold Book.enforceFamilies
  dsimp only
  rw [if_neg (mt List.isEmpty_iff.mp hpark)]
  exact congrArg (Option.map (Book.repoint (b.parkedTwins env))) (foldl_update_of_not_mem
    (fun t => RetiredRow.mk .parkedTwin stamp (some t.2)) _ _ hn)

theorem Pointed.enforce (h : Pointed b) (env : FamilyEnv) (stamp : String) :
    Pointed (b.enforceFamilies env stamp) := by
  by_cases hpark : b.parkedTwins env = []
  · have hsame : b.enforceFamilies env stamp = b := if_pos (List.isEmpty_iff.mpr hpark)
    rw [hsame]
    exact h
  have hpool : (b.enforceFamilies env stamp).pool =
      b.pool.filter fun c => c.name ∉ (b.parkedTwins env).map (·.1) :=
    enforce_pool (f := { book := b }) h.nodup
  have hactive : ∀ n, n ∈ (b.enforceFamilies env stamp).pool.map (·.name) ↔
      n ∈ b.pool.map (·.name) ∧ n ∉ (b.parkedTwins env).map (·.1) := by
    intro n
    rw [hpool]
    constructor
    · intro hn
      obtain ⟨c, hc, rfl⟩ := List.mem_map.mp hn
      exact ⟨List.mem_map.mpr ⟨c, List.mem_of_mem_filter hc, rfl⟩,
        of_decide_eq_true (List.mem_filter.mp hc).2⟩
    · rintro ⟨hn, hstay⟩
      obtain ⟨c, hc, rfl⟩ := List.mem_map.mp hn
      exact List.mem_map.mpr ⟨c, List.mem_filter.mpr ⟨hc, decide_eq_true hstay⟩, rfl⟩
  -- the winner of a parked row stays active
  have hwinner : ∀ {t w : String}, (t, w) ∈ (planFamilies env b.pool).twins →
      w ∈ (b.enforceFamilies env stamp).pool.map (·.name) := by
    intro t w htwin
    obtain ⟨-, hwin, -, -, -, rw, hrw, -, rfl, -⟩ := twin_of_plan h.nodup htwin
    exact (hactive _).mpr ⟨List.mem_map.mpr ⟨rw.1, (mem_ranking.mp hrw).1, rfl⟩,
      winner_not_parked (f := { book := b }) h.nodup hwin⟩
  refine ⟨⟨?_, fun n hn => ?_⟩, fun n row hrow hrole => ?_⟩
  · rw [hpool]
    exact h.nodup.sublist (List.filter_sublist.map _)
  · obtain ⟨hmem, hstay⟩ := (hactive n).mp hn
    rw [archive_not_parked hpark hstay, h.apart n hmem]
    rfl
  · by_cases hn : n ∈ (b.parkedTwins env).map (·.1)
    · obtain ⟨w, htwin, hfiled⟩ := archive_parked (f := { book := b }) stamp h.nodup hn
      have hfiled : (b.enforceFamilies env stamp).archive n = some _ := hfiled
      rw [hrow] at hfiled
      cases hfiled
      exact ⟨w, rfl, .inl (hwinner htwin)⟩
    · rw [archive_not_parked hpark hn] at hrow
      obtain ⟨old, hold, rfl⟩ := Option.map_eq_some_iff.mp hrow
      rw [repoint_role] at hrole
      obtain ⟨w, hw, hend⟩ := h.oneStep n old hold hrole
      refine ⟨_, repoint_winner _ hrole hw, ?_⟩
      cases hlookup : (b.parkedTwins env).lookup w with
      | some w' =>
        -- its winner is parked in this write
        have hpair : (w, w') ∈ b.parkedTwins env := by
          obtain ⟨l₁, l₂, heq, -⟩ := List.lookup_eq_some_iff.mp hlookup
          rw [heq]
          exact List.mem_append_right _ List.mem_cons_self
        rw [parkedTwins_eq (f := { book := b }) h.nodup] at hpair
        exact .inl (hwinner (List.mem_filter.mp hpair).1)
      | none =>
        have hstay : w ∉ (b.parkedTwins env).map (·.1) := fun hmem => by
          obtain ⟨p, hp, rfl⟩ := List.mem_map.mp hmem
          exact absurd rfl (bne_iff_ne.mp (List.lookup_eq_none_iff.mp hlookup p hp))
        rcases hend with hmem | ⟨r, hr, hne⟩
        · exact .inl ((hactive w).mpr ⟨hmem, hstay⟩)
        · refine .inr ⟨r, ?_, hne⟩
          show (b.enforceFamilies env stamp).archive w = some r
          rw [archive_not_parked hpark hstay, hr, Option.map_some, repoint_other _ hne]

/-! ## Runs -/

theorem Pointed.step (claimNames : List String) (h : Pointed b) (op : BookOp) :
    Pointed (b.step claimNames op) := by
  cases op with
  | approve rows => exact (approve_seatsNew b rows).elim fun _ hs => h.seat hs
  | backfill records reevaluated stamp =>
    exact (backfill_seatsNew claimNames b records reevaluated stamp).elim fun _ hs => h.seat hs
  | ingest i => exact (ingest_seatsNew claimNames b i).elim fun _ hs => h.seat hs
  | retire names stamp => exact h.retire names stamp
  | retireOrphans accounts stamp => exact h.retireOrphans accounts stamp
  | enforce env stamp => exact h.enforce env stamp

theorem Pointed.run (claimNames : List String) (h : Pointed b) (ops : List BookOp) :
    Pointed (ops.foldl (Book.step claimNames) b) :=
  run_inv (C := fun _ _ => True) (fun _ op hb _ => hb.step claimNames op) ops h
    (along_of_forall (fun _ _ => trivial) ops)

/-- A twin may be considered again when its winner is not active any more. -/
theorem Pointed.reconsiderable_iff (h : Pointed b) {n w : String} {row : RetiredRow}
    (hrow : b.archive n = some row) (hrole : row.role = .parkedTwin)
    (hw : row.familyWinner = some w) :
    b.reconsiderable n = true ↔ w ∉ b.pool.map (·.name) := by
  obtain ⟨role, retiredAt, familyWinner⟩ := row
  dsimp only at hrole hw
  subst hrole hw
  unfold Book.reconsiderable
  rw [hrow]
  dsimp only
  obtain ⟨w', hw', hend⟩ := h.oneStep n _ hrow rfl
  cases hw'
  constructor
  · intro hback hmem
    rw [h.apart w hmem] at hback
    cases hback
  · intro hgone
    obtain ⟨old, hold, hne⟩ := hend.resolve_left hgone
    rw [hold]
    exact decide_eq_true hne

end

/-- **Pointers stay one step.** In every state reached by seats, retirements and
parkings, the winner on a parked twin is no parked twin itself; and the names that may
be considered again are just the parked twins whose winner is not active. -/
theorem pointers_one_step (claimNames : List String) (ops : List BookOp) :
    let b := ops.foldl (Book.step claimNames) {}
    (∀ n row, b.archive n = some row → row.role = .parkedTwin →
      ∃ w, row.familyWinner = some w ∧
        ∀ old, b.archive w = some old → old.role ≠ .parkedTwin) ∧
    ∀ n, b.reconsiderable n = true ↔ ∃ row w, b.archive n = some row ∧ row.role = .parkedTwin ∧
      row.familyWinner = some w ∧ w ∉ b.pool.map (·.name) := by
  have h := pointed_start.run claimNames ops
  dsimp only
  generalize ops.foldl (Book.step claimNames) {} = b at h
  refine ⟨fun n row hrow hrole => ?_, fun n => ⟨fun hback => ?_, ?_⟩⟩
  · obtain ⟨w, hw, hend⟩ := h.oneStep n row hrow hrole
    refine ⟨w, hw, fun old hold => ?_⟩
    rcases hend with hmem | ⟨old', hold', hne⟩
    · rw [h.apart w hmem] at hold
      cases hold
    · rw [hold] at hold'
      cases hold'
      exact hne
  · have hshape := hback
    unfold Book.reconsiderable at hshape
    split at hshape
    next retiredAt w heq =>
      exact ⟨_, w, heq, rfl, rfl, (h.reconsiderable_iff heq rfl rfl).mp hback⟩
    next => cases hshape
  · rintro ⟨row, w, hrow, hrole, hw, hgone⟩
    exact (h.reconsiderable_iff hrow hrole hw).mpr hgone

end PaperTrading.Champions
