import Mathlib.Data.Finset.Filter
import Mathlib.Data.Finset.Lattice.Lemmas
import PaperTrading.Lib.SharedDocument
import PaperTrading.Champions.Pool

/-!
# Concurrent writers of the champion pool

An ingest reads the pool in its first section and writes it back in its last,
each under the lock; `promote_candidates` does the same without it. Every other
writer reads and writes in one section, the family rule at the end of an ingest
among them. `poolDocument` is this as a document with whole-document writes,
seen as the set of names in the pool: seats add names, removals take them away.

`no_lost_champion_run` says when no update is lost: whoever writes a pool it
had loaded earlier finds the names it loaded.
-/

namespace PaperTrading.Champions

open PaperTrading.Lib

/-- The writers that load the pool first and save it later. -/
inductive SeatOp where
  | ingest (i : Ingest)
  | promote (candidates : List String) (stamp : String)

/-- The writers that do both in one section. -/
inductive PoolOp where
  | retain (keep : List String)
  | cullUndated
  | retire (names : List String) (stamp : String)
  | enforce (env : FamilyEnv) (stamp : String)
  | collect (results : String → List ℚ) (since : String → Option String)
  | backfill (records : List EvalRow) (reevaluated : List String) (stamp : String)

/-! ## The names an operation adds and removes -/

theorem names_savePool (b : Book) (st : List Champion) :
    (b.savePool st).pool.map (·.name) = st.map (·.name) := by
  unfold Book.savePool
  rw [List.map_map]
  rfl

theorem poolNames_savePool (b : Book) (st : List Champion) :
    (b.savePool st).poolNames = (st.map (·.name)).toFinset := by
  unfold Book.poolNames
  rw [names_savePool]

theorem poolNames_filter (pool : List Champion) (p : String → Prop) [DecidablePred p] :
    ((pool.filter fun c => p c.name).map (·.name)).toFinset =
      ((pool.map (·.name)).toFinset).filter p := by
  ext n
  simp only [List.mem_toFinset, List.mem_map, List.mem_filter, Finset.mem_filter,
    decide_eq_true_eq]
  constructor
  · rintro ⟨c, ⟨hc, hp⟩, rfl⟩
    exact ⟨⟨c, hc, rfl⟩, hp⟩
  · rintro ⟨⟨c, hc, rfl⟩, hp⟩
    exact ⟨c, ⟨hc, hp⟩, rfl⟩

/-- The seating has appended the names it admitted, and no other. -/
def Seating.Named (names : List String) (s : Seating) : Prop :=
  s.st.map (·.name) = names ++ s.admitted

theorem Seating.Named.admitRow {names : List String} {s : Seating} (h : s.Named names)
    (row : Champion) : (s.admitRow row).Named names := by
  unfold Named Seating.admitRow at *
  rw [List.map_append, h, List.append_assoc]
  rfl

theorem named_library {names : List String} {s : Seating} (h : s.Named names)
    (claimNames graduated : List String) (reevaluated : String → Bool) (stamp : String)
    (r : EvalRow) : (s.library claimNames graduated reevaluated stamp r).Named names := by
  unfold Seating.library
  dsimp only
  split
  · exact h
  split
  · exact h
  split
  · exact h
  have hforget : (s.forget r.strategy).Named names := by
    unfold Seating.forget
    split <;> exact h
  split
  · exact hforget
  · exact hforget.admitRow { rowOf r with admittedAt := some stamp, championSince := some stamp }

theorem named_force {names : List String} {s : Seating} (h : s.Named names)
    (log : List EvalRow) (name : String) : (s.force log name).Named names := by
  unfold Seating.force
  split
  · exact h
  split
  · exact h
  · exact h.admitRow _

/-- An ingest seats into the pool it loaded. -/
theorem seats_named (claimNames : List String) (i : Ingest) (copy cell : Book) :
    (Book.seats claimNames i copy cell).Named (copy.pool.map (·.name)) := by
  unfold Book.seats
  refine List.foldlRecOn _ _ (List.foldlRecOn _ _ ?_ ?_) ?_
  · unfold Seating.Named
    exact (List.append_nil _).symm
  · exact fun s hs r _ => named_library hs _ _ _ _ r
  · exact fun s hs name _ => named_force hs _ name

theorem promotions_named (copy cell : Book) (candidates : List String) (stamp : String) :
    (Book.promotions copy cell candidates stamp).Named (copy.pool.map (·.name)) := by
  unfold Book.promotions
  refine List.foldlRecOn _ _ ?_ ?_
  · unfold Seating.Named
    exact (List.append_nil _).symm
  · intro s hs name _
    split
    · exact hs
    · exact hs.admitRow _

/-! ## The pool as a document -/

/-- What a load-and-save writer leaves. -/
def SeatOp.store (claimNames : List String) : SeatOp → Book → Book → Book
  | .ingest i => Book.seatIngest claimNames i
  | .promote candidates stamp => Book.promote candidates stamp

/-- The names it seats. -/
def SeatOp.admitted (claimNames : List String) (copy cell : Book) : SeatOp → List String
  | .ingest i => (Book.seats claimNames i copy cell).admitted
  | .promote candidates stamp => (Book.promotions copy cell candidates stamp).admitted

/-- The names a backfill seats. -/
def backfilled (claimNames : List String) (b : Book) (records : List EvalRow)
    (reevaluated : List String) (stamp : String) : List String :=
  (Book.backfillSeats claimNames b records reevaluated stamp).admitted

/-- The names whose rows all graduate. -/
def graduatedNow (b : Book) (results : String → List ℚ) : Finset String :=
  b.poolNames \ (((Book.countResults results b.pool).filter fun c =>
    ¬ c.closed ≥ TRADE_EVALUATION_LIMIT).map (·.name)).toFinset

/-- What a writer that holds the lock throughout leaves. -/
def PoolOp.apply (claimNames : List String) : PoolOp → Book → Book
  | .retain keep, b => b.retain keep
  | .cullUndated, b => b.cullUndated
  | .retire names stamp, b => b.retireNames names stamp
  | .enforce env stamp, b => b.enforceFamilies env stamp
  | .collect results since, b => b.collectResults results since
  | .backfill records reevaluated stamp, b => b.backfill claimNames records reevaluated stamp

/-- What it does to the names in the pool. -/
def PoolOp.change (claimNames : List String) : PoolOp → Book → Finset String → Finset String
  | .retain keep, _, v => v.filter (· ∈ keep)
  | .cullUndated, b, v => v.filter (· ∈ (b.pool.filter Book.hasSince).map (·.name))
  | .retire names _, _, v => v.filter (· ∉ names)
  | .enforce env _, b, v => v.filter (· ∉ (b.parkedTwins env).map (·.1))
  | .collect results _, b, v => v \ graduatedNow b results
  | .backfill records reevaluated stamp, b, v =>
    v ∪ (backfilled claimNames b records reevaluated stamp).toFinset

theorem backfill_named (claimNames : List String) (b : Book) (records : List EvalRow)
    (reevaluated : List String) (stamp : String) :
    (Book.backfillSeats claimNames b records reevaluated stamp).Named (b.pool.map (·.name)) := by
  unfold Book.backfillSeats
  refine List.foldlRecOn _ _ ?_ ?_
  · unfold Seating.Named
    exact (List.append_nil _).symm
  · exact fun s hs r _ => named_library hs _ _ _ _ r

theorem poolNames_retire (b : Book) (names : List String) (stamp : String) :
    (b.retireNames names stamp).poolNames = b.poolNames.filter (· ∉ names) := by
  have hkept := poolNames_filter b.pool fun n => n ∉ names
  unfold Book.retireNames
  dsimp only
  split
  · show (b.savePool _).poolNames = _
    rw [poolNames_savePool]
    exact hkept
  · next hlen =>
    -- No row was dropped, so no pooled name is retired.
    have hself : (b.pool.filter fun c => decide (c.name ∉ names)) = b.pool :=
      List.filter_sublist.eq_of_length_le (by omega)
    rw [hself] at hkept
    exact hkept

theorem poolNames_enforce (b : Book) (env : FamilyEnv) (stamp : String) :
    (b.enforceFamilies env stamp).poolNames =
      b.poolNames.filter (· ∉ (b.parkedTwins env).map (·.1)) := by
  unfold Book.enforceFamilies
  dsimp only
  split
  · next h =>
    rw [List.isEmpty_iff.mp h]
    simp
  · show (b.savePool _).poolNames = _
    rw [poolNames_savePool]
    exact poolNames_filter b.pool fun n => n ∉ (b.parkedTwins env).map (·.1)

theorem names_countResults (results : String → List ℚ) (pool : List Champion) :
    (Book.countResults results pool).map (·.name) = pool.map (·.name) := by
  induction pool with
  | nil => rfl
  | cons c cs ih =>
    unfold Book.countResults
    rw [List.map_cons, List.map_cons, ih]
    split <;> rfl

theorem poolNames_collect (b : Book) (results : String → List ℚ)
    (since : String → Option String) :
    (b.collectResults results since).poolNames = b.poolNames \ graduatedNow b results := by
  have hsub : (((Book.countResults results b.pool).filter fun c =>
      ¬ c.closed ≥ TRADE_EVALUATION_LIMIT).map (·.name)).toFinset ⊆ b.poolNames := by
    intro n hn
    rw [List.mem_toFinset] at hn
    have := (List.filter_sublist.map (fun c : Champion => c.name)).subset hn
    rw [names_countResults] at this
    exact List.mem_toFinset.mpr this
  unfold graduatedNow
  rw [Finset.sdiff_sdiff_eq_self hsub]
  show (b.savePool _).poolNames = _
  rw [poolNames_savePool, List.map_map]
  rfl

theorem poolNames_atomic (claimNames : List String) (op : PoolOp) (b : Book) :
    (op.apply claimNames b).poolNames = op.change claimNames b b.poolNames := by
  cases op with
  | retain keep =>
    show (b.savePool _).poolNames = _
    rw [poolNames_savePool]
    exact poolNames_filter b.pool fun n => n ∈ keep
  | cullUndated =>
    show (b.savePool _).poolNames = _
    rw [poolNames_savePool]
    exact poolNames_filter b.pool fun n => n ∈ (b.pool.filter Book.hasSince).map (·.name)
  | retire names stamp => exact poolNames_retire b names stamp
  | enforce env stamp => exact poolNames_enforce b env stamp
  | collect results since => exact poolNames_collect b results since
  | backfill records reevaluated stamp =>
    have hnamed := backfill_named claimNames b records reevaluated stamp
    unfold Seating.Named at hnamed
    show (b.backfill claimNames records reevaluated stamp).poolNames = b.poolNames ∪
      (Book.backfillSeats claimNames b records reevaluated stamp).admitted.toFinset
    unfold Book.backfill
    dsimp only
    split
    · next h =>
      rw [h]
      simp
    · show (b.savePool _).poolNames = _
      rw [poolNames_savePool, hnamed, List.toFinset_append]
      rfl

/-- A load-and-save writer that seats someone leaves the names it loaded and
its seats. -/
theorem poolNames_store (claimNames : List String) (op : SeatOp) {copy cell : Book}
    (h : op.admitted claimNames copy cell ≠ []) :
    (op.store claimNames copy cell).poolNames =
      copy.poolNames ∪ (op.admitted claimNames copy cell).toFinset := by
  cases op with
  | ingest i =>
    have hnamed := seats_named claimNames i copy cell
    unfold Seating.Named at hnamed
    have hsaved : Book.seatIngest claimNames i copy cell = _ := if_neg h
    show (Book.seatIngest claimNames i copy cell).poolNames = _
    rw [hsaved]
    show (cell.savePool _).poolNames = _
    rw [poolNames_savePool, hnamed, List.toFinset_append]
    rfl
  | promote candidates stamp =>
    have hnamed := promotions_named copy cell candidates stamp
    unfold Seating.Named at hnamed
    have hsaved : Book.promote candidates stamp copy cell = _ := if_neg h
    show (Book.promote candidates stamp copy cell).poolNames = _
    rw [hsaved, poolNames_savePool, hnamed, List.toFinset_append]
    rfl

theorem store_of_none (claimNames : List String) (op : SeatOp) {copy cell : Book}
    (h : op.admitted claimNames copy cell = []) : op.store claimNames copy cell = cell := by
  cases op with
  | ingest i => exact if_pos h
  | promote candidates stamp => exact if_pos h

/-- `champions.json` as the document its writers share, seen as the names in
it. -/
def poolDocument (claimNames : List String) : Discipline SeatOp PoolOp Book (Finset String) where
  Good _ := True
  view := Book.poolNames
  store := SeatOp.store claimNames
  Saves op copy cell := op.admitted claimNames copy cell ≠ []
  change op copy cell v := v ∪ (op.admitted claimNames copy cell).toFinset
  view_saves _ _ h := poolNames_store claimNames _ h
  view_skips _ _ h := congrArg Book.poolNames (store_of_none claimNames _ (Classical.not_not.mp h))
  good_store _ _ _ _ _ := trivial
  atomic := PoolOp.apply claimNames
  atomicChange := PoolOp.change claimNames
  view_atomic op cell _ := poolNames_atomic claimNames op cell
  good_atomic _ _ _ := trivial

/-! ## When no update is lost -/

/-- The pool, the copies and the expected names before any writer has run. -/
def poolStart (b : Book) : Shared ℕ Book (Finset String) :=
  { cell := b, held := fun _ => b, expected := b.poolNames }

/-- A writer that saves a pool it loaded finds the names it loaded. -/
def SamePool (claimNames : List String) (s : Shared ℕ Book (Finset String)) :
    Access ℕ SeatOp PoolOp → Prop
  | .store i op => op.admitted claimNames (s.held i) s.cell ≠ [] →
      (s.held i).poolNames = s.cell.poolNames
  | _ => True

/-- Exactly when the pool shows every seat and every removal: each writer that
saves a pool it loaded would leave the same names from the pool it finds. -/
theorem pool_reflects_iff (claimNames : List String) (b : Book)
    (accs : List (Access ℕ SeatOp PoolOp)) :
    Along (poolDocument claimNames).step (poolDocument claimNames).Reflects (poolStart b) accs ↔
      Along (poolDocument claimNames).step (poolDocument claimNames).Fits (poolStart b) accs :=
  (poolDocument claimNames).reflects_iff accs ((poolDocument claimNames).sound_start trivial)

theorem samePool_fits {claimNames : List String} {s : Shared ℕ Book (Finset String)}
    {acc : Access ℕ SeatOp PoolOp} (h : SamePool claimNames s acc) :
    (poolDocument claimNames).Fits s acc := by
  cases acc with
  | load i => exact trivial
  | atomic op => exact trivial
  | store i op =>
    refine ⟨fun hsaves => ?_, fun hskips => ?_⟩
    · show (s.held i).poolNames ∪ _ = s.cell.poolNames ∪ _
      rw [h hsaves]
    · show s.cell.poolNames ∪ (op.admitted claimNames (s.held i) s.cell).toFinset = _
      rw [Classical.not_not.mp hskips]
      exact Finset.union_empty _

/-- **No lost champion.** Any number of ingests, promotions and other writers
of the pool, in any order of their sections: if every ingest or promotion that
seats someone finds the names it loaded, then after every step the pool holds
the first names with every seat added and every removal taken away, in the
order they were made. -/
theorem no_lost_champion_run (claimNames : List String) (b : Book)
    (accs : List (Access ℕ SeatOp PoolOp))
    (h : Along (poolDocument claimNames).step (SamePool claimNames) (poolStart b) accs) :
    Along (poolDocument claimNames).step (poolDocument claimNames).Reflects (poolStart b) accs := by
  refine along_of_inv (I := (poolDocument claimNames).Sound) ?_ accs
    ((poolDocument claimNames).sound_start trivial) h
  intro s acc hs hacc
  exact ⟨((poolDocument claimNames).reflects_step hs acc).mpr (samePool_fits hacc),
    (poolDocument claimNames).sound_step hs (samePool_fits hacc)⟩

/-- A library pass. -/
def libraryPass (name : String) : EvalRow :=
  { strategy := name, qualified := true, testedAt := "2026-11-01T16:05:00+00:00"
    gate := some { passed := true, rules := GATE_RULES }, library := true }

/-- An ingest seats a pass; then the pool is culled by name, and a second
ingest that loaded it afterwards seats another. -/
theorem no_lost_champion_run_seats :
    Along (poolDocument ["lib.rsi2", "lib.sma200"]).step
      (poolDocument ["lib.rsi2", "lib.sma200"]).Reflects (poolStart {})
      [.load 0, .store 0 (.ingest { written := [libraryPass "lib.rsi2"] }), .atomic (.retain []),
        .load 1, .store 1 (.ingest { written := [libraryPass "lib.sma200"] })] :=
  no_lost_champion_run _ _ _
    ⟨trivial, fun _ => rfl, trivial, trivial, fun _ => by decide +kernel, trivial⟩

/-- Two ingests load the pool; the first seats `lib.rsi2`, a keep-list drops
everyone else, and the second seats `lib.sma200` into the pool it had loaded:
`lib.rsi2` is gone, and the dropped `sma_stack` is back. -/
theorem ingest_pair_loses :
    ¬ Along (poolDocument ["lib.rsi2", "lib.sma200"]).step
      (poolDocument ["lib.rsi2", "lib.sma200"]).Reflects
      (poolStart { pool := [{ name := "sma_stack" }] })
      [.load 0, .load 1, .store 0 (.ingest { written := [libraryPass "lib.rsi2"] }),
        .atomic (.retain ["lib.rsi2"]),
        .store 1 (.ingest { written := [libraryPass "lib.sma200"] })] := by
  rintro ⟨-, -, -, -, h, -⟩
  exact absurd h (by unfold Discipline.Reflects; decide +kernel)

end PaperTrading.Champions
