import PaperTrading.Champions.Archive

/-!
# The family rule

What `enforce_champion_families_unlocked` leaves of a pool with unique names:
`families_enforced`. A twin is deferred, not parked, while its account holds an open
lot, so two active relatives may be left; and `same_family` is asked of the winner
first. An older twin follows its winner's new winner, of whose family it need not
be (`family_rule_limits`).
-/

namespace PaperTrading.Champions

open PaperTrading.Lib

variable {f : Files} {env : FamilyEnv} {stamp : String}

/-- The files after `enforce_champion_families_unlocked`. -/
def Files.enforce (f : Files) (env : FamilyEnv) (stamp : String) : Files :=
  { book := f.book.enforceFamilies env stamp, record := parkRecord f env }

/-- A twin that may not be parked yet: it holds an open lot, and a better active relative
is there. -/
def Deferred (env : FamilyEnv) (pool : List Champion) (r : Champion × Metrics) : Prop :=
  env.openLots r.1.name > 0 ∧
    ∃ w ∈ ranking env pool, rankKey r < rankKey w ∧ sameFamily w.1.name r.1.name = true

/-- What the rule promises of the files it finds and those it leaves. -/
structure Enforced (env : FamilyEnv) (stamp : String) (f f' : Files) : Prop where
  /-- of two ranked active relatives one is deferred -/
  apart : ∀ a ∈ ranking env f'.book.pool, ∀ b ∈ ranking env f'.book.pool, rankKey b < rankKey a →
    sameFamily a.1.name b.1.name = true →
      Deferred env f'.book.pool a ∨ Deferred env f'.book.pool b
  /-- a row that leaves is parked under an active, better row of its family -/
  parked : ∀ c ∈ f.book.pool, c ∉ f'.book.pool →
    ∃ m, ∃ w ∈ ranking env f'.book.pool, championMetrics env c = some m ∧
      rankKey (c, m) < rankKey w ∧ sameFamily w.1.name c.name = true ∧
        f'.book.archive c.name = some
          { role := .parkedTwin, retiredAt := stamp, familyWinner := some w.1.name }
  /-- winners stay, and no row that stays is changed -/
  winners : ∀ w ∈ (planFamilies env f.book.pool).winners, w ∈ f'.book.pool.map (·.name)
  unchanged : f'.book.pool.Sublist f.book.pool
  /-- no row is lost -/
  rows : ∀ c ∈ f.book.pool, c ∈ f'.book.pool ∨ f'.Archived (.champion c)
  /-- and the rule has nothing left to do -/
  again : ∀ stamp', f'.enforce env stamp' = f'

/-! ## The twins it parks -/

theorem filter_or_self {α : Type} (p : α → Bool) (o : Option α) : (o.filter p).or o = o := by
  cases o with
  | none => rfl
  | some a =>
    cases h : p a with
    | true => rw [Option.filter_some_pos h, Option.some_or]
    | false => rw [Option.filter_some_neg h, Option.none_or]

section
variable (hnodup : (f.book.pool.map (·.name)).Nodup)
include hnodup

/-- Relatives with different names share a template, so the cheap exit leaves out no
twin. -/
theorem parkedTwins_eq : f.book.parkedTwins env =
    (planFamilies env f.book.pool).twins.filter fun t => ¬ env.openLots t.1 > 0 := by
  unfold Book.parkedTwins
  dsimp only
  split
  next hexit =>
    symm
    refine List.filter_eq_nil_iff.mpr fun t ht => ?_
    obtain ⟨hnot, hwin, hcov, rt, hrt, rw, hrw, hname, hwname, hlt⟩ :=
      twin_of_plan hnodup (t := t.1) (w := t.2) ht
    have hne : t.2 ≠ t.1 := fun heq => hnot (heq ▸ hwin)
    unfold sameFamily at hcov
    rw [beq_eq_false_iff_ne.mpr hne, Bool.false_or] at hcov
    split at hcov
    next ta pa tb pb ha hb =>
      simp only [Bool.and_eq_true, beq_iff_eq] at hcov
      have hpair := List.pairwise_filterMap.mp hexit
      have : Std.Symm fun a a' : Champion => ∀ b ∈ (familySignature a.name).map (·.1),
          ∀ b' ∈ (familySignature a'.name).map (·.1), b ≠ b' :=
        ⟨fun a a' h b hb b' hb' heq => h b' hb' b hb heq.symm⟩
      have hrows : rw.1 ≠ rt.1 := fun heq => hne (hwname ▸ hname ▸ congrArg Champion.name heq)
      refine absurd hcov.1.1 (hpair.forall (mem_ranking.mp hrw).1 (mem_ranking.mp hrt).1 hrows
        ta ?_ tb ?_)
      · rw [hwname, ha]
        rfl
      · rw [hname, hb]
        rfl
    next => cases hcov
  next => rfl

theorem mem_parked {n : String} : n ∈ (f.book.parkedTwins env).map (·.1) ↔
    ¬ env.openLots n > 0 ∧ ∃ w, (n, w) ∈ (planFamilies env f.book.pool).twins := by
  rw [parkedTwins_eq hnodup, List.mem_map]
  constructor
  · rintro ⟨t, ht, rfl⟩
    exact ⟨of_decide_eq_true (List.mem_filter.mp ht).2, t.2, (List.mem_filter.mp ht).1⟩
  · rintro ⟨hlots, w, hw⟩
    exact ⟨(n, w), List.mem_filter.mpr ⟨hw, decide_eq_true hlots⟩, rfl⟩

theorem winner_not_parked {w : String} (hw : w ∈ (planFamilies env f.book.pool).winners) :
    w ∉ (f.book.parkedTwins env).map (·.1) := fun h => by
  obtain ⟨-, w', hw'⟩ := (mem_parked hnodup).mp h
  exact (twin_of_plan hnodup hw').1 hw

/-- With unique names each row keeps its own date. -/
theorem stamped_self {c : Champion} (hc : c ∈ f.book.pool) : f.book.stamped c = c := by
  have hfind : (f.book.pool.reverse.find? fun prev => prev.name = c.name) = some c := by
    cases h : f.book.pool.reverse.find? fun prev => prev.name = c.name with
    | none =>
      have := List.find?_eq_none.mp h c (List.mem_reverse.mpr hc)
      simp at this
    | some d =>
      have hd : d ∈ f.book.pool := List.mem_reverse.mp (List.mem_of_find?_eq_some h)
      have hname : d.name = c.name := of_decide_eq_true (List.find?_some h :)
      rw [List.inj_on_of_nodup_map hnodup hd hc hname]
  unfold Book.stamped Book.sinceOf
  rw [hfind, Option.bind_some, filter_or_self]

theorem enforce_pool : (f.enforce env stamp).book.pool =
    f.book.pool.filter fun c => c.name ∉ (f.book.parkedTwins env).map (·.1) := by
  show (f.book.enforceFamilies env stamp).pool = _
  rw [park_pool]
  split
  next h =>
    rw [h]
    exact (List.filter_eq_self.mpr fun c _ => by simp).symm
  next =>
    rw [savePool_pool]
    refine (List.map_congr_left fun c hc => ?_).trans (List.map_id _)
    exact stamped_self hnodup (List.mem_of_mem_filter hc)

/-- The plan of what is left: the same winners, and the twins that are deferred. -/
theorem plan_enforced : planFamilies env (f.enforce env stamp).book.pool =
    { winners := (planFamilies env f.book.pool).winners
      twins := (planFamilies env f.book.pool).twins.filter fun t => env.openLots t.1 > 0 } := by
  rw [enforce_pool hnodup]
  have hplan := planFamilies_filter env hnodup
    (fun n => decide (n ∉ (f.book.parkedTwins env).map (·.1)))
    fun w hw => decide_eq_true (winner_not_parked hnodup hw)
  refine hplan.trans ?_
  congr 1
  refine List.filter_congr fun t ht => ?_
  rw [decide_eq_decide, mem_parked hnodup]
  constructor
  · intro h
    by_contra hlots
    exact h ⟨hlots, t.2, ht⟩
  · exact fun hlots h => h.1 hlots

theorem enforce_names_nodup : ((f.enforce env stamp).book.pool.map (·.name)).Nodup := by
  rw [enforce_pool hnodup]
  exact hnodup.sublist (List.filter_sublist.map _)

variable (env stamp) in
theorem parkedTwins_enforced : (f.enforce env stamp).book.parkedTwins env = [] := by
  rw [parkedTwins_eq (enforce_names_nodup hnodup), plan_enforced hnodup, List.filter_filter]
  refine List.filter_eq_nil_iff.mpr fun t _ => ?_
  simp

/-- Who is ranked before is ranked after, unless it was parked. -/
theorem mem_ranking_enforced {r : Champion × Metrics} :
    r ∈ ranking env (f.enforce env stamp).book.pool ↔
      r ∈ ranking env f.book.pool ∧ r.1.name ∉ (f.book.parkedTwins env).map (·.1) := by
  rw [enforce_pool hnodup, mem_ranking, mem_ranking, List.mem_filter, decide_eq_true_eq]
  tauto

end

/-! ## The pointers it writes -/

theorem foldl_update_of_not_mem {α β : Type} [DecidableEq α] (row : α × α → β) :
    ∀ (l : List (α × α)) (a : α → Option β) {n : α}, n ∉ l.map (·.1) →
      l.foldl (fun (a : α → Option β) t => Function.update a t.1 (some (row t))) a n = a n := by
  intro l
  induction l with
  | nil => intro a n _; rfl
  | cons t l ih =>
    intro a n hn
    rw [List.map_cons, List.mem_cons, not_or] at hn
    rw [List.foldl_cons, ih _ hn.2, Function.update_of_ne hn.1]

/-- A key that is updated has the value of one of its pairs. -/
theorem foldl_update_mem {α β : Type} [DecidableEq α] (row : α × α → β) :
    ∀ (l : List (α × α)) (a : α → Option β) {n : α}, n ∈ l.map (·.1) →
      ∃ t ∈ l, t.1 = n ∧
        l.foldl (fun (a : α → Option β) t => Function.update a t.1 (some (row t))) a n =
          some (row t) := by
  intro l
  induction l with
  | nil => intro a n hn; cases hn
  | cons t l ih =>
    intro a n hn
    rw [List.foldl_cons]
    by_cases hl : n ∈ l.map (·.1)
    · obtain ⟨u, hu, hname, heq⟩ := ih (Function.update a t.1 (some (row t))) hl
      exact ⟨u, List.mem_cons_of_mem _ hu, hname, heq⟩
    · have htn : n = t.1 := (List.mem_cons.mp hn).resolve_right hl
      refine ⟨t, List.mem_cons_self, htn.symm, ?_⟩
      rw [foldl_update_of_not_mem row l _ hl, htn, Function.update_self]

section
variable (hnodup : (f.book.pool.map (·.name)).Nodup)
include hnodup

variable (stamp) in
/-- A parked name points at its winner. -/
theorem archive_parked {n : String} (hn : n ∈ (f.book.parkedTwins env).map (·.1)) :
    ∃ w, (n, w) ∈ (planFamilies env f.book.pool).twins ∧
      (f.enforce env stamp).book.archive n =
        some { role := .parkedTwin, retiredAt := stamp, familyWinner := some w } := by
  show ∃ w, _ ∧ (f.book.enforceFamilies env stamp).archive n = _
  unfold Book.enforceFamilies
  dsimp only
  split
  next hempty =>
    rw [List.isEmpty_iff.mp hempty] at hn
    cases hn
  next =>
    obtain ⟨t, ht, rfl, hrow⟩ := foldl_update_mem
      (fun t => ({ role := .parkedTwin, retiredAt := stamp, familyWinner := some t.2 } : RetiredRow))
      (f.book.parkedTwins env) f.book.archive hn
    have htwin : (t.1, t.2) ∈ (planFamilies env f.book.pool).twins := by
      rw [parkedTwins_eq hnodup] at ht
      exact (List.mem_filter.mp ht).1
    refine ⟨t.2, htwin, ?_⟩
    -- its winner stays, so the new pointer is not moved
    have hnone : (f.book.parkedTwins env).lookup t.2 = none := by
      refine List.lookup_eq_none_iff.mpr fun p hp => ?_
      refine bne_iff_ne.mpr fun heq => ?_
      exact winner_not_parked hnodup (twin_of_plan hnodup htwin).2.1
        (heq ▸ List.mem_map_of_mem hp)
    dsimp only
    rw [hrow, Option.map_some, Book.repoint]
    simp only [Option.bind_some, hnone]

end

/-! ## The rule -/

/-- **The family rule**, on every pool with unique names and every ranking. -/
theorem families_enforced (f : Files) (env : FamilyEnv) (stamp : String)
    (hnodup : (f.book.pool.map (·.name)).Nodup) :
    Enforced env stamp f (f.enforce env stamp) where
  apart := fun a ha b hb hlt hfam => by
    have hsplit : ∀ r ∈ ranking env (f.enforce env stamp).book.pool,
        r.1.name ∈ (planFamilies env f.book.pool).winners ∨
          Deferred env (f.enforce env stamp).book.pool r := by
      intro r hr
      obtain ⟨hrank, hstay⟩ := (mem_ranking_enforced hnodup).mp hr
      rcases winner_or_twin hrank with hwin | ⟨w, hw⟩
      · exact .inl hwin
      · right
        have hlots : env.openLots r.1.name > 0 := by
          by_contra hno
          exact hstay ((mem_parked hnodup).mpr ⟨hno, w, hw⟩)
        obtain ⟨-, hwin, hcov, rt, hrt, rw, hrw, hname, rfl, hlt⟩ := twin_of_plan hnodup hw
        have hsame : rt = r := List.inj_on_of_nodup_map (names_ranking_nodup hnodup) hrt hrank hname
        exact ⟨hlots, rw, (mem_ranking_enforced hnodup).mpr
          ⟨hrw, winner_not_parked hnodup hwin⟩, hsame ▸ hlt, hcov⟩
    rcases hsplit a ha with hwa | hda
    · rcases hsplit b hb with hwb | hdb
      · rw [winners_apart hnodup ((mem_ranking_enforced hnodup).mp ha).1
          ((mem_ranking_enforced hnodup).mp hb).1 hwa hwb hlt] at hfam
        cases hfam
      · exact .inr hdb
    · exact .inl hda
  parked := fun c hc hgone => by
    have hpark : c.name ∈ (f.book.parkedTwins env).map (·.1) := by
      by_contra hno
      refine hgone ?_
      rw [enforce_pool hnodup]
      exact List.mem_filter.mpr ⟨hc, decide_eq_true hno⟩
    obtain ⟨w, hw, harchive⟩ := archive_parked stamp hnodup hpark
    obtain ⟨-, hwin, hcov, rt, hrt, rw, hrw, hname, rfl, hlt⟩ := twin_of_plan hnodup hw
    obtain ⟨hmem, hmetrics⟩ := mem_ranking.mp hrt
    obtain rfl : rt.1 = c := List.inj_on_of_nodup_map hnodup hmem hc hname
    exact ⟨rt.2, rw, (mem_ranking_enforced hnodup).mpr ⟨hrw, winner_not_parked hnodup hwin⟩,
      hmetrics, hlt, hcov, harchive⟩
  winners := fun w hw => by
    rw [planFamilies_eq] at hw
    obtain ⟨r, hr, rfl⟩ := List.mem_map.mp ((leaders_sublist _ _).mem hw)
    rw [enforce_pool hnodup]
    refine List.mem_map.mpr ⟨r.1, List.mem_filter.mpr ⟨(mem_ranking.mp hr).1, ?_⟩, rfl⟩
    refine decide_eq_true (winner_not_parked hnodup ?_)
    rw [planFamilies_eq]
    exact hw
  unchanged := by
    rw [enforce_pool hnodup]
    exact List.filter_sublist
  rows := fun c hc => by
    by_cases hpark : c.name ∈ (f.book.parkedTwins env).map (·.1)
    · obtain ⟨d, hd, hname, harch, -⟩ := archived_park hpark (f := f)
        (show (f.enforce env stamp).book.archive = _ from rfl) rfl
      rw [List.inj_on_of_nodup_map hnodup hd hc hname] at harch
      exact .inr harch
    · rw [enforce_pool hnodup]
      exact .inl (List.mem_filter.mpr ⟨hc, decide_eq_true hpark⟩)
  again := fun stamp' => by
    have hnone := parkedTwins_enforced env stamp hnodup
    generalize f.enforce env stamp = f' at hnone ⊢
    have hbook : f'.book.enforceFamilies env stamp' = f'.book := by
      unfold Book.enforceFamilies
      dsimp only
      rw [hnone]
      exact if_pos rfl
    have hrecord : parkRecord f' env = f'.record := by
      funext n
      unfold parkRecord
      rw [hnone]
      exact if_neg List.not_mem_nil
    unfold Files.enforce
    rw [hbook, hrecord]

/-- A row with a stored verdict. -/
def rated (name : String) (dailySharpe : ℚ) : Champion :=
  { name := name, qual := some { dailySharpe := dailySharpe, sharpe := none, testPnl := none } }

theorem families_enforced_two : Enforced { lookup := fun _ => none, openLots := fun _ => 0 } "now"
    { book := { pool := [rated "ema_abv_130" 1, rated "ema_abv_140" 2] } }
    (Files.enforce { book := { pool := [rated "ema_abv_130" 1, rated "ema_abv_140" 2] } }
      { lookup := fun _ => none, openLots := fun _ => 0 } "now") :=
  families_enforced _ _ _ (by decide +kernel)

/-- What the rule does not promise. A twin with an open lot stays beside its winner. The
relation is not symmetric, and a winner is never tested against a better row. And an
older twin follows its winner to a row that is not of its family. -/
theorem family_rule_limits :
    ((Book.enforceFamilies { pool := [rated "ema_abv_130" 1, rated "ema_abv_140" 2] }
        { lookup := fun _ => none, openLots := fun n => if n = "ema_abv_130" then 1 else 0 }
        "now").pool.map (·.name) = ["ema_abv_130", "ema_abv_140"] ∧
      sameFamily "ema_abv_140" "ema_abv_130" = true) ∧
    ((Book.enforceFamilies { pool := [rated "xN<5" 2, rated "x6<N" 1] }
        { lookup := fun _ => none, openLots := fun _ => 0 } "now").pool.map (·.name) =
        ["xN<5", "x6<N"] ∧ sameFamily "x6<N" "xN<5" = true) ∧
    ((Book.enforceFamilies
        { pool := [rated "ema_abv_150" 1, rated "ema_abv_180" 2]
          archive := fun n => if n = "ema_abv_120" then
            some { role := .parkedTwin, retiredAt := "then", familyWinner := some "ema_abv_150" }
            else none }
        { lookup := fun _ => none, openLots := fun _ => 0 } "now").archive "ema_abv_120" =
        some { role := .parkedTwin, retiredAt := "then", familyWinner := some "ema_abv_180" } ∧
      sameFamily "ema_abv_180" "ema_abv_120" = false) := by
  decide +kernel

end PaperTrading.Champions
