import Mathlib.Algebra.Order.Ring.Rat
import Mathlib.Data.List.Lex
import Mathlib.Data.List.Pairwise
import Mathlib.Data.List.Sort
import Mathlib.Data.Prod.Lex
import Mathlib.Order.WithBot
import PaperTrading.Lib.LastByKey
import PaperTrading.Lib.Leaders

/-!
# The plan of a pool

`rankCompare` is the comparison of `rank_key` tuples (`rankCompare_eq`), so with
unique names the ranking is strictly sorted and depends on the rows alone
(`ranking_filter`). On it `plan_families` is the choice of leaders of
`Lib/Leaders`, with `same_family` in the direction winner first
(`winners_eq`, `twins_eq`).
-/

/-!
## One champion per family

`trading/families.py`: two names are of one family when they have the same
template, the same thresholds, and periods within `FAMILY_PARAM_TOL` of each
other. `planFamilies` ranks a pool and keeps the best of every family;
`enforceFamilies` parks the others, unless they hold an open lot.

Names are ASCII. `lookup` and `openLots` are the parameters the source gives
them: the stored verdict of a name and the open lots of its account.
-/

namespace PaperTrading.Champions

/-- `FAMILY_PARAM_TOL` -/
def FAMILY_PARAM_TOL : ℚ := 20 / 100

/-! ### Signatures -/

/-- `str.strip` -/
def strip (s : List Char) : List Char :=
  ((s.dropWhile (·.isWhitespace)).reverse.dropWhile (·.isWhitespace)).reverse

/-- `[a.strip() for a in name.split("&") if a.strip()]`, sorted. -/
def sortedAtoms (name : String) : List (List Char) :=
  (((name.toList.splitOn '&').map strip).filter (· ≠ [])).insertionSort fun a b => ¬ b < a

/-- The match of `^h\d+_` at the front of an atom, and the rest. -/
def timeframeHead (atom : List Char) : List Char × List Char :=
  match atom with
  | 'h' :: rest =>
    let digits := rest.takeWhile (·.isDigit)
    match digits, rest.dropWhile (·.isDigit) with
    | _ :: _, '_' :: body => ('h' :: digits ++ ['_'], body)
    | _, _ => ([], atom)
  | _ => ([], atom)

/-- `before in "<>"`. The empty string in front of the first character is in
every string. -/
def beforeExact : Option Char → Bool
  | none => true
  | some c => c = '<' ∨ c = '>'

/-- The numbers of an atom's body, each with its `exact` mark, and the body
with every number replaced by `N`. `number` is the number being read. -/
def scanNumbers (before : Option Char) (number : Option (ℕ × Bool)) :
    List Char → List (ℕ × Bool) × List Char
  | [] =>
    match number with
    | none => ([], [])
    | some p => ([p], ['N'])
  | c :: cs =>
    if c.isDigit then
      let digit := c.toNat - '0'.toNat
      let number := match number with
        | none => (digit, beforeExact before)
        | some (value, exact) => (10 * value + digit, exact)
      scanNumbers (some c) (some number) cs
    else
      let rest := scanNumbers (some c) none cs
      match number with
      | none => (rest.1, c :: rest.2)
      | some (value, exact) =>
        ((value, exact || ['p', 'c'].isPrefixOf (c :: cs)) :: rest.1, 'N' :: c :: rest.2)

/-- `family_signature`: the template and the parameters. -/
def familySignature (name : String) : Option (List Char × List (ℕ × Bool)) :=
  if strip name.toList = [] then none
  else
    let atoms := (sortedAtoms name).map fun atom =>
      let (head, body) := timeframeHead atom
      let (params, shape) := scanNumbers none none body
      (params, head ++ shape)
    some (['&'].intercalate (atoms.map (·.2)), atoms.flatMap (·.1))

/-- Two parameters are close enough; the mark of the first one decides. -/
def sameParam (tol : ℚ) (a b : ℕ × Bool) : Bool :=
  if a.2 then a.1 = b.1
  else ¬ |(a.1 : ℚ) - b.1| > tol * (max a.1 b.1 : ℕ)

/-- `same_family` -/
def sameFamily (a b : String) (tol : ℚ := FAMILY_PARAM_TOL) : Bool :=
  a == b ||
    match familySignature a, familySignature b with
    | some (ta, pa), some (tb, pb) =>
      ta == tb && pa.length == pb.length && (List.zip pa pb).all fun p => sameParam tol p.1 p.2
    | _, _ => false

example : sameFamily "dip_204b_lt8pc&h4_ema_abv_150" "h4_ema_abv_130 & dip_222b_lt8pc" = true := by
  decide +kernel

/-! ### Ranking -/

/-- The ranking fields of a verdict under the current gate. -/
structure Metrics where
  dailySharpe : ℚ
  sharpe : Option ℚ
  testPnl : Option ℚ
deriving DecidableEq, Repr

/-- A row of `champions.json`. `qual` stands for the verdict stored on it. -/
structure Champion where
  name : String
  closed : ℕ := 0
  pnl : ℚ := 0
  wins : ℕ := 0
  admittedAt : Option String := none
  championSince : Option String := none
  qual : Option Metrics := none
deriving DecidableEq, Repr

/-- What the family rule reads besides the pool. -/
structure FamilyEnv where
  lookup : String → Option Metrics
  openLots : String → ℕ

/-- `champion_metrics` -/
def championMetrics (env : FamilyEnv) (row : Champion) : Option Metrics :=
  row.qual.or (env.lookup row.name)

/-- `_num` compared: a missing number is minus infinity. -/
def compareNum : Option ℚ → Option ℚ → Ordering
  | none, none => .eq
  | none, some _ => .lt
  | some _, none => .gt
  | some x, some y => compareOfLessAndEq x y

/-- `tuple(-ord(ch) for ch in s)` -/
def negatedOrds (s : String) : List ℤ := s.toList.map fun c => -(c.toNat : ℤ)

/-- `rank_key`, compared. -/
def rankCompare (a b : Champion × Metrics) : Ordering :=
  let admitted (c : Champion) := (c.admittedAt.or c.championSince).getD ""
  (compareNum (some a.2.dailySharpe) (some b.2.dailySharpe)).then <|
    (compareNum a.2.sharpe b.2.sharpe).then <|
    (compareNum a.2.testPnl b.2.testPnl).then <|
    (compareOfLessAndEq (negatedOrds (admitted a.1)) (negatedOrds (admitted b.1))).then
      (compareOfLessAndEq (negatedOrds a.1.name) (negatedOrds b.1.name))

/-- The winners and the twins of `plan_families`. -/
structure FamilyPlan where
  winners : List String := []
  twins : List (String × String) := []
deriving DecidableEq, Repr

/-- One ranked name of `plan_families`. -/
def FamilyPlan.place (plan : FamilyPlan) (name : String) : FamilyPlan :=
  match plan.winners.find? fun w => sameFamily w name with
  | none => { plan with winners := plan.winners ++ [name] }
  | some winner => { plan with twins := plan.twins ++ [(name, winner)] }

/-- `plan_families`; a row without metrics is left out of the ranking. -/
def planFamilies (env : FamilyEnv) (champions : List Champion) : FamilyPlan :=
  let ranked := (champions.filterMap fun row =>
    (championMetrics env row).map fun m => (row, m)).insertionSort fun a b => rankCompare a b ≠ .lt
  ranked.foldl (fun plan row => plan.place row.1.name) {}

end PaperTrading.Champions

namespace PaperTrading.Champions

open PaperTrading.Lib

/-- The tuples of `rank_key`. -/
abbrev RankKey : Type :=
  WithBot ℚ ×ₗ WithBot ℚ ×ₗ WithBot ℚ ×ₗ List ℤ ×ₗ List ℤ

/-- `_num`, where a missing number is minus infinity. -/
def num : Option ℚ → WithBot ℚ
  | none => ⊥
  | some x => x

/-- `rank_key` -/
def rankKey (r : Champion × Metrics) : RankKey :=
  toLex ((r.2.dailySharpe : WithBot ℚ), toLex (num r.2.sharpe, toLex (num r.2.testPnl,
    toLex (negatedOrds ((r.1.admittedAt.or r.1.championSince).getD ""),
      negatedOrds r.1.name))))

/-- A comparison that follows a linear order. -/
structure Follows {α β : Type} [LinearOrder β] (cmp : α → α → Ordering) (f : α → β) : Prop where
  lt : ∀ x y, cmp x y = .lt ↔ f x < f y
  eq : ∀ x y, cmp x y = .eq ↔ f x = f y

theorem follows_less {α : Type} [LinearOrder α] {dlt : DecidableLT α} {deq : DecidableEq α} :
    Follows (fun x y : α => @compareOfLessAndEq α x y _ (dlt x y) deq) id where
  lt := fun x y => by
    unfold compareOfLessAndEq
    split
    next h => exact iff_of_true rfl h
    next h => split <;> exact iff_of_false nofun h
  eq := fun x y => by
    unfold compareOfLessAndEq
    split
    next h => exact iff_of_false nofun h.ne
    next => split <;> simp_all

theorem follows_compareNum : Follows compareNum num where
  lt := fun x y => by
    cases x with
    | none =>
      cases y with
      | none => exact iff_of_false nofun (lt_irrefl _)
      | some y => exact iff_of_true rfl (WithBot.bot_lt_coe y)
    | some x =>
      cases y with
      | none => exact iff_of_false nofun (not_lt_bot)
      | some y => exact (follows_less.lt x y).trans WithBot.coe_lt_coe.symm
  eq := fun x y => by
    cases x with
    | none =>
      cases y with
      | none => exact iff_of_true rfl rfl
      | some y => exact iff_of_false nofun (WithBot.bot_ne_coe)
    | some x =>
      cases y with
      | none => exact iff_of_false nofun (WithBot.coe_ne_bot)
      | some y => exact (follows_less.eq x y).trans WithBot.coe_inj.symm

/-- The comparison is that of the tuples. -/
theorem rankCompare_lt (a b : Champion × Metrics) :
    rankCompare a b = .lt ↔ rankKey a < rankKey b := by
  unfold rankCompare rankKey
  dsimp only
  simp only [Ordering.then_eq_lt, Prod.Lex.toLex_lt_toLex, follows_compareNum.lt,
    follows_compareNum.eq]
  have hlt : ∀ x y : List ℤ, compareOfLessAndEq x y = .lt ↔ x < y := follows_less.lt
  have heq : ∀ x y : List ℤ, compareOfLessAndEq x y = .eq ↔ x = y := follows_less.eq
  rw [hlt, hlt, heq]
  rfl

/-! ## The ranking -/

/-- The rows with metrics, and these. -/
def ranked (env : FamilyEnv) (champions : List Champion) : List (Champion × Metrics) :=
  champions.filterMap fun row => (championMetrics env row).map fun m => (row, m)

/-- The rows with metrics, best first. -/
def ranking (env : FamilyEnv) (champions : List Champion) : List (Champion × Metrics) :=
  (ranked env champions).insertionSort fun a b => rankCompare a b ≠ .lt

variable {env : FamilyEnv} {champions : List Champion}

theorem mem_ranked {r : Champion × Metrics} :
    r ∈ ranked env champions ↔ r.1 ∈ champions ∧ championMetrics env r.1 = some r.2 := by
  unfold ranked
  rw [List.mem_filterMap]
  constructor
  · rintro ⟨row, hrow, hm⟩
    obtain ⟨m, hmetrics, rfl⟩ := Option.map_eq_some_iff.mp hm
    exact ⟨hrow, hmetrics⟩
  · rintro ⟨hrow, hm⟩
    exact ⟨r.1, hrow, by rw [hm]; rfl⟩

theorem mem_ranking {r : Champion × Metrics} :
    r ∈ ranking env champions ↔ r.1 ∈ champions ∧ championMetrics env r.1 = some r.2 :=
  (List.mem_insertionSort _).trans mem_ranked

theorem names_ranked_sublist (env : FamilyEnv) (champions : List Champion) :
    ((ranked env champions).map (·.1.name)).Sublist (champions.map (·.name)) := by
  unfold ranked
  induction champions with
  | nil => exact List.Sublist.refl _
  | cons c cs ih =>
    rw [List.filterMap_cons]
    cases championMetrics env c with
    | none => exact ih.cons _
    | some m => exact ih.cons_cons _

theorem negatedOrds_injective : Function.Injective negatedOrds := by
  intro s t h
  unfold negatedOrds at h
  have hlist : s.toList = t.toList := by
    refine List.map_injective_iff.mpr (fun c d hcd => ?_) h
    have hnat : c.toNat = d.toNat := by
      have : -(c.toNat : ℤ) = -(d.toNat : ℤ) := hcd
      omega
    exact Char.toNat_inj.mp hnat
  exact String.toList_inj.mp hlist

theorem name_eq_of_rankKey {a b : Champion × Metrics} (h : rankKey a = rankKey b) :
    a.1.name = b.1.name :=
  negatedOrds_injective (congrArg (fun k : RankKey =>
    (ofLex (ofLex (ofLex (ofLex k).2).2).2).2) h)

theorem names_ranking_nodup (hnodup : (champions.map (·.name)).Nodup) :
    ((ranking env champions).map (·.1.name)).Nodup :=
  ((List.perm_insertionSort _ _).map _).nodup_iff.mpr
    (hnodup.sublist (names_ranked_sublist env champions))

variable (env) in
/-- Of rows with different names each outranks those behind it. -/
theorem ranking_sorted (hnodup : (champions.map (·.name)).Nodup) :
    StrictlySorted (fun r => OrderDual.toDual (rankKey r)) (ranking env champions) := by
  have hle : ∀ a b : Champion × Metrics, rankCompare a b ≠ .lt ↔ rankKey b ≤ rankKey a :=
    fun a b => by rw [ne_eq, rankCompare_lt, not_lt]
  have : Std.Total fun a b : Champion × Metrics => rankCompare a b ≠ .lt :=
    ⟨fun a b => by rw [hle, hle]; exact le_total _ _⟩
  have : IsTrans (Champion × Metrics) fun a b => rankCompare a b ≠ .lt :=
    ⟨fun a b c hab hbc => by rw [hle] at hab hbc ⊢; exact hbc.trans hab⟩
  have hsorted : (ranking env champions).Pairwise fun a b => rankCompare a b ≠ .lt :=
    List.pairwise_insertionSort _ _
  have hnames : (ranking env champions).Pairwise fun a b => a.1.name ≠ b.1.name :=
    List.pairwise_map.mp (names_ranking_nodup hnodup)
  refine (hsorted.and hnames).imp fun {a b} h => ?_
  exact lt_of_le_of_ne ((hle a b).mp h.1) fun heq => h.2 (name_eq_of_rankKey heq)

/-- Rows that are taken out of the pool are taken out of the ranking. -/
theorem ranking_filter (hnodup : (champions.map (·.name)).Nodup) (keep : String → Bool) :
    ranking env (champions.filter fun c => keep c.name) =
      (ranking env champions).filter fun r => keep r.1.name := by
  have hsub : ((champions.filter fun c => keep c.name).map (·.name)).Nodup :=
    hnodup.sublist (List.filter_sublist.map _)
  refine (ranking_sorted env hsub).eq_of_mem_iff
    ((ranking_sorted env hnodup).sublist List.filter_sublist) fun r => ?_
  rw [mem_ranking, List.mem_filter, List.mem_filter, mem_ranking]
  tauto

/-! ## Winners and twins -/

/-- The names of the ranking. -/
def rankedNames (env : FamilyEnv) (champions : List Champion) : List String :=
  (ranking env champions).map (·.1.name)

theorem place_fold : ∀ (names : List String) (plan : FamilyPlan),
    names.foldl FamilyPlan.place plan =
      { winners := plan.winners ++ leaders (fun w n => sameFamily w n) plan.winners names
        twins := plan.twins ++ followers (fun w n => sameFamily w n) plan.winners names } := by
  intro names
  induction names with
  | nil => intro plan; rw [leaders, followers, List.append_nil, List.append_nil]; rfl
  | cons n names ih =>
    intro plan
    rw [List.foldl_cons, ih]
    unfold FamilyPlan.place
    cases h : plan.winners.find? fun w => sameFamily w n with
    | none =>
      rw [leaders_cons_none h, followers_cons_none h, List.append_assoc]
      rfl
    | some w =>
      rw [leaders_cons_some h, followers_cons_some h]
      dsimp only
      rw [List.append_assoc]
      rfl

theorem planFamilies_eq (env : FamilyEnv) (champions : List Champion) :
    planFamilies env champions =
      { winners := leaders (fun w n => sameFamily w n) [] (rankedNames env champions)
        twins := followers (fun w n => sameFamily w n) [] (rankedNames env champions) } := by
  have hfold : planFamilies env champions =
      (rankedNames env champions).foldl FamilyPlan.place {} := by
    unfold rankedNames
    rw [List.foldl_map]
    rfl
  rw [hfold, place_fold]
  rfl

section
variable (hnodup : (champions.map (·.name)).Nodup)
include hnodup

variable (env) in
theorem rankedNames_nodup : (rankedNames env champions).Nodup := names_ranking_nodup hnodup

/-- A twin is active and no winner; its winner is active, outranks it and is of its
family. -/
theorem twin_of_plan {t w : String} (h : (t, w) ∈ (planFamilies env champions).twins) :
    t ∉ (planFamilies env champions).winners ∧ w ∈ (planFamilies env champions).winners ∧
      sameFamily w t = true ∧
      ∃ rt ∈ ranking env champions, ∃ rw ∈ ranking env champions,
        rt.1.name = t ∧ rw.1.name = w ∧ rankKey rt < rankKey rw := by
  rw [planFamilies_eq] at h ⊢
  obtain ⟨hmem, hlead, hnot⟩ := not_leader_of_follows (rankedNames_nodup env hnodup) h
  obtain ⟨hcov, l₁, l₂, hsplit, hw⟩ := follows_split _ _ h
  refine ⟨hnot, hlead, hcov, ?_⟩
  -- the ranking splits where its names do
  unfold rankedNames at hsplit
  obtain ⟨R₁, R₂, hR, rfl, hmap⟩ := List.map_eq_append_iff.mp hsplit
  obtain ⟨rt, R₃, rfl, rfl, rfl⟩ := List.map_eq_cons_iff.mp hmap
  obtain ⟨rw, hrw, rfl⟩ := List.mem_map.mp
    ((leaders_sublist _ _).mem (hw.resolve_left List.not_mem_nil))
  refine ⟨rt, by rw [hR]; exact List.mem_append_right _ List.mem_cons_self, rw,
    by rw [hR]; exact List.mem_append_left _ hrw, rfl, rfl, ?_⟩
  have hsorted := ranking_sorted env hnodup
  unfold StrictlySorted at hsorted
  rw [hR] at hsorted
  exact (List.pairwise_append.mp hsorted).2.2 rw hrw rt List.mem_cons_self

omit hnodup in
theorem winner_or_twin {r : Champion × Metrics} (h : r ∈ ranking env champions) :
    r.1.name ∈ (planFamilies env champions).winners ∨
      ∃ w, (r.1.name, w) ∈ (planFamilies env champions).twins := by
  rw [planFamilies_eq]
  exact leader_or_follower _ _ (List.mem_map_of_mem h)

/-- No winner is of the family of a better one. -/
theorem winners_apart {a b : Champion × Metrics} (ha : a ∈ ranking env champions)
    (hb : b ∈ ranking env champions) (hwa : a.1.name ∈ (planFamilies env champions).winners)
    (hwb : b.1.name ∈ (planFamilies env champions).winners) (hlt : rankKey b < rankKey a) :
    sameFamily a.1.name b.1.name = false := by
  rw [planFamilies_eq] at hwa hwb
  -- said of both orders the fact is symmetric, so the order of the list can be left out
  let Apart (x y : String) : Prop := ∀ rx ∈ ranking env champions, ∀ ry ∈ ranking env champions,
    rx.1.name = x → ry.1.name = y →
      (rankKey ry < rankKey rx → sameFamily x y = false) ∧
        (rankKey rx < rankKey ry → sameFamily y x = false)
  have : Std.Symm Apart := ⟨fun x y h ry hry rx hrx hy hx => (h rx hrx ry hry hx hy).symm⟩
  have hranked : (rankedNames env champions).Pairwise fun x y =>
      ∀ rx ∈ ranking env champions, ∀ ry ∈ ranking env champions,
        rx.1.name = x → ry.1.name = y → rankKey ry < rankKey rx := by
    refine List.pairwise_map.mpr ((ranking_sorted env hnodup).imp_of_mem fun {p q} hp hq hlt => ?_)
    intro rx hrx ry hry hx hy
    have hinj := List.inj_on_of_nodup_map (rankedNames_nodup env hnodup)
    rw [hinj hrx hp hx, hinj hry hq hy]
    exact hlt
  have hpair : (leaders (fun w n => sameFamily w n) [] (rankedNames env champions)).Pairwise
      Apart := by
    refine ((leaders_independent _ _ _).1.and (hranked.sublist (leaders_sublist _ _))).imp ?_
    intro x y h rx hrx ry hry hx hy
    exact ⟨fun _ => h.1, fun hgt => absurd hgt (h.2 rx hrx ry hry hx hy).asymm⟩
  have hne : a.1.name ≠ b.1.name := fun heq => by
    rw [List.inj_on_of_nodup_map (rankedNames_nodup env hnodup) ha hb heq] at hlt
    exact lt_irrefl _ hlt
  exact (hpair.forall hwa hwb hne a ha b hb rfl rfl).1 hlt

variable (env) in
/-- Without some of the twins the plan has the same winners, and the other twins. -/
theorem planFamilies_filter (keep : String → Bool)
    (hkeep : ∀ w ∈ (planFamilies env champions).winners, keep w = true) :
    planFamilies env (champions.filter fun c => keep c.name) =
      { winners := (planFamilies env champions).winners
        twins := (planFamilies env champions).twins.filter fun t => keep t.1 } := by
  have hnames : rankedNames env (champions.filter fun c => keep c.name) =
      (rankedNames env champions).filter keep := by
    unfold rankedNames
    rw [ranking_filter hnodup, List.filter_map]
    rfl
  rw [planFamilies_eq] at hkeep
  rw [planFamilies_eq, planFamilies_eq, hnames, leaders_filter keep _ _ hkeep,
    followers_filter keep _ _ hkeep]

end

end PaperTrading.Champions
