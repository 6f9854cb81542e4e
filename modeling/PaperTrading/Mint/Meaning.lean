import Mathlib.Algebra.Order.BigOperators.Group.List
import PaperTrading.Mint.Shapes
import PaperTrading.Signals.FastNames

/-!
# What an atom says

`inspect_atom` takes an atom apart without evaluating it. `AtomParts.condition` is the
condition its family, parameters and bounds stand for, and the parser reads every atom
so (`parseName_inspect`), but for a momentum atom worded `lt` and a dip atom worded `gt`,
which no pattern of the parser knows and which are never true (`AtomParts.misworded`).

An atom with bounds compares one number with them (`eval_bounded`): `measure` is the
number, and a larger `gt` bound and a smaller `lt` bound are stricter (`meets_gt_mono`,
`meets_lt_mono`).
-/

namespace PaperTrading.Mint

open Lib Pattern
open Signals

/-! ## Taking atoms apart -/

/-- The readings of `inspect_atom`. -/
inductive Inspected (text : Text) : AtomParts → Prop where
  | rsiFull {c : Text × Text × Option Text} (h : rsiFullName.whole text = some c) :
      Inspected text (.mk "rsi" "" [natOf c.1]
        ((.gt, natOf c.2.1) :: c.2.2.toList.map fun hi => (.lt, natOf hi)) true text)
  | rsiLt {c : Text × Text} (hfull : rsiFullName.whole text = none)
      (h : rsiLtName.whole text = some c) :
      Inspected text (.mk "rsi" "" [natOf c.1] [(.lt, natOf c.2)] true text)
  | rsiShort {c : Text × Text} (hfull : rsiFullName.whole text = none)
      (hlt : rsiLtName.whole text = none) (h : (pairName "rsi_").whole text = some c) :
      Inspected text (.mk "rsi" "" [natOf c.1] [(.gt, natOf c.2)] true text)
  | move {c : String × Text × String × Text} (h : moveAtom.whole text = some c) :
      Inspected text (.mk c.1 "" [natOf c.2.1] [(.gt, natOf c.2.2.2)] true text)
  | htf {c : String × String × Text} (h : htfName.whole text = some c) :
      Inspected text (.mk (c.1 ++ "_" ++ c.2.1 ++ "_abv") "" [natOf c.2.2] [] true text)
  | average {c : String × Text} (h : (wordAtom MA_WORDS).whole text = some c) :
      Inspected text (.mk c.1 "" [natOf c.2] [] true text)
  | smaStack {c : Option Text} (h : (stackName "sma").whole text = some c) :
      Inspected text (.mk "sma_stack" "" (stackPeriods c) [] true text)
  | emaStack {c : Option Text} (h : (stackName "ema").whole text = some c) :
      Inspected text (.mk "ema_stack" "" (stackPeriods c) [] true text)
  | level {c : String × Text} (h : (wordAtom STRUCTURE_WORDS).whole text = some c) :
      Inspected text (.mk c.1 "" [natOf c.2] [] true text)
  | band {c : String × Text × Text} (h : bandAtom.whole text = some c) :
      Inspected text (.mk "bb" c.1 [natOf c.2.1, natOf c.2.2] [] true text)
  | volume {c : Text × Text} (h : (pairName "vol_lowsm_").whole text = some c) :
      Inspected text (.mk "vol_lowsm" "" [natOf c.1, natOf c.2] [] true text)
  | plain (hstack : (stackName "sma").whole text = none) (h : String.ofList text ∈ PLAIN_ATOMS) :
      Inspected text (.mk (String.ofList text) "" [] [] true text)

/-- The captures behind an atom a rule packs. -/
theorem packed {α : Type} {p : Pattern α} {pack : α → AtomParts} {t : Text} {a : AtomParts}
    (h : rule p (fun c => some (pack c)) t = some (some a)) :
    ∃ c, p.whole t = some c ∧ pack c = a := by
  obtain ⟨c, hc, hpack⟩ := rule_eq_some.mp h
  exact ⟨c, hc, Option.some.inj hpack⟩

theorem inspected {tok : Text} {a : AtomParts} (h : inspectAtom tok = some a) :
    Inspected (strip tok) a := by
  unfold inspectAtom at h
  dsimp only at h
  split at h
  next => cases h
  next =>
    rcases firstRule_eq h with h | ⟨hfull, h⟩
    · obtain ⟨c, hc, rfl⟩ := packed h
      exact .rsiFull hc
    rcases firstRule_eq h with h | ⟨hlt, h⟩
    · obtain ⟨c, hc, rfl⟩ := packed h
      exact .rsiLt (rule_eq_none.mp hfull) hc
    rcases firstRule_eq h with h | ⟨-, h⟩
    · obtain ⟨c, hc, rfl⟩ := packed h
      exact .rsiShort (rule_eq_none.mp hfull) (rule_eq_none.mp hlt) hc
    rcases firstRule_eq h with h | ⟨-, h⟩
    · obtain ⟨c, hc, rfl⟩ := packed h
      exact .move hc
    rcases firstRule_eq h with h | ⟨-, h⟩
    · obtain ⟨c, hc, rfl⟩ := packed h
      exact .htf hc
    rcases firstRule_eq h with h | ⟨-, h⟩
    · obtain ⟨c, hc, rfl⟩ := packed h
      exact .average hc
    rcases firstRule_eq h with h | ⟨hstack, h⟩
    · obtain ⟨c, hc, rfl⟩ := packed h
      exact .smaStack hc
    rcases firstRule_eq h with h | ⟨-, h⟩
    · obtain ⟨c, hc, rfl⟩ := packed h
      exact .emaStack hc
    rcases firstRule_eq h with h | ⟨-, h⟩
    · obtain ⟨c, hc, rfl⟩ := packed h
      exact .level hc
    rcases firstRule_eq h with h | ⟨-, h⟩
    · obtain ⟨c, hc, rfl⟩ := packed h
      exact .band hc
    rcases firstRule_eq h with h | ⟨-, h⟩
    · obtain ⟨c, hc, rfl⟩ := packed h
      exact .volume hc
    rw [firstRule_nil] at h
    split at h
    next hmem =>
      cases h
      exact .plain (rule_eq_none.mp hstack) hmem
    next => cases h

/-! ## The condition of an atom -/

/-- The bound of an atom in one direction. -/
def AtomParts.bound (a : AtomParts) (op : Op) : Option ℕ :=
  (a.bounds.find? fun b => b.1 = op).map Prod.snd

/-- What an atom stands for. -/
def AtomParts.condition (a : AtomParts) : Condition :=
  let n := a.params.headD 0
  if a.family = "rsi" then
    .atom (.rsiRange n ((a.bound .gt).elim (-1) fun lo => lo) ((a.bound .lt).elim 100 fun hi => hi))
  else if a.family = "mom" then .atom (.momGt n (momThr ((a.bound .gt).getD 0)))
  else if a.family = "dip" then .atom (.momLt n (dipThr ((a.bound .gt).getD 0)))
  else if a.family = "h4_ema_abv" then .htfEma .h4 n
  else if a.family = "h1_ema_abv" then .htfEma .h1 n
  else if a.family = "h4_sma_abv" then .atom (.htfSma .h4 n)
  else if a.family = "h1_sma_abv" then .atom (.htfSma .h1 n)
  else if a.family = "sma_abv" then .atom (.smaAbove n)
  else if a.family = "ema_abv" then .emaAbove n
  else if a.family = "sma_stack" then .atom (.smaStack (if a.params = [] then [7, 25, 50] else a.params))
  else if a.family = "ema_stack" then .emaStack (if a.params = [] then [7, 25, 50] else a.params)
  else if a.family = "don_hi" then .atom (.donHi n)
  else if a.family = "don_lo" then .atom (.donLo n)
  else if a.family = "near_swing_hi" then .nearSwingHi n
  else if a.family = "near_swing_lo" then .nearSwingLo n
  else if a.family = "dbl_bot" then .dblBot n
  else if a.family = "dbl_top" then .dblTop n
  else if a.family = "bb" then
    .atom (if a.side = "lower" then .bbLower n (a.params.tail.headD 0)
      else .bbUpper n (a.params.tail.headD 0))
  else if a.family = "vol_lowsm" then .atom (.volLow n (a.params.tail.headD 0))
  else if a.family = "wt_cross_up_os" then .wtCrossUpOs
  else if a.family = "wt_below_os" then .wtBelowOs
  else if a.family = "wt_cross_down_ob" then .wtCrossDownOb
  else .never

/-- A momentum atom worded `lt`, or a dip atom worded `gt`. -/
def AtomParts.misworded (a : AtomParts) : Bool :=
  (a.family = "mom" && (moveAtom.whole a.raw).any fun c => c.2.2.1 = "lt") ||
    (a.family = "dip" && (moveAtom.whole a.raw).any fun c => c.2.2.1 = "gt")

/-! ## The parser -/

theorem natOf_of_intOf {ds : Text} {n : ℕ} (h : intOf ds = .ok n) : n = natOf ds := by
  unfold intOf at h
  split at h
  next => cases h
  next =>
    split at h
    next => cases h
    next => exact (Except.ok.inj h).symm

/-- A list of periods the parser takes has no blank in it. -/
theorem periodsOf_ok {ps : Option Text} {periods : List ℕ} (h : periodsOf ps = .ok periods) :
    periods = if stackPeriods ps = [] then [7, 25, 50] else stackPeriods ps := by
  cases ps with
  | none => exact (Except.ok.inj h).symm
  | some ds =>
    have hne : ∀ part ∈ ds.splitOn '_', part ≠ [] := by
      intro part hpart hnil
      obtain ⟨n, hn⟩ := mapM_ok h part hpart
      rw [hnil] at hn
      cases hn
    have hmap : periods = (ds.splitOn '_').map natOf :=
      mapM_eq_map (fun part _ n hn => natOf_of_intOf hn) h
    have hfilter : (ds.splitOn '_').filter (· ≠ []) = ds.splitOn '_' :=
      List.filter_eq_self.mpr fun part hpart => decide_eq_true (hne part hpart)
    have hperiods : stackPeriods (some ds) = (ds.splitOn '_').map natOf := by
      show ((ds.splitOn '_').filter (· ≠ [])).map natOf = _
      rw [hfilter]
    have hmapne : (ds.splitOn '_').map natOf ≠ [] := fun hnil =>
      List.splitOnP_ne_nil _ ds (List.map_eq_nil_iff.mp hnil)
    rw [hperiods, if_neg hmapne, hmap]

section Reads

variable {t : Text} {x : Except String Condition} {c : Condition}

theorem parseName_rsiFull {m : Text × Text × Option Text} (h : rsiFullName.whole t = some m) :
    parseName t = (do
      let p ← intOf m.1
      let th ← intOf m.2.1
      let ov ← overOf m.2.2
      pure (.atom (.rsiRange p th ov))) :=
  parseName_of_rule rsiFullRule [['r', 's', 'i']] [] [rsiLtRule, rsiShortRule, rsiMomentumRule]
    (by simp [NAME_OPENINGS]) (List.forall_mem_singleton.mpr rfl) (by simp)
    (rule_eq_some.mpr ⟨m, h, rfl⟩)

theorem parseName_rsiLt {m : Text × Text} (hfull : rsiFullName.whole t = none)
    (h : rsiLtName.whole t = some m) : parseName t = (do
      let p ← intOf m.1
      let th ← intOf m.2
      pure (.atom (.rsiRange p (-1) th))) :=
  parseName_of_rule rsiLtRule [['r', 's', 'i']] [rsiFullRule] [rsiShortRule, rsiMomentumRule]
    (by simp [NAME_OPENINGS]) (List.forall_mem_singleton.mpr rfl)
    (List.forall_mem_singleton.mpr (rule_eq_none.mpr hfull)) (rule_eq_some.mpr ⟨m, h, rfl⟩)

theorem parseName_rsiShort {m : Text × Text} (hfull : rsiFullName.whole t = none)
    (hlt : rsiLtName.whole t = none) (h : (pairName "rsi_").whole t = some m) : parseName t = (do
      let p ← intOf m.1
      let th ← intOf m.2
      pure (.atom (.rsiRange p th 100))) :=
  parseName_of_rule rsiShortRule [['r', 's', 'i']] [rsiFullRule, rsiLtRule] [rsiMomentumRule]
    (by simp [NAME_OPENINGS]) (List.forall_mem_singleton.mpr rfl)
    (List.forall_mem_cons.mpr ⟨rule_eq_none.mpr hfull,
      List.forall_mem_singleton.mpr (rule_eq_none.mpr hlt)⟩) (rule_eq_some.mpr ⟨m, h, rfl⟩)

theorem rsiFull_condition {m : Text × Text × Option Text} (h : rsiFullName.whole t = some m)
    (hc : parseName t = .ok c) :
    c = .atom (.rsiRange (natOf m.1) (natOf m.2.1) (m.2.2.elim 100 fun hi => (natOf hi : ℚ))) := by
  rw [parseName_rsiFull h] at hc
  obtain ⟨p, hp, hc⟩ := except_bind_ok hc
  obtain ⟨th, hth, hc⟩ := except_bind_ok hc
  obtain ⟨ov, hov, hc⟩ := except_bind_ok hc
  cases hc
  rw [natOf_of_intOf hp, natOf_of_intOf hth]
  cases hm : m.2.2 with
  | none =>
    rw [hm] at hov
    cases hov
    rfl
  | some hi =>
    rw [hm] at hov
    rw [natOf_of_intOf hov]
    rfl

theorem rsiLt_condition {m : Text × Text} (hfull : rsiFullName.whole t = none)
    (h : rsiLtName.whole t = some m) (hc : parseName t = .ok c) :
    c = .atom (.rsiRange (natOf m.1) (-1) (natOf m.2)) := by
  rw [parseName_rsiLt hfull h] at hc
  obtain ⟨p, hp, hc⟩ := except_bind_ok hc
  obtain ⟨th, hth, hc⟩ := except_bind_ok hc
  cases hc
  rw [natOf_of_intOf hp, natOf_of_intOf hth]

theorem rsiShort_condition {m : Text × Text} (hfull : rsiFullName.whole t = none)
    (hlt : rsiLtName.whole t = none) (h : (pairName "rsi_").whole t = some m)
    (hc : parseName t = .ok c) : c = .atom (.rsiRange (natOf m.1) (natOf m.2) 100) := by
  rw [parseName_rsiShort hfull hlt h] at hc
  obtain ⟨p, hp, hc⟩ := except_bind_ok hc
  obtain ⟨th, hth, hc⟩ := except_bind_ok hc
  cases hc
  rw [natOf_of_intOf hp, natOf_of_intOf hth]

theorem move_words : "mom" ++ "_" = "mom_" ∧ "dip" ++ "_" = "dip_" ∧ "_" ++ "gt" = "_gt" ∧
    "_" ++ "lt" = "_lt" := by decide

theorem mom_condition {lb pct : Text} (hlb : IsDigits lb) (hpct : IsDigits pct)
    (ht : t = moveText "mom" lb "gt" pct) (hc : parseName t = .ok c) :
    c = .atom (.momGt (natOf lb) (momThr (natOf pct))) := by
  have hread : (moveName ("mom" ++ "_") ("_" ++ "gt")).whole t = some (lb, pct) :=
    ht ▸ moveName_whole hlb hpct
  rw [move_words.1, move_words.2.2.1] at hread
  rw [parseName_of_rule momRule [['m', 'o', 'm']] [] [] (by simp [NAME_OPENINGS])
    (List.forall_mem_singleton.mpr rfl) (by simp)
    (rule_eq_some.mpr ⟨_, hread, rfl⟩)] at hc
  obtain ⟨n, hn, hc⟩ := except_bind_ok hc
  obtain ⟨v, hv, hc⟩ := except_bind_ok hc
  cases hc
  rw [natOf_of_intOf hn, natOf_of_intOf hv]

theorem dip_condition {lb pct : Text} (hlb : IsDigits lb) (hpct : IsDigits pct)
    (ht : t = moveText "dip" lb "lt" pct) (hc : parseName t = .ok c) :
    c = .atom (.momLt (natOf lb) (dipThr (natOf pct))) := by
  have hread : (moveName ("dip" ++ "_") ("_" ++ "lt")).whole t = some (lb, pct) :=
    ht ▸ moveName_whole hlb hpct
  rw [move_words.2.1, move_words.2.2.2] at hread
  rw [parseName_of_rule dipRule [['d', 'i', 'p']] [] [] (by simp [NAME_OPENINGS])
    (List.forall_mem_singleton.mpr rfl) (by simp)
    (rule_eq_some.mpr ⟨_, hread, rfl⟩)] at hc
  obtain ⟨n, hn, hc⟩ := except_bind_ok hc
  obtain ⟨v, hv, hc⟩ := except_bind_ok hc
  cases hc
  rw [natOf_of_intOf hn, natOf_of_intOf hv]

/-- A move of the other word is never true. -/
theorem parseName_misworded {kind word : String} {lb pct : Text} (hlb : IsDigits lb)
    (hway : (kind = "mom" ∧ word = "lt") ∨ (kind = "dip" ∧ word = "gt")) :
    parseName (moveText kind lb word pct) = .ok .never := by
  rcases hway with ⟨rfl, rfl⟩ | ⟨rfl, rfl⟩
  · have hmiss : (moveName ("mom" ++ "_") ("_" ++ "gt")).whole (moveText "mom" lb "lt" pct) = none :=
      moveName_whole_other hlb (by decide) (by decide) (by decide)
    rw [move_words.1, move_words.2.2.1] at hmiss
    rw [parseName_opening (o := ['m', 'o', 'm']) rfl]
    show firstRule [momRule] (.ok .never) _ = _
    rw [firstRule_cons, firstRule_nil, momRule, rule_eq_none.mpr hmiss, Option.getD_none]
  · have hmiss : (moveName ("dip" ++ "_") ("_" ++ "lt")).whole (moveText "dip" lb "gt" pct) = none :=
      moveName_whole_other hlb (by decide) (by decide) (by decide)
    rw [move_words.2.1, move_words.2.2.2] at hmiss
    rw [parseName_opening (o := ['d', 'i', 'p']) rfl]
    show firstRule [dipRule] (.ok .never) _ = _
    rw [firstRule_cons, firstRule_nil, dipRule, rule_eq_none.mpr hmiss, Option.getD_none]

theorem htfName_words {m : String × String × Text} (h : htfName.whole t = some m) :
    m.1 ∈ ["h4", "h1"] ∧ m.2.1 ∈ ["ema", "sma"] := by
  have h := reads_of_whole h
  unfold htfName at h
  obtain ⟨tf, _, htf, -, h⟩ := reads_oneOf_bind.mp h
  obtain ⟨_, -, h⟩ := reads_lit_bind.mp h
  obtain ⟨kind, _, hkind, -, h⟩ := reads_oneOf_bind.mp h
  obtain ⟨_, -, h⟩ := reads_lit_bind.mp h
  obtain ⟨n, _, -, -, h⟩ := reads_digits_bind.mp h
  rw [(reads_pure.mp h).1]
  exact ⟨htf, hkind⟩

theorem htf_condition {m : String × String × Text} (h : htfName.whole t = some m)
    (hc : parseName t = .ok c) :
    c = if m.2.1 = "sma" then .atom (.htfSma (timeframeOf m.1) (natOf m.2.2))
      else .htfEma (timeframeOf m.1) (natOf m.2.2) := by
  rw [parseName_of_rule htfRule [['h', '4', '_'], ['h', '1', '_']] [] [] (by simp [NAME_OPENINGS])
    (List.forall_mem_cons.mpr ⟨rfl, List.forall_mem_singleton.mpr rfl⟩) (by simp)
    (rule_eq_some.mpr ⟨m, h, rfl⟩)] at hc
  obtain ⟨n, hn, hc⟩ := except_bind_ok hc
  cases hc
  rw [natOf_of_intOf hn]

/-- The text of an average is no stack. -/
theorem stackName_miss {kind : String} {rest : Text} (hkind : kind ∈ ["sma", "ema"]) :
    (stackName kind).whole ((kind ++ "_abv").toList ++ rest) = none := by
  cases hw : (stackName kind).whole ((kind ++ "_abv").toList ++ rest) with
  | none => rfl
  | some c =>
    have hstart : StartsWith [kind ++ "_stack"] (stackName kind) :=
      (lit_startsWith (kind ++ "_stack")).bind _
    rcases List.mem_pair.mp hkind with rfl | rfl
    · have htake := hstart.take_mem (n := 5) (by decide) hw
      rw [List.take_append_of_le_length (by decide)] at htake
      exact absurd (List.mem_singleton.mp htake) (by decide)
    · have htake := hstart.take_mem (n := 5) (by decide) hw
      rw [List.take_append_of_le_length (by decide)] at htake
      exact absurd (List.mem_singleton.mp htake) (by decide)

theorem smaAbove_condition {n : Text} (hn : IsDigits n) (ht : t = "sma_abv".toList ++ '_' :: n)
    (hc : parseName t = .ok c) : c = .atom (.smaAbove (natOf n)) := by
  have hread : (aboveName "sma").whole t = some n := ht ▸ aboveName_whole hn
  have hstack : (stackName "sma").whole t = none := ht ▸ stackName_miss (by decide)
  rw [parseName_of_rule smaAboveRule [['s', 'm', 'a']] [smaStackRule] [smaRsiRule, smaMomRule]
    (by simp [NAME_OPENINGS]) (List.forall_mem_singleton.mpr rfl)
    (List.forall_mem_singleton.mpr (rule_eq_none.mpr hstack)) (rule_eq_some.mpr ⟨_, hread, rfl⟩)] at hc
  obtain ⟨p, hp, hc⟩ := except_bind_ok hc
  cases hc
  rw [natOf_of_intOf hp]

theorem emaAbove_condition {n : Text} (hn : IsDigits n) (ht : t = "ema_abv".toList ++ '_' :: n)
    (hc : parseName t = .ok c) : c = .emaAbove (natOf n) := by
  have hread : (aboveName "ema").whole t = some n := ht ▸ aboveName_whole hn
  have hstack : (stackName "ema").whole t = none := ht ▸ stackName_miss (by decide)
  rw [parseName_of_rule emaAboveRule [['e', 'm', 'a']] [emaStackRule] [] (by simp [NAME_OPENINGS])
    (List.forall_mem_singleton.mpr rfl) (List.forall_mem_singleton.mpr (rule_eq_none.mpr hstack))
    (rule_eq_some.mpr ⟨_, hread, rfl⟩)] at hc
  obtain ⟨p, hp, hc⟩ := except_bind_ok hc
  cases hc
  rw [natOf_of_intOf hp]

theorem smaStack_condition {m : Option Text} (h : (stackName "sma").whole t = some m)
    (hc : parseName t = .ok c) :
    c = .atom (.smaStack (if stackPeriods m = [] then [7, 25, 50] else stackPeriods m)) := by
  rw [parseName_of_rule smaStackRule [['s', 'm', 'a']] [] [smaAboveRule, smaRsiRule, smaMomRule]
    (by simp [NAME_OPENINGS]) (List.forall_mem_singleton.mpr rfl) (by simp)
    (rule_eq_some.mpr ⟨m, h, rfl⟩)] at hc
  obtain ⟨periods, hperiods, hc⟩ := except_bind_ok hc
  cases hc
  rw [periodsOf_ok hperiods]

theorem emaStack_condition {m : Option Text} (h : (stackName "ema").whole t = some m)
    (hc : parseName t = .ok c) :
    c = .emaStack (if stackPeriods m = [] then [7, 25, 50] else stackPeriods m) := by
  rw [parseName_of_rule emaStackRule [['e', 'm', 'a']] [] [emaAboveRule] (by simp [NAME_OPENINGS])
    (List.forall_mem_singleton.mpr rfl) (by simp) (rule_eq_some.mpr ⟨m, h, rfl⟩)] at hc
  obtain ⟨periods, hperiods, hc⟩ := except_bind_ok hc
  cases hc
  rw [periodsOf_ok hperiods]

theorem don_condition (side : String) {n : Text} (hside : side ∈ ["hi", "lo"]) (hn : IsDigits n)
    (ht : t = ("don_" ++ side).toList ++ '_' :: n) (hc : parseName t = .ok c) :
    c = .atom (if side = "hi" then .donHi (natOf n) else .donLo (natOf n)) := by
  have hread : (sideName "don_" ["hi", "lo"]).whole t = some (side, n) := ht ▸ sideName_whole hside hn
  rw [parseName_of_rule donRule [['d', 'o', 'n']] [] [] (by simp [NAME_OPENINGS])
    (List.forall_mem_singleton.mpr rfl) (by simp) (rule_eq_some.mpr ⟨_, hread, rfl⟩)] at hc
  obtain ⟨k, hk, hc⟩ := except_bind_ok hc
  cases hc
  rw [natOf_of_intOf hk]

theorem nearSwing_condition (side : String) {n : Text} (hside : side ∈ ["hi", "lo"])
    (hn : IsDigits n) (ht : t = ("near_swing_" ++ side).toList ++ '_' :: n)
    (hc : parseName t = .ok c) :
    c = if side = "hi" then .nearSwingHi (natOf n) else .nearSwingLo (natOf n) := by
  have hread : (sideName "near_swing_" ["hi", "lo"]).whole t = some (side, n) :=
    ht ▸ sideName_whole hside hn
  rw [parseName_of_rule nearSwingRule [['n', 'e', 'a']] [] [] (by simp [NAME_OPENINGS])
    (List.forall_mem_singleton.mpr rfl) (by simp) (rule_eq_some.mpr ⟨_, hread, rfl⟩)] at hc
  obtain ⟨k, hk, hc⟩ := except_bind_ok hc
  cases hc
  rw [natOf_of_intOf hk]

theorem dbl_condition (side : String) {n : Text} (hside : side ∈ ["bot", "top"]) (hn : IsDigits n)
    (ht : t = ("dbl_" ++ side).toList ++ '_' :: n) (hc : parseName t = .ok c) :
    c = if side = "bot" then .dblBot (natOf n) else .dblTop (natOf n) := by
  have hread : (sideName "dbl_" ["bot", "top"]).whole t = some (side, n) := ht ▸ sideName_whole hside hn
  rw [parseName_of_rule dblRule [['d', 'b', 'l']] [] [] (by simp [NAME_OPENINGS])
    (List.forall_mem_singleton.mpr rfl) (by simp) (rule_eq_some.mpr ⟨_, hread, rfl⟩)] at hc
  obtain ⟨k, hk, hc⟩ := except_bind_ok hc
  cases hc
  rw [natOf_of_intOf hk]

theorem band_condition {m : String × Text × Text} (h : bandAtom.whole t = some m)
    (hc : parseName t = .ok c) : c = .atom (if m.1 = "lower" then .bbLower (natOf m.2.1) (natOf m.2.2)
      else .bbUpper (natOf m.2.1) (natOf m.2.2)) := by
  obtain ⟨hread, -, -, hsd⟩ := bbName_whole h
  rw [parseName_of_rule bbRule [['b', 'b', '_']] [] [] (by simp [NAME_OPENINGS])
    (List.forall_mem_singleton.mpr rfl) (by simp) (rule_eq_some.mpr ⟨_, hread, rfl⟩)] at hc
  obtain ⟨p, hp, hc⟩ := except_bind_ok hc
  have hstd : stdDevOf m.2.2 = natOf m.2.2 := if_neg hsd.1
  cases hc
  rw [natOf_of_intOf hp, hstd]

theorem volume_condition {m : Text × Text} (h : (pairName "vol_lowsm_").whole t = some m)
    (hc : parseName t = .ok c) : c = .atom (.volLow (natOf m.1) (natOf m.2)) := by
  rw [parseName_of_rule volRule [['v', 'o', 'l']] [] [] (by simp [NAME_OPENINGS])
    (List.forall_mem_singleton.mpr rfl) (by simp) (rule_eq_some.mpr ⟨m, h, rfl⟩)] at hc
  obtain ⟨a, ha, hc⟩ := except_bind_ok hc
  obtain ⟨b, hb, hc⟩ := except_bind_ok hc
  cases hc
  rw [natOf_of_intOf ha, natOf_of_intOf hb]

end Reads

/-- The parser's names of one word. -/
theorem parseName_crossUp : parseName "wt_cross_up_os".toList = .ok .wtCrossUpOs :=
  parseName_of_rule wtCrossUpOsRule [['w', 't', '_']] [] [wtBelowOsRule, wtCrossDownObRule]
    (by simp [NAME_OPENINGS]) (List.forall_mem_singleton.mpr rfl) (by simp)
    (rule_eq_some.mpr ⟨(), by decide, rfl⟩)

theorem parseName_below : parseName "wt_below_os".toList = .ok .wtBelowOs :=
  parseName_of_rule wtBelowOsRule [['w', 't', '_']] [wtCrossUpOsRule] [wtCrossDownObRule]
    (by simp [NAME_OPENINGS]) (List.forall_mem_singleton.mpr rfl)
    (List.forall_mem_singleton.mpr (rule_eq_none.mpr (by decide)))
    (rule_eq_some.mpr ⟨(), by decide, rfl⟩)

theorem parseName_crossDown : parseName "wt_cross_down_ob".toList = .ok .wtCrossDownOb :=
  parseName_of_rule wtCrossDownObRule [['w', 't', '_']] [wtCrossUpOsRule, wtBelowOsRule] []
    (by simp [NAME_OPENINGS]) (List.forall_mem_singleton.mpr rfl)
    (List.forall_mem_cons.mpr ⟨rule_eq_none.mpr (by decide),
      List.forall_mem_singleton.mpr (rule_eq_none.mpr (by decide))⟩)
    (rule_eq_some.mpr ⟨(), by decide, rfl⟩)

/-- Only a move is misworded. -/
theorem eq_of_not_move {a : AtomParts} {c : Condition} (h : a.family ∉ ["mom", "dip"])
    (hc : c = a.condition) : c = if a.misworded then .never else a.condition := by
  have hmom : a.family ≠ "mom" := fun hf => h (hf ▸ List.mem_cons_self)
  have hdip : a.family ≠ "dip" := fun hf => h (hf ▸ List.mem_cons_of_mem _ List.mem_cons_self)
  have hworded : a.misworded = false := by
    unfold AtomParts.misworded
    rw [decide_eq_false hmom, decide_eq_false hdip, Bool.false_and, Bool.false_and, Bool.false_or]
  rw [hworded]
  exact hc

/-- The parser reads an atom as what it stands for, unless it is misworded. -/
theorem parseName_inspect {tok : Text} {a : AtomParts} {c : Condition}
    (h : inspectAtom tok = some a) (hc : parseName (strip tok) = .ok c) :
    c = if a.misworded then .never else a.condition := by
  cases inspected h with
  | @rsiFull m hm =>
    refine eq_of_not_move (by simp) ((rsiFull_condition hm hc).trans ?_)
    cases m.2.2 <;> rfl
  | rsiLt hfull hm =>
    exact eq_of_not_move (by simp) (rsiLt_condition hfull hm hc)
  | rsiShort hfull hlt hm =>
    exact eq_of_not_move (by simp) (rsiShort_condition hfull hlt hm hc)
  | @move m hm =>
    obtain ⟨hkind, hlb, hword, hpct, ht⟩ := moveAtom_iff.mp hm
    rcases List.mem_pair.mp hkind with hk | hk <;> rcases List.mem_pair.mp hword with hw | hw
    · rw [hk, hw] at ht
      rw [mom_condition hlb hpct ht hc]
      simp [AtomParts.misworded, AtomParts.condition, AtomParts.bound, hm, hk, hw]
    · rw [hk, hw] at ht
      rw [ht, parseName_misworded hlb (Or.inl ⟨rfl, rfl⟩)] at hc
      cases hc
      simp [AtomParts.misworded, hm, hk, hw]
    · rw [hk, hw] at ht
      rw [ht, parseName_misworded hlb (Or.inr ⟨rfl, rfl⟩)] at hc
      cases hc
      simp [AtomParts.misworded, hm, hk, hw]
    · rw [hk, hw] at ht
      rw [dip_condition hlb hpct ht hc]
      simp [AtomParts.misworded, AtomParts.condition, AtomParts.bound, hm, hk, hw]
  | @htf m hm =>
    obtain ⟨htf, hkind⟩ := htfName_words hm
    rw [htf_condition hm hc]
    rcases List.mem_pair.mp htf with ht | ht <;> rcases List.mem_pair.mp hkind with hk | hk <;>
      simp [AtomParts.misworded, AtomParts.condition, timeframeOf, ht, hk]
  | @average m hm =>
    obtain ⟨hword, hn, ht⟩ := wordAtom_iff.mp hm
    rcases List.mem_pair.mp hword with hw | hw
    · rw [hw] at ht
      rw [smaAbove_condition hn ht hc]
      simp [AtomParts.misworded, AtomParts.condition, hw]
    · rw [hw] at ht
      rw [emaAbove_condition hn ht hc]
      simp [AtomParts.misworded, AtomParts.condition, hw]
  | smaStack hm =>
    exact eq_of_not_move (by simp) (smaStack_condition hm hc)
  | emaStack hm =>
    exact eq_of_not_move (by simp) (emaStack_condition hm hc)
  | @level m hm =>
    obtain ⟨hword, hn, ht⟩ := wordAtom_iff.mp hm
    unfold STRUCTURE_WORDS at hword
    simp only [List.mem_cons, List.not_mem_nil, or_false] at hword
    rcases hword with hw | hw | hw | hw | hw | hw <;> rw [hw] at ht
    · rw [don_condition "hi" (by decide) hn ht hc]
      simp [AtomParts.misworded, AtomParts.condition, hw]
    · rw [don_condition "lo" (by decide) hn ht hc]
      simp [AtomParts.misworded, AtomParts.condition, hw]
    · rw [nearSwing_condition "hi" (by decide) hn ht hc]
      simp [AtomParts.misworded, AtomParts.condition, hw]
    · rw [nearSwing_condition "lo" (by decide) hn ht hc]
      simp [AtomParts.misworded, AtomParts.condition, hw]
    · rw [dbl_condition "bot" (by decide) hn ht hc]
      simp [AtomParts.misworded, AtomParts.condition, hw]
    · rw [dbl_condition "top" (by decide) hn ht hc]
      simp [AtomParts.misworded, AtomParts.condition, hw]
  | band hm =>
    exact eq_of_not_move (by simp) (band_condition hm hc)
  | volume hm =>
    exact eq_of_not_move (by simp) (volume_condition hm hc)
  | plain hstack hplain =>
    have htext : ∀ w : String, String.ofList (strip tok) = w → strip tok = w.toList := fun w hw => by
      rw [← hw, String.toList_ofList]
    unfold PLAIN_ATOMS at hplain
    simp only [List.mem_cons, List.not_mem_nil, or_false] at hplain
    rcases hplain with hw | hw | hw | hw
    · rw [htext _ hw, parseName_crossUp] at hc
      refine eq_of_not_move (by simp [hw]) ((Except.ok.inj hc).symm.trans ?_)
      simp [AtomParts.condition, hw]
    · rw [htext _ hw, parseName_below] at hc
      refine eq_of_not_move (by simp [hw]) ((Except.ok.inj hc).symm.trans ?_)
      simp [AtomParts.condition, hw]
    · rw [htext _ hw, parseName_crossDown] at hc
      refine eq_of_not_move (by simp [hw]) ((Except.ok.inj hc).symm.trans ?_)
      simp [AtomParts.condition, hw]
    · rw [htext _ hw] at hstack
      exact absurd hstack (by decide)

/-! ## The numbers compared -/

/-- The number an atom with bounds is about: an RSI, or a return over a lookback. -/
def measure (family : String) (n : ℕ) (s : Ohlc) (i : ℕ) : Except String (Option ℚ) :=
  if family = "rsi" then rsi s.closes n i else rollingRet s.closes i n

/-- A number meets a bound; dips are falls, and their percents are of the fall. -/
def meets (family : String) (bound : Op × ℕ) (v : ℚ) : Bool :=
  match bound.1 with
  | .gt =>
    if family = "mom" then momThr bound.2 < v
    else if family = "dip" then v < dipThr bound.2
    else bound.2 < v
  | .lt => v ≤ bound.2

theorem momThr_mono {m n : ℕ} (h : m ≤ n) : momThr m ≤ momThr n := by
  have hq : (m : ℚ) ≤ n := Nat.cast_le.mpr h
  unfold momThr
  split <;> split
  · exact div_le_div_of_nonneg_right hq (by norm_num)
  · omega
  · have h0 : m = 0 := by omega
    rw [h0, Nat.cast_zero]
    positivity
  · exact hq

theorem dipThr_anti {m n : ℕ} (h : m ≤ n) : dipThr n ≤ dipThr m := by
  have hq : (m : ℚ) ≤ n := Nat.cast_le.mpr h
  unfold dipThr
  split <;> split
  · exact neg_le_neg (div_le_div_of_nonneg_right hq (by norm_num))
  · have h0 : m = 0 := by omega
    rw [h0, Nat.cast_zero, abs_zero, neg_zero, neg_nonpos]
    positivity
  · omega
  · rw [abs_of_nonneg (Nat.cast_nonneg _), abs_of_nonneg (Nat.cast_nonneg _)]
    exact neg_le_neg hq

theorem meets_gt_mono {family : String} {m n : ℕ} {v : ℚ} (h : m ≤ n)
    (hv : meets family (.gt, n) v = true) : meets family (.gt, m) v = true := by
  simp only [meets] at hv ⊢
  by_cases hmom : family = "mom"
  · rw [if_pos hmom, decide_eq_true_eq] at hv ⊢
    exact (momThr_mono h).trans_lt hv
  · rw [if_neg hmom] at hv ⊢
    by_cases hdip : family = "dip"
    · rw [if_pos hdip, decide_eq_true_eq] at hv ⊢
      exact hv.trans_le (dipThr_anti h)
    · rw [if_neg hdip, decide_eq_true_eq] at hv ⊢
      exact (Nat.cast_le.mpr h).trans_lt hv

theorem meets_lt_mono {family : String} {m n : ℕ} {v : ℚ} (h : n ≤ m)
    (hv : meets family (.lt, n) v = true) : meets family (.lt, m) v = true := by
  simp only [meets] at hv ⊢
  exact decide_eq_true ((of_decide_eq_true hv).trans (Nat.cast_le.mpr h))

/-- An RSI is a percentage. -/
theorem rsi_range {closes : List ℚ} {n i : ℕ} {v : ℚ} (h : rsi closes n i = .ok (some v)) :
    0 ≤ v ∧ v ≤ 100 := by
  unfold rsi at h
  split at h
  next => cases h
  next =>
    obtain ⟨diffs, -, h⟩ := except_bind_ok h
    obtain ⟨gain, hgain, h⟩ := except_bind_ok h
    obtain ⟨loss, hloss, h⟩ := except_bind_ok h
    obtain ⟨r, hr, h⟩ := except_bind_ok h
    have hv : r = v := Option.some.inj (Except.ok.inj h)
    have hshare : ∀ (moves : List ℚ) (x : ℚ), (∀ d ∈ moves, 0 ≤ d) →
        divide moves.sum ((n : ℤ) : ℚ) = .ok x → 0 ≤ x := by
      intro moves x hmoves hx
      unfold divide at hx
      split at hx
      next => cases hx
      next =>
        rw [← Except.ok.inj hx]
        exact div_nonneg (List.sum_nonneg hmoves) (by positivity)
    have hgain : 0 ≤ gain := by
      refine hshare _ _ (fun d hd => ?_) hgain
      obtain ⟨x, -, rfl⟩ := List.mem_map.mp hd
      exact le_max_left 0 x
    have hloss : 0 ≤ loss := by
      refine hshare _ _ (fun d hd => ?_) hloss
      obtain ⟨x, -, rfl⟩ := List.mem_map.mp hd
      exact le_max_left 0 (-x)
    rw [← hv]
    unfold rsiOf at hr
    split at hr
    next =>
      rw [← Except.ok.inj hr]
      split <;> norm_num
    next hne =>
      obtain ⟨share, hdiv, hr⟩ := except_bind_ok hr
      have hpos : 1 ≤ 1 + gain / loss := le_add_of_nonneg_right (div_nonneg hgain hloss)
      unfold divide at hdiv
      rw [if_neg (by linarith)] at hdiv
      have hval : 100 - 100 / (1 + gain / loss) = r := by
        rw [Except.ok.inj hdiv]
        exact Except.ok.inj hr
      have hle : 100 / (1 + gain / loss) ≤ 100 := div_le_self (by norm_num) hpos
      have hnonneg : 0 ≤ 100 / (1 + gain / loss) := by positivity
      constructor <;> linarith

/-- An atom has bounds when it is about a number. -/
theorem bounds_ne_nil_iff {tok : Text} {a : AtomParts} (h : inspectAtom tok = some a) :
    a.bounds ≠ [] ↔ a.family ∈ ["rsi", "mom", "dip"] := by
  cases inspected h with
  | rsiFull _ => simp
  | rsiLt _ _ => simp
  | rsiShort _ _ _ => simp
  | move hm =>
    rcases List.mem_pair.mp (moveAtom_iff.mp hm).1 with hk | hk <;> simp [hk]
  | htf hm =>
    obtain ⟨htf, hkind⟩ := htfName_words hm
    rcases List.mem_pair.mp htf with ht | ht <;> rcases List.mem_pair.mp hkind with hk | hk <;>
      simp [ht, hk]
  | average hm =>
    rcases List.mem_pair.mp (wordAtom_iff.mp hm).1 with hw | hw <;> simp [hw]
  | smaStack _ => simp
  | emaStack _ => simp
  | level hm =>
    have hword := (wordAtom_iff.mp hm).1
    unfold STRUCTURE_WORDS at hword
    simp only [List.mem_cons, List.not_mem_nil, or_false] at hword
    rcases hword with hw | hw | hw | hw | hw | hw <;> simp [hw]
  | band _ => simp
  | volume _ => simp
  | plain _ hplain =>
    unfold PLAIN_ATOMS at hplain
    simp only [List.mem_cons, List.not_mem_nil, or_false] at hplain
    rcases hplain with hw | hw | hw | hw <;> simp [hw]

/-- Atoms of one key with the same bounds stand for the same condition. -/
theorem condition_congr {a b : AtomParts} (hkey : a.key = b.key) (hbounds : a.bounds = b.bounds) :
    a.condition = b.condition := by
  obtain ⟨hfamily, hside, hparams⟩ : a.family = b.family ∧ a.side = b.side ∧ a.params = b.params := by
    unfold AtomParts.key at hkey
    exact ⟨(Prod.mk.inj hkey).1, (Prod.mk.inj (Prod.mk.inj hkey).2).1, (Prod.mk.inj (Prod.mk.inj hkey).2).2⟩
  unfold AtomParts.condition AtomParts.bound
  rw [hfamily, hside, hparams, hbounds]

/-- The ends of the range that no bound gives are met by every RSI. -/
theorem eval_rsi {a : AtomParts} (h : a.family = "rsi") (sqrt : ℚ → ℚ) (s : Ohlc) (i : ℕ) :
    a.condition.eval sqrt s i = (do
      let r ← rsi s.closes (a.params.headD 0 : ℕ) i
      pure (r.any fun v => (a.bound .gt).all (fun lo : ℕ => (lo : ℚ) < v) &&
        (a.bound .lt).all fun hi : ℕ => v ≤ (hi : ℚ))) := by
  have hcond : a.condition = .atom (.rsiRange (a.params.headD 0 : ℕ)
      ((a.bound .gt).elim (-1) fun lo => lo) ((a.bound .lt).elim 100 fun hi => hi)) := if_pos h
  rw [hcond]
  show evalRsiRange _ _ _ _ _ = _
  unfold evalRsiRange
  cases hr : rsi s.closes (a.params.headD 0 : ℕ) i with
  | error e => rfl
  | ok r =>
    cases r with
    | none => rfl
    | some v =>
      obtain ⟨h0, h100⟩ := rsi_range hr
      have hneg : -1 < v := by linarith
      refine congrArg Except.ok ?_
      rw [Bool.eq_iff_iff, decide_eq_true_eq]
      cases a.bound .gt <;> cases a.bound .lt <;> simp [h100, hneg]

theorem evalMomGt_eq (closes : List ℚ) (n : ℕ) (thr : ℚ) (i : ℕ) :
    evalMomGt closes n thr i = (do
      let r ← rollingRet closes i n
      pure (r.any fun v => decide (thr < v))) := by
  unfold evalMomGt
  cases rollingRet closes i n with
  | error e => rfl
  | ok r => cases r <;> rfl

theorem evalMomLt_eq (closes : List ℚ) (n : ℕ) (thr : ℚ) (i : ℕ) :
    evalMomLt closes n thr i = (do
      let r ← rollingRet closes i n
      pure (r.any fun v => decide (v < thr))) := by
  unfold evalMomLt
  cases rollingRet closes i n with
  | error e => rfl
  | ok r => cases r <;> rfl

/-- An atom with bounds asks for its number, and whether it meets them. -/
theorem eval_bounded {tok : Text} {a : AtomParts} (h : inspectAtom tok = some a)
    (hb : a.bounds ≠ []) (sqrt : ℚ → ℚ) (s : Ohlc) (i : ℕ) :
    a.condition.eval sqrt s i = (do
      let r ← measure a.family (a.params.headD 0) s i
      pure (r.any fun v => a.bounds.all fun b => meets a.family b v)) := by
  cases inspected h with
  | @rsiFull c _ =>
    rw [eval_rsi rfl]
    cases c.2.2 <;> simp [measure, meets, AtomParts.bound]
  | rsiLt _ _ =>
    rw [eval_rsi rfl]
    simp [measure, meets, AtomParts.bound]
  | rsiShort _ _ _ =>
    rw [eval_rsi rfl]
    simp [measure, meets, AtomParts.bound]
  | @move m hm =>
    rcases List.mem_pair.mp (moveAtom_iff.mp hm).1 with hk | hk
    · simp [hk, measure, meets, AtomParts.condition, AtomParts.bound, Condition.eval, Atom.eval, evalMomGt_eq]
    · simp [hk, measure, meets, AtomParts.condition, AtomParts.bound, Condition.eval, Atom.eval, evalMomLt_eq]
  | htf _ | average _ | smaStack _ | emaStack _ | level _ | band _ | volume _ | plain _ _ =>
    exact absurd rfl hb

end PaperTrading.Mint
