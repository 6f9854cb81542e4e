import Mathlib.Data.List.Sort
import PaperTrading.Lib.Decimal
import PaperTrading.Lib.Dict
import PaperTrading.Signals.Parse

/-!
# The names of discovery strategies

A discovery name is a stack of atoms joined by `&`. `trading/mint_quality.py` takes an atom
apart into a family, parameters and bounds, and writes a stack in one way, sorted, with the
bounds of one indicator collapsed to the strictest (`canonicalName`);
`trading/universe.py` rounds the parameters of every atom (`nearDuplicateKey`). Both keys of
a name that has an atom have something in them (`canonicalName_ne_nil`,
`nearDuplicateKey_ne_nil`).

Whole numbers are read without a limit on their digits, and thresholds are exact.
-/

namespace PaperTrading.Mint

open Lib
open Signals (digits stackName rsiFullName rsiLtName pairName htfName)

/-- `[p.strip() for p in name.split("&") if p.strip()]` -/
def atomsOf (name : Text) : List Text := ((name.splitOn '&').map strip).filter (· ≠ [])

/-- `"&".join(atoms)` -/
def joined (atoms : List Text) : Text := List.intercalate ['&'] atoms

/-- `sorted(texts)` -/
def sortedTexts (texts : List Text) : List Text := texts.insertionSort fun a b => ¬ b < a

/-- `int(ds)` of digits. -/
def natOf (ds : Text) : ℕ := ds.foldl (fun n c => 10 * n + digitValue c) 0

/-- `str(n)` -/
def printed (n : ℕ) : Text := Nat.toDigits 10 n

/-! ## Atoms -/

/-- `^(mom|dip)_(\d+)b_(gt|lt)(\d+)pc$` -/
def moveAtom : Pattern (String × Text × String × Text) := do
  let kind ← .oneOf ["mom", "dip"]
  .lit "_"
  let lookback ← digits
  .lit "b_"
  let word ← .oneOf ["gt", "lt"]
  let pct ← digits
  .lit "pc"
  pure (kind, lookback, word, pct)

/-- `^(…)_(\d+)$`, over the words in front. -/
def wordAtom (words : List String) : Pattern (String × Text) := do
  let word ← .oneOf words
  .lit "_"
  let n ← digits
  pure (word, n)

/-- `sma_abv`, `ema_abv` -/
def MA_WORDS : List String := ["sma_abv", "ema_abv"]

def STRUCTURE_WORDS : List String :=
  ["don_hi", "don_lo", "near_swing_hi", "near_swing_lo", "dbl_bot", "dbl_top"]

/-- `^bb_(lower|upper)_(\d+)_(\d+)$` -/
def bandAtom : Pattern (String × Text × Text) := do
  .lit "bb_"
  let side ← .oneOf ["lower", "upper"]
  .lit "_"
  let p ← digits
  .lit "_"
  let sd ← digits
  pure (side, p, sd)

/-- The direction of a bound. -/
inductive Op where
  | gt
  | lt
deriving DecidableEq, Repr

/-- `AtomParts`; `side` is the word among the parameters of a band atom. -/
structure AtomParts where
  family : String
  side : String
  params : List ℕ
  bounds : List (Op × ℕ)
  parserSupported : Bool
  raw : Text
deriving DecidableEq, Repr

/-- `(atom.family, atom.params)` -/
def AtomParts.key (a : AtomParts) : String × String × List ℕ := (a.family, a.side, a.params)

/-- `_STACK_RE`'s periods: `tuple(int(p) for p in raw.split("_") if p)`. -/
def stackPeriods : Option Text → List ℕ
  | none => []
  | some ds => ((ds.splitOn '_').filter (· ≠ [])).map natOf

/-- The atoms that are one word. -/
def PLAIN_ATOMS : List String := ["wt_cross_up_os", "wt_below_os", "wt_cross_down_ob", "sma_stack"]

/-- `inspect_atom`; every form it knows is one the parser evaluates. -/
def inspectAtom (atom : Text) : Option AtomParts :=
  let text := strip atom
  let pack := fun (family side : String) (params : List ℕ) (bounds : List (Op × ℕ)) =>
    some (AtomParts.mk family side params bounds true text)
  if text = [] then none
  else
    firstRule
      [rule rsiFullName fun c => pack "rsi" "" [natOf c.1]
          ((.gt, natOf c.2.1) :: c.2.2.toList.map fun hi => (.lt, natOf hi)),
        rule rsiLtName fun c => pack "rsi" "" [natOf c.1] [(.lt, natOf c.2)],
        rule (pairName "rsi_") fun c => pack "rsi" "" [natOf c.1] [(.gt, natOf c.2)],
        rule moveAtom fun c => pack c.1 "" [natOf c.2.1] [(.gt, natOf c.2.2.2)],
        rule htfName fun c => pack (c.1 ++ "_" ++ c.2.1 ++ "_abv") "" [natOf c.2.2] [],
        rule (wordAtom MA_WORDS) fun c => pack c.1 "" [natOf c.2] [],
        rule (stackName "sma") fun c => pack "sma_stack" "" (stackPeriods c) [],
        rule (stackName "ema") fun c => pack "ema_stack" "" (stackPeriods c) [],
        rule (wordAtom STRUCTURE_WORDS) fun c => pack c.1 "" [natOf c.2] [],
        rule bandAtom fun c => pack "bb" c.1 [natOf c.2.1, natOf c.2.2] [],
        rule (pairName "vol_lowsm_") fun c => pack "vol_lowsm" "" [natOf c.1, natOf c.2] []]
      (if String.ofList text ∈ PLAIN_ATOMS then pack (String.ofList text) "" [] [] else none)
      text

example : (inspectAtom "mom_18b_gt2pc".toList).map AtomParts.key = some ("mom", "", [18]) := by
  decide +kernel

/-! ## Groups of one indicator -/

/-- The bounds of a group in one direction. -/
def boundsOf (op : Op) (group : List AtomParts) : List ℕ :=
  (group.flatMap AtomParts.bounds).filterMap fun b => if b.1 = op then some b.2 else none

/-- `wanted` of `_strict_raw`: the strictest bound each way. -/
def wanted (group : List AtomParts) : List (Op × ℕ) :=
  ((boundsOf .gt group).max?.map (Op.gt, ·)).toList ++
    ((boundsOf .lt group).min?.map (Op.lt, ·)).toList

/-- The atom `_strict_raw` writes for a bound no atom of the group has alone. -/
def strictText (sample : AtomParts) (bound : Op × ℕ) : Text :=
  match sample.family, sample.params with
  | "rsi", period :: _ =>
    "rsi_".toList ++ printed period ++ '_' :: (if bound.1 = .gt then '>' else '<') :: printed bound.2
  | "mom", lookback :: _ =>
    "mom_".toList ++ printed lookback ++ "b_gt".toList ++ printed bound.2 ++ "pc".toList
  | "dip", lookback :: _ =>
    "dip_".toList ++ printed lookback ++ "b_lt".toList ++ printed bound.2 ++ "pc".toList
  | _, _ => sample.raw

/-- `_strict_raw`: one atom a bound, at the strictest threshold of the group. -/
def strictRaw : List AtomParts → List Text
  | [] => []
  | sample :: rest =>
    let group := sample :: rest
    let bounds := wanted group
    if ∀ a ∈ group, a.bounds = [] then [sample.raw]
    else
      match group.find? fun a => (∀ b ∈ a.bounds, b ∈ bounds) ∧ ∀ b ∈ bounds, b ∈ a.bounds with
      | some a => [a.raw]
      | none => bounds.map fun b =>
        ((group.find? fun a => a.bounds = [b]).map AtomParts.raw).getD (strictText sample b)

/-- `grouped`: the atoms by family and parameters, in the order the groups were met. -/
def grouped (atoms : List AtomParts) : Dict (String × String × List ℕ) (List AtomParts) :=
  atoms.foldl (fun d a => d.set a.key ((d.get? a.key).getD [] ++ [a])) Dict.empty

/-- `canonical_atoms` -/
def canonicalAtoms (name : Text) : List Text :=
  let unknown := (atomsOf name).filter fun tok => (inspectAtom tok).isNone
  let groups := (grouped ((atomsOf name).filterMap inspectAtom)).entries.map Prod.snd
  sortedTexts (groups.flatMap strictRaw ++ unknown)

/-- `canonical_name` -/
def canonicalName (name : Text) : Text := joined (canonicalAtoms name)

/-- `canonical_key_set` -/
def canonicalKeySet (names : List Text) : List Text :=
  ((names.filter (· ≠ [])).map canonicalName).filter (· ≠ [])

example : canonicalName "rsi_14_>45&mom_18b_gt2pc&rsi_14_>50".toList =
    "mom_18b_gt2pc&rsi_14_>50".toList := by decide +kernel

/-! ## Near duplicates -/

/-- `int(round(n / step) * step)` -/
def toStep (step n : ℕ) : ℕ := (roundHalfEven ((n : ℚ) / step)).toNat * step

/-- `_round_period` -/
def roundPeriod (n : ℕ) : ℕ :=
  if n < 10 then (if n < 8 then 5 else 10)
  else if n < 40 then (if toStep 5 n = 0 then 5 else toStep 5 n)
  else if toStep 10 n = 0 then 10 else toStep 10 n

/-- `round(n / step) * step or step` -/
def toStepOr (step n : ℕ) : ℕ := if toStep step n = 0 then step else toStep step n

/-- `^(sma_stack|ema_stack)_([\d_]+)$` -/
def stackAtom : Pattern (String × Text) := do
  let kind ← .oneOf ["sma_stack", "ema_stack"]
  .lit "_"
  let periods ← .many1 fun c => isDigit c || c = '_'
  pure (kind, periods)

/-- `^(h4|h1)_(sma_abv|ema_abv)_(\d+)$` -/
def htfAtom : Pattern (String × String × Text) := do
  let tf ← .oneOf ["h4", "h1"]
  .lit "_"
  let kind ← .oneOf MA_WORDS
  .lit "_"
  let period ← digits
  pure (tf, kind, period)

/-- `^rsi_(\d+)_>(\d+)(?:_<(\d+))?$` -/
def rsiAbove : Pattern (Text × Text × Option Text) := do
  .lit "rsi_"
  let p ← digits
  .lit "_>"
  let th ← digits
  let ov ← .opt do
    .lit "_<"
    digits
  pure (p, th, ov)

/-- `^rsi_(\d+)_<(\d+)$` -/
def rsiBelow : Pattern (Text × Text) := do
  .lit "rsi_"
  let p ← digits
  .lit "_<"
  let th ← digits
  pure (p, th)

/-- `_canon_atom` -/
def canonAtom (atom : Text) : Text :=
  firstRule
    [rule stackAtom fun c => c.1.toList ++ '_' ::
        List.intercalate ['_'] (((c.2.splitOn '_').filter (· ≠ [])).map fun p =>
          printed (roundPeriod (natOf p))),
      rule (wordAtom MA_WORDS) fun c => c.1.toList ++ '_' :: printed (roundPeriod (natOf c.2)),
      rule htfAtom fun c =>
        c.1.toList ++ '_' :: c.2.1.toList ++ '_' :: printed (roundPeriod (natOf c.2.2)),
      rule rsiAbove fun c => 'r' :: 's' :: 'i' :: '_' :: printed (roundPeriod (natOf c.1)) ++
        "_>".toList ++ printed (toStep 5 (natOf c.2.1)) ++
        c.2.2.elim [] (fun ov => "_<".toList ++ printed (toStep 5 (natOf ov))),
      rule rsiBelow fun c => 'r' :: 's' :: 'i' :: '_' :: printed (roundPeriod (natOf c.1)) ++
        "_<".toList ++ printed (toStep 5 (natOf c.2)),
      rule moveAtom fun c => c.1.toList ++ '_' :: printed (toStepOr 6 (natOf c.2.1)) ++
        "b_".toList ++ c.2.2.1.toList ++ printed (toStepOr 2 (natOf c.2.2.2)) ++ "pc".toList,
      rule bandAtom fun c => 'b' :: 'b' :: '_' :: c.1.toList ++ '_' ::
        printed (roundPeriod (natOf c.2.1)) ++ '_' :: c.2.2,
      rule (pairName "vol_lowsm_") fun c => 'v' :: "ol_lowsm_".toList ++
        printed (roundPeriod (natOf c.1)) ++ '_' :: printed (roundPeriod (natOf c.2)),
      rule (wordAtom STRUCTURE_WORDS) fun c => c.1.toList ++ '_' :: printed (toStepOr 6 (natOf c.2))]
    (if atom = "sma_stack".toList then "sma_stack_5_25_50".toList else atom) atom

/-- `near_duplicate_key` -/
def nearDuplicateKey (name : Text) : Text := joined (sortedTexts ((atomsOf name).map canonAtom))

example : nearDuplicateKey "sma_abv_51&rsi_14_>52".toList =
    nearDuplicateKey "rsi_15_>50&sma_abv_49".toList := by decide +kernel

/-! ## Names with an atom -/

theorem joined_ne_nil {atoms : List Text} (hne : atoms ≠ []) (h : ∀ a ∈ atoms, a ≠ []) :
    joined atoms ≠ [] := by
  obtain ⟨a, rest, rfl⟩ := List.exists_cons_of_ne_nil hne
  have ha := h a List.mem_cons_self
  unfold joined
  cases rest with
  | nil => simpa using ha
  | cons b rest => simp [List.intercalate, ha]

theorem mem_sortedTexts {texts : List Text} {t : Text} : t ∈ sortedTexts texts ↔ t ∈ texts :=
  List.mem_insertionSort _

theorem sortedTexts_ne_nil {texts : List Text} (h : texts ≠ []) : sortedTexts texts ≠ [] := by
  obtain ⟨t, ht⟩ := List.exists_mem_of_ne_nil _ h
  exact List.ne_nil_of_mem (mem_sortedTexts.mpr ht)

theorem ne_nil_of_mem_atomsOf {name tok : Text} (h : tok ∈ atomsOf name) : tok ≠ [] := by
  have hne := (List.mem_filter.mp h).2
  exact of_decide_eq_true hne

/-- An atom that is known keeps its text. -/
theorem inspectAtom_raw {atom : Text} {a : AtomParts} (h : inspectAtom atom = some a) : a.raw ≠ [] := by
  unfold inspectAtom at h
  dsimp only at h
  split at h
  next => cases h
  next hne =>
    have hraw : ∀ b : Option AtomParts, b = some a →
        (∀ x : AtomParts, b = some x → x.raw = strip atom) → a.raw ≠ [] :=
      fun b hb hall => (hall a hb).symm ▸ hne
    refine hraw _ h (firstRule_forall (P := fun b => ∀ x : AtomParts, b = some x →
      x.raw = strip atom) (fun r hr => ?_) fun x hx => ?_)
    · simp only [List.mem_cons, List.not_mem_nil, or_false] at hr
      rcases hr with rfl | rfl | rfl | rfl | rfl | rfl | rfl | rfl | rfl | rfl | rfl <;>
        exact rule_forall fun c x hx => Option.some.inj hx ▸ rfl
    · split at hx
      next => exact Option.some.inj hx ▸ rfl
      next => cases hx

theorem strictText_ne_nil {sample : AtomParts} (h : sample.raw ≠ []) (bound : Op × ℕ) :
    strictText sample bound ≠ [] := by
  unfold strictText
  split
  · simp
  · simp
  · simp
  · exact h

theorem wanted_ne_nil {group : List AtomParts} (h : ¬ ∀ a ∈ group, a.bounds = []) :
    wanted group ≠ [] := by
  push Not at h
  obtain ⟨a, ha, hbounds⟩ := h
  obtain ⟨b, hb⟩ := List.exists_mem_of_ne_nil _ hbounds
  have hmem : b.2 ∈ boundsOf b.1 group := by
    refine List.mem_filterMap.mpr ⟨b, List.mem_flatMap.mpr ⟨a, ha, hb⟩, ?_⟩
    rw [if_pos rfl]
  have hsome : ∀ o : Option ℕ, o ≠ none → ∀ op : Op, (o.map (op, ·)).toList ≠ [] := by
    intro o ho op
    cases o with
    | none => exact absurd rfl ho
    | some n => simp
  unfold wanted
  cases hop : b.1 with
  | gt =>
    rw [hop] at hmem
    exact List.append_ne_nil_of_left_ne_nil
      (hsome _ (fun hnone => List.ne_nil_of_mem hmem (List.max?_eq_none_iff.mp hnone)) _) _
  | lt =>
    rw [hop] at hmem
    exact List.append_ne_nil_of_right_ne_nil _
      (hsome _ (fun hnone => List.ne_nil_of_mem hmem (List.min?_eq_none_iff.mp hnone)) _)

/-- A group of atoms is written as some atoms, none of them empty. -/
theorem strictRaw_spec {group : List AtomParts} (hne : group ≠ []) (h : ∀ a ∈ group, a.raw ≠ []) :
    strictRaw group ≠ [] ∧ ∀ t ∈ strictRaw group, t ≠ [] := by
  obtain ⟨sample, rest, rfl⟩ := List.exists_cons_of_ne_nil hne
  have hsample := h sample List.mem_cons_self
  unfold strictRaw
  dsimp only
  split
  next => exact ⟨List.cons_ne_nil _ _, fun t ht => List.mem_singleton.mp ht ▸ hsample⟩
  next hbounds =>
    split
    next a ha =>
      have hmem := List.mem_of_find?_eq_some ha
      exact ⟨List.cons_ne_nil _ _, fun t ht => List.mem_singleton.mp ht ▸ h a hmem⟩
    next =>
      refine ⟨fun hnil => wanted_ne_nil hbounds (List.map_eq_nil_iff.mp hnil), fun t ht => ?_⟩
      obtain ⟨b, -, rfl⟩ := List.mem_map.mp ht
      cases hfind : (sample :: rest).find? fun a => a.bounds = [b] with
      | none => exact strictText_ne_nil hsample b
      | some a => exact h a (List.mem_of_find?_eq_some hfind)

theorem grouped_concat (atoms : List AtomParts) (a : AtomParts) : grouped (atoms ++ [a]) =
    (grouped atoms).set a.key (((grouped atoms).get? a.key).getD [] ++ [a]) := by
  unfold grouped
  rw [List.foldl_append]
  rfl

/-- No group is empty, and each holds atoms that were met. -/
theorem mem_grouped {atoms : List AtomParts} {key : String × String × List ℕ}
    {group : List AtomParts} (h : (grouped atoms).get? key = some group) :
    group ≠ [] ∧ ∀ a ∈ group, a ∈ atoms := by
  induction atoms using List.reverseRecOn generalizing key group with
  | nil => cases h
  | append_singleton atoms a ih =>
    rw [grouped_concat, Dict.get?_set] at h
    split at h
    next =>
      obtain rfl := Option.some.inj h
      refine ⟨List.append_ne_nil_of_right_ne_nil _ (List.cons_ne_nil _ _), fun x hx => ?_⟩
      rcases List.mem_append.mp hx with hx | hx
      · cases hold : (grouped atoms).get? a.key with
        | none =>
          rw [hold] at hx
          cases hx
        | some old =>
          rw [hold] at hx
          exact List.mem_append_left _ ((ih hold).2 x hx)
      · exact List.mem_append_right _ hx
    next => exact ⟨(ih h).1, fun x hx => List.mem_append_left _ ((ih h).2 x hx)⟩

theorem grouped_ne_nil {atoms : List AtomParts} (h : atoms ≠ []) :
    ∃ key group, (grouped atoms).get? key = some group := by
  obtain ⟨front, a, rfl⟩ := (List.eq_nil_or_concat' atoms).resolve_left h
  refine ⟨a.key, ((grouped front).get? a.key).getD [] ++ [a], ?_⟩
  rw [grouped_concat, Dict.get?_set, if_pos rfl]

theorem mem_canonicalAtoms {name t : Text} (h : t ∈ canonicalAtoms name) : t ≠ [] := by
  rcases List.mem_append.mp (mem_sortedTexts.mp h) with h | h
  · obtain ⟨group, hgroup, ht⟩ := List.mem_flatMap.mp h
    obtain ⟨⟨key, _⟩, hentry, rfl⟩ := List.mem_map.mp hgroup
    obtain ⟨hne, hmet⟩ := mem_grouped (Dict.get?_eq_some.mpr hentry)
    refine (strictRaw_spec hne fun a ha => ?_).2 t ht
    obtain ⟨tok, -, htok⟩ := List.mem_filterMap.mp (hmet a ha)
    exact inspectAtom_raw htok
  · exact ne_nil_of_mem_atomsOf (List.mem_filter.mp h).1

theorem canonicalAtoms_ne_nil {name : Text} (h : atomsOf name ≠ []) : canonicalAtoms name ≠ [] := by
  obtain ⟨tok, htok⟩ := List.exists_mem_of_ne_nil _ h
  refine sortedTexts_ne_nil ?_
  cases hinspect : inspectAtom tok with
  | none =>
    refine List.append_ne_nil_of_right_ne_nil _ (List.ne_nil_of_mem (List.mem_filter.mpr ⟨htok, ?_⟩))
    rw [hinspect]
    rfl
  | some a =>
    have hmem : a ∈ (atomsOf name).filterMap inspectAtom := List.mem_filterMap.mpr ⟨tok, htok, hinspect⟩
    obtain ⟨key, group, hgroup⟩ := grouped_ne_nil (List.ne_nil_of_mem hmem)
    obtain ⟨hne, hmet⟩ := mem_grouped hgroup
    have hraw : ∀ a ∈ group, a.raw ≠ [] := fun a ha => by
      obtain ⟨tok, -, htok⟩ := List.mem_filterMap.mp (hmet a ha)
      exact inspectAtom_raw htok
    obtain ⟨t, ht⟩ := List.exists_mem_of_ne_nil _ (strictRaw_spec hne hraw).1
    refine List.append_ne_nil_of_left_ne_nil (List.ne_nil_of_mem (List.mem_flatMap.mpr ⟨group, ?_, ht⟩)) _
    exact List.mem_map.mpr ⟨(key, group), Dict.get?_eq_some.mp hgroup, rfl⟩

theorem canonicalName_ne_nil {name : Text} (h : atomsOf name ≠ []) : canonicalName name ≠ [] :=
  joined_ne_nil (canonicalAtoms_ne_nil h) fun _ => mem_canonicalAtoms

theorem canonAtom_ne_nil {atom : Text} (h : atom ≠ []) : canonAtom atom ≠ [] := by
  refine firstRule_forall (P := fun t => t ≠ []) (fun r hr => ?_) ?_
  · simp only [List.mem_cons, List.not_mem_nil, or_false] at hr
    rcases hr with rfl | rfl | rfl | rfl | rfl | rfl | rfl | rfl | rfl <;>
      exact rule_forall fun c => by simp
  · split
    · decide
    · exact h

theorem nearDuplicateKey_ne_nil {name : Text} (h : atomsOf name ≠ []) : nearDuplicateKey name ≠ [] := by
  refine joined_ne_nil (sortedTexts_ne_nil fun hnil => h (List.map_eq_nil_iff.mp hnil)) ?_
  intro t ht
  obtain ⟨tok, htok, rfl⟩ := List.mem_map.mp (mem_sortedTexts.mp ht)
  exact canonAtom_ne_nil (ne_nil_of_mem_atomsOf htok)

end PaperTrading.Mint
