import Mathlib.Data.Nat.Sqrt
import PaperTrading.Mint.Atoms

/-!
# What must not be minted

The bans of `trading/mint_quality.py` and the parser's allow-list of `trading/refill.py`. A
ban is a property of the name, of the largest move on the tape (`MintContext`), or of the
canonical names that were tested; the more were tested, the more is banned
(`mintBlockReason_mono`).
-/

namespace PaperTrading.Mint

open Lib
open Signals (digits)

def DEAD_MOM_PCT : ℕ := 14
def DEAD_DIP_LOOKBACKS : List ℕ := [18, 24]
def DEAD_DIP_PCT : ℕ := 5
def DEAD_DEPTH : ℕ := 5
def RECIPE_MAX_ATOMS : ℕ := 7
def DEFAULT_STRUCTURE_LOOKBACK_MAX : ℤ := 96

/-- What the bans read besides the name: `_empirical_cap`, none where no tape says how far a
lookback moves, and `structure_lookback_max`. -/
structure MintContext where
  empiricalCap : ℕ → Option ℚ
  structureLookbackMax : ℤ

/-! ## Bounds -/

/-- `_merged_interval`, an open end being none. -/
def mergedInterval (group : List AtomParts) : Option ℕ × Option ℕ :=
  ((boundsOf .gt group).max?, (boundsOf .lt group).min?)

/-- `lo >= hi` -/
def emptyBand : Option ℕ × Option ℕ → Bool
  | (some lo, some hi) => hi ≤ lo
  | _ => false

/-- `group_bound_reason` -/
def groupBoundReason (group : List AtomParts) : Option String :=
  if group = [] then none
  else if emptyBand (mergedInterval group) then some "empty_band"
  else if group.length = 1 then none
  else if ¬ group.all AtomParts.parserSupported then some "unsupported_band"
  else if (List.range group.length).any fun i =>
      mergedInterval (group.eraseIdx i) = mergedInterval group then some "redundant_threshold"
  else none

/-- `redundant_bound_reason` -/
def redundantBoundReason (name : Text) : Option String :=
  ((grouped ((atomsOf name).filterMap inspectAtom)).entries.map Prod.snd).findSome? groupBoundReason

/-! ## Dead zones -/

/-- The dead percents of one momentum or dip atom. -/
def deadMove (tok : Text) : Option String :=
  match moveAtom.whole tok with
  | none => none
  | some c =>
    if c.1 = "mom" ∧ DEAD_MOM_PCT ≤ natOf c.2.2.2 then some "dead_mom_threshold"
    else if c.1 = "dip" ∧ natOf c.2.1 ∈ DEAD_DIP_LOOKBACKS ∧ DEAD_DIP_PCT ≤ natOf c.2.2.2 then
      some "dead_dip"
    else none

/-- An atom of `_has_htf_ma`. -/
def isHtfMa (a : AtomParts) : Bool :=
  (a.family.startsWith "h1_" || a.family.startsWith "h4_") && a.family.endsWith "_abv"

/-- `_is_filler` -/
def isFiller (a : AtomParts) : Bool :=
  MA_WORDS.contains a.family || (a.family = "rsi" && a.bounds.any fun b => b.1 = .gt)

/-- `dead_zone_reason` -/
def deadZoneReason (name : Text) : Option String :=
  let raw := atomsOf name
  let parsed := raw.filterMap inspectAtom
  if DEAD_DEPTH ≤ raw.length then some "dead_depth"
  else (raw.findSome? deadMove).or
    (if parsed.any isHtfMa && parsed.any isFiller then some "filler_atom" else none)

/-! ## Moves out of reach -/

/-- `math.ceil(math.sqrt(n))` -/
def ceilSqrt (n : ℕ) : ℕ := if n.sqrt * n.sqrt = n then n.sqrt else n.sqrt + 1

/-- `_static_cap` -/
def staticCap (lookback : ℕ) : ℕ :=
  let n := max 1 lookback
  if n ≤ 6 then 4
  else if n ≤ 12 then 6
  else if n ≤ 36 then 8
  else if n ≤ 48 then 10
  else if n ≤ 96 then 14
  else max 14 (min (ceilSqrt n * 2) 40)

section
variable (ctx : MintContext)

/-- `max_move_pct` -/
def maxMovePct (lookback : ℕ) : ℚ := (ctx.empiricalCap lookback).getD (staticCap lookback)

/-- A move of more than the cap. -/
def outOfReach (tok : Text) : Bool :=
  match moveAtom.whole tok with
  | none => false
  | some c => maxMovePct ctx (natOf c.2.1) < natOf c.2.2.2

/-- `unreachable_threshold_reason` -/
def unreachableThresholdReason (name : Text) : Option String :=
  if (atomsOf name).any (outOfReach ctx) then some "unreachable_threshold" else none

/-- `canonical_tested_reason` -/
def canonicalTestedReason (name : Text) (testedKeys : List Text) : Option String :=
  if canonicalName name ≠ [] ∧ canonicalName name ∈ testedKeys then some "canonical_tested" else none

/-- `mint_block_reason` -/
def mintBlockReason (name : Text) (testedKeys : List Text) : Option String :=
  (((deadZoneReason name).or (redundantBoundReason name)).or
    (unreachableThresholdReason ctx name)).or (canonicalTestedReason name testedKeys)

end

/-! ## The parser's names -/

/-- What no name may have in it. -/
def REFUSED_WORDS : List String :=
  ["head_and_shoulders", "flag", "triangle", "engulfing", "hammer", "doji", "morning_star",
    "evening_star", "mfi_", "wt_", "sommi", "gold_dot", "dbl_top_", "daily(", "h1(", "m5(",
    "chart_pattern", "order_block", "fvg_", "candlestick"]

/-- `word in t` -/
def contains (t : Text) (word : String) : Bool := t.tails.any fun rest => word.toList.isPrefixOf rest

/-- `name_is_refused`. Letters of other scripts that fold to these are in no allowed atom. -/
def nameIsRefused (name : Text) : Bool :=
  REFUSED_WORDS.any (contains (name.map Char.toLower))

/-- `^mom_\d+b_gt\d+pc$` and `^dip_\d+b_lt\d+pc$` -/
def allowedMove (kind word : String) : Pattern Unit := do
  .lit (kind ++ "_")
  let _ ← digits
  .lit ("b_" ++ word)
  let _ ← digits
  .lit "pc"

/-- `^h4_(ema|sma)_abv_\d+$` and `^h1_(ema|sma)_abv_\d+$` -/
def allowedHtf (tf : String) : Pattern Unit := do
  .lit (tf ++ "_")
  let _ ← .oneOf ["ema", "sma"]
  .lit "_abv_"
  let _ ← digits
  pure ()

/-- `atom_is_allowed` -/
def atomIsAllowed (atom : Text) : Bool :=
  ((Signals.stackName "sma").whole atom).isSome || ((Signals.stackName "ema").whole atom).isSome ||
    ((wordAtom MA_WORDS).whole atom).isSome || (rsiAbove.whole atom).isSome ||
    (rsiBelow.whole atom).isSome || ((allowedMove "mom" "gt").whole atom).isSome ||
    ((allowedMove "dip" "lt").whole atom).isSome || ((wordAtom ["don_hi", "don_lo"]).whole atom).isSome ||
    ((wordAtom ["near_swing_hi", "near_swing_lo"]).whole atom).isSome ||
    ((wordAtom ["dbl_bot"]).whole atom).isSome || ((allowedHtf "h4").whole atom).isSome ||
    ((allowedHtf "h1").whole atom).isSome

/-- `name_is_parseable` -/
def nameIsParseable (name : Text) : Bool :=
  name ≠ [] && !nameIsRefused name && atomsOf name ≠ [] &&
    (atomsOf name).length ≤ RECIPE_MAX_ATOMS && (atomsOf name).all atomIsAllowed

/-- Whether an atom of `name_has_mom_gt_and_dip` says the price went up. -/
def isMomGt (tok : Text) : Bool :=
  ((allowedMove "mom" "gt").whole tok).isSome || ("mom_".toList.isPrefixOf tok && contains tok "_gt")

/-- `name_has_mom_gt_and_dip` -/
def nameHasMomGtAndDip (name : Text) : Bool :=
  (atomsOf name).any isMomGt &&
    (atomsOf name).any fun tok => !isMomGt tok && "dip_".toList.isPrefixOf tok

/-- `_h4_and_mom`; these parts are not stripped. -/
def h4AndMom (name : Text) : Bool :=
  (name.splitOn '&').any (fun atom => "h4_".toList.isPrefixOf atom) &&
    (name.splitOn '&').any fun atom => "mom_".toList.isPrefixOf atom

/-- `structure_lookbacks`, the numbers. -/
def structureLookbacks (name : Text) : List ℕ :=
  (name.splitOn '&').filterMap fun atom =>
    ((wordAtom STRUCTURE_WORDS).whole (strip atom)).map fun c => natOf c.2

/-- `lookback_too_expensive_reason(name, cap)`; a cap of zero or less is off. -/
def lookbackTooExpensive (name : Text) (cap : ℤ) : Bool :=
  0 < cap && (structureLookbacks name).max?.any fun worst => cap < worst

/-- `_is_refillable_name`: a structure atom or a higher timeframe; not stripped. -/
def isRefillableName (name : Text) : Bool :=
  (name.splitOn '&').any fun tok =>
    ["don_hi_", "don_lo_", "near_swing_hi_", "near_swing_lo_", "dbl_bot_", "h4_ema_abv_",
      "h4_sma_abv_", "h1_ema_abv_", "h1_sma_abv_"].any fun p => p.toList.isPrefixOf tok

/-! ## What may be minted -/

/-- The name parses and passes the bans, over the canonical names that were tested. -/
structure Mintable (ctx : MintContext) (testedKeys : List Text) (name : Text) : Prop where
  parses : nameIsParseable name = true
  unblocked : mintBlockReason ctx name testedKeys = none
  noMomAndDip : nameHasMomGtAndDip name = false

variable {ctx : MintContext} {tested tested' : List Text} {name : Text}

theorem mintBlockReason_eq_none : mintBlockReason ctx name tested = none ↔
    deadZoneReason name = none ∧ redundantBoundReason name = none ∧
      unreachableThresholdReason ctx name = none ∧ canonicalTestedReason name tested = none := by
  unfold mintBlockReason
  simp only [Option.or_eq_none_iff, and_assoc]

theorem mintBlockReason_mono (hsub : tested ⊆ tested')
    (h : mintBlockReason ctx name tested' = none) : mintBlockReason ctx name tested = none := by
  obtain ⟨hdead, hbounds, hreach, htested⟩ := mintBlockReason_eq_none.mp h
  refine mintBlockReason_eq_none.mpr ⟨hdead, hbounds, hreach, ?_⟩
  unfold canonicalTestedReason at htested ⊢
  split at htested
  next => cases htested
  next hno => exact if_neg fun hyes => hno ⟨hyes.1, hsub hyes.2⟩

theorem Mintable.mono (hsub : tested ⊆ tested') (h : Mintable ctx tested' name) :
    Mintable ctx tested name :=
  ⟨h.parses, mintBlockReason_mono hsub h.unblocked, h.noMomAndDip⟩

theorem atomsOf_ne_nil (h : nameIsParseable name = true) : atomsOf name ≠ [] := by
  unfold nameIsParseable at h
  simp only [Bool.and_eq_true, decide_eq_true_eq] at h
  exact h.1.1.2

end PaperTrading.Mint
