import Mathlib.Algebra.BigOperators.Ring.List
import Mathlib.Algebra.Order.Field.Basic
import Mathlib.Data.Rat.Floor
import Mathlib.Tactic.Linarith
import Mathlib.Tactic.Ring
import PaperTrading.Lib.Comprehension

/-!
# Risk limits

`apply_limits` of `risk/limits.py`: each target weight is cut to the position limit, then all of
them are scaled down if they still exceed the gross limit together. What comes out is inside both
limits (`applyLimits_within`), so a second application changes nothing (`applyLimits_idem`). In
exact arithmetic.
-/

namespace PaperTrading.Fund

open PaperTrading.Lib

structure RiskLimits where
  maxPositionPct : ℚ
  maxGrossExposure : ℚ
  position_in : 0 < maxPositionPct ∧ maxPositionPct ≤ 1
  gross_pos : 0 < maxGrossExposure

inductive Limit where
  | maxPositionPct
  | maxGrossExposure
deriving DecidableEq

/-- One limit firing. The gross clamp names no ticker. -/
structure ClampEvent where
  limit : Limit
  ticker : Option Text
  before : ℚ
  after : ℚ
deriving DecidableEq

structure RiskResult where
  weights : Dict Text ℚ
  clamps : List ClampEvent

/-- `weights.get(t, 0.0)` -/
def weightIn (weights : Dict Text ℚ) (t : Text) : ℚ := (weights.get? t).getD 0

/-- A weight cut to the cap, with its sign. -/
def capped (cap w : ℚ) : ℚ := if cap < |w| then (if 0 < w then cap else -cap) else w

/-- The event of a weight that is cut. -/
def capEvent (cap : ℚ) (t : Text) (w : ℚ) : Option ClampEvent :=
  if cap < |w| then some ⟨.maxPositionPct, some t, w, capped cap w⟩ else none

/-- The summed sizes. -/
def grossOf (weights : Dict Text ℚ) : ℚ := (weights.values.map abs).sum

/-- `apply_limits` -/
def applyLimits (weights : Dict Text ℚ) (limits : RiskLimits) : RiskResult :=
  let tickers := sortedSet weights.keys
  let cap := limits.maxPositionPct
  let clamped := Dict.ofKeys tickers (nodup_sortedSet _) fun t => capped cap (weightIn weights t)
  let clamps := tickers.filterMap fun t => capEvent cap t (weightIn weights t)
  let gross := grossOf clamped
  if limits.maxGrossExposure < gross then
    { weights := clamped.map fun _ w => w * (limits.maxGrossExposure / gross)
      clamps := clamps ++ [⟨.maxGrossExposure, none, gross, limits.maxGrossExposure⟩] }
  else { weights := clamped, clamps := clamps }

/-! ## One weight -/

theorem abs_capped_le {cap : ℚ} (hcap : 0 < cap) (w : ℚ) : |capped cap w| ≤ cap := by
  unfold capped
  split
  · split
    · rw [abs_of_pos hcap]
    · rw [abs_neg, abs_of_pos hcap]
  next h => exact not_lt.mp h

theorem capped_of_le {cap w : ℚ} (h : |w| ≤ cap) : capped cap w = w := if_neg (not_lt.mpr h)

/-! ## All weights -/

/-- Inside both limits. -/
structure Within (limits : RiskLimits) (weights : Dict Text ℚ) : Prop where
  position : ∀ w ∈ weights.values, |w| ≤ limits.maxPositionPct
  gross : grossOf weights ≤ limits.maxGrossExposure

theorem Within.abs_weightIn_le {limits : RiskLimits} {weights : Dict Text ℚ}
    (h : Within limits weights) (t : Text) : |weightIn weights t| ≤ limits.maxPositionPct := by
  unfold weightIn
  cases ht : weights.get? t with
  | none => simpa using limits.position_in.1.le
  | some w => exact h.position w (List.mem_map_of_mem (Dict.get?_eq_some.mp ht))

section
variable {keys : List Text} {hkeys : keys.Nodup} {f : Text → ℚ}

theorem grossOf_ofKeys : grossOf (Dict.ofKeys keys hkeys f) = (keys.map fun t => |f t|).sum := by
  unfold grossOf
  rw [Dict.values_ofKeys, List.map_map]
  rfl

theorem grossOf_scaled {scale : ℚ} (hscale : 0 ≤ scale) :
    grossOf (Dict.ofKeys keys hkeys fun t => f t * scale) =
      grossOf (Dict.ofKeys keys hkeys f) * scale := by
  rw [grossOf_ofKeys, grossOf_ofKeys, ← List.sum_map_mul_right]
  refine congrArg List.sum (List.map_congr_left fun t _ => ?_)
  rw [abs_mul, abs_of_nonneg hscale]

end

/-- What comes out is inside both limits. -/
theorem applyLimits_within (weights : Dict Text ℚ) (limits : RiskLimits) :
    Within limits (applyLimits weights limits).weights := by
  have hcap := limits.position_in.1
  unfold applyLimits
  dsimp only
  split
  next hover =>
    have hpos := limits.gross_pos.trans hover
    have hscale : 0 ≤ limits.maxGrossExposure / grossOf (Dict.ofKeys (sortedSet weights.keys)
        (nodup_sortedSet _) fun t => capped limits.maxPositionPct (weightIn weights t)) :=
      div_nonneg limits.gross_pos.le hpos.le
    have hsmall : limits.maxGrossExposure / grossOf (Dict.ofKeys (sortedSet weights.keys)
        (nodup_sortedSet _) fun t => capped limits.maxPositionPct (weightIn weights t)) ≤ 1 :=
      (div_le_one hpos).mpr hover.le
    rw [Dict.map_ofKeys (nodup_sortedSet _) _ fun w => w * _]
    refine ⟨?_, ?_⟩
    · intro w hw
      rw [Dict.values_ofKeys] at hw
      obtain ⟨t, _, rfl⟩ := List.mem_map.mp hw
      rw [abs_mul, abs_of_nonneg hscale]
      exact (mul_le_of_le_one_right (abs_nonneg _) hsmall).trans (abs_capped_le hcap _)
    · rw [grossOf_scaled hscale, mul_div_cancel₀ _ hpos.ne']
  next hunder =>
    refine ⟨?_, not_lt.mp hunder⟩
    intro w hw
    rw [Dict.values_ofKeys] at hw
    obtain ⟨t, _, rfl⟩ := List.mem_map.mp hw
    exact abs_capped_le hcap _

/-- The weights that come out are listed in the order of their tickers. -/
theorem applyLimits_keys (weights : Dict Text ℚ) (limits : RiskLimits) :
    (applyLimits weights limits).weights.keys = sortedSet weights.keys := by
  unfold applyLimits
  dsimp only
  split
  · rw [Dict.map_ofKeys (nodup_sortedSet _) _ fun w => w * _, Dict.keys_ofKeys]
  · exact Dict.keys_ofKeys (nodup_sortedSet _) _

/-- Weights inside both limits, listed in order, are left as they are. -/
theorem applyLimits_of_within {weights : Dict Text ℚ} {limits : RiskLimits}
    (h : Within limits weights) (hkeys : weights.keys = sortedSet weights.keys) :
    applyLimits weights limits = ⟨weights, []⟩ := by
  have hcap := h.abs_weightIn_le
  have hclamped : Dict.ofKeys (sortedSet weights.keys) (nodup_sortedSet _)
      (fun t => capped limits.maxPositionPct (weightIn weights t)) = weights := by
    refine Dict.ext ?_
    show (sortedSet weights.keys).map _ = _
    rw [← hkeys]
    unfold Dict.keys
    rw [List.map_map]
    refine (List.map_congr_left fun e he => ?_).trans (List.map_id _)
    show (e.1, capped _ (weightIn weights e.1)) = e
    rw [capped_of_le (hcap e.1)]
    unfold weightIn
    rw [Dict.get?_eq_some.mpr (show (e.1, e.2) ∈ weights.entries from he)]
    rfl
  have hclamps : (sortedSet weights.keys).filterMap
      (fun t => capEvent limits.maxPositionPct t (weightIn weights t)) = [] := by
    refine List.filterMap_eq_nil_iff.mpr fun t _ => ?_
    unfold capEvent
    rw [if_neg (not_lt.mpr (hcap t))]
  unfold applyLimits
  dsimp only
  rw [hclamped, hclamps, if_neg (not_lt.mpr h.gross)]

/-- A second application changes nothing and records nothing. -/
theorem applyLimits_idem (weights : Dict Text ℚ) (limits : RiskLimits) :
    applyLimits (applyLimits weights limits).weights limits =
      ⟨(applyLimits weights limits).weights, []⟩ := by
  refine applyLimits_of_within (applyLimits_within weights limits) ?_
  rw [applyLimits_keys, sortedSet_idem]

end PaperTrading.Fund
