import Mathlib.Tactic.FieldSimp
import Mathlib.Tactic.Linarith
import Mathlib.Tactic.NormNum
import Mathlib.Tactic.Positivity
import PaperTrading.Broker.Paper
import PaperTrading.Lib.Runs
import PaperTrading.Risk.Managed

/-!
# Sized buys

`size_position` puts several caps on one quantity, one after another: the risk budget, the
open risk, the free cash and the smallest lot. The cash cap comes after the test of the open
risk, and only makes the quantity smaller; the open risk is tested only when lots are open,
and with none the risk budget alone is below it. `sized_within_limits` says that an approved
size meets all of them, and that a broker which buys what is approved, at the price it was
sized at, stays out of debt over any sequence of such buys.
-/

namespace PaperTrading.Broker

open PaperTrading.Lib
open PaperTrading.Risk
open PaperTrading.Risk.RiskManager (riskSize maxSize openRisk)

/-- The confidence multiplier a size is computed with. -/
def clampedConfidence (confidence : ℚ) : ℚ :=
  max CONFIDENCE_MIN (min CONFIDENCE_MAX confidence)

/-- A manager with the default fractions. -/
structure DefaultFractions (r : RiskManager) : Prop where
  risk : r.riskFrac = RISK_FRAC
  open_risk : r.maxOpenRiskFrac = MAX_OPEN_RISK_FRAC

/-- The limits on a lot of `size`, `asked` being what the risk budget alone asks for. -/
structure WithinLimits (equity entry stop : ℚ) (openPositions : List OpenRisk)
    (confidence cash entryCostMult asked size : ℚ) : Prop where
  size_pos : 0 < size
  cost : size * entry * entryCostMult ≤ cash
  risk : size * (entry - stop) ≤ equity * RISK_FRAC * clampedConfidence confidence
  open_risk : openRisk openPositions + size * (entry - stop) ≤ equity * MAX_OPEN_RISK_FRAC
  shrunk : size < asked → MIN_LOT_NOTIONAL ≤ size * entry

/-! ## One size -/

theorem clampedConfidence_pos (confidence : ℚ) : 0 < clampedConfidence confidence :=
  lt_max_of_lt_left (by norm_num [CONFIDENCE_MIN])

theorem clampedConfidence_le (confidence : ℚ) : clampedConfidence confidence ≤ 2 :=
  max_le (by norm_num [CONFIDENCE_MIN]) (min_le_left _ _)

/-- What an approved size is: the one the risk budget asks for, or what the cash pays for. -/
theorem sizePosition_size {r : RiskManager} {equity entry stop confidence cash entryCostMult : ℚ}
    {openPositions : List OpenRisk}
    (h : (r.sizePosition equity entry stop openPositions confidence (some cash)
      entryCostMult).approved = true) :
    (r.sizePosition equity entry stop openPositions confidence (some cash) entryCostMult).size =
      min (r.riskSize equity entry stop confidence) (maxSize equity entry cash entryCostMult) := by
  unfold RiskManager.sizePosition at h ⊢
  dsimp only at h ⊢
  split_ifs at h ⊢
  unfold RiskManager.capToCash at h ⊢
  dsimp only at h ⊢
  split_ifs at h ⊢ with _ hbig
  · exact (min_eq_right hbig.le).symm
  · exact (min_eq_left (not_lt.mp hbig)).symm

/-- The risk of the size that the budget asks for is the budget. -/
theorem riskSize_risk {r : RiskManager} (hr : DefaultFractions r) (equity : ℚ) {entry stop : ℚ}
    (hstop : stop < entry) (confidence : ℚ) :
    r.riskSize equity entry stop confidence * (entry - stop) =
      equity * RISK_FRAC * clampedConfidence confidence := by
  unfold RiskManager.riskSize
  rw [hr.risk, div_mul_cancel₀ _ (sub_pos.mpr hstop).ne']
  rfl

theorem maxSize_cost (equity cash : ℚ) {entry entryCostMult : ℚ} (hentry : 0 < entry)
    (hmult : 1 ≤ entryCostMult) :
    maxSize equity entry cash entryCostMult * entry * entryCostMult = cash := by
  have hunit : 0 < entry * entryCostMult := mul_pos hentry (zero_lt_one.trans_le hmult)
  unfold RiskManager.maxSize MAX_NOTIONAL_FRAC
  dsimp only
  rw [max_eq_right hmult, if_pos hunit, sub_self, mul_zero, sub_zero, mul_assoc,
    div_mul_cancel₀ _ hunit.ne']

/-- With no lots open the risk budget alone keeps below the cap on the open risk. -/
theorem budget_le_cap {equity : ℚ} (hequity : 0 < equity) (confidence : ℚ) :
    equity * RISK_FRAC * clampedConfidence confidence ≤ equity * MAX_OPEN_RISK_FRAC := by
  rw [mul_assoc]
  refine mul_le_mul_of_nonneg_left ?_ hequity.le
  have htwo := clampedConfidence_le confidence
  unfold RISK_FRAC MAX_OPEN_RISK_FRAC
  linarith

theorem openRisk_nil : openRisk [] = 0 := by
  unfold RiskManager.openRisk
  exact max_self 0

theorem approved_within_limits {r : RiskManager} (hr : DefaultFractions r)
    {equity entry stop confidence cash entryCostMult : ℚ} {openPositions : List OpenRisk}
    (hequity : 0 < equity) (hmult : 1 ≤ entryCostMult)
    (h : (r.sizePosition equity entry stop openPositions confidence (some cash)
      entryCostMult).approved = true) :
    WithinLimits equity entry stop openPositions confidence cash entryCostMult
      (r.riskSize equity entry stop confidence)
      (r.sizePosition equity entry stop openPositions confidence (some cash)
        entryCostMult).size := by
  obtain ⟨_, hok⟩ := (RiskManager.sizePosition_approved_iff ..).mp h
  have hentry : 0 < entry := hok.stop_pos.trans hok.stop_lt
  have hgap : 0 < entry - stop := sub_pos.mpr hok.stop_lt
  have hbudget := riskSize_risk hr equity hok.stop_lt confidence
  have hcost := maxSize_cost equity cash hentry hmult
  have hroom : 0 < maxSize equity entry cash entryCostMult :=
    pos_of_mul_pos_left (lt_of_lt_of_le (by norm_num [MIN_LOT_NOTIONAL]) hok.room) hentry.le
  have hasked : 0 < r.riskSize equity entry stop confidence := by
    refine pos_of_mul_pos_left ?_ hgap.le
    rw [hbudget]
    exact mul_pos (mul_pos hequity (by norm_num [RISK_FRAC])) (clampedConfidence_pos confidence)
  have hlot := hok.room
  have hopen := hok.open_risk
  rw [sizePosition_size h]
  generalize r.riskSize equity entry stop confidence = asked at hopen hbudget hasked ⊢
  generalize maxSize equity entry cash entryCostMult = most at hlot hcost hroom ⊢
  have hrisk : min asked most * (entry - stop) ≤ asked * (entry - stop) :=
    mul_le_mul_of_nonneg_right (min_le_left _ _) hgap.le
  refine ⟨lt_min hasked hroom, ?_, hrisk.trans hbudget.le, ?_, fun hless => ?_⟩
  · rw [← hcost]
    exact mul_le_mul_of_nonneg_right
      (mul_le_mul_of_nonneg_right (min_le_right _ _) hentry.le) (zero_le_one.trans hmult)
  · rcases hopen with hnone | hcap
    · rw [hnone, openRisk_nil, zero_add]
      exact (hrisk.trans hbudget.le).trans (budget_le_cap hequity confidence)
    · rw [mul_comm (entry - stop), hr.open_risk] at hcap
      exact (add_le_add_right hrisk _).trans hcap
  · have hmost : min asked most = most := by
      rcases min_choice asked most with heq | heq
      · exact absurd (heq ▸ hless) (lt_irrefl _)
      · exact heq
    rw [hmost]
    exact hlot

/-! ## A sequence of buys -/

/-- What one buy is sized with, the broker's own cash and costs apart. -/
structure Proposal where
  risk : RiskManager
  ticker : Ticker
  condition : String
  equity : ℚ
  entry : ℚ
  stop : ℚ
  openPositions : List OpenRisk
  confidence : ℚ

/-- The cost multiplier the loop sizes with. -/
def PaperBroker.entryCostMult (b : PaperBroker) : ℚ := (1 + b.slippage) * (1 + b.takerFee)

/-- `size_position`, asked as the loop asks it. -/
def PaperBroker.sized (b : PaperBroker) (p : Proposal) : RiskDecision :=
  p.risk.sizePosition p.equity p.entry p.stop p.openPositions p.confidence (some b.cash)
    b.entryCostMult

/-- The order of an approved size. -/
def PaperBroker.sizedOrder (b : PaperBroker) (p : Proposal) : Order :=
  { ticker := p.ticker, side := .buy, quantity := (b.sized p).size, price := p.entry
    stopLoss := some p.stop, condition := p.condition }

/-- The buy of an approved size, at the price it was sized at. -/
def PaperBroker.buySized (b : PaperBroker) (p : Proposal) : PaperBroker :=
  if (b.sized p).approved then
    match b.placeOrder (b.sizedOrder p) (some p.entry) with
    | .ok (b', _) => b'
    | .error _ => b
  else b

/-- A broker that is not in debt and whose costs are not negative. -/
structure PaperBroker.OutOfDebt (b : PaperBroker) : Prop where
  cash : 0 ≤ b.cash
  costs : 1 ≤ b.entryCostMult

/-- What a sized buy does to the broker: it pays the cost the size was capped with. -/
theorem buySized_of_approved {b : PaperBroker} {p : Proposal}
    (h : (b.sized p).approved = true) :
    (b.buySized p).cash = b.cash - (b.sized p).size * p.entry * b.entryCostMult ∧
      (b.buySized p).entryCostMult = b.entryCostMult := by
  have hplaced : b.buySized p =
      { b with
        lots := b.lots ++ [b.boughtLot (b.sizedOrder p) p.stop p.entry]
        nextLot := b.nextLot + 1
        cash := b.cash - ((b.sized p).size * (p.entry * (1 + b.slippage)) +
          (b.sized p).size * (p.entry * (1 + b.slippage)) * b.takerFee)
        fills := b.fills ++ [b.fillFor (b.sizedOrder p) p.entry] } := by
    unfold PaperBroker.buySized
    rw [if_pos h]
    rfl
  rw [hplaced]
  refine ⟨?_, rfl⟩
  unfold PaperBroker.entryCostMult
  dsimp only
  ring

theorem buySized_outOfDebt {b : PaperBroker} (hb : b.OutOfDebt) (p : Proposal) :
    (b.buySized p).OutOfDebt := by
  by_cases h : (b.sized p).approved = true
  · obtain ⟨hcash, hcosts⟩ := buySized_of_approved h
    have hok := ((RiskManager.sizePosition_approved_iff ..).mp h).2
    have hentry : 0 < p.entry := hok.stop_pos.trans hok.stop_lt
    have hle := RiskManager.sizePosition_size_le h
    have hpays := maxSize_cost p.equity b.cash hentry hb.costs
    refine ⟨?_, by rw [hcosts]; exact hb.costs⟩
    rw [hcash, sub_nonneg]
    refine le_trans ?_ hpays.le
    exact mul_le_mul_of_nonneg_right (mul_le_mul_of_nonneg_right hle hentry.le)
      (zero_le_one.trans hb.costs)
  · unfold PaperBroker.buySized
    rw [if_neg h]
    exact hb

/-- An approved size is within all the limits at once, and a broker that buys what is
approved at the reference prices is never in debt. -/
theorem sized_within_limits :
    (∀ (r : RiskManager) (equity entry stop : ℚ) (openPositions : List OpenRisk)
      (confidence cash entryCostMult : ℚ), DefaultFractions r → 0 < equity → 1 ≤ entryCostMult →
      (r.sizePosition equity entry stop openPositions confidence (some cash)
        entryCostMult).approved = true →
      WithinLimits equity entry stop openPositions confidence cash entryCostMult
        (r.riskSize equity entry stop confidence)
        (r.sizePosition equity entry stop openPositions confidence (some cash)
          entryCostMult).size) ∧
    ∀ (b : PaperBroker) (ps : List Proposal), b.OutOfDebt →
      Along PaperBroker.buySized (fun b p => 0 ≤ (b.buySized p).cash) b ps := by
  refine ⟨fun r equity entry stop openPositions confidence cash mult hr he hm h =>
    approved_within_limits hr he hm h, fun b ps hb => ?_⟩
  refine along_of_inv (I := PaperBroker.OutOfDebt) (C := fun _ _ => True) ?_ ps hb
    (along_of_forall (fun _ _ => trivial) ps)
  intro b p hb _
  exact ⟨(buySized_outOfDebt hb p).cash, buySized_outOfDebt hb p⟩

theorem sized_within_limits_shrunk :
    WithinLimits 10000 100 99 [⟨100, 110, 1⟩] 1 50 1 100
        (({} : RiskManager).sizePosition 10000 100 99 [⟨100, 110, 1⟩] 1 (some 50) 1).size ∧
      (({} : RiskManager).sizePosition 10000 100 99 [⟨100, 110, 1⟩] 1 (some 50) 1).size = 1 / 2 ∧
      Along PaperBroker.buySized (fun b p => 0 ≤ (b.buySized p).cash) ({ cash := 50 } : PaperBroker)
        [⟨{}, "BTC/USDT", "", 10000, 100, 99, [], 1⟩, ⟨{}, "BTC/USDT", "", 50, 10, 9, [], 1⟩] := by
  refine ⟨?_, by decide +kernel, ?_⟩
  · have h := sized_within_limits.1 {} 10000 100 99 [⟨100, 110, 1⟩] 1 50 1 ⟨rfl, rfl⟩
      (by norm_num) le_rfl (by decide +kernel)
    have hasked : ({} : RiskManager).riskSize 10000 100 99 1 = 100 := by decide +kernel
    rwa [hasked] at h
  · exact sized_within_limits.2 _ _ ⟨by decide, by decide +kernel⟩

end PaperTrading.Broker
