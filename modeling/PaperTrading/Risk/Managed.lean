import Mathlib.Algebra.Order.Field.Rat
import Mathlib.Algebra.BigOperators.Group.List.Basic
import Mathlib.Tactic.FieldSimp
import PaperTrading.Lib.Decimal
import PaperTrading.Lib.Runs

/-!
# The risk manager

`risk/managed.py` and the stop and confidence helpers of `risk/rm_v1.py`:
fixed-fractional sizing, the open-risk cap, the notional cap and the drawdown
breaker.

`updateEquity` is the only operation that can raise the halt flag.
`halted_after_iff` says what the flag remembers over a whole sequence of
updates: some equity was at or below `1 - maxDrawdown` times the running peak
at that moment.
-/

namespace PaperTrading.Risk

open PaperTrading.Lib

def RISK_FRAC : ℚ := 1 / 100
def MAX_OPEN_RISK_FRAC : ℚ := 5 / 100
def MAX_DRAWDOWN : ℚ := 15 / 100
def CONFIDENCE_MIN : ℚ := 1 / 2
def CONFIDENCE_MAX : ℚ := 2
def MAX_NOTIONAL_FRAC : ℚ := 1
def MIN_LOT_NOTIONAL : ℚ := 10

structure RiskDecision where
  approved : Bool
  reason : String
  size : ℚ := 0
  stop : ℚ := 0
deriving DecidableEq, Repr

structure RiskManager where
  riskFrac : ℚ := RISK_FRAC
  maxOpenRiskFrac : ℚ := MAX_OPEN_RISK_FRAC
  maxDrawdown : ℚ := MAX_DRAWDOWN
  peakEquity : ℚ := 10000
  halted : Bool := false
  haltReason : Option String := none
deriving DecidableEq, Repr

/-- An open lot as the open-risk cap sees it: entry, stop, size. -/
structure OpenRisk where
  entry : ℚ
  stop : ℚ
  size : ℚ

namespace RiskManager

/-- `RiskManager(initial_equity=e)` -/
def new (initialEquity : ℚ) : RiskManager := { peakEquity := initialEquity }

/-- The running peak once `equity` has been seen. -/
def raisedPeak (r : RiskManager) (equity : ℚ) : ℚ :=
  if equity > r.peakEquity then equity else r.peakEquity

def haltText (r : RiskManager) (peak equity : ℚ) : String :=
  let dd := percent 1 ((peak - equity) / peak)
  let limit := percent 0 r.maxDrawdown
  s!"drawdown {dd} >= {limit} (peak {fixed 0 peak} -> {fixed 0 equity})"

def updateEquity (r : RiskManager) (equity : ℚ) : RiskManager :=
  let peak := r.raisedPeak equity
  if peak > 0 ∧ (peak - equity) / peak ≥ r.maxDrawdown then
    { r with peakEquity := peak, halted := true, haltReason := some (r.haltText peak equity) }
  else { r with peakEquity := peak }

def openRisk (positions : List OpenRisk) : ℚ :=
  max 0 ((positions.map fun p => (p.entry - p.stop) * p.size).sum)

/-- The size the risk budget alone asks for. -/
def riskSize (r : RiskManager) (equity entry stop confidence : ℚ) : ℚ :=
  equity * r.riskFrac * max CONFIDENCE_MIN (min CONFIDENCE_MAX confidence) / (entry - stop)

/-- The largest size the free cash pays for. -/
def maxSize (equity entry cash entryCostMult : ℚ) : ℚ :=
  let unitCost := entry * max 1 entryCostMult
  if unitCost > 0 then (cash - equity * (1 - MAX_NOTIONAL_FRAC)) / unitCost else 0

/-- The 100% notional cap: cut `size` to what the free cash pays for, or
refuse when that is below the smallest lot. -/
def capToCash (equity entry stop size cash entryCostMult : ℚ) : RiskDecision :=
  let room := cash - equity * (1 - MAX_NOTIONAL_FRAC)
  let maxSize := maxSize equity entry cash entryCostMult
  if maxSize * entry < MIN_LOT_NOTIONAL then
    { approved := false
      reason := s!"notional cap: free cash {fixed 0 (max room 0)} < min lot {fixed 0 MIN_LOT_NOTIONAL}" }
  else { approved := true, reason := "ok", size := if size > maxSize then maxSize else size
         stop := stop }

def sizePosition (r : RiskManager) (equity entry stop : ℚ) (openPositions : List OpenRisk)
    (confidence : ℚ) (cash : Option ℚ) (entryCostMult : ℚ) : RiskDecision :=
  let size := r.riskSize equity entry stop confidence
  let thisRisk := (entry - stop) * size
  let cap := equity * r.maxOpenRiskFrac
  if r.halted then { approved := false, reason := r.haltReason.getD "trading halted" }
  else if stop ≤ 0 ∨ entry ≤ stop then
    { approved := false, reason := "stop must be below entry for a long" }
  else if openPositions ≠ [] ∧ openRisk openPositions + thisRisk > cap then
    { approved := false
      reason := s!"open risk {fixed 0 (openRisk openPositions + thisRisk)} > cap {fixed 0 cap}" }
  else
    match cash with
    | none => { approved := true, reason := "ok", size := size, stop := stop }
    | some cash => capToCash equity entry stop size cash entryCostMult

def takeProfitPrice (entry stop rr : ℚ) : ℚ := entry + rr * (entry - stop)

/-- Everything `sizePosition` asks of a lot besides the halt flag. -/
structure SizeAllowed (r : RiskManager) (equity entry stop : ℚ) (openPositions : List OpenRisk)
    (confidence cash entryCostMult : ℚ) : Prop where
  stop_pos : 0 < stop
  stop_lt : stop < entry
  open_risk : openPositions = [] ∨
    openRisk openPositions + (entry - stop) * r.riskSize equity entry stop confidence ≤
      equity * r.maxOpenRiskFrac
  room : MIN_LOT_NOTIONAL ≤ maxSize equity entry cash entryCostMult * entry

theorem capToCash_approved (equity entry stop size cash entryCostMult : ℚ) :
    (capToCash equity entry stop size cash entryCostMult).approved = true ↔
      MIN_LOT_NOTIONAL ≤ maxSize equity entry cash entryCostMult * entry := by
  rw [← not_lt]
  unfold capToCash
  dsimp only
  split_ifs with h <;> simp [h]

theorem sizePosition_approved_iff (r : RiskManager) (equity entry stop : ℚ)
    (openPositions : List OpenRisk) (confidence cash entryCostMult : ℚ) :
    (r.sizePosition equity entry stop openPositions confidence (some cash)
      entryCostMult).approved = true ↔
    r.halted = false ∧
      r.SizeAllowed equity entry stop openPositions confidence cash entryCostMult := by
  unfold sizePosition
  dsimp only
  by_cases hh : r.halted = true
  · simp [hh]
  rw [if_neg hh]
  by_cases hstop : stop ≤ 0 ∨ entry ≤ stop
  · rw [if_pos hstop]
    refine ⟨fun h => absurd h Bool.false_ne_true, fun h => ?_⟩
    rcases hstop with hs | hs
    · exact absurd h.2.stop_pos (not_lt.mpr hs)
    · exact absurd h.2.stop_lt (not_lt.mpr hs)
  rw [if_neg hstop]
  rw [not_or, not_le, not_le] at hstop
  by_cases hcap : openPositions ≠ [] ∧
      openRisk openPositions + (entry - stop) * r.riskSize equity entry stop confidence >
        equity * r.maxOpenRiskFrac
  · rw [if_pos hcap]
    refine ⟨fun h => absurd h Bool.false_ne_true, fun h => ?_⟩
    rcases h.2.open_risk with ho | ho
    · exact absurd ho hcap.1
    · exact absurd hcap.2 (not_lt.mpr ho)
  · rw [if_neg hcap, capToCash_approved]
    have hrisk : openPositions = [] ∨
        openRisk openPositions + (entry - stop) * r.riskSize equity entry stop confidence ≤
          equity * r.maxOpenRiskFrac := by
      by_cases ho : openPositions = []
      · exact Or.inl ho
      · exact Or.inr (not_lt.mp fun hgt => hcap ⟨ho, hgt⟩)
    exact ⟨fun h => ⟨by simpa using hh, hstop.1, hstop.2, hrisk, h⟩, fun h => h.2.room⟩

/-- An approved size is one the free cash pays for. -/
theorem sizePosition_size_le {r : RiskManager} {equity entry stop confidence cash entryCostMult : ℚ}
    {openPositions : List OpenRisk}
    (h : (r.sizePosition equity entry stop openPositions confidence (some cash)
      entryCostMult).approved = true) :
    (r.sizePosition equity entry stop openPositions confidence (some cash) entryCostMult).size ≤
      maxSize equity entry cash entryCostMult := by
  unfold sizePosition at h ⊢
  dsimp only at h ⊢
  split_ifs at h ⊢
  unfold capToCash at h ⊢
  dsimp only at h ⊢
  split_ifs at h ⊢ with _ hbig
  · exact le_refl _
  · exact not_lt.mp hbig

/-! ## The breaker over a sequence of updates -/

/-- The breaker rule for one update: the equity is at or below
`1 - maxDrawdown` times the peak it leaves. -/
def Breaches (r : RiskManager) (equity : ℚ) : Prop :=
  0 < r.raisedPeak equity ∧ equity ≤ (1 - r.maxDrawdown) * r.raisedPeak equity

@[simp] theorem updateEquity_peakEquity (r : RiskManager) (e : ℚ) :
    (r.updateEquity e).peakEquity = r.raisedPeak e := by
  unfold updateEquity
  simp only
  split <;> rfl

@[simp] theorem updateEquity_maxDrawdown (r : RiskManager) (e : ℚ) :
    (r.updateEquity e).maxDrawdown = r.maxDrawdown := by
  unfold updateEquity
  simp only
  split <;> rfl

/-- The division in the code's test is the rule of `Breaches`. -/
theorem breaches_iff (r : RiskManager) (e : ℚ) :
    r.Breaches e ↔
      r.raisedPeak e > 0 ∧ (r.raisedPeak e - e) / r.raisedPeak e ≥ r.maxDrawdown := by
  unfold Breaches
  refine and_congr_right fun hpos => ?_
  rw [ge_iff_le, le_div_iff₀ hpos]
  constructor <;> intro h <;> linarith

theorem updateEquity_halted (r : RiskManager) (e : ℚ) :
    (r.updateEquity e).halted = true ↔ r.halted = true ∨ r.Breaches e := by
  rw [breaches_iff]
  unfold updateEquity
  by_cases h : r.raisedPeak e > 0 ∧ (r.raisedPeak e - e) / r.raisedPeak e ≥ r.maxDrawdown
  · simp [h]
  · simp [h]

/-- After any sequence of updates the flag is up exactly when it was up at
the start or some update breached the rule. -/
theorem halted_after_iff (es : List ℚ) (r : RiskManager) :
    (es.foldl updateEquity r).halted = true ↔
      r.halted = true ∨
        ∃ pre e post, es = pre ++ e :: post ∧ (pre.foldl updateEquity r).Breaches e :=
  flag_run_iff (fun r : RiskManager => r.halted = true) RiskManager.Breaches updateEquity_halted es r

end RiskManager

/-! ## Stops and confidence -/

def TAKE_PROFIT_RR : ℚ := 2
def MAX_LOTS_PER_SYMBOL : ℕ := 3
def ATR_PERIOD : ℕ := 14
def ATR_STOP_MULT : ℚ := 2
def STOP_FLOOR_FRAC : ℚ := 15 / 1000
def STOP_CAP_FRAC : ℚ := 40 / 1000
def STOP_FALLBACK_FRAC : ℚ := 25 / 1000
def CONFIDENCE_REF_PROB : ℚ := 1 / 2

/-- The distance from entry to stop; `none` is an ATR that is `nan`. -/
def atrStopDistance (entry : ℚ) (atrValue : Option ℚ) : ℚ :=
  match atrValue with
  | none => entry * STOP_FALLBACK_FRAC
  | some a =>
    if a ≤ 0 then entry * STOP_FALLBACK_FRAC
    else max (entry * STOP_FLOOR_FRAC) (min (entry * STOP_CAP_FRAC) (ATR_STOP_MULT * a))

def atrStopPrice (entry : ℚ) (atrValue : Option ℚ) : ℚ := entry - atrStopDistance entry atrValue

def confidenceMultiplier (probability : ℚ) : ℚ :=
  max CONFIDENCE_MIN (min CONFIDENCE_MAX (probability / CONFIDENCE_REF_PROB))

end PaperTrading.Risk
