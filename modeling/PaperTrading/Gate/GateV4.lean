import PaperTrading.Champions.Pool
import PaperTrading.Gate.MultipleTesting
import PaperTrading.Library.Verdict

/-!
# The 5m gate

`finish_gate_v4` of `trading/gate_v4.py`, on what it measured: the windows of the name, of
its neighbours and of the run at stressed costs, the holdout, and the trial count. Every
check that fails adds a reason, and the row is qualified as long as there is none.

The holdout is rejected where a number is below its bound, the stressed run where it is
not at least its bound. `gate_fails_closed_iff` says which measurements get through that
are no numbers: those that no comparison rejects.
-/

namespace PaperTrading.Gate

open PaperTrading.Champions (GATE_RULES)
open PaperTrading.Lib
open PaperTrading.Library (MIN_BACKTEST_SHARPE DSR_MIN_PROBABILITY PBO_MAX
  NEIGHBOR_PASS_MIN_FRACTION saidUnless)

def HOLDOUT_MIN_TRADES : ℤ := 8
def CROSS_ASSET_MIN_SHARPE : ℚ := 0

/-! ## Measurements -/

/-- One window of a walk-forward run; a field may be missing. -/
structure Window where
  sharpe : Option Flt := none
  testTrades : Option ℤ := none
  dailyReturns : Option (List Flt) := none
  maxDrawdown : Option Flt := none
  testPnl : Option Flt := none

/-- One backtest of the holdout. -/
structure BacktestResult where
  totalPnl : Flt
  trades : ℤ
  sharpe : Flt
  maxDrawdown : Option Flt := none

/-- The holdout: the backtests of the name, the daily Sharpe of its book, and the
benchmarks. -/
structure Holdout where
  results : List BacktestResult
  dailySharpe : Flt
  bhDailySharpe : Option Flt
  smaPnl : Option Flt

/-- What `finish_gate_v4` measures; `holdout` is none without a tape or benchmarks. -/
structure Measurements where
  windows : List Window
  holdout : Option Holdout
  nTrials : Option ℤ
  neighbours : List (List Window)
  stressed : List Window
  stressDailySharpe : Flt
  stressBhDailySharpe : Option Flt
  ethWindows : Option (List Window)

/-- `_avg_sharpe` -/
def avgSharpe (windows : List Window) : Flt :=
  if windows = [] then .fin 0
  else (Flt.sum (windows.map fun w => w.sharpe.getD (.fin 0))).divBy windows.length

/-- `_trades` -/
def trades (windows : List Window) : ℤ := (windows.map fun w => w.testTrades.getD 0).sum

/-- `_daily` -/
def daily (windows : List Window) : List Flt := windows.flatMap fun w => w.dailyReturns.getD []

/-- `_max_dd` -/
def maxDd (windows : List Window) : Option ℚ := (finites (windows.filterMap (·.maxDrawdown))).max?

/-- `_window_pnl` -/
def windowPnl (windows : List Window) : List Flt := windows.map fun w => w.testPnl.getD (.fin 0)

/-- `neighbour_fraction_ok` -/
def neighbourFractionOk (passed total : ℕ) : Bool × Option String :=
  if total = 0 then (false, some "no parameter neighbours (lone spike)")
  else
    let frac : ℚ := passed / total
    if frac + 1 / 10 ^ 12 < NEIGHBOR_PASS_MIN_FRACTION then
      (false, some ("neighbours " ++ toString passed ++ "/" ++ toString total ++ " = " ++
        percent 0 frac ++ " < 70%"))
    else (true, none)

/-- `base_sharpe_trades_ok` -/
def baseSharpeTradesOk (sharpe : Flt) (trades : ℤ) : Bool :=
  Flt.le (.fin MIN_BACKTEST_SHARPE) sharpe && trades ≥ 30

/-! ## The holdout -/

namespace Holdout

variable (h : Holdout)

def pnl : Flt := Flt.sum (h.results.map (·.totalPnl))

def tradeCount : ℤ := (h.results.map (·.trades)).sum

def sharpe : Flt := (Flt.sum (h.results.map (·.sharpe))).divBy h.results.length

/-- `max`: a later drawdown replaces the first only if it is greater. -/
def maxDrawdown : Flt :=
  match h.results.map fun r => r.maxDrawdown.getD (.fin 0) with
  | [] => .fin 0
  | dd :: dds => dds.foldl (fun best dd => if Flt.lt best dd then dd else best) dd

/-- The reasons of `_holdout_metrics`. -/
def reasons : List String :=
  (if Flt.lt h.sharpe (.fin MIN_BACKTEST_SHARPE) then
    ["holdout_sharpe " ++ h.sharpe.text 2 ++ " < 0.3"] else []) ++
  (if h.tradeCount < HOLDOUT_MIN_TRADES then
    ["holdout_trades " ++ toString h.tradeCount ++ " < 8"] else []) ++
  match h.smaPnl with
  | none => ["holdout sma_stack missing"]
  | some sma =>
    if Flt.le h.pnl sma then
      ["holdout_pnl " ++ h.pnl.text 2 ++ " <= sma_stack " ++ sma.text 2] else []

end Holdout

/-- What is stored about a holdout that was measured. -/
structure HoldoutNumbers where
  sharpe : Flt
  trades : ℤ
  pnl : Flt
  dailySharpe : Flt
  bhDailySharpe : Option Flt
  smaPnl : Option Flt
  maxDrawdown : Flt
deriving DecidableEq

structure HoldoutBlock where
  pass : Bool
  reason : String
  numbers : Option HoldoutNumbers := none
deriving DecidableEq

/-- `_holdout_metrics` -/
def holdoutMetrics (h : Holdout) : HoldoutBlock :=
  if h.results = [] then { pass := false, reason := "holdout produced no backtest" }
  else
    { pass := h.reasons.isEmpty
      reason := "; ".intercalate h.reasons
      numbers := some
        { sharpe := h.sharpe.round 4, trades := h.tradeCount, pnl := h.pnl.round 2
          dailySharpe := h.dailySharpe.round 4
          bhDailySharpe := h.bhDailySharpe.map (Flt.round 4)
          smaPnl := h.smaPnl.map (Flt.round 2), maxDrawdown := h.maxDrawdown.round 4 } }

/-! ## The gate -/

/-- The `gate_v4` block. -/
structure Block where
  passed : Bool
  rules : String
  holdoutPass : Bool
  dsrPass : Bool
  pboPass : Bool
  perturbPass : Bool
  costPass : Bool
  holdout : HoldoutBlock
  dsr : Option ℚ
  nTrials : Option ℤ
  pbo : Option ℚ
  neighbours : ℕ
  neighboursPass : ℕ
  costSharpe : Flt
  costDailySharpe : Flt
  costBhDailySharpe : Option Flt
  crossAssetSharpe : Option Flt
  crossAssetPass : Option Bool
  crossAssetNote : Option String
  backtestMaxDd : Option ℚ
  oosSharpePerObs : Option ℚ
  oosReturnN : Option ℕ
deriving DecidableEq

/-- A row of an evaluation. -/
structure Record where
  qualified : Bool
  failReasons : List String := []
  score : Option ℚ := none
  backtestMaxDd : Option ℚ := none
  gateV4 : Option Block := none
  symbols : List String := []
deriving DecidableEq

/-- `v4_attestation_ok` -/
def v4AttestationOk (row : Record) : Bool :=
  match row.gateV4 with
  | none => false
  | some block =>
    block.passed && block.rules = GATE_RULES && block.holdoutPass && block.dsrPass &&
      block.pboPass && block.perturbPass && block.costPass

namespace Measurements

variable (stats : Stats) (m : Measurements)

def moments : Option Moments := returnMoments stats (daily m.windows)

def holdoutBlock : HoldoutBlock :=
  m.holdout.elim { pass := false, reason := "holdout tape missing" } holdoutMetrics

/-- `holdout.get("reason") or "holdout failed"` -/
def holdoutSaid : Option String :=
  if m.holdoutBlock.pass then none
  else some (if m.holdoutBlock.reason = "" then "holdout failed" else m.holdoutBlock.reason)

/-- The deflated Sharpe ratio, where there are returns and a trial count. -/
def dsr : Option ℚ :=
  match m.moments stats, m.nTrials with
  | some moments, some n => if n < 1 then none else some (deflatedSharpeRatio stats moments n.toNat)
  | _, _ => none

def dsrSaid : Option String :=
  match m.moments stats, m.dsr stats with
  | none, _ => some "dsr daily returns missing"
  | some _, none => some "dsr n_trials missing"
  | some _, some p =>
    if p < DSR_MIN_PROBABILITY then some ("dsr " ++ fixed 3 p ++ " < 0.95") else none

def neighboursPass : ℕ :=
  (m.neighbours.filter fun scored => baseSharpeTradesOk (avgSharpe scored) (trades scored)).length

def perturb : Bool × Option String := neighbourFractionOk m.neighboursPass m.neighbours.length

def perturbSaid : Option String :=
  if m.perturb.1 then none else some (m.perturb.2.getD "parameter neighbours failed")

/-- The window P&L of each configuration. -/
def matrix : List (List Flt) := windowPnl m.windows :: m.neighbours.map windowPnl

/-- The windows that every configuration has. -/
def width : ℕ := ((m.matrix.map List.length).min?).getD 0

def pbo : Option ℚ :=
  if m.matrix.length < 2 ∨ m.width < 2 then none
  else probabilityOfBacktestOverfitting stats (m.matrix.map (·.take m.width)) m.width

def pboSaid : Option String :=
  if m.matrix.length < 2 then some "pbo undefined (fewer than 2 configurations)"
  else if m.width < 2 then some "pbo undefined (fewer than 2 windows)"
  else
    match m.pbo stats with
    | none => some "pbo undefined"
    | some p => if p > PBO_MAX then some ("pbo " ++ fixed 3 p ++ " > 0.2") else none

def stressSharpe : Flt := avgSharpe m.stressed

def costOk : Bool := Flt.le (.fin MIN_BACKTEST_SHARPE) m.stressSharpe

def costSaid : Option String :=
  saidUnless m.costOk
    ("cost stress sharpe " ++ m.stressSharpe.text 2 ++ " < 0.3 (2x fee + 5bps)")

/-- The reasons the gate adds. -/
def hard : List String :=
  m.holdoutSaid.toList ++ (m.dsrSaid stats).toList ++ m.perturbSaid.toList ++
    (m.pboSaid stats).toList ++ m.costSaid.toList

def crossSharpe : Option Flt := m.ethWindows.map avgSharpe

def crossPass : Option Bool := m.crossSharpe.map (Flt.lt (.fin CROSS_ASSET_MIN_SHARPE))

def crossNote : Option String :=
  match m.crossSharpe with
  | none => some "eth tape missing (soft, not a fail)"
  | some sharpe =>
    saidUnless (Flt.lt (.fin CROSS_ASSET_MIN_SHARPE) sharpe)
      ("eth sharpe " ++ sharpe.text 2 ++ " <= 0 (soft, not a fail)")

def backtestDd : Option ℚ := (maxDd m.windows).map (roundTo 4)

def block : Block where
  passed := (m.hard stats).isEmpty
  rules := GATE_RULES
  holdoutPass := m.holdoutBlock.pass
  dsrPass := (m.dsrSaid stats).isNone
  pboPass := (m.pboSaid stats).isNone
  perturbPass := m.perturb.1
  costPass := m.costOk
  holdout := m.holdoutBlock
  dsr := (m.dsr stats).map (roundTo 6)
  nTrials := m.nTrials
  pbo := (m.pbo stats).map (roundTo 6)
  neighbours := m.neighbours.length
  neighboursPass := m.neighboursPass
  costSharpe := m.stressSharpe.round 4
  costDailySharpe := m.stressDailySharpe.round 4
  costBhDailySharpe := m.stressBhDailySharpe.map (Flt.round 4)
  crossAssetSharpe := m.crossSharpe.map (Flt.round 4)
  crossAssetPass := m.crossPass
  crossAssetNote := m.crossNote
  backtestMaxDd := m.backtestDd
  oosSharpePerObs := (m.moments stats).map fun ms => roundTo 6 ms.sharpe
  oosReturnN := (m.moments stats).map (·.n)

end Measurements

/-- `finish_gate_v4` -/
def finishGateV4 (stats : Stats) (record : Record) (m : Measurements) : Record :=
  let hard := m.hard stats
  { qualified := record.qualified && hard.isEmpty
    failReasons := record.failReasons ++ hard
    score := if hard.isEmpty then record.score else none
    backtestMaxDd := m.backtestDd
    gateV4 := some (m.block stats)
    symbols := ["BTC/USDT"] }

/-! ## What gets through -/

section
variable (stats : Stats) (m : Measurements)

/-- The DSR, PBO and neighbours that the gate accepts; these figures are numbers. -/
structure RobustOk : Prop where
  dsr : ∃ p, m.dsr stats = some p ∧ DSR_MIN_PROBABILITY ≤ p
  pbo : ∃ p, m.pbo stats = some p ∧ 0 ≤ p ∧ p ≤ PBO_MAX
  neighbours : m.neighbours ≠ [] ∧
    NEIGHBOR_PASS_MIN_FRACTION ≤ (m.neighboursPass : ℚ) / m.neighbours.length + 1 / 10 ^ 12

/-- Every figure is a finite number that meets its threshold. -/
structure Meets : Prop where
  robust : RobustOk stats m
  holdout : ∃ h, m.holdout = some h ∧ h.results ≠ [] ∧ HOLDOUT_MIN_TRADES ≤ h.tradeCount ∧
    (∃ q, h.sharpe = .fin q ∧ MIN_BACKTEST_SHARPE ≤ q) ∧
      ∃ pnl sma, h.pnl = .fin pnl ∧ h.smaPnl = some (.fin sma) ∧ sma < pnl
  stress : ∃ q, m.stressSharpe = .fin q ∧ MIN_BACKTEST_SHARPE ≤ q

/-- What the gate promises of a row. -/
structure FailsClosed (record : Record) : Prop where
  meets : (finishGateV4 stats record m).qualified = true → Meets stats m
  reasons : (finishGateV4 stats record m).qualified = true ↔
    (finishGateV4 stats record m).failReasons = record.failReasons
  attested : (finishGateV4 stats record m).qualified = true ↔
    v4AttestationOk (finishGateV4 stats record m) = true

/-- No comparison rejects the holdout or the stressed run, and one of their numbers is
none that is finite: the holdout's Sharpe or P&L is `nan` or `inf`, that of `sma_stack`
`nan` or `-inf`, or the stressed Sharpe `inf`. -/
structure Slips : Prop where
  robust : RobustOk stats m
  unrejected : ∃ h sma, m.holdout = some h ∧ h.results ≠ [] ∧ HOLDOUT_MIN_TRADES ≤ h.tradeCount ∧
    h.smaPnl = some sma ∧
    (Flt.lt h.sharpe (.fin MIN_BACKTEST_SHARPE) = false ∧ Flt.le h.pnl sma = false ∧
      Flt.le (.fin MIN_BACKTEST_SHARPE) m.stressSharpe = true) ∧
    (h.sharpe.isFinite && h.pnl.isFinite && sma.isFinite && m.stressSharpe.isFinite) = false

end

section
variable {stats : Stats} {m : Measurements}

theorem toList_eq_nil {o : Option String} : o.toList = [] ↔ o = none := by
  cases o <;> simp

theorem hard_eq_nil : m.hard stats = [] ↔ m.holdoutSaid = none ∧ m.dsrSaid stats = none ∧
    m.perturbSaid = none ∧ m.pboSaid stats = none ∧ m.costSaid = none := by
  unfold Measurements.hard
  simp only [List.append_eq_nil_iff, toList_eq_nil, and_assoc]

theorem dsrSaid_eq_none :
    m.dsrSaid stats = none ↔ ∃ p, m.dsr stats = some p ∧ DSR_MIN_PROBABILITY ≤ p := by
  unfold Measurements.dsrSaid
  cases hm : m.moments stats with
  | none =>
    have hnone : m.dsr stats = none := by
      unfold Measurements.dsr
      rw [hm]
    refine iff_of_false (fun h => by cases h) ?_
    rintro ⟨p, hp, -⟩
    rw [hnone] at hp
    cases hp
  | some moments =>
    cases m.dsr stats with
    | none => exact iff_of_false (fun h => by cases h) fun ⟨p, hp, _⟩ => by cases hp
    | some p =>
      dsimp only
      split
      next hlt =>
        refine iff_of_false (fun h => by cases h) ?_
        rintro ⟨p', hp', hle⟩
        obtain rfl := Option.some.inj hp'
        exact absurd hlt (not_lt.mpr hle)
      next hge => exact iff_of_true rfl ⟨p, rfl, not_lt.mp hge⟩

theorem pboSaid_eq_none :
    m.pboSaid stats = none ↔ ∃ p, m.pbo stats = some p ∧ 0 ≤ p ∧ p ≤ PBO_MAX := by
  have hdefined : ∀ p, m.pbo stats = some p →
      ¬ (m.matrix.length < 2 ∨ m.width < 2) ∧ 0 ≤ p := by
    intro p hp
    unfold Measurements.pbo at hp
    split at hp
    next => cases hp
    next h => exact ⟨h, (pbo_mem_unit hp).1⟩
  unfold Measurements.pboSaid
  constructor
  · intro h
    split at h
    next => cases h
    next =>
      split at h
      next => cases h
      next =>
        cases hp : m.pbo stats with
        | none =>
          rw [hp] at h
          cases h
        | some p =>
          rw [hp] at h
          dsimp only at h
          split at h
          next => cases h
          next hle => exact ⟨p, rfl, (hdefined p hp).2, not_lt.mp hle⟩
  · rintro ⟨p, hp, -, hle⟩
    obtain ⟨hcols, hwidth⟩ := not_or.mp (hdefined p hp).1
    rw [if_neg hcols, if_neg hwidth, hp]
    exact if_neg (not_lt.mpr hle)

theorem perturb_iff : m.perturb.1 = true ↔ m.neighbours ≠ [] ∧
    NEIGHBOR_PASS_MIN_FRACTION ≤ (m.neighboursPass : ℚ) / m.neighbours.length + 1 / 10 ^ 12 := by
  unfold Measurements.perturb neighbourFractionOk
  split
  next h => exact iff_of_false (fun h => by cases h) fun hno => hno.1 (List.length_eq_zero_iff.mp h)
  next h =>
    dsimp only
    split
    next hlt => exact iff_of_false (fun h => by cases h) fun hno => absurd hlt (not_lt.mpr hno.2)
    next hge =>
      exact iff_of_true rfl ⟨fun hnil => h (List.length_eq_zero_iff.mpr hnil), not_lt.mp hge⟩

theorem perturbSaid_eq_none : m.perturbSaid = none ↔ m.perturb.1 = true := by
  unfold Measurements.perturbSaid
  cases m.perturb.1 <;> simp

theorem costSaid_eq_none : m.costSaid = none ↔ m.costOk = true := Library.said_eq_none _ _

theorem robust_iff : RobustOk stats m ↔
    m.dsrSaid stats = none ∧ m.pboSaid stats = none ∧ m.perturbSaid = none := by
  rw [dsrSaid_eq_none, pboSaid_eq_none, perturbSaid_eq_none, perturb_iff]
  exact ⟨fun h => ⟨h.dsr, h.pbo, h.neighbours⟩, fun ⟨hd, hp, hn⟩ => ⟨hd, hp, hn⟩⟩

theorem holdout_reasons_eq_nil {h : Holdout} : h.reasons = [] ↔
    Flt.lt h.sharpe (.fin MIN_BACKTEST_SHARPE) = false ∧ HOLDOUT_MIN_TRADES ≤ h.tradeCount ∧
      ∃ sma, h.smaPnl = some sma ∧ Flt.le h.pnl sma = false := by
  unfold Holdout.reasons
  rw [List.append_eq_nil_iff, List.append_eq_nil_iff, and_assoc]
  refine and_congr ?_ (and_congr ?_ ?_)
  · split
    next hlt =>
      exact iff_of_false (fun h => by cases h) fun hno => Bool.false_ne_true (hno.symm.trans hlt)
    next hge => exact iff_of_true rfl (Bool.eq_false_iff.mpr hge)
  · split
    next hlt => exact iff_of_false (fun h => by cases h) (not_le.mpr hlt)
    next hge => exact iff_of_true rfl (not_lt.mp hge)
  · cases h.smaPnl with
    | none => exact iff_of_false (fun h => by cases h) fun ⟨_, hsma, _⟩ => by cases hsma
    | some sma =>
      dsimp only
      split
      next hle =>
        refine iff_of_false (fun h => by cases h) ?_
        rintro ⟨sma', hsma, hno⟩
        obtain rfl := Option.some.inj hsma
        rw [hle] at hno
        cases hno
      next hgt => exact iff_of_true rfl ⟨sma, rfl, Bool.eq_false_iff.mpr hgt⟩

theorem holdoutSaid_eq_none : m.holdoutSaid = none ↔ m.holdoutBlock.pass = true := by
  unfold Measurements.holdoutSaid
  cases m.holdoutBlock.pass <;> simp

theorem holdout_pass_iff : m.holdoutBlock.pass = true ↔
    ∃ h, m.holdout = some h ∧ h.results ≠ [] ∧ h.reasons = [] := by
  unfold Measurements.holdoutBlock
  cases m.holdout with
  | none => exact iff_of_false (fun h => by cases h) fun ⟨_, h, _⟩ => by cases h
  | some h =>
    show (holdoutMetrics h).pass = true ↔ _
    unfold holdoutMetrics
    split
    next hnil =>
      refine iff_of_false (fun h => by cases h) ?_
      rintro ⟨h', hh', hne, -⟩
      obtain rfl := Option.some.inj hh'
      exact hne hnil
    next hne =>
      show h.reasons.isEmpty = true ↔ _
      rw [List.isEmpty_iff]
      constructor
      · exact fun hnil => ⟨h, rfl, hne, hnil⟩
      · rintro ⟨h', hh', -, hnil⟩
        obtain rfl := Option.some.inj hh'
        exact hnil

theorem attested_iff (record : Record) :
    v4AttestationOk (finishGateV4 stats record m) = true ↔ m.hard stats = [] := by
  show ((m.hard stats).isEmpty && decide (GATE_RULES = GATE_RULES) && m.holdoutBlock.pass &&
    (m.dsrSaid stats).isNone && (m.pboSaid stats).isNone && m.perturb.1 && m.costOk) = true ↔ _
  simp only [Bool.and_eq_true, List.isEmpty_iff, Option.isNone_iff_eq_none, decide_true, and_true]
  refine ⟨fun h => h.1.1.1.1.1, fun h => ?_⟩
  obtain ⟨hhold, hdsr, hperturb, hpbo, hcost⟩ := hard_eq_nil.mp h
  exact ⟨⟨⟨⟨⟨h, holdoutSaid_eq_none.mp hhold⟩, hdsr⟩, hpbo⟩, perturbSaid_eq_none.mp hperturb⟩,
    costSaid_eq_none.mp hcost⟩

/-- The measurements that no check rejects: those that meet the thresholds, and those that
slip through. -/
theorem hard_eq_nil_iff : m.hard stats = [] ↔ Meets stats m ∨ Slips stats m := by
  rw [hard_eq_nil, holdoutSaid_eq_none, holdout_pass_iff, costSaid_eq_none]
  constructor
  · rintro ⟨⟨h, hh, hne, hreasons⟩, hdsr, hperturb, hpbo, hcost⟩
    have hrobust : RobustOk stats m := robust_iff.mpr ⟨hdsr, hpbo, hperturb⟩
    obtain ⟨hsharpe, htrades, sma, hsma, hpnl⟩ := holdout_reasons_eq_nil.mp hreasons
    cases hfin : h.sharpe.isFinite && h.pnl.isFinite && sma.isFinite && m.stressSharpe.isFinite with
    | false => exact .inr ⟨hrobust, h, sma, hh, hne, htrades, hsma, ⟨hsharpe, hpnl, hcost⟩, hfin⟩
    | true =>
      simp only [Bool.and_eq_true] at hfin
      obtain ⟨⟨⟨hf1, hf2⟩, hf3⟩, hf4⟩ := hfin
      obtain ⟨q, hq⟩ := Flt.exists_of_isFinite hf1
      obtain ⟨pnl, hp⟩ := Flt.exists_of_isFinite hf2
      obtain ⟨s, rfl⟩ := Flt.exists_of_isFinite hf3
      rw [hq] at hsharpe
      rw [hp] at hpnl
      refine .inl ⟨hrobust, ⟨h, hh, hne, htrades, ⟨q, hq, ?_⟩, pnl, s, hp, hsma, ?_⟩, ?_⟩
      · exact not_lt.mp (of_decide_eq_false hsharpe)
      · exact not_le.mp (of_decide_eq_false hpnl)
      · exact Flt.le_and_finite.mp ⟨hcost, hf4⟩
  · intro hor
    have hrobust : RobustOk stats m := hor.elim Meets.robust Slips.robust
    obtain ⟨hdsr, hpbo, hperturb⟩ := robust_iff.mp hrobust
    rcases hor with hmeets | hslips
    · obtain ⟨h, hh, hne, htrades, ⟨q, hq, hle⟩, pnl, sma, hpnl, hsma, hlt⟩ := hmeets.holdout
      refine ⟨⟨h, hh, hne, holdout_reasons_eq_nil.mpr ⟨?_, htrades, _, hsma, ?_⟩⟩, hdsr, hperturb,
        hpbo, (Flt.le_and_finite.mpr hmeets.stress).1⟩
      · rw [hq]
        exact decide_eq_false (not_lt.mpr hle)
      · rw [hpnl]
        exact decide_eq_false (not_le.mpr hlt)
    · obtain ⟨h, sma, hh, hne, htrades, hsma, ⟨hsharpe, hpnl, hcost⟩, -⟩ := hslips.unrejected
      exact ⟨⟨h, hh, hne, holdout_reasons_eq_nil.mpr ⟨hsharpe, htrades, sma, hsma, hpnl⟩⟩, hdsr,
        hperturb, hpbo, hcost⟩

theorem Meets.not_slips (hmeets : Meets stats m) : ¬ Slips stats m := by
  rintro ⟨-, h, sma, hh, -, -, hsma, -, hundefined⟩
  obtain ⟨h', hh', -, -, ⟨q, hq, -⟩, pnl, s, hpnl, hs, -⟩ := hmeets.holdout
  obtain ⟨r, hr, -⟩ := hmeets.stress
  obtain rfl := Option.some.inj (hh.symm.trans hh')
  obtain rfl := Option.some.inj (hsma.symm.trans hs)
  rw [hq, hpnl, hr] at hundefined
  cases hundefined

end

/-- **The 5m gate fails closed** unless a number slips through its comparisons: of a row
that passed the floors, what the gate returns is qualified only with figures that are
defined and meet their thresholds, exactly when no reason was added and exactly when it is
attested, if and only if the measurements do not slip. -/
theorem gate_fails_closed_iff (stats : Stats) (record : Record) (m : Measurements)
    (hfloors : record.qualified = true) : FailsClosed stats m record ↔ ¬ Slips stats m := by
  have hqualified : (finishGateV4 stats record m).qualified = true ↔ m.hard stats = [] := by
    show (record.qualified && (m.hard stats).isEmpty) = true ↔ _
    rw [hfloors, Bool.true_and, List.isEmpty_iff]
  constructor
  · intro h hslips
    exact (h.meets (hqualified.mpr (hard_eq_nil_iff.mpr (.inr hslips)))).not_slips hslips
  · intro hno
    refine ⟨fun h => (hard_eq_nil_iff.mp (hqualified.mp h)).resolve_right hno, ?_, ?_⟩
    · rw [hqualified]
      exact List.append_right_eq_self.symm
    · rw [hqualified, attested_iff]

/-- A square root to twelve decimals, and the normal distribution far out. -/
def farStats : Stats where
  sqrt := fun q => (Nat.sqrt (q * 10 ^ 24).floor.toNat : ℚ) / 10 ^ 12
  ppf := fun q => if q ≤ 0 then .inf true else if 1 ≤ q then .inf false else .fin 0
  cdf := fun z => if 9 ≤ z then 1 else if z ≤ -40 then 0 else 1 / 2

/-- A window of nine days around one percent. -/
def goodWindow (pnl : ℚ) : Window where
  sharpe := some (.fin 1)
  testTrades := some 20
  dailyReturns := some ((List.replicate 4 (.fin (11 / 1000))) ++ .fin (1 / 100) ::
    List.replicate 4 (.fin (9 / 1000)))
  testPnl := some (.fin pnl)

/-- Measurements that clear the gate, with a holdout of Sharpe `sharpe`. -/
def goodBut (sharpe : Flt) : Measurements where
  windows := [goodWindow 100, goodWindow 100]
  holdout := some
    { results := [{ totalPnl := .fin 100, trades := 10, sharpe := sharpe }]
      dailySharpe := .fin 1, bhDailySharpe := none, smaPnl := some (.fin 50) }
  nTrials := some 1
  neighbours := [[goodWindow (-10), goodWindow (-10)]]
  stressed := [goodWindow 50, goodWindow 50]
  stressDailySharpe := .fin 1
  stressBhDailySharpe := none
  ethWindows := none

theorem gate_fails_closed_good :
    FailsClosed farStats (goodBut (.fin 1)) { qualified := true } ↔
      ¬ Slips farStats (goodBut (.fin 1)) :=
  gate_fails_closed_iff farStats { qualified := true } (goodBut (.fin 1)) rfl

/-- A holdout whose Sharpe is no number is not below the floor. -/
theorem nan_sharpe_passes :
    ¬ FailsClosed farStats (goodBut .nan) { qualified := true } := by
  intro h
  have hqualified : (finishGateV4 farStats { qualified := true } (goodBut .nan)).qualified = true := by
    decide +kernel
  obtain ⟨hold, hh, -, -, ⟨q, hq, -⟩, -⟩ := (h.meets hqualified).holdout
  obtain rfl := Option.some.inj hh
  cases hq

end PaperTrading.Gate
