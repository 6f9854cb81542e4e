import PaperTrading.Gate.GateV4

/-!
# Stored rows and the aggregate floors

`trading/qualify.py` decides a name on the sums and the average over its windows
(`qualificationDecision`); the row that is stored keeps these figures rounded
(`strategyRecord`), and `qualificationFromRecord` decides again on them.

A row comes from a file, so a number in it may be missing or be something else.
-/

namespace PaperTrading.Gate

open PaperTrading.Champions (GATE_RULES)
open PaperTrading.Lib
open PaperTrading.Library (MIN_BACKTEST_SHARPE)

def MIN_BACKTEST_TRADES : ℤ := 30
def QUAL_TIMEFRAME : String := "5m"
def RISK_POLICY : String := "rm_v1"
def BH_METRIC_ROLE : String := "informational"
def WINDOW_VETO_REASON : String := "not all windows non-negative"
def WINDOW_SLOT_REASON_PREFIX : String := "window["

/-! ## Numbers in a row -/

/-- What a row has where a number is expected. -/
inductive Cell where
  | bool (b : Bool)
  | int (n : ℤ)
  | float (x : Flt)
  /-- A text, a list or an object, empty or not. -/
  | other (empty : Bool)
deriving DecidableEq, Repr

namespace Cell

/-- `float(v or 0.0)` -/
def toFloat : Option Cell → Except String Flt
  | none => .ok (.fin 0)
  | some (.bool b) => .ok (.fin (if b then 1 else 0))
  | some (.int n) => .ok (.fin n)
  | some (.float x) => .ok x
  | some (.other true) => .ok (.fin 0)
  | some (.other false) => .error "float() argument must be a string or a real number"

/-- `int(v or 0)` -/
def toInt : Option Cell → Except String ℤ
  | none => .ok 0
  | some (.bool b) => .ok (if b then 1 else 0)
  | some (.int n) => .ok n
  | some (.float (.fin q)) => .ok (q.num.tdiv q.den)
  | some (.float (.inf _)) => .error "cannot convert float infinity to integer"
  | some (.float .nan) => .error "cannot convert float NaN to integer"
  | some (.other true) => .ok 0
  | some (.other false) => .error "int() argument must be a string, a bytes-like object or a real number"

/-- `_optional_float` -/
def optionalFloat : Option Cell → Option Flt
  | none => none
  | some (.bool b) => some (.fin (if b then 1 else 0))
  | some (.int n) => some (.fin n)
  | some (.float x) => some x
  | some (.other _) => none

/-- `_finite` -/
def finite : Option Cell → Option ℚ
  | some (.int n) => some n
  | some (.float (.fin q)) => some q
  | _ => none

/-- `_whole` -/
def whole : Option Cell → Option ℤ
  | some (.int n) => some n
  | some (.float (.fin q)) => if q.den = 1 then some q.num else none
  | _ => none

end Cell

/-! ## Rows -/

/-- The holdout of a stored `gate_v4` block. -/
structure StoredHoldout where
  sharpe : Option Cell := none
  trades : Option Cell := none
  pnl : Option Cell := none
  smaPnl : Option Cell := none
  bhRole : Option String := none
deriving DecidableEq, Repr

/-- A stored `gate_v4` block; a flag that is not `True` counts as none. -/
structure StoredBlock where
  passed : Bool := false
  rules : Option String := none
  holdoutPass : Bool := false
  dsrPass : Bool := false
  pboPass : Bool := false
  perturbPass : Bool := false
  costPass : Bool := false
  dsr : Option Cell := none
  nTrials : Option Cell := none
  pbo : Option Cell := none
  neighbours : Option Cell := none
  neighboursPass : Option Cell := none
  costSharpe : Option Cell := none
  costBhRole : Option String := none
  holdout : Option StoredHoldout := none
deriving DecidableEq, Repr

/-- A row of the discovery log. A field is none where the key is missing, its value is
`None`, or it is of no kind that is looked at. -/
structure StoredRow where
  strategy : Option String := none
  testedAt : Option String := none
  timeframe : Option String := none
  riskPolicy : Option String := none
  trainPnl : Option Cell := none
  testPnl : Option Cell := none
  sharpe : Option Cell := none
  winRatePct : Option Cell := none
  trades : Option Cell := none
  regimesTested : Option Cell := none
  qualified : Bool := false
  bhOosPnl : Option Cell := none
  smaStackOosPnl : Option Cell := none
  dailySharpe : Option Cell := none
  bhDailySharpe : Option Cell := none
  bhDailySharpeRole : Option String := none
  bhOosPnlRole : Option String := none
  avgHoldHours : Option Cell := none
  gateRules : Option String := none
  failReasons : Option (List String) := none
  allWindowsNonneg : Option Bool := none
  score : Option Cell := none
  opsPark : Bool := false
  symbols : Option (List String) := none
  gateV4 : Option StoredBlock := none
  rescoredAt : Option String := none
  rescoreReason : Option String := none
  rescoreFromRules : Option String := none
deriving DecidableEq, Repr

/-! ## The floors -/

/-- The checks of the aggregate gate. -/
inductive Check where
  | windows
  | trades
  | sharpe
  | smaMissing
  | smaStack
deriving DecidableEq, Repr

/-- A reason to fail: the check, and the figures it prints. -/
inductive FailReason where
  | windows (n expected : ℤ)
  | trades (n : ℤ)
  | sharpe (avg : Flt)
  | smaMissing
  | smaStack (pnl sma : Flt)
deriving DecidableEq, Repr

def FailReason.check : FailReason → Check
  | windows .. => .windows
  | trades _ => .trades
  | sharpe _ => .sharpe
  | smaMissing => .smaMissing
  | smaStack .. => .smaStack

def FailReason.text : FailReason → String
  | windows n expected => "windows " ++ toString n ++ " != expected " ++ toString expected
  | trades n => "oos_trades " ++ toString n ++ " < 30"
  | sharpe avg => "oos_sharpe " ++ avg.text 2 ++ " < 0.3"
  | smaMissing => "sma_stack missing"
  | smaStack pnl sma => "oos_pnl " ++ pnl.text 2 ++ " <= sma_stack " ++ sma.text 2

/-- `aggregate_fail_reasons`; what is informational has no part in it. -/
def aggregateFailReasons (totTestPnl : Flt) (totOosTrades : ℤ) (avgSharpe : Flt)
    (smaStackOosPnl : Option Flt) (nWindows expectedWindows : ℤ) : List FailReason :=
  (if nWindows ≠ expectedWindows then [.windows nWindows expectedWindows] else []) ++
  (if totOosTrades < MIN_BACKTEST_TRADES then [.trades totOosTrades] else []) ++
  (if Flt.lt avgSharpe (.fin MIN_BACKTEST_SHARPE) then [.sharpe avgSharpe] else []) ++
  match smaStackOosPnl with
  | none => [.smaMissing]
  | some sma => if Flt.le totTestPnl sma then [.smaStack totTestPnl sma] else []

/-- `oos_admission_score` -/
def oosAdmissionScore (totTestPnl avgSharpe : Flt) : Flt := totTestPnl.add (avgSharpe.mul (.fin 10))

/-- `is_window_veto_reason` -/
def isWindowVetoReason (text : String) : Bool :=
  text = WINDOW_VETO_REASON || WINDOW_SLOT_REASON_PREFIX.toList.isPrefixOf text.toList

/-- What a decision says; one on a row has no train P&L. -/
structure Decision where
  passed : Bool
  reasons : List FailReason
  dailySharpe : Option Flt
  bhDailySharpe : Option Flt
  totTestPnl : Flt
  totTrainPnl : Option Flt
  totOosTrades : ℤ
  avgSharpe : Flt
  allWindowsNonneg : Bool
  score : Flt
  bhOosPnl : Option Flt
  bhRole : String
  smaStackOosPnl : Option Flt
deriving DecidableEq

/-! ## On the windows -/

/-- The score of one window; a field may be missing. -/
structure WindowScore where
  trainPnl : Option Flt := none
  testPnl : Option Flt := none
  testTrades : Option ℤ := none
  wins : Option ℤ := none
  sharpe : Option Flt := none
  skipped : Bool := false
  failed : Bool := false
  dailyReturns : Option (List Flt) := none
  holdBars : Option ℤ := none

namespace WindowScore

/-- `window_is_nonneg` -/
def isNonneg (w : WindowScore) : Bool :=
  match w.testPnl with
  | none => false
  | some pnl => !(w.skipped || w.failed || w.testTrades.getD 0 < 1 || Flt.lt pnl (.fin 0))

variable (windows : List WindowScore)

def totTestPnl : Flt := Flt.sum (windows.map fun w => w.testPnl.getD (.fin 0))

def totTrainPnl : Flt := Flt.sum (windows.map fun w => w.trainPnl.getD (.fin 0))

def totOosTrades : ℤ := (windows.map fun w => w.testTrades.getD 0).sum

def avgSharpe : Flt :=
  match windows.map fun w => w.sharpe.getD (.fin 0) with
  | [] => .fin 0
  | sharpes => (Flt.sum sharpes).divBy sharpes.length

/-- `strategy_daily_sharpe_from_windows`; `sharpeOf` is `daily_returns_sharpe`. -/
def strategyDailySharpe (sharpeOf : List Flt → Flt) : Option Flt :=
  if windows.any (·.dailyReturns.isSome) then
    some (sharpeOf (windows.flatMap fun w => w.dailyReturns.getD []))
  else none

end WindowScore

open WindowScore in
/-- `qualification_decision` -/
def qualificationDecision (sharpeOf : List Flt → Flt) (windows : List WindowScore)
    (expectedWindows : ℤ) (bhOosPnl smaStackOosPnl bhDailySharpe : Option Flt) : Decision :=
  let reasons := aggregateFailReasons (totTestPnl windows) (totOosTrades windows) (WindowScore.avgSharpe windows)
    smaStackOosPnl windows.length expectedWindows
  { passed := reasons.isEmpty
    reasons := reasons
    dailySharpe := strategyDailySharpe windows sharpeOf
    bhDailySharpe := bhDailySharpe
    totTestPnl := totTestPnl windows
    totTrainPnl := some (totTrainPnl windows)
    totOosTrades := totOosTrades windows
    avgSharpe := WindowScore.avgSharpe windows
    allWindowsNonneg := windows ≠ [] && windows.all isNonneg
    score := oosAdmissionScore (totTestPnl windows) (WindowScore.avgSharpe windows)
    bhOosPnl := bhOosPnl
    bhRole := BH_METRIC_ROLE
    smaStackOosPnl := smaStackOosPnl }

/-! ## On a row -/

/-- A figure of a row, rounded. -/
def rounded (d : ℕ) (x : Flt) : Option Cell := some (.float (x.round d))

/-- The row `evaluate_strategy_record` stores of a name that parses, from the scores of its
windows. -/
def strategyRecord (sharpeOf : List Flt → Flt) (name testedAt : String)
    (windows : List WindowScore) (nWindows : ℤ) (bhOosPnl smaStackOosPnl bhDailySharpe : Option Flt) :
    StoredRow :=
  let decision := qualificationDecision sharpeOf windows nWindows bhOosPnl smaStackOosPnl bhDailySharpe
  let oosTrades := decision.totOosTrades
  let totWins := (windows.map fun w => w.wins.getD 0).sum
  let totHoldBars := (windows.map fun w => w.holdBars.getD 0).sum
  let winRate : ℚ := if 0 < oosTrades then totWins / oosTrades else 0
  { strategy := some name
    testedAt := some testedAt
    timeframe := some QUAL_TIMEFRAME
    riskPolicy := some RISK_POLICY
    trainPnl := decision.totTrainPnl.bind (rounded 2)
    testPnl := rounded 2 decision.totTestPnl
    sharpe := rounded 2 decision.avgSharpe
    winRatePct := rounded 1 (.fin (winRate * 100))
    trades := some (.int oosTrades)
    regimesTested := some (.int windows.length)
    qualified := decision.passed
    bhOosPnl := bhOosPnl.bind (rounded 2)
    smaStackOosPnl := smaStackOosPnl.bind (rounded 2)
    dailySharpe := decision.dailySharpe.bind (rounded 3)
    bhDailySharpe := bhDailySharpe.bind (rounded 3)
    bhDailySharpeRole := some BH_METRIC_ROLE
    bhOosPnlRole := some BH_METRIC_ROLE
    avgHoldHours :=
      if 0 < oosTrades then rounded 2 (.fin (totHoldBars / oosTrades * 5 / 60)) else none
    gateRules := some GATE_RULES
    failReasons := some (decision.reasons.map FailReason.text)
    allWindowsNonneg := some decision.allWindowsNonneg
    score := if decision.passed then rounded 2 decision.score else none }

/-- `qualification_from_record` -/
def qualificationFromRecord (row : StoredRow) (expectedWindows : ℤ) : Except String Decision := do
  let totTestPnl ← Cell.toFloat row.testPnl
  let totOosTrades ← Cell.toInt row.trades
  let avgSharpe ← Cell.toFloat row.sharpe
  let nWindows ←
    if row.regimesTested = none then pure expectedWindows else Cell.toInt row.regimesTested
  let sma := Cell.optionalFloat row.smaStackOosPnl
  let reasons := aggregateFailReasons totTestPnl totOosTrades avgSharpe sma nWindows expectedWindows
  pure
    { passed := reasons.isEmpty
      reasons := reasons
      dailySharpe := Cell.optionalFloat row.dailySharpe
      bhDailySharpe := Cell.optionalFloat row.bhDailySharpe
      totTestPnl := totTestPnl
      totTrainPnl := none
      totOosTrades := totOosTrades
      avgSharpe := avgSharpe
      allWindowsNonneg := row.allWindowsNonneg.getD
        (!(row.failReasons.getD []).any isWindowVetoReason)
      score := oosAdmissionScore totTestPnl avgSharpe
      bhOosPnl := Cell.optionalFloat row.bhOosPnl
      bhRole := BH_METRIC_ROLE
      smaStackOosPnl := sma }

end PaperTrading.Gate
