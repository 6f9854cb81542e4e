import PaperTrading.Champions.StoredPasses
import PaperTrading.Library.Live
import PaperTrading.Library.Verdict

/-!
# The rows of library evaluations and who accepts them

`evaluate_library_record` of `library/evaluate.py` puts the verdict on a row. Three
readers look at it again: `library_attestation_ok`, `_validate_library_eval` of
`trading/ingest.py` and `library_pass_record` of `trading/approved_admit.py`.
`gate_agrees` says what each makes of a row.
-/

namespace PaperTrading.Library

open PaperTrading.Champions
open PaperTrading.Lib

/-- `ENGINE_ID` -/
def ENGINE_ID : String := "signal_exit"

/-- `RISK_POLICY` -/
def RISK_POLICY : String := "signal_exit_all_in"

/-- A field of a row: missing, of the kind that is looked for, or something else. -/
inductive Field (α : Type) where
  | missing
  | of (a : α)
  | other
deriving DecidableEq

/-- The `gate_v4` block, as far as it is read; each key may be missing. -/
structure GateFields where
  passed : Option Bool
  rules : Option String
  oosPnlPass : Option Bool
  tradesPass : Option Bool
  holdoutPass : Option Bool
  costPass : Option Bool
  nTrials : Option ℕ
deriving DecidableEq

structure Row where
  strategy : String
  testedAt : String
  qualified : Bool
  timeframe : Option String
  riskPolicy : Option String
  engine : Option String
  gateRules : Option String
  gateV4 : Field GateFields
  failReasons : Field (List String)
  warnings : Field (List String)
deriving DecidableEq

/-- The row `evaluate_library_record` builds. -/
def evaluationRow (name testedAt : String) (m : Measured) : Row :=
  let verdict := libraryVerdict m
  { strategy := name
    testedAt := testedAt
    qualified := verdict.qualified
    timeframe := some TIMEFRAME
    riskPolicy := some RISK_POLICY
    engine := some ENGINE_ID
    gateRules := some GATE_RULES
    gateV4 := .of
      { passed := some verdict.qualified
        rules := some GATE_RULES
        oosPnlPass := some verdict.oosPnlPass
        tradesPass := some verdict.tradesPass
        holdoutPass := some verdict.holdoutPass
        costPass := some verdict.costPass
        nTrials := some m.nTrials }
    failReasons := .of verdict.failReasons
    warnings := .of verdict.warnings }

/-! ## The readers -/

/-- `library_attestation_ok` -/
def libraryAttestationOk (row : Row) : Bool :=
  match row.gateV4 with
  | .of block =>
    block.passed = some true ∧ block.rules = some GATE_RULES ∧ block.oosPnlPass = some true ∧
      block.tradesPass = some true ∧ block.holdoutPass = some true ∧ block.costPass = some true
  | _ => false

/-- A list that is missing is empty. -/
def listed : Field (List String) → Option (List String)
  | .missing => some []
  | .of l => some l
  | .other => none

/-- `_validate_library_eval` -/
def validateLibraryEval (claimNames : List String) (libraryTrialCount : ℕ) (row : Row) :
    Option Row :=
  if row.strategy ∉ claimNames then none
  else if row.timeframe ≠ some TIMEFRAME ∨ row.riskPolicy ≠ some RISK_POLICY then none
  else if row.engine ≠ some ENGINE_ID ∨ row.gateRules ≠ some GATE_RULES then none
  else
    match row.gateV4 with
    | .of block =>
      if block.nTrials ≠ some libraryTrialCount then none
      else if row.qualified ∧ ¬ libraryAttestationOk row then none
      else
        match listed row.failReasons, listed row.warnings with
        | some reasons, some warnings =>
          some { row with failReasons := .of reasons, warnings := .of warnings }
        | _, _ => none
    | _ => none

/-- What the seating of stored passes looks at. -/
def Row.evalRow (row : Row) : EvalRow where
  strategy := row.strategy
  qualified := row.qualified
  testedAt := row.testedAt
  gateRules := row.gateRules.getD ""
  library := true
  gate :=
    match row.gateV4 with
    | .of block => some { passed := block.passed = some true, rules := block.rules.getD "" }
    | _ => none

/-! ## Who accepts what -/

section
variable (claimNames : List String) (libraryTrialCount : ℕ) (name testedAt : String) (m : Measured)

theorem attestation_iff :
    libraryAttestationOk (evaluationRow name testedAt m) = true ↔
      (libraryVerdict m).qualified = true := by
  show decide (some (libraryVerdict m).qualified = some true ∧ _ ∧ some m.oosProfit = some true ∧
    some (m.tradesOk && m.holdTradesOk) = some true ∧
    some (m.holdoutPresent && m.holdProfit && m.holdTradesOk) = some true ∧
    some m.costOk = some true) = true ↔ _
  simp only [decide_eq_true_eq, Option.some.injEq, Bool.and_eq_true]
  constructor
  · exact fun h => h.1
  · intro hq
    have hc := (qualified_iff_cleared m).mp hq
    have hpresent : m.holdoutPresent = true := (Bool.and_eq_true_iff.mp hc.holdoutPnl).1
    exact ⟨hq, trivial, hc.oosPnl, ⟨hc.oosTrades, hc.holdoutTrades⟩,
      ⟨⟨hpresent, hc.holdoutPnl⟩, hc.holdoutTrades⟩, hc.cost⟩

/-- A row of a catalog name with the library's trial count is taken as it is; any other
is refused. -/
theorem validate_evaluationRow :
    validateLibraryEval claimNames libraryTrialCount (evaluationRow name testedAt m) =
      if name ∈ claimNames ∧ m.nTrials = libraryTrialCount then
        some (evaluationRow name testedAt m)
      else none := by
  have hattested : ¬ ((evaluationRow name testedAt m).qualified = true ∧
      ¬ libraryAttestationOk (evaluationRow name testedAt m) = true) := fun h =>
    h.2 ((attestation_iff name testedAt m).mpr h.1)
  unfold validateLibraryEval
  by_cases hname : name ∈ claimNames
  · refine (if_neg (not_not_intro hname)).trans
      ((if_neg (not_or.mpr ⟨not_not_intro rfl, not_not_intro rfl⟩)).trans
        ((if_neg (not_or.mpr ⟨not_not_intro rfl, not_not_intro rfl⟩)).trans ?_))
    by_cases htrials : m.nTrials = libraryTrialCount
    · refine Eq.trans ?_ (if_pos ⟨hname, htrials⟩).symm
      exact (if_neg (not_not_intro (congrArg some htrials))).trans (if_neg hattested)
    · refine Eq.trans ?_ (if_neg fun h => htrials h.2).symm
      exact if_pos fun h => htrials (Option.some.inj h)
  · refine Eq.trans ?_ (if_neg fun h => hname h.1).symm
    exact if_pos hname

theorem passRecord_iff :
    libraryPassRecord claimNames (evaluationRow name testedAt m).evalRow = true ↔
      name ∈ claimNames ∧ (libraryVerdict m).qualified = true := by
  unfold libraryPassRecord verdictQualified
  show (decide (name ∈ claimNames) && ((libraryVerdict m).qualified &&
    decide (GATE_RULES = GATE_RULES) && (decide (some (libraryVerdict m).qualified = some true) &&
      decide (GATE_RULES = GATE_RULES)))) = true ↔ _
  cases (libraryVerdict m).qualified <;> simp

end

/-- What the gate and its readers agree on, for a row under `name`: the verdict is its
reasons and its veto checks; a qualified row has its attestation, is taken in if its name
is a catalog name and its trial count the library's, and then is a pass; no other row is
one. -/
structure Agrees (claimNames : List String) (libraryTrialCount : ℕ) (name testedAt : String)
    (m : Measured) : Prop where
  reasons : (libraryVerdict m).qualified = true ↔ (libraryVerdict m).failReasons = []
  checks : (libraryVerdict m).qualified = true ↔
    ∀ key ∈ VETO_CHECKS, passes (libraryVerdict m).checks key = true
  warnings : ∀ m', m.SameVetoes m' →
    (libraryVerdict m).qualified = (libraryVerdict m').qualified
  attested : (libraryVerdict m).qualified = true ↔
    libraryAttestationOk (evaluationRow name testedAt m) = true
  accepted : (libraryVerdict m).qualified = true →
    (validateLibraryEval claimNames libraryTrialCount (evaluationRow name testedAt m) =
        some (evaluationRow name testedAt m) ↔
      name ∈ claimNames ∧ m.nTrials = libraryTrialCount)
  passed : (libraryVerdict m).qualified = true →
    (libraryPassRecord claimNames (evaluationRow name testedAt m).evalRow = true ↔
      name ∈ claimNames)
  refused : (libraryVerdict m).qualified = false →
    libraryPassRecord claimNames (evaluationRow name testedAt m).evalRow = false ∧
      ∀ row, validateLibraryEval claimNames libraryTrialCount (evaluationRow name testedAt m) =
        some row → row.qualified = false

/-- **The gate and its readers agree** on every evaluation, whatever is missing or is no
finite number in it. -/
theorem gate_agrees (claimNames : List String) (libraryTrialCount : ℕ) (name testedAt : String)
    (m : Measured) : Agrees claimNames libraryTrialCount name testedAt m where
  reasons := qualified_iff_reasons m
  checks := qualified_iff_passes m
  warnings := fun _ h => (verdict_congr h).1
  attested := (attestation_iff name testedAt m).symm
  accepted := fun _ => by
    rw [validate_evaluationRow]
    split
    next h => exact iff_of_true rfl h
    next h => exact iff_of_false (fun hsome => by cases hsome) h
  passed := fun h => (passRecord_iff claimNames name testedAt m).trans (and_iff_left h)
  refused := fun h => by
    refine ⟨?_, fun row hrow => ?_⟩
    · rw [← Bool.not_eq_true, passRecord_iff, h]
      exact fun hand => Bool.false_ne_true hand.2
    · rw [validate_evaluationRow] at hrow
      split at hrow
      next =>
        obtain rfl := Option.some.inj hrow
        exact h
      next => cases hrow

/-- Numbers that clear every veto. -/
def clears : Measured where
  windowsOk := true
  nWindows := 6
  expectedWindows := 6
  windowSpan := "2018-12-01 through the day before the holdout"
  oosPnl := .fin 5000
  oosTrades := 20
  oosSharpe := .fin 1
  smaOosPnl := some (.fin 4000)
  bhOosPnl := some (.fin 3000)
  holdoutPresent := true
  holdoutNote := none
  holdoutPnl := some (.fin 100)
  holdoutTrades := some 4
  holdoutSharpe := some (.fin 1)
  smaHoldoutPnl := some (.fin 50)
  bhHoldoutPnl := some (.fin 50)
  stressOosPnl := some (.fin 4500)
  stressHoldoutPnl := some (.fin 80)
  dsrValue := some (.fin (97 / 100))
  nTrials := 300
  pbo := some (.fin (1 / 10))
  pboUndefined := none
  neighbourPasses := [true, true, true]

/-- The evaluation of a neighbour's name clears the gate, and its row is refused. -/
theorem neighbour_row_refused :
    (libraryVerdict clears).qualified = true ∧
      validateLibraryEval ["lib.sma200"] 300 (evaluationRow "lib.sma200.1_150" "2026-10-29" clears) =
        none ∧
      libraryPassRecord ["lib.sma200"]
        (evaluationRow "lib.sma200.1_150" "2026-10-29" clears).evalRow = false := by
  refine ⟨(qualified_iff_cleared clears).mpr ⟨?_, ?_, ?_, ?_, ?_, ?_⟩, ?_, ?_⟩
  all_goals decide +kernel

end PaperTrading.Library
