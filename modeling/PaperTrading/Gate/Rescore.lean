import Mathlib.Data.List.Sort
import PaperTrading.Gate.StoredRows
import PaperTrading.Lib.Dict
import PaperTrading.Lib.Pattern
import PaperTrading.Lib.Text

/-!
# Rescoring the rows that missed buy-and-hold alone

`trading/rescore_v5.py` goes through the newest row of each name, of the discovery log
where it has one and of the results map otherwise, and labels those qualified whose only
fails were comparisons with buy-and-hold and whose other stored figures all pass
(`classifyRow`). The rows of the log are edited where they stand; rows of the map alone go
in front of it.

`rescored_once` says what an applied run does: it marks those rows and no others, a row it
marks passes `qualificationFromRecord` and carries a passing block, the other rows stay as
and where they were, and a second run finds nothing left to write.
-/

namespace PaperTrading.Gate

open PaperTrading.Champions (GATE_RULES)
open PaperTrading.Lib
open PaperTrading.Library (MIN_BACKTEST_SHARPE DSR_MIN_PROBABILITY PBO_MAX
  NEIGHBOR_PASS_MIN_FRACTION)

def RESCORE_REASON : String := "gate_v5_buy_and_hold_informational"
def BH_MISSING : String := "buy-and-hold daily sharpe missing"
def HOLDOUT_BH_MISSING : String := "holdout buy-and-hold daily sharpe missing"
def DISCOVERY_N_WINDOWS : ℤ := 18
def TRADE_SYMBOLS : List String := ["BTC/USDT"]

/-! ## Buy-and-hold reasons -/

/-- `\s+` -/
def blanks : Pattern Text := .many1 isSpace

/-- `-?[\d.]+` -/
def figure : Pattern Text := do
  let sign ← .opt (.lit "-")
  let digits ← .many1 fun c => isDigit c || c = '.'
  pure (if sign.isSome then '-' :: digits else digits)

/-- `^daily_sharpe\s+-?[\d.]+\s+<=\s+bh_daily_sharpe\s+-?[\d.]+$` -/
def bhBeat : Pattern Unit := do
  .lit "daily_sharpe"
  let _ ← blanks
  let _ ← figure
  let _ ← blanks
  .lit "<="
  let _ ← blanks
  .lit "bh_daily_sharpe"
  let _ ← blanks
  let _ ← figure

/-- `^holdout_daily_sharpe\s+-?[\d.]+\s+<=\s+bh\s+-?[\d.]+$` -/
def holdoutBeat : Pattern Unit := do
  .lit "holdout_daily_sharpe"
  let _ ← blanks
  let _ ← figure
  let _ ← blanks
  .lit "<="
  let _ ← blanks
  .lit "bh"
  let _ ← blanks
  let _ ← figure

/-- `_COST_BH`, with the stressed Sharpe it names. -/
def costBh : Pattern Text := do
  .lit "cost stress sharpe"
  let _ ← blanks
  let sharpe ← figure
  let _ ← blanks
  .lit "/"
  let _ ← blanks
  .lit "daily"
  let _ ← blanks
  let _ ← figure
  let _ ← blanks
  .lit "vs bh"
  let _ ← blanks
  let _ ← .many1 fun c => !isSpace c
  let _ ← blanks
  .lit "(2x fee + "
  let _ ← .many1 isDigit
  .lit "bps)"
  pure sharpe

/-- `float(text)` of a figure, none where it is not one number. -/
def floatOf (t : Text) : Option ℚ :=
  let digits := if t.head? = some '-' then t.drop 1 else t
  let value := fun ds : Text => ds.foldl (fun n c => 10 * n + digitValue c) 0
  let size : Option ℚ :=
    match digits.splitOn '.' with
    | [whole] => if whole = [] then none else some (value whole : ℕ)
    | [whole, frac] =>
      if whole = [] ∧ frac = [] then none
      else some ((value whole : ℕ) + (value frac : ℕ) / 10 ^ frac.length)
    | _ => none
  size.map fun q => if t.head? = some '-' then -q else q

/-- `is_bh_decision_reason` -/
def isBhDecisionReason (reason : String) : Bool :=
  let text := strip reason.toList
  if text = BH_MISSING.toList ∨ text = HOLDOUT_BH_MISSING.toList then true
  else if (bhBeat.whole text).isSome ∨ (holdoutBeat.whole text).isSome then true
  else
    match costBh.whole text with
    | none => false
    | some sharpe => (floatOf sharpe).any (MIN_BACKTEST_SHARPE ≤ ·)

example : isBhDecisionReason "cost stress sharpe 0.40 / daily 0.10 vs bh 0.80 (2x fee + 5bps)" = true := by
  decide +kernel

/-! ## Classes of rows -/

inductive RowStatus where
  | relabel
  | alreadyRescored
  | alreadyQualified
  | missingInputs
  | otherFailures
deriving DecidableEq, Repr

/-- The holdout figures of `_stored_v4_problem`. -/
def holdoutPasses (sharpe : ℚ) (trades : ℤ) (pnl sma : ℚ) : Bool :=
  MIN_BACKTEST_SHARPE ≤ sharpe && HOLDOUT_MIN_TRADES ≤ trades && sma < pnl

/-- `_stored_v4_problem` -/
def storedV4Problem (row : StoredRow) : Option RowStatus :=
  if row.regimesTested = none ∨ row.sharpe = none ∨ row.trades = none ∨ row.testPnl = none ∨
      row.smaStackOosPnl = none then some .missingInputs
  else
    match row.symbols, row.gateV4 with
    | some symbols, some block =>
      match block.holdout with
      | none => some .missingInputs
      | some holdout =>
        match Cell.finite holdout.sharpe, Cell.whole holdout.trades, Cell.finite holdout.pnl,
          Cell.finite holdout.smaPnl, Cell.finite block.dsr, Cell.whole block.nTrials,
          Cell.finite block.pbo, Cell.whole block.neighbours, Cell.whole block.neighboursPass,
          Cell.finite block.costSharpe with
        | some hSharpe, some hTrades, some hPnl, some hSma, some dsr, some nTrials, some pbo,
          some neighbours, some passed, some costSharpe =>
          match Cell.whole row.trades, Cell.finite row.sharpe, Cell.finite row.testPnl,
            Cell.finite row.smaStackOosPnl with
          | some trades, some sharpe, some pnl, some sma =>
            if Cell.whole row.regimesTested ≠ some DISCOVERY_N_WINDOWS ∨
                trades < MIN_BACKTEST_TRADES ∨ sharpe < MIN_BACKTEST_SHARPE ∨ pnl ≤ sma ∨
                symbols ≠ TRADE_SYMBOLS ∨ holdoutPasses hSharpe hTrades hPnl hSma = false ∨
                nTrials < 1 ∨ dsr < DSR_MIN_PROBABILITY ∨ PBO_MAX < pbo ∨ neighbours ≤ 0 ∨
                (passed : ℚ) / neighbours + 1 / 10 ^ 12 < NEIGHBOR_PASS_MIN_FRACTION ∨
                costSharpe < MIN_BACKTEST_SHARPE then some .otherFailures
            else none
          | _, _, _, _ => some .otherFailures
        | _, _, _, _, _, _, _, _, _, _ => some .missingInputs
    | _, _ => some .missingInputs

/-- `classify_row` -/
def classifyRow (row : StoredRow) : RowStatus :=
  if row.qualified && row.rescoreReason = some RESCORE_REASON && row.gateRules = some GATE_RULES then
    .alreadyRescored
  else if row.qualified then .alreadyQualified
  else if row.opsPark then .otherFailures
  else
    match row.failReasons with
    | none | some [] => .otherFailures
    | some reasons =>
      if reasons.all isBhDecisionReason then (storedV4Problem row).getD .relabel
      else .otherFailures

/-! ## Stamping -/

/-- The block of a stamped row. -/
def stampBlock (block : StoredBlock) : StoredBlock :=
  { block with
    passed := true
    rules := some GATE_RULES
    holdoutPass := true
    dsrPass := true
    pboPass := true
    perturbPass := true
    costPass := true
    costBhRole := some BH_METRIC_ROLE
    holdout := block.holdout.map fun holdout => { holdout with bhRole := some BH_METRIC_ROLE } }

/-- What `_stamp_row` sets before it computes the score. -/
def stampFields (row : StoredRow) (stamp : String) : StoredRow :=
  { row with
    qualified := true
    failReasons := some []
    gateRules := some GATE_RULES
    rescoredAt := some stamp
    rescoreReason := some RESCORE_REASON
    rescoreFromRules := row.gateRules
    bhDailySharpeRole := some BH_METRIC_ROLE
    bhOosPnlRole := some BH_METRIC_ROLE
    gateV4 := row.gateV4.map stampBlock }

/-- `_stamp_row` -/
def stampRow (row : StoredRow) (stamp : String) : Except String StoredRow := do
  let decision ← qualificationFromRecord (stampFields row stamp) DISCOVERY_N_WINDOWS
  pure { stampFields row stamp with score := rounded 2 decision.score }

/-- `v4_attestation_ok` -/
def StoredRow.v4AttestationOk (row : StoredRow) : Bool :=
  match row.gateV4 with
  | none => false
  | some block =>
    block.passed && block.rules = some GATE_RULES && block.holdoutPass && block.dsrPass &&
      block.pboPass && block.perturbPass && block.costPass

/-! ## The log and the results map -/

/-- The name of a row that has one. -/
def rowName (row : StoredRow) : Option String := row.strategy.filter (· ≠ "")

/-- The results map: the newest row of each name, under it. -/
structure ResultsMap where
  rows : Dict String StoredRow
  named : ∀ name row, rows.get? name = some row → rowName row = some name

/-- Adds a row under its name unless there is one. -/
def addRow (byName : Dict String StoredRow) (name : Option String) (row : StoredRow) :
    Dict String StoredRow :=
  match name with
  | none => byName
  | some name => if (byName.get? name).isSome then byName else byName.set name row

/-- `_latest`: the newest row of each name, first those of the log. -/
def latestRows (log : List StoredRow) (results : ResultsMap) : Dict String StoredRow :=
  results.rows.entries.foldl (fun d e => addRow d (some e.1) e.2)
    (log.foldl (fun d row => addRow d (rowName row) row) Dict.empty)

/-- `sorted(by_name)`, those of one status. -/
def group (byName : Dict String StoredRow) (status : RowStatus) : List String :=
  (byName.keys.insertionSort (· ≤ ·)).filter fun name =>
    (byName.get? name).map classifyRow = some status

/-- What the loop of `rescore_v5` has edited so far. -/
structure Edited where
  log : List StoredRow
  prepend : List StoredRow := []
  changed : Bool := false

/-- The row of the log that is the newest of a name, replaced. -/
def replaceNewest (log : List StoredRow) (name : String) (row : StoredRow) : List StoredRow :=
  match log.findIdx? fun r => rowName r = some name with
  | none => log
  | some i => log.set i row

/-- One name of the loop. -/
def stampName (byName : Dict String StoredRow) (logNames : List (Option String)) (stamp : String)
    (e : Edited) (name : String) : Except String Edited :=
  match byName.get? name with
  | none => pure e
  | some row =>
    if row.rescoreReason = some RESCORE_REASON ∧ row.qualified = true then pure e
    else do
      let row' ← stampRow row stamp
      pure
        { log := replaceNewest e.log name row'
          prepend := if some name ∈ logNames then e.prepend else e.prepend ++ [row']
          changed := true }

/-- What a run leaves: the log, whether it was written, and the names by status. -/
structure Rescored where
  log : List StoredRow
  wrote : Bool
  rescoredAt : Option String
  groups : RowStatus → List String

/-- `rescore_v5` -/
def rescoreV5 (apply : Bool) (log : List StoredRow) (results : ResultsMap) (stamp : String) :
    Except String Rescored :=
  let byName := latestRows log results
  if apply then do
    let e ← (group byName .relabel).foldlM (stampName byName (log.map (·.strategy)) stamp)
      { log := log }
    pure
      { log := if e.changed then e.prepend ++ e.log else log
        wrote := e.changed
        rescoredAt := if e.changed then some stamp else none
        groups := group byName }
  else pure { log := log, wrote := false, rescoredAt := none, groups := group byName }

/-! ## A row that is relabelled -/

namespace Cell

theorem toFloat_of_finite {c : Option Cell} {q : ℚ} (h : finite c = some q) :
    toFloat c = .ok (.fin q) ∧ optionalFloat c = some (.fin q) := by
  cases c with
  | none => cases h
  | some c =>
    cases c with
    | bool _ | other _ => cases h
    | int n =>
      cases h
      exact ⟨rfl, rfl⟩
    | float x =>
      cases x with
      | nan | inf _ => cases h
      | fin q =>
        cases h
        exact ⟨rfl, rfl⟩

theorem toInt_of_whole {c : Option Cell} {n : ℤ} (h : whole c = some n) :
    toInt c = .ok n ∧ c ≠ none := by
  cases c with
  | none => cases h
  | some c =>
    refine ⟨?_, Option.some_ne_none _⟩
    cases c with
    | bool _ | other _ => cases h
    | int n =>
      cases h
      rfl
    | float x =>
      cases x with
      | nan | inf _ => cases h
      | fin q =>
        simp only [whole] at h
        split at h
        next hden =>
          cases h
          simp only [toInt, hden, Nat.cast_one, Int.tdiv_one]
        next => cases h

end Cell

/-- The figures of a row on which the aggregate gate passes. -/
structure Passing (row : StoredRow) : Prop where
  windows : Cell.whole row.regimesTested = some DISCOVERY_N_WINDOWS
  trades : ∃ n, Cell.whole row.trades = some n ∧ MIN_BACKTEST_TRADES ≤ n
  sharpe : ∃ q, Cell.finite row.sharpe = some q ∧ MIN_BACKTEST_SHARPE ≤ q
  beats : ∃ pnl sma, Cell.finite row.testPnl = some pnl ∧
    Cell.finite row.smaStackOosPnl = some sma ∧ sma < pnl
  block : row.gateV4 ≠ none

theorem passing_of_no_problem {row : StoredRow} (h : storedV4Problem row = none) : Passing row := by
  unfold storedV4Problem at h
  split at h
  next => cases h
  next =>
    split at h
    next symbols block _ hblock =>
      split at h
      next => cases h
      next =>
        split at h
        next =>
          split at h
          next htrades hsharpe hpnl hsma =>
            split at h
            next => cases h
            next hpass =>
              simp only [not_or] at hpass
              obtain ⟨hwindows, hn, hq, hbeat, -⟩ := hpass
              exact ⟨not_not.mp hwindows, ⟨_, htrades, not_lt.mp hn⟩, ⟨_, hsharpe, not_lt.mp hq⟩,
                ⟨_, _, hpnl, hsma, not_le.mp hbeat⟩, hblock ▸ Option.some_ne_none _⟩
          next => cases h
        next => cases h
    next => cases h

theorem not_qualified_of_relabel {row : StoredRow} (h : classifyRow row = .relabel) :
    row.qualified ≠ true := by
  unfold classifyRow at h
  split at h
  next => cases h
  next =>
    split at h
    next => cases h
    next hnot => exact hnot

theorem storedV4Problem_ne (row : StoredRow) : storedV4Problem row ≠ some .relabel := by
  unfold storedV4Problem
  split
  next => exact nofun
  next =>
    split
    next =>
      split
      next => exact nofun
      next =>
        split
        next =>
          split
          next =>
            split
            next => exact nofun
            next => exact nofun
          next => exact nofun
        next => exact nofun
    next => exact nofun

/-- What a row is that only buy-and-hold kept from being qualified. -/
theorem passing_of_relabel {row : StoredRow} (h : classifyRow row = .relabel) : Passing row := by
  unfold classifyRow at h
  split at h
  next => cases h
  next =>
    split at h
    next => cases h
    next =>
      split at h
      next => cases h
      next =>
        split at h
        next => cases h
        next => cases h
        next =>
          split at h
          next =>
            refine passing_of_no_problem ?_
            cases hproblem : storedV4Problem row with
            | none => rfl
            | some status =>
              rw [hproblem] at h
              exact absurd (hproblem.trans (congrArg some h)) (storedV4Problem_ne row)
          next => cases h

/-- A row whose figures pass is decided as one that passes. -/
theorem Passing.decided {row : StoredRow} (h : Passing row) :
    ∃ decision, qualificationFromRecord row DISCOVERY_N_WINDOWS = .ok decision ∧
      decision.passed = true := by
  obtain ⟨n, htrades, hn⟩ := h.trades
  obtain ⟨q, hsharpe, hq⟩ := h.sharpe
  obtain ⟨pnl, sma, hpnl, hsma, hbeat⟩ := h.beats
  obtain ⟨htrades, -⟩ := Cell.toInt_of_whole htrades
  obtain ⟨hwindows, hsome⟩ := Cell.toInt_of_whole h.windows
  obtain ⟨hsharpe, -⟩ := Cell.toFloat_of_finite hsharpe
  obtain ⟨hpnl, -⟩ := Cell.toFloat_of_finite hpnl
  obtain ⟨-, hsma⟩ := Cell.toFloat_of_finite hsma
  have hreasons : aggregateFailReasons (.fin pnl) n (.fin q) (some (.fin sma)) DISCOVERY_N_WINDOWS
      DISCOVERY_N_WINDOWS = [] := by
    unfold aggregateFailReasons
    rw [if_neg (not_not.mpr rfl), if_neg (not_lt.mpr hn)]
    simp [not_lt.mpr hq, not_le.mpr hbeat]
  unfold qualificationFromRecord
  rw [hpnl, htrades, hsharpe, hsma, hwindows]
  simp only [hsome, if_false]
  refine ⟨_, rfl, ?_⟩
  show (aggregateFailReasons (.fin pnl) n (.fin q) (some (.fin sma)) DISCOVERY_N_WINDOWS
      DISCOVERY_N_WINDOWS).isEmpty = true
  rw [hreasons]
  rfl

/-- The fields that are set are none of those that are decided on. -/
theorem Passing.stamped {row : StoredRow} (h : Passing row) (stamp : String) :
    Passing (stampFields row stamp) where
  windows := h.windows
  trades := h.trades
  sharpe := h.sharpe
  beats := h.beats
  block hnone := h.block (Option.map_eq_none_iff.mp hnone)

/-- What `_stamp_row` promises of the row it leaves. -/
structure Stamped (row row' : StoredRow) (stamp : String) : Prop where
  content : ∃ score, row' = { stampFields row stamp with score := score }
  qualified : row'.qualified = true
  decided : ∃ decision, qualificationFromRecord row' DISCOVERY_N_WINDOWS = .ok decision ∧
    decision.passed = true
  attested : row'.v4AttestationOk = true
  rescoredAt : row'.rescoredAt = some stamp
  status : classifyRow row' = .alreadyRescored

theorem stampRow_spec {row : StoredRow} (h : classifyRow row = .relabel) (stamp : String) :
    ∃ row', stampRow row stamp = .ok row' ∧ Stamped row row' stamp := by
  have hpass := passing_of_relabel h
  obtain ⟨decision, hdecided, hpassed⟩ := (hpass.stamped stamp).decided
  obtain ⟨block, hblock⟩ := Option.ne_none_iff_exists'.mp hpass.block
  refine ⟨{ stampFields row stamp with score := rounded 2 decision.score }, ?_, ?_⟩
  · unfold stampRow
    rw [hdecided]
    rfl
  · refine ⟨⟨_, rfl⟩, rfl, ⟨decision, hdecided, hpassed⟩, ?_, rfl, ?_⟩
    · unfold StoredRow.v4AttestationOk stampFields
      simp only [hblock, Option.map_some, stampBlock]
      decide
    · unfold classifyRow
      simp [stampFields]

/-! ## The newest row of a name -/

/-- The newest row of a name: of the log where it has one, and else of the results map. -/
def newestOf (log : List StoredRow) (results : ResultsMap) (name : String) : Option StoredRow :=
  (log.find? fun row => rowName row = some name).or (results.rows.get? name)

theorem get?_addRow {d : Dict String StoredRow} {name : String} {of : Option String}
    {row : StoredRow} :
    (addRow d of row).get? name = (d.get? name).or (if of = some name then some row else none) := by
  unfold addRow
  cases of with
  | none => simp
  | some other =>
    simp only [Option.some_inj]
    by_cases hsome : (d.get? other).isSome
    · rw [if_pos hsome]
      by_cases he : other = name
      · subst he
        obtain ⟨r, hr⟩ := Option.isSome_iff_exists.mp hsome
        rw [hr]
        rfl
      · rw [if_neg he, Option.or_none]
    · rw [if_neg hsome, Dict.get?_set]
      by_cases he : name = other
      · subst he
        rw [if_pos rfl, if_pos rfl, Option.not_isSome_iff_eq_none.mp hsome]
        rfl
      · rw [if_neg he, if_neg fun e => he e.symm, Option.or_none]

/-- Adding rows one by one, the first of a name stays. -/
theorem get?_addRows {α : Type} (nameOf : α → Option String) (rowOf : α → StoredRow) (name : String) :
    ∀ (as : List α) (d : Dict String StoredRow),
      (as.foldl (fun d a => addRow d (nameOf a) (rowOf a)) d).get? name =
        (d.get? name).or ((as.find? fun a => nameOf a = some name).map rowOf) := by
  intro as
  induction as with
  | nil => intro d; simp
  | cons a as ih =>
    intro d
    rw [List.foldl_cons, ih, get?_addRow, List.find?_cons, Option.or_assoc]
    by_cases ha : nameOf a = some name
    · simp [ha]
    · simp [ha]

theorem get?_latestRows (log : List StoredRow) (results : ResultsMap) (name : String) :
    (latestRows log results).get? name = newestOf log results name := by
  unfold latestRows newestOf
  rw [get?_addRows (fun e : String × StoredRow => some e.1) (fun e => e.2),
    get?_addRows rowName (fun row => row), Dict.get?_empty, Option.none_or, Option.map_id']
  congr 1
  unfold Dict.get?
  simp

/-- A name in the table is the name of its row. -/
theorem rowName_newestOf {log : List StoredRow} {results : ResultsMap} {name : String}
    {row : StoredRow} (h : newestOf log results name = some row) : rowName row = some name := by
  unfold newestOf at h
  cases hfind : log.find? fun row => rowName row = some name with
  | some r =>
    rw [hfind] at h
    cases h
    have hname := List.find?_some hfind
    exact of_decide_eq_true hname
  | none =>
    rw [hfind] at h
    exact results.named name row h

/-- The names to relabel, each once. -/
theorem mem_group {log : List StoredRow} {results : ResultsMap} {name : String} {status : RowStatus} :
    name ∈ group (latestRows log results) status ↔
      (newestOf log results name).map classifyRow = some status := by
  unfold group
  rw [List.mem_filter, List.mem_insertionSort, decide_eq_true_eq, get?_latestRows]
  refine and_iff_right_of_imp fun h => Dict.mem_keys.mpr ?_
  obtain ⟨row, hrow, -⟩ := Option.map_eq_some_iff.mp h
  exact ⟨row, (get?_latestRows log results name).trans hrow⟩

theorem nodup_group (byName : Dict String StoredRow) (status : RowStatus) :
    (group byName status).Nodup :=
  ((List.perm_insertionSort _ _).nodup_iff.mpr byName.keys_nodup).filter _

/-- Row `i` is the newest of the name in the log. -/
def firstOf (log : List StoredRow) (name : String) : Option ℕ :=
  log.findIdx? fun row => rowName row = some name

theorem find?_eq_firstOf (log : List StoredRow) (name : String) :
    (log.find? fun row => rowName row = some name) = (firstOf log name).bind (log[·]?) :=
  List.find?_eq_bind_findIdx?_getElem?

/-- Which row is the newest of a name is said by the names alone. -/
theorem firstOf_congr {log log' : List StoredRow} (h : log'.map rowName = log.map rowName)
    (name : String) : firstOf log' name = firstOf log name := by
  have hmap : ∀ l : List StoredRow,
      firstOf l name = (l.map rowName).findIdx? fun of => of = some name := by
    intro l
    rw [List.findIdx?_map]
    rfl
  rw [hmap, hmap, h]

theorem rowName_of_firstOf {log : List StoredRow} {name : String} {i : ℕ} {row : StoredRow}
    (h : firstOf log name = some i) (hrow : log[i]? = some row) : rowName row = some name := by
  obtain ⟨hi, hname, -⟩ := List.findIdx?_eq_some_iff_getElem.mp h
  rw [List.getElem?_eq_getElem hi] at hrow
  cases hrow
  exact of_decide_eq_true hname

theorem exists_of_firstOf {log : List StoredRow} {name : String} {i : ℕ}
    (h : firstOf log name = some i) : ∃ row, log[i]? = some row := by
  obtain ⟨hi, -⟩ := List.findIdx?_eq_some_iff_getElem.mp h
  exact ⟨_, List.getElem?_eq_getElem hi⟩

theorem firstOf_eq_none {log : List StoredRow} {name : String} :
    firstOf log name = none ↔ ∀ row ∈ log, rowName row ≠ some name := by
  unfold firstOf
  rw [List.findIdx?_eq_none_iff]
  exact forall₂_congr fun row _ => decide_eq_false_iff_not

/-! ## One name of the loop -/

theorem rowName_stamped {row row' : StoredRow} {stamp : String} (h : Stamped row row' stamp) :
    rowName row' = rowName row := by
  obtain ⟨score, rfl⟩ := h.content
  rfl

/-- What the loop has done once it has been through `done`: the newest rows of these names
in the log are stamped, those of the results map alone are put aside stamped, and nothing
else changed. -/
structure Relabelled (log : List StoredRow) (results : ResultsMap) (stamp : String)
    (done : List String) (e : Edited) : Prop where
  names : e.log.map rowName = log.map rowName
  marked : ∀ name ∈ done, ∀ i row, firstOf log name = some i → log[i]? = some row →
    ∃ row', e.log[i]? = some row' ∧ Stamped row row' stamp
  kept : ∀ i : ℕ, (∀ name ∈ done, firstOf log name ≠ some i) → e.log[i]? = log[i]?
  front : ∀ row' ∈ e.prepend, ∃ name ∈ done, firstOf log name = none ∧
    ∃ row, results.rows.get? name = some row ∧ Stamped row row' stamp
  fronted : ∀ name ∈ done, firstOf log name = none → ∃ row' ∈ e.prepend, rowName row' = some name
  nodup : (e.prepend.map rowName).Nodup
  changed : e.changed = true ↔ done ≠ []
  unchanged : done = [] → e.log = log ∧ e.prepend = []

theorem relabelled_nil (log : List StoredRow) (results : ResultsMap) (stamp : String) :
    Relabelled log results stamp [] { log := log } where
  names := rfl
  marked _ h := by cases h
  kept _ _ := rfl
  front _ h := by cases h
  fronted _ h := by cases h
  nodup := List.nodup_nil
  changed := iff_of_false Bool.noConfusion (not_not.mpr rfl)
  unchanged _ := ⟨rfl, rfl⟩

/-- The names of the rows of the log, as the loop asks for them. -/
theorem mem_logNames {log : List StoredRow} {name : String} (hname : name ≠ "") :
    some name ∈ log.map (·.strategy) ↔ firstOf log name ≠ none := by
  rw [List.mem_map, ne_eq, firstOf_eq_none, not_forall]
  refine exists_congr fun row => ?_
  rw [Classical.not_imp, not_not]
  refine and_congr_right fun _ => ⟨fun h => ?_, fun h => ?_⟩
  · unfold rowName
    rw [h]
    exact Option.filter_eq_some_iff.mpr ⟨rfl, decide_eq_true hname⟩
  · exact (Option.filter_eq_some_iff.mp h).1

theorem rowName_ne_empty {row : StoredRow} {name : String} (h : rowName row = some name) :
    name ≠ "" :=
  of_decide_eq_true (Option.filter_eq_some_iff.mp h).2

/-- One name of the loop stamps the newest row of the name. -/
theorem Relabelled.step {log : List StoredRow} {results : ResultsMap} {stamp : String}
    {done : List String} {e : Edited} (h : Relabelled log results stamp done e) {name : String}
    (hnew : name ∉ done) {row : StoredRow} (hrow : newestOf log results name = some row)
    (hrelabel : classifyRow row = .relabel) :
    ∃ e', stampName (latestRows log results) (log.map (·.strategy)) stamp e name = .ok e' ∧
      Relabelled log results stamp (done ++ [name]) e' := by
  obtain ⟨row', hstamp, hstamped⟩ := stampRow_spec hrelabel stamp
  have hname := rowName_newestOf hrow
  have hname' : rowName row' = some name := (rowName_stamped hstamped).trans hname
  have hlog : some name ∈ log.map (·.strategy) ↔ firstOf log name ≠ none :=
    mem_logNames (rowName_ne_empty hname)
  have hskip : ¬ (row.rescoreReason = some RESCORE_REASON ∧ row.qualified = true) :=
    fun hq => not_qualified_of_relabel hrelabel hq.2
  have hlen : e.log.length = log.length := by
    have hmap := congrArg List.length h.names
    rwa [List.length_map, List.length_map] at hmap
  have hother : ∀ other ∈ done, ∀ i, firstOf log other = some i → firstOf log name ≠ some i := by
    intro other hdone i hi hi'
    obtain ⟨r, hr⟩ := exists_of_firstOf hi
    have hsame := (rowName_of_firstOf hi hr).symm.trans (rowName_of_firstOf hi' hr)
    exact hnew (Option.some.inj hsame ▸ hdone)
  have hfind : firstOf e.log name = firstOf log name := firstOf_congr h.names name
  refine ⟨{ log := replaceNewest e.log name row'
            prepend := if some name ∈ log.map (·.strategy) then e.prepend else e.prepend ++ [row']
            changed := true }, ?_, ?_⟩
  · unfold stampName
    rw [get?_latestRows, hrow]
    simp only [if_neg hskip, hstamp]
    rfl
  cases hfirst : firstOf log name with
  | some i =>
    have hat : log[i]? = some row := by
      unfold newestOf at hrow
      rw [find?_eq_firstOf, hfirst] at hrow
      obtain ⟨r, hr⟩ := exists_of_firstOf hfirst
      rw [Option.bind_some, hr] at hrow
      rw [hr]
      exact hrow
    have hi : i < e.log.length := by
      rw [hlen]
      exact (List.getElem?_eq_some_iff.mp hat).1
    have hset : replaceNewest e.log name row' = e.log.set i row' := by
      unfold replaceNewest
      rw [show e.log.findIdx? _ = some i from hfind.trans hfirst]
    rw [hset, if_pos (hlog.mpr (by rw [hfirst]; exact Option.some_ne_none i))]
    refine ⟨?_, ?_, ?_, ?_, ?_, h.nodup, iff_of_true rfl ?_, ?_⟩
    · rw [← h.names]
      refine List.ext_getElem? fun j => ?_
      rw [List.getElem?_map, List.getElem?_map, List.getElem?_set]
      by_cases hj : i = j
      · have hsame : (e.log[j]?).map rowName = (log[j]?).map rowName := by
          rw [← List.getElem?_map, ← List.getElem?_map, h.names]
        subst hj
        rw [if_pos rfl, if_pos hi, hsame, hat, Option.map_some, Option.map_some, hname, hname']
      · rw [if_neg hj]
    · intro other hdone j r hj hr
      obtain hdone | hdone := List.mem_append.mp hdone
      · obtain ⟨r', hr', hst⟩ := h.marked other hdone j r hj hr
        refine ⟨r', ?_, hst⟩
        have hne : i ≠ j := fun he => hother other hdone j hj (he ▸ hfirst)
        rw [List.getElem?_set_ne hne]
        exact hr'
      · obtain rfl := List.mem_singleton.mp hdone
        rw [hfirst] at hj
        cases hj
        rw [hat] at hr
        cases hr
        exact ⟨row', List.getElem?_set_self hi, hstamped⟩
    · intro j hj
      have hne : i ≠ j := fun he =>
        hj name (List.mem_append_right _ (List.mem_singleton_self name)) (he ▸ hfirst)
      rw [List.getElem?_set_ne hne]
      exact h.kept j fun other hdone => hj other (List.mem_append_left _ hdone)
    · intro r hr
      obtain ⟨other, hdone, hrest⟩ := h.front r hr
      exact ⟨other, List.mem_append_left _ hdone, hrest⟩
    · intro other hdone hnone
      obtain hdone | hdone := List.mem_append.mp hdone
      · exact h.fronted other hdone hnone
      · obtain rfl := List.mem_singleton.mp hdone
        rw [hfirst] at hnone
        cases hnone
    · exact List.append_ne_nil_of_right_ne_nil _ (List.cons_ne_nil _ _)
    · exact fun hnil => absurd hnil (List.append_ne_nil_of_right_ne_nil _ (List.cons_ne_nil _ _))
  | none =>
    have hresults : results.rows.get? name = some row := by
      unfold newestOf at hrow
      rw [find?_eq_firstOf, hfirst] at hrow
      exact hrow
    have hset : replaceNewest e.log name row' = e.log := by
      unfold replaceNewest
      rw [show e.log.findIdx? _ = none from hfind.trans hfirst]
    rw [hset, if_neg fun hmem => hlog.mp hmem hfirst]
    refine ⟨h.names, ?_, ?_, ?_, ?_, ?_, iff_of_true rfl ?_, ?_⟩
    · intro other hdone j r hj hr
      obtain hdone | hdone := List.mem_append.mp hdone
      · exact h.marked other hdone j r hj hr
      · obtain rfl := List.mem_singleton.mp hdone
        rw [hfirst] at hj
        cases hj
    · exact fun j hj => h.kept j fun other hdone => hj other (List.mem_append_left _ hdone)
    · intro r hr
      obtain hr | hr := List.mem_append.mp hr
      · obtain ⟨other, hdone, hrest⟩ := h.front r hr
        exact ⟨other, List.mem_append_left _ hdone, hrest⟩
      · obtain rfl := List.mem_singleton.mp hr
        exact ⟨name, List.mem_append_right _ (List.mem_singleton_self name), hfirst, row, hresults,
          hstamped⟩
    · intro other hdone hnone
      obtain hdone | hdone := List.mem_append.mp hdone
      · obtain ⟨r, hr, hrname⟩ := h.fronted other hdone hnone
        exact ⟨r, List.mem_append_left _ hr, hrname⟩
      · obtain rfl := List.mem_singleton.mp hdone
        exact ⟨row', List.mem_append_right _ (List.mem_singleton_self row'), hname'⟩
    · rw [List.map_append, List.nodup_append]
      refine ⟨h.nodup, List.nodup_singleton _, fun of hof of' hof' he => ?_⟩
      obtain ⟨r, hr, rfl⟩ := List.mem_map.mp hof
      obtain rfl := List.mem_singleton.mp hof'
      -- a row put aside before has a name of the loop before
      obtain ⟨other, hdone, -, r₀, hr₀, hst⟩ := h.front r hr
      rw [rowName_stamped hst, results.named other r₀ hr₀, hname'] at he
      exact hnew (Option.some.inj he ▸ hdone)
    · exact List.append_ne_nil_of_right_ne_nil _ (List.cons_ne_nil _ _)
    · exact fun hnil => absurd hnil (List.append_ne_nil_of_right_ne_nil _ (List.cons_ne_nil _ _))

/-- The loop over names that are each to be relabelled. -/
theorem Relabelled.run {log : List StoredRow} {results : ResultsMap} {stamp : String} :
    ∀ (names done : List String) (e : Edited), Relabelled log results stamp done e →
      (done ++ names).Nodup →
      (∀ name ∈ names, (newestOf log results name).map classifyRow = some .relabel) →
      ∃ e', names.foldlM (stampName (latestRows log results) (log.map (·.strategy)) stamp) e =
          .ok e' ∧ Relabelled log results stamp (done ++ names) e' := by
  intro names
  induction names with
  | nil =>
    intro done e h _ _
    rw [List.append_nil]
    exact ⟨e, rfl, h⟩
  | cons name names ih =>
    intro done e h hnodup hall
    obtain ⟨row, hrow, hrelabel⟩ := Option.map_eq_some_iff.mp (hall name List.mem_cons_self)
    have hnew : name ∉ done := fun hmem =>
      (List.nodup_append.mp hnodup).2.2 name hmem name List.mem_cons_self rfl
    obtain ⟨e₁, he₁, h₁⟩ := h.step hnew hrow hrelabel
    have happ : done ++ name :: names = done ++ [name] ++ names := List.append_cons ..
    rw [happ] at hnodup ⊢
    obtain ⟨e', he', h'⟩ := ih (done ++ [name]) e₁ h₁ hnodup
      fun other hother => hall other (List.mem_cons_of_mem _ hother)
    refine ⟨e', ?_, h'⟩
    rw [List.foldlM_cons, he₁]
    exact he'

/-! ## The whole run -/

/-- What an applied run leaves. `back` is the log, with the newest rows of the names that
`classifyRow` relabels stamped where they stand, and every other row as it was; `front` are
the rows of the results map alone that it relabels, stamped, one a name. -/
structure Rescores (log : List StoredRow) (results : ResultsMap) (stamp : String) (out : Rescored)
    (front back : List StoredRow) : Prop where
  written : out.log = front ++ back
  names : back.map rowName = log.map rowName
  kept : ∀ i row, log[i]? = some row →
    (∀ name, firstOf log name = some i → classifyRow row ≠ .relabel) → back[i]? = some row
  marked : ∀ name i row, firstOf log name = some i → log[i]? = some row →
    classifyRow row = .relabel → ∃ row', back[i]? = some row' ∧ Stamped row row' stamp
  alone : ∀ row' ∈ front, ∃ name, firstOf log name = none ∧
    ∃ row, results.rows.get? name = some row ∧ classifyRow row = .relabel ∧ Stamped row row' stamp
  fronted : ∀ name row, firstOf log name = none → results.rows.get? name = some row →
    classifyRow row = .relabel → ∃ row' ∈ front, rowName row' = some name
  nodup : (front.map rowName).Nodup
  wrote : out.wrote = true ↔ ∃ name row, newestOf log results name = some row ∧
    classifyRow row = .relabel

theorem newestOf_of_firstOf {log : List StoredRow} {results : ResultsMap} {name : String} {i : ℕ}
    {row : StoredRow} (h : firstOf log name = some i) (hrow : log[i]? = some row) :
    newestOf log results name = some row := by
  unfold newestOf
  rw [find?_eq_firstOf, h, Option.bind_some, hrow]
  rfl

theorem newestOf_of_none {log : List StoredRow} {results : ResultsMap} {name : String}
    (h : firstOf log name = none) : newestOf log results name = results.rows.get? name := by
  unfold newestOf
  rw [find?_eq_firstOf, h]
  rfl

/-- An applied run goes through, and leaves the log as it should. -/
theorem rescores (log : List StoredRow) (results : ResultsMap) (stamp : String) :
    ∃ out front back, rescoreV5 true log results stamp = .ok out ∧
      Rescores log results stamp out front back := by
  have hgroup : ∀ name, name ∈ group (latestRows log results) .relabel ↔
      (newestOf log results name).map classifyRow = some .relabel := fun _ => mem_group
  obtain ⟨e, he, h⟩ := Relabelled.run (group (latestRows log results) .relabel) [] _
    (relabelled_nil log results stamp) (nodup_group _ _) fun name hname => (hgroup name).mp hname
  rw [List.nil_append] at h
  have hrelabelled : ∀ {name row}, newestOf log results name = some row →
      (name ∈ group (latestRows log results) .relabel ↔ classifyRow row = .relabel) := by
    intro name row hrow
    rw [hgroup, hrow, Option.map_some, Option.some_inj]
  have hrun : rescoreV5 true log results stamp = .ok
      { log := if e.changed then e.prepend ++ e.log else log
        wrote := e.changed
        rescoredAt := if e.changed then some stamp else none
        groups := group (latestRows log results) } := by
    unfold rescoreV5
    rw [if_pos rfl]
    simp only [he]
    rfl
  refine ⟨_, e.prepend, e.log, hrun, ?_, h.names, ?_, ?_, ?_, ?_, h.nodup, ?_⟩
  · show (if e.changed = true then e.prepend ++ e.log else log) = e.prepend ++ e.log
    by_cases hc : e.changed = true
    · rw [if_pos hc]
    · obtain ⟨hlog, hprepend⟩ := h.unchanged (not_not.mp fun hne => hc (h.changed.mpr hne))
      rw [if_neg hc, hlog, hprepend, List.nil_append]
  · intro i row hrow hnot
    rw [h.kept i fun name hname hfirst => ?_]
    · exact hrow
    · exact hnot name hfirst ((hrelabelled (newestOf_of_firstOf hfirst hrow)).mp hname)
  · intro name i row hfirst hrow hrelabel
    exact h.marked name ((hrelabelled (newestOf_of_firstOf hfirst hrow)).mpr hrelabel) i row hfirst hrow
  · intro row' hrow'
    obtain ⟨name, hname, hnone, row, hrow, hstamped⟩ := h.front row' hrow'
    exact ⟨name, hnone, row, hrow,
      (hrelabelled ((newestOf_of_none hnone).trans hrow)).mp hname, hstamped⟩
  · intro name row hnone hrow hrelabel
    exact h.fronted name
      ((hrelabelled ((newestOf_of_none hnone).trans hrow)).mpr hrelabel) hnone
  · refine h.changed.trans ⟨fun hne => ?_, fun ⟨name, row, hrow, hrelabel⟩ hnil => ?_⟩
    · obtain ⟨name, hname⟩ := List.exists_mem_of_ne_nil _ hne
      obtain ⟨row, hrow, hrelabel⟩ := Option.map_eq_some_iff.mp ((hgroup name).mp hname)
      exact ⟨name, row, hrow, hrelabel⟩
    · have hmem := (hrelabelled hrow).mpr hrelabel
      rw [hnil] at hmem
      cases hmem

/-- After a run no name is left to relabel, whatever the results map has taken over from the
log. -/
theorem Rescores.settled {log : List StoredRow} {results results' : ResultsMap} {stamp : String}
    {out : Rescored} {front back : List StoredRow} (h : Rescores log results stamp out front back)
    (hsync : ∀ name, (∀ row ∈ out.log, rowName row ≠ some name) →
      results'.rows.get? name = results.rows.get? name) :
    group (latestRows out.log results') .relabel = [] := by
  refine List.eq_nil_iff_forall_not_mem.mpr fun name hname => ?_
  obtain ⟨row, hrow, hrelabel⟩ := Option.map_eq_some_iff.mp (mem_group.mp hname)
  have hdone : ∀ {row' row'' : StoredRow}, Stamped row' row'' stamp → row'' ≠ row := by
    intro row' row'' hst he
    have hstatus := hst.status
    rw [he, hrelabel] at hstatus
    cases hstatus
  cases hfirst : firstOf out.log name with
  | none =>
    rw [newestOf_of_none hfirst, hsync name (firstOf_eq_none.mp hfirst)] at hrow
    rw [h.written] at hfirst
    have hback : firstOf log name = none := by
      rw [← firstOf_congr h.names]
      exact firstOf_eq_none.mpr fun r hr => firstOf_eq_none.mp hfirst r (List.mem_append_right _ hr)
    obtain ⟨row', hmem, hname'⟩ := h.fronted name row hback hrow hrelabel
    exact firstOf_eq_none.mp hfirst row' (List.mem_append_left _ hmem) hname'
  | some i =>
    obtain ⟨r, hr⟩ := exists_of_firstOf hfirst
    rw [newestOf_of_firstOf hfirst hr] at hrow
    obtain rfl := Option.some.inj hrow
    rw [h.written] at hfirst hr
    by_cases hi : i < front.length
    · rw [List.getElem?_append_left hi] at hr
      obtain ⟨other, -, row', -, -, hst⟩ := h.alone r (List.mem_of_getElem? hr)
      exact hdone hst rfl
    · -- the row is the newest of the name in the log as well
      rw [List.getElem?_append_right (Nat.le_of_not_lt hi)] at hr
      have hback : firstOf back name = some (i - front.length) := by
        unfold firstOf at hfirst ⊢
        rw [List.findIdx?_append] at hfirst
        cases hfront : front.findIdx? fun r => rowName r = some name with
        | some j =>
          rw [hfront] at hfirst
          obtain ⟨hj, -⟩ := List.findIdx?_eq_some_iff_getElem.mp hfront
          exact absurd (Option.some.inj hfirst ▸ hj) hi
        | none =>
          rw [hfront, Option.none_or] at hfirst
          obtain ⟨j, hj, rfl⟩ := Option.map_eq_some_iff.mp hfirst
          rw [hj, Nat.add_sub_cancel]
      rw [firstOf_congr h.names] at hback
      obtain ⟨row', hrow'⟩ := exists_of_firstOf hback
      by_cases hr' : classifyRow row' = .relabel
      · obtain ⟨row'', hrow'', hst⟩ := h.marked name _ row' hback hrow' hr'
        rw [hr] at hrow''
        exact hdone hst (Option.some.inj hrow'').symm
      · have hkept := h.kept _ row' hrow' fun _ _ => hr'
        rw [hr] at hkept
        exact hr' (Option.some.inj hkept ▸ hrelabel)

/-- An applied run marks the newest row of each name that `classifyRow` relabels and no
other, each row it marks passes `qualificationFromRecord` and is attested, the other rows
stay as and where they were, and a second run, with the results map brought up to the log or
not, writes nothing. -/
theorem rescored_once (log : List StoredRow) (results : ResultsMap) (stamp : String) :
    ∃ out front back, rescoreV5 true log results stamp = .ok out ∧
      Rescores log results stamp out front back ∧
      ∀ (results' : ResultsMap) (stamp' : String),
        (∀ name, (∀ row ∈ out.log, rowName row ≠ some name) →
          results'.rows.get? name = results.rows.get? name) →
        ∃ again, rescoreV5 true out.log results' stamp' = .ok again ∧
          again.log = out.log ∧ again.wrote = false ∧ again.rescoredAt = none := by
  obtain ⟨out, front, back, hrun, h⟩ := rescores log results stamp
  refine ⟨out, front, back, hrun, h, fun results' stamp' hsync => ?_⟩
  refine ⟨⟨out.log, false, none, group (latestRows out.log results')⟩, ?_, rfl, rfl, rfl⟩
  unfold rescoreV5
  rw [if_pos rfl]
  simp only [h.settled hsync]
  rfl

end PaperTrading.Gate
