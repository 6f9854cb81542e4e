import PaperTrading.Lib.Flt

/-!
# The library gate's verdict

`library_verdict` of `library/evaluate.py`: the measured numbers of one evaluation are
split into vetoes, which fail it, and warnings, which are only shown. Each check keeps
its value and threshold, and what is said about a miss.

`qualified_iff_reasons` and `qualified_iff_passes` say that the two lists a reader sees,
reasons and checks, tell the same, whatever is missing or is no number;
`verdict_congr` that no warning has a part in it.
-/

namespace PaperTrading.Library

open PaperTrading.Lib

def LIBRARY_MIN_OOS_TRADES : ℤ := 8
def LIBRARY_HOLDOUT_MIN_TRADES : ℤ := 2
def MIN_BACKTEST_SHARPE : ℚ := 3 / 10
def DSR_MIN_PROBABILITY : ℚ := 95 / 100
def PBO_MAX : ℚ := 2 / 10
def NEIGHBOR_PASS_MIN_FRACTION : ℚ := 7 / 10

/-- `VETO_CHECKS` -/
def VETO_CHECKS : List String :=
  ["windows", "oos_trades", "oos_pnl", "holdout_pnl", "holdout_trades", "cost_stress"]

/-- `WARNING_CHECKS` -/
def WARNING_CHECKS : List String :=
  ["oos_sharpe", "beat_sma_stack", "holdout_sharpe", "holdout_beat_sma_stack", "dsr", "pbo",
    "neighbours", "buy_and_hold"]

/-- `COUNT_CHECKS` -/
def COUNT_CHECKS : List String := ["oos_trades", "holdout_trades"]

/-- The measured numbers, each as the evaluation has it. -/
structure Measured where
  windowsOk : Bool
  nWindows : ℕ
  expectedWindows : ℕ
  windowSpan : String
  oosPnl : Flt
  oosTrades : ℤ
  oosSharpe : Flt
  smaOosPnl : Option Flt
  bhOosPnl : Option Flt
  holdoutPresent : Bool
  holdoutNote : Option String
  holdoutPnl : Option Flt
  holdoutTrades : Option ℤ
  holdoutSharpe : Option Flt
  smaHoldoutPnl : Option Flt
  bhHoldoutPnl : Option Flt
  stressOosPnl : Option Flt
  stressHoldoutPnl : Option Flt
  dsrValue : Option Flt
  nTrials : ℕ
  pbo : Option Flt
  pboUndefined : Option String
  neighbourPasses : List Bool

/-- What a check stores as its value or threshold. -/
inductive Value where
  | none
  | num (x : Flt)
  | int (z : ℤ)
  | text (s : String)
deriving DecidableEq, Repr

/-- `_r`: what is no finite number is not stored. -/
def stored (d : ℕ) : Option Flt → Value
  | some (.fin q) => .num (.fin (roundTo d q))
  | _ => .none

/-- `_check` -/
structure Check where
  pass : Bool
  value : Value
  threshold : Value
  kind : String
  role : String
  extra : List (String × Value) := []
deriving DecidableEq, Repr

/-- A check and what is said about it. -/
structure Item where
  key : String
  check : Check
  said : Option String

/-- `veto` -/
def veto (key : String) (passed : Bool) (value threshold : Value) (kind : String)
    (reason : Option String) (extra : List (String × Value) := []) : Item :=
  { key := key
    check := { pass := passed, value := value, threshold := threshold, kind := kind
               role := "veto", extra := extra }
    said := reason }

/-- `warn` -/
def warn (key : String) (ok : Bool) (value threshold : Value) (kind : String)
    (text : Option String) (extra : List (String × Value) := []) : Item :=
  { key := key
    check := { pass := ok, value := value, threshold := threshold, kind := kind
               role := "warning", extra := extra }
    said := text }

/-- `None if ok else text` -/
def saidUnless (ok : Bool) (text : String) : Option String := if ok then none else some text

/-- `x is not None and x > 0` -/
def positive (x : Option Flt) : Bool := x.elim false (Flt.lt (.fin 0))

/-- `f"{float(x or 0):.2f}"` -/
def shown (x : Option Flt) : String := (x.getD (.fin 0)).text 2

namespace Measured

variable (m : Measured)

/-- `holdout_note or "holdout tape missing"` -/
def note : String :=
  match m.holdoutNote with
  | none | some "" => "holdout tape missing"
  | some note => note

/-! ## Vetoes -/

def tradesOk : Bool := m.oosTrades ≥ LIBRARY_MIN_OOS_TRADES

def oosProfit : Bool := Flt.lt (.fin 0) m.oosPnl

def holdProfit : Bool := m.holdoutPresent && positive m.holdoutPnl

def holdTradesOk : Bool :=
  m.holdoutPresent && m.holdoutTrades.elim false (· ≥ LIBRARY_HOLDOUT_MIN_TRADES)

def stressOosOk : Bool := positive m.stressOosPnl

def stressHoldOk : Bool := positive m.stressHoldoutPnl

def costOk : Bool := m.stressOosOk && m.stressHoldOk

def costBits : List String :=
  let bit := fun (span : String) (ok : Bool) (pnl : Option Flt) =>
    if ok then [] else
      ["cost stress " ++ span ++ " pnl " ++
        pnl.elim "missing" (fun p => p.text 2 ++ " <= 0") ++ " (2x fee + 5bps)"]
  bit "oos" m.stressOosOk m.stressOosPnl ++ bit "holdout" m.stressHoldOk m.stressHoldoutPnl

/-- The two vetoes of the holdout. When it is missing its note is said once. -/
def holdoutVetoes : List Item :=
  if ¬ m.holdoutPresent then
    [veto "holdout_pnl" false .none .none "profit" (some m.note) [("note", .text m.note)],
      veto "holdout_trades" false .none .none "count" none [("note", .text m.note)]]
  else
    [veto "holdout_pnl" m.holdProfit (stored 2 m.holdoutPnl) (.int 0) "profit"
        (saidUnless m.holdProfit ("holdout_pnl " ++ shown m.holdoutPnl ++ " <= 0")),
      veto "holdout_trades" m.holdTradesOk (m.holdoutTrades.elim .none .int)
        (.int LIBRARY_HOLDOUT_MIN_TRADES) "count"
        (saidUnless m.holdTradesOk ("holdout_trades " ++ m.holdoutTrades.elim "None" toString ++
          " < " ++ toString LIBRARY_HOLDOUT_MIN_TRADES))]

def vetoes : List Item :=
  [veto "windows" m.windowsOk (.int m.nWindows) (.int m.expectedWindows) "structure"
      (saidUnless m.windowsOk ("windows " ++ toString m.nWindows ++
        " do not tile the warmed span (" ++ m.windowSpan ++ ")")),
    veto "oos_trades" m.tradesOk (.int m.oosTrades) (.int LIBRARY_MIN_OOS_TRADES) "count"
      (saidUnless m.tradesOk ("oos_trades " ++ toString m.oosTrades ++ " < " ++
        toString LIBRARY_MIN_OOS_TRADES)),
    veto "oos_pnl" m.oosProfit (stored 2 m.oosPnl) (.int 0) "profit"
      (saidUnless m.oosProfit ("oos_pnl " ++ m.oosPnl.text 2 ++ " <= 0"))] ++
  m.holdoutVetoes ++
  [veto "cost_stress" m.costOk (stored 2 m.stressOosPnl) (.int 0) "robust"
      (saidUnless m.costOk ("; ".intercalate m.costBits))
      [("holdout_pnl", stored 2 m.stressHoldoutPnl)]]

/-! ## Warnings -/

/-- `x >= MIN_BACKTEST_SHARPE` -/
def sharpeOk (x : Flt) : Bool := Flt.le (.fin MIN_BACKTEST_SHARPE) x

def beatSma : Item :=
  match m.smaOosPnl with
  | none =>
    warn "beat_sma_stack" false (stored 2 m.oosPnl) .none "baseline" (some "sma_stack missing")
  | some sma =>
    warn "beat_sma_stack" (Flt.lt sma m.oosPnl) (stored 2 m.oosPnl) (stored 2 sma) "baseline"
      (saidUnless (Flt.lt sma m.oosPnl)
        ("oos_pnl " ++ m.oosPnl.text 2 ++ " <= sma_stack " ++ sma.text 2))

def holdoutWarnings : List Item :=
  if ¬ m.holdoutPresent then
    [warn "holdout_sharpe" true .none (.num MIN_BACKTEST_SHARPE) "holdout" none
        [("note", .text m.note)],
      warn "holdout_beat_sma_stack" true .none .none "holdout" none [("note", .text m.note)]]
  else
    let sharpe := m.holdoutSharpe.elim false sharpeOk
    let beat := fun sma => m.holdoutPnl.elim false (Flt.lt sma)
    [warn "holdout_sharpe" sharpe (stored 4 m.holdoutSharpe) (.num MIN_BACKTEST_SHARPE) "holdout"
        (saidUnless sharpe ("holdout_sharpe " ++ shown m.holdoutSharpe ++ " < 0.3 (daily-equity)")),
      match m.smaHoldoutPnl with
      | none =>
        warn "holdout_beat_sma_stack" false (stored 2 m.holdoutPnl) .none "holdout"
          (some "holdout sma_stack missing")
      | some sma =>
        warn "holdout_beat_sma_stack" (beat sma) (stored 2 m.holdoutPnl) (stored 2 sma) "holdout"
          (saidUnless (beat sma)
            ("holdout_pnl " ++ shown m.holdoutPnl ++ " <= sma_stack " ++ sma.text 2))]

def dsrOk : Bool := m.dsrValue.elim false (Flt.le (.fin DSR_MIN_PROBABILITY))

def dsrWarning : Item :=
  warn "dsr" m.dsrOk (stored 4 m.dsrValue) (.num DSR_MIN_PROBABILITY) "robust"
    (match m.dsrValue with
      | none => some "dsr daily returns missing"
      | some dsr => saidUnless m.dsrOk
        ("dsr " ++ dsr.text 3 ++ " < 0.95 (n_trials=" ++ toString m.nTrials ++ ")"))
    [("n_trials", .int m.nTrials)]

/-- What is said about PBO; it is rejected above its bound, so `nan` is not. -/
def pboSaid : Option String :=
  match m.pboUndefined.filter (· ≠ ""), m.pbo with
  | some text, _ => some text
  | none, none => some "pbo undefined"
  | none, some pbo =>
    if Flt.lt (.fin PBO_MAX) pbo then some ("pbo " ++ pbo.text 3 ++ " > 0.2") else none

def pboOk : Bool := m.pboSaid.isNone

def neighboursPass : ℕ := (m.neighbourPasses.filter id).length

/-- `n_pass / n_nb if n_nb else 0.0` -/
def neighbourFraction : ℚ := m.neighboursPass / m.neighbourPasses.length

def neighboursOk : Bool :=
  m.neighbourPasses ≠ [] ∧ NEIGHBOR_PASS_MIN_FRACTION ≤ m.neighbourFraction + 1 / 10 ^ 12

def neighboursWarning : Item :=
  let counts := toString m.neighboursPass ++ "/" ++ toString m.neighbourPasses.length
  warn "neighbours" m.neighboursOk (.text counts) (.num NEIGHBOR_PASS_MIN_FRACTION) "robust"
    (if m.neighbourPasses = [] then some "no parameter neighbours (lone spike)"
      else saidUnless m.neighboursOk
        ("neighbours " ++ counts ++ " = " ++ percent 0 m.neighbourFraction ++ " < 70%"))
    [("n_pass", .int m.neighboursPass), ("total", .int m.neighbourPasses.length)]

def buyAndHoldBits : List String :=
  (match m.bhOosPnl with
    | none => ["buy-and-hold oos missing"]
    | some bh =>
      if Flt.le m.oosPnl bh then
        ["oos_pnl " ++ m.oosPnl.text 2 ++ " <= buy-and-hold " ++ bh.text 2]
      else []) ++
  if ¬ m.holdoutPresent then []
  else
    match m.bhHoldoutPnl, m.holdoutPnl with
    | none, _ => ["buy-and-hold holdout missing"]
    | some _, none => []
    | some bh, some pnl =>
      if Flt.le pnl bh then
        ["holdout_pnl " ++ pnl.text 2 ++ " <= buy-and-hold " ++ bh.text 2]
      else []

def warningItems : List Item :=
  [warn "oos_sharpe" (sharpeOk m.oosSharpe) (stored 4 m.oosSharpe) (.num MIN_BACKTEST_SHARPE)
      "stat" (saidUnless (sharpeOk m.oosSharpe)
        ("oos_sharpe " ++ m.oosSharpe.text 2 ++ " < 0.3 (daily-equity)")),
    m.beatSma] ++
  m.holdoutWarnings ++
  [m.dsrWarning,
    warn "pbo" m.pboOk (stored 4 m.pbo) (.num PBO_MAX) "robust" m.pboSaid,
    m.neighboursWarning,
    warn "buy_and_hold" m.buyAndHoldBits.isEmpty (stored 2 m.oosPnl) (stored 2 m.bhOosPnl)
      "baseline"
      (saidUnless m.buyAndHoldBits.isEmpty ("; ".intercalate m.buyAndHoldBits))
      [("role_note", .text "informational")]]

end Measured

/-! ## The verdict -/

structure Verdict where
  checks : List (String × Check)
  failReasons : List String
  warnings : List String
  failingChecks : List String
  warningChecks : List String
  qualified : Bool
  countOnly : Bool
  oosPnlPass : Bool
  tradesPass : Bool
  holdoutPass : Bool
  costPass : Bool
  perturbPass : Bool
  dsrPass : Bool
  pboPass : Bool
  neighboursPass : ℕ
  neighbours : ℕ
deriving DecidableEq

/-- `checks[key]["pass"]` -/
def passes (checks : List (String × Check)) (key : String) : Bool :=
  (checks.lookup key).elim false Check.pass

/-- `count_only_failure` -/
def countOnlyFailure (checks : List (String × Check)) : Bool :=
  let failing := VETO_CHECKS.filter fun key => ¬ passes checks key
  failing ≠ [] ∧ ∀ key ∈ failing, key ∈ COUNT_CHECKS

/-- `library_verdict` -/
def libraryVerdict (m : Measured) : Verdict :=
  let items := m.vetoes ++ m.warningItems
  let checks := items.map fun i => (i.key, i.check)
  let failing := VETO_CHECKS.filter fun key => ¬ passes checks key
  { checks := checks
    failReasons := m.vetoes.filterMap Item.said
    warnings := m.warningItems.filterMap Item.said
    failingChecks := failing
    warningChecks := WARNING_CHECKS.filter fun key => ¬ passes checks key
    qualified := failing.isEmpty
    countOnly := countOnlyFailure checks
    oosPnlPass := m.oosProfit
    tradesPass := m.tradesOk && m.holdTradesOk
    holdoutPass := m.holdoutPresent && m.holdProfit && m.holdTradesOk
    costPass := m.costOk
    perturbPass := m.neighboursOk
    dsrPass := m.dsrOk
    pboPass := m.pboOk
    neighboursPass := m.neighboursPass
    neighbours := m.neighbourPasses.length }

/-! ## What it comes to -/

namespace Measured

variable (m : Measured)

/-- Every veto passes. -/
structure Cleared : Prop where
  windows : m.windowsOk = true
  oosTrades : m.tradesOk = true
  oosPnl : m.oosProfit = true
  holdoutPnl : m.holdProfit = true
  holdoutTrades : m.holdTradesOk = true
  cost : m.costOk = true

/-- The vetoes and warnings are the checks of the two lists, in their order. -/
theorem keys_vetoes : m.vetoes.map Item.key = VETO_CHECKS := by
  unfold vetoes holdoutVetoes
  split <;> rfl

theorem key_beatSma : m.beatSma.key = "beat_sma_stack" := by
  unfold beatSma
  cases m.smaOosPnl <;> rfl

theorem keys_holdoutWarnings :
    m.holdoutWarnings.map Item.key = ["holdout_sharpe", "holdout_beat_sma_stack"] := by
  unfold holdoutWarnings
  split
  next => rfl
  next => cases m.smaHoldoutPnl <;> rfl

theorem keys_warnings : m.warningItems.map Item.key = WARNING_CHECKS := by
  unfold warningItems
  rw [List.map_append, List.map_append, keys_holdoutWarnings, List.map_cons, List.map_cons,
    key_beatSma]
  rfl

end Measured

theorem lookup_item {items : List Item} (hnodup : (items.map Item.key).Nodup) {i : Item}
    (hi : i ∈ items) : (items.map fun i => (i.key, i.check)).lookup i.key = some i.check := by
  induction items with
  | nil => cases hi
  | cons j items ih =>
    obtain ⟨hnot, hnodup⟩ := List.nodup_cons.mp hnodup
    rw [List.map_cons, List.lookup_cons]
    rcases List.mem_cons.mp hi with rfl | hi
    · rw [beq_self_eq_true]
    · have hne : (i.key == j.key) = false := by
        rw [beq_eq_false_iff_ne]
        rintro heq
        exact hnot (heq ▸ List.mem_map_of_mem hi)
      rw [hne]
      exact ih hnodup hi

section
variable (m : Measured)

theorem passes_item {i : Item} (hi : i ∈ m.vetoes ++ m.warningItems) :
    passes (libraryVerdict m).checks i.key = i.check.pass := by
  have hkeys : (m.vetoes ++ m.warningItems).map Item.key = VETO_CHECKS ++ WARNING_CHECKS := by
    rw [List.map_append, m.keys_vetoes, m.keys_warnings]
  have hlookup := lookup_item (by rw [hkeys]; decide) hi
  show ((List.map _ _).lookup i.key).elim false Check.pass = _
  rw [hlookup]
  rfl

/-- The verdict is that every veto's check passes. -/
theorem qualified_iff_passes :
    (libraryVerdict m).qualified = true ↔
      ∀ key ∈ VETO_CHECKS, passes (libraryVerdict m).checks key = true := by
  show (VETO_CHECKS.filter fun key => ¬ passes (libraryVerdict m).checks key).isEmpty = true ↔ _
  rw [List.isEmpty_iff, List.filter_eq_nil_iff]
  simp

theorem qualified_iff_vetoes :
    (libraryVerdict m).qualified = true ↔ ∀ i ∈ m.vetoes, i.check.pass = true := by
  rw [qualified_iff_passes, ← m.keys_vetoes]
  constructor
  · intro h i hi
    rw [← passes_item m (List.mem_append_left _ hi)]
    exact h _ (List.mem_map_of_mem hi)
  · intro h key hkey
    obtain ⟨i, hi, rfl⟩ := List.mem_map.mp hkey
    rw [passes_item m (List.mem_append_left _ hi)]
    exact h i hi

theorem said_eq_none (ok : Bool) (text : String) : saidUnless ok text = none ↔ ok = true := by
  unfold saidUnless
  cases ok <;> simp

theorem qualified_iff_cleared : (libraryVerdict m).qualified = true ↔ m.Cleared := by
  rw [qualified_iff_vetoes]
  unfold Measured.vetoes Measured.holdoutVetoes
  cases hpresent : m.holdoutPresent with
  | false =>
    simp only [Bool.false_eq_true, not_false_eq_true, if_true, List.forall_mem_append,
      List.forall_mem_cons, veto]
    refine iff_of_false (fun h => ?_) fun h => ?_
    · exact h.1.2.1
    · have hprofit := h.holdoutPnl
      unfold Measured.holdProfit at hprofit
      rw [hpresent] at hprofit
      cases hprofit
  | true =>
    simp only [not_true_eq_false, if_false, List.forall_mem_append, List.forall_mem_cons, veto]
    constructor
    · rintro ⟨⟨⟨hw, ht, hp, -⟩, hhp, hht, -⟩, hc, -⟩
      exact ⟨hw, ht, hp, hhp, hht, hc⟩
    · rintro ⟨hw, ht, hp, hhp, hht, hc⟩
      exact ⟨⟨⟨hw, ht, hp, fun _ hno => by cases hno⟩, hhp, hht, fun _ hno => by cases hno⟩, hc,
        fun _ hno => by cases hno⟩

/-- The verdict is that there is no reason against it. -/
theorem qualified_iff_reasons :
    (libraryVerdict m).qualified = true ↔ (libraryVerdict m).failReasons = [] := by
  rw [qualified_iff_cleared]
  show _ ↔ m.vetoes.filterMap Item.said = []
  rw [List.filterMap_eq_nil_iff]
  unfold Measured.vetoes Measured.holdoutVetoes
  cases hpresent : m.holdoutPresent with
  | false =>
    simp only [Bool.false_eq_true, not_false_eq_true, if_true, List.forall_mem_append,
      List.forall_mem_cons, veto]
    refine iff_of_false (fun h => ?_) fun h => ?_
    · have hprofit := h.holdoutPnl
      unfold Measured.holdProfit at hprofit
      rw [hpresent] at hprofit
      cases hprofit
    · cases h.1.2.1
  | true =>
    simp only [not_true_eq_false, if_false, List.forall_mem_append, List.forall_mem_cons, veto,
      said_eq_none]
    constructor
    · rintro ⟨hw, ht, hp, hhp, hht, hc⟩
      exact ⟨⟨⟨hw, ht, hp, fun _ hno => by cases hno⟩, hhp, hht, fun _ hno => by cases hno⟩, hc,
        fun _ hno => by cases hno⟩
    · rintro ⟨⟨⟨hw, ht, hp, -⟩, hhp, hht, -⟩, hc, -⟩
      exact ⟨hw, ht, hp, hhp, hht, hc⟩

end

/-- The measurements that vetoes look at. -/
def Measured.SameVetoes (m m' : Measured) : Prop :=
  { m with
    oosSharpe := m'.oosSharpe, smaOosPnl := m'.smaOosPnl, bhOosPnl := m'.bhOosPnl
    holdoutSharpe := m'.holdoutSharpe, smaHoldoutPnl := m'.smaHoldoutPnl
    bhHoldoutPnl := m'.bhHoldoutPnl, dsrValue := m'.dsrValue, nTrials := m'.nTrials
    pbo := m'.pbo, pboUndefined := m'.pboUndefined, neighbourPasses := m'.neighbourPasses } = m'

/-- Evaluations that differ only in what the warnings look at have the same verdict, for
the same reasons. -/
theorem verdict_congr {m m' : Measured} (h : m.SameVetoes m') :
    (libraryVerdict m).qualified = (libraryVerdict m').qualified ∧
      (libraryVerdict m).failReasons = (libraryVerdict m').failReasons := by
  unfold Measured.SameVetoes at h
  have hreasons : (libraryVerdict m).failReasons = (libraryVerdict m').failReasons := by
    rw [← h]
    rfl
  refine ⟨?_, hreasons⟩
  rw [Bool.eq_iff_iff, qualified_iff_reasons, qualified_iff_reasons, hreasons]

end PaperTrading.Library
