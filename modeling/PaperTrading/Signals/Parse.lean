import PaperTrading.Lib.Pattern
import PaperTrading.Lib.ShortCircuit
import PaperTrading.Lib.Text
import PaperTrading.Signals.Ema
import PaperTrading.Signals.Strategy
import PaperTrading.Signals.Swings
import PaperTrading.Signals.Wavetrend

/-!
# `parse_strategy`

Strategy texts: `&` and `|` split a text wherever they stand, whatever the
parentheses say, and each part is stripped of parentheses and blanks; what has no
separator is a name, matched against the patterns in the source's order, and a
name no pattern knows is never true.

`parseStrategy_clauses` is the shape of every strategy: since `&` is split first
and a part keeps no separator it was split at, a strategy is an `all` of `any`s
of names.
-/

/-!
## Conditions and predicates

Every atom `parse_strategy` knows, with its numbers: the atoms of bounded
lookback and those that look back without bound. A predicate is what the parser
returns, a function of the series and the bar; `all` and `any` of predicates stop
at the first part that decides.

`Condition.eval_causal`: no condition looks past the bar it is asked about.
-/

namespace PaperTrading.Signals

open Lib

/-- `Predicate`, with the series as one argument. -/
abbrev Predicate := Ohlc → ℕ → Except String Bool

inductive Condition where
  | atom (a : Atom)
  | emaStack (periods : List ℕ)
  | emaAbove (period : ℕ)
  | rsiMomentum
  | nearSwingHi (k : ℕ)
  | nearSwingLo (k : ℕ)
  | dblBot (k : ℕ)
  | dblTop (k : ℕ)
  | wtCrossUpOs
  | wtBelowOs
  | wtCrossDownOb
  | htfEma (tf : Timeframe) (period : ℕ)
  | never
deriving DecidableEq, Repr

/-- The predicate of a condition. `sqrt` is `math.sqrt`. -/
def Condition.eval (sqrt : ℚ → ℚ) : Condition → Predicate
  | .atom a, s, i => a.eval sqrt s i
  | .emaStack periods, s, i => evalEmaStack s.closes periods i
  | .emaAbove period, s, i => evalEmaAbove s.closes period i
  | .rsiMomentum, s, i =>
    andThen (evalEmaAbove s.closes 20 i) (evalRsiRange s.closes 14 50 100 i)
  | .nearSwingHi k, s, i => Signals.nearSwingHi s k i
  | .nearSwingLo k, s, i => Signals.nearSwingLo s k i
  | .dblBot k, s, i => Signals.dblBot s k i
  | .dblTop k, s, i => Signals.dblTop s k i
  | .wtCrossUpOs, s, i => Signals.wtCrossUpOs s i
  | .wtBelowOs, s, i => Signals.wtBelowOs s i
  | .wtCrossDownOb, s, i => Signals.wtCrossDownOb s i
  | .htfEma tf period, s, i => htfCloseAbove ema s.closes i tf.bars period
  | .never, _, _ => .ok false

/-- `_all_preds`. -/
def allPreds (preds : List Predicate) : Predicate := fun s i => allOf (preds.map fun p => p s i)

/-- `_any_preds`. -/
def anyPreds (preds : List Predicate) : Predicate := fun s i => anyOf (preds.map fun p => p s i)

theorem allPreds_singleton (p : Predicate) : allPreds [p] = p := by
  funext s i
  exact stopAt_singleton false (p s i)

theorem anyPreds_singleton (p : Predicate) : anyPreds [p] = p := by
  funext s i
  exact stopAt_singleton true (p s i)

/-! ### No look-ahead -/

theorem Atom.eval_take (sqrt : ℚ → ℚ) (s : Ohlc) {m i : ℕ} (hi : i < m) (a : Atom) :
    a.eval sqrt (s.take m) i = a.eval sqrt s i := by
  cases a with
  | smaStack periods => exact evalSmaStack_take s.closes hi periods
  | smaAbove period => exact evalSmaAbove_take s.closes hi period
  | rsiRange period minVal maxVal => exact evalRsiRange_take s.closes hi period minVal maxVal
  | robustOpen =>
    exact congrArg₂ andThen (evalSmaStack_take s.closes hi _) (evalRsiRange_take s.closes hi _ _ _)
  | momGt lookback thr => exact evalMomGt_take s.closes hi lookback thr
  | momLt lookback thr => exact evalMomLt_take s.closes hi lookback thr
  | volLow shortLb longLb => exact evalVolLow_take s.closes hi shortLb longLb
  | bbLower period stdDev => exact evalBbLower_take s.closes hi sqrt period stdDev
  | bbUpper period stdDev => exact evalBbUpper_take s.closes hi sqrt period stdDev
  | donHi n => exact donHi_take s hi n
  | donLo n => exact donLo_take s hi n
  | htfSma tf period => exact htfCloseAbove_take s.closes hi sma_take tf.bars period
  | smaRsi period minVal =>
    exact congrArg₂ andThen (evalSmaAbove_take s.closes hi _) (evalRsiRange_take s.closes hi _ _ _)
  | smaMom period lookback thr =>
    exact congrArg₂ andThen (evalSmaAbove_take s.closes hi _) (evalMomGt_take s.closes hi _ _)

theorem Condition.eval_causal (sqrt : ℚ → ℚ) (c : Condition) :
    CausalAt Ohlc.take (c.eval sqrt) := by
  intro s m i hi
  cases c with
  | atom a => exact a.eval_take sqrt s hi
  | emaStack periods => exact evalEmaStack_take s.closes hi periods
  | emaAbove period => exact evalEmaAbove_take s.closes hi period
  | rsiMomentum =>
    exact congrArg₂ andThen (evalEmaAbove_take s.closes hi _) (evalRsiRange_take s.closes hi _ _ _)
  | nearSwingHi k => exact nearSwing_take s hi k true
  | nearSwingLo k => exact nearSwing_take s hi k false
  | dblBot k => exact doubled_take s hi k false
  | dblTop k => exact doubled_take s hi k true
  | wtCrossUpOs => exact wtCrossUpOs_take s hi
  | wtBelowOs => exact wtBelowOs_take s hi
  | wtCrossDownOb => exact wtCrossDownOb_take s hi
  | htfEma tf period => exact htfCloseAbove_take s.closes hi ema_take tf.bars period
  | never => rfl

theorem allPreds_causal {preds : List Predicate} (h : ∀ p ∈ preds, CausalAt Ohlc.take p) :
    CausalAt Ohlc.take (allPreds preds) := by
  intro s m i hi
  unfold allPreds
  rw [List.map_congr_left fun p hp => h p hp s m i hi]

theorem anyPreds_causal {preds : List Predicate} (h : ∀ p ∈ preds, CausalAt Ohlc.take p) :
    CausalAt Ohlc.take (anyPreds preds) := by
  intro s m i hi
  unfold anyPreds
  rw [List.map_congr_left fun p hp => h p hp s m i hi]

end PaperTrading.Signals

namespace PaperTrading.Signals

open Lib

/-! ## Names -/

def digits : Pattern Text := .many1 isDigit

/-- `^sma_stack(?:_([\d_]+))?$`. -/
def stackName (kind : String) : Pattern (Option Text) := do
  .lit (kind ++ "_stack")
  .opt do
    .lit "_"
    .many1 fun c => isDigit c || c = '_'

/-- `^sma(?:_abv|_above)?_?(\d+)(?:_abv|_above)?$`. -/
def aboveName (kind : String) : Pattern Text := do
  .lit kind
  let _ ← .opt (.oneOf ["_abv", "_above"])
  let _ ← .opt (.lit "_")
  let period ← digits
  let _ ← .opt (.oneOf ["_abv", "_above"])
  pure period

/-- `^rsi_(\d+)_>_?(\d+)(?:_<_?(\d+))?$`. -/
def rsiFullName : Pattern (Text × Text × Option Text) := do
  .lit "rsi_"
  let p ← digits
  .lit "_>"
  let _ ← .opt (.lit "_")
  let th ← digits
  let ov ← .opt do
    .lit "_<"
    let _ ← .opt (.lit "_")
    digits
  pure (p, th, ov)

/-- `^rsi_(\d+)_<_?(\d+)$`. -/
def rsiLtName : Pattern (Text × Text) := do
  .lit "rsi_"
  let p ← digits
  .lit "_<"
  let _ ← .opt (.lit "_")
  let th ← digits
  pure (p, th)

/-- `^rsi_(\d+)_(\d+)$` and `^vol_lowsm_(\d+)_(\d+)$`. -/
def pairName (front : String) : Pattern (Text × Text) := do
  .lit front
  let a ← digits
  .lit "_"
  let b ← digits
  pure (a, b)

/-- `^mom_(\d+)b?_gt_?(\d+)(?:pc)?$` and `^dip_(\d+)b?_lt_?(\d+)(?:pc)?$`. -/
def moveName (front word : String) : Pattern (Text × Text) := do
  .lit front
  let lb ← digits
  let _ ← .opt (.lit "b")
  .lit word
  let _ ← .opt (.lit "_")
  let val ← digits
  let _ ← .opt (.lit "pc")
  pure (lb, val)

/-- `^mfi_(\d+)_(>|<)_?(\d+)$`. -/
def mfiName : Pattern Text := do
  .lit "mfi_"
  let _ ← digits
  .lit "_"
  let _ ← .oneOf [">", "<"]
  let _ ← .opt (.lit "_")
  digits

/-- `^bb_(lower|upper)_(\d+)_?(\d*)$`. -/
def bbName : Pattern (String × Text × Text) := do
  .lit "bb_"
  let side ← .oneOf ["lower", "upper"]
  .lit "_"
  let p ← digits
  let _ ← .opt (.lit "_")
  let sd ← .many isDigit
  pure (side, p, sd)

/-- `^(daily|h1|m5|1d|4h|15m)\((.*)\)$`. -/
def mtfName : Pattern String := do
  let tf ← .oneOf ["daily", "h1", "m5", "1d", "4h", "15m"]
  .lit "("
  let _ ← .many (· ≠ '\n')
  .lit ")"
  pure tf

/-- `^don_(hi|lo)_(\d+)$`, `^near_swing_(hi|lo)_(\d+)$` and `^dbl_(bot|top)_(\d+)$`. -/
def sideName (front : String) (sides : List String) : Pattern (String × Text) := do
  .lit front
  let side ← .oneOf sides
  .lit "_"
  let k ← digits
  pure (side, k)

/-- `^(h4|h1)_(ema|sma)_abv_(\d+)$`. -/
def htfName : Pattern (String × String × Text) := do
  let tf ← .oneOf ["h4", "h1"]
  .lit "_"
  let kind ← .oneOf ["ema", "sma"]
  .lit "_abv_"
  let period ← digits
  pure (tf, kind, period)

/-- `^sma(\d+)_rsi(\d+)$`. -/
def smaRsiName : Pattern (Text × Text) := do
  .lit "sma"
  let sp ← digits
  .lit "_rsi"
  let rp ← digits
  pure (sp, rp)

/-- `^sma(\d+)_mom(\d+)_(\d+)$`. -/
def smaMomName : Pattern (Text × Text × Text) := do
  .lit "sma"
  let sp ← digits
  .lit "_mom"
  let lb ← digits
  .lit "_"
  let thr ← digits
  pure (sp, lb, thr)

/-! ## Numbers -/

/-- `tuple(int(p) for p in periods_str.split("_"))`, or the default. -/
def periodsOf : Option Text → Except String (List ℕ)
  | none => .ok [7, 25, 50]
  | some ds => (ds.splitOn '_').mapM intOf

/-- `int(m.group(3)) if m.group(3) else 100`. -/
def overOf : Option Text → Except String ℕ
  | none => .ok 100
  | some ds => intOf ds

/-- `val / 100.0 if val >= 1 else val`. -/
def momThr (val : ℕ) : ℚ := if 1 ≤ val then val / 100 else val

/-- `-(val / 100.0) if val >= 1 else -abs(val)`. -/
def dipThr (val : ℕ) : ℚ := if 1 ≤ val then -(val / 100) else -|(val : ℚ)|

/-- `float(ds or 2.0)`. -/
def stdDevOf (ds : Text) : ℚ :=
  if ds = [] then 2 else (ds.foldl (fun n c => 10 * n + digitValue c) 0 : ℕ)

def timeframeOf (tf : String) : Timeframe := if tf = "h4" then .h4 else .h1

/-! ## Rules -/

abbrev NameRule := Text → Option (Except String Condition)

def smaStackRule : NameRule :=
  rule (stackName "sma") fun ps => do pure (.atom (.smaStack (← periodsOf ps)))

def emaStackRule : NameRule :=
  rule (stackName "ema") fun ps => do pure (.emaStack (← periodsOf ps))

def smaAboveRule : NameRule :=
  rule (aboveName "sma") fun p => do pure (.atom (.smaAbove (← intOf p)))

def emaAboveRule : NameRule :=
  rule (aboveName "ema") fun p => do pure (.emaAbove (← intOf p))

def rsiFullRule : NameRule :=
  rule rsiFullName fun m => do
    let p ← intOf m.1
    let th ← intOf m.2.1
    let ov ← overOf m.2.2
    pure (.atom (.rsiRange p th ov))

def rsiLtRule : NameRule :=
  rule rsiLtName fun m => do
    let p ← intOf m.1
    let th ← intOf m.2
    pure (.atom (.rsiRange p (-1) th))

def rsiShortRule : NameRule :=
  rule (pairName "rsi_") fun m => do
    let p ← intOf m.1
    let th ← intOf m.2
    pure (.atom (.rsiRange p th 100))

def rsiMomentumRule : NameRule := rule (.lit "rsi_momentum") fun _ => .ok .rsiMomentum

def robustOpenRule : NameRule := rule (.lit "robust_open") fun _ => .ok (.atom .robustOpen)

def momRule : NameRule :=
  rule (moveName "mom_" "_gt") fun m => do
    let lb ← intOf m.1
    let val ← intOf m.2
    pure (.atom (.momGt lb (momThr val)))

def dipRule : NameRule :=
  rule (moveName "dip_" "_lt") fun m => do
    let lb ← intOf m.1
    let val ← intOf m.2
    pure (.atom (.momLt lb (dipThr val)))

def volRule : NameRule :=
  rule (pairName "vol_lowsm_") fun m => do
    let s ← intOf m.1
    let l ← intOf m.2
    pure (.atom (.volLow s l))

def mfiRule : NameRule :=
  rule mfiName fun _ => .error "MFI requires OHLCV volume; refusing a [1.0]*len(closes) proxy"

def bbRule : NameRule :=
  rule bbName fun m => do
    let p ← intOf m.2.1
    let sd := stdDevOf m.2.2
    pure (.atom (if m.1 = "lower" then .bbLower p sd else .bbUpper p sd))

def mtfRule : NameRule :=
  rule mtfName fun tf => .error ("multi-timeframe prefix " ++ tf ++
    "(...) is not supported: live cycle and parse_strategy evaluate a single series; " ++
    "refusing silent same-series wrap")

def donRule : NameRule :=
  rule (sideName "don_" ["hi", "lo"]) fun m => do
    let n ← intOf m.2
    pure (.atom (if m.1 = "hi" then .donHi n else .donLo n))

def nearSwingRule : NameRule :=
  rule (sideName "near_swing_" ["hi", "lo"]) fun m => do
    let k ← intOf m.2
    pure (if m.1 = "hi" then .nearSwingHi k else .nearSwingLo k)

def dblRule : NameRule :=
  rule (sideName "dbl_" ["bot", "top"]) fun m => do
    let k ← intOf m.2
    pure (if m.1 = "bot" then .dblBot k else .dblTop k)

def wtCrossUpOsRule : NameRule := rule (.lit "wt_cross_up_os") fun _ => .ok .wtCrossUpOs

def wtBelowOsRule : NameRule := rule (.lit "wt_below_os") fun _ => .ok .wtBelowOs

def wtCrossDownObRule : NameRule := rule (.lit "wt_cross_down_ob") fun _ => .ok .wtCrossDownOb

def htfRule : NameRule :=
  rule htfName fun m => do
    let period ← intOf m.2.2
    let tf := timeframeOf m.1
    pure (if m.2.1 = "sma" then .atom (.htfSma tf period) else .htfEma tf period)

def smaRsiRule : NameRule :=
  rule smaRsiName fun m => do
    let sp ← intOf m.1
    let rp ← intOf m.2
    pure (.atom (.smaRsi sp rp))

def smaMomRule : NameRule :=
  rule smaMomName fun m => do
    let sp ← intOf m.1
    let lb ← intOf m.2.1
    let thr ← intOf m.2.2
    pure (.atom (.smaMom sp lb (thr / 100)))

/-- The patterns of `_parse_strategy_impl`, in its order. -/
def NAME_RULES : List NameRule :=
  [smaStackRule, emaStackRule, smaAboveRule, emaAboveRule, rsiFullRule, rsiLtRule, rsiShortRule,
    rsiMomentumRule, robustOpenRule, momRule, dipRule, volRule, mfiRule, bbRule, mtfRule, donRule,
    nearSwingRule, dblRule, wtCrossUpOsRule, wtBelowOsRule, wtCrossDownObRule, htfRule, smaRsiRule,
    smaMomRule]

/-- A text without separators; the fallback is never true. -/
def parseName (t : Text) : Except String Condition := firstRule NAME_RULES (.ok .never) t

/-! ## Separators -/

/-- `how` the parts are joined, by `&` or by `|`. -/
inductive How where
  | all
  | any
deriving DecidableEq, Repr

/-- `[part.strip("() ") for part in expr.split(sep)]`. -/
def splitParts (sep : Char) (t : Text) : List Text :=
  (t.splitOn sep).map (stripOf fun c => c = '(' || c = ')' || c = ' ')

/-- In one pair of parentheses, with no separator between them. -/
def parenthesised (sep : Char) (t : Text) : Bool :=
  t.head? = some '(' ∧ t.getLast? = some ')' ∧ sep ∉ (t.drop 1).dropLast

/-- `_split_top`, the two tests `_parse_strategy_impl` makes as well. -/
def splitTop (t : Text) : Option (How × List Text) :=
  if '&' ∈ t ∧ ¬ parenthesised '&' t then some (.all, splitParts '&' t)
  else if '|' ∈ t ∧ ¬ parenthesised '|' t then some (.any, splitParts '|' t)
  else none

def How.preds : How → List Predicate → Predicate
  | .all => allPreds
  | .any => anyPreds

/-- The parentheses of the test go around the whole text, so a separator in the
text is between them: the test never keeps a text together. -/
theorem splitTop_eq (t : Text) : splitTop t =
    if '&' ∈ t then some (.all, splitParts '&' t)
    else if '|' ∈ t then some (.any, splitParts '|' t) else none := by
  have hopen : ∀ sep, sep ≠ '(' → sep ≠ ')' → sep ∈ t → ¬ parenthesised sep t = true := by
    intro sep h1 h2 hmem h
    unfold parenthesised at h
    rw [decide_eq_true_eq] at h
    obtain ⟨hhead, hlast, hin⟩ := h
    cases t with
    | nil => cases hmem
    | cons c t =>
      rw [List.head?_cons, Option.some_inj] at hhead
      rcases List.mem_cons.mp hmem with rfl | hmem
      · exact h1 hhead
      · have hne : t ≠ [] := List.ne_nil_of_mem hmem
        rw [List.getLast?_cons_of_ne_nil hne, List.getLast?_eq_some_getLast hne,
          Option.some_inj] at hlast
        rw [← List.dropLast_append_getLast hne, List.mem_append, List.mem_singleton] at hmem
        rcases hmem with hmem | rfl
        · exact hin (by simpa using hmem)
        · exact h2 hlast
  unfold splitTop
  by_cases hamp : '&' ∈ t
  · rw [if_pos hamp, if_pos ⟨hamp, hopen '&' (by decide) (by decide) hamp⟩]
  · rw [if_neg hamp, if_neg fun h => hamp h.1]
    by_cases hbar : '|' ∈ t
    · rw [if_pos hbar, if_pos ⟨hbar, hopen '|' (by decide) (by decide) hbar⟩]
    · rw [if_neg hbar, if_neg fun h => hbar h.1]

theorem mem_splitParts {sep : Char} {t part : Text} (h : part ∈ splitParts sep t) {c : Char}
    (hc : c ∈ part) : c ∈ t ∧ c ≠ sep := by
  obtain ⟨whole, hwhole, rfl⟩ := List.mem_map.mp h
  exact mem_splitOn hwhole (stripOf_subset _ _ hc)

/-- Separators in a text, each counted once. -/
def separators (t : Text) : ℕ := (if '&' ∈ t then 1 else 0) + (if '|' ∈ t then 1 else 0)

theorem separators_lt {t part : Text} {how : How} {parts : List Text}
    (h : splitTop (strip t) = some (how, parts)) (hpart : part ∈ parts) :
    separators part < separators t := by
  have hsub := strip_subset t
  rw [splitTop_eq] at h
  unfold separators
  split at h
  next hamp =>
    cases h
    have hno : '&' ∉ part := fun hc => (mem_splitParts hpart hc).2 rfl
    rw [if_neg hno, if_pos (hsub hamp)]
    by_cases hbar : '|' ∈ part
    · rw [if_pos hbar, if_pos (hsub (mem_splitParts hpart hbar).1)]
      omega
    · rw [if_neg hbar]
      omega
  next hamp =>
    split at h
    next hbar =>
      cases h
      have hno : '|' ∉ part := fun hc => (mem_splitParts hpart hc).2 rfl
      have hamp' : '&' ∉ part := fun hc => hamp (mem_splitParts hpart hc).1
      rw [if_neg hno, if_neg hamp', if_pos (hsub hbar)]
      omega
    next => cases h

/-- `parse_strategy` of a text. -/
def parseStrategy (sqrt : ℚ → ℚ) (expr : Text) : Except String Predicate :=
  match _h : splitTop (strip expr) with
  | some (how, parts) => do
    let preds ← parts.attach.mapM fun part => parseStrategy sqrt part.1
    pure (how.preds preds)
  | none => do
    let c ← parseName (strip expr)
    pure (c.eval sqrt)
  termination_by separators expr
  decreasing_by exact separators_lt _h part.2

theorem mapM_attach {α β : Type} (f : α → Except String β) (l : List α) :
    (l.attach.mapM fun x => f x.1) = l.mapM f := by
  have hmap := List.mapM_map (f := Subtype.val) (g := f) (l := l.attach)
  rw [List.attach_map_subtype_val] at hmap
  exact hmap.symm

theorem parseStrategy_split {sqrt : ℚ → ℚ} {expr : Text} {how : How} {parts : List Text}
    (h : splitTop (strip expr) = some (how, parts)) :
    parseStrategy sqrt expr = (parts.mapM (parseStrategy sqrt) >>= fun preds =>
      pure (how.preds preds)) := by
  rw [parseStrategy]
  split
  next how' parts' h' =>
    cases h.symm.trans h'
    rw [mapM_attach]
  next h' => cases h.symm.trans h'

theorem parseStrategy_name {sqrt : ℚ → ℚ} {expr : Text} (h : splitTop (strip expr) = none) :
    parseStrategy sqrt expr = (parseName (strip expr) >>= fun c => pure (c.eval sqrt)) := by
  rw [parseStrategy]
  split
  next how' parts' h' => cases h.symm.trans h'
  next h' => rfl

/-! ## The shape of a strategy -/

/-- The operands of `&`. -/
def conjuncts (t : Text) : List Text :=
  match splitTop (strip t) with
  | some (.all, parts) => parts
  | _ => [strip t]

/-- The operands of `|`. -/
def disjuncts (t : Text) : List Text :=
  match splitTop (strip t) with
  | some (.any, parts) => parts
  | _ => [strip t]

/-- The predicate of a name. -/
def parseOperand (sqrt : ℚ → ℚ) (t : Text) : Except String Predicate := do
  let c ← parseName (strip t)
  pure (c.eval sqrt)

/-- The predicate of an operand of `&`. -/
def parseClause (sqrt : ℚ → ℚ) (t : Text) : Except String Predicate := do
  let preds ← (disjuncts t).mapM (parseOperand sqrt)
  pure (anyPreds preds)

theorem disjuncts_strip (t : Text) : disjuncts (strip t) = disjuncts t := by
  unfold disjuncts
  rw [strip_strip]

theorem parseOperand_strip (sqrt : ℚ → ℚ) (t : Text) :
    parseOperand sqrt (strip t) = parseOperand sqrt t := by
  unfold parseOperand
  rw [strip_strip]

theorem parseClause_strip (sqrt : ℚ → ℚ) (t : Text) :
    parseClause sqrt (strip t) = parseClause sqrt t := by
  unfold parseClause
  rw [disjuncts_strip]

theorem conjuncts_of_mem {t : Text} (h : '&' ∈ strip t) :
    conjuncts t = splitParts '&' (strip t) := by
  unfold conjuncts
  rw [splitTop_eq, if_pos h]

theorem conjuncts_of_not_mem {t : Text} (h : '&' ∉ strip t) : conjuncts t = [strip t] := by
  unfold conjuncts
  rw [splitTop_eq, if_neg h]
  split <;> simp_all

theorem disjuncts_of_mem {t : Text} (h : '&' ∉ strip t) (hbar : '|' ∈ strip t) :
    disjuncts t = splitParts '|' (strip t) := by
  unfold disjuncts
  rw [splitTop_eq, if_neg h, if_pos hbar]

theorem disjuncts_of_not_mem {t : Text} (h : '&' ∉ strip t) (hbar : '|' ∉ strip t) :
    disjuncts t = [strip t] := by
  unfold disjuncts
  rw [splitTop_eq, if_neg h, if_neg hbar]

/-- A part keeps no separator it was split at, and gets no other one. -/
theorem not_mem_strip_part {sep c : Char} {t part : Text} (h : part ∈ splitParts sep t)
    (hc : c = sep ∨ c ∉ t) : c ∉ strip part := by
  intro hin
  have hpart := mem_splitParts h (strip_subset part hin)
  rcases hc with rfl | hc
  · exact hpart.2 rfl
  · exact hc hpart.1

theorem parseStrategy_operand (sqrt : ℚ → ℚ) {t : Text} (h : '&' ∉ strip t) (hbar : '|' ∉ strip t) :
    parseStrategy sqrt t = parseOperand sqrt t :=
  parseStrategy_name (by rw [splitTop_eq, if_neg h, if_neg hbar])

theorem parseStrategy_clause (sqrt : ℚ → ℚ) {t : Text} (h : '&' ∉ strip t) :
    parseStrategy sqrt t = parseClause sqrt t := by
  unfold parseClause
  by_cases hbar : '|' ∈ strip t
  · have hsplit : splitTop (strip t) = some (.any, splitParts '|' (strip t)) := by
      rw [splitTop_eq, if_neg h, if_pos hbar]
    rw [parseStrategy_split hsplit, disjuncts_of_mem h hbar,
      mapM_congr fun part hpart => parseStrategy_operand sqrt
        (not_mem_strip_part hpart (.inr h)) (not_mem_strip_part hpart (.inl rfl))]
    rfl
  · rw [parseStrategy_operand sqrt h hbar, disjuncts_of_not_mem h hbar, List.mapM_cons,
      List.mapM_nil, parseOperand_strip]
    cases parseOperand sqrt t with
    | error e => rfl
    | ok p => exact congrArg Except.ok (anyPreds_singleton p).symm

/-- Every strategy is an `all` of `any`s of names. -/
theorem parseStrategy_clauses (sqrt : ℚ → ℚ) (t : Text) :
    parseStrategy sqrt t = ((conjuncts t).mapM (parseClause sqrt) >>= fun clauses =>
      pure (allPreds clauses)) := by
  by_cases h : '&' ∈ strip t
  · have hsplit : splitTop (strip t) = some (.all, splitParts '&' (strip t)) := by
      rw [splitTop_eq, if_pos h]
    rw [parseStrategy_split hsplit, conjuncts_of_mem h, mapM_congr fun part hpart =>
      parseStrategy_clause sqrt (not_mem_strip_part hpart (.inl rfl))]
    rfl
  · rw [parseStrategy_clause sqrt h, conjuncts_of_not_mem h, List.mapM_cons, List.mapM_nil,
      parseClause_strip]
    cases parseClause sqrt t with
    | error e => rfl
    | ok p => exact congrArg Except.ok (allPreds_singleton p).symm

end PaperTrading.Signals

/-!
## Signals do not look ahead

`parse_strategy` also takes a strategy as a dict, with the parts of an `and` or
`or` given apart and the numbers of an atom under keys that have defaults.
Whatever it accepts is built from conditions that do not look past the bar they
are asked about, so the signal at a bar is that of the series as it stood then.
-/

namespace PaperTrading.Signals

open Lib

/-- A strategy as a text or as a dict; `none` is a key that is missing. -/
inductive Spec where
  | text (expr : Text)
  | both (a b : Spec)
  | either (a b : Spec)
  | smaStack (periods : Option (List ℤ))
  | emaStack (periods : Option (List ℤ))
  | rsiRange (period : Option ℤ) (min max : Option ℚ)
  | smaAbove (period : Option ℤ)
  | emaAbove (period : Option ℤ)
  | momGt (lookback : Option ℤ) (thr : Option ℚ)
  | momLt (lookback : Option ℤ) (thr : Option ℚ)
  | volLow (short long : Option ℤ)
  | unknown
deriving DecidableEq, Repr

/-- A window of negative length is as empty as one of length 0, and gives the
same `nan`. -/
def windowOf (n : Option ℤ) (default : ℤ) : ℕ := (n.getD default).toNat

def windowsOf (ns : Option (List ℤ)) : List ℕ := (ns.getD [7, 25, 50]).map Int.toNat

/-- `parse_strategy`. -/
def parseSpec (sqrt : ℚ → ℚ) : Spec → Except String Predicate
  | .text expr => parseStrategy sqrt expr
  | .both a b => do
    let p ← parseSpec sqrt a
    let q ← parseSpec sqrt b
    pure (allPreds [p, q])
  | .either a b => do
    let p ← parseSpec sqrt a
    let q ← parseSpec sqrt b
    pure (anyPreds [p, q])
  | .smaStack periods => .ok (Condition.eval sqrt (.atom (.smaStack (windowsOf periods))))
  | .emaStack periods => .ok (Condition.eval sqrt (.emaStack (windowsOf periods)))
  | .rsiRange period min max =>
    .ok (Condition.eval sqrt
      (.atom (.rsiRange (period.getD 14) (min.getD 50) (max.getD 100))))
  | .smaAbove period => .ok (Condition.eval sqrt (.atom (.smaAbove (windowOf period 50))))
  | .emaAbove period => .ok (Condition.eval sqrt (.emaAbove (windowOf period 50)))
  | .momGt lookback thr =>
    .ok (Condition.eval sqrt (.atom (.momGt (windowOf lookback 12) (thr.getD (1 / 50)))))
  | .momLt lookback thr =>
    .ok (Condition.eval sqrt (.atom (.momLt (windowOf lookback 6) (thr.getD (-1 / 50)))))
  | .volLow short long =>
    .ok (Condition.eval sqrt (.atom (.volLow (windowOf short 30) (windowOf long 90))))
  | .unknown => .ok (Condition.eval sqrt .never)

theorem parseOperand_causal {sqrt : ℚ → ℚ} {t : Text} {p : Predicate}
    (h : parseOperand sqrt t = .ok p) : CausalAt Ohlc.take p := by
  obtain ⟨c, -, hp⟩ := except_bind_ok h
  cases hp
  exact c.eval_causal sqrt

theorem parseClause_causal {sqrt : ℚ → ℚ} {t : Text} {p : Predicate}
    (h : parseClause sqrt t = .ok p) : CausalAt Ohlc.take p := by
  obtain ⟨preds, hpreds, hp⟩ := except_bind_ok h
  cases hp
  exact anyPreds_causal (mapM_forall hpreds fun _ _ _ hq => parseOperand_causal hq)

theorem parseStrategy_causal {sqrt : ℚ → ℚ} {t : Text} {p : Predicate}
    (h : parseStrategy sqrt t = .ok p) : CausalAt Ohlc.take p := by
  rw [parseStrategy_clauses] at h
  obtain ⟨clauses, hclauses, hp⟩ := except_bind_ok h
  cases hp
  exact allPreds_causal (mapM_forall hclauses fun _ _ _ hq => parseClause_causal hq)

/-- By induction on the dict: its leaves are texts or single conditions. -/
theorem parseSpec_causal {sqrt : ℚ → ℚ} {spec : Spec} {p : Predicate}
    (h : parseSpec sqrt spec = .ok p) : CausalAt Ohlc.take p := by
  induction spec generalizing p with
  | text expr => exact parseStrategy_causal h
  | both a b iha ihb =>
    obtain ⟨pa, ha, h⟩ := except_bind_ok h
    obtain ⟨pb, hb, h⟩ := except_bind_ok h
    cases h
    refine allPreds_causal fun q hq => ?_
    rcases List.mem_pair.mp hq with rfl | rfl
    · exact iha ha
    · exact ihb hb
  | either a b iha ihb =>
    obtain ⟨pa, ha, h⟩ := except_bind_ok h
    obtain ⟨pb, hb, h⟩ := except_bind_ok h
    cases h
    refine anyPreds_causal fun q hq => ?_
    rcases List.mem_pair.mp hq with rfl | rfl
    · exact iha ha
    · exact ihb hb
  | _ =>
    cases h
    exact Condition.eval_causal sqrt _

/-- The signal at bar `i` is the signal of the series cut after bar `i`, and two
series that agree on bars `0..i` have the same signals there. -/
theorem signals_never_look_ahead (sqrt : ℚ → ℚ) {spec : Spec} {p : Predicate}
    (h : parseSpec sqrt spec = .ok p) :
    (∀ (s : Ohlc) (i : ℕ), i < s.closes.length → p (s.take (i + 1)) i = p s i) ∧
      ∀ (s r : Ohlc) (i : ℕ), s.take (i + 1) = r.take (i + 1) → ∀ j ≤ i, p s j = p r j := by
  have hcausal := parseSpec_causal h
  refine ⟨fun s i _ => hcausal s (i + 1) i (Nat.lt_succ_self i), fun s r i hsame j hj => ?_⟩
  exact hcausal.agree hsame (Nat.lt_succ_of_le hj)

/-- A strategy of a WaveTrend, a higher-timeframe and a pivot atom. -/
def mixedText : Text := "wt_below_os|h4_ema_abv_24&dbl_bot_3".toList

def mixedPredicate (sqrt : ℚ → ℚ) : Predicate :=
  allPreds [anyPreds [Condition.eval sqrt .wtBelowOs, Condition.eval sqrt (.htfEma .h4 24)],
    anyPreds [Condition.eval sqrt (.dblBot 3)]]

theorem mixedText_parses (sqrt : ℚ → ℚ) :
    parseStrategy sqrt mixedText = .ok (mixedPredicate sqrt) := by
  have hconj : conjuncts mixedText = ["wt_below_os|h4_ema_abv_24".toList, "dbl_bot_3".toList] := by
    decide +kernel
  have hfirst : disjuncts "wt_below_os|h4_ema_abv_24".toList =
      ["wt_below_os".toList, "h4_ema_abv_24".toList] := by decide +kernel
  have hsecond : disjuncts "dbl_bot_3".toList = ["dbl_bot_3".toList] := by decide +kernel
  have hwt : parseName (strip "wt_below_os".toList) = .ok .wtBelowOs := by decide +kernel
  have hhtf : parseName (strip "h4_ema_abv_24".toList) = .ok (.htfEma .h4 24) := by decide +kernel
  have hdbl : parseName (strip "dbl_bot_3".toList) = .ok (.dblBot 3) := by decide +kernel
  rw [parseStrategy_clauses, hconj]
  simp only [List.mapM_cons, List.mapM_nil, parseClause, hfirst, hsecond, parseOperand, hwt, hhtf,
    hdbl]
  rfl

/-- A dip that recovers after it. -/
def dipSeries : Ohlc where
  closes := [10, 9, 8, 9, 10]
  highs := [11, 10, 9, 10, 11]
  lows := [9, 8, 7, 8, 9]
  highs_length := rfl
  lows_length := rfl

/-- At the bottom of the dip the strategy does not see the recovery. -/
theorem signals_never_look_ahead_mixed :
    mixedPredicate id (dipSeries.take 3) 2 = mixedPredicate id dipSeries 2 :=
  (signals_never_look_ahead id
    (show parseSpec id (.text mixedText) = .ok _ from mixedText_parses id)).1 dipSeries 2
    (by decide)

end PaperTrading.Signals
