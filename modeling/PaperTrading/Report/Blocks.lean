import Mathlib.Algebra.Order.Field.Rat
import Mathlib.Algebra.Order.AbsoluteValue.Basic
import Mathlib.Data.List.ReduceOption
import Mathlib.Data.List.Sort
import Mathlib.Data.Nat.Choose.Basic
import Mathlib.Data.Prod.Lex
import Mathlib.Data.String.Basic
import PaperTrading.Lib.Groups
import PaperTrading.Mint.Atoms
import PaperTrading.Report.Rows

/-!
# The block report

`build_block_report` of `trading/block_report.py`: for each atom family, and each bucket of
one, the means of the rows that have it and of the rows that do not, a difference matched on
the number of atoms, and for each swap axis the paired differences with a sign test. The
figures of the rows without a block are the totals less those with it.

The square root, `erfc`, the quantiles of the t distribution and `binomtest` are parameters;
the last two are missing where `scipy` is.
-/

namespace PaperTrading.Report

open PaperTrading.Gate (Cell)
open PaperTrading.Lib
open PaperTrading.Mint

/-- What the code gets from `math` and `scipy.stats`. -/
structure Stats where
  sqrt : ℚ → ℚ
  erfc : ℚ → ℚ
  tPpf : Option (ℕ → ℚ)
  binomtest : Option (ℕ → ℕ → ℚ)

/-! ## Blocks -/

/-- The word of a bound in a bucket. -/
def opWord : Op → String
  | .gt => "gt"
  | .lt => "lt"

/-- `int(threshold)` where there is one threshold. -/
def thresholdOf (parts : AtomParts) : ℕ :=
  match parts.bounds with
  | [bound] => bound.2
  | _ => 0

/-- `_bucket` -/
def bucket (parts : AtomParts) : String :=
  let first := parts.params.headD 0
  if parts.family ∈ ["mom", "dip"] ∧ parts.params ≠ [] then
    let span := if first ≤ 24 then "short" else if first ≤ 96 then "mid" else "long"
    let pct := thresholdOf parts
    let pctBin := if pct ≤ 2 then "2" else if pct ≤ 4 then "4" else if pct ≤ 6 then "6" else "8plus"
    parts.family ++ ":" ++ span ++ ":" ++ pctBin ++ "pc"
  else if parts.family ∈ MA_WORDS ∨ "_abv".toList.isSuffixOf parts.family.toList then
    let span := if first ≤ 40 then "fast" else if first ≤ 100 then "mid" else "slow"
    parts.family ++ ":" ++ span
  else if parts.family ∈ ["don_hi", "don_lo", "near_swing_hi", "near_swing_lo", "dbl_bot"] then
    let span := if first ≤ 24 then "le24" else if first ≤ 48 then "le48"
      else if first ≤ 96 then "le96" else "gt96"
    parts.family ++ ":" ++ span
  else if parts.family = "rsi" then
    match parts.bounds with
    | [bound] => "rsi:" ++ opWord bound.1 ++ ":" ++ toString (toStep 10 bound.2)
    | _ => "rsi:band"
  else if parts.family ∈ ["sma_stack", "ema_stack"] then
    let span := if parts.params.foldr max 0 ≤ 100 then "fast" else "slow"
    parts.family ++ ":" ++ span
  else parts.family

/-- The atoms of a name that are known. -/
def knownAtoms (name : String) : List AtomParts := (atomsOf name.toList).filterMap inspectAtom

/-- The families of `_blocks`. -/
def familiesOf (name : String) : List String := firstSeen ((knownAtoms name).map (·.family))

/-- The buckets of `_blocks`. -/
def bucketsOf (name : String) : List String := firstSeen ((knownAtoms name).map bucket)

/-! ## Items -/

/-- What the report keeps of a row. -/
structure Item where
  strategy : String
  dailySharpe : Option Cell
  sharpe : Option Cell
  trades : Option Cell
  qualified : Bool
  depth : ℕ
deriving DecidableEq, Repr

/-- `_FIELDS` -/
inductive Field where
  | dailySharpe
  | sharpe
  | trades
deriving DecidableEq, Repr

def FIELDS : List Field := [.dailySharpe, .sharpe, .trades]

/-- The name of a field in the report. -/
def Field.label : Field → String
  | .dailySharpe => "daily_sharpe"
  | .sharpe => "trade_sharpe"
  | .trades => "trades"

/-- `_number(row.get(field))` -/
def Item.value (item : Item) : Field → Option ℚ
  | .dailySharpe => Cell.finite item.dailySharpe
  | .sharpe => Cell.finite item.sharpe
  | .trades => Cell.finite item.trades

def itemOf (row : Row) : Item :=
  { strategy := row.strategy, dailySharpe := row.dailySharpe, sharpe := row.sharpe
    trades := row.trades, qualified := row.qualified
    depth := (atomsOf row.strategy.toList).length }

/-- The items of the rows that are taken. -/
def itemsOf (rows : List Row) : List Item :=
  ((rows.filter isPreHoldout).filter (·.strategy ≠ "")).map itemOf

/-- The positions of the rows with each block, the blocks as they were first met. -/
def blockRows (blocks : String → List String) (items : List Item) : Dict String (List ℕ) :=
  (groupedBy Prod.fst (items.zipIdx.flatMap fun e => (blocks e.1.strategy).map (·, e.2))).map
    fun _ group => group.map Prod.snd

/-! ## Effects -/

/-- A sum and a count, and a value that may be missing. -/
def addTo (slot : ℚ × ℕ) (value : Option ℚ) : ℚ × ℕ :=
  match value with
  | none => slot
  | some v => (slot.1 + v, slot.2 + 1)

/-- `_Prepared` -/
structure Prepared where
  values : Field → List (Option ℚ)
  qualified : List Bool
  depth : List ℕ
  n : ℕ
  totals : Field → ℚ × ℕ
  depthTotals : Dict ℕ (ℚ × ℕ)
  qTotal : ℕ

def prepare (items : List Item) : Prepared :=
  let values := fun field => items.map (Item.value · field)
  { values := values
    qualified := items.map (·.qualified)
    depth := items.map (·.depth)
    n := items.length
    totals := fun field => ((values field).reduceOption.sum, (values field).reduceOption.length)
    depthTotals := foldedBy Prod.snd (fun slot (e : Option ℚ × ℕ) => addTo slot e.1) (0, 0)
      ((values .dailySharpe).zip (items.map (·.depth)))
    qTotal := (items.map (·.qualified)).count true }

/-- `_round` -/
def round6 (value : Option ℚ) : Option ℚ := value.map (roundTo 6)

/-- `_ratio` -/
def ratio (total : ℚ) (count : ℕ) : Option ℚ := if count = 0 then none else some (total / count)

/-- One depth of the loop of `_matched`. -/
def matchStep (withByDepth : Dict ℕ (ℚ × ℕ)) (acc : ℚ × ℕ) (entry : ℕ × ℚ × ℕ) : ℚ × ℕ :=
  let w := (withByDepth.get? entry.1).getD (0, 0)
  let t := entry.2
  let others := t.2 - w.2
  if w.2 = 0 ∨ others = 0 then acc
  else
    let weight := min w.2 others
    (acc.1 + weight * (w.1 / w.2 - (t.1 - w.1) / others), acc.2 + weight)

/-- `_matched` -/
def matched (prep : Prepared) (members : List ℕ) : Option ℚ :=
  let column := prep.values .dailySharpe
  let present := members.filter fun i => (column.getD i none).isSome
  let withByDepth := foldedBy (fun i => prep.depth.getD i 0)
    (fun slot i => addTo slot (column.getD i none)) (0, 0) present
  let acc := prep.depthTotals.entries.foldl (matchStep withByDepth) (0, 0)
  if acc.2 = 0 then none else some (acc.1 / acc.2)

/-- The two means of a field, under its label. -/
structure Means where
  label : String
  withBlock : Option ℚ
  withoutBlock : Option ℚ
deriving DecidableEq, Repr

structure Effect where
  block : String
  level : String
  nWith : ℕ
  nWithout : ℕ
  means : List Means
  passRateWith : Option ℚ
  passRateWithout : Option ℚ
  depthControlled : Option ℚ
deriving DecidableEq, Repr

/-- `_effect` -/
def effect (prep : Prepared) (members : List ℕ) (block level : String) : Effect :=
  let nWith := members.length
  let nWithout := prep.n - nWith
  let qWith := members.countP fun i => prep.qualified.getD i false
  { block := block
    level := level
    nWith := nWith
    nWithout := nWithout
    means := FIELDS.map fun field =>
      let w := members.foldl (fun slot i => addTo slot ((prep.values field).getD i none)) (0, 0)
      let t := prep.totals field
      { label := field.label
        withBlock := round6 (ratio w.1 w.2)
        withoutBlock := round6 (ratio (t.1 - w.1) (t.2 - w.2)) }
    passRateWith := round6 (ratio qWith nWith)
    passRateWithout := round6 (ratio ((prep.qTotal : ℚ) - qWith) nWithout)
    depthControlled := round6 (matched prep members) }

/-- `_sort_key` -/
def Effect.sortKey (e : Effect) : ℚ ×ₗ ℤ ×ₗ String :=
  let magnitude := match e.depthControlled with
    | some q => |q|
    | none => -1
  toLex (-magnitude, toLex (-(e.nWith : ℤ), e.block))

/-- `sorted(…, key=_sort_key)` -/
def sortEffects (effects : List Effect) : List Effect :=
  effects.insertionSort fun a b => a.sortKey ≤ b.sortKey

/-- The effects of all blocks of one level. -/
def effectsOf (blocks : String → List String) (level : String) (items : List Item) : List Effect :=
  sortEffects ((blockRows blocks items).entries.map fun e =>
    effect (prepare items) e.2 e.1 level)

/-! ## Paired swaps -/

section
variable (stats : Stats)

/-- What `sign_test_p` computes itself, without `scipy`. -/
def ownSignTestP (pos neg : ℕ) : ℚ :=
  let n := pos + neg
  let k := min pos neg
  if n > 1024 then
    min 1 (stats.erfc (|(pos : ℚ) - n / 2| / stats.sqrt (n / 4) / stats.sqrt 2))
  else
    let cdf := ((List.range (k + 1)).map n.choose).sum
    let p := (cdf : ℚ) / 2 ^ n
    min 1 (if pos ≠ neg then p * 2 else p)

/-- `sign_test_p` -/
def signTestP (pos neg : ℕ) : Option ℚ :=
  if pos + neg = 0 then none
  else
    match stats.binomtest with
    | some pvalue => some (pvalue pos (pos + neg))
    | none => some (ownSignTestP stats pos neg)

/-- `_mean_ci` -/
def meanCi (deltas : List ℚ) : Option ℚ × Option ℚ × Option ℚ :=
  let n := deltas.length
  let mean := deltas.sum / n
  let variance : ℚ := (deltas.map fun item => (item - mean) * (item - mean)).sum / (n - 1)
  let se := stats.sqrt (variance / n)
  if n = 0 then (none, none, none)
  else if n < 2 then (some mean, none, none)
  else if se = 0 then (some mean, some mean, some mean)
  else
    let half := (match stats.tPpf with
      | some ppf => ppf (n - 1)
      | none => 196 / 100) * se
    (some mean, some (mean - half), some (mean + half))

def AXES : List String := ["timeframe", "ma_kind", "param_step", "add_atom", "remove_atom"]

/-- A stored pair; what is not a text is none. -/
structure PairLink where
  axis : Option String
  parent : Option String
  child : Option String
deriving DecidableEq, Repr

/-- The difference a pair adds, with its axis. -/
def pairDelta (byName : Dict String Item) (pair : PairLink) : Option (String × ℚ) := do
  let axis ← pair.axis
  let parent ← pair.parent
  let child ← pair.child
  if axis ∉ AXES ∨ parent = child then none
  else
    let left ← byName.get? parent
    let right ← byName.get? child
    let parentSharpe ← left.value .dailySharpe
    let childSharpe ← right.value .dailySharpe
    pure (axis, childSharpe - parentSharpe)

structure PairedRow where
  axis : String
  n : ℕ
  nPositive : ℕ
  nNegative : ℕ
  nZero : ℕ
  meanDelta : Option ℚ
  ciLow : Option ℚ
  ciHigh : Option ℚ
  signTest : Option ℚ
deriving DecidableEq, Repr

/-- `_paired` -/
def paired (byName : Dict String Item) (pairs : List PairLink) : List PairedRow :=
  let found := pairs.filterMap (pairDelta byName)
  AXES.map fun axis =>
    let deltas := (found.filter fun e => e.1 = axis).map Prod.snd
    let positive := deltas.countP (0 < ·)
    let negative := deltas.countP (· < 0)
    let ci := meanCi stats deltas
    { axis := axis, n := deltas.length, nPositive := positive, nNegative := negative
      nZero := deltas.countP (· = 0)
      meanDelta := round6 ci.1, ciLow := round6 ci.2.1, ciHigh := round6 ci.2.2
      signTest := round6 (signTestP stats positive negative) }

/-! ## The report -/

structure BlockReport where
  nResults : ℕ
  families : List Effect
  buckets : List Effect
  paired : List PairedRow
deriving DecidableEq, Repr

/-- `build_block_report` -/
def buildBlockReport (rows : List Row) (pairs : List PairLink) : BlockReport :=
  let items := itemsOf rows
  let byName := items.foldl (fun d item => d.set item.strategy item) Dict.empty
  { nResults := items.length
    families := effectsOf familiesOf "family" items
    buckets := effectsOf bucketsOf "bucket" items
    paired := paired stats byName pairs }

end

end PaperTrading.Report
