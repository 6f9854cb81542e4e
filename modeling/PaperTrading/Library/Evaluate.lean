import PaperTrading.Gate.MultipleTesting
import PaperTrading.Library.Attestation
import PaperTrading.Library.Names
import PaperTrading.Library.Weekly
import PaperTrading.Signals.Segments

/-!
# The evaluation of a library strategy

`library/evaluate.py`, from the full daily tape to the measured numbers of one
configuration. `build_library_data` cuts the discovery days off before the holdout, finds
the first day that may be scored and tiles the span into blocks. `evaluate_library_record`
runs the configuration, its neighbours and two benchmarks over the discovery days and, in
fresh books that keep the same prefix, over the holdout.

What a configuration of the catalog computes, its signal and its mask, is a parameter, as
are the functions of `scipy` (`Stats`). The days of a tape ascend.
-/

namespace PaperTrading.Library

open Broker (TAKER_FEE SLIPPAGE)
open Gate (Stats Moments finites returnMoments deflatedSharpeRatio
  probabilityOfBacktestOverfitting)
open PaperTrading.Lib
open Signals (HOLDOUT_START_MS HOLDOUT_END_MS)
open Trading (PAPER_START_CASH)

def LIBRARY_TAPE_START_MS : ℤ := 1502928000000
def LIBRARY_TAPE_START_SLACK_MS : ℤ := 2 * DAY_MS
def LIBRARY_BLOCK_TARGET_DAYS : ℤ := 390
def COST_STRESS_FEE_MULTIPLE : ℚ := 2
def COST_STRESS_EXTRA_SLIPPAGE : ℚ := 5 / 10000
def DAYS_PER_YEAR : ℚ := 365

theorem stressFee_in : 0 ≤ TAKER_FEE * COST_STRESS_FEE_MULTIPLE ∧
    TAKER_FEE * COST_STRESS_FEE_MULTIPLE ≤ 1 := by decide +kernel

theorem stressSlippage_in : 0 ≤ SLIPPAGE + COST_STRESS_EXTRA_SLIPPAGE ∧
    SLIPPAGE + COST_STRESS_EXTRA_SLIPPAGE ≤ 1 := by decide +kernel

/-- `STRESS_COSTS` -/
def stressCosts : Costs :=
  ⟨TAKER_FEE * COST_STRESS_FEE_MULTIPLE, SLIPPAGE + COST_STRESS_EXTRA_SLIPPAGE,
    stressFee_in.1, stressFee_in.2, stressSlippage_in.1, stressSlippage_in.2⟩

/-- What an evaluation can raise. -/
inductive EvaluateError where
  /-- the tape does not start at the listing -/
  | shortTape
  /-- `HoldoutLeak` -/
  | holdoutLeak
  /-- the tape does not reach the day before the holdout -/
  | endsEarly
  /-- fewer than two days -/
  | tooFewDays
  /-- a configuration is not warm on the days it is scored on -/
  | notWarm (key : String)
  | warmsLast (key : String)
  | emptySpan
  | name (e : NameError)
  | run (e : RunError)
deriving DecidableEq

/-! ## The grid of the catalog -/

namespace CatalogStrategy
variable (s : CatalogStrategy)

/-- `grid_params`: the center, then each perturbation of one parameter. -/
def gridParams : List Params :=
  s.center :: s.params.flatMap fun p => p.neighbours.map fun v => s.center.set p.name v

end CatalogStrategy

/-- `[k for k in candidate if candidate[k] != params[k]]` -/
def differing (candidate params : Params) : List Text :=
  candidate.keys.filter fun k => candidate.get? k ≠ params.get? k

namespace Catalog
variable (lib : Catalog)

/-- `neighbour_names`: the grid points that differ in exactly one parameter. -/
def neighbourNames (name : Text) : Except NameError (List Text) := do
  let variant ← lib.parseVariant name
  (variant.1.gridParams.filter fun c => (differing c variant.2).length = 1).mapM
    variant.1.variantName

/-- `all_variant_names` -/
def allVariantNames : Except NameError (List Text) := do
  let names ← lib.strategies.mapM fun s => s.gridParams.mapM s.variantName
  return names.flatten.foldl (fun seen name => if name ∈ seen then seen else seen ++ [name]) []

/-- `library_trial_count` -/
def libraryTrialCount : Except NameError ℕ := return (← lib.allVariantNames).length

end Catalog

/-! ## The tape and the blocks -/

/-- `DailyBars.index_of`: the first day at or after `ts`. -/
def indexOf (bars : List Day) (ts : ℤ) : ℕ := (bars.takeWhile fun d => d.ts < ts).length

/-- `DailyBars.before` -/
def before (bars : List Day) (ts : ℤ) : List Day := bars.take (indexOf bars ts)

/-- `assert_library_history` -/
def assertLibraryHistory (bars : List Day) : Except EvaluateError Unit :=
  match bars.head? with
  | none => .error .shortTape
  | some d =>
    if LIBRARY_TAPE_START_MS + LIBRARY_TAPE_START_SLACK_MS < d.ts then .error .shortTape
    else .ok ()

/-- The first day a configuration may be scored on: the one after its mask sets in, if it
stays set to the end. -/
def warmFrom (bars : List Day) (s : LibraryStrategy) : Except EvaluateError ℕ :=
  match (s.signalReady bars).findIdx? id with
  | none => .error (.notWarm s.key)
  | some first =>
    if ¬ ((s.signalReady bars).drop first).all id then .error (.notWarm s.key)
    else if bars.length ≤ first + 1 then .error (.warmsLast s.key)
    else .ok (first + 1)

/-- `library_score_index`, over every grid point of the library. -/
def libraryScoreIndex (grid : List LibraryStrategy) (bars : List Day) : Except EvaluateError ℕ :=
  if bars.length < 2 then .error .tooFewDays
  else grid.foldlM (fun latest s => return max latest (← warmFrom bars s)) 1

/-- `tile_blocks` -/
def tileBlocks (startMs endMs : ℤ) : Except EvaluateError (List (ℤ × ℤ)) :=
  let span := endMs - startMs
  if span ≤ 0 then .error .emptySpan
  else
    let n := max 1 (roundHalfEven ((span : ℚ) / (LIBRARY_BLOCK_TARGET_DAYS * DAY_MS : ℤ))).toNat
    let edges := (List.range n).map (fun k : ℕ => startMs + span * k / n) ++ [endMs]
    .ok (edges.zip edges.tail)

/-- `LibraryData` -/
structure LibraryData where
  discovery : List Day
  holdout : Option (List Day)
  scoreIndex : ℕ
  segments : List (ℤ × ℤ)
  holdoutNote : Option String

/-- The end of blocks that start at `prev` and follow on each other. -/
def tilesFrom : ℤ → List (ℤ × ℤ) → Option ℤ
  | prev, [] => some prev
  | prev, seg :: segs =>
    if seg.1 ≠ prev ∨ seg.2 ≤ seg.1 then none else tilesFrom seg.2 segs

/-- `_blocks_tile` -/
def blocksTile (data : LibraryData) : Bool :=
  match data.discovery[data.scoreIndex]? with
  | none => false
  | some day =>
    data.segments ≠ [] ∧ data.segments.head?.map Prod.fst = some day.ts ∧
      data.segments.getLast?.map Prod.snd = some HOLDOUT_START_MS ∧
      tilesFrom day.ts data.segments = some HOLDOUT_START_MS

/-- `build_library_data` -/
def buildLibraryData (grid : List LibraryStrategy) (full : List Day) :
    Except EvaluateError LibraryData := do
  assertLibraryHistory full
  let discovery := before full HOLDOUT_START_MS
  let lastTs := discovery.getLast?.map Day.ts
  if lastTs.any (HOLDOUT_START_MS ≤ ·) then throw .holdoutLeak
  else if ¬ lastTs.any (HOLDOUT_START_MS - DAY_MS ≤ ·) then throw .endsEarly
  else do
    let scoreIndex ← libraryScoreIndex grid discovery
    let segments ← tileBlocks (tsAt discovery scoreIndex) HOLDOUT_START_MS
    let covered := (full.getLast?.map Day.ts).any (HOLDOUT_END_MS - DAY_MS ≤ ·)
    return {
      discovery := discovery
      holdout := if covered then some (before full HOLDOUT_END_MS) else none
      scoreIndex := scoreIndex
      segments := segments
      holdoutNote := if covered then none
        else some "holdout tape incomplete (needs every day through 2026-09-30)" }

/-! ## One book -/

/-- `_require_ready` -/
def requireReady (s : LibraryStrategy) (bars : List Day) (start end_ : ℕ) :
    Except EvaluateError Unit :=
  let ready := s.signalReady bars
  if start = 0 ∨ ready.length < end_ - 1 ∨ end_ ≤ start ∨
      ¬ ((ready.drop (start - 1)).take (end_ - start)).all id then
    .error (.notWarm s.key)
  else .ok ()

/-- `eq[1:] / eq[:-1] - 1.0` at one point. -/
def pointReturn (prev cur : ℚ) : Flt :=
  if prev = 0 then (if cur = 0 then .nan else .inf (cur < 0)) else .fin (cur / prev - 1)

/-- `RunResult.returns` -/
def RunResult.returns (r : RunResult) : List Flt := r.equity.zipWith pointReturn r.equity.tail

/-- `daily_returns_sharpe` -/
def dailyReturnsSharpe (stats : Stats) (returns : List Flt) : ℚ :=
  let vals := finites returns
  let n := vals.length
  let mean := vals.sum / n
  let sd := stats.sqrt ((vals.map fun x => (x - mean) ^ 2).sum / (n - 1))
  if n < 2 then 0
  else if sd ≤ 1 / 10 ^ 12 then 0
  else mean / sd * stats.sqrt DAYS_PER_YEAR

/-- `_max_drawdown` -/
def maxDrawdownOf (points : List ℚ) : ℚ :=
  (points.foldl (fun (acc : ℚ × ℚ) p =>
    (max acc.1 p, max acc.2 (if 0 < max acc.1 p then (max acc.1 p - p) / max acc.1 p else 0)))
    (points.headD 0, 0)).2

/-- What a block of the span measured. -/
structure WindowMetrics where
  pnl : ℚ
  trades : ℕ
  bounds : ℕ × ℕ
deriving DecidableEq

/-- The loop over the segments in `span_metrics`: P&L of a block on a 10k base, and the
trades that were closed in it. -/
def windowMetrics (bars : List Day) (res : RunResult) (start end_ : ℕ) (seg : ℤ × ℤ) :
    WindowMetrics :=
  let a := max start (indexOf bars seg.1) - start
  let b := min end_ (indexOf bars seg.2) - start
  let base := res.equity[a]?.getD 0
  let top := res.equity[b]?.getD base
  { pnl := if 0 < base then PAPER_START_CASH * (top / base - 1) else 0
    trades := (res.trades.filter fun t => seg.1 ≤ t.exitTs ∧ t.exitTs < seg.2).length
    bounds := (a, b) }

/-- `SpanMetrics` -/
structure SpanMetrics where
  result : RunResult
  returns : List Flt
  dailySharpe : ℚ
  trades : ℕ
  pnl : ℚ
  windows : List WindowMetrics
  maxDd : ℚ
  totalReturn : ℚ
  exposure : ℚ
  avgHoldDays : Option ℚ
  winRate : ℚ
  exits : Dict (Option Reason) ℕ
deriving DecidableEq

/-- What `span_metrics` reads off a run. -/
def spanMetricsOf (stats : Stats) (bars : List Day) (res : RunResult) (start end_ : ℕ)
    (segments : List (ℤ × ℤ)) : SpanMetrics :=
  let windows := segments.map (windowMetrics bars res start end_)
  let first := res.equity.headD 0
  { result := res
    returns := res.returns
    dailySharpe := dailyReturnsSharpe stats res.returns
    trades := res.trades.length
    pnl := (windows.map WindowMetrics.pnl).sum
    windows := windows
    maxDd := maxDrawdownOf res.equity
    totalReturn := if 0 < first then res.equity.getLastD 0 / first - 1 else 0
    exposure := res.daysLong / max 0 (res.end_ - res.start)
    avgHoldDays := if res.trades = [] then none
      else some ((res.trades.map Trade.days).sum / res.trades.length)
    winRate := (res.trades.filter fun t => 0 < t.pnl).length / res.trades.length
    exits := res.trades.foldl
      (fun d t => d.set t.reason ((d.get? t.reason).getD 0 + 1)) Dict.empty }

/-- `span_metrics`: one continuous book over `[start, end)`. -/
def spanMetrics (stats : Stats) (bars : List Day) (signal : List Bool) (start end_ : ℕ)
    (segments : List (ℤ × ℤ)) (costs : Costs) (stopFrac : ℚ) :
    Except EvaluateError SpanMetrics := do
  let res ← (run bars signal start end_ PAPER_START_CASH costs stopFrac).mapError .run
  return spanMetricsOf stats bars res start end_ segments

/-- `book_pnl`: ending equity minus starting cash. -/
def bookPnl (m : SpanMetrics) : ℚ := m.result.equity.getLastD 0 - m.result.equity.headD 0

/-! ## The two spans -/

section
variable (stats : Stats) (data : LibraryData)

/-- `discovery_metrics` -/
def discoveryMetrics (s : LibraryStrategy) (costs : Costs) : Except EvaluateError SpanMetrics := do
  requireReady s data.discovery data.scoreIndex data.discovery.length
  spanMetrics stats data.discovery (s.signal data.discovery) data.scoreIndex
    data.discovery.length data.segments costs s.stopFrac

/-- `holdout_metrics`: a fresh book; its indicators see the prefix. -/
def holdoutMetrics (s : LibraryStrategy) (costs : Costs) :
    Except EvaluateError (Option SpanMetrics) :=
  match data.holdout with
  | none => .ok none
  | some bars => do
    let a := indexOf bars HOLDOUT_START_MS
    requireReady s bars a bars.length
    some <$> spanMetrics stats bars (s.signal bars) a bars.length
      [(HOLDOUT_START_MS, HOLDOUT_END_MS)] costs s.stopFrac

/-- The simple average of the last `n` values at `i`. -/
def smaAt (x : List ℚ) (n i : ℕ) : Option ℚ :=
  if i + 1 < n then none else some (((x.drop (i + 1 - n)).take n).sum / n)

/-- `sma_stack_signal` -/
def smaStackSignal (bars : List Day) : List Bool :=
  let close := bars.map Day.close
  close.zipIdx.map fun c =>
    match smaAt close 7 c.2, smaAt close 25 c.2, smaAt close 50 c.2 with
    | some s7, some s25, some s50 => s7 < c.1 ∧ s25 < s7 ∧ s50 < s25
    | _, _, _ => false

/-- `which` of `_benchmark` -/
inductive Benchmark where
  | bh
  | smaStack
deriving DecidableEq

/-- The signal of a benchmark. -/
def Benchmark.signal (bars : List Day) : Benchmark → List Bool
  | .bh => List.replicate bars.length true
  | .smaStack => smaStackSignal bars

/-- `_benchmark` over the discovery span. -/
def discoveryBenchmark (which : Benchmark) (costs : Costs) : Except EvaluateError SpanMetrics :=
  spanMetrics stats data.discovery (which.signal data.discovery) data.scoreIndex
    data.discovery.length data.segments costs 0

/-- `_benchmark` over the holdout. -/
def holdoutBenchmark (which : Benchmark) (costs : Costs) :
    Except EvaluateError (Option SpanMetrics) :=
  match data.holdout with
  | none => .ok none
  | some bars =>
    some <$> spanMetrics stats bars (which.signal bars) (indexOf bars HOLDOUT_START_MS)
      bars.length [(HOLDOUT_START_MS, HOLDOUT_END_MS)] costs 0

end

/-! ## The record -/

/-- One row of `neighbours`; `windows` is its `_windows`. -/
structure NeighbourRow where
  name : Text
  params : Params
  dailySharpe : ℚ
  trades : ℕ
  pnl : ℚ
  holdoutPnl : Option ℚ
  stressOosPnl : ℚ
  stressHoldoutPnl : Option ℚ
  pass : Bool
  windows : List ℚ

/-- `x is not None and x > 0` -/
def gains (x : Option ℚ) : Bool := x.elim false (0 < ·)

/-- The row of a neighbour, from its four books. -/
def neighbourRow (name : Text) (params : Params) (m sm : SpanMetrics)
    (h sh : Option SpanMetrics) : NeighbourRow where
  name := name
  params := params
  dailySharpe := roundTo 4 m.dailySharpe
  trades := m.trades
  pnl := roundTo 2 (bookPnl m)
  holdoutPnl := (h.map bookPnl).map (roundTo 2)
  stressOosPnl := roundTo 2 (bookPnl sm)
  stressHoldoutPnl := (sh.map bookPnl).map (roundTo 2)
  pass := 0 < bookPnl m && gains (h.map bookPnl) && 0 < bookPnl sm && gains (sh.map bookPnl)
  windows := m.windows.map WindowMetrics.pnl

/-- `_iso_day` -/
def isoDay (ts : ℤ) : String :=
  -- days since 0000-03-01, in eras of 400 years whose years start in March
  let z := ts / DAY_MS + 719468
  let doe := z % 146097
  let yoe := (doe - doe / 1460 + doe / 36524 - doe / 146096) / 365
  let doy := doe - (365 * yoe + yoe / 4 - yoe / 100)
  let mp := (5 * doy + 2) / 153
  let month := if mp < 10 then mp + 3 else mp - 9
  let year := yoe + z / 146097 * 400 + (if month ≤ 2 then 1 else 0)
  padded 4 year.toNat ++ "-" ++ padded 2 month.toNat ++ "-" ++
    padded 2 (doy - (153 * mp + 2) / 5 + 1).toNat

example : isoDay HOLDOUT_START_MS = "2025-10-01" := by decide +kernel

/-- The books, tables and figures of one evaluation. -/
structure Evaluation where
  data : LibraryData
  discovery : SpanMetrics
  bh : SpanMetrics
  smaStack : SpanMetrics
  holdout : Option SpanMetrics
  holdoutBh : Option SpanMetrics
  holdoutSma : Option SpanMetrics
  stressed : SpanMetrics
  stressedHoldout : Option SpanMetrics
  stressedBh : SpanMetrics
  neighbours : List NeighbourRow
  trials : ℕ
  moments : Option Moments
  dsr : Option ℚ
  pbo : Option ℚ
  pboUndefined : Option String

section
variable (stats : Stats)

/-- The neighbour loop's body, on the strategy of the evaluated name. -/
def evaluateNeighbour (lib : Catalog) (configured : Params → LibraryStrategy)
    (data : LibraryData) (name : Text) : Except EvaluateError NeighbourRow := do
  let variant ← (lib.parseVariant name).mapError .name
  let strategy := configured variant.2
  let m ← discoveryMetrics stats data strategy paperCosts
  let h ← holdoutMetrics stats data strategy paperCosts
  let sm ← discoveryMetrics stats data strategy stressCosts
  let sh ← holdoutMetrics stats data strategy stressCosts
  return neighbourRow name variant.2 m sm h sh

/-- `matrix`: the blocks of the name, and of each neighbour. -/
def pboMatrix (disc : SpanMetrics) (neighbours : List NeighbourRow) : List (List ℚ) :=
  disc.windows.map WindowMetrics.pnl :: neighbours.map NeighbourRow.windows

/-- `pbo` and `pbo_undefined` -/
def pboOf (matrix : List (List ℚ)) (blocks : ℕ) : Option ℚ × Option String :=
  if matrix.length < 2 then (none, some "pbo undefined (fewer than 2 configurations)")
  else
    match probabilityOfBacktestOverfitting stats (matrix.map (·.map .fin)) blocks with
    | none => (none, some "pbo undefined")
    | some pbo => (some pbo, none)

/-- What `evaluate_library_record` computes of one name. -/
def evaluateLibrary (lib : Catalog) (configured : CatalogStrategy → Params → LibraryStrategy)
    (data : LibraryData) (name : Text) (nTrials : Option ℕ) : Except EvaluateError Evaluation := do
  let variant ← (lib.parseVariant name).mapError .name
  let strategy := configured variant.1 variant.2
  let trials ← nTrials.elim (lib.libraryTrialCount.mapError .name) .ok
  let disc ← discoveryMetrics stats data strategy paperCosts
  let bh ← discoveryBenchmark stats data .bh paperCosts
  let sma ← discoveryBenchmark stats data .smaStack paperCosts
  let hold ← holdoutMetrics stats data strategy paperCosts
  let holdBh ← holdoutBenchmark stats data .bh paperCosts
  let holdSma ← holdoutBenchmark stats data .smaStack paperCosts
  let stressed ← discoveryMetrics stats data strategy stressCosts
  let stressedHold ← holdoutMetrics stats data strategy stressCosts
  let stressedBh ← discoveryBenchmark stats data .bh stressCosts
  let names ← (lib.neighbourNames name).mapError .name
  let neighbours ← names.mapM (evaluateNeighbour stats lib (configured variant.1) data)
  let moments := returnMoments stats disc.returns
  let pbo := pboOf stats (pboMatrix disc neighbours) disc.windows.length
  return {
    data := data, discovery := disc, bh := bh, smaStack := sma, holdout := hold
    holdoutBh := holdBh, holdoutSma := holdSma, stressed := stressed
    stressedHoldout := stressedHold, stressedBh := stressedBh, neighbours := neighbours
    trials := trials, moments := moments
    dsr := moments.map fun m => deflatedSharpeRatio stats m trials
    pbo := pbo.1, pboUndefined := pbo.2 }

/-- Every grid point of the library. -/
def Catalog.grid (lib : Catalog) (configured : CatalogStrategy → Params → LibraryStrategy) :
    List LibraryStrategy :=
  lib.strategies.flatMap fun s => s.gridParams.map (configured s)

/-- An evaluation, from the tape on. -/
def evaluateTape (lib : Catalog) (configured : CatalogStrategy → Params → LibraryStrategy)
    (full : List Day) (name : Text) (nTrials : Option ℕ) : Except EvaluateError Evaluation := do
  let data ← buildLibraryData (lib.grid configured) full
  evaluateLibrary stats lib configured data name nTrials

end

namespace Evaluation
variable (e : Evaluation)

/-- `windows_ok` -/
def windowsOk : Bool :=
  blocksTile e.data && decide (e.discovery.windows.length = e.data.segments.length)

/-- The numbers `library_verdict` is given. -/
def measured : Measured where
  windowsOk := e.windowsOk
  nWindows := e.discovery.windows.length
  expectedWindows := e.data.segments.length
  windowSpan := isoDay (tsAt e.data.discovery e.data.scoreIndex) ++
    " through the day before the holdout"
  oosPnl := .fin (bookPnl e.discovery)
  oosTrades := e.discovery.trades
  oosSharpe := .fin e.discovery.dailySharpe
  smaOosPnl := some (.fin (bookPnl e.smaStack))
  bhOosPnl := some (.fin (bookPnl e.bh))
  holdoutPresent := e.holdout.isSome
  holdoutNote := e.data.holdoutNote
  holdoutPnl := e.holdout.map fun m => .fin (bookPnl m)
  holdoutTrades := e.holdout.map fun m => m.trades
  holdoutSharpe := e.holdout.map fun m => .fin m.dailySharpe
  smaHoldoutPnl := e.holdoutSma.map fun m => .fin (bookPnl m)
  bhHoldoutPnl := e.holdoutBh.map fun m => .fin (bookPnl m)
  stressOosPnl := some (.fin (bookPnl e.stressed))
  stressHoldoutPnl := e.stressedHoldout.map fun m => .fin (bookPnl m)
  dsrValue := e.dsr.map .fin
  nTrials := e.trials
  pbo := e.pbo.map .fin
  pboUndefined := e.pboUndefined
  neighbourPasses := e.neighbours.map NeighbourRow.pass

def verdict : Verdict := libraryVerdict e.measured

/-- `oos_admission_score`, of a name that passed. -/
def score : Option ℚ :=
  if e.verdict.qualified then some (roundTo 2 (e.discovery.pnl + e.discovery.dailySharpe * 10))
  else none

/-- `windows` of the record: each block with its P&L and trades. -/
def windowTable : List (String × String × ℚ × ℕ) :=
  (e.data.segments.zip e.discovery.windows).map fun w =>
    (isoDay w.1.1, isoDay (w.1.2 - DAY_MS), roundTo 2 w.2.pnl, w.2.trades)

end Evaluation

end PaperTrading.Library
