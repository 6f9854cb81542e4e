import PaperTrading.Gate.GateV4
import PaperTrading.Library.Evaluate

/-!
# The sealed holdout

Two tapes that agree before the holdout are evaluated to the same discovery figures:
`discovery_sealed`, once `evaluateLibrary_ok` has said which book each figure comes from.
What a name is neighboured by is not such a figure: a neighbour passes on its profits in
both spans, so its `pass` may change with the holdout (`neighbours_read_holdout`).
-/

namespace PaperTrading.Library

open Gate (Stats Moments returnMoments deflatedSharpeRatio farStats)
open PaperTrading.Lib
open Signals (HOLDOUT_START_MS)

/-! ## The figures before the holdout -/

/-- The columns of a neighbour's row that stop before the holdout. -/
structure DiscoveryColumns where
  name : Text
  params : Params
  dailySharpe : ℚ
  trades : ℕ
  pnl : ℚ
  stressOosPnl : ℚ
  windows : List ℚ
deriving DecidableEq

def NeighbourRow.discoveryColumns (r : NeighbourRow) : DiscoveryColumns where
  name := r.name
  params := r.params
  dailySharpe := r.dailySharpe
  trades := r.trades
  pnl := r.pnl
  stressOosPnl := r.stressOosPnl
  windows := r.windows

/-- What an evaluation says of the days before the holdout: the books, the segment table,
the neighbours, the figures of the deflated Sharpe ratio and of overfitting, and the parts
of the verdict that are read off them. -/
structure DiscoverySide where
  scoreIndex : ℕ
  segments : List (ℤ × ℤ)
  windowTable : List (String × String × ℚ × ℕ)
  discovery : SpanMetrics
  stressed : SpanMetrics
  bh : SpanMetrics
  smaStack : SpanMetrics
  stressedBh : SpanMetrics
  neighbours : List DiscoveryColumns
  trials : ℕ
  moments : Option Moments
  dsr : Option ℚ
  pbo : Option ℚ
  pboUndefined : Option String
  windowsOk : Bool
  oosPnlPass : Bool
  dsrPass : Bool
  pboPass : Bool

def Evaluation.discoverySide (e : Evaluation) : DiscoverySide where
  scoreIndex := e.data.scoreIndex
  segments := e.data.segments
  windowTable := e.windowTable
  discovery := e.discovery
  stressed := e.stressed
  bh := e.bh
  smaStack := e.smaStack
  stressedBh := e.stressedBh
  neighbours := e.neighbours.map NeighbourRow.discoveryColumns
  trials := e.trials
  moments := e.moments
  dsr := e.dsr
  pbo := e.pbo
  pboUndefined := e.pboUndefined
  windowsOk := e.windowsOk
  oosPnlPass := e.verdict.oosPnlPass
  dsrPass := e.verdict.dsrPass
  pboPass := e.verdict.pboPass

/-! ## The data -/

/-- Two evaluations' data, the same up to the holdout. -/
structure LibraryData.SameDiscovery (d₁ d₂ : LibraryData) : Prop where
  discovery : d₁.discovery = d₂.discovery
  scoreIndex : d₁.scoreIndex = d₂.scoreIndex
  segments : d₁.segments = d₂.segments

/-- The discovery days, the first scored day and the blocks come from the cut. -/
theorem buildLibraryData_ok {grid : List LibraryStrategy} {full : List Day} {d : LibraryData}
    (h : buildLibraryData grid full = .ok d) :
    d.discovery = before full HOLDOUT_START_MS ∧
      libraryScoreIndex grid d.discovery = .ok d.scoreIndex ∧
      tileBlocks (tsAt d.discovery d.scoreIndex) HOLDOUT_START_MS = .ok d.segments := by
  unfold buildLibraryData at h
  obtain ⟨_, -, h⟩ := except_bind_ok h
  dsimp only at h
  split at h
  · cases h
  · split at h
    · cases h
    · obtain ⟨scoreIndex, hindex, h⟩ := except_bind_ok h
      obtain ⟨segments, hsegments, h⟩ := except_bind_ok h
      obtain rfl := Except.ok.inj h
      exact ⟨rfl, hindex, hsegments⟩

theorem sameDiscovery_of_cut {grid : List LibraryStrategy} {full₁ full₂ : List Day}
    {d₁ d₂ : LibraryData} (hcut : before full₁ HOLDOUT_START_MS = before full₂ HOLDOUT_START_MS)
    (h₁ : buildLibraryData grid full₁ = .ok d₁) (h₂ : buildLibraryData grid full₂ = .ok d₂) :
    d₁.SameDiscovery d₂ := by
  obtain ⟨hdays₁, hindex₁, hsegments₁⟩ := buildLibraryData_ok h₁
  obtain ⟨hdays₂, hindex₂, hsegments₂⟩ := buildLibraryData_ok h₂
  have hdays : d₁.discovery = d₂.discovery := hdays₁.trans (hcut.trans hdays₂.symm)
  rw [hdays] at hindex₁ hsegments₁
  have hindex : d₁.scoreIndex = d₂.scoreIndex := Except.ok.inj (hindex₁.symm.trans hindex₂)
  rw [hindex] at hsegments₁
  exact ⟨hdays, hindex, Except.ok.inj (hsegments₁.symm.trans hsegments₂)⟩

section
variable {stats : Stats} {d₁ d₂ : LibraryData} (hsame : d₁.SameDiscovery d₂)
include hsame

theorem discoveryMetrics_congr (s : LibraryStrategy) (costs : Costs) :
    discoveryMetrics stats d₁ s costs = discoveryMetrics stats d₂ s costs := by
  unfold discoveryMetrics
  rw [hsame.discovery, hsame.scoreIndex, hsame.segments]

theorem discoveryBenchmark_congr (which : Benchmark) (costs : Costs) :
    discoveryBenchmark stats d₁ which costs = discoveryBenchmark stats d₂ which costs := by
  unfold discoveryBenchmark
  rw [hsame.discovery, hsame.scoreIndex, hsame.segments]

theorem blocksTile_congr : blocksTile d₁ = blocksTile d₂ := by
  unfold blocksTile
  rw [hsame.discovery, hsame.scoreIndex, hsame.segments]

end

/-! ## Which book a figure comes from -/

section
variable {stats : Stats} {lib : Catalog} {configured : CatalogStrategy → Params → LibraryStrategy}
variable {data d₁ d₂ : LibraryData} {name : Text} {nTrials : Option ℕ}

/-- A record, figure by figure. -/
structure Evaluated (stats : Stats) (lib : Catalog)
    (configured : CatalogStrategy → Params → LibraryStrategy) (data : LibraryData)
    (nTrials : Option ℕ) (s : CatalogStrategy) (params : Params) (names : List Text)
    (e : Evaluation) : Prop where
  ofData : e.data = data
  trials : nTrials.elim (lib.libraryTrialCount.mapError EvaluateError.name) .ok = .ok e.trials
  discovery : discoveryMetrics stats data (configured s params) paperCosts = .ok e.discovery
  stressed : discoveryMetrics stats data (configured s params) stressCosts = .ok e.stressed
  bh : discoveryBenchmark stats data .bh paperCosts = .ok e.bh
  smaStack : discoveryBenchmark stats data .smaStack paperCosts = .ok e.smaStack
  stressedBh : discoveryBenchmark stats data .bh stressCosts = .ok e.stressedBh
  neighbours : names.mapM (evaluateNeighbour stats lib (configured s) data) = .ok e.neighbours
  moments : e.moments = returnMoments stats e.discovery.returns
  dsr : e.dsr = e.moments.map fun m => deflatedSharpeRatio stats m e.trials
  pbo : (e.pbo, e.pboUndefined) =
    pboOf stats (pboMatrix e.discovery e.neighbours) e.discovery.windows.length

theorem evaluateLibrary_ok {e : Evaluation}
    (h : evaluateLibrary stats lib configured data name nTrials = .ok e) :
    ∃ s params names, lib.parseVariant name = .ok (s, params) ∧
      lib.neighbourNames name = .ok names ∧
      Evaluated stats lib configured data nTrials s params names e := by
  unfold evaluateLibrary at h
  obtain ⟨variant, hvariant, h⟩ := except_bind_ok h
  obtain ⟨trials, htrials, h⟩ := except_bind_ok h
  obtain ⟨disc, hdisc, h⟩ := except_bind_ok h
  obtain ⟨bh, hbh, h⟩ := except_bind_ok h
  obtain ⟨sma, hsma, h⟩ := except_bind_ok h
  obtain ⟨hold, -, h⟩ := except_bind_ok h
  obtain ⟨holdBh, -, h⟩ := except_bind_ok h
  obtain ⟨holdSma, -, h⟩ := except_bind_ok h
  obtain ⟨stressed, hstressed, h⟩ := except_bind_ok h
  obtain ⟨stressedHold, -, h⟩ := except_bind_ok h
  obtain ⟨stressedBh, hstressedBh, h⟩ := except_bind_ok h
  obtain ⟨names, hnames, h⟩ := except_bind_ok h
  obtain ⟨neighbours, hneighbours, h⟩ := except_bind_ok h
  obtain rfl := Except.ok.inj h
  exact ⟨variant.1, variant.2, names, mapError_ok hvariant, mapError_ok hnames,
    { ofData := rfl, trials := htrials, discovery := hdisc, stressed := hstressed, bh := hbh
      smaStack := hsma, stressedBh := hstressedBh, neighbours := hneighbours, moments := rfl
      dsr := rfl, pbo := rfl }⟩

/-- The row of a neighbour, up to the holdout. -/
theorem evaluateNeighbour_columns (hsame : d₁.SameDiscovery d₂)
    {strategyOf : Params → LibraryStrategy} {r₁ r₂ : NeighbourRow}
    (h₁ : evaluateNeighbour stats lib strategyOf d₁ name = .ok r₁)
    (h₂ : evaluateNeighbour stats lib strategyOf d₂ name = .ok r₂) :
    r₁.discoveryColumns = r₂.discoveryColumns := by
  unfold evaluateNeighbour at h₁ h₂
  obtain ⟨v₁, hv₁, h₁⟩ := except_bind_ok h₁
  obtain ⟨m₁, hm₁, h₁⟩ := except_bind_ok h₁
  obtain ⟨_, -, h₁⟩ := except_bind_ok h₁
  obtain ⟨sm₁, hsm₁, h₁⟩ := except_bind_ok h₁
  obtain ⟨_, -, h₁⟩ := except_bind_ok h₁
  obtain ⟨v₂, hv₂, h₂⟩ := except_bind_ok h₂
  obtain ⟨m₂, hm₂, h₂⟩ := except_bind_ok h₂
  obtain ⟨_, -, h₂⟩ := except_bind_ok h₂
  obtain ⟨sm₂, hsm₂, h₂⟩ := except_bind_ok h₂
  obtain ⟨_, -, h₂⟩ := except_bind_ok h₂
  obtain rfl : v₁ = v₂ := Except.ok.inj (hv₁.symm.trans hv₂)
  rw [discoveryMetrics_congr hsame] at hm₁ hsm₁
  obtain rfl := Except.ok.inj (hm₁.symm.trans hm₂)
  obtain rfl := Except.ok.inj (hsm₁.symm.trans hsm₂)
  obtain rfl := Except.ok.inj h₁
  obtain rfl := Except.ok.inj h₂
  rfl

/-! ## The same figures -/

theorem windows_eq {l₁ l₂ : List NeighbourRow}
    (h : l₁.map NeighbourRow.discoveryColumns = l₂.map NeighbourRow.discoveryColumns) :
    l₁.map NeighbourRow.windows = l₂.map NeighbourRow.windows := by
  have hwindows := congrArg (List.map DiscoveryColumns.windows) h
  rw [List.map_map, List.map_map] at hwindows
  exact hwindows

/-- The parts of the verdict that read no holdout. -/
theorem verdict_congr_discovery {e₁ e₂ : Evaluation} (hdiscovery : e₁.discovery = e₂.discovery)
    (hdsr : e₁.dsr = e₂.dsr) (hpbo : (e₁.pbo, e₁.pboUndefined) = (e₂.pbo, e₂.pboUndefined)) :
    e₁.verdict.oosPnlPass = e₂.verdict.oosPnlPass ∧ e₁.verdict.dsrPass = e₂.verdict.dsrPass ∧
      e₁.verdict.pboPass = e₂.verdict.pboPass := by
  obtain ⟨hpbo, hundefined⟩ := Prod.mk.inj hpbo
  refine ⟨?_, ?_, ?_⟩
  · show Flt.lt (.fin 0) (.fin (bookPnl e₁.discovery)) = Flt.lt (.fin 0) (.fin (bookPnl e₂.discovery))
    rw [hdiscovery]
  · show e₁.measured.dsrOk = e₂.measured.dsrOk
    unfold Measured.dsrOk Evaluation.measured
    rw [hdsr]
  · show e₁.measured.pboOk = e₂.measured.pboOk
    unfold Measured.pboOk Measured.pboSaid Evaluation.measured
    rw [hpbo, hundefined]

theorem Evaluated.discoverySide_eq {s : CatalogStrategy} {params : Params} {names : List Text}
    {e₁ e₂ : Evaluation} (hsame : d₁.SameDiscovery d₂)
    (h₁ : Evaluated stats lib configured d₁ nTrials s params names e₁)
    (h₂ : Evaluated stats lib configured d₂ nTrials s params names e₂) :
    e₁.discoverySide = e₂.discoverySide := by
  have hdata : e₁.data.SameDiscovery e₂.data := h₁.ofData ▸ h₂.ofData ▸ hsame
  have htrials : e₁.trials = e₂.trials := Except.ok.inj (h₁.trials.symm.trans h₂.trials)
  have hbook : ∀ {strategy costs m₁ m₂}, discoveryMetrics stats d₁ strategy costs = .ok m₁ →
      discoveryMetrics stats d₂ strategy costs = .ok m₂ → m₁ = m₂ := fun hm₁ hm₂ =>
    Except.ok.inj (hm₁.symm.trans ((discoveryMetrics_congr hsame _ _).trans hm₂))
  have hbench : ∀ {which costs m₁ m₂}, discoveryBenchmark stats d₁ which costs = .ok m₁ →
      discoveryBenchmark stats d₂ which costs = .ok m₂ → m₁ = m₂ := fun hm₁ hm₂ =>
    Except.ok.inj (hm₁.symm.trans ((discoveryBenchmark_congr hsame _ _).trans hm₂))
  have hdiscovery := hbook h₁.discovery h₂.discovery
  have hneighbours : e₁.neighbours.map NeighbourRow.discoveryColumns =
      e₂.neighbours.map NeighbourRow.discoveryColumns :=
    mapM_map_eq (fun _ _ _ _ => evaluateNeighbour_columns hsame) h₁.neighbours h₂.neighbours
  have hmoments : e₁.moments = e₂.moments := by rw [h₁.moments, h₂.moments, hdiscovery]
  have hdsr : e₁.dsr = e₂.dsr := by rw [h₁.dsr, h₂.dsr, hmoments, htrials]
  have hpbo : (e₁.pbo, e₁.pboUndefined) = (e₂.pbo, e₂.pboUndefined) := by
    rw [h₁.pbo, h₂.pbo, pboMatrix, pboMatrix, hdiscovery, windows_eq hneighbours]
  obtain ⟨hprofit, hdsrPass, hpboPass⟩ := verdict_congr_discovery hdiscovery hdsr hpbo
  obtain ⟨hpbo, hundefined⟩ := Prod.mk.inj hpbo
  simp only [Evaluation.discoverySide, Evaluation.windowTable, Evaluation.windowsOk,
    hdata.scoreIndex, hdata.segments, blocksTile_congr hdata, hdiscovery,
    hbook h₁.stressed h₂.stressed, hbench h₁.bh h₂.bh, hbench h₁.smaStack h₂.smaStack,
    hbench h₁.stressedBh h₂.stressedBh, hneighbours, htrials, hmoments, hdsr, hpbo, hundefined,
    hprofit, hdsrPass, hpboPass]

end

/-- **The holdout is sealed off the discovery figures.** Whatever two tapes hold from the
holdout on, if they agree before it and both are evaluated, the books before the holdout,
the segment table, the neighbours' columns, the deflated Sharpe ratio and the probability of
overfitting are the same. -/
theorem discovery_sealed (stats : Stats) (lib : Catalog)
    (configured : CatalogStrategy → Params → LibraryStrategy) (name : Text) (nTrials : Option ℕ)
    {full₁ full₂ : List Day} {e₁ e₂ : Evaluation}
    (hcut : before full₁ HOLDOUT_START_MS = before full₂ HOLDOUT_START_MS)
    (h₁ : evaluateTape stats lib configured full₁ name nTrials = .ok e₁)
    (h₂ : evaluateTape stats lib configured full₂ name nTrials = .ok e₂) :
    e₁.discoverySide = e₂.discoverySide := by
  unfold evaluateTape at h₁ h₂
  obtain ⟨d₁, hd₁, h₁⟩ := except_bind_ok h₁
  obtain ⟨d₂, hd₂, h₂⟩ := except_bind_ok h₂
  obtain ⟨s₁, params₁, names₁, hvariant₁, hnames₁, he₁⟩ := evaluateLibrary_ok h₁
  obtain ⟨s₂, params₂, names₂, hvariant₂, hnames₂, he₂⟩ := evaluateLibrary_ok h₂
  obtain ⟨rfl, rfl⟩ := Prod.mk.inj (Except.ok.inj (hvariant₁.symm.trans hvariant₂))
  obtain rfl := Except.ok.inj (hnames₁.symm.trans hnames₂)
  exact he₁.discoverySide_eq (sameDiscovery_of_cut hcut hd₁ hd₂) he₂

/-! ## What reads the holdout -/

/-- `_tsmom_weekly` with its weeks as a parameter. -/
def weeklyMomentum (weeks : ℕ) : LibraryStrategy :=
  { tsmom1w with
    signal := tsmomWeekly weeks
    signalReady := fun bars => evalReady bars weeks
    signal_length := fun bars => by rw [tsmomWeekly, holdBetween_length, List.length_range]
    ready_length := evalReady_length weeks }

/-- The key and the one parameter of `tsmom1w`. -/
def weeklyNames : CatalogStrategy where
  key := "tsmom1w".toList
  params := [⟨"weeks".toList, 1, [2, 3]⟩]
  distinct := by decide

def weeklyCatalog : Catalog where
  strategies := [weeklyNames]
  keys_nodup := by decide
  keys_plain := by decide

def weeklyConfigured (_ : CatalogStrategy) (p : Params) : LibraryStrategy :=
  weeklyMomentum ((p.get? "weeks".toList).getD 0)

/-- A day `k` days after the start of the holdout, at one price. -/
def flatDay (k : ℤ) (price : ℚ) : Day where
  ts := HOLDOUT_START_MS + k * DAY_MS
  open_ := price
  high := price
  low := price
  close := price

/-- The listing, five Sundays and the day before the holdout, at rising prices; then the
first two days of the holdout and its last. -/
def sparseTape (second last : ℚ) : List Day :=
  [⟨LIBRARY_TAPE_START_MS, 90, 90, 90, 90⟩, flatDay (-31) 100, flatDay (-24) 101,
    flatDay (-17) 102, flatDay (-10) 103, flatDay (-3) 104, flatDay (-1) 105, flatDay 0 105,
    flatDay 1 second, flatDay 364 last]

/-- One week, evaluated on a sparse tape. -/
def evaluateSparse (second last : ℚ) : Except EvaluateError Evaluation :=
  evaluateTape farStats weeklyCatalog weeklyConfigured (sparseTape second last)
    "lib.tsmom1w".toList none

/-- The neighbours pass on a rising holdout and fail on a falling one. -/
theorem sparse_passes :
    (evaluateSparse 110 115).toOption.map (fun e => e.neighbours.map NeighbourRow.pass) =
        some [true, true] ∧
      (evaluateSparse 104 103).toOption.map (fun e => e.neighbours.map NeighbourRow.pass) =
        some [false, false] := by
  decide +kernel

theorem sparse_evaluated : ∃ e₁ e₂, evaluateSparse 110 115 = .ok e₁ ∧
    evaluateSparse 104 103 = .ok e₂ ∧ e₁.neighbours.map NeighbourRow.pass = [true, true] ∧
      e₂.neighbours.map NeighbourRow.pass = [false, false] := by
  obtain ⟨hup, hdown⟩ := sparse_passes
  cases h₁ : evaluateSparse 110 115 with
  | error e =>
    rw [h₁] at hup
    cases hup
  | ok e₁ =>
    cases h₂ : evaluateSparse 104 103 with
    | error e =>
      rw [h₂] at hdown
      cases hdown
    | ok e₂ =>
      rw [h₁] at hup
      rw [h₂] at hdown
      exact ⟨e₁, e₂, rfl, rfl, Option.some.inj hup, Option.some.inj hdown⟩

theorem sparse_cut : before (sparseTape 110 115) HOLDOUT_START_MS =
    before (sparseTape 104 103) HOLDOUT_START_MS := by
  decide +kernel

/-- Two sparse tapes, evaluated to the same discovery figures. -/
theorem discovery_sealed_sparse : ∃ e₁ e₂, evaluateSparse 110 115 = .ok e₁ ∧
    evaluateSparse 104 103 = .ok e₂ ∧ e₁.discoverySide = e₂.discoverySide := by
  obtain ⟨e₁, e₂, h₁, h₂, -⟩ := sparse_evaluated
  exact ⟨e₁, e₂, h₁, h₂,
    discovery_sealed farStats weeklyCatalog weeklyConfigured _ none sparse_cut h₁ h₂⟩

/-- Whether its neighbours pass is not decided before the holdout. -/
theorem neighbours_read_holdout : ¬ ∀ full₁ full₂ e₁ e₂,
    before full₁ HOLDOUT_START_MS = before full₂ HOLDOUT_START_MS →
    evaluateTape farStats weeklyCatalog weeklyConfigured full₁ "lib.tsmom1w".toList none = .ok e₁ →
    evaluateTape farStats weeklyCatalog weeklyConfigured full₂ "lib.tsmom1w".toList none = .ok e₂ →
    e₁.discoverySide = e₂.discoverySide ∧
      e₁.neighbours.map NeighbourRow.pass = e₂.neighbours.map NeighbourRow.pass := by
  intro h
  obtain ⟨e₁, e₂, h₁, h₂, hpass₁, hpass₂⟩ := sparse_evaluated
  have hpass := (h _ _ e₁ e₂ sparse_cut h₁ h₂).2
  rw [hpass₁, hpass₂] at hpass
  cases hpass

end PaperTrading.Library
