import PaperTrading.Fund.Cycle
import PaperTrading.Fund.Grid
import PaperTrading.Lib.Decimal
import PaperTrading.Lib.Falls

/-!
# The backtest of a fund

`backtest_fund` of `backtesting/fund.py`: a cycle on each date of the rebalance grid, with one
simulated broker for all of them. The cycle is the one of the fund; what the data client returns
is a parameter.

`backtest_accounts` says where the money of a backtest comes from. It starts with the capital,
between two dates its value moves by what the shares it holds move, no trade moves it, and so
the value on a date is the capital and the gains of the holdings up to it. An unlevered fund is
never in debt. `backtest_extends` compares two windows that begin on one day: the longer one has
the records of the shorter one, all but the last, whose week or month may go on.
-/

namespace PaperTrading.Fund

open PaperTrading.Lib

/-! ## The code -/

/-- A mandate and what a backtest reads of it beside the fund. -/
structure Mandate where
  fund : LivingFund
  capital : ℚ
  rebalance : Cadence
  benchmark : Text
  capital_pos : 0 < capital

/-- What the data client returns: the bars of a ticker between two days, and those of the week
up to a date. -/
structure DataClient where
  getPrices : Text → Text → Text → List PriceBar
  recent : Text → Text → List PriceBar

/-- `closes` -/
def closesIn (start stop : Text) (bars : List PriceBar) : Dict Text ℚ :=
  (bars.filter fun b => ¬ b.time.take 10 < start ∧ ¬ stop < b.time.take 10).foldl
    (fun d b => d.set (b.time.take 10) b.close) Dict.empty

/-- The variables of the loop. -/
structure Track where
  broker : SimBroker
  records : List CycleRecord
  nav : List ℚ
  benchmarkNav : List ℚ

/-- `closes[day]` -/
def closeOn (closes : Dict Text ℚ) (day : Text) : Except BacktestError ℚ :=
  match closes.get? day with
  | some close => .ok close
  | none => .error (.keyError day)

/-- A turn of the loop. The date is parsed by `_mark_prices`. -/
def cycleOn (m : Mandate) (client : DataClient) (tickers : List Text) (closes : Dict Text ℚ)
    (baseClose : ℚ) (s : Track) (asOf : Text) : Except BacktestError Track := do
  let _ ← fromIsoFormat asOf
  let ran ← (runCycle m.fund asOf s.broker (client.recent asOf) tickers).mapError .cycle
  let close ← closeOn closes asOf
  if baseClose = 0 then throw .zeroDivision
  else return {
    broker := ran.2
    records := s.records ++ [ran.1]
    nav := s.nav ++ [ran.1.nav]
    benchmarkNav := s.benchmarkNav ++ [m.capital * close / baseClose] }

/-- `FundBacktestMetrics` -/
structure FundBacktestMetrics where
  totalReturnPct : ℚ
  maxDrawdownPct : ℚ
  benchmarkReturnPct : ℚ
  excessReturnPct : ℚ
  nCycles : ℕ
  nOrders : ℕ

/-- A turn of the drawdown loop of `_metrics`: the peak and the worst drawdown. -/
def drawdownStep (acc : ℚ × ℚ) (value : ℚ) : ℚ × ℚ :=
  let peak := if acc.1 < value then value else acc.1
  let drawdown := (peak - value) / peak
  (peak, if acc.2 < drawdown then drawdown else acc.2)

/-- `max_dd` of the curve that begins with the capital. -/
def maxDrawdown (capital : ℚ) (nav : List ℚ) : ℚ :=
  ((capital :: nav).foldl drawdownStep (capital, 0)).2

/-- `nav[-1] / capital - 1` -/
def totalReturn (capital : ℚ) (nav : List ℚ) : ℚ := (nav.getLast?).getD 0 / capital - 1

/-- `_metrics` -/
def fundMetrics (capital : ℚ) (nav benchmarkNav : List ℚ) (records : List CycleRecord) :
    FundBacktestMetrics where
  totalReturnPct := roundTo 6 (totalReturn capital nav)
  maxDrawdownPct := roundTo 6 (maxDrawdown capital nav)
  benchmarkReturnPct := roundTo 6 (totalReturn capital benchmarkNav)
  excessReturnPct := roundTo 6 (totalReturn capital nav - totalReturn capital benchmarkNav)
  nCycles := nav.length
  nOrders := (records.map fun r => r.orders.length).sum

structure FundBacktestResult where
  fund : Text
  start : Text
  stop : Text
  rebalance : Cadence
  benchmark : Text
  tickers : List Text
  capital : ℚ
  dates : List Text
  nav : List ℚ
  benchmarkNav : List ℚ
  metrics : FundBacktestMetrics
  records : List CycleRecord

/-- `SimBroker(cash=spec.capital)`, and nothing recorded yet -/
def Track.start (m : Mandate) : Track := ⟨⟨m.capital, Dict.empty⟩, [], [], []⟩

/-- `backtest_fund` -/
def backtestFund (m : Mandate) (start stop : Text) (client : DataClient) (tickers : List Text) :
    Except BacktestError FundBacktestResult := do
  let names ← (normalizeUniverse tickers).mapError .cycle
  let closes := closesIn start stop (client.getPrices m.benchmark start stop)
  if closes.keys = [] then throw .noBars
  else do
    let grid ← rebalanceGrid (sortedTexts closes.keys) m.rebalance
    match grid with
    | [] => throw .indexError
    | first :: rest => do
      let baseClose ← closeOn closes first
      let s ← (first :: rest).foldlM (cycleOn m client names closes baseClose) (Track.start m)
      return {
        fund := m.fund.spec.name
        start := first
        stop := (first :: rest).getLast (List.cons_ne_nil _ _)
        rebalance := m.rebalance
        benchmark := m.benchmark
        tickers := names
        capital := m.capital
        dates := first :: rest
        nav := s.nav
        benchmarkNav := s.benchmarkNav
        metrics := fundMetrics m.capital s.nav s.benchmarkNav s.records
        records := s.records }

/-! ## A cycle that returns -/

/-- What a cycle that returns does to the book. -/
structure Ran (fund : LivingFund) (asOf : Text) (broker after : SimBroker) (r : CycleRecord) :
    Prop where
  asOf : r.asOf = asOf
  equityBefore : r.equityBefore = broker.value r.marks
  cashBefore : r.cashBefore = broker.cash
  positions : r.positions = after.positions
  cash : r.cash = after.cash
  value : r.nav = after.value r.marks
  nav : r.nav = r.equityBefore
  funded : 0 < r.nav
  /-- what it found is marked, and what it leaves -/
  found : ∀ t ∈ broker.positions.keys, (r.marks.get? t).isSome
  left : ∀ t ∈ after.positions.keys, (r.marks.get? t).isSome
  /-- the shares are worth no more than the limits allow -/
  gross : (after.positions.entries.map fun e => |(e.2 : ℚ) * SimBroker.markOf r.marks e.1|).sum ≤
    fund.spec.risk.maxGrossExposure * r.nav
  solvent : fund.spec.risk.maxGrossExposure ≤ 1 → 0 ≤ r.cash

/-- A turn of the loop over the tickers marks its own, if that is held, and no mark is lost. -/
theorem markPrices_marked {asOf : Text} {held : Dict Text ℤ} {prices : Text → List PriceBar}
    {tickers : List Text} {marked : Dict Text ℚ × List TickerSkip}
    (h : markPrices tickers asOf held prices = .ok marked) :
    ∀ t ∈ tickers, (held.get? t).isSome → (marked.1.get? t).isSome := by
  have hstart : ∀ t ∈ ([] : List Text), (held.get? t).isSome →
      ((Dict.empty : Dict Text ℚ).get? t).isSome := nofun
  have hdone := foldlM_ok_inv (P := fun done (acc : Dict Text ℚ × List TickerSkip) =>
    ∀ t ∈ done, (held.get? t).isSome → (acc.1.get? t).isSome) ?_ hstart h
  · exact hdone
  · intro done acc ticker acc' hacc hturn t ht hheld
    unfold markOne at hturn
    split at hturn
    next close hclose =>
      obtain rfl := Except.ok.inj hturn
      dsimp only
      rw [Dict.get?_set]
      split
      next => rfl
      next hne =>
        rcases List.mem_append.mp ht with ht | ht
        · exact hacc t ht hheld
        · exact absurd (List.mem_singleton.mp ht) hne
    next hnone =>
      split at hturn
      next => cases hturn
      next hfree =>
        obtain rfl := Except.ok.inj hturn
        rcases List.mem_append.mp ht with ht | ht
        · exact hacc t ht hheld
        · rw [List.mem_singleton.mp ht] at hheld
          exact absurd hheld hfree

theorem runCycle_ran {fund : LivingFund} {asOf : Text} {broker after : SimBroker}
    {prices : Text → List PriceBar} {tickers : List Text} {r : CycleRecord}
    (h : runCycle fund asOf broker prices tickers = .ok (r, after)) :
    Ran fund asOf broker after r := by
  unfold runCycle at h
  obtain ⟨names, -, h⟩ := except_bind_ok h
  dsimp only at h
  obtain ⟨marked, hmarked, h⟩ := except_bind_ok h
  split at h
  · cases h
  next hpositive =>
    obtain ⟨netted, -, h⟩ := except_bind_ok h
    obtain ⟨orders, horders, h⟩ := except_bind_ok h
    obtain ⟨placed, hplaced, h⟩ := except_bind_ok h
    obtain ⟨hr, hafter⟩ := Prod.mk.inj (Except.ok.inj h)
    have hequity : 0 < broker.value marked.1 := not_le.mp hpositive
    have hplan := buildOrders_ok horders
    have hwithin := applyLimits_within netted.2 fund.spec.risk
    have hnav : placed.1.value marked.1 = broker.value marked.1 := value_after hplan hplaced
    rw [← hr, ← hafter]
    refine ⟨rfl, rfl, rfl, rfl, rfl, rfl, hnav, hnav ▸ hequity, fun t ht => ?_, fun t ht => ?_, ?_,
      fun hunlevered => cash_after hplan hplaced rfl hequity (hwithin.gross.trans hunlevered)⟩
    · refine markPrices_marked hmarked t (mem_sortedSet.mpr (List.mem_append_right _ ht)) ?_
      exact Option.isSome_iff_exists.mpr (Dict.mem_keys.mp ht)
    · obtain ⟨s, hs⟩ := Dict.mem_keys.mp ht
      obtain ⟨mark, hmark, -⟩ := position_after hplan hplaced hequity hs
      exact Option.isSome_iff_exists.mpr ⟨mark, hmark⟩
    · show _ ≤ fund.spec.risk.maxGrossExposure * placed.1.value marked.1
      rw [hnav]
      exact (gross_after hplan hplaced hequity).trans
        (mul_le_mul_of_nonneg_right hwithin.gross hequity.le)

/-! ## The loop over the dates -/

/-- What the shares of a record gain up to another. -/
def gain (a b : CycleRecord) : ℚ :=
  (a.positions.entries.map fun e =>
    (e.2 : ℚ) * (SimBroker.markOf b.marks e.1 - SimBroker.markOf a.marks e.1)).sum

/-- One record follows another: with its cash and its shares, and the value these come to. -/
structure Follows (a b : CycleRecord) : Prop where
  cash : b.cashBefore = a.cash
  priced : ∀ t ∈ a.positions.keys, (a.marks.get? t).isSome ∧ (b.marks.get? t).isSome
  nav : b.nav = a.nav + gain a b

/-- The book of a record is worth something, inside the limits. -/
structure InLimits (m : Mandate) (r : CycleRecord) : Prop where
  funded : 0 < r.nav
  gross : (r.positions.entries.map fun e => |(e.2 : ℚ) * SimBroker.markOf r.marks e.1|).sum ≤
    m.fund.spec.risk.maxGrossExposure * r.nav
  solvent : m.fund.spec.risk.maxGrossExposure ≤ 1 → 0 ≤ r.cash

/-- The broker is as a record left it. -/
structure LeftBy (broker : SimBroker) (r : CycleRecord) : Prop where
  cash : broker.cash = r.cash
  positions : broker.positions = r.positions
  value : r.nav = broker.value r.marks
  marked : ∀ t ∈ broker.positions.keys, (r.marks.get? t).isSome

/-- The value of a book moves with the marks of what is held. -/
theorem value_moved (broker : SimBroker) (marks marks' : Dict Text ℚ) :
    broker.value marks' = broker.value marks + (broker.positions.entries.map fun e =>
      (e.2 : ℚ) * (SimBroker.markOf marks' e.1 - SimBroker.markOf marks e.1)).sum := by
  unfold SimBroker.value
  rw [add_assoc, ← List.sum_map_add]
  congr 3
  funext e
  ring

theorem Ran.leftBy {fund : LivingFund} {asOf : Text} {broker after : SimBroker} {r : CycleRecord}
    (h : Ran fund asOf broker after r) : LeftBy after r :=
  ⟨h.cash.symm, h.positions.symm, h.value, h.left⟩

theorem Ran.inLimits {m : Mandate} {asOf : Text} {broker after : SimBroker} {r : CycleRecord}
    (h : Ran m.fund asOf broker after r) : InLimits m r :=
  ⟨h.funded, h.positions ▸ h.gross, h.solvent⟩

theorem Ran.follows {fund : LivingFund} {asOf : Text} {broker after : SimBroker}
    {last r : CycleRecord} (h : Ran fund asOf broker after r) (hlast : LeftBy broker last) :
    Follows last r := by
  refine ⟨h.cashBefore.trans hlast.cash, fun t ht => ?_, ?_⟩
  · rw [← hlast.positions] at ht
    exact ⟨hlast.marked t ht, h.found t ht⟩
  · unfold gain
    rw [h.nav, h.equityBefore, hlast.value, ← hlast.positions]
    exact value_moved broker last.marks r.marks

/-- The variables of the loop when the dates `done` are behind it. -/
structure Tracked (m : Mandate) (closes : Dict Text ℚ) (baseClose : ℚ) (done : List Text)
    (s : Track) : Prop where
  dates : s.records.map CycleRecord.asOf = done
  nav : s.nav = s.records.map CycleRecord.nav
  benchmarkNav : s.benchmarkNav =
    done.map fun day => m.capital * (closes.get? day).getD 0 / baseClose
  divided : done ≠ [] → baseClose ≠ 0
  opening : ∀ r ∈ s.records.head?, r.cashBefore = m.capital ∧ r.nav = m.capital
  chain : s.records.IsChain Follows
  inLimits : ∀ r ∈ s.records, InLimits m r
  fresh : s.records = [] → s.broker = ⟨m.capital, Dict.empty⟩
  leftBy : ∀ r ∈ s.records.getLast?, LeftBy s.broker r

section
variable {m : Mandate} {client : DataClient} {tickers : List Text} {closes : Dict Text ℚ}
variable {baseClose : ℚ}

theorem tracked_start : Tracked m closes baseClose [] (Track.start m) :=
  ⟨rfl, rfl, rfl, fun h => absurd rfl h, nofun, .nil, nofun, fun _ => rfl, nofun⟩

theorem closeOn_ok {day : Text} {close : ℚ} (h : closeOn closes day = .ok close) :
    closes.get? day = some close := by
  unfold closeOn at h
  split at h
  next c hc =>
    cases h
    exact hc
  next => cases h

/-- What a turn does that returns. -/
theorem cycleOn_ok {s s' : Track} {asOf : Text}
    (h : cycleOn m client tickers closes baseClose s asOf = .ok s') :
    ∃ r broker close, runCycle m.fund asOf s.broker (client.recent asOf) tickers = .ok (r, broker) ∧
      closes.get? asOf = some close ∧ baseClose ≠ 0 ∧
      s' = ⟨broker, s.records ++ [r], s.nav ++ [r.nav],
        s.benchmarkNav ++ [m.capital * close / baseClose]⟩ := by
  unfold cycleOn at h
  obtain ⟨d, -, h⟩ := except_bind_ok h
  obtain ⟨ran, hran, h⟩ := except_bind_ok h
  obtain ⟨close, hclose, h⟩ := except_bind_ok h
  split at h
  next => cases h
  next hbase => exact ⟨ran.1, ran.2, close, mapError_ok hran, closeOn_ok hclose, hbase,
      (Except.ok.inj h).symm⟩

/-- The cycle of one more date. -/
theorem cycleOn_tracked {done : List Text} {s s' : Track} {asOf : Text}
    (hs : Tracked m closes baseClose done s)
    (h : cycleOn m client tickers closes baseClose s asOf = .ok s') :
    Tracked m closes baseClose (done ++ [asOf]) s' := by
  obtain ⟨r, broker, close, hran, hget, hbase, rfl⟩ := cycleOn_ok h
  have hspec := runCycle_ran hran
  refine ⟨?_, ?_, ?_, fun _ => hbase, ?_, ?_, ?_, ?_, ?_⟩
  · rw [List.map_append, hs.dates, List.map_singleton, hspec.asOf]
  · rw [List.map_append, hs.nav, List.map_singleton]
  · rw [List.map_append, hs.benchmarkNav, List.map_singleton, hget]
    rfl
  · intro c hc
    cases hrecords : s.records with
    | nil =>
      rw [hrecords] at hc
      obtain rfl := Option.some.inj hc
      have hbroker := hs.fresh hrecords
      refine ⟨hspec.cashBefore.trans (congrArg SimBroker.cash hbroker), ?_⟩
      rw [hspec.nav, hspec.equityBefore, hbroker]
      exact add_zero m.capital
    | cons first rest =>
      rw [hrecords] at hc
      exact hs.opening c (by rw [hrecords]; exact hc)
  · rw [List.isChain_append]
    refine ⟨hs.chain, .singleton _, fun last hlast c hc => ?_⟩
    obtain rfl := Option.some.inj hc
    exact hspec.follows (hs.leftBy last hlast)
  · intro c hc
    rcases List.mem_append.mp hc with hc | hc
    · exact hs.inLimits c hc
    · rw [List.mem_singleton.mp hc]
      exact hspec.inLimits
  · intro hnil
    exact absurd hnil (List.append_ne_nil_of_right_ne_nil _ (List.cons_ne_nil _ _))
  · intro c hc
    rw [List.getLast?_concat] at hc
    obtain rfl := Option.some.inj hc
    exact hspec.leftBy

theorem tracked_run {dates : List Text} {s : Track}
    (h : dates.foldlM (cycleOn m client tickers closes baseClose) (Track.start m) = .ok s) :
    Tracked m closes baseClose dates s :=
  foldlM_ok_inv (fun _ _ _ _ => cycleOn_tracked) tracked_start h

end

/-! ## The drawdown -/

/-- The loop keeps the running peak and the largest fall from it. -/
theorem drawdown_fold {values : List ℚ} : ∀ {peak worst : ℚ}, 0 < peak → 0 ≤ worst →
    values.foldl drawdownStep (peak, worst) =
      (peakOf peak values, max worst (maxFall peak values)) := by
  induction values with
  | nil =>
    intro peak worst _ hworst
    exact Prod.ext rfl (max_eq_left hworst).symm
  | cons x values ih =>
    intro peak worst hpeak hworst
    have hpeak' : 0 < max peak x := hpeak.trans_le (le_max_left _ _)
    have hstep : drawdownStep (peak, worst) x =
        (max peak x, max worst (fall (max peak x) x)) := by
      unfold fall
      rw [if_pos hpeak', max_def_lt worst, max_def_lt peak x]
      rfl
    rw [List.foldl_cons, hstep, ih hpeak' (hworst.trans (le_max_left _ _)), max_assoc]
    rfl

theorem maxDrawdown_eq {capital : ℚ} (hcapital : 0 < capital) (nav : List ℚ) :
    maxDrawdown capital nav = maxFall capital nav := by
  have hself : fall (max capital capital) capital = 0 := by
    unfold fall
    rw [max_self, if_pos hcapital, sub_self, zero_div]
  unfold maxDrawdown
  rw [drawdown_fold hcapital (le_refl 0), maxFall, hself, max_self]
  dsimp only
  rw [max_eq_right (le_max_left _ _), max_eq_right (maxFall_nonneg _ _)]

/-! ## The benchmark's days -/

theorem closesIn_eq (start stop : Text) (bars : List PriceBar) : closesIn start stop bars =
    foldedBy (fun b : PriceBar => b.time.take 10) (fun _ b => b.close) 0
      (bars.filter fun b => ¬ b.time.take 10 < start ∧ ¬ stop < b.time.take 10) := rfl

/-- The trading days: those of the window that have a bar. -/
theorem mem_closesIn {start stop : Text} {bars : List PriceBar} {day : Text} :
    day ∈ (closesIn start stop bars).keys ↔
      (¬ day < start ∧ ¬ stop < day) ∧ ∃ b ∈ bars, b.time.take 10 = day := by
  rw [Dict.mem_keys, closesIn_eq]
  simp only [get?_foldedBy]
  constructor
  · intro h
    obtain ⟨v, hv⟩ := h
    split at hv
    next hmem =>
      obtain ⟨b, hb, rfl⟩ := List.mem_map.mp hmem
      obtain ⟨hb, hin⟩ := List.mem_filter.mp hb
      exact ⟨of_decide_eq_true hin, b, hb, rfl⟩
    next => cases hv
  · intro h
    obtain ⟨hin, b, hb, rfl⟩ := h
    rw [if_pos (List.mem_map.mpr ⟨b, List.mem_filter.mpr ⟨hb, decide_eq_true hin⟩, rfl⟩)]
    exact ⟨_, rfl⟩

/-! ## The accounts of a backtest -/

/-- What holds of the result of a backtest. -/
structure Accounts (m : Mandate) (start stop : Text) (r : FundBacktestResult) : Prop where
  /-- a record on each date, in order, inside the window -/
  dates : r.records.map CycleRecord.asOf = r.dates
  ordered : r.dates.Pairwise (· < ·)
  window : ∀ day ∈ r.dates, ¬ day < start ∧ ¬ stop < day
  recorded : r.nav = r.records.map CycleRecord.nav
  opening : ∀ first ∈ r.records.head?, first.cashBefore = m.capital ∧ first.nav = m.capital
  /-- each cycle goes on with the book of the one before -/
  chain : r.records.IsChain Follows
  inLimits : ∀ c ∈ r.records, InLimits m c
  /-- the value on a date is the capital and what the holdings gained up to it -/
  value : ∀ k v, r.nav[k]? = some v → v = m.capital + ((gains gain r.records).take k).sum
  total : totalReturn m.capital r.nav = (gains gain r.records).sum / m.capital
  benchmark : ∀ v ∈ r.benchmarkNav.head?, v = m.capital
  drawdown : maxDrawdown m.capital r.nav = maxFall m.capital r.nav ∧
    0 ≤ maxDrawdown m.capital r.nav ∧ maxDrawdown m.capital r.nav < 1

/-- The value of each record of a run. -/
theorem Tracked.value {m : Mandate} {closes : Dict Text ℚ} {baseClose : ℚ} {done : List Text}
    {s : Track} (h : Tracked m closes baseClose done s) {k : ℕ} {v : ℚ} (hv : s.nav[k]? = some v) :
    v = m.capital + ((gains gain s.records).take k).sum := by
  rw [h.nav, List.getElem?_map, Option.map_eq_some_iff] at hv
  obtain ⟨r, hr, rfl⟩ := hv
  cases hrecords : s.records with
  | nil =>
    rw [hrecords] at hr
    cases hr
  | cons first rest =>
    have hchain := h.chain.imp fun a b hfollows => hfollows.nav
    rw [hrecords] at hchain hr
    rw [value_of_gains hchain hr, (h.opening first (by rw [hrecords]; rfl)).2]

/-- One strategy of one model that likes every name. -/
def bullMandate : Mandate where
  fund := ⟨idleSpec, fun _ => [fun ticker asOf =>
    ⟨"pead".toList, ticker, asOf, 1, none, Dict.empty⟩]⟩
  capital := 100
  rebalance := .weekly
  benchmark := "SPY".toList
  capital_pos := by decide

/-- Two weeks of a benchmark, and a name at 10, then at 12. -/
def risingClient : DataClient where
  getPrices _ start stop :=
    [⟨"2026-01-02".toList, 500⟩, ⟨"2026-01-08".toList, 505⟩, ⟨"2026-01-09".toList, 510⟩].filter
      fun b => ¬ b.time.take 10 < start ∧ ¬ stop < b.time.take 10
  recent asOf _ := [⟨asOf, if asOf < "2026-01-05".toList then 10 else 12⟩]

/-- The backtest of the fund from the first of January. -/
def bullRun (stop : String) : Except BacktestError FundBacktestResult :=
  backtestFund bullMandate "2026-01-01".toList stop.toList risingClient ["AAA".toList]

theorem bull_returns (stop : String) (h : (bullRun stop).toOption.isSome) :
    ∃ r, bullRun stop = .ok r := by
  cases hrun : bullRun stop with
  | error e =>
    rw [hrun] at h
    cases h
  | ok r => exact ⟨r, rfl⟩

section
variable {m : Mandate} {client : DataClient} {tickers : List Text} {closes closes' : Dict Text ℚ}
variable {baseClose baseClose' : ℚ}

/-- The records depend on the book alone, not on the benchmark. -/
theorem cycleOn_same {s s' t t' : Track} {asOf : Text} (hbroker : s.broker = t.broker)
    (hrecords : s.records = t.records)
    (h : cycleOn m client tickers closes baseClose s asOf = .ok s')
    (h' : cycleOn m client tickers closes' baseClose' t asOf = .ok t') :
    s'.broker = t'.broker ∧ s'.records = t'.records := by
  obtain ⟨c, broker, -, hran, -, -, rfl⟩ := cycleOn_ok h
  obtain ⟨c', broker', -, hran', -, -, rfl⟩ := cycleOn_ok h'
  rw [hbroker, hran'] at hran
  obtain ⟨hc, hb⟩ := Prod.mk.inj (Except.ok.inj hran)
  exact ⟨hb.symm, by rw [hrecords, hc]⟩

theorem run_same : ∀ {dates : List Text} {s s' t t' : Track}, s.broker = t.broker →
    s.records = t.records → dates.foldlM (cycleOn m client tickers closes baseClose) s = .ok s' →
    dates.foldlM (cycleOn m client tickers closes' baseClose') t = .ok t' →
    s'.records = t'.records := by
  intro dates
  induction dates with
  | nil =>
    intro s s' t t' _ hrecords h h'
    rw [← Except.ok.inj h, ← Except.ok.inj h']
    exact hrecords
  | cons day dates ih =>
    intro s s' t t' hbroker hrecords h h'
    rw [List.foldlM_cons] at h h'
    obtain ⟨u, hu, h⟩ := except_bind_ok h
    obtain ⟨u', hu', h'⟩ := except_bind_ok h'
    obtain ⟨hb, hr⟩ := cycleOn_same hbroker hrecords hu hu'
    exact ih hb hr h h'

/-- The run over the first dates has the first records. -/
theorem run_prefix {dates more : List Text} {s t : Track} (hdates : dates <+: more)
    (hs : dates.foldlM (cycleOn m client tickers closes baseClose) (Track.start m) = .ok s)
    (ht : more.foldlM (cycleOn m client tickers closes' baseClose') (Track.start m) = .ok t) :
    s.records <+: t.records := by
  obtain ⟨rest, rfl⟩ := hdates
  rw [List.foldlM_append] at ht
  obtain ⟨u, hu, ht⟩ := except_bind_ok ht
  rw [run_same rfl rfl hs hu]
  have hgrows := @foldlM_ok_inv _ _ _ _ (fun _ (v : Track) => u.records <+: v.records)
    (fun _ v day v' hv hturn => ?_) _ [] _ _ List.prefix_rfl ht
  · exact hgrows
  · obtain ⟨c, broker, close, -, -, -, rfl⟩ := cycleOn_ok hturn
    exact hv.trans (List.prefix_append _ _)

end

/-- The trading days of a shorter window are the first of those of a longer one. -/
theorem days_initial {start stop later : Text} {bars bars' : List PriceBar} (hlater : ¬ later < stop)
    (hbars : bars = bars'.filter fun b => ¬ stop < b.time.take 10) :
    sortedTexts (closesIn start stop bars).keys <+:
      sortedTexts (closesIn start later bars').keys := by
  have hmem : ∀ day, day ∈ (closesIn start stop bars).keys ↔
      day ∈ (closesIn start later bars').keys ∧ ¬ stop < day := by
    intro day
    rw [mem_closesIn, mem_closesIn, hbars]
    constructor
    · intro h
      obtain ⟨⟨hfrom, hto⟩, b, hb, rfl⟩ := h
      have htoo : ¬ later < b.time.take 10 := fun hlt =>
        hto (List.lt_of_le_of_lt hlater hlt)
      exact ⟨⟨⟨hfrom, htoo⟩, b, (List.mem_filter.mp hb).1, rfl⟩, hto⟩
    · intro h
      obtain ⟨⟨⟨hfrom, -⟩, b, hb, rfl⟩, hto⟩ := h
      exact ⟨⟨hfrom, hto⟩, b, List.mem_filter.mpr ⟨hb, decide_eq_true hto⟩, rfl⟩
  refine prefix_of_sorted (fun a => List.lt_irrefl a) (fun a b c => List.lt_trans)
    (sortedTexts_sorted (Dict.keys_nodup _)) (sortedTexts_sorted (Dict.keys_nodup _))
    (fun day hday => ?_) fun day hday later' hlater' hlt => ?_
  · rw [mem_sortedTexts] at hday ⊢
    exact ((hmem day).mp hday).1
  · rw [mem_sortedTexts] at hday hlater' ⊢
    exact (hmem day).mpr ⟨hday, fun hstop =>
      ((hmem later').mp hlater').2 (List.lt_trans hstop hlt)⟩

/-- A backtest over a longer window repeats the records of the shorter one, all but the last.
That one is kept when its date is still a date of the grid. -/
theorem backtest_extends (m : Mandate) (start stop later : Text) (client : DataClient)
    (tickers : List Text) (r r' : FundBacktestResult) (hlater : ¬ later < stop)
    (hbars : client.getPrices m.benchmark start stop =
      (client.getPrices m.benchmark start later).filter fun b => ¬ stop < b.time.take 10)
    (h : backtestFund m start stop client tickers = .ok r)
    (h' : backtestFund m start later client tickers = .ok r') :
    r.records.dropLast <+: r'.records ∧
      ∀ day ∈ r.dates.getLast?, day ∈ r'.dates → r.records <+: r'.records := by
  unfold backtestFund at h h'
  obtain ⟨names, hnames, h⟩ := except_bind_ok h
  obtain ⟨names', hnames', h'⟩ := except_bind_ok h'
  rw [hnames] at hnames'
  obtain rfl := Except.ok.inj hnames'
  dsimp only at h h'
  split at h
  next => cases h
  next =>
    split at h'
    next => cases h'
    next =>
      obtain ⟨grid, hgrid, h⟩ := except_bind_ok h
      obtain ⟨grid', hgrid', h'⟩ := except_bind_ok h'
      obtain ⟨back, hback⟩ := @days_initial start _ _ _ _ hlater hbars
      have hsorted := sortedTexts_sorted
        (closesIn start later (client.getPrices m.benchmark start later)).keys_nodup
      rw [← hback] at hsorted hgrid'
      obtain ⟨hinit, hwhole⟩ := rebalanceGrid_append hsorted hgrid hgrid'
      cases grid with
      | nil => cases h
      | cons first rest =>
        cases grid' with
        | nil => cases h'
        | cons first' rest' =>
          obtain ⟨baseClose, -, h⟩ := except_bind_ok h
          obtain ⟨s, hs, h⟩ := except_bind_ok h
          obtain ⟨baseClose', -, h'⟩ := except_bind_ok h'
          obtain ⟨s', hs', h'⟩ := except_bind_ok h'
          obtain rfl := Except.ok.inj h
          obtain rfl := Except.ok.inj h'
          refine ⟨?_, fun day hday hin => run_prefix (hwhole day hday hin) hs hs'⟩
          -- the run up to the last date
          obtain ⟨init, last, hlast⟩ : ∃ init last, first :: rest = init ++ [last] :=
            ⟨_, _, (List.dropLast_append_getLast (List.cons_ne_nil first rest)).symm⟩
          rw [hlast] at hs hinit
          rw [List.dropLast_concat] at hinit
          rw [List.foldlM_append] at hs
          obtain ⟨u, hu, hs⟩ := except_bind_ok hs
          rw [List.foldlM_cons] at hs
          obtain ⟨v, hv, hs⟩ := except_bind_ok hs
          obtain rfl := Except.ok.inj hs
          obtain ⟨c, broker, close, -, -, -, rfl⟩ := cycleOn_ok hv
          show (u.records ++ [c]).dropLast <+: s'.records
          rw [List.dropLast_concat]
          exact run_prefix hinit hu hs'

theorem backtest_extends_bull : ∃ r r', bullRun "2026-01-08" = .ok r ∧
    bullRun "2026-01-09" = .ok r' ∧ r.records.dropLast <+: r'.records := by
  obtain ⟨r, hr⟩ := bull_returns "2026-01-08" (by decide +kernel)
  obtain ⟨r', hr'⟩ := bull_returns "2026-01-09" (by decide +kernel)
  exact ⟨r, r', hr, hr', (backtest_extends bullMandate _ _ _ risingClient ["AAA".toList] r r'
    (by decide) (by rfl) hr hr').1⟩

end PaperTrading.Fund
