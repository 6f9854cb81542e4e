import PaperTrading.Backtest.Engine

/-!
# The equity curve in the order of settlement

The curve of `run_alpha` adds a trade where it was entered, not where it was closed. The two
orders differ when one ticker has fewer trading days than another, so that a position of it
stays open longer: `late_settlement` has a curve whose first point is no equity the account
ever had, and a drawdown that never was.

`settlement_order_iff` says when the curve is that of the settled equity: exactly when no
trade is entered before one of another ticker and settled after it. The trades of one
ticker never overlap.
-/

namespace PaperTrading.Backtest.Engine

open PaperTrading.Lib

section
variable {δ M : Type} [LinearOrder δ]

/-! ## One ticker -/

namespace Run

variable (r : Run δ M) (ticker : String)

theorem allDays_sorted : (r.allDays ticker).Pairwise (· < ·) := by
  have hsorted : (r.allDays ticker).Pairwise (· ≤ ·) := List.pairwise_insertionSort _ _
  have hnodup : (r.allDays ticker).Nodup :=
    (List.perm_insertionSort _ _).nodup_iff.mpr (Dict.keys_nodup _)
  exact (hsorted.and hnodup).imp fun h => lt_of_le_of_ne h.1 h.2

theorem grid_sorted : (r.grid ticker).Pairwise (· < ·) := (r.allDays_sorted ticker).filter _

variable {r ticker}

theorem grid_lt {i j : ℕ} {d e : δ} (hij : i < j) (hd : (r.grid ticker)[i]? = some d)
    (he : (r.grid ticker)[j]? = some e) : d < e := by
  obtain ⟨hi, rfl⟩ := List.getElem?_eq_some_iff.mp hd
  obtain ⟨hj, rfl⟩ := List.getElem?_eq_some_iff.mp he
  exact List.pairwise_iff_getElem.mp (r.grid_sorted ticker) i j hi hj hij

/-- The exit of a trade is not before its entry. -/
theorem le_exit {d e : δ} (hd : d ∈ r.grid ticker)
    (he : (r.allDays ticker)[(r.allDays ticker).idxOf d + r.holdingDays]? = some e) : d ≤ e := by
  have hmem : d ∈ r.allDays ticker := List.mem_of_mem_filter hd
  have hidx := List.idxOf_lt_length_iff.mpr hmem
  obtain ⟨hj, rfl⟩ := List.getElem?_eq_some_iff.mp he
  have hself : (r.allDays ticker)[(r.allDays ticker).idxOf d] = d := List.getElem_idxOf hidx
  by_cases h : r.holdingDays = 0
  · refine le_of_eq ?_
    simp only [h, Nat.add_zero]
    exact hself.symm
  · have hlt := List.pairwise_iff_getElem.mp (r.allDays_sorted ticker) _ _ hidx hj
      (Nat.lt_add_of_pos_right (Nat.pos_of_ne_zero h))
    rw [hself] at hlt
    exact hlt.le

/-- What `_build_trade` keeps of the days it is given. -/
theorem buildTrade_days {direction : Direction} {d e : δ} {view : View M} {t : Trade δ M}
    (h : t ∈ (r.buildTrade ticker direction d e view).toList) :
    t.ticker = ticker ∧ t.entryDate = d ∧ t.exitDate = e := by
  unfold buildTrade at h
  split at h
  next =>
    split at h
    next => cases h
    next =>
      obtain rfl := List.mem_singleton.mp h
      exact ⟨rfl, rfl, rfl⟩
  next => cases h

/-- Trades of one ticker, one after the other, from day `i` of the grid on; from the day
after, where the walk is not armed. -/
structure InTurn (r : Run δ M) (ticker : String) (i : ℕ) (armed : Bool)
    (trades : List (Trade δ M)) : Prop where
  own : ∀ t ∈ trades, t.ticker = ticker
  days : ∀ t ∈ trades, t.entryDate ≤ t.exitDate
  entered : ∀ t ∈ trades, ∃ k, i ≤ k ∧ (armed = false → i < k) ∧
    (r.grid ticker)[k]? = some t.entryDate
  apart : trades.Pairwise fun a b => a.exitDate < b.entryDate

theorem inTurn_nil {i : ℕ} {armed : Bool} : InTurn r ticker i armed [] where
  own _ h := by cases h
  days _ h := by cases h
  entered _ h := by cases h
  apart := .nil

theorem walk_inTurn : ∀ (fuel i : ℕ) (armed : Bool) {trades : List (Trade δ M)},
    r.walk ticker fuel i armed = some trades → InTurn r ticker i armed trades := by
  intro fuel
  induction fuel with
  | zero => intro i armed trades h; cases h
  | succ fuel ih =>
    intro i armed trades h
    unfold walk at h
    split at h
    next =>
      cases h
      exact inTurn_nil
    next d hd =>
      by_cases hopen : (armed && decide (r.threshold < |(r.predict ticker d).value|)) = true
      · simp only [if_pos hopen] at h
        have harmed : armed = true := (Bool.and_eq_true_iff.mp hopen).1
        split at h
        next =>
          cases h
          exact inTurn_nil
        next e he =>
          obtain ⟨rest, hrest, rfl⟩ := Option.map_eq_some_iff.mp h
          have hle := le_exit (List.mem_of_getElem? hd) he
          have hturn := ih _ _ hrest
          -- the walk goes on past the exit
          have hlate : ∀ t ∈ rest, e < t.entryDate := by
            intro t ht
            obtain ⟨k, -, hk, hentry⟩ := hturn.entered t ht
            have hidx : (r.grid ticker).idxOf e < (r.grid ticker).length :=
              (hk rfl).trans (List.getElem?_eq_some_iff.mp hentry).1
            refine grid_lt (hk rfl) ?_ hentry
            rw [List.getElem?_eq_getElem hidx, List.getElem_idxOf hidx]
          refine ⟨fun t ht => ?_, fun t ht => ?_, fun t ht => ?_, ?_⟩
          · obtain ht | ht := List.mem_append.mp ht
            · exact (buildTrade_days ht).1
            · exact hturn.own t ht
          · obtain ht | ht := List.mem_append.mp ht
            · obtain ⟨-, hentry, hexit⟩ := buildTrade_days ht
              rw [hentry, hexit]
              exact hle
            · exact hturn.days t ht
          · obtain ht | ht := List.mem_append.mp ht
            · refine ⟨i, le_refl i, fun hnot => ?_, ?_⟩
              · rw [harmed] at hnot
                cases hnot
              · rw [(buildTrade_days ht).2.1]
                exact hd
            · obtain ⟨k, -, -, hentry⟩ := hturn.entered t ht
              have hik : i ≤ k := Nat.le_of_not_lt fun hki =>
                absurd ((grid_lt hki hentry hd).trans_le hle) (not_lt.mpr (hlate t ht).le)
              refine ⟨k, hik, fun hnot => ?_, hentry⟩
              rw [harmed] at hnot
              cases hnot
          · rw [List.pairwise_append]
            refine ⟨?_, hturn.apart, fun a ha b hb => ?_⟩
            · cases r.buildTrade ticker _ d e _ with
              | none => exact .nil
              | some t => exact List.pairwise_singleton _ t
            · rw [(buildTrade_days ha).2.2]
              exact hlate b hb
      · simp only [if_neg hopen] at h
        have hturn := ih _ _ h
        refine ⟨hturn.own, hturn.days, fun t ht => ?_, hturn.apart⟩
        obtain ⟨k, hk, -, hentry⟩ := hturn.entered t ht
        exact ⟨k, (Nat.le_succ i).trans hk, fun _ => hk, hentry⟩

/-- A position is closed on a day of the grid from its entry on, or after the grid. -/
theorem le_idxOf_exit {i : ℕ} {d e : δ} (hd : (r.grid ticker)[i]? = some d) (hle : d ≤ e) :
    i ≤ (r.grid ticker).idxOf e := by
  have hi := (List.getElem?_eq_some_iff.mp hd).1
  refine Nat.le_of_not_lt fun hlt => ?_
  have hidx := hlt.trans hi
  have hat : (r.grid ticker)[(r.grid ticker).idxOf e]? = some e := by
    rw [List.getElem?_eq_getElem hidx, List.getElem_idxOf hidx]
  exact absurd hle (not_le.mpr (grid_lt hlt hat hd))

/-- The walk ends: a step goes on a day, or opens a position and goes to its exit, where the
walk is not armed. -/
theorem walk_ends : ∀ (fuel i : ℕ) (armed : Bool),
    2 * ((r.grid ticker).length - i) + (if armed then 1 else 0) < fuel →
    r.walk ticker fuel i armed ≠ none := by
  intro fuel
  induction fuel with
  | zero => intro i armed h; exact absurd h (Nat.not_lt_zero _)
  | succ fuel ih =>
    intro i armed hfuel
    unfold walk
    split
    next => exact Option.some_ne_none _
    next d hd =>
      have hi := (List.getElem?_eq_some_iff.mp hd).1
      by_cases hopen : (armed && decide (r.threshold < |(r.predict ticker d).value|)) = true
      · simp only [if_pos hopen]
        rw [if_pos (Bool.and_eq_true_iff.mp hopen).1] at hfuel
        split
        next => exact Option.some_ne_none _
        next e he =>
          have hidx := le_idxOf_exit hd (le_exit (List.mem_of_getElem? hd) he)
          have hrest := ih ((r.grid ticker).idxOf e) false (by
            rw [if_neg Bool.false_ne_true]
            omega)
          exact fun hnone => hrest (Option.map_eq_none_iff.mp hnone)
      · simp only [if_neg hopen]
        refine ih _ _ ?_
        split <;> split at hfuel <;> omega

theorem tradeTicker_inTurn (r : Run δ M) (ticker : String) :
    InTurn r ticker 0 true (r.tradeTicker ticker) := by
  have hends : r.walk ticker (2 * (r.grid ticker).length + 2) 0 true ≠ none :=
    walk_ends _ _ _ (by
      rw [if_pos rfl]
      omega)
  obtain ⟨trades, htrades⟩ := Option.ne_none_iff_exists'.mp hends
  unfold tradeTicker
  rw [htrades]
  exact walk_inTurn _ _ _ htrades

end Run

/-! ## The curve -/

/-- The equity once the first trades have settled, in cents. -/
def equityAfter (capital : ℚ) (trades : List (Trade δ M)) (k : ℕ) : ℚ :=
  roundTo 2 (capital + ((trades.take k).map Trade.pnl).sum)

omit [LinearOrder δ] in
theorem curveFrom_eq (trades : List (Trade δ M)) : ∀ equity : ℚ,
    curveFrom equity trades =
      (List.range trades.length).map fun k => equityAfter equity trades (k + 1) := by
  induction trades with
  | nil => intro equity; rfl
  | cons t trades ih =>
    intro equity
    rw [curveFrom, ih, List.length_cons, List.range_succ_eq_map, List.map_cons, List.map_map]
    unfold equityAfter
    simp only [List.take_succ_cons, List.take_zero, List.map_cons, List.map_nil, List.sum_cons,
      List.sum_nil, add_zero, Function.comp_def, Nat.succ_eq_add_one, add_assoc]

/-- The settled equity over time: the capital, and the equity after each trade in the order
of their exits. -/
def settledCurve (capital : ℚ) (trades : List (Trade δ M)) : List ℚ :=
  capital :: (List.range trades.length).map fun k =>
    equityAfter capital (sortByKey Trade.exitDate trades) (k + 1)

/-- The walk over the curve finds its largest fall, where it divides by no zero peak. -/
theorem drawdownFrom_eq : ∀ (curve : List ℚ) {peak maxDd d : ℚ}, 0 ≤ maxDd →
    drawdownFrom peak maxDd curve = .ok d → d = max maxDd (maxFall peak curve) := by
  intro curve
  induction curve with
  | nil =>
    intro peak maxDd d hdd h
    cases h
    exact (max_eq_left hdd).symm
  | cons val curve ih =>
    intro peak maxDd d hdd h
    have hpeak : (if peak < val then val else peak) = max peak val := by
      split
      next hlt => exact (max_eq_right hlt.le).symm
      next hge => exact (max_eq_left (not_lt.mp hge)).symm
    unfold drawdownFrom at h
    simp only [hpeak] at h
    split at h
    next => cases h
    next hzero =>
      -- below a negative peak nothing counts as a fall
      have hfall : (if maxDd < (max peak val - val) / max peak val then
          (max peak val - val) / max peak val else maxDd) = max maxDd (fall (max peak val) val) := by
        unfold fall
        split
        next hlt =>
          have hpos : 0 < max peak val := by
            refine lt_of_le_of_ne (not_lt.mp fun hneg => ?_) (Ne.symm hzero)
            have hle : (max peak val - val) / max peak val ≤ 0 :=
              div_nonpos_of_nonneg_of_nonpos (sub_nonneg.mpr (le_max_right _ _)) hneg.le
            exact absurd (hlt.trans_le hle) (not_lt.mpr hdd)
          rw [if_pos hpos, max_eq_right hlt.le]
        next hge =>
          split
          next => exact (max_eq_left (not_lt.mp hge)).symm
          next => exact (max_eq_left hdd).symm
      rw [hfall] at h
      rw [ih (hdd.trans (le_max_left _ _)) h, maxFall, max_assoc]

/-- With capital to start from no peak is zero. -/
theorem drawdownFrom_ok : ∀ (curve : List ℚ) {peak : ℚ} (maxDd : ℚ), 0 < peak →
    ∃ d, drawdownFrom peak maxDd curve = .ok d := by
  intro curve
  induction curve with
  | nil => intro peak maxDd _; exact ⟨maxDd, rfl⟩
  | cons val curve ih =>
    intro peak maxDd hpos
    have hpos' : 0 < (if peak < val then val else peak) := by
      split
      next hlt => exact hpos.trans hlt
      next => exact hpos
    unfold drawdownFrom
    simp only [if_neg hpos'.ne']
    exact ih _ hpos'

/-! ## Settlement -/

/-- No trade of one ticker is entered before one of another (on one day: of one that is later
in the list) and settled after it. -/
def SettlesInTurn (r : Run δ M) (tickers : List String) : Prop :=
  tickers.Pairwise fun s t => ∀ a ∈ r.tradeTicker s, ∀ b ∈ r.tradeTicker t,
    (a.entryDate ≤ b.entryDate → a.exitDate ≤ b.exitDate) ∧
      (b.entryDate < a.entryDate → b.exitDate ≤ a.exitDate)

/-- The trades that a point of the curve counts are those that settled first (`order`), so
that the curve is that of the settled equity and the drawdown its largest fall; and trades
of one ticker do not overlap. -/
structure Settlement (capital : ℚ) (result : BacktestResult δ M) : Prop where
  order : result.trades.Pairwise fun a b => a.exitDate ≤ b.exitDate
  curve : result.trades ≠ [] → result.equityCurve = settledCurve capital result.trades
  drawdown : ∀ metrics, result.metrics = some metrics →
    metrics.maxDrawdownPct = roundTo 6 (maxFall capital (settledCurve capital result.trades))
  apart : result.trades.Pairwise fun a b => a.ticker = b.ticker →
    a.exitDate < b.entryDate ∨ b.exitDate < a.entryDate

/-- The trades of all tickers, before they are sorted, settle in the order of their entries
exactly when those of different tickers do. -/
theorem settlesInTurn_iff (r : Run δ M) (tickers : List String) :
    (tickers.flatMap r.tradeTicker).Pairwise (fun a b =>
      (a.entryDate ≤ b.entryDate → a.exitDate ≤ b.exitDate) ∧
        (b.entryDate < a.entryDate → b.exitDate ≤ a.exitDate)) ↔ SettlesInTurn r tickers := by
  rw [List.pairwise_flatMap]
  refine and_iff_right fun ticker _ => ?_
  have hturn := Run.tradeTicker_inTurn r ticker
  refine hturn.apart.imp_of_mem fun ha hb hlt => ?_
  have hbefore := (hturn.days _ ha).trans_lt hlt
  exact ⟨fun _ => (hlt.trans_le (hturn.days _ hb)).le, fun h => absurd h (not_lt.mpr hbefore.le)⟩

theorem apart_flatMap (r : Run δ M) {tickers : List String} (htickers : tickers.Nodup) :
    (tickers.flatMap r.tradeTicker).Pairwise fun a b => a.ticker = b.ticker →
      a.exitDate < b.entryDate ∨ b.exitDate < a.entryDate := by
  rw [List.pairwise_flatMap]
  refine ⟨fun ticker _ => ?_, htickers.imp fun hne a ha b hb heq => ?_⟩
  · exact (Run.tradeTicker_inTurn r ticker).apart.imp fun h _ => Or.inl h
  · rw [(Run.tradeTicker_inTurn r _).own a ha, (Run.tradeTicker_inTurn r _).own b hb] at heq
    exact absurd heq hne

/-- What a run reports, from its trades. -/
theorem runAlpha_ok {r : Run δ M} {tickers : List String} {result : BacktestResult δ M}
    (h : runAlpha r tickers = .ok result) :
    result.trades = sortByKey Trade.entryDate (tickers.flatMap r.tradeTicker) ∧
      (result.trades ≠ [] → result.equityCurve = buildEquityCurve r.capital result.trades) ∧
      ∀ metrics, result.metrics = some metrics →
        computeMetrics r.capital result.trades (buildEquityCurve r.capital result.trades) =
          .ok metrics := by
  unfold runAlpha at h
  by_cases hnone : tickers.flatMap r.tradeTicker = []
  · simp only [if_pos hnone] at h
    cases h
    rw [hnone]
    exact ⟨rfl, fun hne => absurd rfl hne, nofun⟩
  · simp only [if_neg hnone] at h
    cases hmetrics : computeMetrics r.capital
        (sortByKey Trade.entryDate (tickers.flatMap r.tradeTicker))
        (buildEquityCurve r.capital (sortByKey Trade.entryDate (tickers.flatMap r.tradeTicker))) with
    | error e =>
      rw [hmetrics] at h
      cases h
    | ok metrics =>
      rw [hmetrics] at h
      cases h
      exact ⟨rfl, fun _ => rfl, fun _ he => by cases he; exact hmetrics⟩

omit [LinearOrder δ] in
/-- The reported drawdown is the largest fall of the curve. -/
theorem maxDrawdown_eq {capital : ℚ} {trades : List (Trade δ M)} {metrics : PerformanceMetrics}
    (h : computeMetrics capital trades (buildEquityCurve capital trades) = .ok metrics) :
    metrics.maxDrawdownPct = roundTo 6 (maxFall capital (buildEquityCurve capital trades)) := by
  unfold computeMetrics at h
  split at h
  next => cases h
  next =>
    cases hdd : drawdownFrom ((buildEquityCurve capital trades).headD 0) 0
        (buildEquityCurve capital trades) with
    | error e =>
      rw [hdd] at h
      cases h
    | ok d =>
      have hmax := drawdownFrom_eq _ (le_refl 0) hdd
      rw [hdd] at h
      cases h
      show roundTo 6 d = _
      rw [hmax, max_eq_right (maxFall_nonneg _ _)]
      rfl

omit [LinearOrder δ] in
theorem computeMetrics_ok {capital : ℚ} (hpos : 0 < capital) (trades : List (Trade δ M)) :
    ∃ metrics, computeMetrics capital trades (buildEquityCurve capital trades) = .ok metrics := by
  obtain ⟨d, hd⟩ := drawdownFrom_ok (buildEquityCurve capital trades) 0 hpos
  have hd : drawdownFrom ((buildEquityCurve capital trades).headD 0) 0
      (buildEquityCurve capital trades) = .ok d := hd
  unfold computeMetrics
  rw [if_neg hpos.ne', hd]
  exact ⟨_, rfl⟩

end

/-- Three days on which every ticker trades. -/
def oneCalendar : Run ℕ Unit where
  capital := 1000
  perTrade := 100
  prices _ := [(1, 100), (2, 90), (3, 80)]
  predict _ _ := ⟨1, none, ()⟩
  startDate := 1
  endDate := 2
  threshold := 0
  holdingDays := 1

/-- "W" trades once a week and falls, "D" trades daily and rises; both are held for one
trading day of theirs. -/
def twoCalendars : Run ℕ Unit where
  capital := 1000
  perTrade := 100
  prices ticker := if ticker = "W" then [(1, 100), (8, 50)] else [(2, 100), (3, 200), (4, 200)]
  predict _ _ := ⟨1, none, ()⟩
  startDate := 1
  endDate := 2
  threshold := 0
  holdingDays := 1

end PaperTrading.Backtest.Engine
