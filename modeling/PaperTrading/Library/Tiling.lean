import Mathlib.Data.List.GetD
import PaperTrading.Lib.Pages
import PaperTrading.Lib.Tiles
import PaperTrading.Library.Equity
import PaperTrading.Library.SealedHoldout

/-!
# The blocks of a span

`tile_blocks` cuts a span into equal blocks, `span_metrics` reads one window off the book for
each: its P&L from the equity at the block's two edges, its trades by the day they ended.

`blocks_compound` says of every span and every length of block that the blocks tile the span,
that a trade is counted in one window, and that the windows' returns compound to the book's
return as long as the book has equity at the start of each window. A window that starts without
any is reported as zero, so that behind it the product says nothing (`wiped_out`).
-/

namespace PaperTrading.Library

open PaperTrading.Lib
open Gate (Stats farStats)
open Signals (HOLDOUT_START_MS)
open Trading (PAPER_START_CASH)

/-! ## The blocks -/

/-- `tile_blocks`, with blocks of about `targetMs`. -/
def blocksOf (targetMs startMs endMs : ℤ) : Except EvaluateError (List (ℤ × ℤ)) :=
  let span := endMs - startMs
  if span ≤ 0 then .error .emptySpan
  else
    let n := max 1 (roundHalfEven ((span : ℚ) / targetMs)).toNat
    let edges := (List.range n).map (fun k : ℕ => startMs + span * k / n) ++ [endMs]
    .ok (edges.zip edges.tail)

/-- No more blocks than milliseconds. -/
theorem blockCount_le {span targetMs : ℤ} (hspan : 0 < span) (htarget : 0 < targetMs) :
    max 1 (roundHalfEven ((span : ℚ) / targetMs)).toNat ≤ span.toNat := by
  have hle : (span : ℚ) / targetMs ≤ span := by
    refine div_le_self (Int.cast_nonneg hspan.le) ?_
    exact_mod_cast htarget
  have hround := roundHalfEven_mono hle
  rw [roundHalfEven_intCast] at hround
  omega

/-- The edges ascend. -/
theorem edge_lt {s span : ℤ} {n i j : ℕ} (hn : 0 < n) (hspan : n ≤ span) (hij : i < j) :
    s + span * i / n < s + span * j / n := by
  have hn' : (0 : ℤ) < n := Int.natCast_pos.mpr hn
  have hstep : span * i + 1 * n ≤ span * j := by
    have hmul : span * (i + 1) ≤ span * j :=
      mul_le_mul_of_nonneg_left (by exact_mod_cast hij) (hn'.le.trans hspan)
    rw [mul_add] at hmul
    omega
  have hdiv := Int.ediv_le_ediv hn' hstep
  rw [Int.add_mul_ediv_right _ _ hn'.ne'] at hdiv
  omega

/-- The blocks tile the span. -/
theorem blocksOf_tiles {targetMs startMs endMs : ℤ} (htarget : 0 < targetMs)
    (hspan : startMs < endMs) :
    ∃ segs, blocksOf targetMs startMs endMs = .ok segs ∧ Tiles startMs segs endMs := by
  have hpos : 0 < endMs - startMs := sub_pos.mpr hspan
  have hcount := blockCount_le hpos htarget
  unfold blocksOf
  dsimp only
  rw [if_neg (not_le.mpr hpos)]
  have hone : 0 < max 1 (roundHalfEven (((endMs - startMs : ℤ) : ℚ) / targetMs)).toNat :=
    lt_max_of_lt_left Nat.one_pos
  generalize max 1 (roundHalfEven (((endMs - startMs : ℤ) : ℚ) / targetMs)).toNat = n
    at hcount hone ⊢
  have hlast : startMs + (endMs - startMs) * n / n = endMs := by
    rw [Int.mul_ediv_cancel _ (by omega)]
    omega
  have hedges : (List.range n).map (fun k : ℕ => startMs + (endMs - startMs) * k / n) ++ [endMs] =
      (List.range (n + 1)).map fun k : ℕ => startMs + (endMs - startMs) * k / n := by
    rw [List.range_succ, List.map_append, List.map_singleton, hlast]
  have hascend : ((List.range n).map (fun k : ℕ => startMs + (endMs - startMs) * k / n) ++
      [endMs]).Pairwise (· < ·) := by
    rw [hedges, List.pairwise_map]
    exact List.pairwise_lt_range.imp fun hij => edge_lt hone (by omega) hij
  have hhead : ∃ rest, (List.range n).map (fun k : ℕ => startMs + (endMs - startMs) * k / n) ++
      [endMs] = startMs :: rest := by
    rw [hedges, List.range_succ_eq_map, List.map_cons, Nat.cast_zero, mul_zero, Int.zero_ediv,
      add_zero]
    exact ⟨_, rfl⟩
  obtain ⟨rest, hrest⟩ := hhead
  have hend : (startMs :: rest).getLast (List.cons_ne_nil _ _) = endMs := by
    refine Option.some.inj ?_
    rw [← List.getLast?_eq_some_getLast, ← hrest, List.getLast?_concat]
  rw [hrest] at hascend ⊢
  have htiles := tiles_zip hascend
  rw [hend] at htiles
  exact ⟨_, rfl, htiles⟩

/-! ## The days of a span -/

section
variable {bars : List Day}

theorem indexOf_le_length (bars : List Day) (x : ℤ) : indexOf bars x ≤ bars.length :=
  (List.takeWhile_prefix _).length_le

theorem indexOf_mono (hbars : Ascending Day.ts bars) {x y : ℤ} (hxy : x ≤ y) :
    indexOf bars x ≤ indexOf bars y := by
  unfold indexOf
  rw [takeWhile_lt hbars, takeWhile_lt hbars, ← List.countP_eq_length_filter,
    ← List.countP_eq_length_filter]
  refine List.countP_mono_left fun b _ hb => ?_
  exact decide_eq_true ((of_decide_eq_true hb).trans_le hxy)

theorem tsAt_eq {i : ℕ} (hi : i < bars.length) : tsAt bars i = bars[i].ts := by
  unfold tsAt day
  rw [List.getElem?_eq_getElem hi]
  rfl

/-- The days before an index are before its time. -/
theorem ts_lt_of_lt_indexOf {x : ℤ} {d : ℕ} (h : d < indexOf bars x) : tsAt bars d < x := by
  have hd := List.prefix_iff_getElem?.mp (List.takeWhile_prefix fun b : Day => b.ts < x) d h
  have hbelow := List.mem_takeWhile_imp (List.getElem_mem h)
  unfold tsAt day
  rw [hd]
  exact of_decide_eq_true hbelow

/-- The days from an index on are not. -/
theorem le_ts_of_indexOf_le (hbars : Ascending Day.ts bars) {x : ℤ} {d : ℕ}
    (h : indexOf bars x ≤ d) (hd : d < bars.length) : x ≤ tsAt bars d := by
  have hmem : bars[d] ∈ bars.drop (indexOf bars x) :=
    List.mem_drop_iff_getElem.mpr ⟨d - indexOf bars x, by omega, by congr 1; omega⟩
  unfold indexOf at hmem
  rw [drop_takeWhile_lt hbars] at hmem
  rw [tsAt_eq hd]
  exact of_decide_eq_true (List.mem_filter.mp hmem).2

/-- The index of a day's time is the day. -/
theorem indexOf_tsAt (hbars : Ascending Day.ts bars) {i : ℕ} (hi : i < bars.length) :
    indexOf bars (tsAt bars i) = i := by
  refine le_antisymm (not_lt.mp fun h => lt_irrefl _ (ts_lt_of_lt_indexOf h)) ?_
  refine not_lt.mp fun h => ?_
  exact absurd (tsAt_lt hbars h hi) (not_lt.mpr (le_ts_of_indexOf_le hbars le_rfl (h.trans hi)))

end

/-- The days `[start, end_)` are those up to `endMs`. -/
structure Spanned (bars : List Day) (start end_ : ℕ) (endMs : ℤ) : Prop where
  ascending : Ascending Day.ts bars
  scored : start < end_
  ends : indexOf bars endMs = end_

section
variable {bars : List Day} {start end_ : ℕ} {endMs : ℤ} (h : Spanned bars start end_ endMs)
include h

theorem Spanned.inside : end_ ≤ bars.length := h.ends ▸ indexOf_le_length bars endMs

theorem Spanned.starts : indexOf bars (tsAt bars start) = start :=
  indexOf_tsAt h.ascending (h.scored.trans_le h.inside)

theorem Spanned.lt : tsAt bars start < endMs :=
  ts_lt_of_lt_indexOf (h.ends.symm ▸ h.scored)

/-- The span has the times of its days. -/
theorem Spanned.holds_day {d : ℕ} (hstart : start ≤ d) (hend : d < end_) :
    tsAt bars start ≤ tsAt bars d ∧ tsAt bars d < endMs := by
  refine ⟨le_ts_of_indexOf_le h.ascending (h.starts.symm ▸ hstart) (hend.trans_le h.inside), ?_⟩
  exact ts_lt_of_lt_indexOf (h.ends.symm ▸ hend)

/-- A time of the span cuts it at one of its days or at its end. -/
theorem Spanned.index_in {x : ℤ} (hstart : tsAt bars start ≤ x) (hend : x ≤ endMs) :
    start ≤ indexOf bars x ∧ indexOf bars x ≤ end_ := by
  have hlo := indexOf_mono h.ascending hstart
  have hhi := indexOf_mono h.ascending hend
  rw [h.starts] at hlo
  rw [h.ends] at hhi
  exact ⟨hlo, hhi⟩

end

/-! ## The windows of a book -/

/-- The equity with which a run stands at a time of its span. -/
def equityAt (bars : List Day) (r : RunResult) (start : ℕ) (x : ℤ) : ℚ :=
  r.equity[indexOf bars x - start]?.getD 0

theorem equityAt_getD (bars : List Day) (r : RunResult) (start : ℕ) {i : ℕ} (x : ℤ) (d : ℚ)
    (hi : i = indexOf bars x - start) (hlen : indexOf bars x - start < r.equity.length) :
    r.equity[i]?.getD d = equityAt bars r start x := by
  unfold equityAt
  rw [hi, List.getElem?_eq_getElem hlen]
  rfl

section
variable {bars : List Day} {costs : Costs} {start end_ : ℕ} {endMs : ℤ} {r : RunResult}

/-- A window reads the equity at its two edges. -/
theorem windowMetrics_edges (h : Spanned bars start end_ endMs)
    (hr : Scored bars costs PAPER_START_CASH start end_ r) {seg : ℤ × ℤ}
    (hlo : tsAt bars start ≤ seg.1) (hlt : seg.1 < seg.2) (hhi : seg.2 ≤ endMs) :
    r.equity[(windowMetrics bars r start end_ seg).bounds.1]?.getD 0 =
        equityAt bars r start seg.1 ∧
      (0 < equityAt bars r start seg.1 →
        1 + (windowMetrics bars r start end_ seg).pnl / PAPER_START_CASH =
          equityAt bars r start seg.2 / equityAt bars r start seg.1) := by
  obtain ⟨ha, ha'⟩ := h.index_in hlo (hlt.le.trans hhi)
  obtain ⟨hb, hb'⟩ := h.index_in (hlo.trans hlt.le) hhi
  have hpoints := hr.points
  have hbase := equityAt_getD bars r start (i := max start (indexOf bars seg.1) - start) seg.1
    0 (by omega) (by omega)
  refine ⟨hbase, fun hpos => ?_⟩
  unfold windowMetrics
  dsimp only
  rw [hbase, if_pos hpos, equityAt_getD bars r start seg.2 _ (by omega) (by omega),
    mul_div_cancel_left₀ _ (show PAPER_START_CASH ≠ 0 by decide)]
  ring

/-- Each trade of the run ends in one block. -/
theorem trade_holds {segs : List (ℤ × ℤ)} (h : Spanned bars start end_ endMs)
    (hr : Scored bars costs PAPER_START_CASH start end_ r)
    (hsegs : Tiles (tsAt bars start) segs endMs) :
    ∀ t ∈ r.trades, segs.countP (holds · t.exitTs) = 1 := by
  intro t ht
  obtain ⟨d, hstart, hend, hts⟩ := hr.sold t ht
  rw [hsegs.countP_holds, hts]
  exact if_pos (h.holds_day hstart hend)

/-- The windows count each trade once. -/
theorem windowTrades_sum {segs : List (ℤ × ℤ)}
    (honce : ∀ t ∈ r.trades, segs.countP (holds · t.exitTs) = 1) :
    ((segs.map (windowMetrics bars r start end_)).map WindowMetrics.trades).sum =
      r.trades.length := by
  have hcount : (segs.map (windowMetrics bars r start end_)).map WindowMetrics.trades =
      segs.map fun seg => r.trades.countP fun t => holds seg t.exitTs := by
    rw [List.map_map]
    refine List.map_congr_left fun seg _ => ?_
    rw [List.countP_eq_length_filter]
    show (r.trades.filter _).length = _
    congr 2
    funext t
    exact Bool.decide_and _ _
  rw [hcount, sum_countP_comm]
  have hones : r.trades.map (fun t => segs.countP (holds · t.exitTs)) =
      List.replicate r.trades.length 1 := by
    rw [List.map_congr_left honce, List.map_const']
  rw [hones, List.sum_replicate_nat, mul_one]

theorem equityAt_start (h : Spanned bars start end_ endMs)
    (hr : Scored bars costs PAPER_START_CASH start end_ r) :
    equityAt bars r start (tsAt bars start) = PAPER_START_CASH := by
  unfold equityAt
  rw [h.starts, Nat.sub_self, ← List.head?_eq_getElem?, hr.head]
  rfl

theorem equityAt_end (h : Spanned bars start end_ endMs)
    (hr : Scored bars costs PAPER_START_CASH start end_ r) :
    equityAt bars r start endMs = r.equity.getLastD 0 := by
  unfold equityAt
  rw [h.ends, List.getLastD_eq_getLast?, List.getLast?_eq_getElem?, hr.points, Nat.add_sub_cancel]

/-- The windows' returns compound to the run's. -/
theorem windows_compound {segs : List (ℤ × ℤ)} (h : Spanned bars start end_ endMs)
    (hr : Scored bars costs PAPER_START_CASH start end_ r)
    (hsegs : Tiles (tsAt bars start) segs endMs)
    (hpos : ∀ seg ∈ segs, 0 < equityAt bars r start seg.1) :
    (segs.map fun seg =>
      1 + (windowMetrics bars r start end_ seg).pnl / PAPER_START_CASH).prod =
      r.equity.getLastD 0 / PAPER_START_CASH := by
  have hratio := hsegs.prod_ratio (equityAt bars r start) fun seg hseg => (hpos seg hseg).ne'
  rw [equityAt_start h hr, equityAt_end h hr] at hratio
  have hwindows : segs.map (fun seg =>
      1 + (windowMetrics bars r start end_ seg).pnl / PAPER_START_CASH) =
      segs.map fun seg => equityAt bars r start seg.2 / equityAt bars r start seg.1 := by
    refine List.map_congr_left fun seg hseg => ?_
    obtain ⟨hlo, hlt, hhi⟩ := hsegs.bounds seg hseg
    exact (windowMetrics_edges h hr hlo hlt hhi).2 (hpos seg hseg)
  rw [hwindows, ← hratio, mul_div_cancel_left₀ _ (show PAPER_START_CASH ≠ 0 by decide)]

theorem equityAt_pos (h : Spanned bars start end_ endMs)
    (hr : Scored bars costs PAPER_START_CASH start end_ r) (htradable : Tradable bars costs) {x : ℤ}
    (hlo : tsAt bars start ≤ x) (hhi : x ≤ endMs) : 0 < equityAt bars r start x := by
  have hindex := h.index_in hlo hhi
  have hpoints := hr.points
  have hlt : indexOf bars x - start < r.equity.length := by omega
  unfold equityAt
  rw [List.getElem?_eq_getElem hlt]
  exact hr.positive (by decide) htradable _ (List.getElem_mem hlt)

end

/-- What the windows of a book say about it. -/
structure Compounds (bars : List Day) (costs : Costs) (segs : List (ℤ × ℤ)) (m : SpanMetrics) :
    Prop where
  /-- each trade ends in exactly one block -/
  once : ∀ t ∈ m.result.trades, segs.countP (holds · t.exitTs) = 1
  counted : (m.windows.map WindowMetrics.trades).sum = m.trades
  /-- with equity at the start of each window, their returns compound to the book's -/
  compound : (∀ w ∈ m.windows, 0 < m.result.equity[w.bounds.1]?.getD 0) →
    (m.windows.map fun w => 1 + w.pnl / PAPER_START_CASH).prod = 1 + m.totalReturn
  positive : Tradable bars costs → ∀ w ∈ m.windows, 0 < m.result.equity[w.bounds.1]?.getD 0

theorem spanMetrics_compounds {bars : List Day} {start end_ : ℕ} {endMs : ℤ}
    {segs : List (ℤ × ℤ)} {signal : List Bool} (stats : Stats) (costs : Costs) (stopFrac : ℚ)
    (h : Spanned bars start end_ endMs) (hsignal : bars.length ≤ signal.length)
    (hsegs : Tiles (tsAt bars start) segs endMs) :
    ∃ m, spanMetrics stats bars signal start end_ segs costs stopFrac = .ok m ∧
      Compounds bars costs segs m := by
  have hscored : ∃ r, run bars signal start end_ PAPER_START_CASH costs stopFrac = .ok r ∧
      Scored bars costs PAPER_START_CASH start end_ r := run_scored h.scored h.inside hsignal
  obtain ⟨r, hrun, hr⟩ := hscored
  have honce := trade_holds h hr hsegs
  have hfirst : r.equity.headD 0 = PAPER_START_CASH := by
    rw [List.headD_eq_head?_getD, hr.head]
    rfl
  refine ⟨spanMetricsOf stats bars r start end_ segs, ?_, honce, windowTrades_sum honce, ?_, ?_⟩
  · unfold spanMetrics
    rw [hrun]
    rfl
  · intro hpos
    have hbases : ∀ seg ∈ segs, 0 < equityAt bars r start seg.1 := by
      intro seg hseg
      obtain ⟨hlo, hlt, hhi⟩ := hsegs.bounds seg hseg
      rw [← (windowMetrics_edges h hr hlo hlt hhi).1]
      exact hpos _ (List.mem_map_of_mem hseg)
    show ((segs.map _).map _).prod =
      1 + (if 0 < r.equity.headD 0 then r.equity.getLastD 0 / r.equity.headD 0 - 1 else 0)
    rw [List.map_map, hfirst, if_pos (show 0 < PAPER_START_CASH by decide)]
    refine (windows_compound h hr hsegs hbases).trans ?_
    ring
  · intro htradable w hw
    obtain ⟨seg, hseg, rfl⟩ := List.mem_map.mp hw
    obtain ⟨hlo, hlt, hhi⟩ := hsegs.bounds seg hseg
    show 0 < r.equity[(windowMetrics bars r start end_ seg).bounds.1]?.getD 0
    rw [(windowMetrics_edges h hr hlo hlt hhi).1]
    exact equityAt_pos h hr htradable hlo (hlt.le.trans hhi)

/-! ## The discovery span -/

theorem libraryScoreIndex_lt {grid : List LibraryStrategy} {bars : List Day} {i : ℕ}
    (h : libraryScoreIndex grid bars = .ok i) : i < bars.length := by
  have hfold : ∀ (l : List LibraryStrategy) {latest i : ℕ}, latest < bars.length →
      l.foldlM (fun latest s => return max latest (← warmFrom bars s)) latest =
        (.ok i : Except EvaluateError ℕ) → i < bars.length := by
    intro l
    induction l with
    | nil =>
      intro latest i hlatest hi
      cases hi
      exact hlatest
    | cons s l ih =>
      intro latest i hlatest hi
      rw [List.foldlM_cons] at hi
      obtain ⟨next, hnext, hi⟩ := except_bind_ok hi
      obtain ⟨warm, hwarm, hnext⟩ := except_bind_ok hnext
      refine ih ?_ hi
      cases hnext
      refine max_lt hlatest ?_
      unfold warmFrom at hwarm
      split at hwarm
      · cases hwarm
      · split at hwarm
        · cases hwarm
        · split at hwarm
          · cases hwarm
          next hlen =>
            cases hwarm
            omega
  unfold libraryScoreIndex at h
  split at h
  · cases h
  next hlen => exact hfold grid (by omega) h

/-- The discovery days from the first scored one on are the span up to the holdout. -/
theorem discovery_spanned {grid : List LibraryStrategy} {full : List Day} {data : LibraryData}
    (hfull : Ascending Day.ts full) (h : buildLibraryData grid full = .ok data) :
    Spanned data.discovery data.scoreIndex data.discovery.length HOLDOUT_START_MS ∧
      blocksOf (LIBRARY_BLOCK_TARGET_DAYS * DAY_MS) (tsAt data.discovery data.scoreIndex)
        HOLDOUT_START_MS = .ok data.segments := by
  obtain ⟨hdays, hindex, hsegments⟩ := buildLibraryData_ok h
  have hfront : data.discovery = full.takeWhile fun d => d.ts < HOLDOUT_START_MS := by
    rw [hdays]
    exact (List.prefix_iff_eq_take.mp (List.takeWhile_prefix _)).symm
  refine ⟨⟨?_, libraryScoreIndex_lt hindex, ?_⟩, hsegments⟩
  · rw [hfront]
    exact hfull.sublist (List.takeWhile_sublist _)
  · unfold indexOf
    rw [hfront, List.takeWhile_takeWhile]
    simp only [and_self, Bool.decide_eq_true]

/-! ## The claim -/

/-- For every span and every length of block, the blocks tile the span and every book over it
compounds. The discovery book is one: its days are those up to the holdout. -/
theorem blocks_compound :
    (∀ targetMs startMs endMs : ℤ, 0 < targetMs → startMs < endMs →
      ∃ segs, blocksOf targetMs startMs endMs = .ok segs ∧ Tiles startMs segs endMs ∧
        ∀ x, segs.countP (holds · x) = if startMs ≤ x ∧ x < endMs then 1 else 0) ∧
    (∀ (stats : Stats) (bars : List Day) (signal : List Bool) (start end_ : ℕ)
      (endMs targetMs : ℤ) (segs : List (ℤ × ℤ)) (costs : Costs) (stopFrac : ℚ),
      Spanned bars start end_ endMs → bars.length ≤ signal.length → 0 < targetMs →
      blocksOf targetMs (tsAt bars start) endMs = .ok segs →
      ∃ m, spanMetrics stats bars signal start end_ segs costs stopFrac = .ok m ∧
        Compounds bars costs segs m) ∧
    ∀ (grid : List LibraryStrategy) (full : List Day) (data : LibraryData),
      Ascending Day.ts full → buildLibraryData grid full = .ok data →
      Spanned data.discovery data.scoreIndex data.discovery.length HOLDOUT_START_MS ∧
        blocksOf (LIBRARY_BLOCK_TARGET_DAYS * DAY_MS) (tsAt data.discovery data.scoreIndex)
          HOLDOUT_START_MS = .ok data.segments := by
  refine ⟨?_, ?_, fun grid full data => discovery_spanned⟩
  · intro targetMs startMs endMs htarget hspan
    obtain ⟨segs, hsegs, htiles⟩ := blocksOf_tiles htarget hspan
    exact ⟨segs, hsegs, htiles, htiles.countP_holds⟩
  · intro stats bars signal start end_ endMs targetMs segs costs stopFrac h hsignal htarget hsegs
    obtain ⟨segs', hsegs', htiles⟩ := blocksOf_tiles htarget h.lt
    obtain rfl : segs = segs' := Except.ok.inj (hsegs.symm.trans hsegs')
    exact spanMetrics_compounds stats costs stopFrac h hsignal htiles

/-- Bought at 100 on the second of three days, worth nothing at its close, sold at 50. -/
def wipedDays : List Day :=
  [⟨-DAY_MS, 100, 100, 100, 100⟩, ⟨0, 100, 100, 0, 0⟩, ⟨390 * DAY_MS, 50, 50, 50, 50⟩]

theorem wipedDays_spanned : Spanned wipedDays 1 3 (780 * DAY_MS) where
  ascending := by
    unfold Ascending wipedDays
    decide
  scored := by decide
  ends := by decide

theorem blocks_compound_wiped :
    ∃ m, spanMetrics farStats wipedDays [true, true, true] 1 3
      [(0, 390 * DAY_MS), (390 * DAY_MS, 780 * DAY_MS)] paperCosts 0 = .ok m ∧
        Compounds wipedDays paperCosts [(0, 390 * DAY_MS), (390 * DAY_MS, 780 * DAY_MS)] m :=
  blocks_compound.2.1 farStats wipedDays [true, true, true] 1 3 (780 * DAY_MS) (390 * DAY_MS)
    [(0, 390 * DAY_MS), (390 * DAY_MS, 780 * DAY_MS)] paperCosts 0 wipedDays_spanned (by decide)
    (by decide) (by decide +kernel)

/-- Behind a window without equity the product is not the book's return. -/
theorem wiped_out : ¬ ∀ (stats : Stats) (bars : List Day) (signal : List Bool) (start end_ : ℕ)
    (endMs targetMs : ℤ) (segs : List (ℤ × ℤ)) (costs : Costs) (stopFrac : ℚ) (m : SpanMetrics),
    Spanned bars start end_ endMs → bars.length ≤ signal.length → 0 < targetMs →
    blocksOf targetMs (tsAt bars start) endMs = .ok segs →
    spanMetrics stats bars signal start end_ segs costs stopFrac = .ok m →
    (m.windows.map fun w => 1 + w.pnl / PAPER_START_CASH).prod = 1 + m.totalReturn := by
  intro h
  have hspan : ∃ m, spanMetrics farStats wipedDays [true, true, true] 1 3
      [(0, 390 * DAY_MS), (390 * DAY_MS, 780 * DAY_MS)] paperCosts 0 = .ok m ∧
      (m.windows.map fun w => 1 + w.pnl / PAPER_START_CASH).prod ≠ 1 + m.totalReturn :=
    ⟨_, rfl, by decide +kernel⟩
  obtain ⟨m, hm, hne⟩ := hspan
  exact hne (h farStats wipedDays [true, true, true] 1 3 (780 * DAY_MS) (390 * DAY_MS)
    [(0, 390 * DAY_MS), (390 * DAY_MS, 780 * DAY_MS)] paperCosts 0 m wipedDays_spanned (by decide)
    (by decide) (by decide +kernel) hm)

end PaperTrading.Library
