import PaperTrading.Lib.Groups
import PaperTrading.Lib.Pages
import PaperTrading.Library.Daily
import PaperTrading.Signals.SeriesCaches
import PaperTrading.Trading.Signal

/-!
# Calendar candles of the 5m tape

`data/resample.py`: candles of a coarser timeframe, one for each stretch of the clock that
has a bar. Three places of the program make such candles. `resample_ohlcv` and its causal
form go by the clock, the atoms of `signals/htf.py` count bars from the front of the slice,
and `library/daily.py` cuts where the day changes.

`causal_resample_completed`: what is known at a moment are exactly the candles of the whole
tape whose last 5m bar has come by then, so no candle is ever repainted.
`resamplers_agree`: on a tape without a hole that begins with a candle the counted closes
are those of the clock, and the completed days are the calendar days but the newest.
-/

namespace PaperTrading.Data

open PaperTrading.Lib

/-- The timeframes `_TF_RULE` has rules for. -/
inductive ResampleRule where
  | fiveMinutes
  | quarterHour
  | hour
  | fourHours
  | day
deriving DecidableEq

/-- `BARS_5M_PER`: the 5m bars of one candle -/
def ResampleRule.bars : ResampleRule → ℕ
  | .fiveMinutes => 1
  | .quarterHour => 3
  | .hour => 12
  | .fourHours => 48
  | .day => 288

def FIVE_MINUTES : ℤ := 300000

/-- How long a candle is, in milliseconds. -/
def ResampleRule.freq (rule : ResampleRule) : ℤ := rule.bars * FIVE_MINUTES

/-- Where the candle that has this moment begins: the left label. -/
def binStart (rule : ResampleRule) (ts : ℤ) : ℤ := ts - ts % rule.freq

/-- First open, highest high, lowest low, last close, the sum of the volumes. -/
def aggregate (label : ℤ) (g : Piece Trading.Candle) : Trading.Candle where
  ts := label
  «open» := g.first.open
  high := (g.map Trading.Candle.high).reduce max
  low := (g.map Trading.Candle.low).reduce min
  close := g.last.close
  volume := (g.rows.map Trading.Candle.volume).sum

/-- `resample_ohlcv`, of bars in order of time; a stretch without bars has no candle. -/
def resampleOhlcv (rule : ResampleRule) (rows : List Trading.Candle) : List Trading.Candle :=
  (groupedBy (fun r => binStart rule r.ts) rows).entries.filterMap fun e =>
    (Piece.ofList e.2).map (aggregate e.1)

/-- `causal_resample_ohlcv` -/
def causalResampleOhlcv (rule : ResampleRule) (rows : List Trading.Candle) (asOf : Option ℤ) :
    List Trading.Candle :=
  match rows.getLast? with
  | none => []
  | some newest =>
    let resampled := resampleOhlcv rule (rows.filter fun r => r.ts ≤ asOf.getD newest.ts)
    match resampled.getLast? with
    | none => []
    | some last =>
      if asOf.getD newest.ts < last.ts + rule.freq - FIVE_MINUTES then resampled.dropLast
      else resampled

/-- The last 5m bar of the candle has come by then. -/
def CompleteAt (rule : ResampleRule) (asOf label : ℤ) : Prop :=
  label + rule.freq - FIVE_MINUTES ≤ asOf

instance (rule : ResampleRule) (asOf label : ℤ) : Decidable (CompleteAt rule asOf label) :=
  inferInstanceAs (Decidable (_ ≤ _))

/-! ## The clock -/

theorem ResampleRule.bars_pos (rule : ResampleRule) : 0 < rule.bars := by
  cases rule <;> decide

theorem ResampleRule.freq_pos (rule : ResampleRule) : 0 < rule.freq := by
  cases rule <;> decide

theorem binStart_le (rule : ResampleRule) (ts : ℤ) : binStart rule ts ≤ ts := by
  unfold binStart
  have := Int.emod_nonneg ts rule.freq_pos.ne'
  omega

theorem lt_binStart_add (rule : ResampleRule) (ts : ℤ) :
    ts < binStart rule ts + rule.freq := by
  unfold binStart
  have := Int.emod_lt_of_pos ts rule.freq_pos
  omega

theorem binStart_eq (rule : ResampleRule) (ts : ℤ) :
    binStart rule ts = rule.freq * (ts / rule.freq) := by
  unfold binStart
  have := Int.mul_ediv_add_emod ts rule.freq
  omega

theorem binStart_mono (rule : ResampleRule) {t u : ℤ} (h : t ≤ u) :
    binStart rule t ≤ binStart rule u := by
  rw [binStart_eq, binStart_eq]
  exact Int.mul_le_mul_of_nonneg_left (Int.ediv_le_ediv rule.freq_pos h) rule.freq_pos.le

/-- Candles follow each other at the candle's length, at least. -/
theorem binStart_gap (rule : ResampleRule) {t u : ℤ} (h : binStart rule t < binStart rule u) :
    binStart rule t + rule.freq ≤ binStart rule u := by
  rw [binStart_eq, binStart_eq] at *
  have hlt : t / rule.freq < u / rule.freq := Int.lt_of_mul_lt_mul_left h rule.freq_pos.le
  have hle := Int.mul_le_mul_of_nonneg_left (show t / rule.freq + 1 ≤ u / rule.freq by omega)
    rule.freq_pos.le
  rw [Int.mul_add, Int.mul_one] at hle
  exact hle

/-- A bar on the 5m grid is at the latest the last one of its candle. -/
theorem le_last_bar (rule : ResampleRule) {ts : ℤ} (hgrid : ts % FIVE_MINUTES = 0) :
    ts ≤ binStart rule ts + rule.freq - FIVE_MINUTES := by
  have hlt := lt_binStart_add rule ts
  unfold binStart at hlt ⊢
  cases rule <;> simp only [ResampleRule.freq, ResampleRule.bars, FIVE_MINUTES] at * <;> omega

/-! ## The candles of the stretches -/

section
variable {rule : ResampleRule} {rows : List Trading.Candle}

/-- The candle of the stretch that begins at `t`. -/
def candleAt (rule : ResampleRule) (rows : List Trading.Candle) (t : ℤ) : Option Trading.Candle :=
  (Piece.ofList (rows.filter fun r => binStart rule r.ts = t)).map (aggregate t)

theorem resampleOhlcv_eq : resampleOhlcv rule rows =
    (firstSeen (rows.map fun r => binStart rule r.ts)).filterMap (candleAt rule rows) := by
  unfold resampleOhlcv
  rw [entries_groupedBy, List.filterMap_map]
  rfl

theorem candleAt_ts {t : ℤ} {c : Trading.Candle} (h : candleAt rule rows t = some c) :
    c.ts = t := by
  obtain ⟨g, -, rfl⟩ := Option.map_eq_some_iff.mp h
  rfl

theorem exists_candleAt {t : ℤ} (h : t ∈ rows.map fun r => binStart rule r.ts) :
    ∃ c, candleAt rule rows t = some c := by
  obtain ⟨r, hr, rfl⟩ := List.mem_map.mp h
  have hmem : r ∈ rows.filter fun r' => binStart rule r'.ts = binStart rule r.ts :=
    List.mem_filter.mpr ⟨hr, decide_eq_true rfl⟩
  obtain ⟨a, l, hl⟩ := List.exists_cons_of_ne_nil (List.ne_nil_of_mem hmem)
  unfold candleAt
  rw [hl]
  exact ⟨_, rfl⟩

theorem candleAt_congr {rows' : List Trading.Candle} {t : ℤ}
    (h : rows.filter (fun r => binStart rule r.ts = t) =
      rows'.filter fun r => binStart rule r.ts = t) :
    candleAt rule rows t = candleAt rule rows' t := by
  unfold candleAt
  rw [h]

theorem mem_resampleOhlcv {c : Trading.Candle} (h : c ∈ resampleOhlcv rule rows) :
    ∃ r ∈ rows, binStart rule r.ts = c.ts := by
  rw [resampleOhlcv_eq] at h
  obtain ⟨t, ht, hc⟩ := List.mem_filterMap.mp h
  obtain ⟨r, hr, hrt⟩ := List.mem_map.mp (mem_firstSeen.mp ht)
  exact ⟨r, hr, hrt.trans (candleAt_ts hc).symm⟩

/-- The candles that pass a test of their time are those of the bars in such candles. -/
theorem resampleOhlcv_filter (p : ℤ → Bool) : (resampleOhlcv rule rows).filter (fun c => p c.ts) =
    resampleOhlcv rule (rows.filter fun r => p (binStart rule r.ts)) := by
  have hbins : (rows.filter fun r => p (binStart rule r.ts)).map (fun r => binStart rule r.ts) =
      (rows.map fun r => binStart rule r.ts).filter p := by
    rw [List.filter_map]
    rfl
  rw [resampleOhlcv_eq, resampleOhlcv_eq, hbins, ← firstSeen_filter, List.filter_filterMap,
    List.filterMap_filter]
  refine List.filterMap_congr fun t _ => ?_
  by_cases hp : p t = true
  · rw [if_pos hp]
    have hsame : candleAt rule (rows.filter fun r => p (binStart rule r.ts)) t =
        candleAt rule rows t := by
      refine candleAt_congr ?_
      rw [List.filter_filter]
      refine List.filter_congr fun r _ => ?_
      by_cases hr : binStart rule r.ts = t
      · simp [hr, hp]
      · simp [hr]
    rw [hsame]
    cases hc : candleAt rule rows t with
    | none => rfl
    | some c => rw [Option.filter_some, candleAt_ts hc, if_pos hp]
  · rw [if_neg hp]
    cases hc : candleAt rule rows t with
    | none => rfl
    | some c => rw [Option.filter_some, candleAt_ts hc, if_neg hp]

/-- Bars of other stretches do not touch a candle. -/
theorem resampleOhlcv_append {rows' : List Trading.Candle}
    (h : ∀ r ∈ rows, ∀ r' ∈ rows', binStart rule r.ts ≠ binStart rule r'.ts) :
    resampleOhlcv rule (rows ++ rows') = resampleOhlcv rule rows ++ resampleOhlcv rule rows' := by
  have hapart : ∀ t ∈ rows.map (fun r => binStart rule r.ts),
      t ∉ rows'.map fun r => binStart rule r.ts := by
    intro t ht ht'
    obtain ⟨r, hr, rfl⟩ := List.mem_map.mp ht
    obtain ⟨r', hr', hsame⟩ := List.mem_map.mp ht'
    exact h r hr r' hr' hsame.symm
  rw [resampleOhlcv_eq, resampleOhlcv_eq, resampleOhlcv_eq, List.map_append,
    firstSeen_append hapart, List.filterMap_append]
  congr 1
  · refine List.filterMap_congr fun t ht => candleAt_congr ?_
    have hnone : rows'.filter (fun r => binStart rule r.ts = t) = [] := by
      refine List.filter_eq_nil_iff.mpr fun r hr hrt => hapart t (mem_firstSeen.mp ht) ?_
      exact List.mem_map.mpr ⟨r, hr, of_decide_eq_true hrt⟩
    rw [List.filter_append, hnone, List.append_nil]
  · refine List.filterMap_congr fun t ht => candleAt_congr ?_
    have hnone : rows.filter (fun r => binStart rule r.ts = t) = [] := by
      refine List.filter_eq_nil_iff.mpr fun r hr hrt => ?_
      exact hapart t (List.mem_map.mpr ⟨r, hr, of_decide_eq_true hrt⟩) (mem_firstSeen.mp ht)
    rw [List.filter_append, hnone, List.nil_append]

/-- Bars of one stretch make one candle. -/
theorem resampleOhlcv_single {t : ℤ} {g : Piece Trading.Candle}
    (h : ∀ r ∈ g.rows, binStart rule r.ts = t) : resampleOhlcv rule g.rows = [aggregate t g] := by
  have hbins : firstSeen (g.rows.map fun r => binStart rule r.ts) = [t] := by
    refine firstSeen_of_same (List.cons_ne_nil _ _) fun k hk => ?_
    obtain ⟨r, hr, rfl⟩ := List.mem_map.mp hk
    exact h r hr
  have hall : g.rows.filter (fun r => binStart rule r.ts = t) = g.rows :=
    List.filter_eq_self.mpr fun r hr => decide_eq_true (h r hr)
  rw [resampleOhlcv_eq, hbins]
  unfold candleAt
  simp only [List.filterMap_cons, List.filterMap_nil]
  rw [hall, Piece.ofList_rows]
  rfl

theorem resampleOhlcv_ascending (hsorted : rows.Pairwise fun a b => a.ts ≤ b.ts) :
    Ascending Trading.Candle.ts (resampleOhlcv rule rows) := by
  have hbins : (firstSeen (rows.map fun r => binStart rule r.ts)).Pairwise (· < ·) :=
    firstSeen_sorted (List.pairwise_map.mpr (hsorted.imp fun h => binStart_mono rule h))
  rw [resampleOhlcv_eq]
  refine List.pairwise_filterMap.mpr (hbins.imp fun hlt c hc d hd => ?_)
  rw [candleAt_ts hc, candleAt_ts hd]
  exact hlt

/-! ## No repainting -/

/-- Every candle but the newest is complete by the time of any bar. -/
theorem complete_of_lt {c last : Trading.Candle} {asOf : ℤ} (hc : c ∈ resampleOhlcv rule rows)
    (hlast : last ∈ resampleOhlcv rule rows) (hknown : ∀ r ∈ rows, r.ts ≤ asOf)
    (hlt : c.ts < last.ts) : CompleteAt rule asOf c.ts := by
  obtain ⟨r, -, hrc⟩ := mem_resampleOhlcv hc
  obtain ⟨r', hr', hrl⟩ := mem_resampleOhlcv hlast
  rw [← hrc, ← hrl] at hlt
  have hgap := binStart_gap rule hlt
  have hle := binStart_le rule r'.ts
  have hr := hknown r' hr'
  have hfive : 0 < FIVE_MINUTES := by decide
  unfold CompleteAt
  omega

/-- The causal cut drops exactly the candle that is still forming. -/
theorem causalResample_eq (hsorted : rows.Pairwise fun a b => a.ts ≤ b.ts) (asOf : ℤ) :
    causalResampleOhlcv rule rows (some asOf) =
      (resampleOhlcv rule (rows.filter fun r => r.ts ≤ asOf)).filter
        fun c => CompleteAt rule asOf c.ts := by
  unfold causalResampleOhlcv
  cases hnewest : rows.getLast? with
  | none =>
    rw [List.getLast?_eq_none_iff.mp hnewest]
    rfl
  | some newest =>
    dsimp only [Option.getD_some]
    have hknown : ∀ r ∈ rows.filter fun r => r.ts ≤ asOf, r.ts ≤ asOf := fun r hr =>
      of_decide_eq_true (List.mem_filter.mp hr).2
    have hascending := @resampleOhlcv_ascending rule _
      (List.Pairwise.sublist (List.filter_sublist (p := fun r => decide (r.ts ≤ asOf))) hsorted)
    have hcomplete := @complete_of_lt rule (rows.filter fun r => r.ts ≤ asOf)
    generalize resampleOhlcv rule (rows.filter fun r => r.ts ≤ asOf) = candles at *
    rcases List.eq_nil_or_concat candles with rfl | ⟨front, last, rfl⟩
    · rfl
    · rw [List.concat_eq_append] at *
      have hfront : front.filter (fun c => decide (CompleteAt rule asOf c.ts)) = front := by
        refine List.filter_eq_self.mpr fun c hc => decide_eq_true ?_
        have hmem := List.mem_singleton_self last
        exact hcomplete (List.mem_append_left _ hc) (List.mem_append_right _ hmem) hknown
          ((List.pairwise_append.mp hascending).2.2 c hc last hmem)
      rw [List.getLast?_concat, List.filter_append, hfront]
      dsimp only
      by_cases hdone : CompleteAt rule asOf last.ts
      · have hnot : ¬ asOf < last.ts + rule.freq - FIVE_MINUTES := not_lt.mpr hdone
        rw [if_neg hnot, List.filter_eq_self.mpr fun c hc => ?_]
        rw [List.mem_singleton.mp hc]
        exact decide_eq_true hdone
      · have hlt : asOf < last.ts + rule.freq - FIVE_MINUTES := not_le.mp hdone
        rw [if_pos hlt, List.filter_cons_of_neg (by simpa using hdone), List.filter_nil,
          List.dropLast_concat, List.append_nil]

/-- Only bars known by then are in a candle that is complete. -/
theorem complete_known (hgrid : ∀ r ∈ rows, r.ts % FIVE_MINUTES = 0) (asOf : ℤ) :
    (resampleOhlcv rule rows).filter (fun c => CompleteAt rule asOf c.ts) =
      (resampleOhlcv rule (rows.filter fun r => r.ts ≤ asOf)).filter
        fun c => CompleteAt rule asOf c.ts := by
  rw [resampleOhlcv_filter (fun t => decide (CompleteAt rule asOf t)),
    resampleOhlcv_filter (fun t => decide (CompleteAt rule asOf t)), List.filter_filter]
  congr 1
  refine List.filter_congr fun r hr => ?_
  by_cases hdone : CompleteAt rule asOf (binStart rule r.ts)
  · have hle := le_last_bar rule (hgrid r hr)
    unfold CompleteAt at hdone
    have hknown : r.ts ≤ asOf := by omega
    simp [CompleteAt, hdone, hknown]
  · simp [hdone]

end

/-- At any moment the candles are those of the whole tape whose last 5m bar has come by then.
So of two moments the later one shows the candles of the earlier one first, also on a
tape that has other bars behind the earlier moment. -/
theorem causal_resample_completed {rule : ResampleRule} {rows rows' : List Trading.Candle}
    {asOf later : ℤ} (hsorted : rows.Pairwise fun a b => a.ts ≤ b.ts)
    (hsorted' : rows'.Pairwise fun a b => a.ts ≤ b.ts)
    (hgrid : ∀ r ∈ rows, r.ts % FIVE_MINUTES = 0) (hgrid' : ∀ r ∈ rows', r.ts % FIVE_MINUTES = 0)
    (hsame : rows'.filter (fun r => r.ts ≤ asOf) = rows.filter fun r => r.ts ≤ asOf)
    (hlater : asOf ≤ later) :
    causalResampleOhlcv rule rows (some asOf) =
      (resampleOhlcv rule rows).filter (fun c => CompleteAt rule asOf c.ts) ∧
    causalResampleOhlcv rule rows (some asOf) <+: causalResampleOhlcv rule rows' (some later) := by
  refine ⟨(causalResample_eq hsorted asOf).trans (complete_known hgrid asOf).symm, ?_⟩
  rw [causalResample_eq hsorted, ← hsame, ← complete_known hgrid',
    causalResample_eq hsorted', ← complete_known hgrid']
  have hascending := @resampleOhlcv_ascending rule _ hsorted'
  -- what is complete by `asOf` is complete by `later`, and comes first
  have hnarrow : (resampleOhlcv rule rows').filter (fun c => CompleteAt rule asOf c.ts) =
      ((resampleOhlcv rule rows').filter fun c => CompleteAt rule later c.ts).filter
        fun c => c.ts < asOf - rule.freq + FIVE_MINUTES + 1 := by
    rw [List.filter_filter]
    refine List.filter_congr fun c _ => ?_
    rw [← Bool.decide_and, decide_eq_decide]
    unfold CompleteAt
    omega
  rw [hnarrow, ← takeWhile_lt (hascending.sublist List.filter_sublist)]
  exact List.takeWhile_prefix _

/-- The opening bars of a day: so many of them. -/
def morning (n : ℕ) : List Trading.Candle :=
  (List.range n).map fun i : ℕ => ⟨(i : ℤ) * FIVE_MINUTES, i, i + 1, i, i + 1, 1⟩

theorem morning_even (n : ℕ) : EvenlySpaced Trading.Candle.ts FIVE_MINUTES (morning n) := by
  have hsteps : (List.range n).IsChain fun i j => j = i + 1 :=
    (List.isChain_range _ n).mpr fun _ _ => rfl
  refine List.isChain_map_of_isChain _ (fun i j hij => ?_) hsteps
  show (j : ℤ) * FIVE_MINUTES = i * FIVE_MINUTES + FIVE_MINUTES
  unfold FIVE_MINUTES
  omega

theorem morning_ascending (n : ℕ) : Ascending Trading.Candle.ts (morning n) := by
  refine List.pairwise_map.mpr (List.pairwise_lt_range.imp fun {i j} hij => ?_)
  show (i : ℤ) * FIVE_MINUTES < j * FIVE_MINUTES
  unfold FIVE_MINUTES
  omega

theorem morning_grid (n : ℕ) : ∀ r ∈ morning n, r.ts % FIVE_MINUTES = 0 := by
  intro r hr
  obtain ⟨i, -, rfl⟩ := List.mem_map.mp hr
  exact Int.mul_emod_left _ _

theorem causal_resample_completed_morning :
    causalResampleOhlcv .quarterHour (morning 8) (some 1500000) <+:
      causalResampleOhlcv .quarterHour (morning 6 ++ [⟨1800000, 9, 9, 0, 9, 9⟩]) (some 1800000) :=
  (@causal_resample_completed .quarterHour (morning 8) _ 1500000 _
    ((morning_ascending 8).imp fun h => le_of_lt h) (by decide) (morning_grid 8) (by decide)
    (by decide +kernel) (by decide)).2

/-! ## The counted candles -/

section
variable {rule : ResampleRule} {rows : List Trading.Candle} {start : ℤ}

/-- The `j`-th bar of an even tape that begins with a candle is in the `j / bars`-th one. -/
theorem binStart_even (hstart : start % rule.freq = 0) (j : ℕ) :
    binStart rule (start + j * FIVE_MINUTES) = start + (j / rule.bars : ℕ) * rule.freq := by
  have hfive : (0 : ℤ) < FIVE_MINUTES := by decide
  have hsplit : (j : ℤ) * FIVE_MINUTES =
      rule.freq * (j / rule.bars : ℕ) + (j % rule.bars : ℕ) * FIVE_MINUTES := by
    have hdiv := Nat.div_add_mod j rule.bars
    calc (j : ℤ) * FIVE_MINUTES
      _ = ((rule.bars * (j / rule.bars) + j % rule.bars : ℕ) : ℤ) * FIVE_MINUTES := by rw [hdiv]
      _ = _ := by
        unfold ResampleRule.freq
        push_cast
        ring
  have hrest : (j % rule.bars : ℕ) * FIVE_MINUTES < rule.freq := by
    unfold ResampleRule.freq
    exact Int.mul_lt_mul_of_pos_right (Int.ofNat_lt.mpr (Nat.mod_lt j rule.bars_pos)) hfive
  have hrest0 : 0 ≤ ((j % rule.bars : ℕ) : ℤ) * FIVE_MINUTES :=
    Int.mul_nonneg (Int.natCast_nonneg _) hfive.le
  have hmod : (start + j * FIVE_MINUTES) % rule.freq = (j % rule.bars : ℕ) * FIVE_MINUTES := by
    rw [hsplit, Int.add_emod, hstart, Int.zero_add, Int.emod_emod_of_dvd _ (dvd_refl _),
      Int.mul_add_emod_self_left, Int.emod_eq_of_lt hrest0 hrest]
  unfold binStart
  rw [hmod, hsplit, Int.mul_comm rule.freq]
  omega

/-- The bars `lo` to `lo + n` of a list. -/
theorem mem_chunk {l : List Trading.Candle} {lo n : ℕ} {r : Trading.Candle}
    (h : r ∈ (l.drop lo).take n) : ∃ j, ∃ hj : j < l.length, lo ≤ j ∧ j < lo + n ∧ l[j] = r := by
  obtain ⟨i, hi, rfl⟩ := List.mem_iff_getElem.mp h
  rw [List.length_take, List.length_drop] at hi
  refine ⟨lo + i, by omega, by omega, by omega, ?_⟩
  rw [List.getElem_take, List.getElem_drop]

/-- Whole candles of an even tape close with the bars that are counted. -/
theorem closes_of_blocks (hrows : ∀ j (hj : j < rows.length), rows[j].ts = start + j * FIVE_MINUTES)
    (hstart : start % rule.freq = 0) : ∀ m, m * rule.bars ≤ rows.length →
    (resampleOhlcv rule (rows.take (m * rule.bars))).map Trading.Candle.close =
      (List.range m).map fun k =>
        (rows.map Trading.Candle.close).getD (Signals.htfBucketCloseIndex k rule.bars) 0 := by
  intro m
  induction m with
  | zero =>
    intro _
    rw [Nat.zero_mul, List.take_zero]
    rfl
  | succ m ih =>
    intro hm
    rw [Nat.succ_mul] at hm
    have hpos := rule.bars_pos
    have hchunk : (rows.drop (m * rule.bars)).take rule.bars ≠ [] := by
      refine List.ne_nil_of_length_pos ?_
      rw [List.length_take, List.length_drop]
      omega
    obtain ⟨first, rest, hpiece⟩ := List.exists_cons_of_ne_nil hchunk
    have hbin : ∀ j (hj : j < rows.length),
        binStart rule rows[j].ts = start + (j / rule.bars : ℕ) * rule.freq := by
      intro j hj
      rw [hrows j hj, binStart_even hstart]
    have hmine : ∀ r ∈ (rows.drop (m * rule.bars)).take rule.bars,
        binStart rule r.ts = start + m * rule.freq := by
      intro r hr
      obtain ⟨j, hj, hlo, hhi, rfl⟩ := mem_chunk hr
      have hdiv : j / rule.bars = m := Nat.div_eq_of_lt_le hlo (by rw [Nat.succ_mul]; exact hhi)
      rw [hbin j hj, hdiv]
    have hsplit : rows.take ((m + 1) * rule.bars) =
        rows.take (m * rule.bars) ++ (rows.drop (m * rule.bars)).take rule.bars := by
      rw [Nat.succ_mul, List.take_add]
    have happart : ∀ r ∈ rows.take (m * rule.bars),
        ∀ r' ∈ (rows.drop (m * rule.bars)).take rule.bars,
        binStart rule r.ts ≠ binStart rule r'.ts := by
      intro r hr r' hr' hsame
      rw [← List.drop_zero (l := rows)] at hr
      obtain ⟨j, hj, -, hhi, rfl⟩ := mem_chunk hr
      rw [hmine r' hr', hbin j hj] at hsame
      have hlt : j / rule.bars < m := Nat.div_lt_of_lt_mul (by rw [Nat.mul_comm]; omega)
      have hlt' : ((j / rule.bars : ℕ) : ℤ) * rule.freq < m * rule.freq :=
        Int.mul_lt_mul_of_pos_right (Int.ofNat_lt.mpr hlt) rule.freq_pos
      omega
    rw [hsplit, resampleOhlcv_append happart, List.map_append, ih (by omega), List.range_succ,
      List.map_append]
    congr 1
    rw [hpiece] at hmine ⊢
    have hone : resampleOhlcv rule (first :: rest) =
        [aggregate (start + m * rule.freq) ⟨first, rest⟩] :=
      @resampleOhlcv_single rule _ ⟨first, rest⟩ hmine
    rw [hone]
    -- the last bar of the chunk
    have hlast : rows[Signals.htfBucketCloseIndex m rule.bars]? =
        some (Piece.last ⟨first, rest⟩) := by
      have hget := Piece.getElem?_last (⟨first, rest⟩ : Piece Trading.Candle)
      rw [show Piece.rows ⟨first, rest⟩ = first :: rest from rfl, ← hpiece] at hget
      rw [List.length_take, List.length_drop, List.getElem?_take_of_lt (by omega),
        List.getElem?_drop] at hget
      rw [← hget]
      congr 1
      unfold Signals.htfBucketCloseIndex
      rw [Nat.succ_mul]
      omega
    rw [List.map_singleton, List.map_singleton, List.getD_eq_getElem?_getD, List.getElem?_map,
      hlast]
    rfl

/-- What has closed by a bar of an even tape are the whole candles up to it. -/
theorem complete_take (hrows : ∀ j (hj : j < rows.length), rows[j].ts = start + j * FIVE_MINUTES)
    (hstart : start % rule.freq = 0) (i : ℕ) :
    rows.filter (fun r => CompleteAt rule (start + i * FIVE_MINUTES) (binStart rule r.ts)) =
      rows.take ((i + 1) / rule.bars * rule.bars) := by
  have hfive : (0 : ℤ) < FIVE_MINUTES := by decide
  have hdone : ∀ j (hj : j < rows.length),
      CompleteAt rule (start + i * FIVE_MINUTES) (binStart rule rows[j].ts) ↔
        j < (i + 1) / rule.bars * rule.bars := by
    intro j hj
    have hcount : ((j / rule.bars + 1) * rule.bars : ℕ) * FIVE_MINUTES =
        (j / rule.bars : ℕ) * rule.freq + rule.freq := by
      unfold ResampleRule.freq
      push_cast
      ring
    rw [hrows j hj, binStart_even hstart, ← Nat.div_lt_iff_lt_mul rule.bars_pos,
      Nat.lt_iff_add_one_le, Nat.le_div_iff_mul_le rule.bars_pos]
    unfold CompleteAt
    constructor
    · intro h
      have hle : ((j / rule.bars + 1) * rule.bars : ℕ) * FIVE_MINUTES ≤
          ((i + 1 : ℕ) : ℤ) * FIVE_MINUTES := by
        rw [hcount, Int.natCast_succ, Int.add_mul, Int.one_mul]
        omega
      exact Int.ofNat_le.mp (Int.le_of_mul_le_mul_right hle hfive)
    · intro h
      have hle : ((j / rule.bars + 1) * rule.bars : ℕ) * FIVE_MINUTES ≤
          ((i + 1 : ℕ) : ℤ) * FIVE_MINUTES :=
        Int.mul_le_mul_of_nonneg_right (Int.ofNat_le.mpr h) hfive.le
      rw [hcount, Int.natCast_succ, Int.add_mul, Int.one_mul] at hle
      omega
  conv_lhs => rw [← List.take_append_drop ((i + 1) / rule.bars * rule.bars) rows]
  rw [List.filter_append]
  have hfront : (rows.take ((i + 1) / rule.bars * rule.bars)).filter (fun r =>
      CompleteAt rule (start + i * FIVE_MINUTES) (binStart rule r.ts)) =
      rows.take ((i + 1) / rule.bars * rule.bars) := by
    refine List.filter_eq_self.mpr fun r hr => decide_eq_true ?_
    rw [← List.drop_zero (l := rows)] at hr
    obtain ⟨j, hj, -, hlt, rfl⟩ := mem_chunk hr
    exact (hdone j hj).mpr (by omega)
  have hback : (rows.drop ((i + 1) / rule.bars * rule.bars)).filter (fun r =>
      CompleteAt rule (start + i * FIVE_MINUTES) (binStart rule r.ts)) = [] := by
    refine List.filter_eq_nil_iff.mpr fun r hr hcomplete => ?_
    rw [← List.take_length (l := rows.drop _)] at hr
    obtain ⟨j, hj, hle, -, rfl⟩ := mem_chunk hr
    exact absurd ((hdone j hj).mp (of_decide_eq_true hcomplete)) (by omega)
  rw [hfront, hback, List.append_nil]

end

/-! ## The completed days -/

/-- A candle without its volume. -/
def toBar (c : Trading.Candle) : Library.Bar ℚ := ⟨c.ts, c.open, c.high, c.low, c.close⟩

theorem summary_map (g : Piece Trading.Candle) : Library.summary (g.map toBar) =
    toBar (aggregate (Library.dayOf (toBar g.first) * Library.DAY_MS) g) := by
  unfold Library.summary toBar aggregate Piece.reduce Piece.map Piece.last
  simp only [List.map_map, List.getLastD_map, Library.Bar.mk.injEq, true_and]
  exact ⟨rfl, rfl, trivial⟩

theorem binStart_day (ts : ℤ) : binStart .day ts = Library.dayStart ts := rfl

theorem dropLast_filterMap {α β : Type} {f : α → Option β} {l : List α}
    (h : ∀ a ∈ l, ∃ b, f a = some b) : (l.filterMap f).dropLast = l.dropLast.filterMap f := by
  rcases List.eq_nil_or_concat l with rfl | ⟨front, a, rfl⟩
  · rfl
  · rw [List.concat_eq_append] at h ⊢
    obtain ⟨b, hb⟩ := h a (List.mem_append_right _ (List.mem_singleton_self a))
    rw [List.filterMap_append, List.filterMap_cons_some hb, List.filterMap_nil,
      List.dropLast_concat, List.dropLast_concat]

section
variable {rows : List Trading.Candle}

theorem lastBars_map (h : Ascending Trading.Candle.ts rows) :
    Library.lastBars (rows.map toBar) = rows.map toBar := by
  refine Library.lastBars_of_ascending ?_
  rw [List.map_map]
  exact (List.pairwise_map.mpr h).isChain

theorem days_map (h : Ascending Trading.Candle.ts rows) : Library.days (rows.map toBar) =
    (firstSeen (rows.map fun r => binStart .day r.ts)).map (· / Library.DAY_MS) := by
  have hday : ∀ ts, binStart .day ts / Library.DAY_MS = ts / Library.DAY_MS := fun ts => by
    rw [binStart_day, Library.dayStart_eq, Int.mul_ediv_cancel _ (by decide)]
  refine @StrictlySorted.eq_of_mem_iff _ _ _ id _ _ (Library.days_sorted _) ?_ fun day => ?_
  · have hbins : (firstSeen (rows.map fun r => binStart .day r.ts)).Pairwise (· < ·) :=
      firstSeen_sorted (List.pairwise_map.mpr (h.imp fun hlt => binStart_mono .day hlt.le))
    refine List.pairwise_map.mpr (List.Pairwise.imp_of_mem (fun {t u} ht hu hlt => ?_) hbins)
    obtain ⟨r, -, rfl⟩ := List.mem_map.mp (mem_firstSeen.mp ht)
    obtain ⟨r', -, rfl⟩ := List.mem_map.mp (mem_firstSeen.mp hu)
    have hgap := binStart_gap .day hlt
    rw [binStart_day, binStart_day, Library.dayStart_eq, Library.dayStart_eq] at hlt
    show binStart .day r.ts / _ < binStart .day r'.ts / _
    rw [hday, hday]
    exact Int.lt_of_mul_lt_mul_right hlt (by decide)
  · rw [Library.mem_days, List.mem_map]
    constructor
    · intro hmem
      obtain ⟨b, hb, rfl⟩ := hmem
      obtain ⟨r, hr, rfl⟩ := List.mem_map.mp hb
      exact ⟨_, mem_firstSeen.mpr (List.mem_map_of_mem hr), hday r.ts⟩
    · intro hmem
      obtain ⟨t, ht, rfl⟩ := hmem
      obtain ⟨r, hr, rfl⟩ := List.mem_map.mp (mem_firstSeen.mp ht)
      exact ⟨toBar r, List.mem_map_of_mem hr, (hday r.ts).symm⟩

/-- A completed day is the calendar candle of its midnight. -/
theorem barsOf_map (h : Ascending Trading.Candle.ts rows) {t : ℤ}
    (ht : t ∈ rows.map fun r => binStart .day r.ts) :
    (Library.barsOf (rows.map toBar) (t / Library.DAY_MS)).map Library.summary =
      (candleAt .day rows t).map toBar := by
  have hmidnight : ∀ r : Trading.Candle, Library.dayOf (toBar r) = t / Library.DAY_MS ↔
      binStart .day r.ts = t := by
    intro r
    obtain ⟨r', -, rfl⟩ := List.mem_map.mp ht
    rw [binStart_day, binStart_day, Library.dayStart_inj, Library.dayStart_eq,
      Int.mul_ediv_cancel _ (by decide)]
    rfl
  have hgroup : (rows.map toBar).filter (fun b => Library.dayOf b = t / Library.DAY_MS) =
      (rows.filter fun r => binStart .day r.ts = t).map toBar := by
    rw [List.filter_map]
    congr 1
    exact List.filter_congr fun r _ => decide_eq_decide.mpr (hmidnight r)
  unfold Library.barsOf candleAt
  rw [lastBars_map h, hgroup]
  cases hrows : rows.filter fun r => binStart .day r.ts = t with
  | nil => rfl
  | cons first rest =>
    have hfirst : binStart .day first.ts = t := by
      have hmem : first ∈ rows.filter fun r => binStart .day r.ts = t := by
        rw [hrows]
        exact List.mem_cons_self
      exact of_decide_eq_true (List.mem_filter.mp hmem).2
    show some (Library.summary (Piece.map toBar ⟨first, rest⟩)) = _
    rw [summary_map, show Library.dayOf (toBar first) * Library.DAY_MS = t from
      (Library.dayStart_eq first.ts).symm.trans hfirst]
    rfl

theorem reference_map (h : Ascending Trading.Candle.ts rows) :
    Library.reference (rows.map toBar) = (resampleOhlcv .day rows).dropLast.map toBar := by
  unfold Library.reference
  rw [days_map h, ← List.map_dropLast, List.filterMap_map, resampleOhlcv_eq,
    dropLast_filterMap fun t ht => exists_candleAt (mem_firstSeen.mp ht), List.map_filterMap]
  refine List.filterMap_congr fun t ht => ?_
  exact barsOf_map h (mem_firstSeen.mp (List.mem_of_mem_dropLast ht))

end

/-- Three ways to the candles of one tape. Its completed UTC days are the calendar days but
the newest, whatever gaps it has. If it has no gap and begins with a candle, the closes that
are counted by a bar are the closes of the calendar candles known at that bar. -/
theorem resamplers_agree {rows : List Trading.Candle} (h : Ascending Trading.Candle.ts rows) :
    Library.dailyBars (rows.map toBar) =
      some (Library.DailyBars.ofRows ((resampleOhlcv .day rows).dropLast.map toBar)) ∧
    ∀ rule : ResampleRule, EvenlySpaced Trading.Candle.ts FIVE_MINUTES rows →
      (∀ r ∈ rows.head?, r.ts % rule.freq = 0) → ∀ i (hi : i < rows.length),
      (causalResampleOhlcv rule rows (some rows[i].ts)).map Trading.Candle.close =
        Signals.plainBuckets (rows.map Trading.Candle.close) rule.bars (some i) := by
  refine ⟨by rw [Library.dailyBars_eq, reference_map h], fun rule heven hhead i hi => ?_⟩
  cases rows with
  | nil => exact absurd hi (Nat.not_lt_zero i)
  | cons first rest =>
    have hstart : first.ts % rule.freq = 0 := hhead first rfl
    have hrows : ∀ j (hj : j < (first :: rest).length),
        (first :: rest)[j].ts = first.ts + j * FIVE_MINUTES := fun j hj => heven.key_getElem hj
    have hgrid : ∀ r ∈ first :: rest, r.ts % FIVE_MINUTES = 0 := by
      intro r hr
      obtain ⟨j, hj, rfl⟩ := List.mem_iff_getElem.mp hr
      rw [hrows j hj]
      unfold ResampleRule.freq at hstart
      rw [Int.add_mul_emod_self_right]
      exact Int.emod_eq_zero_of_dvd ((Int.dvd_mul_left _ _).trans (Int.dvd_of_emod_eq_zero hstart))
    have hcount : (i + 1) / rule.bars ≤ (first :: rest).length / rule.bars :=
      Nat.div_le_div_right hi
    have hblocks := (Nat.mul_le_mul_right rule.bars hcount).trans (Nat.div_mul_le_self _ _)
    rw [causalResample_eq (h.imp fun hlt => le_of_lt hlt), ← complete_known hgrid,
      resampleOhlcv_filter fun t => decide (CompleteAt rule _ t), hrows i hi,
      complete_take hrows hstart, closes_of_blocks hrows hstart _ hblocks]
    have hbar : Signals.barOf ((first :: rest).map Trading.Candle.close) (some i) = i := rfl
    unfold Signals.plainBuckets Signals.htfClosesAll Signals.completedHtfCount
    rw [hbar, if_neg (by omega), Int.toNat_natCast, if_neg rule.bars_pos.ne', ← List.map_take,
      List.take_range, List.length_map, Nat.min_eq_left hcount]

theorem resamplers_agree_morning :
    (causalResampleOhlcv .quarterHour (morning 8) (some 1800000)).map Trading.Candle.close =
      Signals.plainBuckets ((morning 8).map Trading.Candle.close) 3 (some 6) :=
  (resamplers_agree (morning_ascending 8)).2 .quarterHour (morning_even 8) (by decide) 6 (by decide)

end PaperTrading.Data
