import PaperTrading.Lib.Pieces
import PaperTrading.Lib.LastByKey
import Mathlib.Data.Finset.Sort

/-!
# Completed days of the stored tape

`library/daily.py`: `dailyBars` resamples 5-minute bars into completed UTC days. It works
on columns: sort and drop duplicates unless the stamps ascend already, cut where the day
changes, drop the newest piece, reduce each of the others.

`reference` says what it is for: of every stamp the last bar, grouped by day, without the
newest day. `daily_bars_reference` has both equal for every list of bars, and the days of
`reference` unchanged as long as the bars before its newest day are (`Keeps`).
Prices are any type with `max` and `min`; nothing is asked of the two.
-/

namespace PaperTrading.Library

open PaperTrading.Lib

def DAY_MS : ℤ := 86400000

/-- A 5-minute bar, or a day with its 00:00 UTC as `ts`. -/
structure Bar (α : Type) where
  ts : ℤ
  open_ : α
  high : α
  low : α
  close : α
deriving DecidableEq

/-- Completed UTC days, a column each. -/
structure DailyBars (α : Type) where
  ts : List ℤ
  open_ : List α
  high : List α
  low : List α
  close : List α
deriving DecidableEq

def emptyDaily {α : Type} : DailyBars α := ⟨[], [], [], [], []⟩

variable {α : Type}

def dayStart (t : ℤ) : ℤ := t - t % DAY_MS

/-- `daily_bars`. `none` is an `IndexError`. -/
def dailyBars [Max α] [Min α] (bars : List (Bar α)) : Option (DailyBars α) :=
  if bars = [] then some emptyDaily
  else
    let kept := if (bars.map Bar.ts).IsChain (· < ·) then bars else dedupLast Bar.ts bars
    let day := kept.map fun b => dayStart b.ts
    let starts := (runStarts day).dropLast
    let ends := (runEnds day).dropLast
    if starts = [] then some emptyDaily
    else do
      let stop ← ends.getLast?
      return {
        ts := ← starts.mapM fun s => day[s]?
        open_ := ← starts.mapM fun s => (kept.map Bar.open_)[s]?
        high := ← reduceat max ((kept.map Bar.high).take stop) starts
        low := ← reduceat min ((kept.map Bar.low).take stop) starts
        close := ← ends.mapM fun e => (kept.map Bar.close)[e - 1]? }

/-! ## The reference -/

/-- Days since the epoch. -/
def dayOf (b : Bar α) : ℤ := b.ts / DAY_MS

/-- The last bar of every stamp, in order of time. -/
def lastBars (bars : List (Bar α)) : List (Bar α) :=
  ((bars.map Bar.ts).toFinset.sort).filterMap fun t => lastWith Bar.ts t bars

/-- The days with a bar, in order. -/
def days (bars : List (Bar α)) : List ℤ := (bars.map dayOf).toFinset.sort

/-- First open, highest high, lowest low, last close. -/
def summary [Max α] [Min α] (g : Piece (Bar α)) : Bar α where
  ts := dayOf g.first * DAY_MS
  open_ := g.first.open_
  high := (g.map Bar.high).reduce max
  low := (g.map Bar.low).reduce min
  close := g.last.close

/-- The bars of a day, the last of every stamp. -/
def barsOf (bars : List (Bar α)) (day : ℤ) : Option (Piece (Bar α)) :=
  Piece.ofList ((lastBars bars).filter fun b => dayOf b = day)

/-- Every day but the newest, from its bars. -/
def reference [Max α] [Min α] (bars : List (Bar α)) : List (Bar α) :=
  (days bars).dropLast.filterMap fun day => (barsOf bars day).map summary

def DailyBars.ofRows (rows : List (Bar α)) : DailyBars α :=
  ⟨rows.map Bar.ts, rows.map Bar.open_, rows.map Bar.high, rows.map Bar.low, rows.map Bar.close⟩

/-- The bars before the newest day of `bars` have the same last bar of every stamp in
`bars'`, and some bar there is of that day or a later one. -/
structure Keeps (bars bars' : List (Bar α)) : Prop where
  before : ∀ newest ∈ (days bars).getLast?, ∀ t, t / DAY_MS < newest →
    lastWith Bar.ts t bars' = lastWith Bar.ts t bars
  reaches : ∀ newest ∈ (days bars).getLast?, ∃ b ∈ bars', newest ≤ dayOf b

/-! ## What is kept -/

theorem dayStart_eq (t : ℤ) : dayStart t = t / DAY_MS * DAY_MS := by
  unfold dayStart
  have hdiv := Int.mul_ediv_add_emod t DAY_MS
  rw [Int.mul_comm] at hdiv
  omega

theorem dayStart_inj {t u : ℤ} : dayStart t = dayStart u ↔ t / DAY_MS = u / DAY_MS := by
  rw [dayStart_eq, dayStart_eq]
  exact Int.mul_eq_mul_right_iff (by decide)

theorem mem_lastBars {bars : List (Bar α)} {b : Bar α} :
    b ∈ lastBars bars ↔ lastWith Bar.ts b.ts bars = some b := by
  unfold lastBars
  rw [List.mem_filterMap]
  constructor
  · rintro ⟨t, -, hb⟩
    rw [lastWith_key hb]
    exact hb
  · intro hb
    refine ⟨b.ts, ?_, hb⟩
    rw [Finset.mem_sort, List.mem_toFinset]
    exact List.mem_map_of_mem (mem_of_lastWith hb)

theorem lastBars_sorted (bars : List (Bar α)) : StrictlySorted Bar.ts (lastBars bars) := by
  unfold lastBars StrictlySorted
  rw [List.pairwise_filterMap]
  refine (Finset.sortedLT_sort _).pairwise.imp fun hlt b hb c hc => ?_
  rw [lastWith_key hb, lastWith_key hc]
  exact hlt

theorem dedupLast_eq (bars : List (Bar α)) : dedupLast Bar.ts bars = lastBars bars :=
  (dedupLast_sorted bars).eq_of_mem_iff (lastBars_sorted bars) fun _ =>
    mem_dedupLast.trans mem_lastBars.symm

/-- Bars whose stamps ascend are all kept. -/
theorem lastBars_of_ascending {bars : List (Bar α)} (h : (bars.map Bar.ts).IsChain (· < ·)) :
    lastBars bars = bars := by
  have hsorted : StrictlySorted Bar.ts bars := List.pairwise_map.mp (List.isChain_iff_pairwise.mp h)
  refine (lastBars_sorted bars).eq_of_mem_iff hsorted fun b => ?_
  rw [mem_lastBars, hsorted.lastWith]

/-! ## Days -/

theorem mem_days {bars : List (Bar α)} {day : ℤ} : day ∈ days bars ↔ ∃ b ∈ bars, dayOf b = day := by
  unfold days
  rw [Finset.mem_sort, List.mem_toFinset, List.mem_map]

theorem days_nil : days ([] : List (Bar α)) = [] := Finset.sort_empty _

theorem days_sorted (bars : List (Bar α)) : (days bars).Pairwise (· < ·) :=
  (Finset.sortedLT_sort _).pairwise

theorem mem_barsOf {bars : List (Bar α)} {day : ℤ} {g : Piece (Bar α)} (h : barsOf bars day = some g)
    {b : Bar α} : b ∈ g.rows ↔ b ∈ lastBars bars ∧ dayOf b = day := by
  rw [← Piece.ofList_eq_some.mp h, List.mem_filter, decide_eq_true_eq]

/-- A day with a bar has a last one. -/
theorem exists_barsOf {bars : List (Bar α)} {day : ℤ} (h : day ∈ days bars) :
    ∃ g, barsOf bars day = some g := by
  obtain ⟨b, hb, hday⟩ := mem_days.mp h
  obtain ⟨c, hc⟩ : ∃ c, lastWith Bar.ts b.ts bars = some c := by
    cases hlast : lastWith Bar.ts b.ts bars with
    | some c => exact ⟨c, rfl⟩
    | none => exact absurd rfl (lastWith_eq_none.mp hlast b hb)
  have hts := lastWith_key hc
  have hin : c ∈ (lastBars bars).filter fun b => dayOf b = day := by
    refine List.mem_filter.mpr ⟨mem_lastBars.mpr (hts ▸ hc), decide_eq_true ?_⟩
    unfold dayOf at hday ⊢
    rw [hts, hday]
  unfold barsOf
  cases hfilter : (lastBars bars).filter fun b => dayOf b = day with
  | nil => rw [hfilter] at hin; cases hin
  | cons d rest => exact ⟨_, rfl⟩

/-! ## The tape, day by day -/

/-- The bars of every day, one day after the other. -/
def pieces (bars : List (Bar α)) : List (Piece (Bar α)) := (days bars).filterMap (barsOf bars)

theorem flat_pieces (bars : List (Bar α)) : flat (pieces bars) = lastBars bars := by
  have hrows : flat (pieces bars) =
      (days bars).flatMap fun day => (lastBars bars).filter fun b => dayOf b = day := by
    unfold flat pieces barsOf
    induction days bars with
    | nil => rfl
    | cons day rest ih =>
      rw [List.filterMap_cons, List.flatMap_cons, ← ih]
      cases (lastBars bars).filter fun b => dayOf b = day <;> rfl
  rw [hrows]
  refine StrictlySorted.eq_of_mem_iff ?_ (lastBars_sorted bars) fun b => ?_
  · refine List.pairwise_flatMap.mpr ⟨fun day _ => (lastBars_sorted bars).filter _, ?_⟩
    refine (days_sorted bars).imp fun {day day'} hlt b hb c hc => ?_
    have hb' : b.ts / DAY_MS = day := of_decide_eq_true (List.mem_filter.mp hb).2
    have hc' : c.ts / DAY_MS = day' := of_decide_eq_true (List.mem_filter.mp hc).2
    by_contra hle
    have hmono := Int.ediv_le_ediv (by decide : 0 < DAY_MS) (not_lt.mp hle)
    omega
  · rw [List.mem_flatMap]
    constructor
    · rintro ⟨day, -, hb⟩
      exact (List.mem_filter.mp hb).1
    · intro hb
      have hday : dayOf b ∈ days bars :=
        mem_days.mpr ⟨b, mem_of_lastWith (mem_lastBars.mp hb), rfl⟩
      exact ⟨dayOf b, hday, List.mem_filter.mpr ⟨hb, decide_eq_true rfl⟩⟩

theorem runs_pieces (bars : List (Bar α)) : Runs (fun b => dayStart b.ts) (pieces bars) := by
  have hday : ∀ {day : ℤ} {g}, barsOf bars day = some g → ∀ b ∈ g.rows, b.ts / DAY_MS = day :=
    fun hg b hb => ((mem_barsOf hg).mp hb).2
  constructor
  · intro g hg b hb
    obtain ⟨day, -, hday'⟩ := List.mem_filterMap.mp hg
    refine dayStart_inj.mpr ?_
    rw [hday hday' b (List.mem_cons_of_mem _ hb), hday hday' g.first List.mem_cons_self]
  · refine List.pairwise_filterMap.mpr ((days_sorted bars).imp fun hlt g hg h hh heq => ?_)
    have hsame := dayStart_inj.mp heq
    rw [hday hg g.first List.mem_cons_self, hday hh h.first List.mem_cons_self] at hsame
    omega

theorem kept_eq (bars : List (Bar α)) :
    (if (bars.map Bar.ts).IsChain (· < ·) then bars else dedupLast Bar.ts bars) =
      flat (pieces bars) := by
  rw [flat_pieces]
  split
  next h => exact (lastBars_of_ascending h).symm
  next => exact dedupLast_eq bars

theorem reference_eq [Max α] [Min α] (bars : List (Bar α)) :
    reference bars = ((days bars).dropLast.filterMap (barsOf bars)).map summary := by
  unfold reference
  rw [List.map_filterMap]

/-- The pieces are those of the completed days and one more. -/
theorem pieces_concat {bars : List (Bar α)} (h : bars ≠ []) :
    ∃ g, pieces bars = (days bars).dropLast.filterMap (barsOf bars) ++ [g] := by
  have hdays : days bars ≠ [] := by
    intro hnil
    obtain ⟨b, hb⟩ := List.exists_mem_of_ne_nil _ h
    have hmem := mem_days.mpr ⟨b, hb, rfl⟩
    rw [hnil] at hmem
    cases hmem
  obtain ⟨g, hg⟩ := exists_barsOf (List.getLast_mem hdays)
  refine ⟨g, ?_⟩
  unfold pieces
  rw [← List.dropLast_append_getLast hdays, List.filterMap_append, List.dropLast_concat]
  congr 1
  rw [List.filterMap_cons, hg]
  rfl

theorem dailyBars_eq [Max α] [Min α] (bars : List (Bar α)) :
    dailyBars bars = some (DailyBars.ofRows (reference bars)) := by
  unfold dailyBars
  split
  next h =>
    rw [h, reference, days_nil]
    rfl
  next h =>
    obtain ⟨newest, hpieces⟩ := pieces_concat h
    rw [reference_eq]
    generalize (days bars).dropLast.filterMap (barsOf bars) = gs at hpieces ⊢
    have hruns := runs_pieces bars
    have hflat : flat (pieces bars) = flat gs ++ newest.rows := by
      rw [hpieces, flat_append, flat_cons, flat_nil, List.append_nil]
    have hcut : (runStarts ((flat (pieces bars)).map fun b => dayStart b.ts)).dropLast =
          offsets 0 gs ∧
        (runEnds ((flat (pieces bars)).map fun b => dayStart b.ts)).dropLast = ends 0 gs := by
      rw [hpieces] at hruns ⊢
      rw [← offsets_dropLast gs newest, ← ends_dropLast gs newest]
      cases gs with
      | nil => exact ⟨congrArg _ (runStarts_flat hruns), congrArg _ (runEnds_flat hruns)⟩
      | cons g gs => exact ⟨congrArg _ (runStarts_flat hruns), congrArg _ (runEnds_flat hruns)⟩
    simp only [kept_eq, hcut.1, hcut.2]
    split
    next hnone =>
      cases gs with
      | nil => rfl
      | cons g gs => cases hnone
    next hsome =>
      have hstop : (ends 0 gs).getLast? = some (flat gs).length := by
        cases gs with
        | nil => exact absurd rfl hsome
        | cons g gs => rw [getLast?_ends, Nat.zero_add]
      have htake : ∀ f : Bar α → α, ((flat gs ++ newest.rows).map f).take (flat gs).length =
          (flat gs).map f := by
        intro f
        rw [List.map_append, ← List.length_map, List.take_left]
      rw [hstop, hflat]
      simp only [htake, column_offsets, column_ends, column_reduceat, Option.bind_eq_bind,
        Option.bind_some]
      unfold DailyBars.ofRows
      simp only [List.map_map]
      have hts : gs.map (fun g => dayStart g.first.ts) = gs.map (Bar.ts ∘ summary) :=
        List.map_congr_left fun g _ => dayStart_eq g.first.ts
      rw [hts]
      rfl

/-! ## Completed days stay -/

/-- A sorted list is its elements below a bound and then the others. -/
theorem sorted_split {l : List ℤ} (h : l.Pairwise (· < ·)) (bound : ℤ) :
    l = l.filter (· < bound) ++ l.filter (bound ≤ ·) := by
  refine @StrictlySorted.eq_of_mem_iff _ _ _ id _ _ h ?_ fun d => ?_
  · refine List.pairwise_append.mpr ⟨h.filter _, h.filter _, fun d hd e he => ?_⟩
    have hd' : d < bound := of_decide_eq_true (List.mem_filter.mp hd).2
    have he' : bound ≤ e := of_decide_eq_true (List.mem_filter.mp he).2
    exact hd'.trans_le he'
  · rw [List.mem_append, List.mem_filter, List.mem_filter, ← and_or_left, and_iff_left]
    rcases lt_or_ge d bound with hlt | hge
    · exact Or.inl (decide_eq_true hlt)
    · exact Or.inr (decide_eq_true hge)

section
variable {bars bars' : List (Bar α)} {newest : ℤ}

theorem Keeps.lastBars_iff (h : Keeps bars bars') (hn : newest ∈ (days bars).getLast?) {b : Bar α}
    (hb : dayOf b < newest) : b ∈ lastBars bars' ↔ b ∈ lastBars bars := by
  rw [mem_lastBars, mem_lastBars, h.before newest hn b.ts hb]

theorem Keeps.barsOf_eq (h : Keeps bars bars') (hn : newest ∈ (days bars).getLast?) {day : ℤ}
    (hday : day < newest) : barsOf bars' day = barsOf bars day := by
  unfold barsOf
  congr 1
  refine @StrictlySorted.eq_of_mem_iff _ _ _ Bar.ts _ _ ((lastBars_sorted bars').filter _)
    ((lastBars_sorted bars).filter _) fun b => ?_
  rw [List.mem_filter, List.mem_filter, decide_eq_true_eq]
  exact and_congr_left fun hb => h.lastBars_iff hn (hb ▸ hday)

/-- A day has bars as soon as it has last bars. -/
theorem mem_days_lastBars {day : ℤ} : day ∈ days bars ↔ ∃ b ∈ lastBars bars, dayOf b = day := by
  constructor
  · intro h
    obtain ⟨g, hg⟩ := exists_barsOf h
    exact ⟨g.first, (mem_barsOf hg).mp List.mem_cons_self⟩
  · rintro ⟨b, hb, hday⟩
    exact mem_days.mpr ⟨b, mem_of_lastWith (mem_lastBars.mp hb), hday⟩

/-- The completed days of `bars` are the days of `bars'` before the newest. -/
theorem Keeps.completed_eq (h : Keeps bars bars') (hn : newest ∈ (days bars).getLast?) :
    (days bars).dropLast = (days bars').filter (· < newest) := by
  have hdays : days bars = (days bars).dropLast ++ [newest] :=
    (List.dropLast_append_getLast? newest hn).symm
  have hsorted := days_sorted bars
  rw [hdays, List.pairwise_append] at hsorted
  refine @StrictlySorted.eq_of_mem_iff _ _ _ id _ _ hsorted.1 ((days_sorted bars').filter _) fun d => ?_
  have hbelow : d ∈ (days bars).dropLast ↔ d ∈ days bars ∧ d < newest := by
    constructor
    · intro hd
      exact ⟨List.mem_of_mem_dropLast hd, hsorted.2.2 d hd newest (List.mem_singleton.mpr rfl)⟩
    · rintro ⟨hd, hlt⟩
      rw [hdays, List.mem_append, List.mem_singleton] at hd
      exact hd.resolve_right hlt.ne
  rw [hbelow, List.mem_filter, decide_eq_true_eq, mem_days_lastBars, mem_days_lastBars]
  refine and_congr_left fun hlt => exists_congr fun b => ?_
  refine and_congr_left fun hb => (h.lastBars_iff hn (hb ▸ hlt)).symm

theorem reference_prefix [Max α] [Min α] (h : Keeps bars bars') :
    reference bars <+: reference bars' := by
  cases hn : (days bars).getLast? with
  | none =>
    unfold reference
    rw [List.getLast?_eq_none_iff.mp hn]
    exact List.nil_prefix
  | some newest =>
    have hlater : (days bars').filter (newest ≤ ·) ≠ [] := by
      obtain ⟨b, hb, hle⟩ := h.reaches newest hn
      exact List.ne_nil_of_mem (List.mem_filter.mpr ⟨mem_days.mpr ⟨b, hb, rfl⟩, decide_eq_true hle⟩)
    unfold reference
    rw [sorted_split (days_sorted bars') newest, List.dropLast_append_of_ne_nil hlater,
      List.filterMap_append, ← h.completed_eq hn]
    have hsame : (days bars).dropLast.filterMap (fun day => (barsOf bars' day).map summary) =
        (days bars).dropLast.filterMap (fun day => (barsOf bars day).map summary) := by
      refine List.filterMap_congr fun day hday => ?_
      rw [h.completed_eq hn] at hday
      rw [h.barsOf_eq hn (of_decide_eq_true (List.mem_filter.mp hday).2)]
    rw [hsame]
    exact List.prefix_append ..

end

/-- Bars put behind the others, none before the newest day. -/
theorem Keeps.append {bars later : List (Bar α)}
    (h : ∀ newest ∈ (days bars).getLast?, ∀ b ∈ later, newest ≤ dayOf b) :
    Keeps bars (bars ++ later) := by
  constructor
  · intro newest hn t ht
    have hnone : lastWith Bar.ts t later = none := by
      refine lastWith_eq_none.mpr fun b hb heq => ?_
      have hle := h newest hn b hb
      unfold dayOf at hle
      rw [heq] at hle
      omega
    rw [lastWith_append, hnone]
    rfl
  · intro newest hn
    obtain ⟨b, hb, rfl⟩ := mem_days.mp (List.mem_of_getLast? hn)
    exact ⟨b, List.mem_append_left _ hb, le_refl _⟩

/-- `daily_bars` is its reference on every list of bars, and its completed days stay the
same under bars that come later and under any change from the newest day on. -/
theorem daily_bars_reference [Max α] [Min α] (bars : List (Bar α)) :
    dailyBars bars = some (DailyBars.ofRows (reference bars)) ∧
    (∀ later, (∀ newest ∈ (days bars).getLast?, ∀ b ∈ later, newest ≤ dayOf b) →
      ∃ more, dailyBars (bars ++ later) = some (DailyBars.ofRows (reference bars ++ more))) ∧
    ∀ bars', Keeps bars bars' →
      ∃ more, dailyBars bars' = some (DailyBars.ofRows (reference bars ++ more)) := by
  have hkeeps : ∀ bars', Keeps bars bars' →
      ∃ more, dailyBars bars' = some (DailyBars.ofRows (reference bars ++ more)) := by
    intro bars' h
    obtain ⟨more, hmore⟩ := reference_prefix h
    exact ⟨more, by rw [dailyBars_eq, hmore]⟩
  exact ⟨dailyBars_eq bars, fun later h => hkeeps _ (Keeps.append h), hkeeps⟩

/-- Two days out of order, one stamp twice, and a bar behind them. -/
theorem daily_bars_reference_late : ∃ more,
    dailyBars [⟨86400000, 5, 6, 4, 5⟩, ⟨300000, 2, 3, 1, 2⟩, ⟨0, 9, 9, 9, 9⟩, ⟨0, 1, 2, 1, 1⟩,
        ⟨86700000, 7, 8, 7, (8 : ℕ)⟩] =
      some (DailyBars.ofRows (reference [⟨86400000, 5, 6, 4, 5⟩, ⟨300000, 2, 3, 1, 2⟩,
        ⟨0, 9, 9, 9, 9⟩, ⟨0, 1, 2, 1, 1⟩] ++ more)) := by
  refine (daily_bars_reference [_, _, _, _]).2.1 [_] fun newest hn b hb => ?_
  obtain ⟨c, hc, rfl⟩ := mem_days.mp (List.mem_of_getLast? hn)
  rw [List.mem_singleton.mp hb]
  simp only [List.mem_cons, List.not_mem_nil, or_false] at hc
  rcases hc with rfl | rfl | rfl | rfl <;> decide

example : dailyBars [⟨86400000, 5, 6, 4, 5⟩, ⟨300000, 2, 3, 1, 2⟩, ⟨0, 9, 9, 9, 9⟩,
    ⟨0, 1, 2, 1, (1 : ℕ)⟩] = some ⟨[0], [1], [3], [1], [2]⟩ := by decide +kernel

end PaperTrading.Library
