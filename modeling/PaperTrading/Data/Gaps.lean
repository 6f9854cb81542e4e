import Mathlib.Data.Finset.Card
import Mathlib.Tactic.Ring
import PaperTrading.Data.CandleSync

/-!
# Gaps in the stored bars

The gap scan of `data/candle_quality.py`: the steps between stored bars that are not one bar
long are counted, as known where a documented outage covers the hole and as unexpected
elsewhere, and the first of them are listed.

An outage covers a bar whose five minutes it overlaps, so a bar that opens before the outage
does can be covered by it. `gaps_classified` says what is reported of a sorted list of opens.
-/

namespace PaperTrading.Data

open PaperTrading.Lib

def GAP_REPORT_LIMIT : ℕ := 20

/-- A documented suspension; its end is exclusive. -/
structure Outage where
  startMs : ℤ
  endMs : ℤ
  reason : String
deriving DecidableEq, Repr

/-- `missing_bars` -/
def missingBars (deltaMs : ℤ) : ℤ :=
  if deltaMs ≤ TF_MS then 0 else max 1 (deltaMs / TF_MS - 1)

/-- `_overlaps_outage` -/
def overlapsOutage (openMs : ℤ) (o : Outage) : Bool :=
  openMs < o.endMs && openMs + TF_MS > o.startMs

/-- `known_outage_reason` -/
def knownOutageReason (table : List Outage) (prevOpenMs nextOpenMs : ℤ) : Option String :=
  let first := prevOpenMs + TF_MS
  let last := if nextOpenMs - TF_MS < first then first else nextOpenMs - TF_MS
  (table.find? fun o => overlapsOutage first o && overlapsOutage last o).map (·.reason)

/-- An entry of `gaps`; the bars it lies between by their opens. -/
structure Gap where
  after : ℤ
  before : ℤ
  missingBars : ℤ
  known : Bool
  reason : Option String
deriving DecidableEq, Repr

structure GapSummary where
  gapCount : ℕ := 0
  knownGapCount : ℕ := 0
  duplicates : ℕ := 0
  monotonic : Bool := true
  gaps : List Gap := []
deriving DecidableEq, Repr

/-- The entry of a step. -/
def gapOf (table : List Outage) (p : ℤ × ℤ) : Gap :=
  { after := p.1, before := p.2, missingBars := missingBars (p.2 - p.1)
    known := (knownOutageReason table p.1 p.2).isSome
    reason := knownOutageReason table p.1 p.2 }

/-- One pair of `summarize_breaks`. -/
def GapSummary.add (table : List Outage) (s : GapSummary) (p : ℤ × ℤ) : GapSummary :=
  let delta := p.2 - p.1
  if delta ≤ 0 then
    { s with monotonic := false, duplicates := if delta = 0 then s.duplicates + 1 else s.duplicates }
  else if delta = TF_MS then s
  else
    { s with
      gapCount := if (knownOutageReason table p.1 p.2).isNone then s.gapCount + 1 else s.gapCount
      knownGapCount :=
        if (knownOutageReason table p.1 p.2).isNone then s.knownGapCount else s.knownGapCount + 1
      gaps := if s.gaps.length < GAP_REPORT_LIMIT then s.gaps ++ [gapOf table p] else s.gaps }

/-- `summarize_breaks` -/
def summarizeBreaks (table : List Outage) (pairs : List (ℤ × ℤ)) : GapSummary :=
  pairs.foldl (GapSummary.add table) {}

/-- The steps that are not one bar. -/
def irregular (opens : List ℤ) : List (ℤ × ℤ) := (steps opens).filter fun p => p.2 - p.1 ≠ TF_MS

/-- `summarize_timestamp_array` -/
def summarizeTimestampArray (table : List Outage) (opens : List ℤ) : GapSummary :=
  if opens.length < 2 then {} else summarizeBreaks table (irregular opens)

/-- What the store reports of a symbol. -/
def Store.gapSummary (table : List Outage) (s : Store) : GapSummary :=
  summarizeBreaks table s.gapEdges

/-! ## One hole -/

/-- The opens that are missing between two bars. -/
def missingOpens (p : ℤ × ℤ) : Finset ℤ :=
  ((Finset.range (p.2 - p.1).toNat).image fun i : ℕ => p.1 + i).filter fun t =>
    p.1 < t ∧ TF_MS ∣ t - p.1

theorem mem_missingOpens {p : ℤ × ℤ} {t : ℤ} :
    t ∈ missingOpens p ↔ (p.1 < t ∧ t < p.2) ∧ TF_MS ∣ t - p.1 := by
  unfold missingOpens
  rw [Finset.mem_filter, Finset.mem_image]
  constructor
  · rintro ⟨⟨i, hi, rfl⟩, hafter, hdvd⟩
    have hi := Finset.mem_range.mp hi
    exact ⟨⟨hafter, by omega⟩, hdvd⟩
  · rintro ⟨⟨hafter, hbefore⟩, hdvd⟩
    refine ⟨⟨(t - p.1).toNat, Finset.mem_range.mpr (by omega), by omega⟩, hafter, hdvd⟩

/-- A hole of whole bars: so many missing opens, from the one after its first bar on. -/
theorem missingOpens_eq {p : ℤ × ℤ} {k : ℕ} (h : p.2 - p.1 = (k + 1) * TF_MS) :
    missingOpens p = (Finset.range k).image fun i : ℕ => p.1 + (i + 1) * TF_MS := by
  ext t
  rw [mem_missingOpens, Finset.mem_image]
  unfold TF_MS at h ⊢
  constructor
  · rintro ⟨⟨hafter, hbefore⟩, c, hc⟩
    refine ⟨(c - 1).toNat, Finset.mem_range.mpr (by omega), ?_⟩
    omega
  · rintro ⟨i, hi, rfl⟩
    have hi := Finset.mem_range.mp hi
    exact ⟨⟨by omega, by omega⟩, i + 1, by ring⟩

/-- Of a hole of whole bars `missing_bars` is the number of missing opens. -/
theorem missingBars_eq {p : ℤ × ℤ} (hgap : 0 < p.2 - p.1 ∧ p.2 - p.1 ≠ TF_MS)
    (hwhole : TF_MS ∣ p.2 - p.1) : missingBars (p.2 - p.1) = (missingOpens p).card := by
  obtain ⟨c, hc⟩ := hwhole
  have hpos : 2 ≤ c := by
    unfold TF_MS at hgap hc
    omega
  have hk : p.2 - p.1 = (((c - 1).toNat : ℕ) + 1) * TF_MS := by
    rw [hc, Int.toNat_of_nonneg (by omega)]
    ring
  rw [missingOpens_eq hk, Finset.card_image_of_injective, Finset.card_range]
  · unfold missingBars
    rw [hc]
    unfold TF_MS
    rw [if_neg (by omega), Int.mul_ediv_cancel_left _ (by decide), Int.toNat_of_nonneg (by omega)]
    omega
  · intro i j hij
    have hij : p.1 + ((i : ℤ) + 1) * TF_MS = p.1 + ((j : ℤ) + 1) * TF_MS := hij
    unfold TF_MS at hij
    omega

/-- An outage that covers the first and the last missing bar covers all of them. -/
theorem knownOutageReason_isSome (table : List Outage) {p : ℤ × ℤ}
    (hgap : 0 < p.2 - p.1 ∧ p.2 - p.1 ≠ TF_MS) (hwhole : TF_MS ∣ p.2 - p.1) :
    (knownOutageReason table p.1 p.2).isSome = true ↔
      ∃ o ∈ table, ∀ t ∈ missingOpens p, overlapsOutage t o = true := by
  obtain ⟨c, hc⟩ := hwhole
  have hpos : 2 ≤ c := by
    unfold TF_MS at hgap hc
    omega
  have hlast : ¬ p.2 - TF_MS < p.1 + TF_MS := by
    unfold TF_MS at hc ⊢
    omega
  unfold knownOutageReason
  dsimp only
  rw [if_neg hlast, Option.isSome_map, List.find?_isSome]
  constructor
  · rintro ⟨o, ho, hboth⟩
    refine ⟨o, ho, fun t ht => ?_⟩
    obtain ⟨⟨hafter, hbefore⟩, d, hd⟩ := mem_missingOpens.mp ht
    unfold overlapsOutage at hboth ⊢
    unfold TF_MS at hboth hc hd ⊢
    rw [Bool.and_eq_true, Bool.and_eq_true, Bool.and_eq_true, decide_eq_true_eq,
      decide_eq_true_eq, decide_eq_true_eq, decide_eq_true_eq] at hboth
    rw [Bool.and_eq_true, decide_eq_true_eq, decide_eq_true_eq]
    omega
  · rintro ⟨o, ho, hall⟩
    refine ⟨o, ho, ?_⟩
    rw [Bool.and_eq_true]
    refine ⟨hall _ (mem_missingOpens.mpr ⟨?_, 1, by ring⟩), hall _ (mem_missingOpens.mpr ⟨?_, c - 1, ?_⟩)⟩
    · unfold TF_MS at hc ⊢
      omega
    · unfold TF_MS at hc ⊢
      omega
    · rw [sub_right_comm, hc]
      ring

/-- On the grid of the bars, overlapping an outage is opening in it. -/
theorem overlapsOutage_aligned {t prev : ℤ} {o : Outage} (ht : TF_MS ∣ t - prev)
    (ho : TF_MS ∣ o.startMs - prev) :
    overlapsOutage t o = true ↔ o.startMs ≤ t ∧ t < o.endMs := by
  obtain ⟨c, hc⟩ := ht
  obtain ⟨d, hd⟩ := ho
  unfold overlapsOutage
  rw [Bool.and_eq_true, decide_eq_true_eq, decide_eq_true_eq]
  unfold TF_MS at hc hd ⊢
  omega

/-! ## All of them -/

/-- The summary of steps that all go up and are not one bar. -/
theorem foldl_add_gaps {table : List Outage} : ∀ (pairs : List (ℤ × ℤ)) (s : GapSummary),
    (∀ p ∈ pairs, 0 < p.2 - p.1 ∧ p.2 - p.1 ≠ TF_MS) → s.gaps.length ≤ GAP_REPORT_LIMIT →
    pairs.foldl (GapSummary.add table) s =
      { s with
        gapCount := s.gapCount + pairs.countP fun p => (knownOutageReason table p.1 p.2).isNone
        knownGapCount :=
          s.knownGapCount + pairs.countP fun p => (knownOutageReason table p.1 p.2).isSome
        gaps := s.gaps ++ (pairs.map (gapOf table)).take (GAP_REPORT_LIMIT - s.gaps.length) } := by
  intro pairs
  induction pairs with
  | nil => intro s _ _; simp
  | cons p pairs ih =>
    intro s hpairs hroom
    obtain ⟨hup, hbar⟩ := hpairs p List.mem_cons_self
    have hadd : s.add table p =
        { s with
          gapCount := if (knownOutageReason table p.1 p.2).isNone then s.gapCount + 1 else s.gapCount
          knownGapCount :=
            if (knownOutageReason table p.1 p.2).isNone then s.knownGapCount
            else s.knownGapCount + 1
          gaps := if s.gaps.length < GAP_REPORT_LIMIT then s.gaps ++ [gapOf table p]
            else s.gaps } := by
      unfold GapSummary.add
      dsimp only
      rw [if_neg (not_le.mpr hup), if_neg hbar]
    rw [List.foldl_cons, hadd, ih _ (fun q hq => hpairs q (List.mem_cons_of_mem _ hq))]
    · dsimp only
      rw [List.countP_cons, List.countP_cons, List.map_cons]
      congr 1
      · cases knownOutageReason table p.1 p.2 with
        | none =>
          simp only [Option.isNone_none, if_true]
          omega
        | some _ => simp
      · cases knownOutageReason table p.1 p.2 with
        | none => simp
        | some _ =>
          simp only [Option.isNone_some, Option.isSome_some, if_true, if_false, Bool.false_eq_true]
          omega
      · by_cases hfull : s.gaps.length < GAP_REPORT_LIMIT
        · rw [if_pos hfull, List.length_append, List.length_singleton, List.append_assoc]
          obtain ⟨n, hn⟩ := Nat.exists_eq_add_of_lt hfull
          rw [show GAP_REPORT_LIMIT - s.gaps.length = n + 1 by omega,
            show GAP_REPORT_LIMIT - (s.gaps.length + 1) = n by omega, List.take_succ_cons]
          rfl
        · rw [if_neg hfull, show GAP_REPORT_LIMIT - s.gaps.length = 0 by omega, List.take_zero,
            List.take_zero]
    · dsimp only
      split
      next hless =>
        rw [List.length_append, List.length_singleton]
        omega
      next => exact hroom

/-- The steps of a sorted list go up. -/
theorem irregular_up {opens : List ℤ} (h : opens.Pairwise (· < ·)) :
    ∀ p ∈ irregular opens, 0 < p.2 - p.1 ∧ p.2 - p.1 ≠ TF_MS := by
  intro p hp
  obtain ⟨hstep, hbar⟩ := List.mem_filter.mp hp
  refine ⟨?_, of_decide_eq_true hbar⟩
  induction opens with
  | nil => cases hstep
  | cons a opens ih =>
    cases opens with
    | nil => cases hstep
    | cons b opens =>
      rw [steps_cons_cons, List.mem_cons] at hstep
      rcases hstep with rfl | hstep
      · have hlt := List.rel_of_pairwise_cons h List.mem_cons_self
        show 0 < b - a
        omega
      · have hrest := (List.pairwise_cons.mp h).2
        exact ih hrest (List.mem_filter.mpr ⟨hstep, hbar⟩) hstep

theorem summarizeTimestampArray_eq (table : List Outage) (opens : List ℤ) :
    summarizeTimestampArray table opens = summarizeBreaks table (irregular opens) := by
  unfold summarizeTimestampArray
  split
  next hfew =>
    match opens, hfew with
    | [], _ => rfl
    | [_], _ => rfl
  next => rfl

/-- Every step that is not one bar is counted once, in order, and the first 20 are listed;
of a hole of whole bars the number of missing opens is exact, and it is known exactly when
one outage overlaps the five minutes of every missing bar, which for outages that start on
the bars' grid is opening inside it. The store's own scan is the same. -/
theorem gaps_classified (table : List Outage) {opens : List ℤ} (h : opens.Pairwise (· < ·)) :
    summarizeTimestampArray table opens =
        { gapCount := (irregular opens).countP fun p => (knownOutageReason table p.1 p.2).isNone
          knownGapCount :=
            (irregular opens).countP fun p => (knownOutageReason table p.1 p.2).isSome
          gaps := ((irregular opens).map (gapOf table)).take GAP_REPORT_LIMIT } ∧
      (∀ p ∈ irregular opens, TF_MS ∣ p.2 - p.1 →
        (gapOf table p).missingBars = (missingOpens p).card ∧
        ((gapOf table p).known = true ↔
          ∃ o ∈ table, ∀ t ∈ missingOpens p, overlapsOutage t o = true) ∧
        ((∀ o ∈ table, TF_MS ∣ o.startMs - p.1) → ((gapOf table p).known = true ↔
          ∃ o ∈ table, ∀ t ∈ missingOpens p, o.startMs ≤ t ∧ t < o.endMs))) ∧
      ∀ s : Store, s.gapSummary table = summarizeTimestampArray table s.opens := by
  refine ⟨?_, fun p hp hwhole => ?_, fun s => ?_⟩
  · rw [summarizeTimestampArray_eq]
    unfold summarizeBreaks
    rw [foldl_add_gaps _ _ (irregular_up h) (by decide)]
    simp
  · have hgap := irregular_up h p hp
    have hknown := knownOutageReason_isSome table hgap hwhole
    refine ⟨missingBars_eq hgap hwhole, hknown, fun haligned => hknown.trans ?_⟩
    refine exists_congr fun o => and_congr_right fun ho => forall_congr' fun t => ?_
    refine imp_congr_right fun ht => overlapsOutage_aligned ?_ (haligned o ho)
    exact (mem_missingOpens.mp ht).2
  · rw [summarizeTimestampArray_eq]
    rfl

/-- A suspension of 2018-02-10, from 05:58:14.8 to 06:15. -/
def february : Outage := { startMs := 1518242294800, endMs := 1518243300000, reason := "" }

theorem gaps_classified_february :
    (gapOf [february] (1518241800000, 1518243300000)).missingBars =
        (missingOpens (1518241800000, 1518243300000)).card ∧
      ((gapOf [february] (1518241800000, 1518243300000)).known = true ↔
        ∃ o ∈ [february], ∀ t ∈ missingOpens (1518241800000, 1518243300000),
          overlapsOutage t o = true) := by
  have hsorted : ([1518241800000, 1518243300000] : List ℤ).Pairwise (· < ·) := by decide
  have h := (gaps_classified [february] hsorted).2.1 (1518241800000, 1518243300000) (by decide)
    (by decide)
  exact ⟨h.1, h.2.1⟩

/-- After 05:50 the bar of 05:55 is the first that is missing. It opens before the
suspension, and the hole is reported as known. -/
theorem known_before_outage :
    (summarizeTimestampArray [february] [1518241800000, 1518243300000]).gaps.map (·.known) =
        [true] ∧
      ¬ ∃ o ∈ [february], ∀ t ∈ missingOpens (1518241800000, 1518243300000),
        o.startMs ≤ t ∧ t < o.endMs := by
  refine ⟨by decide, ?_⟩
  rintro ⟨o, ho, hall⟩
  obtain rfl := List.mem_singleton.mp ho
  have hmem : 1518242100000 ∈ missingOpens (1518241800000, 1518243300000) := by
    rw [mem_missingOpens]
    decide
  exact absurd (hall _ hmem).1 (by decide)

end PaperTrading.Data
