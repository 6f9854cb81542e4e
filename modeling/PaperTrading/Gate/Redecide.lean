import PaperTrading.Gate.StoredRows

/-!
# Deciding again on a stored row

The stored P&L and Sharpe are rounded to two decimals. The row is decided as the windows
were unless rounding crosses a floor (`redecided_iff`): an average Sharpe from 0.295 on is
stored as 0.3, and a P&L that beats `sma_stack` by less than shows in cents is stored as
equal to it. The first turns a fail into a pass, the second a pass into a fail.
-/

namespace PaperTrading.Gate

open PaperTrading.Lib
open PaperTrading.Library (MIN_BACKTEST_SHARPE)

/-! ## Rounding over a floor -/

/-- A Sharpe below the floor that is stored as the floor. -/
def RoundsUp (avg : Flt) : Prop :=
  ∃ q, avg = .fin q ∧ 295 / 1000 ≤ q ∧ q < MIN_BACKTEST_SHARPE

/-- A P&L that beats `sma_stack` and is stored as equal to it. -/
def Ties (pnl : Flt) (sma : Option Flt) : Prop :=
  ∃ a b, pnl = .fin a ∧ sma = some (.fin b) ∧ b < a ∧ roundTo 2 a = roundTo 2 b

theorem roundTo_lt_floor {q : ℚ} : roundTo 2 q < MIN_BACKTEST_SHARPE ↔ q < 295 / 1000 := by
  have hhalf : roundTo 2 (295 / 1000) = MIN_BACKTEST_SHARPE := by decide +kernel
  constructor
  · intro hlt
    by_contra hge
    have hmono := roundTo_mono (d := 2) (not_lt.mp hge)
    rw [hhalf] at hmono
    exact absurd hlt (not_lt.mpr hmono)
  · intro hlt
    have hround : roundHalfEven (q * 10 ^ 2) ≤ 29 := by
      have hbound : q * 10 ^ 2 < 59 / 2 := by linarith
      by_cases hlow : q * 10 ^ 2 < 29
      · have hfloor : (q * 10 ^ 2).floor < 29 := by
          have hle := Rat.floor_le (q * 10 ^ 2)
          by_contra hge
          have hcast : (29 : ℚ) ≤ (q * 10 ^ 2).floor := by exact_mod_cast not_lt.mp hge
          linarith
        have hnext := (roundHalfEven_bounds (q * 10 ^ 2)).2
        omega
      · have hfloor : (q * 10 ^ 2).floor = 29 := by
          refine le_antisymm ?_ (Rat.le_floor_iff.mpr (by push_cast; exact not_lt.mp hlow))
          have hle := Rat.floor_le (q * 10 ^ 2)
          by_contra hge
          have hcast : (30 : ℚ) ≤ (q * 10 ^ 2).floor := by exact_mod_cast not_le.mp hge
          linarith
        unfold roundHalfEven
        rw [hfloor, if_pos (by push_cast; linarith)]
    have hcast : (roundHalfEven (q * 10 ^ 2) : ℚ) ≤ 29 := by exact_mod_cast hround
    unfold roundTo MIN_BACKTEST_SHARPE
    rw [div_lt_iff₀ (by norm_num)]
    exact hcast.trans_lt (by norm_num)

/-- The stored Sharpe is below the floor where the Sharpe is, unless it rounds up to it. -/
theorem lt_stored (avg : Flt) : Flt.lt (avg.round 2) (.fin MIN_BACKTEST_SHARPE) = true ↔
    Flt.lt avg (.fin MIN_BACKTEST_SHARPE) = true ∧ ¬ RoundsUp avg := by
  cases avg with
  | fin q =>
    show decide (roundTo 2 q < MIN_BACKTEST_SHARPE) = true ↔ decide (q < MIN_BACKTEST_SHARPE) = true ∧ _
    rw [decide_eq_true_eq, decide_eq_true_eq, roundTo_lt_floor]
    constructor
    · intro hlt
      refine ⟨hlt.trans (by decide +kernel), ?_⟩
      rintro ⟨_, hq, hge, -⟩
      obtain rfl := Flt.fin.inj hq
      exact absurd hlt (not_lt.mpr hge)
    · rintro ⟨hlt, hno⟩
      by_contra hge
      exact hno ⟨q, rfl, not_lt.mp hge, hlt⟩
  | inf neg =>
    refine (and_iff_left ?_).symm
    rintro ⟨_, hq, -⟩
    cases hq
  | nan =>
    refine (and_iff_left ?_).symm
    rintro ⟨_, hq, -⟩
    cases hq

/-- The stored P&L misses that of `sma_stack` where the P&L does, and where the two tie. -/
theorem le_stored (pnl sma : Flt) : Flt.le (pnl.round 2) (sma.round 2) = true ↔
    Flt.le pnl sma = true ∨ Ties pnl (some sma) := by
  have hother : pnl.isFinite = false ∨ sma.isFinite = false → ¬ Ties pnl (some sma) := by
    rintro hfin ⟨a, b, rfl, hb, -⟩
    obtain rfl := Option.some.inj hb
    rcases hfin with hfin | hfin <;> cases hfin
  cases pnl with
  | fin a =>
    cases sma with
    | fin b =>
      show decide (roundTo 2 a ≤ roundTo 2 b) = true ↔ decide (a ≤ b) = true ∨ _
      rw [decide_eq_true_eq, decide_eq_true_eq]
      constructor
      · intro hle
        by_cases hab : a ≤ b
        · exact Or.inl hab
        · have hback := roundTo_mono (d := 2) (not_le.mp hab).le
          exact Or.inr ⟨a, b, rfl, rfl, not_le.mp hab, le_antisymm hle hback⟩
      · rintro (hab | ⟨a', b', ha, hb, -, heq⟩)
        · exact roundTo_mono hab
        · obtain rfl := Flt.fin.inj ha
          obtain rfl := Flt.fin.inj (Option.some.inj hb)
          exact heq.le
    | inf neg => exact (or_iff_left (hother (Or.inr rfl))).symm
    | nan => exact (or_iff_left (hother (Or.inr rfl))).symm
  | inf neg =>
    cases sma with
    | fin b => exact (or_iff_left (hother (Or.inl rfl))).symm
    | inf neg' => exact (or_iff_left (hother (Or.inl rfl))).symm
    | nan => exact (or_iff_left (hother (Or.inl rfl))).symm
  | nan => exact (or_iff_left (hother (Or.inl rfl))).symm

/-! ## The checks that fail -/

/-- The checks that fail on given figures. -/
def failing (totTestPnl : Flt) (totOosTrades : ℤ) (avgSharpe : Flt) (smaStackOosPnl : Option Flt)
    (nWindows expectedWindows : ℤ) : List Check :=
  (aggregateFailReasons totTestPnl totOosTrades avgSharpe smaStackOosPnl nWindows
    expectedWindows).map FailReason.check

section Failing

variable {pnl avg : Flt} {sma : Option Flt} {trades n expected : ℤ}

theorem mem_failing (c : Check) : c ∈ failing pnl trades avg sma n expected ↔
    (c = .windows ∧ n ≠ expected) ∨ (c = .trades ∧ trades < MIN_BACKTEST_TRADES) ∨
      (c = .sharpe ∧ Flt.lt avg (.fin MIN_BACKTEST_SHARPE) = true) ∨ (c = .smaMissing ∧ sma = none) ∨
        (c = .smaStack ∧ ∃ x, sma = some x ∧ Flt.le pnl x = true) := by
  unfold failing aggregateFailReasons
  rw [List.map_append, List.map_append, List.map_append]
  simp only [List.mem_append]
  have hpart : ∀ (p : Prop) [Decidable p] (r : FailReason),
      c ∈ (if p then [r] else []).map FailReason.check ↔ c = r.check ∧ p := by
    intro p _ r
    split
    next hp => simp [hp]
    next hp => simp [hp]
  rw [hpart, hpart, hpart, or_assoc, or_assoc]
  refine or_congr Iff.rfl (or_congr Iff.rfl (or_congr Iff.rfl ?_))
  cases sma with
  | none => simp [FailReason.check]
  | some x =>
    rw [hpart]
    simp [FailReason.check]

/-- A Sharpe that rounds up fails before it is stored, and not after. -/
theorem sharpe_mem (h : RoundsUp avg) : .sharpe ∈ failing pnl trades avg sma n expected := by
  obtain ⟨q, rfl, -, hq⟩ := h
  have hlow : Flt.lt (.fin q) (.fin MIN_BACKTEST_SHARPE) = true := decide_eq_true hq
  rw [mem_failing]
  simp [hlow]

theorem sharpe_not_mem (h : RoundsUp avg) :
    .sharpe ∉ failing pnl trades (avg.round 2) sma n expected := by
  have hstored : Flt.lt (avg.round 2) (.fin MIN_BACKTEST_SHARPE) = false :=
    Bool.eq_false_iff.mpr fun hlt => ((lt_stored avg).mp hlt).2 h
  rw [mem_failing]
  simp [hstored]

/-- A P&L that ties with `sma_stack` fails once it is stored, and not before. -/
theorem smaStack_not_mem (h : Ties pnl sma) : .smaStack ∉ failing pnl trades avg sma n expected := by
  obtain ⟨a, b, rfl, rfl, hlt, -⟩ := h
  have hbeats : Flt.le (.fin a) (.fin b) = false := decide_eq_false (not_le.mpr hlt)
  rw [mem_failing]
  simp [hbeats]

theorem smaStack_mem (h : Ties pnl sma) :
    .smaStack ∈ failing (pnl.round 2) trades avg (sma.map (Flt.round 2)) n expected := by
  obtain ⟨a, b, rfl, rfl, -, heq⟩ := h
  have hstored : Flt.le (Flt.round 2 (.fin a)) (Flt.round 2 (.fin b)) = true := decide_eq_true heq.le
  rw [mem_failing]
  simp [hstored]

/-- Figures on which the same checks fail. -/
theorem failing_congr {pnl' avg' : Flt} {sma' : Option Flt}
    (hsharpe : Flt.lt avg' (.fin MIN_BACKTEST_SHARPE) = Flt.lt avg (.fin MIN_BACKTEST_SHARPE))
    (hsma : sma'.map (Flt.le pnl') = sma.map (Flt.le pnl)) :
    failing pnl' trades avg' sma' n expected = failing pnl trades avg sma n expected := by
  have hpart : ∀ (b : Bool) (r : FailReason),
      (if b then [r] else []).map FailReason.check = if b then [r.check] else [] := by
    intro b r
    cases b <;> rfl
  unfold failing aggregateFailReasons
  rw [List.map_append, List.map_append, List.map_append, List.map_append, List.map_append,
    List.map_append, hpart, hpart, hsharpe]
  congr 1
  cases sma with
  | none =>
    cases sma' with
    | none => rfl
    | some x => cases hsma
  | some x =>
    cases sma' with
    | none => cases hsma
    | some y =>
      dsimp only
      rw [hpart, hpart, Option.some.inj hsma]
      rfl

end Failing

/-! ## The decision on the row -/

/-- The same verdict: both pass or neither, and the same checks fail. -/
structure SameVerdict (d d' : Decision) : Prop where
  passed : d'.passed = d.passed
  checks : d'.reasons.map FailReason.check = d.reasons.map FailReason.check

section Stored

variable (sharpeOf : List Flt → Flt) (name testedAt : String) (windows : List WindowScore)
variable (expected : ℤ) (bh sma bhDaily : Option Flt)

/-- What a stored row is decided on: the P&L figures and the Sharpe as they are rounded. -/
theorem fromRecord_stored : ∃ d', qualificationFromRecord
    (strategyRecord sharpeOf name testedAt windows expected bh sma bhDaily) expected = .ok d' ∧
      d'.passed = d'.reasons.isEmpty ∧
        d'.reasons = aggregateFailReasons ((WindowScore.totTestPnl windows).round 2)
          (WindowScore.totOosTrades windows) ((WindowScore.avgSharpe windows).round 2)
            (sma.map (Flt.round 2)) windows.length expected := by
  refine ⟨_, rfl, rfl, ?_⟩
  cases sma <;> rfl

/-- A stored row is decided as the windows were exactly when no figure is rounded over a
floor; and one that passes failed before exactly when its Sharpe was rounded up. -/
theorem redecided_iff : ∃ d', qualificationFromRecord
    (strategyRecord sharpeOf name testedAt windows expected bh sma bhDaily) expected = .ok d' ∧
      (SameVerdict (qualificationDecision sharpeOf windows expected bh sma bhDaily) d' ↔
        ¬ RoundsUp (WindowScore.avgSharpe windows) ∧ ¬ Ties (WindowScore.totTestPnl windows) sma) ∧
      (d'.passed = true →
        ((qualificationDecision sharpeOf windows expected bh sma bhDaily).passed = false ↔
          RoundsUp (WindowScore.avgSharpe windows))) := by
  obtain ⟨d', hd', hpassed, hreasons⟩ := fromRecord_stored sharpeOf name testedAt windows expected
    bh sma bhDaily
  have hstored : d'.reasons.map FailReason.check = failing ((WindowScore.totTestPnl windows).round 2)
      (WindowScore.totOosTrades windows) ((WindowScore.avgSharpe windows).round 2)
        (sma.map (Flt.round 2)) windows.length expected := by
    rw [hreasons]
    rfl
  have hmeasured : (qualificationDecision sharpeOf windows expected bh sma bhDaily).reasons.map
      FailReason.check = failing (WindowScore.totTestPnl windows) (WindowScore.totOosTrades windows)
        (WindowScore.avgSharpe windows) sma windows.length expected := rfl
  have hiff : d'.passed = true ↔ d'.reasons.map FailReason.check = [] := by
    rw [hpassed, List.isEmpty_iff, List.map_eq_nil_iff]
  have hiff' : (qualificationDecision sharpeOf windows expected bh sma bhDaily).passed = true ↔
      (qualificationDecision sharpeOf windows expected bh sma bhDaily).reasons.map
        FailReason.check = [] := by
    rw [List.map_eq_nil_iff]
    exact List.isEmpty_iff
  have hsame : ¬ RoundsUp (WindowScore.avgSharpe windows) → ¬ Ties (WindowScore.totTestPnl windows) sma →
      d'.reasons.map FailReason.check = (qualificationDecision sharpeOf windows expected bh sma
        bhDaily).reasons.map FailReason.check := by
    intro hround htie
    rw [hstored, hmeasured]
    refine failing_congr ?_ ?_
    · rw [Bool.eq_iff_iff, lt_stored, and_iff_left hround]
    · cases sma with
      | none => rfl
      | some x =>
        refine congrArg some ?_
        rw [Bool.eq_iff_iff, le_stored, or_iff_left htie]
  refine ⟨d', hd', ⟨fun h => ⟨fun hround => ?_, fun htie => ?_⟩, fun h => ⟨?_, hsame h.1 h.2⟩⟩,
    fun hpass => ?_⟩
  · have hout : Check.sharpe ∉ d'.reasons.map FailReason.check := by
      rw [hstored]
      exact sharpe_not_mem hround
    rw [h.checks, hmeasured] at hout
    exact hout (sharpe_mem hround)
  · have hin : Check.smaStack ∈ d'.reasons.map FailReason.check := by
      rw [hstored]
      exact smaStack_mem htie
    rw [h.checks, hmeasured] at hin
    exact smaStack_not_mem htie hin
  · rw [Bool.eq_iff_iff, hiff, hiff', hsame h.1 h.2]
  · rw [← Bool.not_eq_true, hiff']
    have hnone := hiff.mp hpass
    constructor
    · intro hfail
      by_contra hround
      have htie : ¬ Ties (WindowScore.totTestPnl windows) sma := by
        intro htie
        have hin : Check.smaStack ∈ d'.reasons.map FailReason.check := by
          rw [hstored]
          exact smaStack_mem htie
        rw [hnone] at hin
        cases hin
      exact hfail ((hsame hround htie).symm.trans hnone)
    · intro hround hnil
      rw [hmeasured] at hnil
      exact List.ne_nil_of_mem (sharpe_mem hround) hnil

/-- One window of 40 trades. -/
def ONE_WINDOW (pnl sharpe : ℚ) : List WindowScore :=
  [{ testPnl := some (.fin pnl), testTrades := some 40, sharpe := some (.fin sharpe) }]

/-- No daily Sharpe. -/
def flat (_ : List Flt) : Flt := .fin 0

/-- A Sharpe of 0.297 fails, and its row passes; a P&L of 100.004 beats 100.001, and its row
fails. -/
theorem redecided_otherwise :
    ((qualificationDecision flat (ONE_WINDOW 10 (297 / 1000)) 1 none (some (.fin 5)) none).passed =
        false ∧
      (qualificationFromRecord (strategyRecord flat "" "" (ONE_WINDOW 10 (297 / 1000)) 1 none
        (some (.fin 5)) none) 1).map Decision.passed = .ok true) ∧
    (qualificationDecision flat (ONE_WINDOW (100004 / 1000) 1) 1 none
        (some (.fin (100001 / 1000))) none).passed = true ∧
      (qualificationFromRecord (strategyRecord flat "" "" (ONE_WINDOW (100004 / 1000) 1) 1 none
        (some (.fin (100001 / 1000))) none) 1).map Decision.passed = .ok false := by
  refine ⟨⟨by decide +kernel, by decide +kernel⟩, by decide +kernel, by decide +kernel⟩

end Stored

end PaperTrading.Gate
