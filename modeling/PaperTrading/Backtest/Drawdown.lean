import PaperTrading.Backtest.Solvency
import PaperTrading.Lib.Falls

/-!
# The drawdown a backtest reports

`backtest` looks at the equity when a lot is closed and when a bar is marked.
`evaluations` lists these points in order, each with the cash, the lots that are open
there and the price they are marked at. The mark of a bar counts both (`Point.marked`);
`close_lot` counts the cash alone (`Point.seen`).

`backtest_maxDrawdown` has what is reported for every run: the largest fall of what was
seen. `max_drawdown_marked` says when this is the largest fall of the marked equity: while
no lot is closed beside another one.
-/

namespace PaperTrading.Backtest

open Risk Signals
open Lib

/-- A point at which equity is looked at. -/
structure Point where
  cash : ℚ
  /-- the lots open there -/
  others : List Lot
  /-- the price at which they are marked -/
  price : ℚ
  /-- a lot has just been closed -/
  closing : Bool

/-- Cash plus all open lots at mark. -/
def Point.marked (p : Point) : ℚ := p.cash + notionalAt p.others p.price

/-- The equity the loop takes it for. -/
def Point.seen (p : Point) : ℚ := if p.closing then p.cash else p.marked

/-! ## The points of a run -/

/-- The closes among the lots of a bar. -/
def exitPoints (s : Setting) (o : Ohlc) (i : ℕ) : ExitPass → List Lot → List Point
  | _, [] => []
  | p, lot :: rest =>
    let next := p.step s (lowAt o i) (highAt o i) i lot
    ((exitOf s (lowAt o i) (highAt o i) lot).elim [] fun _ =>
      [⟨next.book.cash, next.stillOpen ++ rest, closeAt o i, true⟩]) ++ exitPoints s o i next rest

/-- The closes of a bar and its mark. -/
def barPoints (s : Setting) (o : Ohlc) (b : Book) (i : ℕ) : List Point :=
  let marked := (b.exitLots s (lowAt o i) (highAt o i) i).1
  exitPoints s o i { book := b } b.lots ++ [⟨marked.cash, marked.lots, closeAt o i, false⟩]

/-- The closes at the end of the window. -/
def windowPoints (s : Setting) (o : Ohlc) (last : ℕ) : Book → List Lot → List Point
  | _, [] => []
  | b, lot :: rest =>
    let next := b.closeLot s lot (closeAt o last * (1 - s.slippage)) .eod last
    ⟨next.cash, rest, closeAt o last, true⟩ :: windowPoints s o last next rest

/-- The points of the first `k` scored bars. -/
def pointsFrom (s : Setting) (o : Ohlc) (take : ℕ → Bool) : ℕ → List Point
  | 0 => []
  | k + 1 => pointsFrom s o take k ++ barPoints s o (barsFrom s o take k) (s.tradeStart + k)

/-- Every point of a run. -/
def evaluations (s : Setting) (o : Ohlc) (take : ℕ → Bool) : List Point :=
  if s.endBar o ≤ s.tradeStart then []
  else
    let scored := barsFrom s o take (s.endBar o - s.tradeStart)
    pointsFrom s o take (s.endBar o - s.tradeStart) ++
      windowPoints s o (s.endBar o - 1) scored scored.lots

/-! ## What is seen -/

/-- The peak and the drawdown are those of the points seen so far. -/
structure Seen (start : ℚ) (points : List Point) (b : Book) : Prop where
  peak : b.peak = peakOf start (points.map Point.seen)
  maxDd : b.maxDd = maxFall start (points.map Point.seen)

section
variable {s : Setting} {o : Ohlc} {start : ℚ} {points : List Point} {b b' : Book}

theorem Seen.congr (h : Seen start points b) (hpeak : b'.peak = b.peak) (hdd : b'.maxDd = b.maxDd) :
    Seen start points b' :=
  ⟨hpeak.trans h.peak, hdd.trans h.maxDd⟩

theorem seen_init (s : Setting) : Seen s.startCash [] (Book.init s) := ⟨rfl, rfl⟩

/-- One more look. -/
theorem Seen.seeEquity (h : Seen start points b) (p : Point) :
    Seen start (points ++ [p]) (b.seeEquity p.seen) := by
  have hpeak : (if p.seen > b.peak then p.seen else b.peak) = max b.peak p.seen := by
    rcases lt_or_ge b.peak p.seen with hlt | hge
    · rw [if_pos hlt, max_eq_right hlt.le]
    · rw [if_neg (not_lt.mpr hge), max_eq_left hge]
  constructor
  · show (if p.seen > b.peak then p.seen else b.peak) = _
    rw [hpeak, List.map_append, List.map_singleton, peakOf_concat, h.peak]
  · show max b.maxDd (if 0 < (if p.seen > b.peak then p.seen else b.peak) then _ else 0) = _
    rw [hpeak, List.map_append, List.map_singleton, maxFall_concat, h.maxDd, h.peak]
    rfl

/-- A close is one look, at the cash. -/
theorem Seen.closeLot (h : Seen start points b) (lot : Lot) (exitPx : ℚ) (hit : Hit) (i : ℕ)
    (others : List Lot) (price : ℚ) :
    Seen start (points ++ [⟨(b.closeLot s lot exitPx hit i).cash, others, price, true⟩])
      (b.closeLot s lot exitPx hit i) := by
  obtain ⟨sold, hclose, hpeak, hdd⟩ : ∃ sold : Book,
      b.closeLot s lot exitPx hit i = sold.seeEquity sold.cash ∧ sold.peak = b.peak ∧
      sold.maxDd = b.maxDd := by
    unfold Book.closeLot
    exact ⟨_, rfl, rfl, rfl⟩
  rw [hclose]
  exact (h.congr hpeak hdd).seeEquity ⟨sold.cash, others, price, true⟩

theorem Seen.exitPass {i : ℕ} (lots : List Lot) : ∀ {p : ExitPass} {points : List Point},
    Seen start points p.book → Seen start (points ++ exitPoints s o i p lots)
      (lots.foldl (ExitPass.step s (lowAt o i) (highAt o i) i) p).book := by
  induction lots with
  | nil =>
    intro p points h
    rw [exitPoints, List.append_nil]
    exact h
  | cons lot rest ih =>
    intro p points h
    rw [exitPoints, List.foldl_cons, ← List.append_assoc]
    refine ih ?_
    unfold ExitPass.step
    cases hexit : exitOf s (lowAt o i) (highAt o i) lot with
    | none =>
      show Seen start (points ++ []) p.book
      rw [List.append_nil]
      exact h
    | some e => exact h.closeLot lot e.1 e.2 i _ _

theorem Seen.beforeEntry (h : Seen start points b) (tradeStart i : ℕ) :
    Seen start (points ++ barPoints s o b i) (b.beforeEntry s o tradeStart i) := by
  have hexits : Seen start (points ++ exitPoints s o i { book := b } b.lots)
      (b.exitLots s (lowAt o i) (highAt o i) i).1 :=
    (Seen.exitPass b.lots (p := { book := b }) h).congr rfl rfl
  unfold barPoints Book.beforeEntry Book.markBar
  dsimp only
  rw [← List.append_assoc]
  have hrisk : Seen start (points ++ exitPoints s o i { book := b } b.lots)
      { (b.exitLots s (lowAt o i) (highAt o i) i).1 with
        risk := (b.exitLots s (lowAt o i) (highAt o i) i).1.risk.updateEquity
          ((b.exitLots s (lowAt o i) (highAt o i) i).1.markEquity (closeAt o i)) } :=
    hexits.congr rfl rfl
  have hmark := hrisk.seeEquity
    ⟨(b.exitLots s (lowAt o i) (highAt o i) i).1.cash,
      (b.exitLots s (lowAt o i) (highAt o i) i).1.lots, closeAt o i, false⟩
  split
  · exact hmark.congr rfl rfl
  · exact hmark

theorem Seen.barStep (h : Seen start points b) (take : ℕ → Bool) (tradeStart i : ℕ) :
    Seen start (points ++ barPoints s o b i) (barStep s o take tradeStart b i) := by
  have hmarked := h.beforeEntry (s := s) (o := o) tradeStart i
  unfold Backtest.barStep
  dsimp only
  split
  · exact hmarked
  · exact hmarked.congr rfl rfl

theorem seen_barsFrom (s : Setting) (o : Ohlc) (take : ℕ → Bool) (k : ℕ) :
    Seen s.startCash (pointsFrom s o take k) (barsFrom s o take k) := by
  induction k with
  | zero => exact seen_init s
  | succ k ih =>
    have hstep : barsFrom s o take (k + 1) =
        Backtest.barStep s o take s.tradeStart (barsFrom s o take k) (s.tradeStart + k) := by
      unfold barsFrom
      rw [List.range'_1_concat, List.foldl_append]
      rfl
    rw [hstep]
    exact ih.barStep take s.tradeStart (s.tradeStart + k)

theorem Seen.closeWindow (last : ℕ) (lots : List Lot) : ∀ {b : Book} {points : List Point},
    Seen start points b → Seen start (points ++ windowPoints s o last b lots)
      (lots.foldl (fun b lot => b.closeLot s lot (closeAt o last * (1 - s.slippage)) .eod last) b) := by
  induction lots with
  | nil =>
    intro b points h
    rw [windowPoints, List.append_nil]
    exact h
  | cons lot rest ih =>
    intro b points h
    have hrest := ih (h.closeLot (s := s) lot (closeAt o last * (1 - s.slippage)) .eod last rest
      (closeAt o last))
    rw [List.append_assoc] at hrest
    exact hrest

end

/-- The drawdown reported is the largest fall of what was seen. -/
theorem backtest_maxDrawdown (s : Setting) (o : Ohlc) (take : ℕ → Bool) :
    (backtest s o take).maxDrawdown =
      maxFall s.startCash ((evaluations s o take).map Point.seen) := by
  unfold backtest evaluations
  split
  · rfl
  · have hclosed := (seen_barsFrom s o take (s.endBar o - s.tradeStart)).closeWindow
      (s := s) (o := o) (s.endBar o - 1)
      (barsFrom s o take (s.endBar o - s.tradeStart)).lots
    exact hclosed.maxDd

/-- No lot is closed beside another one. -/
def ClosedAlone (s : Setting) (o : Ohlc) (take : ℕ → Bool) : Prop :=
  ∀ p ∈ evaluations s o take, p.closing = true → p.others = []

instance (s : Setting) (o : Ohlc) (take : ℕ → Bool) : Decidable (ClosedAlone s o take) :=
  inferInstanceAs (Decidable (∀ p ∈ evaluations s o take, p.closing = true → p.others = []))

theorem Point.seen_eq_marked {p : Point} (h : p.closing = true → p.others = []) :
    p.seen = p.marked := by
  unfold Point.seen
  split
  next hclosing =>
    unfold Point.marked notionalAt
    rw [h hclosing, List.map_nil, List.sum_nil, add_zero]
  next => rfl

/-- While every lot is closed alone, the drawdown reported is the largest fall of the marked
equity. In any run in which it is, the cash left by a lot that is closed beside others is
no farther below the peak than that. -/
theorem max_drawdown_marked (s : Setting) (o : Ohlc) (take : ℕ → Bool) :
    (ClosedAlone s o take → (backtest s o take).maxDrawdown =
      maxFall s.startCash ((evaluations s o take).map Point.marked)) ∧
    ((backtest s o take).maxDrawdown =
        maxFall s.startCash ((evaluations s o take).map Point.marked) →
      ∀ before p after, evaluations s o take = before ++ p :: after → p.closing = true →
        fall (peakOf s.startCash (before.map Point.seen ++ [p.cash])) p.cash ≤
          maxFall s.startCash ((evaluations s o take).map Point.marked)) := by
  constructor
  · intro h
    rw [backtest_maxDrawdown]
    exact congrArg _ (List.map_congr_left fun p hp => Point.seen_eq_marked (h p hp))
  · intro h before p after heval hclosing
    have hseen : p.seen = p.cash := if_pos hclosing
    have hfall := fall_le_maxFall s.startCash (before.map Point.seen) p.seen (after.map Point.seen)
    rw [← List.map_cons, ← List.map_append, ← heval, ← backtest_maxDrawdown, h, hseen] at hfall
    exact hfall

/-- One lot, bought on the first bar that may trade. -/
theorem max_drawdown_marked_single :
    (backtest { longStack := 7 } riseAndFall fun i => i = 22).maxDrawdown =
      maxFall 10000 ((evaluations { longStack := 7 } riseAndFall fun i => i = 22).map
        Point.marked) :=
  (max_drawdown_marked { longStack := 7 } riseAndFall fun i => i = 22).1 (by decide +kernel)

/-- Two lots stopped on one bar: 61% are reported, and the account fell by 14%. -/
theorem two_lots_overstate :
    (backtest { longStack := 7 } riseAndFall fun _ => true).maxDrawdown = 212747 / 347720 ∧
    maxFall 10000 ((evaluations { longStack := 7 } riseAndFall fun _ => true).map Point.marked) =
      35314015427512021 / 253692897013515960 ∧
    (backtest { longStack := 7 } riseAndFall fun _ => true).maxDrawdown ≠
      maxFall 10000 ((evaluations { longStack := 7 } riseAndFall fun _ => true).map
        Point.marked) := by
  have hreported : (backtest { longStack := 7 } riseAndFall fun _ => true).maxDrawdown =
      212747 / 347720 := by
    decide +kernel
  have hmarked : maxFall 10000 ((evaluations { longStack := 7 } riseAndFall fun _ => true).map
      Point.marked) = 35314015427512021 / 253692897013515960 := by
    decide +kernel
  refine ⟨hreported, hmarked, ?_⟩
  rw [hreported, hmarked]
  decide +kernel

end PaperTrading.Backtest
