import PaperTrading.Backtest.Lots
import Mathlib.Data.List.Perm.Basic
import Mathlib.Tactic.Linarith
import Mathlib.Tactic.Ring

/-!
# The three ledgers of the backtest

Cash, fees and the counters are moved in different places. `Ledgers` relates each
to the log of entries and closes; entries and closes keep it (`ledgers_openLot`,
`ledgers_closeLot`), so every bar does (`ledgers_barStep`) and the run, the sale
at the end of the window included (`ledgers_closedBook`). `backtest_conserves` is
what the result says then.
-/

namespace PaperTrading.Backtest

open Risk Signals

/-! ## The log -/

/-- A lot that was closed, at what price, why and when. -/
structure Closing where
  lot : Lot
  exitPx : ℚ
  hit : Hit
  bar : ℕ
deriving DecidableEq, Repr

def Closing.profit (c : Closing) : ℚ := (c.exitPx - c.lot.entry) * c.lot.qty

/-- The bars the lot was held. -/
def Closing.span (c : Closing) : ℕ := c.bar - c.lot.opened

def openings (log : List Event) : List Lot :=
  log.filterMap fun e => match e with
    | .opened lot _ _ => some lot
    | .closed _ _ _ _ => none

def closings (log : List Event) : List Closing :=
  log.filterMap fun e => match e with
    | .opened _ _ _ => none
    | .closed lot exitPx hit bar => some ⟨lot, exitPx, hit, bar⟩

@[simp] theorem openings_opened (log : List Event) (lot : Lot) (cash notional : ℚ) :
    openings (log ++ [.opened lot cash notional]) = openings log ++ [lot] := by
  simp [openings]

@[simp] theorem openings_closed (log : List Event) (lot : Lot) (exitPx : ℚ) (hit : Hit) (i : ℕ) :
    openings (log ++ [.closed lot exitPx hit i]) = openings log := by
  simp [openings]

@[simp] theorem closings_opened (log : List Event) (lot : Lot) (cash notional : ℚ) :
    closings (log ++ [.opened lot cash notional]) = closings log := by
  simp [closings]

@[simp] theorem closings_closed (log : List Event) (lot : Lot) (exitPx : ℚ) (hit : Hit) (i : ℕ) :
    closings (log ++ [.closed lot exitPx hit i]) = closings log ++ [⟨lot, exitPx, hit, i⟩] := by
  simp [closings]

/-! ## The ledgers -/

/-- What a lot was bought for, without the fee. -/
def Lot.cost (lot : Lot) : ℚ := lot.entry * lot.qty

/-- The reference price of a closing: its lot's stop or target, or the last close
of the window. -/
def Closing.reference (s : Setting) (o : Ohlc) (c : Closing) : ℚ :=
  match c.hit with
  | .stop => c.lot.stop
  | .tp => c.lot.target s.rr
  | .eod => closeAt o (s.endBar o - 1)

/-- A closing fills at its reference price less the slippage. -/
def Closing.Fills (s : Setting) (o : Ohlc) (c : Closing) : Prop :=
  c.exitPx = c.reference s o * (1 - s.slippage)

theorem exitOf_fills {s : Setting} {low high : ℚ} {lot : Lot} {exitPx : ℚ} {hit : Hit}
    (h : exitOf s low high lot = some (exitPx, hit)) (o : Ohlc) (i : ℕ) :
    Closing.Fills s o ⟨lot, exitPx, hit, i⟩ := by
  unfold exitOf at h
  split at h
  · cases h
    rfl
  · split at h
    · cases h
      rfl
    · split at h
      · cases h
        rfl
      · cases h

/-- The ledgers of a book whose open lots are `lots`, before bar `i`. -/
structure Ledgers (s : Setting) (o : Ohlc) (lots : List Lot) (i : ℕ) (b : Book) : Prop where
  cash : b.cash + (lots.map Lot.cost).sum + b.fees =
    s.startCash + ((closings b.log).map Closing.profit).sum
  once : ((closings b.log).map (·.lot) ++ lots).Perm (openings b.log)
  bars : (openings b.log).Pairwise fun a b => a.opened < b.opened
  before : ∀ lot ∈ openings b.log, lot.opened < i
  later : ∀ c ∈ closings b.log, c.lot.opened ≤ c.bar
  fills : ∀ c ∈ closings b.log, c.Fills s o
  trades : b.trades = (closings b.log).length
  exits : b.exits.total = (closings b.log).length
  holdBars : b.holdBars = ((closings b.log).map Closing.span).sum

/-- The variables the ledgers are about. -/
structure SameLedgers (b b' : Book) : Prop where
  cash : b'.cash = b.cash
  fees : b'.fees = b.fees
  log : b'.log = b.log
  trades : b'.trades = b.trades
  exits : b'.exits = b.exits
  holdBars : b'.holdBars = b.holdBars

theorem Ledgers.congr {s : Setting} {o : Ohlc} {lots : List Lot} {i : ℕ} {b b' : Book}
    (h : Ledgers s o lots i b) (heq : SameLedgers b b') : Ledgers s o lots i b' := by
  obtain ⟨hcash, honce, hbars, hbefore, hlater, hfills, htrades, hexits, hhold⟩ := h
  rw [← heq.log] at honce hbars hbefore hlater hfills htrades hexits hhold hcash
  exact ⟨by rw [heq.cash, heq.fees]; exact hcash, honce, hbars, hbefore, hlater, hfills,
    by rw [heq.trades]; exact htrades, by rw [heq.exits]; exact hexits,
    by rw [heq.holdBars]; exact hhold⟩

theorem Ledgers.mono {s : Setting} {o : Ohlc} {lots : List Lot} {i j : ℕ} {b : Book}
    (h : Ledgers s o lots i b) (hij : i ≤ j) : Ledgers s o lots j b :=
  ⟨h.cash, h.once, h.bars, fun lot hlot => (h.before lot hlot).trans_le hij, h.later, h.fills,
    h.trades, h.exits, h.holdBars⟩

theorem ledgers_init (s : Setting) (o : Ohlc) (i : ℕ) : Ledgers s o [] i (Book.init s) where
  cash := by simp [Book.init, closings]
  once := List.Perm.refl _
  bars := List.Pairwise.nil
  before := nofun
  later := nofun
  fills := nofun
  trades := rfl
  exits := rfl
  holdBars := rfl

theorem Exits.bump_total (e : Exits) (hit : Hit) : (e.bump hit).total = e.total + 1 := by
  cases hit <;> simp only [Exits.bump, Exits.total] <;> omega

theorem closeLot_log (b : Book) (s : Setting) (lot : Lot) (exitPx : ℚ) (hit : Hit) (i : ℕ) :
    (b.closeLot s lot exitPx hit i).log = b.log ++ [.closed lot exitPx hit i] := rfl

/-- Closing an open lot moves it from the open ones to the closed ones, and its
profit from the marked cost to cash and fees. -/
theorem ledgers_closeLot {s : Setting} {o : Ohlc} {lot : Lot} {lots : List Lot} {i j : ℕ}
    {b : Book} {exitPx : ℚ} {hit : Hit} (h : Ledgers s o (lot :: lots) i b)
    (hj : lot.opened ≤ j) (hfill : Closing.Fills s o ⟨lot, exitPx, hit, j⟩) :
    Ledgers s o lots i (b.closeLot s lot exitPx hit j) := by
  refine ⟨?_, ?_, ?_, ?_, ?_, ?_, ?_, ?_, ?_⟩
  · have hcash := h.cash
    rw [closeLot_log, closings_closed, List.map_append, List.sum_append]
    simp only [List.map_cons, List.map_nil, List.sum_cons, List.sum_nil] at hcash ⊢
    show b.cash + (exitPx * lot.qty - exitPx * lot.qty * s.takerFee) + _ +
      (b.fees + exitPx * lot.qty * s.takerFee) = _
    unfold Closing.profit Lot.cost at *
    dsimp only at *
    linarith
  · rw [closeLot_log, closings_closed, openings_closed, List.map_append, List.append_assoc]
    exact h.once
  · rw [closeLot_log, openings_closed]
    exact h.bars
  · rw [closeLot_log, openings_closed]
    exact h.before
  · rw [closeLot_log, closings_closed]
    intro c hc
    rcases List.mem_append.mp hc with hc | hc
    · exact h.later c hc
    · obtain rfl := List.mem_singleton.mp hc
      exact hj
  · rw [closeLot_log, closings_closed]
    intro c hc
    rcases List.mem_append.mp hc with hc | hc
    · exact h.fills c hc
    · obtain rfl := List.mem_singleton.mp hc
      exact hfill
  · rw [closeLot_log, closings_closed, List.length_append, ← h.trades]
    rfl
  · rw [closeLot_log, closings_closed, List.length_append, ← h.exits]
    exact Exits.bump_total b.exits hit
  · rw [closeLot_log, closings_closed, List.map_append, List.sum_append, ← h.holdBars]
    rfl

/-- An entry adds one lot, opened at this bar and at no earlier one. -/
theorem ledgers_openLot {s : Setting} {o : Ohlc} {i : ℕ} {b : Book} (h : Ledgers s o b.lots i b)
    (cur stop qty : ℚ) :
    Ledgers s o (b.openLot s cur stop qty i).lots (i + 1) (b.openLot s cur stop qty i) := by
  have hlog : (b.openLot s cur stop qty i).log = b.log ++ [.opened
      { qty := qty, entry := cur * (1 + s.slippage), stop := stop, opened := i }
      (b.openLot s cur stop qty i).cash
      (notionalAt (b.openLot s cur stop qty i).lots cur)] := rfl
  have hlots : (b.openLot s cur stop qty i).lots = b.lots ++
      [{ qty := qty, entry := cur * (1 + s.slippage), stop := stop, opened := i }] := rfl
  refine ⟨?_, ?_, ?_, ?_, ?_, ?_, ?_, ?_, ?_⟩
  · have hcash := h.cash
    rw [hlog, closings_opened, hlots, List.map_append, List.sum_append]
    simp only [List.map_cons, List.map_nil, List.sum_cons, List.sum_nil, Lot.cost]
    show b.cash - (cur * (1 + s.slippage) * qty + cur * (1 + s.slippage) * qty * s.takerFee) + _ +
      (b.fees + cur * (1 + s.slippage) * qty * s.takerFee) = _
    linarith
  · rw [hlog, closings_opened, openings_opened, hlots, ← List.append_assoc]
    exact h.once.append_right _
  · rw [hlog, openings_opened, List.pairwise_append]
    refine ⟨h.bars, List.pairwise_singleton _ _, ?_⟩
    intro a ha c hc
    obtain rfl := List.mem_singleton.mp hc
    exact h.before a ha
  · rw [hlog, openings_opened]
    intro a ha
    rcases List.mem_append.mp ha with ha | ha
    · exact Nat.lt_succ_of_lt (h.before a ha)
    · obtain rfl := List.mem_singleton.mp ha
      exact Nat.lt_succ_self i
  · rw [hlog, closings_opened]
    exact h.later
  · rw [hlog, closings_opened]
    exact h.fills
  · rw [hlog, closings_opened]
    exact h.trades
  · rw [hlog, closings_opened]
    exact h.exits
  · rw [hlog, closings_opened]
    exact h.holdBars

/-! ## A bar -/

/-- The order of the open lots does not matter to the ledgers. -/
theorem Ledgers.perm {s : Setting} {o : Ohlc} {lots lots' : List Lot} {i : ℕ} {b : Book}
    (h : Ledgers s o lots i b) (hp : lots.Perm lots') : Ledgers s o lots' i b where
  cash := by rw [← (hp.map Lot.cost).sum_eq]; exact h.cash
  once := (hp.symm.append_left _).trans h.once
  bars := h.bars
  before := h.before
  later := h.later
  fills := h.fills
  trades := h.trades
  exits := h.exits
  holdBars := h.holdBars

/-- An open lot was opened on an earlier bar. -/
theorem Ledgers.opened_lt {s : Setting} {o : Ohlc} {lots : List Lot} {i : ℕ} {b : Book}
    (h : Ledgers s o lots i b) {lot : Lot} (hlot : lot ∈ lots) : lot.opened < i :=
  h.before lot (h.once.subset (List.mem_append_right _ hlot))

theorem ledgers_exitPass {s : Setting} {o : Ohlc} {low high : ℚ} {i : ℕ} (lots : List Lot) :
    ∀ {p : ExitPass}, Ledgers s o (lots ++ p.stillOpen) i p.book →
      Ledgers s o (lots.foldl (ExitPass.step s low high i) p).stillOpen i
        (lots.foldl (ExitPass.step s low high i) p).book := by
  induction lots with
  | nil => exact fun h => h
  | cons lot lots ih =>
    intro p h
    rw [List.foldl_cons]
    apply ih
    unfold ExitPass.step
    cases hexit : exitOf s low high lot with
    | none =>
      have hmoved : ([lot] ++ (lots ++ p.stillOpen)).Perm ((lots ++ p.stillOpen) ++ [lot]) :=
        List.perm_append_comm
      refine h.perm ?_
      rw [← List.append_assoc]
      exact hmoved
    | some e =>
      exact ledgers_closeLot h (h.opened_lt List.mem_cons_self).le (exitOf_fills hexit o i)

theorem ledgers_exitLots {s : Setting} {o : Ohlc} {low high : ℚ} {i : ℕ} {b : Book}
    (h : Ledgers s o b.lots i b) :
    Ledgers s o (b.exitLots s low high i).1.lots i (b.exitLots s low high i).1 := by
  have hpass : Ledgers s o (b.lots.foldl (ExitPass.step s low high i) { book := b }).stillOpen
      i (b.lots.foldl (ExitPass.step s low high i) { book := b }).book :=
    ledgers_exitPass b.lots (by simpa using h)
  exact hpass.congr ⟨rfl, rfl, rfl, rfl, rfl, rfl⟩

theorem markBar_same (b : Book) (s : Setting) (cur : ℚ) (i tradeStart : ℕ) :
    SameLedgers b (b.markBar s cur i tradeStart) ∧
      (b.markBar s cur i tradeStart).lots = b.lots := by
  unfold Book.markBar
  dsimp only
  split
  · exact ⟨⟨rfl, rfl, rfl, rfl, rfl, rfl⟩, rfl⟩
  · exact ⟨⟨rfl, rfl, rfl, rfl, rfl, rfl⟩, rfl⟩

theorem ledgers_beforeEntry {s : Setting} {o : Ohlc} {tradeStart i : ℕ} {b : Book}
    (h : Ledgers s o b.lots i b) :
    Ledgers s o (b.beforeEntry s o tradeStart i).lots i (b.beforeEntry s o tradeStart i) := by
  obtain ⟨hsame, hlots⟩ := markBar_same (b.exitLots s (lowAt o i) (highAt o i) i).1 s
    (closeAt o i) i tradeStart
  unfold Book.beforeEntry
  rw [hlots]
  exact (ledgers_exitLots h).congr hsame

theorem ledgers_barStep {s : Setting} {o : Ohlc} {take : ℕ → Bool}
    {tradeStart i : ℕ} {b : Book} (h : Ledgers s o b.lots i b) :
    Ledgers s o (barStep s o take tradeStart b i).lots (i + 1)
      (barStep s o take tradeStart b i) := by
  have hmarked : Ledgers s o (b.beforeEntry s o tradeStart i).lots i
      (b.beforeEntry s o tradeStart i) := ledgers_beforeEntry h
  unfold barStep
  dsimp only
  split
  · exact hmarked.mono (Nat.le_succ i)
  next stop qty _ => exact ledgers_openLot hmarked (closeAt o i) stop qty

theorem ledgers_barsFrom (s : Setting) (o : Ohlc) (take : ℕ → Bool) (k : ℕ) :
    Ledgers s o (barsFrom s o take k).lots (s.tradeStart + k) (barsFrom s o take k) := by
  induction k with
  | zero => exact ledgers_init s o _
  | succ k ih =>
    unfold barsFrom at ih ⊢
    rw [List.range'_concat, List.foldl_append, Nat.one_mul]
    exact ledgers_barStep ih

/-! ## The end of the window -/

theorem ledgers_closeWindow {s : Setting} {o : Ohlc} {last : ℕ} {b : Book}
    (h : Ledgers s o b.lots (last + 1) b) (hlast : last = s.endBar o - 1) :
    Ledgers s o [] (last + 1) (b.closeWindow s o last) := by
  have hall : ∀ (lots : List Lot) {b : Book}, Ledgers s o lots (last + 1) b →
      Ledgers s o [] (last + 1) (lots.foldl (fun b lot =>
        b.closeLot s lot (closeAt o last * (1 - s.slippage)) .eod last) b) := by
    intro lots
    induction lots with
    | nil => exact fun h => h
    | cons lot lots ih =>
      intro b h
      rw [List.foldl_cons]
      refine ih (ledgers_closeLot h (Nat.lt_succ_iff.mp (h.opened_lt List.mem_cons_self)) ?_)
      rw [hlast]
      rfl
  exact (hall b.lots h).congr ⟨rfl, rfl, rfl, rfl, rfl, rfl⟩

theorem ledgers_closedBook {s : Setting} {o : Ohlc} (take : ℕ → Bool)
    (h : ¬ s.endBar o ≤ s.tradeStart) :
    Ledgers s o [] (s.endBar o) (closedBook s o take) := by
  have hrun := ledgers_barsFrom s o take (s.endBar o - s.tradeStart)
  rw [show s.tradeStart + (s.endBar o - s.tradeStart) = s.endBar o - 1 + 1 by omega] at hrun
  have hclosed : Ledgers s o [] (s.endBar o - 1 + 1) (closedBook s o take) :=
    (ledgers_closeWindow hrun rfl).congr ⟨rfl, rfl, rfl, rfl, rfl, rfl⟩
  rwa [show s.endBar o - 1 + 1 = s.endBar o by omega] at hclosed

/-! ## The result -/

/-- What a backtest of this log reports. -/
structure Conserves (s : Setting) (o : Ohlc) (log : List Event) (r : BacktestResult) : Prop where
  pnl : r.totalPnl = ((closings log).map Closing.profit).sum - r.feesPaid
  equity : r.finalEquity = s.startCash + r.totalPnl
  /-- every lot that was opened is closed once, and no other -/
  once : ((closings log).map (·.lot)).Perm (openings log)
  apart : (openings log).Pairwise fun a b => a.opened < b.opened
  later : ∀ c ∈ closings log, c.lot.opened ≤ c.bar
  /-- at its stop, its target or the last close -/
  fills : ∀ c ∈ closings log, c.Fills s o
  trades : r.trades = (openings log).length
  exits : r.trades = r.exits.total
  holdBars : r.holdBars = ((closings log).map Closing.span).sum
  lastPoint : ∀ x, r.dailyEquity.getLast? = some x → x = r.finalEquity

/-- The log of a run, nothing where no bar is traded. -/
def logOf (s : Setting) (o : Ohlc) (take : ℕ → Bool) : List Event :=
  if s.endBar o ≤ s.tradeStart then [] else (closedBook s o take).log

/-- Every backtest balances: the profits of the closed lots less the fees are the
move in cash, every lot that was opened is closed exactly once and not before it
was opened, the counters count the lots, their exits and the bars they were held,
and the last daily point, which is there as soon as a bar is scored, is the final
equity. -/
theorem backtest_conserves (s : Setting) (o : Ohlc) (take : ℕ → Bool) :
    Conserves s o (logOf s o take) (backtest s o take) ∧
    (s.tradeStart < s.endBar o →
      (backtest s o take).dailyEquity.getLast? = some (backtest s o take).finalEquity) := by
  unfold logOf backtest
  by_cases h : s.endBar o ≤ s.tradeStart
  · rw [if_pos h, if_pos h]
    refine ⟨⟨?_, ?_, List.Perm.refl _, List.Pairwise.nil, nofun, nofun, rfl, rfl, rfl, nofun⟩, ?_⟩
    · simp [closings]
    · simp
    · intro hlt
      omega
  · rw [if_neg h, if_neg h]
    have hledgers := ledgers_closedBook take h
    have hcash := hledgers.cash
    have honce := hledgers.once
    rw [List.append_nil] at honce
    simp only [List.map_nil, List.sum_nil, add_zero] at hcash
    have hpoint : (closedBook s o take).dailyEquity.getLast? = some (closedBook s o take).cash := by
      show (Book.settle _ _).dailyEquity.getLast? = _
      unfold Book.settle
      dsimp only
      split
      · rw [List.getLast?_concat]
        rfl
      · rw [List.getLast?_concat]
        rfl
    refine ⟨⟨?_, ?_, honce, hledgers.bars, hledgers.later, hledgers.fills, ?_, ?_,
      hledgers.holdBars, ?_⟩,
      fun _ => hpoint⟩
    · dsimp only
      linarith
    · dsimp only
      ring
    · show (closedBook s o take).trades = _
      rw [hledgers.trades, ← honce.length_eq, List.length_map]
    · show (closedBook s o take).trades = (closedBook s o take).exits.total
      rw [hledgers.trades, hledgers.exits]
    · intro x hx
      exact (Option.some.inj (hpoint.symm.trans hx)).symm

end PaperTrading.Backtest
