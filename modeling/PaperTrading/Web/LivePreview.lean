import Mathlib.Algebra.BigOperators.Ring.List
import Mathlib.Data.List.Induction
import Mathlib.Tactic.FieldSimp
import PaperTrading.Broker.Paper
import PaperTrading.Lib.Decimal
import PaperTrading.Lib.Fallible
import PaperTrading.Risk.Managed

/-!
# The live preview

`web/live.py` shows a saved account at current prices: its equity, one position a
symbol, and the lots of each position (`web/lot_health.py`). A price can be
missing, and the equity is then meant to take the lot at its entry.

The marks are kept by symbol, so where a price is missing every lot of the symbol
is taken at the entry of the last one; and the P&L of a lot is taken from the row
that is shown, whose entry and quantity are already rounded.
`valuedOnce_iff` says exactly when each lot is valued once and at its own mark all
the same, and `shared_mark` is an account where two lots share the entry of one.
-/

namespace PaperTrading.Web

open Lib Broker Risk

inductive PreviewError where
  | broker (e : PyError)
  /-- `ZeroDivisionError` -/
  | zeroDivision
deriving DecidableEq, Repr

/-! ## One lot -/

/-- `_PATH_STOP`, `_PATH_MID` and `_PATH_TP`. -/
inductive Path where
  | nearStop
  | mid
  | nearTp
deriving DecidableEq, Repr

/-- `NEAR_STOP_FRAC` -/
def NEAR_STOP_FRAC : ℚ := 3 / 10

/-- `NEAR_TP_FRAC` -/
def NEAR_TP_FRAC : ℚ := 7 / 10

/-- `path_in_trade` -/
def pathInTrade (mark stop takeProfit : ℚ) : Path × ℚ :=
  let span := takeProfit - stop
  if span = 0 then (.mid, 1 / 2)
  else
    let clamped := min 1 (max 0 ((mark - stop) / span))
    let path :=
      if clamped ≤ NEAR_STOP_FRAC then Path.nearStop
      else if NEAR_TP_FRAC ≤ clamped then .nearTp else .mid
    (path, roundTo 4 clamped)

/-- A lot as the dashboard gets it. -/
structure LotRow where
  lotId : ℕ
  symbol : Ticker
  entry : ℚ
  stop : ℚ
  takeProfit : ℚ
  quantity : ℚ
  condition : String
  account : String
  path : Path
  pathPct : ℚ
  current : Option ℚ
  unrealizedPnl : Option ℚ
  unrealizedPct : Option ℚ
deriving DecidableEq

/-- `(float(mark) - entry) * qty`, of the figures in the row. -/
def LotRow.pnl (row : LotRow) (mark : ℚ) : ℚ := (mark - row.entry) * row.quantity

/-- `annotate_open_lot` -/
def annotateOpenLot (mark : Option ℚ) (row : LotRow) : LotRow :=
  let path := pathInTrade (mark.getD row.entry) row.stop row.takeProfit
  { row with
    path := path.1
    pathPct := path.2
    current := mark.map (roundTo 2)
    unrealizedPnl := mark.map fun m => roundTo 2 (row.pnl m)
    unrealizedPct := mark.bind fun m =>
      if row.entry = 0 then none else some (roundTo 4 (m / row.entry - 1)) }

/-- The row of a lot before it is annotated. -/
def lotRow (account : String) (lot : OpenPosition) : LotRow :=
  { lotId := lot.lotId
    symbol := lot.ticker
    entry := roundTo 2 lot.entryPrice
    stop := roundTo 2 lot.stopLoss
    takeProfit := roundTo 2 (RiskManager.takeProfitPrice lot.entryPrice lot.stopLoss TAKE_PROFIT_RR)
    quantity := roundTo 5 lot.quantity
    condition := lot.entryCondition
    account := account
    path := .mid
    pathPct := 0
    current := none
    unrealizedPnl := none
    unrealizedPct := none }

/-- `serialize_open_lot` -/
def serializeOpenLot (account : String) (mark : Option ℚ) (lot : OpenPosition) : LotRow :=
  annotateOpenLot mark (lotRow account lot)

/-! ## Marks -/

/-- The first loop of `live_preview`: each lot writes the mark of its symbol. -/
def lotMarks (px : PriceMap) (lots : List OpenPosition) : PriceMap :=
  lots.foldl (fun marks lot => Function.update marks lot.ticker
    (some (some ((px.get lot.ticker).getD lot.entryPrice)))) fun _ => none

/-- The marks the equity is taken at; the other symbols of the price map follow. -/
def marks (px : PriceMap) (lots : List OpenPosition) : PriceMap := fun t =>
  (lotMarks px lots t).or ((px t).map fun price => some (price.getD 0))

/-! ## One position -/

/-- `by_sym`: the lots by symbol, in the order the symbols come up. -/
def bySymbol (lots : List OpenPosition) : List (Ticker × List OpenPosition) :=
  (lots.map (·.ticker)).eraseDups.map fun t => (t, lots.filter fun lot => lot.ticker = t)

def totalQty (lots : List OpenPosition) : ℚ := (lots.map (·.quantity)).sum

/-- `entry_w` -/
def entryWeight (lots : List OpenPosition) : ℚ := (lots.map fun lot => lot.entryPrice * lot.quantity).sum

def avgEntry (lots : List OpenPosition) : ℚ :=
  if totalQty lots = 0 then 0 else entryWeight lots / totalQty lots

/-- `cur` where the code asks `if cur`: a price of zero is no price. -/
def shownPrice (px : PriceMap) (t : Ticker) : Option ℚ := (px.get t).filter (· ≠ 0)

/-- `value - entry_val` -/
def positionPnl (cur : ℚ) (lots : List OpenPosition) : ℚ :=
  cur * totalQty lots - avgEntry lots * totalQty lots

/-- `min((l.stop_loss for l in b["lots"]), default=0)` -/
def lowestStop : List OpenPosition → ℚ
  | [] => 0
  | lot :: lots => (lots.map (·.stopLoss)).foldl min lot.stopLoss

structure Position where
  symbol : Ticker
  quantity : ℚ
  entry : ℚ
  stop : ℚ
  current : Option ℚ
  value : Option ℚ
  unrealizedPnl : Option ℚ
  unrealizedPct : Option ℚ
  condition : String
  lotCount : ℕ
  lots : List LotRow
deriving DecidableEq

/-- `round(x, 2) if x else None` -/
def shownMoney (x : ℚ) : Option ℚ := if x = 0 then none else some (roundTo 2 x)

/-- One round of the loop over `by_sym`. -/
def position (px : PriceMap) (account : String) (sym : Ticker) (lots : List OpenPosition) :
    Except PreviewError Position :=
  let cur := shownPrice px sym
  if cur.isSome ∧ avgEntry lots = 0 then .error .zeroDivision
  else
    .ok
      { symbol := sym
        quantity := roundTo 5 (totalQty lots)
        entry := roundTo 2 (avgEntry lots)
        stop := roundTo 2 (lowestStop lots)
        current := cur.map (roundTo 2)
        value := cur.bind fun c => shownMoney (c * totalQty lots)
        unrealizedPnl := cur.map fun c => roundTo 2 (positionPnl c lots)
        unrealizedPct := cur.map fun c => roundTo 4 (c / avgEntry lots - 1)
        condition := (lots.head?.map (·.entryCondition)).getD ""
        lotCount := lots.length
        lots := lots.map fun lot => serializeOpenLot account (px.get lot.ticker) lot }

/-! ## The preview -/

structure Preview where
  liveEquity : Option ℚ
  cash : Option ℚ
  positions : List Position
  lots : List LotRow
  openLots : ℕ
deriving DecidableEq

/-- The account a saved state is restored to. -/
def restored (saved : BrokerState) (nextLot : ℕ) : PaperBroker :=
  ({ cash := 10000, nextLot := nextLot } : PaperBroker).restoreState saved

/-- `live_preview` of an account other than a library one, without the columns made
from candles. -/
def livePreview (px : PriceMap) (account : String) (saved : Option BrokerState) (nextLot : ℕ) :
    Except PreviewError Preview :=
  match saved with
  | none => .ok ⟨none, none, [], [], 0⟩
  | some saved =>
    let broker := restored saved nextLot
    match broker.equity (marks px broker.lots) with
    | .error e => .error (.broker e)
    | .ok liveEquity => do
      let positions ← (bySymbol broker.lots).mapM fun g => position px account g.1 g.2
      return ⟨shownMoney liveEquity, some (roundTo 2 broker.cash), positions,
        positions.flatMap (·.lots), broker.lots.length⟩

/-! ## What the equity is taken at -/

/-- The entry of the last lot of a symbol. -/
def lastEntry (lots : List OpenPosition) (t : Ticker) : ℚ :=
  ((lots.filter fun lot => lot.ticker = t).getLast?.map (·.entryPrice)).getD 0

theorem lotMarks_eq (px : PriceMap) (lots : List OpenPosition) (t : Ticker) :
    lotMarks px lots t = (lots.filter fun lot => lot.ticker = t).getLast?.map fun lot =>
      some ((px.get lot.ticker).getD lot.entryPrice) := by
  induction lots using List.reverseRecOn with
  | nil => rfl
  | append_singleton lots lot ih =>
    unfold lotMarks at ih ⊢
    rw [List.foldl_append, List.foldl_cons, List.foldl_nil, List.filter_append]
    by_cases h : lot.ticker = t
    · rw [← h, Function.update_self, List.filter_singleton, decide_eq_true rfl]
      rw [cond_true, List.getLast?_concat]
      rfl
    · have hnil : [lot].filter (fun lot => decide (lot.ticker = t)) = [] := by
        rw [List.filter_singleton, decide_eq_false h]
        rfl
      rw [Function.update_of_ne (Ne.symm h), ih, hnil, List.append_nil]

/-- Every lot is marked, at the price of its symbol or at the last entry in it. -/
theorem marks_of_mem (px : PriceMap) {lots : List OpenPosition} {lot : OpenPosition}
    (h : lot ∈ lots) : marks px lots lot.ticker =
      some (some ((px.get lot.ticker).getD (lastEntry lots lot.ticker))) := by
  unfold marks lastEntry
  rw [lotMarks_eq]
  have hmem : lot ∈ lots.filter fun other => other.ticker = lot.ticker :=
    List.mem_filter.mpr ⟨h, decide_eq_true rfl⟩
  cases hlast : (lots.filter fun other => other.ticker = lot.ticker).getLast? with
  | none =>
    rw [List.getLast?_eq_none_iff.mp hlast] at hmem
    cases hmem
  | some last =>
    have hsym := of_decide_eq_true (List.mem_filter.mp (List.mem_of_getLast? hlast)).2
    rw [Option.map_some, Option.map_some, Option.getD_some, hsym]
    rfl

theorem positionValue_marked {m : PriceMap} {v : OpenPosition → ℚ} :
    ∀ {lots : List OpenPosition}, (∀ lot ∈ lots, m lot.ticker = some (some (v lot))) →
      PaperBroker.positionValue m lots = .ok (lots.map fun lot => lot.quantity * v lot).sum
  | [], _ => rfl
  | lot :: lots, h => by
    unfold PaperBroker.positionValue PaperBroker.markValue
    rw [h lot List.mem_cons_self,
      positionValue_marked fun other hmem => h other (List.mem_cons_of_mem lot hmem)]
    rfl

/-- The equity takes each lot at its price or at the last entry of its symbol. -/
theorem equity_marks (px : PriceMap) (b : PaperBroker) :
    b.equity (marks px b.lots) = .ok (b.cash + (b.lots.map fun lot =>
      lot.quantity * (px.get lot.ticker).getD (lastEntry b.lots lot.ticker)).sum) := by
  unfold PaperBroker.equity
  rw [positionValue_marked (v := fun lot => (px.get lot.ticker).getD (lastEntry b.lots lot.ticker))
    fun lot hmem => marks_of_mem px hmem]

theorem sum_map_sub {α : Type} (f g : α → ℚ) : ∀ l : List α,
    (l.map fun a => f a - g a).sum = (l.map f).sum - (l.map g).sum
  | [] => (sub_zero 0).symm
  | a :: l => by
    rw [List.map_cons, List.map_cons, List.map_cons, List.sum_cons, List.sum_cons, List.sum_cons,
      sum_map_sub f g l]
    ring

/-! ## The P&L of a position -/

theorem avgEntry_ne_zero {lots : List OpenPosition} :
    avgEntry lots ≠ 0 ↔ totalQty lots ≠ 0 ∧ entryWeight lots ≠ 0 := by
  unfold avgEntry
  split
  next h => exact ⟨fun hne => absurd rfl hne, fun hne => absurd h hne.1⟩
  next h => exact ⟨fun hne => ⟨h, fun hz => hne (by rw [hz, zero_div])⟩,
      fun hne => div_ne_zero hne.2 h⟩

theorem position_returns {px : PriceMap} {account : String} {t : Ticker} {lots : List OpenPosition} :
    (∃ p, position px account t lots = .ok p) ↔
      ((shownPrice px t).isSome → totalQty lots ≠ 0 ∧ entryWeight lots ≠ 0) := by
  rw [← avgEntry_ne_zero]
  unfold position
  dsimp only
  split
  next h =>
    constructor
    · intro hp
      obtain ⟨p, hp⟩ := hp
      cases hp
    · intro hne
      exact absurd h.2 (hne h.1)
  next h => exact ⟨fun _ hs hz => h ⟨hs, hz⟩, fun _ => ⟨_, rfl⟩⟩

/-- The value less the entry value is the sum over the lots. -/
theorem positionPnl_eq {lots : List OpenPosition} (h : totalQty lots ≠ 0) (cur : ℚ) :
    positionPnl cur lots = (lots.map fun lot => (cur - lot.entryPrice) * lot.quantity).sum := by
  have hweight : avgEntry lots * totalQty lots = entryWeight lots := by
    unfold avgEntry
    rw [if_neg h]
    exact div_mul_cancel₀ _ h
  unfold positionPnl
  rw [hweight]
  unfold totalQty entryWeight
  rw [← List.sum_map_mul_left, ← sum_map_sub]
  congr 2
  funext lot
  ring

/-! ## Each lot once, at its own mark -/

/-- What the preview is to say of a saved account, all figures before they are
rounded for display: each lot counts once in the equity, at the price of its symbol
or at its own entry, and the P&L of a priced position is that of its lots. -/
structure ValuedOnce (px : PriceMap) (account : String) (saved : BrokerState) (nextLot : ℕ) :
    Prop where
  returns : ∃ p, livePreview px account (some saved) nextLot = .ok p
  equity : (restored saved nextLot).equity (marks px (restored saved nextLot).lots) =
    .ok ((restored saved nextLot).cash + ((restored saved nextLot).lots.map fun lot =>
      lot.quantity * (px.get lot.ticker).getD lot.entryPrice).sum)
  pnl : ∀ g ∈ bySymbol (restored saved nextLot).lots, ∀ cur, px.get g.1 = some cur →
    (shownPrice px g.1).map (fun c => positionPnl c g.2) =
      some (g.2.map fun lot => (lotRow account lot).pnl cur).sum

/-- What is taken at the entry of the last lot instead of its own comes to nothing,
and no symbol with a price has a price of zero, a total quantity of zero or a total
cost of zero, or a P&L that the rounding of entries to cents and of quantities to
five decimals changes. -/
structure OwnMarks (px : PriceMap) (lots : List OpenPosition) : Prop where
  unpriced : (lots.map fun lot => if (px.get lot.ticker).isSome then 0
    else lot.quantity * (lastEntry lots lot.ticker - lot.entryPrice)).sum = 0
  priced : ∀ g ∈ bySymbol lots, ∀ cur, px.get g.1 = some cur →
    cur ≠ 0 ∧ totalQty g.2 ≠ 0 ∧ entryWeight g.2 ≠ 0 ∧
      (g.2.map fun lot => (cur - lot.entryPrice) * lot.quantity -
        (cur - roundTo 2 lot.entryPrice) * roundTo 5 lot.quantity).sum = 0

theorem shownPrice_of_some {px : PriceMap} {t : Ticker} {cur : ℚ} (h : px.get t = some cur) :
    shownPrice px t = if cur = 0 then none else some cur := by
  unfold shownPrice
  rw [h]
  by_cases hz : cur = 0
  · rw [if_pos hz]
    exact Option.filter_some_neg (by simp [hz])
  · rw [if_neg hz]
    exact Option.filter_some_pos (by simp [hz])

theorem livePreview_returns {px : PriceMap} {account : String} {saved : BrokerState} {nextLot : ℕ} :
    (∃ p, livePreview px account (some saved) nextLot = .ok p) ↔
      ∀ g ∈ bySymbol (restored saved nextLot).lots,
        (shownPrice px g.1).isSome → totalQty g.2 ≠ 0 ∧ entryWeight g.2 ≠ 0 := by
  have hposition : (∀ g ∈ bySymbol (restored saved nextLot).lots,
      (shownPrice px g.1).isSome → totalQty g.2 ≠ 0 ∧ entryWeight g.2 ≠ 0) ↔
      ∀ g ∈ bySymbol (restored saved nextLot).lots, ∃ p, position px account g.1 g.2 = .ok p :=
    forall₂_congr fun g _ => position_returns.symm
  rw [hposition]
  unfold livePreview
  dsimp only
  rw [equity_marks]
  dsimp only
  constructor
  · intro h
    obtain ⟨p, h⟩ := h
    obtain ⟨positions, hpositions, _⟩ := except_bind_ok h
    exact mapM_ok hpositions
  · intro h
    cases hm : (bySymbol (restored saved nextLot).lots).mapM
        fun g => position px account g.1 g.2 with
    | ok positions => exact ⟨_, rfl⟩
    | error e =>
      obtain ⟨g, hg, e', he⟩ := mapM_error_iff.mp ⟨e, hm⟩
      obtain ⟨p, hp⟩ := h g hg
      cases he.symm.trans hp

/-- The equity is right exactly when what the lots of a symbol without a price borrow
from its last entry comes to nothing. -/
theorem equity_own_iff (px : PriceMap) (b : PaperBroker) :
    b.equity (marks px b.lots) = .ok (b.cash + (b.lots.map fun lot =>
        lot.quantity * (px.get lot.ticker).getD lot.entryPrice).sum) ↔
      (b.lots.map fun lot => if (px.get lot.ticker).isSome then 0
        else lot.quantity * (lastEntry b.lots lot.ticker - lot.entryPrice)).sum = 0 := by
  have hdiff : (b.lots.map fun lot => if (px.get lot.ticker).isSome then 0
      else lot.quantity * (lastEntry b.lots lot.ticker - lot.entryPrice)) =
      b.lots.map fun lot => lot.quantity * (px.get lot.ticker).getD (lastEntry b.lots lot.ticker) -
        lot.quantity * (px.get lot.ticker).getD lot.entryPrice := by
    refine List.map_congr_left fun lot _ => ?_
    cases px.get lot.ticker with
    | some cur => exact (sub_self _).symm
    | none =>
      show lot.quantity * _ = lot.quantity * _ - lot.quantity * _
      rw [← mul_sub]
      rfl
  rw [equity_marks, hdiff, sum_map_sub, sub_eq_zero, Except.ok.injEq, add_right_inj]

/-- The P&L of a position with a price is that of its rows exactly when the price is
not zero and the roundings cancel out. -/
theorem pnl_rows_iff {px : PriceMap} (account : String) {t : Ticker} {lots : List OpenPosition}
    {cur : ℚ} (hcur : px.get t = some cur) (hqty : cur ≠ 0 → totalQty lots ≠ 0) :
    (shownPrice px t).map (fun c => positionPnl c lots) =
        some (lots.map fun lot => (lotRow account lot).pnl cur).sum ↔
      cur ≠ 0 ∧ (lots.map fun lot => (cur - lot.entryPrice) * lot.quantity -
        (cur - roundTo 2 lot.entryPrice) * roundTo 5 lot.quantity).sum = 0 := by
  rw [shownPrice_of_some hcur]
  by_cases hz : cur = 0
  · rw [if_pos hz]
    constructor
    · intro h
      cases h
    · intro h
      exact absurd hz h.1
  · rw [if_neg hz, Option.map_some, Option.some.injEq, positionPnl_eq (hqty hz), sum_map_sub,
      sub_eq_zero]
    exact (and_iff_right hz).symm

/-- The preview values each lot once and at its own mark exactly when what is taken
elsewhere cancels out. -/
theorem valuedOnce_iff (px : PriceMap) (account : String) (saved : BrokerState) (nextLot : ℕ) :
    ValuedOnce px account saved nextLot ↔ OwnMarks px (restored saved nextLot).lots := by
  constructor
  · intro h
    refine ⟨(equity_own_iff px _).mp h.equity, fun g hg cur hcur => ?_⟩
    have hreturns := livePreview_returns.mp h.returns g hg
    rw [shownPrice_of_some hcur] at hreturns
    have hsome : cur ≠ 0 → totalQty g.2 ≠ 0 ∧ entryWeight g.2 ≠ 0 := by
      intro hz
      rw [if_neg hz] at hreturns
      exact hreturns rfl
    obtain ⟨hz, hround⟩ := (pnl_rows_iff account hcur fun hz => (hsome hz).1).mp (h.pnl g hg cur hcur)
    exact ⟨hz, (hsome hz).1, (hsome hz).2, hround⟩
  · intro h
    refine ⟨livePreview_returns.mpr fun g hg hs => ?_, (equity_own_iff px _).mpr h.unpriced,
      fun g hg cur hcur => ?_⟩
    · cases hcur : px.get g.1 with
      | none =>
        unfold shownPrice at hs
        rw [hcur] at hs
        cases hs
      | some cur =>
        obtain ⟨_, hqty, hweight, _⟩ := h.priced g hg cur hcur
        exact ⟨hqty, hweight⟩
    · obtain ⟨hz, hqty, _, hround⟩ := h.priced g hg cur hcur
      exact (pnl_rows_iff account hcur fun _ => hqty).mpr ⟨hz, hround⟩

/-- Two lots of a symbol without a price, bought at 100 and at 200: both are taken at
200, and the equity is 100 too high. -/
theorem shared_mark : ¬ ValuedOnce (fun _ => some none) "main"
    { cash := some 1000
      lots := [⟨some 1, "BTC/USDT", 1, 100, 90, some 0, some ""⟩,
        ⟨some 2, "BTC/USDT", 1, 200, 190, some 0, some ""⟩] } 1 := by
  intro h
  have h := h.equity
  revert h
  decide +kernel

end PaperTrading.Web
