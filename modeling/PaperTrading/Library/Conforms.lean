import PaperTrading.Library.Rule
import Mathlib.Tactic.Ring
import Mathlib.Tactic.Linarith

/-!
# The engine follows the rule

`Sim` relates the engine's loop after `k` days to the rule's position after `k`
opens: the machine's flags, the open trade and the pending stop are the
position's, and the completed trades are the rule's sales, each bought with the
cash the sales before it left (`tradesOf`). `dayStep_sim` is one day,
`daysFrom_sim` all of them, and `run_conforms` the whole run with the sale at
the last close.
-/

namespace PaperTrading.Library

open Trading (PAPER_START_CASH)

/-! ## What the rule reads off the bars -/

/-- `bars[d]`, where `d` is a day of the bars. -/
def day (bars : List Day) (d : ℕ) : Day := bars[d]?.getD default

/-- The signal at the close before the open of day `d`. -/
def onBefore (signal : List Bool) : ℕ → Bool
  | 0 => false
  | d + 1 => signal[d]?.getD false

/-- The fill price of a buy at the open of day `e`. -/
def entryFill (bars : List Day) (costs : Costs) (e : ℕ) : ℚ :=
  (day bars e).open_ * (1 + costs.slippage)

/-- The rule for these bars, signal, costs and stop. -/
def ruleOf (bars : List Day) (signal : List Bool) (costs : Costs) (stopFrac : ℚ) : Rule where
  on := onBefore signal
  breached e d := reaches (day bars d) (stopPrice (entryFill bars costs e) stopFrac)

/-- The trade that buying at a day's open with all of `cash` opens. -/
def openedTrade (costs : Costs) (cash : ℚ) (day : Day) : Trade :=
  { entryTs := day.ts, entryPrice := (buyFill cash day.open_ costs).2.1
    qty := (buyFill cash day.open_ costs).1, entryFee := (buyFill cash day.open_ costs).2.2 }

/-- The trade a sale completes, entered with all of `cash`. -/
def tradeOf (bars : List Day) (costs : Costs) (cash : ℚ) (s : Sale) : Trade :=
  let opened := openedTrade costs cash (day bars s.entry)
  opened.closed opened.qty costs (day bars s.exit).ts
    (if s.atClose then (day bars s.exit).close else (day bars s.exit).open_) s.reason s.days

/-- The trades of a list of sales: each spends what the ones before it left. -/
def tradesOf (bars : List Day) (costs : Costs) : ℚ → List Sale → List Trade
  | _, [] => []
  | cash, s :: ss =>
    tradeOf bars costs cash s :: tradesOf bars costs (cash + (tradeOf bars costs cash s).pnl) ss

/-- The cash a list of sales leaves. -/
def banked (bars : List Day) (costs : Costs) (cash : ℚ) (ss : List Sale) : ℚ :=
  cash + ((tradesOf bars costs cash ss).map Trade.pnl).sum

section
variable (bars : List Day) (costs : Costs)

theorem tradesOf_concat (cash : ℚ) (ss : List Sale) (s : Sale) :
    tradesOf bars costs cash (ss ++ [s]) =
      tradesOf bars costs cash ss ++ [tradeOf bars costs (banked bars costs cash ss) s] := by
  induction ss generalizing cash with
  | nil => simp [tradesOf, banked]
  | cons a ss ih =>
    rw [List.cons_append, tradesOf, tradesOf, ih, List.cons_append]
    congr 3
    unfold banked
    rw [tradesOf, List.map_cons, List.sum_cons, add_assoc]

theorem banked_concat (cash : ℚ) (ss : List Sale) (s : Sale) :
    banked bars costs cash (ss ++ [s]) =
      banked bars costs cash ss + (tradeOf bars costs (banked bars costs cash ss) s).pnl := by
  conv_lhs => unfold banked
  rw [tradesOf_concat, List.map_append, List.sum_append, ← add_assoc]
  simp [banked]

/-- One open completes at most one sale. -/
theorem tradesOf_toList (cash : ℚ) (ss : List Sale) (s : Option Sale) :
    tradesOf bars costs cash (ss ++ s.toList) =
      tradesOf bars costs cash ss ++ (s.map (tradeOf bars costs (banked bars costs cash ss))).toList := by
  cases s with
  | none => simp
  | some s => exact tradesOf_concat bars costs cash ss s

theorem banked_toList (cash : ℚ) (ss : List Sale) (s : Option Sale) :
    banked bars costs cash (ss ++ s.toList) = banked bars costs cash ss +
      ((s.map (tradeOf bars costs (banked bars costs cash ss))).map Trade.pnl).getD 0 := by
  cases s with
  | none => simp
  | some s => exact banked_concat bars costs cash ss s

theorem buyFill_price (cash : ℚ) (e : ℕ) :
    (buyFill cash (day bars e).open_ costs).2.1 = entryFill bars costs e := by
  unfold buyFill entryFill
  dsimp only
  split <;> rfl

end

/-! ## The relation -/

/-- A loop with no position: nothing is held and the cash is what the sales left. -/
structure Idle (cash : ℚ) (l : Loop) : Prop where
  trade : l.trade = none
  qty : l.qty = 0
  stop : l.stop = none
  cash_eq : l.cash = cash

section
variable (bars : List Day) (signal : List Bool) (costs : Costs) (stopFrac startCash : ℚ)
variable (start : ℕ)

/-- A loop holding the position entered on day `e` with all of `cash`. -/
structure Holding (cash : ℚ) (e : ℕ) (l : Loop) : Prop where
  trade : l.trade = some (openedTrade costs cash (day bars e))
  qty : l.qty = (openedTrade costs cash (day bars e)).qty
  stop : l.stop = stopPrice (entryFill bars costs e) stopFrac
  entryDay : l.entryDay = e
  cash_eq : l.cash = cash - ((openedTrade costs cash (day bars e)).qty *
    (openedTrade costs cash (day bars e)).entryPrice +
      (openedTrade costs cash (day bars e)).entryFee)

/-- The loop is in position `p`; `pending` says of an entry day whether the
stop of a long entered then is waiting for the next open. -/
def Stands (cash : ℚ) (pending : ℕ → Bool) (l : Loop) : Position → Prop
  | .flat => l.state = {} ∧ Idle cash l
  | .locked => l.state = { lockout := true } ∧ Idle cash l
  | .long e =>
    l.state = { long := true, stopPending := pending e } ∧ Holding bars costs stopFrac cash e l

/-- The fee the position still held was bought at. -/
def heldFee (l : Loop) : ℚ := (l.trade.map (·.entryFee)).getD 0

/-- The engine's loop after `k` days and the rule after `k` opens. -/
structure Sim (k : ℕ) (l : Loop) : Prop where
  stands : Stands bars costs stopFrac
    (banked bars costs startCash ((ruleOf bars signal costs stopFrac).sales start k))
    (fun e => (ruleOf bars signal costs stopFrac).breached e (start + k - 1)) l
    ((ruleOf bars signal costs stopFrac).position start k)
  trades : l.trades =
    tradesOf bars costs startCash ((ruleOf bars signal costs stopFrac).sales start k)
  fees : l.fees = (l.trades.map Trade.fees).sum + heldFee l
  daysLong : l.daysLong = (ruleOf bars signal costs stopFrac).daysLong start k
  points : l.points.length = k + 1
  point : l.trade = none → l.points.getLast? = some l.cash

end

/-! ## One day -/

/-- The machine's flags are no part of what a loop holds. -/
theorem Idle.withState {cash : ℚ} {l : Loop} (h : Idle cash l) (state : MachineState) :
    Idle cash { l with state := state } := ⟨h.trade, h.qty, h.stop, h.cash_eq⟩

theorem Holding.withState {bars : List Day} {costs : Costs} {stopFrac cash : ℚ} {e : ℕ} {l : Loop}
    (h : Holding bars costs stopFrac cash e l) (state : MachineState) :
    Holding bars costs stopFrac cash e { l with state := state } :=
  ⟨h.trade, h.qty, h.stop, h.entryDay, h.cash_eq⟩

/-- `l'` is `l` with its position sold, which completed the trade `t`. -/
structure Sold (l : Loop) (cash : ℚ) (t : Trade) (l' : Loop) : Prop where
  idle : Idle (cash + t.pnl) l'
  state : l'.state = l.state
  trades : l'.trades = l.trades ++ [t]
  fees : l'.fees = l.fees + t.exitFee
  points : l'.points = l.points
  daysLong : l'.daysLong = l.daysLong

section
variable {bars : List Day} {signal : List Bool} {costs : Costs} {stopFrac startCash : ℚ}
variable {start : ℕ}

/-- Selling what is held gives back what it cost and the trade's profit. -/
theorem closeTrade_holding {cash : ℚ} {e : ℕ} {l : Loop}
    (h : Holding bars costs stopFrac cash e l) (ts : ℤ) (ref : ℚ) (reason : Reason) (days : ℤ) :
    ∃ l', l.closeTrade costs ts ref reason days = .ok l' ∧
      Sold l cash ((openedTrade costs cash (day bars e)).closed
        (openedTrade costs cash (day bars e)).qty costs ts ref reason days) l' := by
  unfold Loop.closeTrade
  rw [h.trade, h.qty]
  refine ⟨_, rfl, ⟨rfl, rfl, rfl, ?_⟩, rfl, rfl, rfl, rfl, rfl⟩
  show l.cash + (sellFill _ ref costs).2.2 = _
  rw [h.cash_eq]
  simp only [Trade.pnl, Trade.closed, sellFill]
  ring

theorem enter_holding {cash : ℚ} {l : Loop} (h : l.cash = cash) (d : ℕ) :
    Holding bars costs stopFrac cash d (l.enter costs stopFrac (day bars d) d) where
  trade := by rw [← h]; rfl
  qty := by rw [← h]; rfl
  stop := congrArg (stopPrice · stopFrac) (buyFill_price bars costs l.cash d)
  entryDay := rfl
  cash_eq := by rw [← h]; rfl

/-- What the two fills of a day's open make of a loop: `sold` is what they
completed, and nothing else but the position moved. -/
structure Opened (l : Loop) (sold : List Trade) (l' : Loop) : Prop where
  trades : l'.trades = l.trades ++ sold
  fees : l'.fees + heldFee l = l.fees + (sold.map Trade.fees).sum + heldFee l'
  points : l'.points = l.points
  daysLong : l'.daysLong = l.daysLong

/-- The open of day `d`: the pending stop, then the signal of the close before. -/
def Loop.atOpen (l : Loop) (costs : Costs) (stopFrac : ℚ) (day : Day) (d : ℕ) (on : Bool) :
    Except RunError Loop := do
  let l ← l.sellStopped costs day d
  l.act costs stopFrac day d on

/-- With nothing pending, the open is the signal alone. -/
theorem atOpen_of_idle {l : Loop} (h : l.state.stopPending = false) (day : Day) (d : ℕ)
    (on : Bool) : l.atOpen costs stopFrac day d on = l.act costs stopFrac day d on := by
  simp only [Loop.atOpen, Loop.sellStopped, h, Bool.false_and, Bool.false_eq_true, if_false]
  rfl

/-- A loop that opens nothing and sells nothing keeps what it holds. -/
theorem opened_refl {l l' : Loop} (htrade : l'.trade = l.trade) (htrades : l'.trades = l.trades)
    (hfees : l'.fees = l.fees) (hpoints : l'.points = l.points)
    (hdays : l'.daysLong = l.daysLong) : Opened l [] l' where
  trades := by rw [htrades, List.append_nil]
  fees := by simp [heldFee, htrade, hfees]
  points := hpoints
  daysLong := hdays

theorem Sold.opened {l l' l'' : Loop} {cash : ℚ} {e : ℕ} {t : Trade} (h : Sold l cash t l')
    (hheld : Holding bars costs stopFrac cash e l)
    (hfee : t.entryFee = (openedTrade costs cash (day bars e)).entryFee) (hl : l'' = { l' with state := l''.state }) :
    Opened l [t] l'' := by
  rw [hl]
  refine ⟨h.trades, ?_, h.points, h.daysLong⟩
  simp only [heldFee, h.idle.trade, hheld.trade, h.fees, Option.map_some, Option.map_none,
    Option.getD_some, Option.getD_none, List.map_cons, List.map_nil, List.sum_cons, List.sum_nil,
    Trade.fees, hfee]
  ring

/-- From a position, the open of day `d` goes to the rule's next one and
completes the rule's sale. -/
theorem atOpen_stands {cash : ℚ} {p : Position} {d : ℕ} {l : Loop} (R : Rule)
    (h : Stands bars costs stopFrac cash (fun e => R.breached e (d - 1)) l p) :
    ∃ l', l.atOpen costs stopFrac (day bars d) d (R.on d) = .ok l' ∧
      Stands bars costs stopFrac
        (cash + (((p.sale R d).map (tradeOf bars costs cash)).map Trade.pnl).getD 0)
        (fun _ => false) l' (p.next R d) ∧
      Opened l ((p.sale R d).map (tradeOf bars costs cash)).toList l' := by
  cases p with
  | flat =>
    obtain ⟨hstate, hidle⟩ := h
    rw [atOpen_of_idle (by rw [hstate])]
    simp only [Position.sale, Position.next, Option.map_none, Option.getD_none, add_zero,
      Option.toList_none]
    unfold Loop.act
    rw [hstate]
    cases R.on d with
    | false =>
      exact ⟨_, rfl, ⟨rfl, hidle.withState _⟩,
        opened_refl rfl rfl rfl rfl rfl⟩
    | true =>
      refine ⟨_, rfl, ⟨rfl, enter_holding (l := { l with state := { long := true } })
        hidle.cash_eq d⟩, ?_⟩
      refine ⟨(List.append_nil _).symm, ?_, rfl, rfl⟩
      simp [heldFee, hidle.trade, Loop.enter]
  | locked =>
    obtain ⟨hstate, hidle⟩ := h
    rw [atOpen_of_idle (by rw [hstate])]
    simp only [Position.sale, Position.next, Option.map_none, Option.getD_none, add_zero,
      Option.toList_none]
    unfold Loop.act
    rw [hstate]
    cases R.on d with
    | false =>
      exact ⟨_, rfl, ⟨rfl, hidle.withState _⟩,
        opened_refl rfl rfl rfl rfl rfl⟩
    | true =>
      exact ⟨_, rfl, ⟨rfl, hidle.withState _⟩,
        opened_refl rfl rfl rfl rfl rfl⟩
  | long e =>
    obtain ⟨hstate, hheld⟩ := h
    cases hb : R.breached e (d - 1) with
    | true =>
      -- sold at the open; the stop locks the book unless the last close was off
      obtain ⟨l₁, hclose, hsold⟩ := closeTrade_holding hheld (day bars d).ts (day bars d).open_
        .safetyStop ((d : ℤ) - e)
      have hl : l.atOpen costs stopFrac (day bars d) d (R.on d) =
          ({ l₁ with state := stopOut l₁.state } : Loop).act costs stopFrac (day bars d) d
            (R.on d) := by
        simp only [Loop.atOpen, Loop.sellStopped, hstate, hb, Bool.and_self, if_true,
          hheld.entryDay, hclose]
        rfl
      rw [hl]
      simp only [Position.sale, Position.next, hb, if_true, Option.map_some, Option.getD_some,
        Option.toList_some]
      unfold Loop.act stopOut
      cases R.on d with
      | false =>
        exact ⟨_, rfl, ⟨rfl, hsold.idle.withState _⟩, hsold.opened hheld rfl rfl⟩
      | true =>
        exact ⟨_, rfl, ⟨rfl, hsold.idle.withState _⟩, hsold.opened hheld rfl rfl⟩
    | false =>
      have hstate' : l.state = { long := true } := by
        rw [hstate]
        exact congrArg (MachineState.mk true false) hb
      rw [atOpen_of_idle (by rw [hstate'])]
      simp only [Position.sale, Position.next, hb, Bool.false_eq_true, if_false]
      unfold Loop.act
      rw [hstate']
      cases R.on d with
      | false =>
        obtain ⟨l₁, hclose, hsold⟩ := closeTrade_holding (hheld.withState {}) (day bars d).ts
          (day bars d).open_ .signal ((d : ℤ) - e)
        have hopened : Opened { l with state := {} } _ l₁ :=
          hsold.opened (hheld.withState {}) rfl rfl
        refine ⟨l₁, ?_, ⟨hsold.state, hsold.idle⟩,
          ⟨hopened.trades, hopened.fees, hopened.points, hopened.daysLong⟩⟩
        rw [← hclose, ← hheld.entryDay]
        rfl
      | true =>
        simp only [if_true, Option.map_none, Option.getD_none, add_zero, Option.toList_none]
        exact ⟨_, rfl, ⟨rfl, hheld.withState _⟩, opened_refl rfl rfl rfl rfl rfl⟩

/-! ## All days -/

theorem sim_init : Sim bars signal costs stopFrac startCash start 0 (Loop.init start startCash) where
  stands := ⟨rfl, rfl, rfl, rfl, by simp [banked, tradesOf, Rule.sales, Loop.init]⟩
  trades := rfl
  fees := by simp [Loop.init, heldFee]
  daysLong := rfl
  points := rfl
  point := fun _ => rfl

theorem dayAt_of_lt {d : ℕ} (h : d < bars.length) : dayAt bars d = .ok (day bars d) := by
  simp [dayAt, day, List.getElem?_eq_getElem h]

/-- A signal that covers the days before `d` has a flag for the close before it. -/
theorem signalBefore_of_le {d : ℕ} (h : d ≤ signal.length) :
    signalBefore signal d = .ok (onBefore signal d) := by
  cases d with
  | zero => rfl
  | succ d => simp [signalBefore, onBefore, List.getElem?_eq_getElem (Nat.lt_of_succ_le h)]

/-- The rest of the day keeps the position and makes the stop of a reached one
pending. -/
theorem mark_stands {cash : ℚ} {p : Position} {d : ℕ} {l : Loop}
    (h : Stands bars costs stopFrac cash (fun _ => false) l p) :
    Stands bars costs stopFrac cash
      (fun e => (ruleOf bars signal costs stopFrac).breached e d) (l.mark (day bars d)) p := by
  cases p with
  | flat =>
    obtain ⟨hstate, hidle⟩ := h
    refine ⟨?_, hidle.trade, hidle.qty, hidle.stop, hidle.cash_eq⟩
    simp only [Loop.mark, hstate, Bool.false_and, Bool.or_false]
  | locked =>
    obtain ⟨hstate, hidle⟩ := h
    refine ⟨?_, hidle.trade, hidle.qty, hidle.stop, hidle.cash_eq⟩
    simp only [Loop.mark, hstate, Bool.false_and, Bool.or_false]
  | long e =>
    obtain ⟨hstate, hheld⟩ := h
    refine ⟨?_, hheld.trade, hheld.qty, hheld.stop, hheld.entryDay, hheld.cash_eq⟩
    simp only [Loop.mark, hstate, hheld.stop, Bool.true_and, Bool.or_false]
    rfl

theorem stands_long {cash : ℚ} {pending : ℕ → Bool} {l : Loop} {p : Position}
    (h : Stands bars costs stopFrac cash pending l p) : l.state.long = p.isLong := by
  cases p with
  | flat => rw [h.1]; rfl
  | locked => rw [h.1]; rfl
  | long e => rw [h.1]; rfl

theorem stands_qty {cash : ℚ} {pending : ℕ → Bool} {l : Loop} {p : Position}
    (h : Stands bars costs stopFrac cash pending l p) (hnone : l.trade = none) : l.qty = 0 := by
  cases p with
  | flat => exact h.2.qty
  | locked => exact h.2.qty
  | long e =>
    rw [h.2.trade] at hnone
    cases hnone

/-- A day of the loop is a day of the rule. -/
theorem dayStep_sim {k : ℕ} {l : Loop} (h : Sim bars signal costs stopFrac startCash start k l)
    (hday : start + k < bars.length) (hsignal : start + k ≤ signal.length) :
    ∃ l', dayStep bars signal costs stopFrac l (start + k) = .ok l' ∧
      Sim bars signal costs stopFrac startCash start (k + 1) l' := by
  obtain ⟨l₁, hopen, hnext, hmoved⟩ :=
    atOpen_stands (d := start + k) (ruleOf bars signal costs stopFrac) h.stands
  refine ⟨l₁.mark (day bars (start + k)), ?_, ?_, ?_, ?_, ?_, ?_, ?_⟩
  · unfold Loop.atOpen at hopen
    unfold dayStep
    rw [dayAt_of_lt hday, signalBefore_of_le hsignal]
    cases hs : l.sellStopped costs (day bars (start + k)) (start + k) with
    | error e =>
      rw [hs] at hopen
      cases hopen
    | ok l₀ =>
      rw [hs] at hopen
      replace hopen : l₀.act costs stopFrac (day bars (start + k)) (start + k)
        (onBefore signal (start + k)) = .ok l₁ := hopen
      simp only [bind, Except.bind, hs, hopen, pure, Except.pure]
  · rw [← banked_toList] at hnext
    exact mark_stands hnext
  · show l₁.trades = tradesOf bars costs startCash (_ ++ _)
    rw [hmoved.trades, h.trades, tradesOf_toList]
  · have hfees := hmoved.fees
    have hbefore := h.fees
    show l₁.fees = (l₁.trades.map Trade.fees).sum + heldFee l₁
    rw [hmoved.trades, List.map_append, List.sum_append]
    linarith
  · show (if l₁.state.long then l₁.daysLong + 1 else l₁.daysLong) = _
    rw [stands_long hnext, hmoved.daysLong, h.daysLong, Rule.daysLong]
    show _ = _ + if ((Rule.position _ start k).next _ (start + k)).isLong then (1 : ℤ) else 0
    split
    · rfl
    · rw [add_zero]
  · show (l₁.points ++ [_]).length = _
    rw [List.length_append, hmoved.points, h.points]
    rfl
  · intro hnone
    show (l₁.points ++ [l₁.cash + l₁.qty * _]).getLast? = some l₁.cash
    rw [List.getLast?_concat, stands_qty hnext hnone, zero_mul, add_zero]

/-- The loop runs through its days and stands where the rule does. -/
theorem daysFrom_sim (k : ℕ) (hdays : start + k ≤ bars.length)
    (hsignal : start + k ≤ signal.length + 1) :
    ∃ l, daysFrom bars signal costs stopFrac startCash start k = .ok l ∧
      Sim bars signal costs stopFrac startCash start k l := by
  induction k with
  | zero => exact ⟨_, rfl, sim_init⟩
  | succ k ih =>
    obtain ⟨l, hl, hsim⟩ := ih (by omega) (by omega)
    obtain ⟨l', hl', hsim'⟩ := dayStep_sim hsim (by omega) (by omega)
    refine ⟨l', ?_, hsim'⟩
    unfold daysFrom at hl ⊢
    rw [List.range'_concat, List.foldlM_append, hl]
    simp only [List.foldlM_cons, List.foldlM_nil, bind_pure, Nat.one_mul]
    exact hl'

/-! ## The last close -/

/-- What is left of a run: no position, and the books closed over `ss`. -/
structure Done (bars : List Day) (costs : Costs) (startCash : ℚ) (ss : List Sale) (k : ℕ)
    (daysLong : ℤ) (l : Loop) : Prop where
  trade : l.trade = none
  trades : l.trades = tradesOf bars costs startCash ss
  cash : l.cash = banked bars costs startCash ss
  fees : l.fees = (l.trades.map Trade.fees).sum
  daysLong_eq : l.daysLong = daysLong
  points : l.points.length = k + 1
  point : l.points.getLast? = some l.cash

/-- A loop that holds nothing has nothing to sell. -/
theorem sellLast_idle {k : ℕ} {l : Loop} (h : Sim bars signal costs stopFrac startCash start k l)
    (hlast : ((ruleOf bars signal costs stopFrac).position start k).lastSale
      (ruleOf bars signal costs stopFrac) (start + k - 1) = none)
    (hidle : Idle (banked bars costs startCash
      ((ruleOf bars signal costs stopFrac).sales start k)) l) :
    l.sellLast bars costs (start + k - 1) = .ok l ∧
      Done bars costs startCash ((ruleOf bars signal costs stopFrac).allSales start k) k
        ((ruleOf bars signal costs stopFrac).daysLong start k) l := by
  have hall : (ruleOf bars signal costs stopFrac).allSales start k =
      (ruleOf bars signal costs stopFrac).sales start k := by
    unfold Rule.allSales
    rw [hlast]
    exact List.append_nil _
  have hfees := h.fees
  simp only [heldFee, hidle.trade, Option.map_none, Option.getD_none, add_zero] at hfees
  rw [hall]
  refine ⟨?_, hidle.trade, h.trades, hidle.cash_eq, hfees, h.daysLong, h.points,
    h.point hidle.trade⟩
  simp only [Loop.sellLast, hidle.trade, Option.isSome_none, Bool.false_eq_true, if_false]
  rfl

/-- The window-end sale is the rule's last sale. -/
theorem sellLast_done {k : ℕ} {l : Loop} (h : Sim bars signal costs stopFrac startCash start k l)
    (hk : 0 < k) (hdays : start + k ≤ bars.length) :
    ∃ l', l.sellLast bars costs (start + k - 1) = .ok l' ∧
      Done bars costs startCash ((ruleOf bars signal costs stopFrac).allSales start k) k
        ((ruleOf bars signal costs stopFrac).daysLong start k) l' := by
  have hstands := h.stands
  cases hpos : (ruleOf bars signal costs stopFrac).position start k with
  | flat =>
    rw [hpos] at hstands
    exact ⟨l, sellLast_idle h (by rw [hpos]; rfl) hstands.2⟩
  | locked =>
    rw [hpos] at hstands
    exact ⟨l, sellLast_idle h (by rw [hpos]; rfl) hstands.2⟩
  | long e =>
    rw [hpos] at hstands
    obtain ⟨hstate, hheld⟩ := hstands
    have hday : start + k - 1 < bars.length := by omega
    obtain ⟨l₁, hclose, hsold⟩ := closeTrade_holding hheld (day bars (start + k - 1)).ts
      (day bars (start + k - 1)).close
      (if l.state.stopPending then .safetyStop else .windowEnd)
      (((start + k - 1 : ℕ) : ℤ) - l.entryDay + 1)
    have hlast : (ruleOf bars signal costs stopFrac).allSales start k =
        (ruleOf bars signal costs stopFrac).sales start k ++
          [{ entry := e, exit := start + k - 1, atClose := true
             reason := if l.state.stopPending then .safetyStop else .windowEnd }] := by
      unfold Rule.allSales
      rw [hpos, hstate]
      rfl
    have hfees := h.fees
    simp only [heldFee, hheld.trade, Option.map_some, Option.getD_some] at hfees
    have hentry := hheld.entryDay
    rw [hlast]
    refine ⟨{ l₁ with
      state := if l₁.state.stopPending then stopOut l₁.state else l₁.state
      points := l₁.points.dropLast ++ [l₁.cash] }, ?_, hsold.idle.trade, ?_, ?_, ?_, ?_, ?_, ?_⟩
    · simp only [Loop.sellLast, hheld.trade, Option.isSome_some, if_true, bind, Except.bind,
        dayAt_of_lt hday, hclose]
      rfl
    · show l₁.trades = _
      rw [hsold.trades, h.trades, tradesOf_concat, hentry]
      rfl
    · show l₁.cash = _
      rw [hsold.idle.cash_eq, banked_concat, hentry]
      rfl
    · show l₁.fees = (l₁.trades.map Trade.fees).sum
      rw [hsold.fees, hfees, hsold.trades, List.map_append, List.sum_append]
      simp [Trade.fees, Trade.closed, add_assoc]
    · exact hsold.daysLong.trans h.daysLong
    · have hlen := h.points
      simp [hsold.points, hlen]
    · simp

/-! ## The run -/

/-- The rule's sales over a window of the bars. -/
def windowSales (bars : List Day) (signal : List Bool) (costs : Costs) (stopFrac : ℚ)
    (start end_ : ℤ) : List Sale :=
  (ruleOf bars signal costs stopFrac).allSales (firstDay start) (scoredDays bars start end_)

/-- The loop's variables when `run` returns. -/
def bookAtEnd (bars : List Day) (signal : List Bool) (start end_ : ℤ) (startCash : ℚ)
    (costs : Costs) (stopFrac : ℚ) : Except RunError Loop :=
  if min (bars.length : ℤ) end_ ≤ max 0 start then .ok (Loop.init (firstDay start) startCash)
  else
    runLoop bars signal costs stopFrac startCash (firstDay start) (scoredDays bars start end_)

/-- A window with no day in it sells nothing. -/
theorem windowSales_empty {start end_ : ℤ} (h : min (bars.length : ℤ) end_ ≤ max 0 start) :
    windowSales bars signal costs stopFrac start end_ = [] := by
  have hk : scoredDays bars start end_ = 0 := by
    unfold scoredDays
    omega
  unfold windowSales
  rw [hk]
  rfl

theorem window_days {start end_ : ℤ} (h : ¬min (bars.length : ℤ) end_ ≤ max 0 start) :
    0 < scoredDays bars start end_ ∧
      firstDay start + scoredDays bars start end_ ≤ bars.length := by
  unfold scoredDays firstDay
  omega

/-- The loop with its window-end sale runs through, and closes the books over the
rule's sales. -/
theorem bookAtEnd_done (start end_ : ℤ) (hsignal : bars.length ≤ signal.length) :
    ∃ l, bookAtEnd bars signal start end_ startCash costs stopFrac = .ok l ∧
      Done bars costs startCash (windowSales bars signal costs stopFrac start end_)
        (scoredDays bars start end_)
        ((ruleOf bars signal costs stopFrac).daysLong (firstDay start)
          (scoredDays bars start end_)) l := by
  unfold bookAtEnd
  by_cases h : min (bars.length : ℤ) end_ ≤ max 0 start
  · have hk : scoredDays bars start end_ = 0 := by
      unfold scoredDays
      omega
    rw [if_pos h, windowSales_empty h, hk]
    exact ⟨_, rfl, rfl, rfl, by simp [banked, tradesOf, Loop.init], rfl, rfl, rfl, rfl⟩
  · obtain ⟨hk, hdays⟩ := window_days h
    rw [if_neg h]
    have hloop : ∃ l, daysFrom bars signal costs stopFrac startCash (firstDay start)
        (scoredDays bars start end_) = .ok l ∧
        Sim bars signal costs stopFrac startCash (firstDay start) (scoredDays bars start end_) l :=
      daysFrom_sim _ hdays (by omega)
    obtain ⟨l, hl, hsim⟩ := hloop
    obtain ⟨l', hl', hdone⟩ := sellLast_done hsim hk hdays
    refine ⟨l', ?_, hdone⟩
    unfold runLoop
    rw [hl]
    exact hl'

/-- The result is read off the book at the end. -/
theorem run_of_book {start end_ : ℤ} {l : Loop}
    (h : bookAtEnd bars signal start end_ startCash costs stopFrac = .ok l) :
    run bars signal start end_ startCash costs stopFrac =
      .ok { start := max 0 start, end_ := min (bars.length : ℤ) end_, trades := l.trades
            equity := l.points, daysLong := l.daysLong, fees := l.fees } := by
  unfold bookAtEnd at h
  unfold run
  dsimp only
  split at h
  next hempty =>
    cases h
    rw [if_pos hempty]
    rfl
  next hdays =>
    rw [if_neg hdays, h]
    rfl

end

end PaperTrading.Library
