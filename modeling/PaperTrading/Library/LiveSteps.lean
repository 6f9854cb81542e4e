import PaperTrading.Library.Live
import PaperTrading.Library.Accounting
import PaperTrading.Broker.Sell
import Mathlib.Tactic.Positivity

/-!
# One live run at a daily open

`liveNext` is what a run at the open of day `d` does to a position: the rule's
`next` when the last close is warm, `skip` when it is not. `LiveAt` is the
account that holds a position, in terms of what is saved: the machine's flags,
the last processed day, the broker's lots. `run_liveAt` says that a run takes
the account of a position to the account of the next one, and reports the fill.
-/

namespace PaperTrading.Library

open Broker Trading

/-! ## Positions -/

/-- An unwarmed close: only the stop of the day before moves the position. -/
def Position.skip (R : Rule) (d : ℕ) : Position → Position
  | .long e => if R.breached e (d - 1) then .locked else .long e
  | p => p

/-- The position after the open of day `d` in the live account. -/
def Position.liveNext (R : Rule) (warm : Bool) (d : ℕ) (p : Position) : Position :=
  if warm then p.next R d else p.skip R d

/-- A live open enters today or keeps the position it has. -/
theorem liveNext_long {R : Rule} {warm : Bool} {d : ℕ} {p : Position}
    (h : (p.liveNext R warm d).isLong = true) :
    p.isLong = false ∧ p.liveNext R warm d = .long d ∨
      p.isLong = true ∧ p.liveNext R warm d = p := by
  cases p with
  | flat =>
    refine Or.inl ⟨rfl, ?_⟩
    cases warm <;> cases hd : R.on d <;>
      simp_all [Position.liveNext, Position.next, Position.skip, Position.isLong]
  | locked =>
    cases warm <;> cases hd : R.on d <;>
      simp_all [Position.liveNext, Position.next, Position.skip, Position.isLong]
  | long e =>
    refine Or.inr ⟨rfl, ?_⟩
    cases warm <;> cases hd : R.on d <;> cases hb : R.breached e (d - 1) <;>
      simp_all [Position.liveNext, Position.next, Position.skip, Position.isLong]

/-- The machine's flags in a position with no stop pending. -/
def Position.machine (p : Position) : MachineState :=
  { long := p.isLong, lockout := decide (p = .locked) }

/-- What an observer sees of an open: long or flat, locked or not, and the fill. -/
structure OpenState where
  long : Bool
  lockout : Bool
  fill : Option Action
deriving DecidableEq, Repr

/-- An open that took position `p` to `p'`. -/
def Position.opened (p p' : Position) : OpenState where
  long := p'.isLong
  lockout := decide (p' = .locked)
  fill := if p.isLong && !p'.isLong then some .exit
    else if p'.isLong && !p.isLong then some .enter else none

/-- A daily tape: days in order, with positive prices. -/
structure DailyTape where
  bars : List Day
  ascending : bars.Pairwise fun a b => a.ts < b.ts
  priced : ∀ b ∈ bars, 0 < b.open_ ∧ 0 < b.low

/-- The strategy's signal on these bars does not look ahead: on the days so far
it is the signal of the whole tape up to there. -/
def NoLookAhead (strategy : LibraryStrategy) (bars : List Day) : Prop :=
  ∀ d ≤ bars.length, strategy.signal (bars.take d) = (strategy.signal bars).take d

/-- Whether the close before the open of day `d` is warm to the run at that open. -/
def warmAt (strategy : LibraryStrategy) (bars : List Day) (d : ℕ) : Bool :=
  d = 0 || flagAt (strategy.positionReady (bars.take d)) (d - 1)

/-- The rule of the engine on a strategy's signal and stop. -/
def strategyRule (strategy : LibraryStrategy) (bars : List Day) : Rule :=
  ruleOf bars (strategy.signal bars) paperCosts strategy.stopFrac

/-! ## The replay of one day -/

section
variable {bars : List Day} {signal ready : List Bool}

/-- What one pending day makes of the machine of a position. `lotStop` is read
only while a position is on. -/
theorem replayDay_machine (R : Rule) {p : Position} {d : ℕ} {lotStop : Option ℚ}
    (hon : flagAt signal (d - 1) = R.on d)
    (hstop : ∀ e, p = .long e → reaches (day bars (d - 1)) lotStop = R.breached e (d - 1)) :
    (replayDay bars signal ready p.isLong lotStop (d - 1) { machine := p.machine } (d - 1)).machine =
      (p.liveNext R (flagAt ready (d - 1)) d).machine := by
  unfold replayDay Position.liveNext
  rw [hon]
  cases p with
  | flat =>
    cases hw : flagAt ready (d - 1) <;> cases hd : R.on d <;>
      simp [Position.next, Position.skip, Position.machine, Position.isLong, step, hd]
  | locked =>
    cases hw : flagAt ready (d - 1) <;> cases hd : R.on d <;>
      simp [Position.next, Position.skip, Position.machine, Position.isLong, step, hd]
  | long e =>
    rw [hstop e rfl]
    cases hw : flagAt ready (d - 1) <;> cases hd : R.on d <;> cases hb : R.breached e (d - 1) <;>
      simp [Position.next, Position.skip, Position.machine, Position.isLong, step, stopOut, hd, hb]

end

/-! ## The account of a position -/

section
variable (bars : List Day) (stopFrac : ℚ)

/-- The broker that holds a position: all cash, or one lot with the rule's stop. -/
def Holds (b : PaperBroker) : Position → Prop
  | .long e => 0 ≤ b.cash ∧ ∃ lot, b.lots = [lot] ∧ lot.ticker = SYMBOL ∧ 0 < lot.quantity ∧
      lot.stopLoss = (stopPrice (entryFill bars paperCosts e) stopFrac).getD 0
  | _ => 0 < b.cash ∧ b.lots = []

/-- The account in position `p` before the run at the open of day `d`. -/
structure LiveAt (account : LibraryAccount) (p : Position) (d : ℕ) : Prop where
  machine : account.library.machine.getD {} = p.machine
  lastDay : ∀ t, account.library.lastDay = some t → 2 ≤ d ∧ t = tsAt bars (d - 2)
  notDeferred : account.library.deferEntry = false
  broker : ∀ nextLot, Holds bars stopFrac (openAccount account nextLot).1 p
  fees : ∀ nextLot, (openAccount account nextLot).1.takerFee = TAKER_FEE ∧
    (openAccount account nextLot).1.slippage = SLIPPAGE

end

section
variable {bars : List Day} {stopFrac : ℚ}

theorem liveAt_fresh (start : ℕ) : LiveAt bars stopFrac .fresh .flat start where
  machine := rfl
  lastDay := nofun
  notDeferred := rfl
  broker := fun _ => ⟨by show (0 : ℚ) < PAPER_START_CASH; decide +kernel, rfl⟩
  fees := fun _ => ⟨rfl, rfl⟩

/-- The machine a run starts from: the broker's lots are the position. -/
theorem openAccount_machine {account : LibraryAccount} {p : Position} {d : ℕ}
    (h : LiveAt bars stopFrac account p d) (nextLot : ℕ) :
    (openAccount account nextLot).2 = p.machine := by
  have hheld : ((openAccount account nextLot).1.lots.any fun lot => lot.ticker = SYMBOL) =
      p.isLong := by
    have hbroker := h.broker nextLot
    cases p with
    | flat => rw [hbroker.2]; rfl
    | locked => rw [hbroker.2]; rfl
    | long e =>
      obtain ⟨-, lot, hlots, hticker, -⟩ := hbroker
      rw [hlots]
      simp [hticker, Position.isLong]
  have hopen : (openAccount account nextLot).2 = { account.library.machine.getD {} with
      long := (openAccount account nextLot).1.lots.any fun lot => lot.ticker = SYMBOL } := rfl
  rw [hopen, h.machine, hheld]
  rfl

/-- The stop of the lot is the rule's stop: a stop at or below zero is no lower
than a price. -/
theorem stopLevel_reaches {b : PaperBroker} {e : ℕ} {today : Day}
    (h : Holds bars stopFrac b (.long e)) (hlow : 0 < today.low) :
    reaches today (stopLevel b) =
      reaches today (stopPrice (entryFill bars paperCosts e) stopFrac) := by
  obtain ⟨-, lot, hlots, hticker, -, hstop⟩ := h
  unfold stopLevel
  rw [hlots]
  by_cases hpos : 0 < lot.stopLoss
  · rw [List.find?_cons_of_pos (by simp [hticker, hpos])]
    cases hs : stopPrice (entryFill bars paperCosts e) stopFrac with
    | none =>
      rw [hs] at hstop
      simp [hstop] at hpos
    | some s =>
      rw [hs] at hstop
      simp [hstop]
  · rw [List.find?_cons_of_neg (by simp [hpos])]
    cases hs : stopPrice (entryFill bars paperCosts e) stopFrac with
    | none => rfl
    | some s =>
      rw [hs] at hstop
      obtain rfl : lot.stopLoss = s := hstop
      have : ¬ today.low ≤ lot.stopLoss := by
        intro hle
        exact hpos (lt_of_lt_of_le hlow hle)
      simp [reaches, this]

/-! ## The fills -/

/-- An all-in buy at a positive price with money in the book. -/
theorem buyFill_pos {cash price : ℚ} (hcash : 0 < cash) (hprice : 0 < price) :
    0 < (buyFill cash price paperCosts).1 := by
  have hslip := paperCosts.slippage_nonneg
  have hfee := paperCosts.fee_nonneg
  have hfill : 0 < price * (1 + paperCosts.slippage) := by positivity
  unfold buyFill
  dsimp only
  rw [if_neg (by rw [not_or, not_le, not_le]; exact ⟨hcash, hfill⟩)]
  dsimp only
  positivity

theorem buyFill_fee (cash price : ℚ) (costs : Costs) :
    (buyFill cash price costs).2.2 =
      (buyFill cash price costs).1 * (buyFill cash price costs).2.1 * costs.takerFee := by
  unfold buyFill
  dsimp only
  split
  · simp
  · rfl

/-- The books of a broker: all cash, or one lot with its stop and no debt. -/
def Books (b : PaperBroker) : Option ℚ → Prop
  | some stopLoss => 0 ≤ b.cash ∧ ∃ lot, b.lots = [lot] ∧ lot.ticker = SYMBOL ∧ 0 < lot.quantity ∧
      lot.stopLoss = stopLoss
  | none => 0 < b.cash ∧ b.lots = []

/-- The stop a position bought at `price` is given. -/
def boughtStop (price stopFrac : ℚ) : ℚ :=
  (stopPrice (price * (1 + paperCosts.slippage)) stopFrac).getD 0

theorem buyFill_price_eq (cash price : ℚ) (costs : Costs) :
    (buyFill cash price costs).2.1 = price * (1 + costs.slippage) := by
  unfold buyFill
  dsimp only
  split <;> rfl

/-- A flat book buys, whatever the price. -/
theorem buy_books {r : LiveRun} {price : ℚ} {condition : String} (hbooks : Books r.broker none)
    (hfees : r.broker.takerFee = TAKER_FEE ∧ r.broker.slippage = SLIPPAGE) (hprice : 0 < price) :
    ∃ r' act, r.buy price stopFrac condition = .ok r' ∧
      r'.actions = r.actions ++ [act] ∧ act.action = .enter ∧
      r'.machine = r.machine ∧ r'.raw = r.raw ∧
      Books r'.broker (some (boughtStop price stopFrac)) ∧
      r'.broker.takerFee = TAKER_FEE ∧ r'.broker.slippage = SLIPPAGE := by
  obtain ⟨hcash, hlots⟩ := hbooks
  have hqty := buyFill_pos hcash hprice
  have hcost := (buyFill_cost paperCosts price hcash.le).2
  have hfillPx := buyFill_price_eq r.broker.cash price paperCosts
  have hfee := buyFill_fee r.broker.cash price paperCosts
  have hfill : (buyFill r.broker.cash price paperCosts).2.1 = r.broker.fillPrice .buy price := by
    rw [hfillPx]
    show _ = price * (1 + r.broker.slippage)
    rw [hfees.2]
    rfl
  unfold LiveRun.buy
  generalize buyFill r.broker.cash price paperCosts = bought at *
  obtain ⟨qty, fillPx, fee⟩ := bought
  dsimp only at hqty hcost hfillPx hfee hfill ⊢
  rw [if_neg (not_le.mpr hqty)]
  refine ⟨_, _, rfl, rfl, rfl, rfl, rfl,
    ⟨?_, r.broker.boughtLot { ticker := SYMBOL, side := .buy, quantity := qty, price := price
                              stopLoss := some ((stopPrice fillPx stopFrac).getD 0)
                              condition := condition }
      ((stopPrice fillPx stopFrac).getD 0) price, ?_, rfl, hqty, ?_⟩,
    hfees.1, hfees.2⟩
  · show 0 ≤ r.broker.cash - (qty * r.broker.fillPrice .buy price +
      qty * r.broker.fillPrice .buy price * r.broker.takerFee)
    rw [← hfill, hfees.1]
    rw [hfee] at hcost
    exact sub_nonneg.mpr hcost
  · show r.broker.lots ++ [_] = _
    rw [hlots]
    rfl
  · show (stopPrice fillPx stopFrac).getD 0 = _
    rw [hfillPx]
    rfl

/-- The one lot is sold, whatever the price. -/
theorem sell_books {r : LiveRun} {price stopLoss : ℚ} {reason : Reason}
    (hbooks : Books r.broker (some stopLoss))
    (hfees : r.broker.takerFee = TAKER_FEE ∧ r.broker.slippage = SLIPPAGE) (hprice : 0 < price) :
    ∃ r' act, r.sell price reason = .ok r' ∧
      r'.actions = r.actions ++ [act] ∧ (act.action = .closeStop ∨ act.action = .closeSignal) ∧
      r'.machine = r.machine ∧ r'.raw = r.raw ∧ Books r'.broker none ∧
      r'.broker.takerFee = TAKER_FEE ∧ r'.broker.slippage = SLIPPAGE := by
  obtain ⟨hcash, lot, hlots, hticker, hqty, -⟩ := hbooks
  have hfirst : firstOf r.broker.lots lot.ticker = some lot := by
    rw [hlots]
    simp [firstOf]
  have hclose := PaperBroker.closeLot_first price hfirst
  have hmine : (r.broker.lots.filter fun lot => lot.ticker = SYMBOL) = [lot] := by
    rw [hlots]
    simp [hticker]
  unfold LiveRun.sell
  rw [hmine]
  simp only [List.foldlM_cons, List.foldlM_nil, bind_pure, sellLot, hclose]
  refine ⟨_, _, rfl, rfl, ?_, rfl, rfl, ⟨?_, ?_⟩, hfees.1, hfees.2⟩
  · dsimp only
    split
    · exact Or.inl rfl
    · exact Or.inr rfl
  · have hproceeds : 0 < r.broker.closeProceeds lot price := by
      have hfill : 0 < r.broker.fillPrice .sell price := by
        show 0 < price * (1 - r.broker.slippage)
        rw [hfees.2]
        exact mul_pos hprice (by decide +kernel)
      have hkept : (0 : ℚ) < 1 - TAKER_FEE := by decide +kernel
      show 0 < lot.quantity * r.broker.fillPrice .sell price -
        lot.quantity * r.broker.fillPrice .sell price * r.broker.takerFee
      rw [hfees.1]
      calc (0 : ℚ) < lot.quantity * r.broker.fillPrice .sell price * (1 - TAKER_FEE) := by
            positivity
        _ = _ := by ring
    exact add_pos_of_nonneg_of_pos hcash hproceeds
  · show r.broker.lots.erase lot = []
    rw [hlots]
    simp

/-- A flat book buys at the open. -/
theorem buy_holds {r : LiveRun} {d : ℕ} {condition : String} (hcash : 0 < r.broker.cash)
    (hlots : r.broker.lots = []) (hfees : r.broker.takerFee = TAKER_FEE ∧
      r.broker.slippage = SLIPPAGE) (hopen : 0 < (day bars d).open_) :
    ∃ r' act, r.buy (day bars d).open_ stopFrac condition = .ok r' ∧
      r'.actions = r.actions ++ [act] ∧ act.action = .enter ∧
      r'.machine = r.machine ∧ r'.raw = r.raw ∧ Holds bars stopFrac r'.broker (.long d) ∧
      r'.broker.takerFee = TAKER_FEE ∧ r'.broker.slippage = SLIPPAGE :=
  buy_books ⟨hcash, hlots⟩ hfees hopen

/-- A position is sold at the open. -/
theorem sell_holds {r : LiveRun} {d e : ℕ} {reason : Reason} {p : Position}
    (hheld : Holds bars stopFrac r.broker (.long e)) (hfees : r.broker.takerFee = TAKER_FEE ∧
      r.broker.slippage = SLIPPAGE) (hopen : 0 < (day bars d).open_) (hp : p.isLong = false) :
    ∃ r' act, r.sell (day bars d).open_ reason = .ok r' ∧
      r'.actions = r.actions ++ [act] ∧ (act.action = .closeStop ∨ act.action = .closeSignal) ∧
      r'.machine = r.machine ∧ r'.raw = r.raw ∧ Holds bars stopFrac r'.broker p ∧
      r'.broker.takerFee = TAKER_FEE ∧ r'.broker.slippage = SLIPPAGE := by
  have hsold : ∃ r' act, r.sell (day bars d).open_ reason = .ok r' ∧
      r'.actions = r.actions ++ [act] ∧ (act.action = .closeStop ∨ act.action = .closeSignal) ∧
      r'.machine = r.machine ∧ r'.raw = r.raw ∧ Books r'.broker none ∧
      r'.broker.takerFee = TAKER_FEE ∧ r'.broker.slippage = SLIPPAGE :=
    sell_books hheld hfees hopen
  obtain ⟨r', act, hok, hacts, hkind, hm, hraw, hbooks, hf⟩ := hsold
  refine ⟨r', act, hok, hacts, hkind, hm, hraw, ?_, hf⟩
  cases p with
  | flat => exact hbooks
  | locked => exact hbooks
  | long e => cases hp

/-- A book with no lots holds any position that is not long. -/
theorem Holds.idle {b : PaperBroker} {p p' : Position} (h : Holds bars stopFrac b p)
    (hp : p.isLong = false) (hp' : p'.isLong = false) : Holds bars stopFrac b p' := by
  have hidle : 0 < b.cash ∧ b.lots = [] := by
    cases p with
    | flat => exact h
    | locked => exact h
    | long e => cases hp
  cases p' with
  | flat => exact hidle
  | locked => exact hidle
  | long e => cases hp'

/-- What was filled, read off the actions of a run. -/
def fillOf (actions : List LiveAction) : Option Action :=
  actions.findSome? fun a => match a.action with
    | .enter => some .enter
    | .closeStop => some .exit
    | .closeSignal => some .exit
    | _ => none

/-- The run in progress that holds position `p`, with the fill it made. -/
structure RunAt (bars : List Day) (stopFrac : ℚ) (r : LiveRun) (p : Position)
    (fill : Option Action) : Prop where
  machine : r.machine = p.machine
  notDeferred : r.raw.deferEntry = false
  holds : Holds bars stopFrac r.broker p
  fees : r.broker.takerFee = TAKER_FEE ∧ r.broker.slippage = SLIPPAGE
  fill_eq : fillOf r.actions = fill

theorem entered_machine {r : LiveRun} {act : LiveAction} (hacts : r.actions = [act])
    (henter : act.action = .enter) : r.entered.machine = r.machine := by
  unfold LiveRun.entered
  simp [hacts, henter]

/-- The net change of a replay is traded at the open. -/
theorem trade_runAt {strategy : LibraryStrategy} {condition : String} {r : LiveRun}
    {R : Rule} {warm : Bool} {p : Position} {d : ℕ} {exitReason : Option Reason}
    {signal : Option Bool}
    (h : RunAt bars strategy.stopFrac { r with machine := p.machine } p none)
    (hmachine : r.machine = (p.liveNext R warm d).machine) (hactions : r.actions = [])
    (hopen : 0 < (day bars d).open_) :
    ∃ r', r.trade strategy condition (day bars d).open_ p.isLong true exitReason signal = .ok r' ∧
      RunAt bars strategy.stopFrac r' (p.liveNext R warm d) (p.opened (p.liveNext R warm d)).fill ∧
      r'.raw.lastDay = r.raw.lastDay := by
  have hdefer : r.raw.deferEntry = false := h.notDeferred
  have hholds : Holds bars strategy.stopFrac r.broker p := h.holds
  have hlong : r.machine.long = (p.liveNext R warm d).isLong := by
    rw [hmachine]
    rfl
  unfold LiveRun.trade
  rw [hlong, hdefer]
  cases hp' : (p.liveNext R warm d).isLong with
  | true =>
    rcases liveNext_long hp' with ⟨hp, hnext⟩ | ⟨hp, hnext⟩
    · -- an entry
      have hidle : Holds bars strategy.stopFrac r.broker .flat := hholds.idle hp rfl
      have hbuy : ∃ r' act, r.buy (day bars d).open_ strategy.stopFrac condition = .ok r' ∧
          r'.actions = r.actions ++ [act] ∧ act.action = .enter ∧ r'.machine = r.machine ∧
          r'.raw = r.raw ∧ Holds bars strategy.stopFrac r'.broker (.long d) ∧
          r'.broker.takerFee = TAKER_FEE ∧ r'.broker.slippage = SLIPPAGE :=
        buy_holds hidle.1 hidle.2 h.fees hopen
      obtain ⟨r', act, hok, hacts, henter, hm, hraw, hheld, hfees⟩ := hbuy
      rw [hactions, List.nil_append] at hacts
      simp only [hp, Bool.not_false, Bool.and_self, Bool.not_true, if_true, Bool.false_eq_true,
        if_false, hok, bind, Except.bind]
      refine ⟨_, rfl, ⟨?_, rfl, ?_, hfees, ?_⟩, ?_⟩
      · exact (entered_machine hacts henter).trans (hm.trans hmachine)
      · rw [hnext]
        exact hheld
      · show fillOf r'.actions = _
        rw [hacts]
        simp [fillOf, henter, Position.opened, hp, hp']
      · show r'.raw.lastDay = _
        rw [hraw]
    · -- nothing moved
      simp only [hp, Bool.not_true, Bool.and_false, Bool.false_eq_true, if_false, Bool.false_and]
      refine ⟨r, rfl, ⟨hmachine, hdefer, by rw [hnext]; exact hholds, h.fees, ?_⟩, rfl⟩
      rw [hactions]
      simp [fillOf, Position.opened, hp, hp']
  | false =>
    cases hp : p.isLong with
    | true =>
      -- a sale
      have hheld : ∃ e, p = .long e := by
        cases p with
        | flat => cases hp
        | locked => cases hp
        | long e => exact ⟨e, rfl⟩
      obtain ⟨e, rfl⟩ := hheld
      have hlots : r.broker.lots.isEmpty = false := by
        obtain ⟨-, lot, hlots, -⟩ := hholds
        rw [hlots]
        rfl
      have hsell : ∃ r' act, r.sell (day bars d).open_ (exitReason.getD .signal) = .ok r' ∧
          r'.actions = r.actions ++ [act] ∧
          (act.action = .closeStop ∨ act.action = .closeSignal) ∧ r'.machine = r.machine ∧
          r'.raw = r.raw ∧ Holds bars strategy.stopFrac r'.broker
            ((Position.long e).liveNext R warm d) ∧
          r'.broker.takerFee = TAKER_FEE ∧ r'.broker.slippage = SLIPPAGE :=
        sell_holds hholds h.fees hopen hp'
      obtain ⟨r', act, hok, hacts, hkind, hm, hraw, hheld, hfees⟩ := hsell
      rw [hactions, List.nil_append] at hacts
      simp only [hlots, Bool.not_false, Bool.and_self, Bool.not_true, if_true, Bool.false_eq_true,
        if_false, hok]
      refine ⟨_, rfl, ⟨hm.trans hmachine, ?_, hheld, hfees, ?_⟩, ?_⟩
      · rw [hraw]
        exact hdefer
      · rw [hacts]
        rcases hkind with hkind | hkind <;> simp [fillOf, hkind, Position.opened, hp, hp']
      · rw [hraw]
    | false =>
      simp only [Bool.not_false, Bool.and_true, Bool.false_eq_true, if_false, Bool.false_and]
      refine ⟨r, rfl, ⟨hmachine, hdefer, hholds.idle hp hp', h.fees, ?_⟩, rfl⟩
      rw [hactions]
      simp [fillOf, Position.opened, hp, hp']

/-! ## The day a run decides on -/

theorem day_take {d i : ℕ} (h : i < d) : day (bars.take d) i = day bars i :=
  day_of_take (d := d) (by rw [List.take_take, min_self]) h

theorem tsAt_take {d i : ℕ} (h : i < d) : tsAt (bars.take d) i = tsAt bars i :=
  congrArg Day.ts (day_take h)

/-- A run at the open of day `d` decides on the day before. -/
theorem pendingDays_eq {account : LibraryAccount} {p : Position} {d : ℕ} {nowMs : Option ℤ}
    (h : LiveAt bars stopFrac account p d) (hasc : bars.Pairwise fun a b => a.ts < b.ts)
    (hlen : d ≤ bars.length) (hnow : atDailyOpen nowMs = true) (signal ready : List Bool) :
    pendingDays (bars.take d) signal ready account.library nowMs = ([d - 1], account.library) := by
  have htake : (bars.take d).length = d := by
    rw [List.length_take]
    omega
  unfold pendingDays
  cases hlast : account.library.lastDay with
  | none => simp only [hnow, if_true, htake]
  | some t =>
    obtain ⟨htwo, rfl⟩ := h.lastDay t hlast
    have hrange : List.range d = List.range (d - 1) ++ [d - 1] := by
      rw [← List.range_succ]
      congr 1
      omega
    have hnone : (List.range (d - 1)).filter
        (fun i => decide (tsAt bars (d - 2) < tsAt (bars.take d) i)) = [] := by
      rw [List.filter_eq_nil_iff]
      intro i hi
      have hi := List.mem_range.mp hi
      rw [tsAt_take (by omega), decide_eq_true_eq, not_lt]
      rcases Nat.lt_or_ge i (d - 2) with hlt | hge
      · exact (tsAt_lt hasc hlt (by omega)).le
      · obtain rfl : i = d - 2 := by omega
        exact le_rfl
    have hlt : tsAt bars (d - 2) < tsAt (bars.take d) (d - 1) := by
      rw [tsAt_take (by omega)]
      exact tsAt_lt hasc (by omega) (by omega)
    simp only [htake]
    rw [hrange, List.filter_append, hnone, List.nil_append, List.filter_singleton,
      decide_eq_true hlt, cond_true]

/-- What an observer reads off a run and the account it saved. -/
def observed (account : LibraryAccount) (result : LiveResult) : OpenState where
  long := result.long.getD false
  lockout := (account.library.machine.getD {}).lockout
  fill := fillOf result.actions

theorem equity_symbolPrice (price : ℚ) (b : PaperBroker) :
    ∃ equity, b.equity (symbolPrice price) = .ok equity := by
  have hmark : ∀ lot, ∃ v, PaperBroker.markValue (symbolPrice price) lot = .ok v := by
    intro lot
    unfold PaperBroker.markValue symbolPrice
    by_cases h : lot.ticker = SYMBOL
    · simp [h]
    · simp [h]
  have hvalue : ∀ lots, ∃ v, PaperBroker.positionValue (symbolPrice price) lots = .ok v := by
    intro lots
    induction lots with
    | nil => exact ⟨0, rfl⟩
    | cons lot lots ih =>
      obtain ⟨v, hv⟩ := hmark lot
      obtain ⟨rest, hrest⟩ := ih
      exact ⟨v + rest, by rw [PaperBroker.positionValue, hv, hrest]⟩
  obtain ⟨v, hv⟩ := hvalue b.lots
  exact ⟨b.cash + v, by rw [PaperBroker.equity, hv]⟩

/-- A saved broker that holds a position is restored to one that does. -/
theorem Holds.restored {b : PaperBroker} {p : Position} (h : Holds bars stopFrac b p)
    {account : LibraryAccount} (hsaved : account.broker = some b.toState) (nextLot : ℕ) :
    Holds bars stopFrac (openAccount account nextLot).1 p ∧
      (openAccount account nextLot).1.takerFee = TAKER_FEE ∧
      (openAccount account nextLot).1.slippage = SLIPPAGE := by
  unfold openAccount
  rw [hsaved]
  dsimp only
  have hlots : restoreLots nextLot b.toState.openLots = b.lots := by
    rw [PaperBroker.openLots_toState, restoreLots_toState]
  refine ⟨?_, rfl, rfl⟩
  unfold PaperBroker.restoreState
  rw [hlots]
  cases p with
  | flat => exact h
  | locked => exact h
  | long e => exact h

/-- The end of a run saves the account of the position it holds. -/
theorem finish_liveAt {r : LiveRun} {p : Position} {d : ℕ} {fill : Option Action}
    (account : LibraryAccount) (today : List Day) (price : ℚ) (signal : Option Bool)
    (h : RunAt bars stopFrac r p fill)
    (hlast : ∀ t, r.raw.lastDay = some t → 2 ≤ d ∧ t = tsAt bars (d - 2)) :
    ∃ account' result, r.finish account today price signal = .ok (account', result) ∧
      LiveAt bars stopFrac account' p d ∧
      observed account' result = { long := p.isLong, lockout := decide (p = .locked), fill := fill } := by
  obtain ⟨equity, hequity⟩ := equity_symbolPrice price r.broker
  unfold LiveRun.finish
  rw [hequity]
  refine ⟨_, _, rfl, ⟨h.machine, hlast, h.notDeferred, ?_, ?_⟩, ?_⟩
  · exact fun nextLot => (h.holds.restored rfl nextLot).1
  · exact fun nextLot => (h.holds.restored rfl nextLot).2
  · show OpenState.mk r.machine.long r.machine.lockout (fillOf r.actions) = _
    rw [h.machine, h.fill_eq]
    rfl

end

/-! ## The run -/

/-- A run at a positive price is its decision and its end. -/
theorem run_of_decide {strategy : LibraryStrategy} {account : LibraryAccount} {today : List Day}
    {price : ℚ} {nowMs : Option ℤ} {nextLot : ℕ} {r : LiveRun} {signal : Option Bool}
    (hprice : 0 < price)
    (h : LiveRun.decide { db := account.db, broker := (openAccount account nextLot).1
                          raw := account.library, machine := (openAccount account nextLot).2 }
      strategy (SYMBOL ++ "|" ++ TIMEFRAME ++ "|" ++ strategy.key) today price nowMs =
        .ok (r, signal)) :
    runLibraryAccount strategy account today (some price) nowMs nextLot =
      r.finish account today price signal := by
  unfold runLibraryAccount
  dsimp only
  rw [if_neg (not_le.mpr hprice), h]

theorem onBefore_take (signal : List Bool) {d : ℕ} (hd : 0 < d) :
    flagAt (signal.take d) (d - 1) = onBefore signal d := by
  obtain ⟨k, rfl⟩ : ∃ k, d = k + 1 := ⟨d - 1, by omega⟩
  show (signal.take (k + 1))[k]?.getD false = signal[k]?.getD false
  rw [List.getElem?_take_of_lt (Nat.lt_succ_self k)]

theorem DailyTape.day_pos (tape : DailyTape) {d : ℕ} (h : d < tape.bars.length) :
    0 < (day tape.bars d).open_ ∧ 0 < (day tape.bars d).low := by
  unfold day
  rw [List.getElem?_eq_getElem h]
  exact tape.priced _ (List.getElem_mem h)

/-- A run with one pending day replays that day and trades the change. -/
theorem decide_of_pending {strategy : LibraryStrategy} {condition : String} {r r' : LiveRun}
    {today : List Day} {price : ℚ} {nowMs : Option ℤ} {i : ℕ} {replay : Replay} (hne : today ≠ [])
    (hpending : pendingDays today (strategy.signal today) (strategy.positionReady today) r.raw
      nowMs = ([i], r.raw))
    (hreplay : replayDay today (strategy.signal today) (strategy.positionReady today)
      r.machine.long (if r.machine.long then stopLevel r.broker else none) i
      { machine := r.machine } i = replay)
    (htrade : LiveRun.trade
      { r with
        raw := markProcessed today (strategy.signal today) (strategy.positionReady today) [i] r.raw
        machine := replay.machine }
      strategy condition price r.machine.long (atDailyOpen nowMs) replay.exitReason
      (signalNow today (strategy.signal today) (strategy.positionReady today)
        (markProcessed today (strategy.signal today) (strategy.positionReady today) [i] r.raw)) =
        .ok r') :
    ∃ signal, r.decide strategy condition today price nowMs = .ok (r', signal) := by
  unfold LiveRun.decide
  rw [if_neg hne]
  simp only [hpending, List.foldl_cons, List.foldl_nil, List.getLast?_singleton, Option.getD_some,
    hreplay, htrade]
  exact ⟨_, rfl⟩

/-- The decision of a run at the open of day `d`, on the days before it. -/
theorem decide_runAt {strategy : LibraryStrategy} (tape : DailyTape)
    (hsignal : NoLookAhead strategy tape.bars) {account : LibraryAccount} {p : Position} {d : ℕ}
    {nowMs : Option ℤ} (h : LiveAt tape.bars strategy.stopFrac account p d) (hd : 0 < d)
    (hlen : d < tape.bars.length) (hnow : atDailyOpen nowMs = true) (nextLot : ℕ)
    (condition : String) :
    ∃ r signal,
      LiveRun.decide { db := account.db, broker := (openAccount account nextLot).1
                       raw := account.library, machine := p.machine }
        strategy condition (tape.bars.take d) (day tape.bars d).open_ nowMs = .ok (r, signal) ∧
      RunAt tape.bars strategy.stopFrac r
        (p.liveNext (strategyRule strategy tape.bars) (warmAt strategy tape.bars d) d)
        (p.opened (p.liveNext (strategyRule strategy tape.bars) (warmAt strategy tape.bars d) d)).fill ∧
      r.raw.lastDay = some (tsAt tape.bars (d - 1)) := by
  have hne : tape.bars.take d ≠ [] := by
    intro hnil
    have := congrArg List.length hnil
    rw [List.length_take, List.length_nil] at this
    omega
  have hwarm : warmAt strategy tape.bars d =
      flagAt (strategy.positionReady (tape.bars.take d)) (d - 1) := by
    unfold warmAt
    rw [decide_eq_false (by omega), Bool.false_or]
  have hholds := h.broker nextLot
  have hpending : pendingDays (tape.bars.take d) (strategy.signal (tape.bars.take d))
      (strategy.positionReady (tape.bars.take d)) account.library nowMs =
        ([d - 1], account.library) := pendingDays_eq h tape.ascending hlen.le hnow _ _
  obtain ⟨replay, hreplay⟩ : ∃ replay, replayDay (tape.bars.take d)
      (strategy.signal (tape.bars.take d)) (strategy.positionReady (tape.bars.take d)) p.isLong
      (if p.isLong then stopLevel (openAccount account nextLot).1 else none) (d - 1)
      { machine := p.machine } (d - 1) = replay := ⟨_, rfl⟩
  have hmachine : replay.machine =
      (p.liveNext (strategyRule strategy tape.bars) (warmAt strategy tape.bars d) d).machine := by
    rw [← hreplay, hwarm]
    refine replayDay_machine (strategyRule strategy tape.bars) ?_ ?_
    · rw [hsignal d hlen.le]
      exact onBefore_take (strategy.signal tape.bars) hd
    · rintro e rfl
      rw [day_take (by omega)]
      exact stopLevel_reaches hholds (tape.day_pos (by omega)).2
  -- the run in progress that the net change is traded from
  obtain ⟨r, hr⟩ : ∃ r : LiveRun, r =
      { db := account.db, broker := (openAccount account nextLot).1
        raw := markProcessed (tape.bars.take d) (strategy.signal (tape.bars.take d))
          (strategy.positionReady (tape.bars.take d)) [d - 1] account.library
        machine := replay.machine } := ⟨_, rfl⟩
  have hstart : RunAt tape.bars strategy.stopFrac { r with machine := p.machine } p none := by
    rw [hr]
    exact ⟨rfl, h.notDeferred, hholds, h.fees nextLot, rfl⟩
  have hnet : ∃ r', r.trade strategy condition (day tape.bars d).open_ p.isLong true
        replay.exitReason (signalNow (tape.bars.take d) (strategy.signal (tape.bars.take d))
          (strategy.positionReady (tape.bars.take d)) r.raw) = .ok r' ∧
      RunAt tape.bars strategy.stopFrac r'
        (p.liveNext (strategyRule strategy tape.bars) (warmAt strategy tape.bars d) d) _ ∧
      r'.raw.lastDay = r.raw.lastDay :=
    trade_runAt hstart (by rw [hr]; exact hmachine) (by rw [hr]) (tape.day_pos hlen).1
  obtain ⟨r', htrade, hrun, hlast⟩ := hnet
  rw [← hnow, hr] at htrade
  obtain ⟨signal, hdecide⟩ := decide_of_pending
    (r := { db := account.db, broker := (openAccount account nextLot).1
            raw := account.library, machine := p.machine }) hne hpending hreplay htrade
  refine ⟨r', signal, hdecide, hrun, ?_⟩
  rw [hlast, hr]
  show some (tsAt (tape.bars.take d) (d - 1)) = _
  rw [tsAt_take (by omega)]

/-- A run at the open of a day takes the account of a position to the account of
the next one. -/
theorem run_liveAt {strategy : LibraryStrategy} (tape : DailyTape)
    (hsignal : NoLookAhead strategy tape.bars) {account : LibraryAccount} {p : Position} {d : ℕ}
    {nowMs : Option ℤ} (h : LiveAt tape.bars strategy.stopFrac account p d)
    (hzero : d = 0 → p = .flat) (hlen : d < tape.bars.length) (hnow : atDailyOpen nowMs = true)
    (nextLot : ℕ) :
    ∃ account' result,
      runLibraryAccount strategy account (tape.bars.take d) (some (day tape.bars d).open_) nowMs
        nextLot = .ok (account', result) ∧
      LiveAt tape.bars strategy.stopFrac account'
        (p.liveNext (strategyRule strategy tape.bars) (warmAt strategy tape.bars d) d) (d + 1) ∧
      observed account' result =
        p.opened (p.liveNext (strategyRule strategy tape.bars) (warmAt strategy tape.bars d) d) := by
  have hmachine := openAccount_machine h nextLot
  rcases Nat.eq_zero_or_pos d with rfl | hd
  · -- no day has closed: nothing is decided
    obtain rfl := hzero rfl
    have hrun : RunAt tape.bars strategy.stopFrac
        { db := account.db, broker := (openAccount account nextLot).1, raw := account.library
          machine := (openAccount account nextLot).2 } .flat none :=
      ⟨hmachine, h.notDeferred, h.broker nextLot, h.fees nextLot, rfl⟩
    have hlast : ∀ t, account.library.lastDay = some t → 2 ≤ 0 + 1 ∧ t = tsAt tape.bars (0 + 1 - 2) := by
      intro t ht
      have := (h.lastDay t ht).1
      omega
    obtain ⟨account', result, hfinish, hat, hseen⟩ :=
      finish_liveAt account (tape.bars.take 0) (day tape.bars 0).open_ none hrun hlast
    exact ⟨account', result, (run_of_decide (tape.day_pos hlen).1 rfl).trans hfinish, hat, hseen⟩
  · obtain ⟨r, signal, hdecide, hrun, hlast⟩ := decide_runAt tape hsignal h hd hlen hnow nextLot
      (SYMBOL ++ "|" ++ TIMEFRAME ++ "|" ++ strategy.key)
    rw [← hmachine] at hdecide
    obtain ⟨account', result, hfinish, hat, hseen⟩ :=
      finish_liveAt (d := d + 1) account (tape.bars.take d) (day tape.bars d).open_ signal hrun (by
          intro t ht
          obtain rfl := Option.some.inj (hlast.symm.trans ht)
          exact ⟨by omega, rfl⟩)
    exact ⟨account', result, (run_of_decide (tape.day_pos hlen).1 hdecide).trans hfinish, hat,
      hseen⟩

end PaperTrading.Library
