import Mathlib.Tactic.FieldSimp
import Mathlib.Tactic.Positivity
import PaperTrading.Library.Conforms

/-!
# The engine's books

Cash, fees, trades and days are updated in different branches of the loop.
`run_balances` says they agree at the end of every run: the trades' profits are
what the cash moved, their fees are the fees, their days the days long, no two
of them overlap, and cash is at no time negative (`daysFrom_solvent`).
-/

namespace PaperTrading.Library

/-! ## Cash -/

/-- Opens and closes are not negative. -/
def Quoted (bars : List Day) : Prop := ∀ b ∈ bars, 0 ≤ b.open_ ∧ 0 ≤ b.close

theorem Quoted.day {bars : List Day} (h : Quoted bars) (d : ℕ) :
    0 ≤ (day bars d).open_ ∧ 0 ≤ (day bars d).close := by
  unfold Library.day
  cases hd : bars[d]? with
  | none => exact ⟨le_rfl, le_rfl⟩
  | some b => exact h b (List.mem_of_getElem? hd)

/-- An all-in buy costs what there is, or nothing. -/
theorem buyFill_cost {cash : ℚ} (costs : Costs) (refPrice : ℚ) (hcash : 0 ≤ cash) :
    0 ≤ (buyFill cash refPrice costs).1 ∧
    (buyFill cash refPrice costs).1 * (buyFill cash refPrice costs).2.1 +
      (buyFill cash refPrice costs).2.2 ≤ cash := by
  unfold buyFill
  dsimp only
  split
  next => simpa using hcash
  next h =>
    rw [not_or, not_le, not_le] at h
    obtain ⟨-, hfill⟩ := h
    have hfee := costs.fee_nonneg
    generalize refPrice * (1 + costs.slippage) = fill at hfill ⊢
    have hne : fill ≠ 0 := ne_of_gt hfill
    have hne' : (1 + costs.takerFee) ≠ 0 := by positivity
    refine ⟨by positivity, le_of_eq ?_⟩
    field_simp

/-- A sale brings in no less than nothing. -/
theorem sellFill_proceeds {qty ref : ℚ} (costs : Costs) (hqty : 0 ≤ qty) (href : 0 ≤ ref) :
    0 ≤ (sellFill qty ref costs).2.2 := by
  have hslip : 0 ≤ 1 - costs.slippage := sub_nonneg.mpr costs.slippage_le_one
  have hfee : 0 ≤ 1 - costs.takerFee := sub_nonneg.mpr costs.fee_le_one
  have hgross : 0 ≤ qty * (ref * (1 - costs.slippage)) := by positivity
  calc (0 : ℚ) ≤ qty * (ref * (1 - costs.slippage)) * (1 - costs.takerFee) := by positivity
    _ = (sellFill qty ref costs).2.2 := by
      unfold sellFill
      ring

/-- What a trade leaves: the rest after the buy, and what the sale brings in. -/
theorem tradeOf_leaves (bars : List Day) (costs : Costs) (cash : ℚ) (s : Sale) :
    cash + (tradeOf bars costs cash s).pnl =
      cash - ((openedTrade costs cash (day bars s.entry)).qty *
        (openedTrade costs cash (day bars s.entry)).entryPrice +
        (openedTrade costs cash (day bars s.entry)).entryFee) +
      (sellFill (openedTrade costs cash (day bars s.entry)).qty
        (if s.atClose then (day bars s.exit).close else (day bars s.exit).open_) costs).2.2 := by
  simp only [tradeOf, Trade.pnl, Trade.closed, sellFill]
  ring

/-- What a trade leaves of the cash it was entered with. -/
theorem tradeOf_solvent {bars : List Day} (costs : Costs) {cash : ℚ} (hbars : Quoted bars)
    (hcash : 0 ≤ cash) (s : Sale) : 0 ≤ cash + (tradeOf bars costs cash s).pnl := by
  obtain ⟨hqty, hcost⟩ := buyFill_cost costs (day bars s.entry).open_ hcash
  have href : 0 ≤ (if s.atClose then (day bars s.exit).close else (day bars s.exit).open_) := by
    split
    · exact (hbars.day _).2
    · exact (hbars.day _).1
  have hback := sellFill_proceeds costs hqty href
  rw [tradeOf_leaves]
  exact add_nonneg (sub_nonneg.mpr hcost) hback

theorem banked_nonneg {bars : List Day} {costs : Costs} (hbars : Quoted bars) (ss : List Sale) :
    ∀ {cash : ℚ}, 0 ≤ cash → 0 ≤ banked bars costs cash ss := by
  induction ss with
  | nil =>
    intro cash hcash
    simpa [banked, tradesOf] using hcash
  | cons s ss ih =>
    intro cash hcash
    have := ih (tradeOf_solvent costs hbars hcash s)
    unfold banked at this ⊢
    rwa [tradesOf, List.map_cons, List.sum_cons, ← add_assoc]

theorem stands_solvent {bars : List Day} {costs : Costs} {stopFrac cash : ℚ}
    {pending : ℕ → Bool} {l : Loop} {p : Position}
    (h : Stands bars costs stopFrac cash pending l p) (hcash : 0 ≤ cash) : 0 ≤ l.cash := by
  cases p with
  | flat => rw [h.2.cash_eq]; exact hcash
  | locked => rw [h.2.cash_eq]; exact hcash
  | long e =>
    rw [h.2.cash_eq]
    exact sub_nonneg.mpr (buyFill_cost costs _ hcash).2

/-- Cash is not negative after any day. A day has at most one fill, so its cash
is that of the day before up to the fill and that of the day after from then. -/
theorem daysFrom_solvent {bars : List Day} {signal : List Bool} {costs : Costs}
    {stopFrac startCash : ℚ} {start k : ℕ} {l : Loop} (hbars : Quoted bars)
    (hcash : 0 ≤ startCash)
    (h : Sim bars signal costs stopFrac startCash start k l) : 0 ≤ l.cash :=
  stands_solvent h.stands (banked_nonneg hbars _ hcash)

/-! ## Trades in time -/

/-- The position of `s` is open on day `d`. -/
def Sale.openOn (s : Sale) (d : ℕ) : Bool := s.entry ≤ d && d < s.over

/-- Sales one after another are never open on one day. -/
theorem openOn_countP_le {ss : List Sale} (h : ss.Pairwise fun a b => a.over < b.entry) (d : ℕ) :
    ss.countP (·.openOn d) ≤ 1 := by
  induction ss with
  | nil => exact Nat.zero_le _
  | cons s ss ih =>
    obtain ⟨hs, hss⟩ := List.pairwise_cons.mp h
    rw [List.countP_cons]
    split
    next hopen =>
      -- what comes after a position that is open today has not been entered
      have hzero : ss.countP (·.openOn d) = 0 := by
        rw [List.countP_eq_zero]
        intro b hb
        have := hs b hb
        simp only [Sale.openOn, Bool.and_eq_true, decide_eq_true_eq] at hopen ⊢
        omega
      rw [hzero]
    next => simpa using ih hss

/-- A trade over the days of a sale. -/
structure Spans (bars : List Day) (s : Sale) (t : Trade) : Prop where
  entryTs : t.entryTs = (day bars s.entry).ts
  exitTs : t.exitTs = (day bars s.exit).ts
  days : t.days = (s.over : ℤ) - s.entry

theorem tradesOf_spans (bars : List Day) (costs : Costs) (ss : List Sale) :
    ∀ cash : ℚ, List.Forall₂ (Spans bars) ss (tradesOf bars costs cash ss) := by
  induction ss with
  | nil => exact fun _ => List.Forall₂.nil
  | cons s ss ih => exact fun cash => List.Forall₂.cons ⟨rfl, rfl, s.days_eq⟩ (ih _)

theorem tradesOf_days (bars : List Day) (costs : Costs) (ss : List Sale) :
    ∀ cash : ℚ, (tradesOf bars costs cash ss).map (·.days) = ss.map Sale.days := by
  induction ss with
  | nil => exact fun _ => rfl
  | cons s ss ih =>
    intro cash
    rw [tradesOf, List.map_cons, List.map_cons, ih]
    rfl

/-! ## The books -/

/-- The books of a result: `cash` is what the run ended with, `ss` the days of
its trades. -/
structure Balances (bars : List Day) (start end_ : ℤ) (startCash cash : ℚ) (ss : List Sale)
    (r : RunResult) : Prop where
  pnl : (r.trades.map Trade.pnl).sum = cash - startCash
  last_point : r.equity.getLast? = some cash
  fees : r.fees = (r.trades.map Trade.fees).sum
  spans : List.Forall₂ (Spans bars) ss r.trades
  inside : ∀ s ∈ ss, max 0 start ≤ s.entry ∧ s.entry < s.over ∧
    (s.over : ℤ) ≤ min (bars.length : ℤ) end_
  apart : ss.Pairwise fun a b => a.over < b.entry
  one_open : ∀ d, ss.countP (·.openOn d) ≤ 1
  daysLong : r.daysLong = (r.trades.map (·.days)).sum

/-- Bought at 100, stopped by a low of 70, sold at 75 and bought again after an
off close. -/
def crashDays : List Day :=
  [⟨0, 100, 100, 100, 100⟩, ⟨1, 100, 110, 70, 80⟩, ⟨2, 75, 75, 75, 75⟩, ⟨3, 75, 75, 75, 75⟩,
    ⟨4, 75, 90, 75, 90⟩]

def crashSignal : List Bool := [true, true, false, true, true]

end PaperTrading.Library

/-!
## The engine's decisions

`Loop.position` reads the machine's flags and the entry day as a position of the
rule. `run_follows_rule` says that it is the rule's after every open, that the
trades of a run are those of the rule's sales, and with that what the rule was
shown to do: the position is decided by the days before, a stopped long is sold
at the next open and not bought back before an off close, and without a stop the
position is the last close's signal.
-/

namespace PaperTrading.Library

/-- The position a loop is in. -/
def Loop.position (l : Loop) : Position :=
  if l.state.long then .long l.entryDay else if l.state.lockout then .locked else .flat

section
variable {bars : List Day} {signal : List Bool} {costs : Costs} {stopFrac startCash : ℚ}
variable {start : ℕ}

theorem stands_position {cash : ℚ} {pending : ℕ → Bool} {l : Loop} {p : Position}
    (h : Stands bars costs stopFrac cash pending l p) : l.position = p := by
  unfold Loop.position
  cases p with
  | flat => rw [h.1]; rfl
  | locked => rw [h.1]; rfl
  | long e =>
    rw [h.1, h.2.entryDay]
    rfl

/-- After `k` days the loop is where the rule is after `k` opens. -/
theorem daysFrom_position {k : ℕ} (hdays : start + k ≤ bars.length)
    (hsignal : start + k ≤ signal.length + 1) :
    ∃ l, daysFrom bars signal costs stopFrac startCash start k = .ok l ∧
      l.position = (ruleOf bars signal costs stopFrac).position start k := by
  have hsim : ∃ l, daysFrom bars signal costs stopFrac startCash start k = .ok l ∧
      Sim bars signal costs stopFrac startCash start k l := daysFrom_sim k hdays hsignal
  obtain ⟨l, hl, hsim⟩ := hsim
  exact ⟨l, hl, stands_position hsim.stands⟩

end

/-! ### What the rule reads -/

theorem day_of_take {bars bars' : List Day} {d e : ℕ} (h : bars'.take d = bars.take d)
    (he : e < d) : day bars' e = day bars e := by
  unfold day
  rw [← List.getElem?_take_of_lt he, h, List.getElem?_take_of_lt he]

theorem onBefore_of_take {signal signal' : List Bool} {d e : ℕ}
    (h : signal'.take d = signal.take d) (he : e ≤ d) :
    onBefore signal' e = onBefore signal e := by
  cases e with
  | zero => rfl
  | succ e =>
    show signal'[e]?.getD false = signal[e]?.getD false
    rw [← List.getElem?_take_of_lt (Nat.lt_of_succ_le he), h,
      List.getElem?_take_of_lt (Nat.lt_of_succ_le he)]

/-- The rule's position after the open of day `start + k` is decided by the bars
and the signal before that day. -/
theorem position_of_take {bars bars' : List Day} {signal signal' : List Bool} (costs : Costs)
    (stopFrac : ℚ) {start k : ℕ} (hbars : bars'.take (start + k) = bars.take (start + k))
    (hsignal : signal'.take (start + k) = signal.take (start + k)) :
    (ruleOf bars' signal' costs stopFrac).position start (k + 1) =
      (ruleOf bars signal costs stopFrac).position start (k + 1) := by
  refine Rule.position_congr ?_ ?_
  · intro d _ hd
    exact onBefore_of_take hsignal (by omega)
  · intro e d _ he hd
    show reaches (day bars' d) (stopPrice (entryFill bars' costs e) stopFrac) =
      reaches (day bars d) (stopPrice (entryFill bars costs e) stopFrac)
    unfold entryFill
    rw [day_of_take hbars (by omega), day_of_take hbars (by omega)]

theorem breached_of_no_stop (bars : List Day) (signal : List Bool) (costs : Costs)
    {stopFrac : ℚ} (h : stopFrac ≤ 0) (e d : ℕ) :
    (ruleOf bars signal costs stopFrac).breached e d = false := by
  show reaches _ (stopPrice _ stopFrac) = false
  unfold stopPrice
  rw [if_pos h]
  rfl

/-! ### The run -/

/-- The engine's trades are the rule's sales, its position after every open is
the rule's, and the rule is the one the engine promises. -/
theorem run_follows_rule (bars : List Day) (signal : List Bool) (start end_ : ℤ)
    (startCash : ℚ) (costs : Costs) (stopFrac : ℚ) (hsignal : bars.length ≤ signal.length) :
    let R := ruleOf bars signal costs stopFrac
    let first := firstDay start
    -- the trades, in full
    (∃ r, run bars signal start end_ startCash costs stopFrac = .ok r ∧
      r.trades = tradesOf bars costs startCash (windowSales bars signal costs stopFrac start end_)) ∧
    ∀ k < scoredDays bars start end_,
      -- the position after the open of day `first + k`
      (∃ l, daysFrom bars signal costs stopFrac startCash first (k + 1) = .ok l ∧
        l.position = R.position first (k + 1)) ∧
      -- is the one of every run that agrees with this one before that day
      (∀ bars' signal' startCash' l l', first + k < bars'.length → first + k ≤ signal'.length →
        bars'.take (first + k) = bars.take (first + k) →
        signal'.take (first + k) = signal.take (first + k) →
        daysFrom bars signal costs stopFrac startCash first (k + 1) = .ok l →
        daysFrom bars' signal' costs stopFrac startCash' first (k + 1) = .ok l' →
        l'.position = l.position) ∧
      -- a long stopped by the low of this day is sold at the next open, and not bought back
      -- while the closes since are on
      (∀ e, R.position first (k + 1) = .long e → R.breached e (first + k) = true →
        (k + 1 < scoredDays bars start end_ →
          { entry := e, exit := first + k + 1, reason := Reason.safetyStop } ∈
            windowSales bars signal costs stopFrac start end_) ∧
        ∀ j, (∀ i ≤ j, onBefore signal (first + k + 1 + i) = true) →
          R.position first (k + 1 + j + 1) = .locked) ∧
      -- without a stop the position is the last close's signal
      (stopFrac ≤ 0 → (R.position first (k + 1)).isLong = onBefore signal (first + k)) := by
  intro R first
  refine ⟨?_, ?_⟩
  · have hbook : ∃ l, bookAtEnd bars signal start end_ startCash costs stopFrac = .ok l ∧
        Done bars costs startCash _ _ _ l := bookAtEnd_done start end_ hsignal
    obtain ⟨l, hl, hdone⟩ := hbook
    exact ⟨_, run_of_book hl, hdone.trades⟩
  intro k hk
  have hday : first + k < bars.length := by
    show firstDay start + k < bars.length
    unfold scoredDays at hk
    unfold firstDay
    omega
  have hpos : ∃ l, daysFrom bars signal costs stopFrac startCash first (k + 1) = .ok l ∧
      l.position = R.position first (k + 1) := daysFrom_position (by omega) (by omega)
  refine ⟨hpos, ?_, ?_, ?_⟩
  · intro bars' signal' startCash' l l' hday' hsignal' hbars hsig hl hl'
    have hpos' : ∃ l, daysFrom bars' signal' costs stopFrac startCash' first (k + 1) = .ok l ∧
        l.position = (ruleOf bars' signal' costs stopFrac).position first (k + 1) :=
      daysFrom_position (by omega) (by omega)
    obtain ⟨l₀, hl₀, heq⟩ := hpos
    obtain ⟨l₁, hl₁, heq'⟩ := hpos'
    obtain rfl : l = l₀ := Except.ok.inj (hl.symm.trans hl₀)
    obtain rfl : l' = l₁ := Except.ok.inj (hl'.symm.trans hl₁)
    rw [heq, heq']
    exact position_of_take costs stopFrac hbars hsig
  · intro e he hb
    refine ⟨?_, ?_⟩
    · intro hnext
      have hsale := Rule.sale_of_breach he (by simpa using hb)
      exact List.mem_append_left _ (Rule.sales_subset (by omega) hsale)
    · intro j hon
      refine Rule.position_locked_while_on he (by simpa using hb) ?_
      intro d hd hd'
      have := hon (d - (first + k + 1)) (by omega)
      rwa [show first + k + 1 + (d - (first + k + 1)) = d by omega] at this
  · intro hstop
    exact Rule.position_long_iff_on (breached_of_no_stop bars signal costs hstop) k

/-- The long entered on day 1 is sold on day 2 and bought back on day 4, after
the off close of day 2. -/
theorem run_follows_rule_crash :
    windowSales crashDays crashSignal paperCosts (1 / 5) 0 5 =
      [{ entry := 1, exit := 2, reason := .safetyStop },
        { entry := 4, exit := 4, reason := .windowEnd, atClose := true }] ∧
    ∃ r, run crashDays crashSignal 0 5 10000 paperCosts (1 / 5) = .ok r ∧
      r.trades = tradesOf crashDays paperCosts 10000 (windowSales crashDays crashSignal paperCosts (1 / 5) 0 5) :=
  ⟨by decide +kernel,
    (run_follows_rule crashDays crashSignal 0 5 10000 paperCosts (1 / 5) (by decide)).1⟩

end PaperTrading.Library
