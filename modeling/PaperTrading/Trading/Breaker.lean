import PaperTrading.Lib.Runs
import PaperTrading.Trading.Cycle

/-!
# The drawdown breaker and the persisted peak

The breaker lives in `RiskManager.updateEquity`, which no program on the live
path calls: a cycle builds a fresh risk manager and only asks it for sizes.

`halt_rule_iff` measures what is missing. A shadow risk manager is fed the
account's marked equity once a cycle, as the backtest feeds its own after the
exits of a bar; the live run keeps the halt rule exactly when, in every cycle
that starts with the shadow halted, one of the other gates refuses
(`CanEnter`). `halted_run_iff` ties the shadow's flag to the marked equities.

`peak_kept_iff` is about the peak in the database: a decision cycle never
lowers it, and a heartbeat that saves lowers it exactly when it was above the
start cash, because it writes the peak of a risk manager that never saw it.
-/

namespace PaperTrading.Trading

open Broker Risk Calibration PaperTrading.Lib

/-! ## The gates -/

/-- Everything the gates ask of a candidate besides the halt flag. -/
structure GatesOpen (loop : TradingLoop) (px : PriceMap) (c : Candidate) (entry : ℚ) : Prop where
  long : c.signal.direction = .long
  price : px.get c.symbol = some entry
  few : (loop.broker.lotsFor c.symbol).length < MAX_LOTS_PER_SYMBOL
  profit : ∀ lot ∈ loop.broker.lotsFor c.symbol, 0 < (entry - lot.entryPrice) * lot.quantity
  size : loop.risk.SizeAllowed c.equity entry (atrStopPrice entry (atr c.klines ATR_PERIOD))
    (loop.broker.lots.map fun p => ⟨p.entryPrice, p.stopLoss, p.quantity⟩)
    (confidenceMultiplier c.probability) loop.broker.cash
    ((1 + loop.broker.slippage) * (1 + loop.broker.takerFee))

theorem entryGates_ok_iff (loop : TradingLoop) (px : PriceMap) (c : Candidate) :
    (∃ e, entryGates loop px c = .ok e) ↔
      loop.risk.halted = false ∧ ∃ entry, GatesOpen loop px c entry := by
  unfold entryGates
  dsimp only
  by_cases hh : loop.risk.halted = true
  · simp [hh]
  rw [if_neg hh]
  have hh' : loop.risk.halted = false := by simpa using hh
  by_cases hd : c.signal.direction = .long
  · rw [if_neg (not_not.mpr hd)]
    -- the gates in the order the code asks them
    cases hp : px.get c.symbol with
    | none =>
      simp only [reduceCtorEq, exists_false, false_iff, not_and, not_exists]
      rintro - entry ⟨-, hprice, -, -, -⟩
      rw [hp] at hprice
      cases hprice
    | some entry =>
      dsimp only
      by_cases hfew : (loop.broker.lotsFor c.symbol).length ≥ MAX_LOTS_PER_SYMBOL
      · rw [if_pos hfew]
        simp only [reduceCtorEq, exists_false, false_iff, not_and, not_exists]
        rintro - entry' ⟨-, -, hlt, -, -⟩
        omega
      rw [if_neg hfew]
      by_cases hprofit : ((loop.broker.lotsFor c.symbol).any fun lot =>
          (entry - lot.entryPrice) * lot.quantity ≤ 0) = true
      · rw [if_pos hprofit]
        simp only [reduceCtorEq, exists_false, false_iff, not_and, not_exists]
        rintro - entry' ⟨-, hprice, -, hpos, -⟩
        obtain rfl : entry = entry' := Option.some.inj (hp.symm.trans hprice)
        obtain ⟨lot, hlot, hle⟩ := List.any_eq_true.mp hprofit
        exact absurd (hpos lot hlot) (not_lt.mpr (by simpa using hle))
      rw [if_neg hprofit]
      have hpos : ∀ lot ∈ loop.broker.lotsFor c.symbol,
          0 < (entry - lot.entryPrice) * lot.quantity := by
        intro lot hlot
        rw [← not_le]
        intro hle
        exact hprofit (List.any_eq_true.mpr ⟨lot, hlot, by simpa using hle⟩)
      have hsize := RiskManager.sizePosition_approved_iff loop.risk c.equity entry
        (atrStopPrice entry (atr c.klines ATR_PERIOD))
        (loop.broker.lots.map fun p => ⟨p.entryPrice, p.stopLoss, p.quantity⟩)
        (confidenceMultiplier c.probability) loop.broker.cash
        ((1 + loop.broker.slippage) * (1 + loop.broker.takerFee))
      constructor
      · rintro ⟨e, he⟩
        split at he
        · next happ =>
          exact ⟨hh', entry, hd, hp, not_le.mp hfew, hpos, (hsize.mp happ).2⟩
        · cases he
      · rintro ⟨-, entry', ⟨-, hprice, -, -, hallowed⟩⟩
        obtain rfl : entry = entry' := Option.some.inj (hp.symm.trans hprice)
        rw [if_pos (hsize.mpr ⟨hh', hallowed⟩)]
        exact ⟨_, rfl⟩
  · rw [if_pos hd]
    simp only [reduceCtorEq, exists_false, false_iff, not_and, not_exists]
    rintro - entry ⟨hlong, -, -, -, -⟩
    exact hd hlong

theorem decision_ne_none_iff (strategy : Strategy) (market : CachedMarket)
    (loop : TradingLoop) (hlive : loop.risk.halted = false) :
    decision strategy market loop ≠ none ↔
      ∃ equity klines sig entry,
        loop.broker.equity (cyclePrices market) = .ok equity ∧
        fetchSignal strategy market TRADE_SYMBOL = .ok (klines, sig) ∧
        GatesOpen loop (cyclePrices market) (candidateOf loop klines sig equity) entry := by
  unfold decision
  cases fetchSignal strategy market TRADE_SYMBOL with
  | error e => simp
  | ok ks =>
    obtain ⟨klines, sig⟩ := ks
    cases loop.broker.equity (cyclePrices market) with
    | error e => simp
    | ok equity =>
      dsimp only
      have hgates := entryGates_ok_iff loop (cyclePrices market)
        (candidateOf loop klines sig equity)
      cases hg : entryGates loop (cyclePrices market) (candidateOf loop klines sig equity) with
      | error ar =>
        rw [hg] at hgates
        simp only [ne_eq, not_true_eq_false, false_iff, not_exists]
        rintro equity' klines' sig' entry ⟨he, hs, hopen⟩
        cases he
        cases hs
        obtain ⟨e, he⟩ := hgates.mpr ⟨hlive, entry, hopen⟩
        cases he
      | ok e =>
        obtain ⟨-, entry, hopen⟩ := hgates.mp ⟨e, hg⟩
        exact ⟨fun _ => ⟨equity, klines, sig, entry, rfl, rfl, hopen⟩, fun _ => by simp⟩

/-! ## Live cycles under a shadow breaker -/

/-- One decision cycle: the champion's strategy, the market of the cycle and
where the lot counter of the process stands. -/
structure LiveCycle where
  strategy : Strategy
  market : CachedMarket
  nextLot : ℕ

/-- The loop the exit pass of a cycle leaves. -/
def cyclePass (files : AccountFiles) (c : LiveCycle) : Ran PyError TradingLoop :=
  (accountLoop files c.nextLot).manageOpenPositions (cyclePrices c.market)

/-- The account's equity, marked after the exits of the cycle. -/
def markedEquity (files : AccountFiles) (c : LiveCycle) : Option ℚ :=
  if (cyclePass files c).Returns then
    ((cyclePass files c).state.broker.equity (cyclePrices c.market)).toOption
  else none

/-- An account and a risk manager that is fed its marked equity every cycle,
the way the backtest feeds its own. -/
structure Watched where
  files : AccountFiles
  shadow : RiskManager

def Watched.step (w : Watched) (c : LiveCycle) : Watched :=
  { files := (runOneAccount c.strategy c.market w.files c.nextLot).state.files
    shadow := match markedEquity w.files c with
      | none => w.shadow
      | some e => w.shadow.updateEquity e }

/-- The cycle opens a lot: the trades table grows. -/
def CycleOpens (files : AccountFiles) (c : LiveCycle) : Prop :=
  files.db.trades.length <
    (runOneAccount c.strategy c.market files c.nextLot).state.files.db.trades.length

/-- The halt rule for one cycle: once halted, it opens no lot. -/
def HaltRule (w : Watched) (c : LiveCycle) : Prop :=
  w.shadow.halted = true → ¬ CycleOpens w.files c

/-- The exit pass goes through, there is a signal, and every gate but the
breaker lets it pass. -/
def CanEnter (files : AccountFiles) (c : LiveCycle) : Prop :=
  ∃ equity klines sig entry, markedEquity files c = some equity ∧
    fetchSignal c.strategy c.market TRADE_SYMBOL = .ok (klines, sig) ∧
    GatesOpen (cyclePass files c).state (cyclePrices c.market)
      (candidateOf (cyclePass files c).state klines sig equity) entry

theorem markedEquity_some_iff (files : AccountFiles) (c : LiveCycle) (equity : ℚ) :
    markedEquity files c = some equity ↔ (cyclePass files c).Returns ∧
      (cyclePass files c).state.broker.equity (cyclePrices c.market) = .ok equity := by
  unfold markedEquity
  by_cases h : (cyclePass files c).Returns
  · rw [if_pos h]
    cases (cyclePass files c).state.broker.equity (cyclePrices c.market) <;>
      simp [h, Except.toOption]
  · rw [if_neg h]
    simp [h]

/-- A cycle builds its risk manager afresh, so its own breaker is never up. -/
theorem cyclePass_live (files : AccountFiles) (c : LiveCycle) :
    (cyclePass files c).state.risk.halted = false := by
  unfold cyclePass
  rw [(manageOpenPositions_frame (accountLoop files c.nextLot) (cyclePrices c.market)).risk]
  unfold accountLoop
  cases files.db.account <;> rfl

theorem cycleOpens_iff (files : AccountFiles) (c : LiveCycle) :
    CycleOpens files c ↔ CanEnter files c := by
  have hrows := (manageOpenPositions_frame (accountLoop files c.nextLot) (cyclePrices c.market)).rows
  have hstart : (accountLoop files c.nextLot).store.trades = files.db.trades := rfl
  rw [hstart] at hrows
  have hdec := decision_ne_none_iff c.strategy c.market (cyclePass files c).state
    (cyclePass_live files c)
  unfold CycleOpens CanEnter
  simp only [markedEquity_some_iff]
  rcases runOneAccount_spec c.strategy c.market files c.nextLot with
    ⟨hstop, -, -, -, htrades, -⟩ | ⟨hpass, -, -, finish, hend, -, hfiles, -⟩
  · rw [htrades, hrows]
    refine ⟨fun h => absurd h (lt_irrefl _), ?_⟩
    rintro ⟨equity, -, -, -, ⟨hret, hequity⟩, -⟩
    rcases hstop with hno | hno
    · exact absurd hret hno
    · exact absurd (equity_ok_iff.mp ⟨equity, hequity⟩) hno
  · rw [hfiles, show finish.saved.db.trades = finish.store.trades from rfl, hend.trades]
    unfold cyclePass at hdec ⊢
    cases hd : decision c.strategy c.market ((accountLoop files c.nextLot).manageOpenPositions
        (cyclePrices c.market)).state with
    | none =>
      rw [hd] at hdec
      refine ⟨fun h => ?_, ?_⟩
      · rw [tradesAfter_none, hrows] at h
        exact absurd h (lt_irrefl _)
      · rintro ⟨equity, klines, sig, entry, ⟨-, he⟩, hs, ho⟩
        exact absurd rfl (hdec.mpr ⟨equity, klines, sig, entry, he, hs, ho⟩)
    | some ce =>
      rw [hd] at hdec
      obtain ⟨equity, klines, sig, entry, he, hs, ho⟩ := hdec.mp (by simp)
      refine ⟨fun _ => ⟨equity, klines, sig, entry, ⟨hpass, he⟩, hs, ho⟩, fun _ => ?_⟩
      show files.db.trades.length < (_ ++ [_] : List TradeRow).length
      rw [List.length_append, hrows]
      exact Nat.lt_succ_self _

/-- The shadow's flag after a run: some cycle's marked equity was at or below
`1 - maxDrawdown` times the running peak. -/
theorem halted_run_iff (cs : List LiveCycle) (w : Watched) :
    (cs.foldl Watched.step w).shadow.halted = true ↔
      w.shadow.halted = true ∨ ∃ pre c post, cs = pre ++ c :: post ∧
        ∃ e, markedEquity (pre.foldl Watched.step w).files c = some e ∧
          (pre.foldl Watched.step w).shadow.Breaches e := by
  refine flag_run_iff (fun w : Watched => w.shadow.halted = true)
    (fun w c => ∃ e, markedEquity w.files c = some e ∧ w.shadow.Breaches e) ?_ cs w
  intro w c
  unfold Watched.step
  cases markedEquity w.files c with
  | none => simp
  | some e => simp [RiskManager.updateEquity_halted]

/-- A market whose price of BTC is `price`, after a bar that closed at
`prev`. -/
def twoBars (prev price : ℚ) : CachedMarket where
  prices := fun t => if t = TRADE_SYMBOL then some price else none
  klines := fun t =>
    if t = TRADE_SYMBOL then
      [{ ts := 0, «open» := prev, high := prev, low := prev, close := prev, volume := 1 },
       { ts := 300000, «open» := prev, high := prev, low := price, close := price, volume := 1 }]
    else []

/-- The peak in the database. -/
def savedPeak (files : AccountFiles) : Option ℚ := files.db.account.bind (·.riskPeak)

/-- The run of one program does not lower the persisted peak. -/
def PeakKept (files : AccountFiles) (step : AccountStep) : Prop :=
  ∀ p, savedPeak files = some p → ∃ p', savedPeak (files.step step) = some p' ∧ p ≤ p'

/-- A heartbeat that saves starts with a persisted peak of at most the start
cash. -/
def PeakSafe (files : AccountFiles) : AccountStep → Prop
  | .cycle .. => True
  | .heartbeat prices nextLot =>
    HeartbeatSaves (heartbeatPrices prices) (restoredBroker files.db.account nextLot).lots →
      ∀ p, savedPeak files = some p → p ≤ START_CASH

/-- A decision cycle leaves the peak alone or saves the larger of it and the
start cash. -/
theorem savedPeak_cycle (strategy : Strategy) (market : CachedMarket) (files : AccountFiles)
    (nextLot : ℕ) :
    savedPeak (files.step (.cycle strategy market nextLot)) = savedPeak files ∨
    savedPeak (files.step (.cycle strategy market nextLot)) =
      some (max ((savedPeak files).getD START_CASH) START_CASH) := by
  show savedPeak (runOneAccount strategy market files nextLot).state.files = _ ∨
    savedPeak (runOneAccount strategy market files nextLot).state.files = _
  have hrisk := (manageOpenPositions_frame (accountLoop files nextLot) (cyclePrices market)).risk
  rcases runOneAccount_spec strategy market files nextLot with
    ⟨-, -, haccount, -, -, -⟩ | ⟨-, -, -, finish, hend, -, hfiles, -⟩
  · unfold savedPeak
    rw [haccount]
    exact Or.inl rfl
  · rw [hfiles]
    show _ ∨ some finish.risk.peakEquity = _
    rw [hend.risk, hrisk]
    unfold accountLoop savedPeak
    cases files.db.account with
    | none => exact Or.inr (by rw [Option.bind_none, Option.getD_none, max_self]; rfl)
    | some st => exact Or.inr rfl

/-- A heartbeat leaves the peak alone or, when it saves, writes the start
cash. -/
theorem savedPeak_heartbeat (prices : Ticker → Option ℚ) (files : AccountFiles)
    (nextLot : ℕ) :
    let saves := HeartbeatSaves (heartbeatPrices prices)
      (restoredBroker files.db.account nextLot).lots
    (saves ∧ savedPeak (files.step (.heartbeat prices nextLot)) = some START_CASH) ∨
    (¬ saves ∧ savedPeak (files.step (.heartbeat prices nextLot)) = savedPeak files) := by
  have hframe := manageOpenPositions_frame (buildFor files nextLot) (heartbeatPrices prices)
  show (_ ∧ savedPeak (heartbeatAccount (heartbeatPrices prices) files nextLot).1 = _) ∨
    (_ ∧ savedPeak (heartbeatAccount (heartbeatPrices prices) files nextLot).1 = _)
  rcases heartbeatAccount_spec (heartbeatPrices prices) files nextLot with
    ⟨hsaves, -, hfiles⟩ | ⟨hno, hfiles⟩
  · refine Or.inl ⟨hsaves, ?_⟩
    rw [hfiles]
    show some _ = some START_CASH
    rw [hframe.risk]
    rfl
  · refine Or.inr ⟨hno, ?_⟩
    rw [hfiles]
    show Option.bind _ _ = savedPeak files
    unfold savedPeak TradingLoop.files
    rw [hframe.account]
    rfl

theorem peakKept_iff (files : AccountFiles) (step : AccountStep) :
    PeakKept files step ↔ PeakSafe files step := by
  cases step with
  | cycle strategy market nextLot =>
    refine ⟨fun _ => trivial, fun _ p hp => ?_⟩
    rcases savedPeak_cycle strategy market files nextLot with h | h
    · exact ⟨p, h.trans hp, le_refl p⟩
    · rw [hp] at h
      exact ⟨_, h, le_max_left _ _⟩
  | heartbeat prices nextLot =>
    unfold PeakKept PeakSafe
    rcases savedPeak_heartbeat prices files nextLot with ⟨hsaves, h⟩ | ⟨hno, h⟩
    · rw [h]
      refine ⟨fun hkept _ p hp => ?_, fun hsafe p hp => ⟨START_CASH, rfl, hsafe hsaves p hp⟩⟩
      obtain ⟨p', hp', hle⟩ := hkept p hp
      exact hle.trans (le_of_eq (Option.some.inj hp').symm)
    · exact ⟨fun _ hsaves => absurd hsaves hno, fun _ p hp => ⟨p, h.trans hp, le_refl p⟩⟩

/-- **The persisted peak.** A run of decision cycles and heartbeats, in any
order, never lowers it exactly when every heartbeat that saves starts with a
peak of at most the start cash. -/
theorem peak_kept_iff (files : AccountFiles) (steps : List AccountStep) :
    Along AccountFiles.step PeakKept files steps ↔
      Along AccountFiles.step PeakSafe files steps :=
  along_congr peakKept_iff steps

/-- An account whose saved peak is 12000 and whose one lot is below its
stop. -/
def peakedAccount : AccountFiles :=
  let lot : OpenPosition :=
    { lotId := 1, ticker := "BTC/USDT", quantity := 1, entryPrice := 1000, stopLoss := 975
      entryFee := 1 }
  let broker : BrokerState := { cash := some 11000, lots := [lot.toState] }
  let account : AccountState := { broker := some broker, riskPeak := some 12000 }
  { AccountFiles.fresh with db := { AccountFiles.fresh.db with account := some account } }

/-- The heartbeat closes the lot and writes 10000 over the peak of 12000. -/
theorem peak_lowered :
    ¬ Along AccountFiles.step PeakKept peakedAccount [.heartbeat (fun _ => some 970) 1] := by
  rintro ⟨h, -⟩
  obtain ⟨p', hp', hle⟩ := h 12000 (by decide +kernel)
  have hnew : savedPeak (peakedAccount.step (.heartbeat (fun _ => some 970) 1)) = some 10000 := by
    decide +kernel
  rw [hnew] at hp'
  cases hp'
  exact absurd hle (by decide +kernel)

/-- In an account these two programs created the peak never moves from the
start cash: nothing on the live path raises it. -/
theorem fresh_peak_kept (steps : List AccountStep) :
    Along AccountFiles.step PeakKept AccountFiles.fresh steps := by
  have hstep : ∀ (files : AccountFiles) (step : AccountStep),
      (∀ p, savedPeak files = some p → p ≤ START_CASH) → True →
      PeakKept files step ∧ ∀ p, savedPeak (files.step step) = some p → p ≤ START_CASH := by
    intro files step hle _
    refine ⟨(peakKept_iff files step).mpr ?_, ?_⟩
    · cases step with
      | cycle => trivial
      | heartbeat => exact fun _ => hle
    · intro p hp
      cases step with
      | cycle strategy market nextLot =>
        rcases savedPeak_cycle strategy market files nextLot with h | h
        · exact hle p (h.symm.trans hp)
        · obtain rfl := Option.some.inj (h.symm.trans hp)
          cases hs : savedPeak files with
          | none => exact (max_self START_CASH).le
          | some q => exact max_le (hle q hs) (le_refl _)
      | heartbeat prices nextLot =>
        rcases savedPeak_heartbeat prices files nextLot with ⟨-, h⟩ | ⟨-, h⟩
        · exact (Option.some.inj (h.symm.trans hp)).symm.le
        · exact hle p (h.symm.trans hp)
  refine along_of_inv hstep steps ?_ (along_of_forall (fun _ _ => trivial) steps)
  intro p hp
  cases hp

end PaperTrading.Trading
