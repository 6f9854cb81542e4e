import PaperTrading.Trading.Accounts

/-!
# What one decision cycle does

`runCycle` on the one symbol a cycle trades. After the exit pass there is at
most one decision to enter (`decision`), and `runCycle_spec` says what the
cycle leaves: if the pass or the equity after it raises, no row is opened and
nothing is saved; otherwise the cycle returns, with one more lot and one more
row if the decision was to enter, and the calibration file written.
-/

namespace PaperTrading.Trading

open Broker Risk Calibration PaperTrading.Lib

/-- The symbol a decision cycle trades. -/
def TRADE_SYMBOL : Ticker := "BTC/USDT"

/-- The dict `px` of a decision cycle. -/
def cyclePrices (market : CachedMarket) : PriceMap := market.priceMap TRADE_SYMBOLS

/-- The price dict of a step. -/
def stepPrices : AccountStep → PriceMap
  | .cycle _ market _ => cyclePrices market
  | .heartbeat prices _ => heartbeatPrices prices

/-- The candidate a cycle puts before the gates. -/
def candidateOf (loop : TradingLoop) (klines : List Candle) (sig : Signal) (equity : ℚ) :
    Candidate :=
  let key := conditionKey TRADE_SYMBOL QUAL_TIMEFRAME sig.condition
  { symbol := TRADE_SYMBOL, klines := klines, signal := sig
    probability := (loop.calib.calibratedProbability key (proposeProbability sig)).2
    equity := equity }

/-- The entry a cycle makes after its exit pass left `loop`, if any. -/
def decision (strategy : Strategy) (market : CachedMarket) (loop : TradingLoop) :
    Option (Candidate × Entry) :=
  match fetchSignal strategy market TRADE_SYMBOL, loop.broker.equity (cyclePrices market) with
  | .ok (klines, sig), .ok equity =>
    let c := candidateOf loop klines sig equity
    match entryGates loop (cyclePrices market) c with
    | .ok e => some (c, e)
    | .error _ => none
  | _, _ => none

/-- The order of an entry. -/
def entryOrder (c : Candidate) (e : Entry) : Order :=
  { ticker := c.symbol, side := .buy, quantity := e.size, price := e.price
    stopLoss := some e.stop
    condition := conditionKey c.symbol QUAL_TIMEFRAME c.signal.condition }

/-- The broker after the order of an entry filled. -/
def bought (b : PaperBroker) (c : Candidate) (e : Entry) : PaperBroker :=
  let fill := b.fillFor (entryOrder c e) e.price
  { b with
    lots := b.lots ++ [b.boughtLot (entryOrder c e) e.stop e.price]
    nextLot := b.nextLot + 1
    cash := b.cash - (e.size * fill.price + fill.fee)
    fills := b.fills ++ [fill] }

/-- The row a cycle opens for an entry. -/
def entryRow (store : TradeStore) (b : PaperBroker) (c : Candidate) (e : Entry) : TradeRow :=
  { id := store.nextId, symbol := c.symbol, timeframe := QUAL_TIMEFRAME
    condition := c.signal.condition, statedProb := c.probability, entryPrice := e.price
    size := e.size, entryFee := (b.fillFor (entryOrder c e) e.price).fee
    lotId := some b.nextLot }

theorem placeOrder_entry (b : PaperBroker) (c : Candidate) (e : Entry) :
    b.placeOrder (entryOrder c e) (some e.price) =
      .ok (bought b c e, b.fillFor (entryOrder c e) e.price) := rfl

@[simp] theorem lastLotId_bought (b : PaperBroker) (c : Candidate) (e : Entry) :
    lastLotId (bought b c e) = some b.nextLot := by
  simp [lastLotId, bought, PaperBroker.boughtLot]

/-- The broker after a decision. -/
def brokerAfter (b : PaperBroker) : Option (Candidate × Entry) → PaperBroker
  | none => b
  | some (c, e) => bought b c e

/-- The rows of the trades table after a decision. -/
def tradesAfter (store : TradeStore) (b : PaperBroker) :
    Option (Candidate × Entry) → List TradeRow
  | none => store.trades
  | some (c, e) => store.trades ++ [entryRow store b c e]

@[simp] theorem brokerAfter_none (b : PaperBroker) : brokerAfter b none = b := rfl
@[simp] theorem tradesAfter_none (store : TradeStore) (b : PaperBroker) :
    tradesAfter store b none = store.trades := rfl

/-- What a cycle that returned left, `d` being its decision and `start` the
loop its exit pass left. -/
structure CycleEnd (d : Option (Candidate × Entry)) (start finish : TradingLoop) : Prop where
  risk : finish.risk = start.risk
  account : finish.store.account = start.store.account
  broker : finish.broker = brokerAfter start.broker d
  trades : finish.store.trades = tradesAfter start.store start.broker d
  learned : ∀ k, finish.calib.bins.at k = start.calib.bins.at k

/-- What a cycle that raised after its exit pass left. -/
structure CycleStop (start finish : TradingLoop) : Prop where
  risk : finish.risk = start.risk
  account : finish.store.account = start.store.account
  broker : finish.broker = start.broker
  trades : finish.store.trades = start.store.trades
  file : finish.calib.file = start.calib.file

/-! ## The steps of the cycle -/

/-- An entry is priced, so it cannot turn a book whose equity is known into
one whose equity raises. -/
theorem equity_bought {px : PriceMap} {b : PaperBroker} {c : Candidate} {e : Entry}
    (hb : ∀ lot ∈ b.lots, ¬ Unpriced px lot) (hc : px.get c.symbol = some e.price) :
    ∀ lot ∈ (bought b c e).lots, ¬ Unpriced px lot := by
  intro lot hlot
  rcases List.mem_append.mp hlot with h | h
  · exact hb lot h
  · obtain rfl := List.mem_singleton.mp h
    intro hu
    unfold PriceMap.get at hc
    have hu' : px c.symbol = some none := hu
    rw [hu'] at hc
    cases hc

theorem entryGates_priced {loop : TradingLoop} {px : PriceMap} {c : Candidate} {e : Entry}
    (h : entryGates loop px c = .ok e) : px.get c.symbol = some e.price := by
  unfold entryGates at h
  simp only at h
  split at h
  · cases h
  split at h
  · cases h
  cases hpx : px.get c.symbol with
  | none => rw [hpx] at h; cases h
  | some price =>
    rw [hpx] at h
    simp only at h
    split at h
    · cases h
    split at h
    · cases h
    split at h
    · cases h; rfl
    · cases h

/-- The gates read the broker and the risk manager only. -/
theorem entryGates_congr {l k : TradingLoop} (px : PriceMap) (c : Candidate)
    (hb : l.broker = k.broker) (hr : l.risk = k.risk) :
    entryGates l px c = entryGates k px c := by
  unfold entryGates
  rw [hb, hr]

theorem recordDecisions_frame (results : List CycleResult) (store : TradeStore) :
    (results.foldl (fun st r => st.recordDecision r.toDecision) store).trades = store.trades ∧
    (results.foldl (fun st r => st.recordDecision r.toDecision) store).account =
      store.account := by
  induction results generalizing store with
  | nil => exact ⟨rfl, rfl⟩
  | cons r results ih => exact ih _

/-- The end of a cycle: trades, account, broker and risk manager stay; it
raises if the book has an unpriced lot, and else writes the calibration
file. -/
structure FinishSpec (px : PriceMap) (loop : TradingLoop) (r : Ran PyError CycleState) :
    Prop where
  risk : r.state.loop.risk = loop.risk
  broker : r.state.loop.broker = loop.broker
  trades : r.state.loop.store.trades = loop.store.trades
  account : r.state.loop.store.account = loop.store.account
  returns : r.Returns ↔ ∀ lot ∈ loop.broker.lots, ¬ Unpriced px lot
  raised : ¬ r.Returns → r.state.loop.calib = loop.calib
  saved : r.Returns → r.state.loop.calib = loop.calib.save

theorem finishCycle_spec (market : CachedMarket) (s : CycleState) :
    FinishSpec (cyclePrices market) s.loop (finishCycle market TRADE_SYMBOLS s) := by
  obtain ⟨htrades, haccount⟩ := recordDecisions_frame s.results s.loop.store
  have hok := @equity_ok_iff (cyclePrices market) s.loop.broker
  unfold finishCycle
  unfold cyclePrices at hok ⊢
  dsimp only
  cases h : s.loop.broker.equity (market.priceMap TRADE_SYMBOLS) with
  | error e =>
    rw [h] at hok
    have hno : ¬ ∀ lot ∈ s.loop.broker.lots, ¬ Unpriced (market.priceMap TRADE_SYMBOLS) lot := by
      rw [← hok]
      simp
    exact ⟨rfl, rfl, htrades, haccount, ⟨fun hr => absurd hr (by simp), fun hr => absurd hr hno⟩,
      fun _ => rfl, fun hr => absurd hr (by simp)⟩
  | ok v =>
    rw [h] at hok
    obtain ⟨ht, ha⟩ := overlayEquity_frame
      (s.results.foldl (fun st r => st.recordDecision r.toDecision) s.loop.store)
      (TRADE_SYMBOLS.filterMap fun sym =>
        ((market.priceMap TRADE_SYMBOLS).get sym).map fun p => (sym, p)) PAPER_START_CASH
    exact ⟨rfl, rfl, ht.trans htrades, ha.trans haccount,
      ⟨fun _ => hok.mp ⟨v, rfl⟩, fun _ => Ran.ok_returns _⟩,
      fun hr => absurd (Ran.ok_returns _) hr, fun _ => rfl⟩

theorem tradeSymbols_single (strategy : Strategy) (market : CachedMarket) (s : CycleState) :
    Ran.loop (tradeSymbol strategy market (cyclePrices market)) s TRADE_SYMBOLS =
      tradeSymbol strategy market (cyclePrices market) s TRADE_SYMBOL := by
  show (tradeSymbol strategy market (cyclePrices market) s TRADE_SYMBOL).andThen Ran.ok = _
  rcases Ran.andThen_cases (tradeSymbol strategy market (cyclePrices market) s TRADE_SYMBOL)
    Ran.ok with ⟨-, h⟩ | ⟨hr, h⟩
  · exact h
  · rw [h]
    exact Ran.ext rfl hr.symm

/-- An entry that passed the gates is made, and the cycle goes on. -/
theorem enterTrade_spec {px : PriceMap} {c : Candidate} {e : Entry} {s : CycleState}
    (hprice : px.get c.symbol = some e.price)
    (hb : ∀ lot ∈ s.loop.broker.lots, ¬ Unpriced px lot) :
    (enterTrade px c e s).Returns ∧
    CycleEnd (some (c, e)) s.loop (enterTrade px c e s).state.loop ∧
    (enterTrade px c e s).state.loop.calib = s.loop.calib := by
  obtain ⟨v, hv⟩ := equity_ok_iff.mpr (equity_bought hb hprice)
  have hrun : ∃ result, enterTrade px c e s =
      .ok { loop := { s.loop with
              broker := bought s.loop.broker c e
              store := s.loop.store.openTrade c.symbol QUAL_TIMEFRAME c.signal.condition
                c.probability e.price e.size
                (s.loop.broker.fillFor (entryOrder c e) e.price).fee
                (lastLotId (bought s.loop.broker c e)) }
            results := s.results ++ [result] } := by
    have hplace := placeOrder_entry s.loop.broker c e
    unfold entryOrder at hplace
    unfold enterTrade
    dsimp only
    rw [hplace]
    simp only [hv]
    exact ⟨_, rfl⟩
  obtain ⟨result, hrun⟩ := hrun
  rw [hrun, lastLotId_bought]
  exact ⟨Ran.ok_returns _, ⟨rfl, rfl, rfl, rfl, fun _ => rfl⟩, rfl⟩

/-- The decision of the cycle, on the loop its exit pass left. -/
theorem tradeSymbol_spec (strategy : Strategy) (market : CachedMarket) (loop : TradingLoop) :
    let r := tradeSymbol strategy market (cyclePrices market) { loop := loop } TRADE_SYMBOL
    (r.Returns ∧ CycleEnd (decision strategy market loop) loop r.state.loop ∧
      r.state.loop.calib.file = loop.calib.file) ∨
    (¬ r.Returns ∧ CycleStop loop r.state.loop ∧
      ¬ ∀ lot ∈ loop.broker.lots, ¬ Unpriced (cyclePrices market) lot) := by
  have hok := @equity_ok_iff (cyclePrices market) loop.broker
  unfold tradeSymbol decision
  cases fetchSignal strategy market TRADE_SYMBOL with
  | error e =>
    exact Or.inl ⟨Ran.ok_returns _, ⟨rfl, rfl, rfl, rfl, fun _ => rfl⟩, rfl⟩
  | ok ks =>
    obtain ⟨klines, sig⟩ := ks
    have hfile := CalibrationStore.calibratedProbability_file loop.calib
      (conditionKey TRADE_SYMBOL QUAL_TIMEFRAME sig.condition) (proposeProbability sig)
    have hat := CalibrationStore.calibratedProbability_at loop.calib
      (conditionKey TRADE_SYMBOL QUAL_TIMEFRAME sig.condition) (proposeProbability sig)
    unfold decideSymbol
    dsimp only
    cases he : loop.broker.equity (cyclePrices market) with
    | error e =>
      refine Or.inr ⟨by simp, ⟨rfl, rfl, rfl, rfl, hfile⟩, ?_⟩
      rw [← hok, he]
      simp
    | ok equity =>
      rw [he] at hok
      have hb := hok.mp ⟨equity, rfl⟩
      -- The gates do not see that the calibration store was asked.
      have hgates := entryGates_congr (l := { loop with calib :=
        (loop.calib.calibratedProbability (conditionKey TRADE_SYMBOL QUAL_TIMEFRAME sig.condition)
          (proposeProbability sig)).1 }) (k := loop) (cyclePrices market)
        (candidateOf loop klines sig equity) rfl rfl
      unfold candidateOf at hgates ⊢
      dsimp only at hgates ⊢
      rw [hgates]
      cases hg : entryGates loop (cyclePrices market) (candidateOf loop klines sig equity) with
      | error ar =>
        unfold candidateOf at hg
        simp only [hg]
        exact Or.inl ⟨Ran.ok_returns _, ⟨rfl, rfl, rfl, rfl, hat⟩, hfile⟩
      | ok e =>
        have hprice := entryGates_priced hg
        unfold candidateOf at hg hprice
        simp only [hg]
        obtain ⟨hr, hend, hcalib⟩ := enterTrade_spec (s := { loop := { loop with calib :=
          (loop.calib.calibratedProbability
            (conditionKey TRADE_SYMBOL QUAL_TIMEFRAME sig.condition)
            (proposeProbability sig)).1 } }) hprice hb
        refine Or.inl ⟨hr, ⟨hend.risk, hend.account, hend.broker, hend.trades, ?_⟩, ?_⟩
        · intro k
          rw [hcalib]
          exact hat k
        · rw [hcalib]
          exact hfile

/-! ## The cycle -/

theorem CycleEnd.unpriced {strategy : Strategy} {market : CachedMarket}
    {start finish : TradingLoop}
    (h : CycleEnd (decision strategy market start) start finish)
    (hall : ∀ lot ∈ start.broker.lots, ¬ Unpriced (cyclePrices market) lot) :
    ∀ lot ∈ finish.broker.lots, ¬ Unpriced (cyclePrices market) lot := by
  rw [h.broker]
  cases hd : decision strategy market start with
  | none => exact hall
  | some ce =>
    obtain ⟨c, e⟩ := ce
    refine equity_bought hall ?_
    unfold decision at hd
    split at hd
    · dsimp only at hd
      split at hd
      · next hg =>
        cases hd
        exact entryGates_priced hg
      · cases hd
    · cases hd

theorem decision_some {strategy : Strategy} {market : CachedMarket} {loop : TradingLoop}
    (h : decision strategy market loop ≠ none) :
    ∀ lot ∈ loop.broker.lots, ¬ Unpriced (cyclePrices market) lot := by
  rw [← equity_ok_iff]
  unfold decision at h
  split at h
  · next hs he => exact ⟨_, he⟩
  · exact absurd rfl h

/-- **The cycle.** Its exit pass left `start`. If the pass raised, the cycle
stops there. If a lot that is left is unpriced, an equity raises later: no row
was opened and no file written. Otherwise the cycle returns, its one decision
carried out and its calibration file written. -/
theorem runCycle_spec (strategy : Strategy) (market : CachedMarket) (loop : TradingLoop) :
    let pass := loop.manageOpenPositions (cyclePrices market)
    let r := runCycle strategy market TRADE_SYMBOLS loop
    (¬ pass.Returns ∧ ¬ r.Returns ∧ r.state.loop = pass.state) ∨
    (pass.Returns ∧ (¬ ∀ lot ∈ pass.state.broker.lots, ¬ Unpriced (cyclePrices market) lot) ∧
      ¬ r.Returns ∧ CycleStop pass.state r.state.loop) ∨
    (pass.Returns ∧ (∀ lot ∈ pass.state.broker.lots, ¬ Unpriced (cyclePrices market) lot) ∧
      r.Returns ∧ CycleEnd (decision strategy market pass.state) pass.state r.state.loop ∧
      r.state.loop.calib.file = r.state.loop.calib.toFile) := by
  dsimp only
  unfold runCycle
  rw [show market.priceMap TRADE_SYMBOLS = cyclePrices market from rfl]
  dsimp only
  rcases Ran.andThen_cases
      ((loop.manageOpenPositions (cyclePrices market)).map fun l => ({ loop := l } : CycleState))
      (fun s => (Ran.loop (tradeSymbol strategy market (cyclePrices market)) s
        TRADE_SYMBOLS).andThen (finishCycle market TRADE_SYMBOLS))
    with ⟨hraise, h⟩ | ⟨hret, h⟩
  · rw [h]
    exact Or.inl ⟨hraise, hraise, rfl⟩
  · rw [h, Ran.map_state, tradeSymbols_single]
    refine Or.inr ?_
    have hpass : (loop.manageOpenPositions (cyclePrices market)).Returns := hret
    generalize hstart : (loop.manageOpenPositions (cyclePrices market)).state = start
    rcases tradeSymbol_spec strategy market start with ⟨hr, hend, hfile⟩ | ⟨hr, hstop, hun⟩
    · rw [Ran.andThen_returns hr]
      obtain ⟨frisk, fbroker, ftrades, faccount, freturns, fraised, fsaved⟩ :=
        finishCycle_spec market
          (tradeSymbol strategy market (cyclePrices market) { loop := start } TRADE_SYMBOL).state
      by_cases hall : ∀ lot ∈ start.broker.lots, ¬ Unpriced (cyclePrices market) lot
      · have hfin := freturns.mpr (hend.unpriced hall)
        refine Or.inr ⟨hpass, hall, hfin, ⟨frisk.trans hend.risk, faccount.trans hend.account,
          fbroker.trans hend.broker, ftrades.trans hend.trades, ?_⟩, ?_⟩
        · intro k
          rw [fsaved hfin]
          exact hend.learned k
        · rw [fsaved hfin]
          rfl
      · -- An unpriced lot stops the decision, so nothing was entered.
        have hnone : decision strategy market start = none :=
          Classical.not_not.mp fun hd => hall (decision_some hd)
        rw [hnone] at hend
        have hbroker : _ = start.broker := hend.broker
        have htrades : _ = start.store.trades := hend.trades
        rw [hbroker] at freturns
        have hno := fun hfin => hall (freturns.mp hfin)
        refine Or.inl ⟨hpass, hall, hno, ⟨frisk.trans hend.risk, faccount.trans hend.account,
          fbroker.trans hbroker, ftrades.trans htrades, ?_⟩⟩
        rw [fraised hno]
        exact hfile
    · refine Or.inl ⟨hpass, hun, ?_⟩
      rcases Ran.andThen_cases
          (tradeSymbol strategy market (cyclePrices market) { loop := start } TRADE_SYMBOL)
          (finishCycle market TRADE_SYMBOLS) with ⟨-, h'⟩ | ⟨h', -⟩
      · rw [h']
        exact ⟨hr, hstop⟩
      · exact absurd h' hr

/-! ## The two programs' steps -/

/-- A decision cycle of an account: it raised, and the files are as its exit
pass left them with nothing saved; or it returned and saved. -/
theorem runOneAccount_spec (strategy : Strategy) (market : CachedMarket) (files : AccountFiles)
    (nextLot : ℕ) :
    let pass := (accountLoop files nextLot).manageOpenPositions (cyclePrices market)
    let r := runOneAccount strategy market files nextLot
    ((¬ pass.Returns ∨ ¬ ∀ lot ∈ pass.state.broker.lots, ¬ Unpriced (cyclePrices market) lot) ∧
      ¬ r.Returns ∧ r.state.files.db.account = files.db.account ∧
      r.state.files.calibration = files.calibration ∧
      r.state.files.db.trades = pass.state.store.trades ∧
      r.state.nextLot = (accountLoop files nextLot).broker.nextLot) ∨
    (pass.Returns ∧ (∀ lot ∈ pass.state.broker.lots, ¬ Unpriced (cyclePrices market) lot) ∧
      r.Returns ∧ ∃ finish : TradingLoop,
        CycleEnd (decision strategy market pass.state) pass.state finish ∧
        finish.calib.file = finish.calib.toFile ∧ r.state.files = finish.saved ∧
        r.state.nextLot = finish.broker.nextLot) := by
  dsimp only
  have hframe := manageOpenPositions_frame (accountLoop files nextLot) (cyclePrices market)
  have hspec := runCycle_spec strategy market (accountLoop files nextLot)
  dsimp only at hspec
  unfold runOneAccount
  dsimp only
  generalize runCycle strategy market TRADE_SYMBOLS (accountLoop files nextLot) = r at hspec ⊢
  rcases hspec with ⟨hpass, hr, hloop⟩ | ⟨hpass, hun, hr, hstop⟩ | ⟨hpass, hall, hr, hend, hfile⟩
  · refine Or.inl ⟨Or.inl hpass, ?_⟩
    unfold Ran.Returns at hr
    obtain ⟨e, he⟩ := Option.ne_none_iff_exists'.mp hr
    simp only [he, hloop]
    exact ⟨by simp, hframe.account, hframe.file, rfl, hframe.nextLot⟩
  · refine Or.inl ⟨Or.inr hun, ?_⟩
    unfold Ran.Returns at hr
    obtain ⟨e, he⟩ := Option.ne_none_iff_exists'.mp hr
    simp only [he]
    refine ⟨by simp, hstop.account.trans hframe.account, hstop.file.trans hframe.file,
      hstop.trades, ?_⟩
    rw [Ran.raise_state, hstop.broker]
    exact hframe.nextLot
  · refine Or.inr ⟨hpass, hall, ?_⟩
    unfold Ran.Returns at hr
    simp only [hr]
    exact ⟨by simp, r.state.loop, hend, hfile, rfl, rfl⟩

/-- The heartbeat's pass on the book returns and leaves fewer lots, which is
when the heartbeat saves. -/
def HeartbeatSaves (px : PriceMap) (lots : List OpenPosition) : Prop :=
  (Ran.loop (manageBook px) lots lots).Returns ∧
    (Ran.loop (manageBook px) lots lots).state.length < lots.length

/-- A heartbeat pass over an account: it saves, or it leaves the saved state
alone; the rows are in both cases as the exit pass left them. -/
theorem heartbeatAccount_spec (px : PriceMap) (files : AccountFiles) (nextLot : ℕ) :
    let pass := (buildFor files nextLot).manageOpenPositions px
    (HeartbeatSaves px (restoredBroker files.db.account nextLot).lots ∧ pass.Returns ∧
      (heartbeatAccount px files nextLot).1 = pass.state.saved) ∨
    (¬ HeartbeatSaves px (restoredBroker files.db.account nextLot).lots ∧
      (heartbeatAccount px files nextLot).1 = pass.state.files) := by
  dsimp only
  have hmap := Ran.loop_proj (fun l : TradingLoop => l.broker.lots) (manageLot_book px)
    (buildFor files nextLot).broker.lots (buildFor files nextLot)
  have hlots : (buildFor files nextLot).broker.lots =
      (restoredBroker files.db.account nextLot).lots := rfl
  unfold heartbeatAccount HeartbeatSaves
  dsimp only
  rw [← hlots, ← hmap]
  by_cases hempty : (buildFor files nextLot).broker.lots = []
  · refine Or.inr ⟨?_, ?_⟩
    · rw [hempty]
      simp
    · rw [if_pos hempty]
      unfold TradingLoop.manageOpenPositions
      rw [hempty]
      rfl
  · rw [if_neg hempty]
    have hpass : Ran.loop (TradingLoop.manageLot px) (buildFor files nextLot)
        (buildFor files nextLot).broker.lots =
        (buildFor files nextLot).manageOpenPositions px := rfl
    rw [hpass]
    unfold Ran.Returns
    rw [Ran.map_error, Ran.map_state]
    generalize (buildFor files nextLot).manageOpenPositions px = pass
    cases he : pass.error with
    | some e => exact Or.inr ⟨by simp, rfl⟩
    | none =>
      simp only [true_and]
      by_cases hlt : pass.state.broker.lots.length < (buildFor files nextLot).broker.lots.length
      · exact Or.inl ⟨hlt, by rw [if_pos hlt]⟩
      · exact Or.inr ⟨hlt, by rw [if_neg hlt]⟩

end PaperTrading.Trading
