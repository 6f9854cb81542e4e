import PaperTrading.Trading.LotIds

/-!
# The baseline of an account

Each cycle records the equity of an account and, beside it, what buying and holding from the
first prices would be worth. The prices first seen are saved once, and every mark splits the
cash again over the symbols priced in its own cycle. So the marks are those of one portfolio
only as long as no cycle prices some of its symbols and not others: `baselines_of_priced`
is about every run of cycles and heartbeats of an account, over any symbols.
-/

namespace PaperTrading.Trading

open Broker PaperTrading.Lib

/-! ## Runs of one account -/

/-- A cycle over any symbols or a heartbeat, in a process whose lot counter stands somewhere. -/
inductive SymbolsStep where
  | cycle (strategy : Strategy) (market : CachedMarket) (symbols : List Ticker) (nextLot : ℕ)
  | heartbeat (px : PriceMap) (nextLot : ℕ)

/-- A cycle of an account: `runOneAccount` over any symbols. -/
def AccountFiles.cycled (files : AccountFiles) (strategy : Strategy) (market : CachedMarket)
    (symbols : List Ticker) (nextLot : ℕ) : AccountFiles :=
  let r := runCycle strategy market symbols (accountLoop files nextLot)
  match r.error with
  | some _ => r.state.loop.files
  | none => r.state.loop.saved

def AccountFiles.stepOver (files : AccountFiles) : SymbolsStep → AccountFiles
  | .cycle strategy market symbols nextLot => files.cycled strategy market symbols nextLot
  | .heartbeat px nextLot => (heartbeatAccount px files nextLot).1

theorem runOneAccount_cycled (strategy : Strategy) (market : CachedMarket) (files : AccountFiles)
    (nextLot : ℕ) : (runOneAccount strategy market files nextLot).state.files =
      files.cycled strategy market TRADE_SYMBOLS nextLot := by
  unfold runOneAccount AccountFiles.cycled
  dsimp only
  cases (runCycle strategy market TRADE_SYMBOLS (accountLoop files nextLot)).error <;> rfl

/-! ## The portfolio of an anchor -/

/-- The quantities bought when the anchor was saved: an equal split of its cash over the
symbols it has a price of. -/
def portfolioOf (anchor : BhAnchor) : List (Ticker × ℚ) :=
  let bought := anchor.prices.filter fun e => e.2 > 0
  let cash := if anchor.cash = 0 then PAPER_START_CASH else anchor.cash
  bought.map fun e => (e.1, qtyBought (cash / bought.length) e.2 TAKER_FEE SLIPPAGE)

/-- The price a mark can use. -/
def priceIn (prices : Prices) (s : Ticker) : Option ℚ :=
  (prices.lookup s).filter fun p => p > 0

/-- What a portfolio is worth, if all it holds is priced. -/
def worth (portfolio : List (Ticker × ℚ)) (prices : Prices) : Option ℚ :=
  if ∀ e ∈ portfolio, (priceIn prices e.1).isSome then
    some ((portfolio.map fun e => e.2 * (priceIn prices e.1).getD 0).sum)
  else none

/-- The prices a cycle has for its baseline. -/
def usablePrices (market : CachedMarket) (symbols : List Ticker) : Prices :=
  (symbols.filterMap fun sym =>
    ((market.priceMap symbols).get sym).map fun p => (sym, p)).filter fun e => e.2 ≠ 0

/-- The anchor a cycle marks against: the one on file, or the one it makes. -/
def anchorFor (files : AccountFiles) (prices : Prices) : BhAnchor :=
  (ensureBhAnchor files.db prices PAPER_START_CASH).2

/-- The cycle prices all of the portfolio or nothing of it. -/
def AllOrNone (portfolio : List (Ticker × ℚ)) (prices : Prices) : Prop :=
  (∀ e ∈ portfolio, (priceIn prices e.1).isSome) ∨ ∀ e ∈ portfolio, priceIn prices e.1 = none

instance (portfolio : List (Ticker × ℚ)) (prices : Prices) : Decidable (AllOrNone portfolio prices) :=
  inferInstanceAs (Decidable (_ ∨ _))

/-- A mark against an anchor, as `buy_and_hold_mtm` makes it. -/
def markOf (anchor : BhAnchor) (prices : Prices) : Option ℚ :=
  buyAndHoldMtm (if anchor.cash = 0 then PAPER_START_CASH else anchor.cash) anchor.prices prices

theorem heldSymbols_eq (startPrices currentPrices : Prices) :
    heldSymbols startPrices currentPrices =
      (startPrices.filter fun e => e.2 > 0).filterMap fun e =>
        (priceIn currentPrices e.1).map fun p => (e.2, p) := by
  unfold heldSymbols
  rw [List.filterMap_filter]
  refine List.filterMap_congr fun e _ => ?_
  unfold priceIn
  cases hlook : currentPrices.lookup e.1 with
  | none => by_cases hpos : e.2 > 0 <;> simp [hlook]
  | some p =>
    by_cases hpos : e.2 > 0
    · by_cases hp : p > 0
      · simp [hlook, hpos, hp]
      · simp [hlook, hpos, Option.filter, hp]
    · simp [hlook, hpos]

/-- Where all of the portfolio is priced the mark is what it is worth; where nothing of it
is, there is no mark. -/
theorem markOf_eq {anchor : BhAnchor} {prices : Prices}
    (h : AllOrNone (portfolioOf anchor) prices) {v : ℚ} (hv : markOf anchor prices = some v) :
    worth (portfolioOf anchor) prices = some v := by
  unfold markOf buyAndHoldMtm at hv
  dsimp only at hv
  split at hv
  next => cases hv
  next hheld =>
    rw [heldSymbols_eq] at hv hheld
    unfold AllOrNone portfolioOf at h
    unfold portfolioOf worth
    dsimp only at h ⊢
    simp only [List.forall_mem_map] at h ⊢
    rcases h with hall | hnone
    · rw [if_pos hall]
      have hprice : ∀ e ∈ anchor.prices.filter (fun e => e.2 > 0),
          (priceIn prices e.1).map (fun p => (e.2, p)) = some (e.2, (priceIn prices e.1).getD 0) := by
        intro e he
        obtain ⟨p, hp⟩ := Option.isSome_iff_exists.mp (hall e he)
        rw [hp]
        rfl
      have hmap : ((anchor.prices.filter fun e => e.2 > 0).filterMap fun e =>
          (priceIn prices e.1).map fun p => (e.2, p)) =
            (anchor.prices.filter fun e => e.2 > 0).map fun e => (e.2, (priceIn prices e.1).getD 0) :=
        (List.filterMap_congr hprice).trans (congrFun List.filterMap_eq_map _)
      rw [hmap, List.length_map, List.map_map] at hv
      rw [List.map_map]
      exact hv
    · refine absurd (List.filterMap_eq_nil_iff.mpr fun e he => ?_) hheld
      rw [hnone e he]
      rfl

/-! ## What touches the baseline -/

/-- The anchor and the snapshots are as they were. -/
def SameOverlay (before after : TradeStore) : Prop :=
  after.bhStart = before.bhStart ∧ after.snapshots = before.snapshots

theorem SameOverlay.refl (s : TradeStore) : SameOverlay s s := ⟨rfl, rfl⟩

theorem SameOverlay.trans {a b c : TradeStore} (h : SameOverlay a b) (h' : SameOverlay b c) :
    SameOverlay a c := ⟨h'.1.trans h.1, h'.2.trans h.2⟩

theorem closeStoreLot_overlay (store : TradeStore) (lot : OpenPosition) (fill : Fill)
    (why : ExitReason) : SameOverlay store (closeStoreLot store lot fill why) := by
  unfold closeStoreLot
  cases rowOf store lot with
  | none => exact SameOverlay.refl store
  | some row => exact ⟨rfl, rfl⟩

theorem manageOpenPositions_overlay (loop : TradingLoop) (px : PriceMap) :
    SameOverlay loop.store (loop.manageOpenPositions px).state.store := by
  refine Ran.loop_inv (P := fun l : TradingLoop => SameOverlay loop.store l.store)
    (fun l lot h => ?_) loop.broker.lots loop (SameOverlay.refl loop.store)
  rcases manageLot_cases px l lot with hsame | ⟨cur, why, broker, fill, history, -, -, hsettled⟩
  · rw [hsame]
    exact h
  · rw [hsettled]
    exact h.trans (closeStoreLot_overlay l.store lot fill why)

theorem enterTrade_overlay (px : PriceMap) (c : Candidate) (e : Entry) (s : CycleState) :
    SameOverlay s.loop.store (enterTrade px c e s).state.loop.store := by
  unfold enterTrade
  dsimp only
  split
  next => exact SameOverlay.refl _
  next =>
    split
    next => exact SameOverlay.refl _
    next => exact ⟨rfl, rfl⟩

theorem tradeSymbol_overlay (strategy : Strategy) (market : CachedMarket) (px : PriceMap)
    (s : CycleState) (sym : Ticker) :
    SameOverlay s.loop.store (tradeSymbol strategy market px s sym).state.loop.store := by
  unfold tradeSymbol
  split
  next => exact SameOverlay.refl _
  next klines sig =>
    unfold decideSymbol
    dsimp only
    split
    next => exact SameOverlay.refl _
    next =>
      split
      next => exact SameOverlay.refl _
      next => exact enterTrade_overlay px _ _ _

theorem recordDecisions_overlay (results : List CycleResult) (store : TradeStore) :
    SameOverlay store (results.foldl (fun st r => st.recordDecision r.toDecision) store) := by
  induction results generalizing store with
  | nil => exact SameOverlay.refl store
  | cons r results ih => exact SameOverlay.trans ⟨rfl, rfl⟩ (ih (store.recordDecision r.toDecision))

/-! ## The anchor -/

/-- The anchor a cycle with prices marks against is on file afterwards, and it is the one
that was there if there was one. -/
theorem ensureBhAnchor_spec (store : TradeStore) {prices : Prices} (hne : prices ≠ [])
    (hpriced : ∀ e ∈ prices, e.2 ≠ 0) (cash : ℚ) :
    (ensureBhAnchor store prices cash).1.bhStart = some (ensureBhAnchor store prices cash).2 ∧
      (ensureBhAnchor store prices cash).2.prices ≠ [] ∧
      (ensureBhAnchor store prices cash).1.snapshots = store.snapshots ∧
      ∀ a, store.bhStart = some a → a.prices ≠ [] → (ensureBhAnchor store prices cash).2 = a := by
  have hclean : cleanPrices prices ≠ [] := by
    have hall : prices.filter (fun e => e.2 ≠ 0) = prices :=
      List.filter_eq_self.mpr fun e he => decide_eq_true (hpriced e he)
    unfold cleanPrices
    dsimp only
    split
    next => rwa [hall]
    next hknown => exact hknown
  have hfresh : (freshBhAnchor store prices cash).1.bhStart =
      some (freshBhAnchor store prices cash).2 ∧ (freshBhAnchor store prices cash).2.prices ≠ [] ∧
        (freshBhAnchor store prices cash).1.snapshots = store.snapshots := by
    unfold freshBhAnchor
    dsimp only
    rw [if_neg hclean]
    exact ⟨rfl, hclean, rfl⟩
  unfold ensureBhAnchor
  split
  next hnone =>
    obtain ⟨hsaved, hprices, hsnapshots⟩ := hfresh
    refine ⟨hsaved, hprices, hsnapshots, fun a ha => ?_⟩
    rw [hnone] at ha
    cases ha
  next saved hsome =>
    split
    next hnil =>
      obtain ⟨hsaved, hprices, hsnapshots⟩ := hfresh
      refine ⟨hsaved, hprices, hsnapshots, fun a ha hne' => ?_⟩
      rw [hsome] at ha
      obtain rfl := Option.some.inj ha
      exact absurd hnil hne'
    next hprices =>
      refine ⟨hsome, hprices, rfl, fun a ha _ => ?_⟩
      exact Option.some.inj (hsome.symm.trans ha)

theorem ensureBhAnchor_congr {s t : TradeStore} (h : s.bhStart = t.bhStart) (prices : Prices)
    (cash : ℚ) : (ensureBhAnchor s prices cash).2 = (ensureBhAnchor t prices cash).2 := by
  have hfresh : (freshBhAnchor s prices cash).2 = (freshBhAnchor t prices cash).2 := by
    unfold freshBhAnchor
    dsimp only
    split <;> rfl
  unfold ensureBhAnchor
  rw [h]
  split
  next => exact hfresh
  next =>
    split
    next => exact hfresh
    next => rfl

/-! ## One step -/

/-- The prices a step has for a baseline. -/
def SymbolsStep.prices : SymbolsStep → Prices
  | .cycle _ market symbols _ => usablePrices market symbols
  | .heartbeat _ _ => []

/-- A cycle prices all of the portfolio or nothing of it. -/
def PricedTogether (files : AccountFiles) (step : SymbolsStep) : Prop :=
  AllOrNone (portfolioOf (anchorFor files step.prices)) step.prices

instance (files : AccountFiles) (step : SymbolsStep) : Decidable (PricedTogether files step) :=
  inferInstanceAs (Decidable (AllOrNone _ _))

/-- The anchor stays, and every baseline recorded is what the portfolio bought with it is
worth at the prices of the step. -/
structure OnePortfolio (files : AccountFiles) (step : SymbolsStep) : Prop where
  anchored : ∀ a, files.db.bhStart = some a → a.prices ≠ [] →
    (files.stepOver step).db.bhStart = some a
  recorded : ∃ new, (files.stepOver step).db.snapshots = files.db.snapshots ++ new ∧
    ∀ e ∈ new, ∀ v, e.2 = some v → ∃ a, (files.stepOver step).db.bhStart = some a ∧
      worth (portfolioOf a) step.prices = some v

/-- A step that only trades records no baseline. -/
theorem onePortfolio_of_same {files : AccountFiles} {step : SymbolsStep}
    (h : SameOverlay files.db (files.stepOver step).db) : OnePortfolio files step := by
  refine ⟨fun a ha _ => h.1.trans ha, [], ?_, fun e he => by cases he⟩
  rw [List.append_nil]
  exact h.2

theorem heartbeat_onePortfolio (files : AccountFiles) (px : PriceMap) (nextLot : ℕ) :
    OnePortfolio files (.heartbeat px nextLot) := by
  refine onePortfolio_of_same ?_
  have hpass : SameOverlay files.db
      ((buildFor files nextLot).manageOpenPositions px).state.store :=
    manageOpenPositions_overlay (buildFor files nextLot) px
  show SameOverlay files.db (heartbeatAccount px files nextLot).1.db
  unfold heartbeatAccount
  dsimp only
  split
  next => exact SameOverlay.refl _
  next =>
    split
    next => exact hpass
    next =>
      split
      next => exact hpass
      next => exact hpass

/-- What the end of a cycle does to the baseline, after a part that did not touch it. -/
theorem finishCycle_overlay {files : AccountFiles} (market : CachedMarket) (symbols : List Ticker)
    {s : CycleState} (h : SameOverlay files.db s.loop.store) :
    SameOverlay files.db (finishCycle market symbols s).state.loop.store ∨
      ∃ equity overlay, (finishCycle market symbols s).state.loop.store =
          overlay.1.snapshotEquity equity overlay.2 ∧
        ∃ store, SameOverlay files.db store ∧ overlay = overlayEquity store
          (symbols.filterMap fun sym => ((market.priceMap symbols).get sym).map fun p => (sym, p))
          PAPER_START_CASH := by
  have hrecorded := h.trans (recordDecisions_overlay s.results s.loop.store)
  unfold finishCycle
  dsimp only
  split
  next => exact Or.inl hrecorded
  next equity _ => exact Or.inr ⟨equity, _, rfl, _, hrecorded, rfl⟩

/-- What a cycle does to the baseline: nothing, or what its end does. -/
theorem runCycle_overlay (files : AccountFiles) (strategy : Strategy) (market : CachedMarket)
    (symbols : List Ticker) (nextLot : ℕ) :
    SameOverlay files.db
        (runCycle strategy market symbols (accountLoop files nextLot)).state.loop.store ∨
      ∃ s, SameOverlay files.db s.loop.store ∧
        runCycle strategy market symbols (accountLoop files nextLot) =
          finishCycle market symbols s := by
  have hmanaged : SameOverlay files.db
      ((accountLoop files nextLot).manageOpenPositions (market.priceMap symbols)).state.store :=
    manageOpenPositions_overlay (accountLoop files nextLot) (market.priceMap symbols)
  unfold runCycle
  dsimp only
  rcases Ran.andThen_cases
    (((accountLoop files nextLot).manageOpenPositions (market.priceMap symbols)).map
      fun l => ({ loop := l } : CycleState))
    (fun s => (Ran.loop (tradeSymbol strategy market (market.priceMap symbols)) s symbols).andThen
      (finishCycle market symbols)) with ⟨-, hraised⟩ | ⟨-, hmanage⟩
  · rw [hraised]
    exact Or.inl hmanaged
  · rw [hmanage]
    generalize hstart : (((accountLoop files nextLot).manageOpenPositions
      (market.priceMap symbols)).map fun l => ({ loop := l } : CycleState)).state = start
    have hbegin : SameOverlay files.db start.loop.store := by
      rw [← hstart]
      exact hmanaged
    have htraded : SameOverlay files.db
        (Ran.loop (tradeSymbol strategy market (market.priceMap symbols)) start
          symbols).state.loop.store :=
      Ran.loop_inv (P := fun s : CycleState => SameOverlay files.db s.loop.store)
        (fun s sym h => h.trans (tradeSymbol_overlay strategy market _ s sym)) symbols start hbegin
    rcases Ran.andThen_cases
      (Ran.loop (tradeSymbol strategy market (market.priceMap symbols)) start symbols)
      (finishCycle market symbols) with ⟨-, hraised⟩ | ⟨-, hfinish⟩
    · rw [hraised]
      exact Or.inl htraded
    · rw [hfinish]
      exact Or.inr ⟨_, htraded, rfl⟩

/-- The store a cycle leaves on disk. -/
theorem cycled_overlay (files : AccountFiles) (strategy : Strategy) (market : CachedMarket)
    (symbols : List Ticker) (nextLot : ℕ) :
    SameOverlay (runCycle strategy market symbols (accountLoop files nextLot)).state.loop.store
      (files.cycled strategy market symbols nextLot).db := by
  unfold AccountFiles.cycled
  dsimp only
  split
  next => exact ⟨rfl, rfl⟩
  next => exact ⟨rfl, rfl⟩

theorem cycle_onePortfolio {files : AccountFiles} {strategy : Strategy} {market : CachedMarket}
    {symbols : List Ticker} {nextLot : ℕ}
    (h : PricedTogether files (.cycle strategy market symbols nextLot)) :
    OnePortfolio files (.cycle strategy market symbols nextLot) := by
  have hdisk := cycled_overlay files strategy market symbols nextLot
  rcases runCycle_overlay files strategy market symbols nextLot with hsame | ⟨s, hs, hrun⟩
  · exact onePortfolio_of_same (hsame.trans hdisk)
  rw [hrun] at hdisk
  rcases finishCycle_overlay market symbols hs with hsame |
    ⟨equity, overlay, hstore, store, hbefore, hoverlay⟩
  · exact onePortfolio_of_same (hsame.trans hdisk)
  rw [hstore] at hdisk
  obtain ⟨hstart, hsnapshots⟩ := hdisk
  have hstart : (files.stepOver (.cycle strategy market symbols nextLot)).db.bhStart =
      overlay.1.bhStart := hstart
  have hsnapshots : (files.stepOver (.cycle strategy market symbols nextLot)).db.snapshots =
      overlay.1.snapshots ++ [(equity, overlay.2)] := hsnapshots
  have hoverlay : overlay = if usablePrices market symbols = [] then (store, none)
      else ((ensureBhAnchor store (usablePrices market symbols) PAPER_START_CASH).1,
        markOf (ensureBhAnchor store (usablePrices market symbols) PAPER_START_CASH).2
          (usablePrices market symbols)) := hoverlay
  by_cases hnone : usablePrices market symbols = []
  · -- nothing is priced: no mark, and the anchor is not touched
    rw [if_pos hnone] at hoverlay
    rw [hoverlay] at hstart hsnapshots
    refine ⟨fun a ha _ => (hstart.trans hbefore.1).trans ha, [(equity, none)], ?_, ?_⟩
    · rw [hsnapshots, hbefore.2]
    · intro e he v hv
      rw [List.mem_singleton.mp he] at hv
      cases hv
  · rw [if_neg hnone] at hoverlay
    obtain ⟨hsaved, -, hkept, hold⟩ := ensureBhAnchor_spec store hnone
      (fun e he => of_decide_eq_true (List.mem_filter.mp he).2) PAPER_START_CASH
    have hanchor : anchorFor files (usablePrices market symbols) =
        (ensureBhAnchor store (usablePrices market symbols) PAPER_START_CASH).2 :=
      ensureBhAnchor_congr hbefore.1.symm _ _
    have hfile : (files.stepOver (.cycle strategy market symbols nextLot)).db.bhStart =
        some (anchorFor files (usablePrices market symbols)) := by
      rw [hstart, hoverlay, hanchor]
      exact hsaved
    refine ⟨fun a ha hne => ?_, [(equity, overlay.2)], ?_, fun e he v hv => ?_⟩
    · rw [hfile, hanchor, hold a (hbefore.1.trans ha) hne]
    · rw [hsnapshots]
      congr 1
      rw [hoverlay]
      exact hkept.trans hbefore.2
    · rw [List.mem_singleton.mp he] at hv
      have hmark : markOf (anchorFor files (usablePrices market symbols))
          (usablePrices market symbols) = some v := by
        rw [hanchor, ← hv, hoverlay]
      exact ⟨_, hfile, markOf_eq h hmark⟩

/-! ## Every run -/

/-- In a run of an account where no cycle prices some of what is held and not the rest,
every baseline recorded is the worth, at the prices of its cycle, of the one portfolio
bought when the anchor was saved. -/
theorem baselines_of_priced (files : AccountFiles) (steps : List SymbolsStep)
    (h : Along AccountFiles.stepOver PricedTogether files steps) :
    Along AccountFiles.stepOver OnePortfolio files steps := by
  refine along_of_inv (I := fun _ => True) (C := PricedTogether) (fun files step _ hpriced => ?_)
    steps trivial h
  refine ⟨?_, trivial⟩
  cases step with
  | cycle strategy market symbols nextLot => exact cycle_onePortfolio hpriced
  | heartbeat px nextLot => exact heartbeat_onePortfolio files px nextLot

/-- A market without klines, with these prices. -/
def quoted (prices : Prices) : CachedMarket where
  prices := fun s => prices.lookup s
  klines := fun _ => []

/-- A cycle over both symbols of the tape. -/
def bothQuoted (prices : Prices) : SymbolsStep :=
  .cycle dipOneBar (quoted prices) QUAL_SYMBOLS 1

/-- Both symbols are priced in every cycle that prices one, and a heartbeat is between. -/
theorem baselines_of_priced_both :
    Along AccountFiles.stepOver OnePortfolio .fresh
      [bothQuoted [("BTC/USDT", 100), ("ETH/USDT", 100)], .heartbeat (fun _ => none) 1,
        bothQuoted [], bothQuoted [("BTC/USDT", 200), ("ETH/USDT", 50)]] :=
  baselines_of_priced _ _ (by decide +kernel)

/-- Bought at 100 each; in the next cycle only one symbol is priced, at 200, and the baseline
is the whole cash in that one. -/
theorem unpriced_symbol_resplits :
    ¬ Along AccountFiles.stepOver OnePortfolio .fresh
      [bothQuoted [("BTC/USDT", 100), ("ETH/USDT", 100)], bothQuoted [("BTC/USDT", 200)]] := by
  rintro ⟨-, ⟨-, new, hnew, hworth⟩, -⟩
  have hbefore : (AccountFiles.fresh.stepOver
      (bothQuoted [("BTC/USDT", 100), ("ETH/USDT", 100)])).db.snapshots =
        [(10000, some (50000000000 / 5006001))] := by decide +kernel
  have hafter : ((AccountFiles.fresh.stepOver
      (bothQuoted [("BTC/USDT", 100), ("ETH/USDT", 100)])).stepOver
        (bothQuoted [("BTC/USDT", 200)])).db.snapshots =
        [(10000, some (50000000000 / 5006001)), (10000, some (100000000000 / 5006001))] := by
    decide +kernel
  have hstart : ((AccountFiles.fresh.stepOver
      (bothQuoted [("BTC/USDT", 100), ("ETH/USDT", 100)])).stepOver
        (bothQuoted [("BTC/USDT", 200)])).db.bhStart =
        some ⟨10000, [("BTC/USDT", 100), ("ETH/USDT", 100)]⟩ := by decide +kernel
  have hunworth : worth (portfolioOf ⟨10000, [("BTC/USDT", 100), ("ETH/USDT", 100)]⟩)
      (bothQuoted [("BTC/USDT", 200)]).prices = none := by decide +kernel
  rw [hbefore, hafter] at hnew
  obtain rfl := (List.cons_inj_right _).mp hnew
  obtain ⟨a, ha, hv⟩ := hworth _ (List.mem_singleton_self _) _ rfl
  obtain rfl := Option.some.inj (hstart.symm.trans ha)
  rw [hunworth] at hv
  cases hv

end PaperTrading.Trading
