import PaperTrading.Trading.InStep

/-!
# What the calibration file learns

A close records its outcome in the calibration store in memory; only
`runCycle` writes that store to the file. `Learned` is the law of one step: for
every key, the counts in the file move by the lots that left the saved book,
each once, under the key it was entered with.

`learned_run` proves it for every sequence of decision cycles and heartbeats in
which each cycle closes the right lots and no heartbeat closes any. A heartbeat
that saves a close loses its outcome (`heartbeat_forgets`).
-/

namespace PaperTrading.Trading

open Broker Risk Calibration PaperTrading.Lib

/-- What a lot of this ticker sells at, after slippage. -/
def soldAt (px : PriceMap) (t : Ticker) : ℚ := ((px.get t).getD 0) * (1 - SLIPPAGE)

/-- The outcomes to learn from lots closed at these prices: the key each was
entered under, and whether it sold above its entry. -/
def outcomes (px : PriceMap) (lots : List OpenPosition) : List (String × Bool) :=
  lots.map fun lot => (outcomeKey lot, decide (soldAt px lot.ticker > lot.entryPrice))

/-- The lots whose id left the saved book in a step. -/
def closedLots (files : AccountFiles) (step : AccountStep) : List OpenPosition :=
  (openLots files).filter fun lot =>
    lot.lotId ∉ (openLots (files.step step)).map fun p : OpenPosition => p.lotId

/-- The file counts every lot the step closed exactly once. -/
def Learned (files : AccountFiles) (step : AccountStep) : Prop :=
  ∀ key,
    ((files.step step).calibration.bins.at key).alpha = (files.calibration.bins.at key).alpha +
      (outcomes (stepPrices step) (closedLots files step)).count (key, true) ∧
    ((files.step step).calibration.bins.at key).beta = (files.calibration.bins.at key).beta +
      (outcomes (stepPrices step) (closedLots files step)).count (key, false)

/-- A cycle closes the right lots; a heartbeat has none to save. -/
def LearnSafe (files : AccountFiles) : AccountStep → Prop
  | .cycle _ market _ => CrossedFirst (cyclePrices market) (openLots files)
  | .heartbeat prices _ => ¬ HeartbeatSaves (heartbeatPrices prices) (openLots files)

/-! ## Learning a list of outcomes -/

/-- The bin of `key` after these outcomes. -/
def learn (key : String) (b : BinState) (os : List (String × Bool)) : BinState :=
  os.foldl (fun b o => if o.1 = key then b.record o.2 else b) b

theorem learn_cons (key : String) (b : BinState) (o : String × Bool)
    (os : List (String × Bool)) :
    learn key b (o :: os) = learn key (if o.1 = key then b.record o.2 else b) os := rfl

theorem learn_counts (key : String) (os : List (String × Bool)) (b : BinState) :
    (learn key b os).alpha = b.alpha + os.count (key, true) ∧
    (learn key b os).beta = b.beta + os.count (key, false) := by
  induction os generalizing b with
  | nil => simp [learn]
  | cons o os ih =>
    obtain ⟨k, success⟩ := o
    rw [learn_cons, (ih _).1, (ih _).2]
    by_cases hk : k = key
    · subst hk
      cases success <;> simp [BinState.record, add_assoc, add_comm]
    · simp [hk]

theorem saved_learn {key : String} {b : BinState} (h : b.saved = b)
    (os : List (String × Bool)) : (learn key b os).saved = learn key b os := by
  induction os generalizing b with
  | nil => exact h
  | cons o os ih =>
    rw [learn_cons]
    apply ih
    split
    · exact BinState.saved_record h o.2
    · exact h

theorem recordOutcome_at (c : CalibrationStore) (key k : String) (s : Bool) :
    (c.recordOutcome k s).bins.at key =
      if k = key then (c.bins.at key).record s else c.bins.at key := by
  split
  · next h =>
    subst h
    exact c.recordOutcome_at_self k s
  · next h => exact c.recordOutcome_at_ne s (Ne.symm h)

theorem success_eq (why : ExitReason) (entry exit : ℚ) :
    why.success entry exit = decide (exit > entry) := by
  cases why <;> simp [ExitReason.success]

/-! ## The exit pass of a cycle -/

/-- A pass that goes right records every crossed lot once. -/
theorem manage_learns (px : PriceMap) (loop : TradingLoop)
    (hslippage : loop.broker.slippage = SLIPPAGE)
    (hfirst : CrossedFirst px loop.broker.lots)
    (hpriced : crossedLots px loop.broker.lots = [] ∨
      ∀ lot ∈ loop.broker.lots, ¬ Unpriced px lot) :
    let pass := loop.manageOpenPositions px
    pass.Returns ∧ pass.state.broker.lots = uncrossedLots px loop.broker.lots ∧
    ∀ key, pass.state.calib.bins.at key =
      learn key (loop.calib.bins.at key) (outcomes px (crossedLots px loop.broker.lots)) := by
  -- What is recorded so far and what is to come make up what the whole pass records.
  obtain ⟨hret, hlots, -, hlearn⟩ := manage_rule
    (P := fun l rest => l.broker.slippage = SLIPPAGE ∧ ∀ key,
      learn key (l.calib.bins.at key) (outcomes px (crossedLots px rest)) =
        learn key (loop.calib.bins.at key) (outcomes px (crossedLots px loop.broker.lots)))
    (by
      intro l lot rest ⟨hs, h⟩ hc
      rw [crossedLots_cons_false rest (by simp [crossed, hc])] at h
      exact ⟨hs, h⟩)
    (by
      intro l kept lot rest cur why history ⟨hs, h⟩ hc hl
      refine ⟨hs, fun key => ?_⟩
      rw [← h key, crossedLots_cons_true rest (by simp [crossed, hc])]
      have hsold : soldAt px lot.ticker = (l.broker.closeFill lot cur).price := by
        unfold soldAt
        rw [crossing_get hc, Option.getD_some, ← hs]
        rfl
      show learn key ((l.calib.recordOutcome (outcomeKey lot)
        (why.success lot.entryPrice (l.broker.closeFill lot cur).price)).bins.at key) _ = _
      rw [recordOutcome_at, success_eq, ← hsold]
      rfl)
    loop hfirst hpriced ⟨hslippage, fun _ => rfl⟩
  exact ⟨hret, hlots, hlearn⟩

/-- In a cycle only the traded symbol has a price, so a lot is crossed only if
no lot is unpriced. -/
theorem cycle_priced (market : CachedMarket) (lots : List OpenPosition) :
    crossedLots (cyclePrices market) lots = [] ∨
      ∀ lot ∈ lots, ¬ Unpriced (cyclePrices market) lot := by
  by_cases hun : ∀ lot ∈ lots, ¬ Unpriced (cyclePrices market) lot
  · exact Or.inr hun
  · refine Or.inl (List.filter_eq_nil_iff.mpr fun lot _ hc => ?_)
    push Not at hun
    obtain ⟨other, -, hother⟩ := hun
    have htraded : ∀ t, cyclePrices market t =
        if t = TRADE_SYMBOL then some (market.fetchPrice t).toOption else none := by
      intro t
      unfold cyclePrices CachedMarket.priceMap TRADE_SYMBOLS TRADE_SYMBOL
      simp only [List.mem_singleton]
    have hnone : (market.fetchPrice TRADE_SYMBOL).toOption = none := by
      unfold Unpriced at hother
      rw [htraded] at hother
      split at hother
      · next h =>
        rw [h] at hother
        exact Option.some.inj hother
      · cases hother
    obtain ⟨⟨cur, why⟩, hcross⟩ := Option.isSome_iff_exists.mp hc
    have hget := crossing_get hcross
    unfold PriceMap.get at hget
    rw [htraded] at hget
    split at hget
    · next h =>
      rw [h, hnone] at hget
      cases hget
    · cases hget

/-! ## The steps -/

/-- The law holds of a step that changes neither the saved state nor the
file. -/
theorem learned_of_unchanged {files : AccountFiles} {step : AccountStep}
    (haccount : (files.step step).db.account = files.db.account)
    (hfile : (files.step step).calibration = files.calibration) : Learned files step := by
  have hnone : closedLots files step = [] := by
    unfold closedLots
    rw [openLots_congr haccount]
    refine List.filter_eq_nil_iff.mpr fun lot hlot hno => ?_
    exact of_decide_eq_true hno (List.mem_map_of_mem hlot)
  intro key
  rw [hnone, hfile]
  simp [outcomes]

/-- The lots that left the book of a cycle that returned are the crossed
ones. -/
theorem closedLots_cycle {files : AccountFiles} (hbook : KeptBook files)
    {px : PriceMap} {after : PaperBroker} {d : Option (Candidate × Entry)} {step : AccountStep}
    (hafter : after.lots = uncrossedLots px (openLots files))
    (hfresh : ∀ lot ∈ openLots files, lot.lotId < after.nextLot)
    (hstep : openLots (files.step step) = (brokerAfter after d).lots) :
    closedLots files step = crossedLots px (openLots files) := by
  unfold closedLots crossedLots
  rw [hstep]
  refine List.filter_congr fun lot hlot => ?_
  have hkept : lot.lotId ∈ (uncrossedLots px (openLots files)).map (fun p => p.lotId) ↔
      crossed px lot = false := by
    constructor
    · intro h
      obtain ⟨q, hq, hid⟩ := List.mem_map.mp h
      obtain ⟨hqm, hqc⟩ := List.mem_filter.mp hq
      rw [← List.inj_on_of_nodup_map hbook.distinct hqm hlot hid]
      simpa using hqc
    · intro h
      exact List.mem_map_of_mem (List.mem_filter.mpr ⟨hlot, by simpa using h⟩)
  have hmem : lot.lotId ∈ (brokerAfter after d).lots.map (fun p : OpenPosition => p.lotId) ↔
      crossed px lot = false := by
    rw [← hkept, ← hafter]
    cases d with
    | none => exact Iff.rfl
    | some ce =>
      obtain ⟨c, e⟩ := ce
      have hne : lot.lotId ≠ after.nextLot := Nat.ne_of_lt (hfresh lot hlot)
      show lot.lotId ∈ (after.lots ++ [after.boughtLot _ _ _]).map _ ↔ _
      rw [List.map_append, List.mem_append]
      simp [PaperBroker.boughtLot, hne]
  rw [Bool.eq_iff_iff, decide_eq_true_iff, hmem]
  simp

theorem learned_cycle {files : AccountFiles} (hbook : KeptBook files) (strategy : Strategy)
    (market : CachedMarket) (nextLot : ℕ)
    (hfirst : CrossedFirst (cyclePrices market) (openLots files)) :
    Learned files (.cycle strategy market nextLot) := by
  have hlots : (accountLoop files nextLot).broker.lots = openLots files := hbook.restored nextLot
  have hframe := manageOpenPositions_frame (accountLoop files nextLot) (cyclePrices market)
  have hpass := manage_learns (cyclePrices market) (accountLoop files nextLot)
    (restoredBroker_fees files.db.account nextLot).2 (by rw [hlots]; exact hfirst)
    (cycle_priced market _)
  dsimp only at hpass
  rw [hlots] at hpass
  obtain ⟨-, hleft, hlearn⟩ := hpass
  rcases runOneAccount_spec strategy market files nextLot with
    ⟨-, -, haccount, hfile, -, -⟩ | ⟨-, -, -, finish, hend, hsaved, hfiles, -⟩
  · exact learned_of_unchanged haccount hfile
  · have hclosed : closedLots files (.cycle strategy market nextLot) =
        crossedLots (cyclePrices market) (openLots files) := by
      refine closedLots_cycle hbook hleft ?_ (d := decision strategy market
        ((accountLoop files nextLot).manageOpenPositions (cyclePrices market)).state) ?_
      · intro lot hlot
        rw [hframe.nextLot]
        rw [← hlots] at hlot
        exact restoredBroker_fresh files nextLot lot hlot
      · show openLots (runOneAccount strategy market files nextLot).state.files = _
        rw [hfiles, openLots_saved, hend.broker]
    intro key
    have hbin : (files.step (.cycle strategy market nextLot)).calibration.bins.at key =
        learn key (files.calibration.bins.at key)
          (outcomes (cyclePrices market) (crossedLots (cyclePrices market) (openLots files))) := by
      show (runOneAccount strategy market files nextLot).state.files.calibration.bins.at key = _
      rw [hfiles]
      show finish.calib.file.bins.at key = _
      rw [hsaved, CalibrationStore.toFile_at, hend.learned, hlearn]
      exact saved_learn (files.calibration.saved_at key) _
    rw [hbin, hclosed]
    exact learn_counts key _ _

/-- **Learning.** In every sequence of decision cycles and heartbeats in which
each cycle closes the right lots and no heartbeat saves a close, the file
counts every lot that is closed exactly once, under its own key. -/
theorem learned_run {files : AccountFiles} (hbook : KeptBook files) (steps : List AccountStep)
    (hsafe : Along AccountFiles.step LearnSafe files steps) :
    Along AccountFiles.step Learned files steps := by
  refine along_of_inv (I := KeptBook) ?_ steps hbook hsafe
  intro files step hbook hsafe
  refine ⟨?_, keptBook_step hbook step⟩
  cases step with
  | cycle strategy market nextLot => exact learned_cycle hbook strategy market nextLot hsafe
  | heartbeat prices nextLot =>
    have hframe := manageOpenPositions_frame (buildFor files nextLot) (heartbeatPrices prices)
    have hsafe : ¬ HeartbeatSaves (heartbeatPrices prices) (openLots files) := hsafe
    rw [← hbook.restored nextLot] at hsafe
    rcases heartbeatAccount_spec (heartbeatPrices prices) files nextLot with
      ⟨hsaves, -, -⟩ | ⟨-, hfiles⟩
    · exact absurd hsaves hsafe
    · refine learned_of_unchanged ?_ ?_
      · show (heartbeatAccount (heartbeatPrices prices) files nextLot).1.db.account = _
        rw [hfiles]
        exact hframe.account
      · show (heartbeatAccount (heartbeatPrices prices) files nextLot).1.calibration = _
        rw [hfiles]
        exact hframe.file

/-- A fresh account buys at 100 and a cycle at 90 stops it out. -/
theorem learned_run_fresh :
    Along AccountFiles.step Learned AccountFiles.fresh
      [.cycle dipOneBar (twoBars 102 100) 1, .heartbeat (fun _ => some 99) 1,
        .cycle dipOneBar (twoBars 100 90) 1] := by
  refine learned_run keptBook_fresh _ ⟨?_, ?_, ?_, trivial⟩
  · show CrossedFirst _ _
    decide +kernel
  · show ¬ (_ ∧ _)
    decide +kernel
  · show CrossedFirst _ _
    decide +kernel

/-- A fresh account buys at 100 and a heartbeat at 90 stops it out: the lot
leaves the book and the file never hears of it. -/
theorem heartbeat_forgets :
    ¬ Along AccountFiles.step Learned AccountFiles.fresh
      [.cycle dipOneBar (twoBars 102 100) 1, .heartbeat (fun _ => some 90) 1] := by
  rintro ⟨-, h, -⟩
  exact absurd (h "BTC/USDT|5m|dip_1b_lt1pc_long").2 (by decide +kernel)

end PaperTrading.Trading
