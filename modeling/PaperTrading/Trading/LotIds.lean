import PaperTrading.Trading.Breaker

/-!
# How fast lot ids grow

The lot counter is a class attribute: it starts at 1 in every process and all
accounts of the process share it. `restore_state` means to keep it ahead of the
restored lots and advances it by the largest restored id; it also moves it once
for every lot, whose id is looked up with a default that takes the next one.

`ids_bounded_iff` says when the ids stay at most the number of lots opened:
exactly when, at every visit that opens a lot, what the restores of the process
have added to the counter is at most the number of lots opened before the
process began.
-/

namespace PaperTrading.Trading

open Broker Risk Calibration PaperTrading.Lib

/-- All accounts, and the process that is running its cycle over them. -/
structure Fleet where
  accounts : String → AccountFiles := fun _ => .fresh
  /-- the class attribute `_next_lot` of the process -/
  counter : ℕ := 1
  /-- the process has not died of an exception -/
  alive : Bool := true
  /-- lots opened so far, in all accounts -/
  opened : ℕ := 0
  /-- lots opened when the process started -/
  openedBefore : ℕ := 0
  /-- what the restores of the process added to the counter -/
  restored : ℕ := 0

inductive FleetStep where
  | start
  | visit (account : String) (strategy : Strategy) (market : CachedMarket)

/-- The lots a visit restores. -/
def restoredLots (files : AccountFiles) (counter : ℕ) : List OpenPosition :=
  (restoredBroker files.db.account counter).lots

/-- How far a restore moves the counter. -/
def restoreCost (files : AccountFiles) (counter : ℕ) : ℕ :=
  (restoredLots files counter).length + maxLotId (restoredLots files counter)

/-- The lot ids in the rows a visit added. -/
def newIds (before after : TradeStore) : List ℕ :=
  (after.trades.drop before.trades.length).filterMap (·.lotId)

/-- A process that is still running visits an account. -/
def Fleet.visited (w : Fleet) (account : String) (strategy : Strategy)
    (market : CachedMarket) : Fleet :=
  let files := w.accounts account
  let r := runOneAccount strategy market files w.counter
  { w with
    accounts := fun a => if a = account then r.state.files else w.accounts a
    counter := r.state.nextLot
    alive := decide r.Returns
    opened := w.opened + (newIds files.db r.state.files.db).length
    restored := w.restored + restoreCost files w.counter }

/-- What a process does next: start anew, or visit an account. An exception
ends it. -/
def Fleet.step (w : Fleet) : FleetStep → Fleet
  | .start =>
    { w with counter := 1, alive := true, openedBefore := w.opened, restored := 0 }
  | .visit account strategy market =>
    if w.alive then w.visited account strategy market else w

theorem Fleet.step_visit {w : Fleet} (h : w.alive = true) (account : String)
    (strategy : Strategy) (market : CachedMarket) :
    w.step (.visit account strategy market) = w.visited account strategy market :=
  if_pos h

/-- A visit keeps ids in step with the lots: an id it assigns is at most the
number of lots opened so far, and so is the number of turns of the loop in
`restore_state`. -/
def IdsBounded (w : Fleet) : FleetStep → Prop
  | .start => True
  | .visit account strategy market => w.alive = true →
      (∀ id ∈ newIds (w.accounts account).db
          (runOneAccount strategy market (w.accounts account) w.counter).state.files.db,
        id ≤ (w.step (.visit account strategy market)).opened) ∧
      maxLotId (restoredLots (w.accounts account) w.counter) ≤ w.opened

/-- If the visit can enter, the restores of the process so far, this one
included, have added at most the number of lots opened before the process. -/
def RestoresSmall (w : Fleet) : FleetStep → Prop
  | .start => True
  | .visit account strategy market => w.alive = true →
      CanEnter (w.accounts account) ⟨strategy, market, w.counter⟩ →
      w.restored + restoreCost (w.accounts account) w.counter ≤ w.openedBefore

/-! ## What a visit does to ids -/

theorem le_maxLotId {lots : List OpenPosition} {lot : OpenPosition} (h : lot ∈ lots) :
    lot.lotId ≤ maxLotId lots := by
  unfold maxLotId
  induction lots with
  | nil => cases h
  | cons p ps ih =>
    rcases List.mem_cons.mp h with rfl | h
    · exact le_max_left _ _
    · exact le_trans (ih h) (le_max_right _ _)

theorem maxLotId_le {lots : List OpenPosition} {n : ℕ} (h : ∀ lot ∈ lots, lot.lotId ≤ n) :
    maxLotId lots ≤ n := by
  unfold maxLotId
  induction lots with
  | nil => exact Nat.zero_le _
  | cons p ps ih =>
    exact max_le (h p List.mem_cons_self) (ih fun lot hl => h lot (List.mem_cons_of_mem _ hl))

/-- Where the counter stands after the restore of a visit. -/
theorem restoredBroker_nextLot (saved : Option AccountState) (counter : ℕ) :
    (restoredBroker saved counter).nextLot =
      counter + (restoredBroker saved counter).lots.length +
        maxLotId (restoredBroker saved counter).lots := by
  cases saved with
  | none => rfl
  | some st =>
    show _ + _ + _ = _ + (restoreLots _ _).length + _
    rw [length_restoreLots]
    rfl

/-- The ids in an account's saved state are all there and at most `n`. -/
def SavedIds (files : AccountFiles) (n : ℕ) : Prop :=
  ∀ st, files.db.account = some st → ∀ bs, st.broker = some bs →
    ∀ p ∈ bs.openLots, ∃ id, p.lotId = some id ∧ id ≤ n

theorem SavedIds.mono {files : AccountFiles} {n m : ℕ} (h : SavedIds files n) (hle : n ≤ m) :
    SavedIds files m := by
  intro st hst bs hbs p hp
  obtain ⟨id, hid, hn⟩ := h st hst bs hbs p hp
  exact ⟨id, hid, le_trans hn hle⟩

/-- A lot restored from a state that has its id keeps that id. -/
theorem restoredLots_le {files : AccountFiles} {n : ℕ} (h : SavedIds files n) (counter : ℕ) :
    ∀ lot ∈ restoredLots files counter, lot.lotId ≤ n := by
  have hrestore : ∀ (ps : List LotState) k,
      (∀ p ∈ ps, ∃ id, p.lotId = some id ∧ id ≤ n) →
      ∀ lot ∈ restoreLots k ps, lot.lotId ≤ n := by
    intro ps
    induction ps with
    | nil => intro k _ lot hlot; cases hlot
    | cons p ps ih =>
      intro k hps lot hlot
      rw [List.forall_mem_cons] at hps
      rcases List.mem_cons.mp hlot with rfl | hlot
      · obtain ⟨id, hid, hn⟩ := hps.1
        show (p.lotId.getD k) ≤ n
        rw [hid]
        exact hn
      · exact ih (k + 1) hps.2 lot hlot
  unfold restoredLots restoredBroker
  cases hst : files.db.account with
  | none => intro lot hlot; cases hlot
  | some st =>
    refine hrestore _ _ ?_
    cases hbs : st.broker with
    | none => intro p hp; cases hp
    | some bs => exact h st hst bs hbs

/-- The lots a loop saves are restored with the ids they had. -/
theorem savedIds_saved {loop : TradingLoop} {n : ℕ} (h : ∀ lot ∈ loop.broker.lots, lot.lotId ≤ n) :
    SavedIds loop.saved n := by
  intro st hst bs hbs p hp
  cases hst
  cases hbs
  rw [PaperBroker.openLots_toState] at hp
  obtain ⟨lot, hlot, rfl⟩ := List.mem_map.mp hp
  exact ⟨lot.lotId, rfl, h lot hlot⟩

/-- A visit assigns at most one id, the one the counter stands at after the
restore, and does so exactly when it can enter; ids at most `n` stay so. -/
theorem visit_spec (strategy : Strategy) (market : CachedMarket) (files : AccountFiles)
    (counter n : ℕ) (hn : SavedIds files n) :
    let r := runOneAccount strategy market files counter
    let fresh := (restoredBroker files.db.account counter).nextLot
    (¬ CanEnter files ⟨strategy, market, counter⟩ ∧ newIds files.db r.state.files.db = [] ∧
      r.state.nextLot = fresh ∧ SavedIds r.state.files n) ∨
    (CanEnter files ⟨strategy, market, counter⟩ ∧ newIds files.db r.state.files.db = [fresh] ∧
      r.state.nextLot = fresh + 1 ∧ (fresh ≤ n + 1 → SavedIds r.state.files (n + 1))) := by
  dsimp only
  have hopens := cycleOpens_iff files ⟨strategy, market, counter⟩
  have hframe := manageOpenPositions_frame (accountLoop files counter) (cyclePrices market)
  have hrows : ((accountLoop files counter).manageOpenPositions
      (cyclePrices market)).state.store.trades.length = files.db.trades.length := hframe.rows
  -- the lots left by the exit pass were restored
  have hids : ∀ lot ∈ ((accountLoop files counter).manageOpenPositions
      (cyclePrices market)).state.broker.lots, lot.lotId ≤ n := by
    intro lot hlot
    obtain ⟨q, hq, heq⟩ := List.mem_map.mp ((manageOpenPositions_ids _ _).subset
      (List.mem_map_of_mem hlot))
    rw [← heq]
    exact restoredLots_le hn counter q hq
  unfold CycleOpens at hopens
  dsimp only at hopens
  rcases runOneAccount_spec strategy market files counter with
    ⟨-, -, haccount, -, htrades, hnext⟩ | ⟨-, -, -, finish, hend, -, hfiles, hnext⟩
  -- the cycle raised: no row is opened, and what is saved stays
  · rw [htrades, hrows] at hopens
    refine Or.inl ⟨fun h => absurd (hopens.mpr h) (lt_irrefl _), ?_, hnext, ?_⟩
    · unfold newIds
      rw [htrades, List.drop_eq_nil_of_le (le_of_eq hrows)]
      rfl
    · intro st hst
      rw [haccount] at hst
      exact hn st hst
  · rw [hfiles] at hopens ⊢
    have htrades : finish.saved.db.trades = _ := hend.trades
    unfold newIds
    rw [hnext, htrades]
    rw [htrades] at hopens
    cases hd : decision strategy market ((accountLoop files counter).manageOpenPositions
        (cyclePrices market)).state with
    | none =>
      rw [hd] at hend hopens
      rw [tradesAfter_none, hrows] at hopens
      have hbroker := hend.broker
      rw [brokerAfter_none] at hbroker
      refine Or.inl ⟨fun h => absurd (hopens.mpr h) (lt_irrefl _), ?_, ?_, ?_⟩
      · rw [tradesAfter_none, List.drop_eq_nil_of_le (le_of_eq hrows)]
        rfl
      · rw [hbroker, hframe.nextLot]
        rfl
      · exact savedIds_saved (by rw [hbroker]; exact hids)
    | some ce =>
      obtain ⟨c, e⟩ := ce
      rw [hd] at hend hopens
      -- one row and one lot, with the id the counter stood at
      have hbroker : finish.broker = bought _ c e := hend.broker
      refine Or.inr ⟨hopens.mp ?_, ?_, ?_, ?_⟩
      · show _ < (_ ++ [_] : List TradeRow).length
        rw [List.length_append, hrows]
        exact Nat.lt_succ_self _
      · show ((_ ++ [entryRow _ _ c e] : List TradeRow).drop _).filterMap _ = _
        rw [← hrows, List.drop_left]
        show [_] = _
        rw [hframe.nextLot]
        rfl
      · rw [hbroker]
        show _ + 1 = _
        rw [hframe.nextLot]
        rfl
      · intro hfresh
        refine savedIds_saved ?_
        rw [hbroker]
        intro lot hlot
        rcases List.mem_append.mp hlot with h | h
        · exact le_trans (hids lot h) (Nat.le_succ n)
        · obtain rfl := List.mem_singleton.mp h
          show PaperBroker.nextLot _ ≤ _
          rw [hframe.nextLot]
          exact hfresh

/-! ## Runs of processes -/

/-- Every saved id is at most the number of lots opened, and the counter is
what the process's restores and its own lots have moved it to. -/
structure FleetInv (w : Fleet) : Prop where
  saved : ∀ a, SavedIds (w.accounts a) w.opened
  before : w.openedBefore ≤ w.opened
  counter : w.alive = true → w.counter + w.openedBefore = 1 + w.restored + w.opened

theorem idsBounded_iff {w : Fleet} (hw : FleetInv w) (step : FleetStep) :
    IdsBounded w step ↔ RestoresSmall w step := by
  cases step with
  | start => exact Iff.rfl
  | visit account strategy market =>
    unfold IdsBounded RestoresSmall
    refine forall_congr' fun halive => ?_
    have hmax := maxLotId_le (restoredLots_le (hw.saved account) w.counter)
    have hcounter := hw.counter halive
    have hfresh := restoredBroker_nextLot (w.accounts account).db.account w.counter
    have hcost : restoreCost (w.accounts account) w.counter =
        (restoredBroker (w.accounts account).db.account w.counter).lots.length +
          maxLotId (restoredBroker (w.accounts account).db.account w.counter).lots := rfl
    rw [Fleet.step_visit halive]
    unfold Fleet.visited
    rcases visit_spec strategy market (w.accounts account) w.counter w.opened
        (hw.saved account) with ⟨hno, hnew, -, -⟩ | ⟨hyes, hnew, -, -⟩
    · simp only [hnew, List.not_mem_nil, false_imp_iff, implies_true, true_and]
      exact ⟨fun _ h => absurd h hno, fun _ => hmax⟩
    · simp only [hnew, List.mem_singleton, forall_eq, List.length_singleton]
      rw [hfresh]
      constructor
      · rintro ⟨hle, -⟩ -
        omega
      · intro hsmall
        have := hsmall hyes
        exact ⟨by omega, hmax⟩

theorem fleetInv_step {w : Fleet} (hw : FleetInv w) (step : FleetStep)
    (hsmall : RestoresSmall w step) : FleetInv (w.step step) := by
  cases step with
  | start => exact ⟨hw.saved, le_refl _, fun _ => Nat.add_right_comm 1 0 w.opened ▸ rfl⟩
  | visit account strategy market =>
    by_cases halive : w.alive = true
    · rw [Fleet.step_visit halive]
      unfold Fleet.visited
      have hcounter := hw.counter halive
      have hfresh := restoredBroker_nextLot (w.accounts account).db.account w.counter
      have hcost : restoreCost (w.accounts account) w.counter =
          (restoredBroker (w.accounts account).db.account w.counter).lots.length +
            maxLotId (restoredBroker (w.accounts account).db.account w.counter).lots := rfl
      have hothers : ∀ n, w.opened ≤ n →
          SavedIds (runOneAccount strategy market (w.accounts account) w.counter).state.files n →
          ∀ a, SavedIds (if a = account then
            (runOneAccount strategy market (w.accounts account) w.counter).state.files
            else w.accounts a) n := by
        intro n hn hsaved a
        split
        · exact hsaved
        · exact (hw.saved a).mono hn
      rcases visit_spec strategy market (w.accounts account) w.counter w.opened
          (hw.saved account) with ⟨-, hnew, hnext, hsaved⟩ | ⟨hyes, hnew, hnext, hsaved⟩
      · simp only [hnew, List.length_nil, Nat.add_zero]
        refine ⟨hothers _ (le_refl _) hsaved, hw.before, fun _ => ?_⟩
        dsimp only
        omega
      · simp only [hnew, List.length_singleton]
        have := hsmall halive hyes
        refine ⟨hothers _ (Nat.le_succ _) (hsaved (by omega)), Nat.le_succ_of_le hw.before,
          fun _ => ?_⟩
        dsimp only
        omega
    · rw [show w.step (.visit account strategy market) = w from if_neg halive]
      exact hw

/-- **Lot ids.** From fresh accounts, in any sequence of decision-cycle
processes, every id assigned is at most the number of lots opened so far, and
so is every largest restored id, exactly when at every visit that can enter
the restores of its process have moved the counter by at most the number of
lots opened before the process began. -/
theorem ids_bounded_iff (steps : List FleetStep) :
    Along Fleet.step IdsBounded {} steps ↔ Along Fleet.step RestoresSmall {} steps := by
  refine along_congr_inv (I := FleetInv) (fun w step hw => idsBounded_iff hw step)
    (fun w step hw h => fleetInv_step hw step h) steps ⟨?_, le_refl _, fun _ => rfl⟩
  intro a st hst
  cases hst

/-- One account and two processes: the first lot gets id 1, the second id 3. -/
theorem ids_outgrow_lots :
    ¬ Along Fleet.step IdsBounded {}
      [.start, .visit "dip_1b_lt1pc" dipOneBar (twoBars 102 100),
        .start, .visit "dip_1b_lt1pc" dipOneBar (twoBars 103 101)] := by
  rintro ⟨-, -, -, h, -⟩
  have hid := (h (by decide +kernel)).1 3 (by decide +kernel)
  exact absurd hid (by decide +kernel)

end PaperTrading.Trading
