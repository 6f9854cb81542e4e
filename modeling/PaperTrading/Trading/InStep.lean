import Mathlib.Data.List.Nodup
import PaperTrading.Trading.LotIds

/-!
# The book and the trades table

A close takes a lot out of the broker in memory, closes its row in the trades
table at once, and reaches the saved state only if the pass goes on to return.
`InStep` says the open rows are, one for one, the lots of the saved state.

`in_step_run` carries it through any sequence of decision cycles and
heartbeats, with any fetch failing, as long as every exit pass is safe (`PassSafe`): it closes the right lots and no equity raises after a close,
or its first sell is refused before anything was closed. Every row then keeps
to `RowFate`: it stays as it is, or it is closed once, by the lot it was opened
for.
-/

/-!
## The saved book of an account

Every saved state a program writes restores to the lots the program held,
with their ids (`KeptBook`), and the ids in it are distinct: an exit pass
leaves a sublist of the ids it found, and the counter is ahead of every
restored id when a lot is opened. `keptBook_step` carries this through either
program, whatever it does to the lots.
-/

namespace PaperTrading.Trading

open Broker Risk Calibration PaperTrading.Lib

/-- The open lots of an account, as either program restores them. -/
def openLots (files : AccountFiles) : List OpenPosition :=
  (restoredBroker files.db.account 0).lots

/-- The saved state was written by a broker whose lots have distinct ids. -/
structure KeptBook (files : AccountFiles) : Prop where
  restored : ∀ nextLot, (restoredBroker files.db.account nextLot).lots = openLots files
  distinct : ((openLots files).map (·.lotId)).Nodup

theorem keptBook_fresh : KeptBook AccountFiles.fresh := ⟨fun _ => rfl, List.nodup_nil⟩

theorem openLots_congr {files files' : AccountFiles}
    (heq : files'.db.account = files.db.account) : openLots files' = openLots files := by
  unfold openLots
  rw [heq]

theorem KeptBook.congr {files files' : AccountFiles} (h : KeptBook files)
    (heq : files'.db.account = files.db.account) : KeptBook files' := by
  exact ⟨fun n => by rw [heq, openLots_congr heq]; exact h.restored n,
    by rw [openLots_congr heq]; exact h.distinct⟩

/-- A saved loop is restored with its lots. -/
theorem restoredBroker_saved (loop : TradingLoop) (nextLot : ℕ) :
    (restoredBroker loop.saved.db.account nextLot).lots = loop.broker.lots := by
  show restoreLots nextLot loop.broker.toState.openLots = loop.broker.lots
  rw [PaperBroker.openLots_toState, restoreLots_toState]

@[simp] theorem openLots_saved (loop : TradingLoop) : openLots loop.saved = loop.broker.lots :=
  restoredBroker_saved loop 0

theorem keptBook_saved {loop : TradingLoop} (h : (loop.broker.lots.map (·.lotId)).Nodup) :
    KeptBook loop.saved :=
  ⟨fun n => by rw [openLots_saved]; exact restoredBroker_saved loop n,
    by rw [openLots_saved]; exact h⟩

/-- A bought lot has an id above every id of the restored book. -/
theorem restoredBroker_fresh (files : AccountFiles) (nextLot : ℕ) :
    ∀ lot ∈ (restoredBroker files.db.account nextLot).lots,
      lot.lotId < (restoredBroker files.db.account nextLot).nextLot := by
  intro lot hlot
  have hle := le_maxLotId hlot
  have hpos := List.length_pos_of_mem hlot
  rw [restoredBroker_nextLot]
  omega

/-- Buying keeps the ids distinct. -/
theorem bought_ids {b : PaperBroker} {c : Candidate} {e : Entry}
    (hb : (b.lots.map (·.lotId)).Nodup) (hfresh : ∀ lot ∈ b.lots, lot.lotId < b.nextLot) :
    ((bought b c e).lots.map (·.lotId)).Nodup := by
  unfold bought
  dsimp only
  rw [List.map_append, List.nodup_append]
  refine ⟨hb, by simp, ?_⟩
  intro i hi j hj
  obtain ⟨lot, hlot, rfl⟩ := List.mem_map.mp hi
  obtain rfl : j = b.nextLot := by simpa [PaperBroker.boughtLot] using hj
  exact Nat.ne_of_lt (hfresh lot hlot)

/-- After an exit pass of a restored account the ids are still distinct and
below the counter. -/
theorem pass_ids {files : AccountFiles} (h : KeptBook files) (nextLot : ℕ) (px : PriceMap) :
    let pass := (accountLoop files nextLot).manageOpenPositions px
    (pass.state.broker.lots.map (·.lotId)).Nodup ∧
    ∀ lot ∈ pass.state.broker.lots, lot.lotId < pass.state.broker.nextLot := by
  have hsub := manageOpenPositions_ids (accountLoop files nextLot) px
  have hframe := manageOpenPositions_frame (accountLoop files nextLot) px
  refine ⟨hsub.nodup ?_, ?_⟩
  · show ((restoredBroker files.db.account nextLot).lots.map (·.lotId)).Nodup
    rw [h.restored]
    exact h.distinct
  · intro lot hlot
    obtain ⟨q, hq, heq⟩ := List.mem_map.mp (hsub.subset (List.mem_map_of_mem hlot))
    rw [hframe.nextLot, ← heq]
    exact restoredBroker_fresh files nextLot q hq

/-- Both programs keep the book of an account restorable. -/
theorem keptBook_step {files : AccountFiles} (h : KeptBook files) (step : AccountStep) :
    KeptBook (files.step step) := by
  cases step with
  | cycle strategy market nextLot =>
    obtain ⟨hnodup, hfresh⟩ := pass_ids h nextLot (cyclePrices market)
    show KeptBook (runOneAccount strategy market files nextLot).state.files
    rcases runOneAccount_spec strategy market files nextLot with
      ⟨-, -, haccount, -, -, -⟩ | ⟨-, -, -, finish, hend, -, hfiles, -⟩
    · exact h.congr haccount
    · rw [hfiles]
      refine keptBook_saved ?_
      rw [hend.broker]
      cases decision strategy market _ with
      | none => exact hnodup
      | some ce => exact bought_ids hnodup hfresh
  | heartbeat prices nextLot =>
    have hsub := manageOpenPositions_ids (buildFor files nextLot) (heartbeatPrices prices)
    have hframe := manageOpenPositions_frame (buildFor files nextLot) (heartbeatPrices prices)
    show KeptBook (heartbeatAccount (heartbeatPrices prices) files nextLot).1
    rcases heartbeatAccount_spec (heartbeatPrices prices) files nextLot with
      ⟨-, -, hfiles⟩ | ⟨-, hfiles⟩
    · rw [hfiles]
      refine keptBook_saved (hsub.nodup ?_)
      show ((restoredBroker files.db.account nextLot).lots.map (·.lotId)).Nodup
      rw [h.restored]
      exact h.distinct
    · rw [hfiles]
      exact h.congr hframe.account

end PaperTrading.Trading

namespace PaperTrading.Trading

open Broker Risk Calibration PaperTrading.Lib

/-- What a row and a lot are matched by. -/
def rowKey (r : TradeRow) : Ticker × ℚ × Option ℕ := (r.symbol, r.size, r.lotId)

def lotKey (p : OpenPosition) : Ticker × ℚ × Option ℕ := (p.ticker, p.quantity, some p.lotId)

/-- The open rows are the keys of these lots, one for one. -/
def RowsMatch (store : TradeStore) (lots : List OpenPosition) : Prop :=
  (store.openTradeIds.map rowKey).Perm (lots.map lotKey)

/-- The rows with no exit correspond one to one to the lots of the saved
state. -/
def InStep (files : AccountFiles) : Prop := RowsMatch files.db (openLots files)

/-- What may happen to a row: nothing, or it was open and is closed by the lot
it matches, with that lot's own entry in the result. -/
def RowFate (lots : List OpenPosition) (r r' : TradeRow) : Prop :=
  r' = r ∨ (r.isOpen = true ∧ ∃ lot ∈ lots, rowKey r = lotKey lot ∧
    ∃ fill why, r' = { r with exit := some (exitOf lot fill why) })

/-- Every row of `before` is still there in `after`, with a proper fate. -/
def RowsKept (lots : List OpenPosition) (before after : List TradeRow) : Prop :=
  ∀ r ∈ before, ∃ r' ∈ after, RowFate lots r r'

/-- The pass closes the right lots with no equity raising after a close, or
its first sell is refused before anything was closed. -/
def PassSafe (px : PriceMap) (lots : List OpenPosition) : Prop :=
  (CrossedFirst px lots ∧ (crossedLots px lots = [] ∨ ∀ lot ∈ lots, ¬ Unpriced px lot)) ∨
    RefusedAtOnce px lots

/-- The exit pass of a step is safe on the lots the step restores. -/
def StepSafe (files : AccountFiles) : AccountStep → Prop
  | .cycle _ market _ => PassSafe (cyclePrices market) (openLots files)
  | .heartbeat prices _ => PassSafe (heartbeatPrices prices) (openLots files)

/-- After the step book and table are in step, and no row was closed but by
its own lot. -/
def StaysInStep (files : AccountFiles) (step : AccountStep) : Prop :=
  InStep (files.step step) ∧
    RowsKept (openLots files) files.db.trades (files.step step).db.trades

/-! ## Closing a row -/

theorem RowsKept.refl (lots : List OpenPosition) (rows : List TradeRow) :
    RowsKept lots rows rows := fun r hr => ⟨r, hr, Or.inl rfl⟩

/-- A row that was closed is not open, so it is not closed again. -/
theorem RowFate.trans {lots : List OpenPosition} {a b c : TradeRow} (h : RowFate lots a b)
    (h' : RowFate lots b c) : RowFate lots a c := by
  rcases h with rfl | ⟨hopen, lot, hlot, hkey, fill, why, rfl⟩
  · exact h'
  · rcases h' with rfl | ⟨hopen', -⟩
    · exact Or.inr ⟨hopen, lot, hlot, hkey, fill, why, rfl⟩
    · cases hopen'

theorem RowsKept.trans {lots : List OpenPosition} {a b c : List TradeRow}
    (h : RowsKept lots a b) (h' : RowsKept lots b c) : RowsKept lots a c := by
  intro r hr
  obtain ⟨r', hr', hfate⟩ := h r hr
  obtain ⟨r'', hr'', hfate'⟩ := h' r' hr'
  exact ⟨r'', hr'', hfate.trans hfate'⟩

/-- With distinct ids the row `_close_store_lot` picks is the lot's own. -/
theorem rowOf_match {store : TradeStore} {lots : List OpenPosition} {lot : OpenPosition}
    (hmatch : RowsMatch store lots) (hids : (lots.map (·.lotId)).Nodup) (hlot : lot ∈ lots) :
    ∃ row ∈ store.trades, row.isOpen = true ∧ rowKey row = lotKey lot ∧
      rowOf store lot = some row := by
  have hkeyed : lotKey lot ∈ store.openTradeIds.map rowKey :=
    hmatch.mem_iff.mpr (List.mem_map_of_mem hlot)
  obtain ⟨own, hown, hkey⟩ := List.mem_map.mp hkeyed
  cases hfind : store.openTradeIds.find? fun t =>
      t.symbol = lot.ticker ∧ t.lotId = some lot.lotId with
  | none =>
    have := List.find?_eq_none.mp hfind own hown
    simp only [rowKey, lotKey, Prod.mk.injEq] at hkey
    simp [hkey.1, hkey.2.2] at this
  | some row =>
    have hmem := List.mem_of_find?_eq_some hfind
    obtain ⟨htrades, hopen⟩ := List.mem_filter.mp hmem
    have hfound : row.symbol = lot.ticker ∧ row.lotId = some lot.lotId := by
      simpa using List.find?_some hfind
    refine ⟨row, htrades, hopen, ?_, by unfold rowOf; rw [hfind, Option.some_or]⟩
    -- The row is the row of some lot of the book, and ids name lots.
    obtain ⟨other, hother, hkey'⟩ :=
      List.mem_map.mp (hmatch.mem_iff.mp (List.mem_map_of_mem hmem))
    have hid : other.lotId = lot.lotId := by
      have h3 : some other.lotId = row.lotId := congrArg (fun k => k.2.2) hkey'
      rw [hfound.2] at h3
      exact Option.some.inj h3
    rw [← hkey', List.inj_on_of_nodup_map hids hother hlot hid]

/-- Closing the row of a lot that leaves keeps the match. -/
theorem closeStoreLot_match {store : TradeStore} {kept rest : List OpenPosition}
    {lot : OpenPosition} (hmatch : RowsMatch store (kept ++ lot :: rest))
    (hids : ((kept ++ lot :: rest).map (·.lotId)).Nodup) {lots : List OpenPosition}
    (hlot : lot ∈ lots) (fill : Fill) (why : ExitReason) :
    RowsMatch (closeStoreLot store lot fill why) (kept ++ rest) ∧
    RowsKept lots store.trades (closeStoreLot store lot fill why).trades := by
  have hmem : lot ∈ kept ++ lot :: rest := by simp
  obtain ⟨row, hrow, hopen, hkey, hrowOf⟩ := rowOf_match hmatch hids hmem
  obtain ⟨pre, post, hsplit, hclosed⟩ := TradeStore.closeTrade_split hrow (exitOf lot fill why)
  unfold closeStoreLot
  rw [hrowOf]
  dsimp only
  constructor
  · unfold RowsMatch TradeStore.openTradeIds at *
    rw [hclosed]
    rw [hsplit] at hmatch
    have hno : TradeRow.isOpen { row with exit := some (exitOf lot fill why) } = false := rfl
    rw [List.filter_append, List.filter_cons_of_pos hopen, List.map_append, List.map_cons,
      List.map_append, List.map_cons, hkey] at hmatch
    rw [List.filter_append, List.filter_cons_of_neg (by rw [hno]; exact Bool.false_ne_true),
      List.map_append, List.map_append]
    exact (List.perm_middle.symm.trans (hmatch.trans List.perm_middle)).cons_inv
  · intro r hr
    rw [hclosed]
    rw [hsplit] at hr
    rcases List.mem_append.mp hr with h | h
    · exact ⟨r, List.mem_append_left _ h, Or.inl rfl⟩
    · rcases List.mem_cons.mp h with rfl | h
      · exact ⟨_, List.mem_append_right _ List.mem_cons_self,
          Or.inr ⟨hopen, lot, hlot, hkey, fill, why, rfl⟩⟩
      · exact ⟨r, List.mem_append_right _ (List.mem_cons_of_mem _ h), Or.inl rfl⟩

/-! ## A safe pass -/

/-- What a safe pass leaves: a book and a table that match, every row with a
proper fate. A pass that raised was refused before it touched anything. -/
theorem manage_in_step (px : PriceMap) (loop : TradingLoop)
    (hsafe : PassSafe px loop.broker.lots) (hmatch : RowsMatch loop.store loop.broker.lots)
    (hids : (loop.broker.lots.map (·.lotId)).Nodup) :
    let pass := loop.manageOpenPositions px
    RowsMatch pass.state.store pass.state.broker.lots ∧
    RowsKept loop.broker.lots loop.store.trades pass.state.store.trades ∧
    ((pass.Returns ∧ pass.state.broker.lots = uncrossedLots px loop.broker.lots ∧
        (crossedLots px loop.broker.lots = [] ∨
          ∀ lot ∈ loop.broker.lots, ¬ Unpriced px lot)) ∨
      (¬ pass.Returns ∧ pass.state = loop)) := by
  dsimp only
  rcases hsafe with ⟨hfirst, hpriced⟩ | hrefused
  · obtain ⟨hret, hlots, hmatch', -, hkept, -⟩ := manage_rule
      (P := fun l rest => RowsMatch l.store l.broker.lots ∧
        (l.broker.lots.map fun p : OpenPosition => p.lotId).Nodup ∧
        RowsKept loop.broker.lots loop.store.trades l.store.trades ∧
        ∀ lot ∈ rest, lot ∈ loop.broker.lots)
      (fun l lot rest h _ => ⟨h.1, h.2.1, h.2.2.1,
        fun x hx => h.2.2.2 x (List.mem_cons_of_mem _ hx)⟩)
      (by
        intro l kept lot rest cur why history ⟨hm, hn, hk, hmem⟩ _ hl
        rw [hl] at hm hn
        obtain ⟨hm', hk'⟩ := closeStoreLot_match hm hn (hmem lot List.mem_cons_self)
          (l.broker.closeFill lot cur) why
        refine ⟨hm', ?_, hk.trans hk', fun x hx => hmem x (List.mem_cons_of_mem _ hx)⟩
        exact hn.sublist (((List.sublist_cons_self lot rest).append_left kept).map _))
      loop hfirst hpriced ⟨hmatch, hids, RowsKept.refl _ _, fun _ h => h⟩
    exact ⟨hmatch', hkept, Or.inl ⟨hret, hlots, hpriced⟩⟩
  · obtain ⟨hno, hstate⟩ := manage_refused hrefused
    rw [hstate]
    exact ⟨hmatch, RowsKept.refl _ _, Or.inr ⟨hno, rfl⟩⟩

theorem uncrossedLots_eq_self {px : PriceMap} {lots : List OpenPosition}
    (h : crossedLots px lots = []) : uncrossedLots px lots = lots :=
  uncrossedLots_of_none fun lot hlot => by
    simpa using List.filter_eq_nil_iff.mp h lot hlot

/-- When the heartbeat saves, said of the pass it runs. -/
theorem heartbeatSaves_iff (loop : TradingLoop) (px : PriceMap) :
    HeartbeatSaves px loop.broker.lots ↔ (loop.manageOpenPositions px).Returns ∧
      (loop.manageOpenPositions px).state.broker.lots.length < loop.broker.lots.length := by
  have h := Ran.loop_proj (fun l : TradingLoop => l.broker.lots) (manageLot_book px)
    loop.broker.lots loop
  unfold HeartbeatSaves
  rw [← h]
  exact Iff.rfl

/-- An entry adds the same key to the table and to the book. -/
theorem bought_match {store : TradeStore} {b : PaperBroker} (c : Candidate) (e : Entry)
    {rows : List TradeRow} (hmatch : RowsMatch store b.lots)
    (hrows : rows = store.trades ++ [entryRow store b c e]) :
    ((rows.filter (·.isOpen)).map rowKey).Perm ((bought b c e).lots.map lotKey) := by
  have hlots : (bought b c e).lots.map lotKey =
      b.lots.map lotKey ++ [(c.symbol, e.size, some b.nextLot)] := by
    unfold bought
    rw [List.map_append]
    rfl
  rw [hrows, List.filter_append, List.map_append, hlots]
  exact hmatch.append_right _

/-! ## The steps -/

theorem staysInStep_cycle {files : AccountFiles} (hbook : KeptBook files) (hstep : InStep files)
    (strategy : Strategy) (market : CachedMarket) (nextLot : ℕ)
    (hsafe : PassSafe (cyclePrices market) (openLots files)) :
    StaysInStep files (.cycle strategy market nextLot) := by
  have hlots : (accountLoop files nextLot).broker.lots = openLots files := hbook.restored nextLot
  have hpass := manage_in_step (cyclePrices market) (accountLoop files nextLot)
    (by rw [hlots]; exact hsafe) (by rw [hlots]; exact hstep) (by rw [hlots]; exact hbook.distinct)
  dsimp only at hpass
  rw [hlots] at hpass
  obtain ⟨hmatch, hkept, hcase⟩ := hpass
  unfold StaysInStep InStep
  show RowsMatch (runOneAccount strategy market files nextLot).state.files.db
    (openLots (runOneAccount strategy market files nextLot).state.files) ∧ RowsKept _ _
    (runOneAccount strategy market files nextLot).state.files.db.trades
  rcases runOneAccount_spec strategy market files nextLot with
    ⟨hstop, -, haccount, -, htrades, -⟩ | ⟨-, -, -, finish, hend, -, hfiles, -⟩
  · rw [openLots_congr haccount, htrades]
    refine ⟨?_, hkept⟩
    unfold RowsMatch TradeStore.openTradeIds at *
    rw [htrades]
    -- A cycle that raised closed nothing: its pass was refused, or a lot it left is unpriced.
    rcases hcase with ⟨hret, hleft, hpriced⟩ | ⟨-, hstate⟩
    · have hnone : crossedLots (cyclePrices market) (openLots files) = [] := by
        rcases hpriced with h | h
        · exact h
        · rcases hstop with hno | hun
          · exact absurd hret hno
          · refine absurd (fun lot hlot => h lot ?_) hun
            rw [hleft] at hlot
            exact List.mem_of_mem_filter hlot
      rw [hleft, uncrossedLots_eq_self hnone] at hmatch
      exact hmatch
    · rw [hstate]
      exact hstep
  · rw [hfiles, openLots_saved]
    have hrows : finish.saved.db.trades = _ := hend.trades
    rw [hend.broker]
    rw [hrows]
    unfold RowsMatch TradeStore.openTradeIds
    rw [hrows]
    cases decision strategy market ((accountLoop files nextLot).manageOpenPositions
        (cyclePrices market)).state with
    | none => exact ⟨hmatch, hkept⟩
    | some ce =>
      obtain ⟨c, e⟩ := ce
      refine ⟨bought_match c e hmatch rfl, fun r hr => ?_⟩
      obtain ⟨r', hr', hfate⟩ := hkept r hr
      exact ⟨r', List.mem_append_left _ hr', hfate⟩

theorem staysInStep_heartbeat {files : AccountFiles} (hbook : KeptBook files)
    (hstep : InStep files) (prices : Ticker → Option ℚ) (nextLot : ℕ)
    (hsafe : PassSafe (heartbeatPrices prices) (openLots files)) :
    StaysInStep files (.heartbeat prices nextLot) := by
  have hlots : (buildFor files nextLot).broker.lots = openLots files := hbook.restored nextLot
  have hpass := manage_in_step (heartbeatPrices prices) (buildFor files nextLot)
    (by rw [hlots]; exact hsafe) (by rw [hlots]; exact hstep) (by rw [hlots]; exact hbook.distinct)
  have hframe := manageOpenPositions_frame (buildFor files nextLot) (heartbeatPrices prices)
  have hsaves := heartbeatSaves_iff (buildFor files nextLot) (heartbeatPrices prices)
  dsimp only at hpass
  rw [hlots] at hpass hsaves
  obtain ⟨hmatch, hkept, hcase⟩ := hpass
  unfold StaysInStep InStep
  show RowsMatch (heartbeatAccount (heartbeatPrices prices) files nextLot).1.db
    (openLots (heartbeatAccount (heartbeatPrices prices) files nextLot).1) ∧ RowsKept _ _
    (heartbeatAccount (heartbeatPrices prices) files nextLot).1.db.trades
  rcases heartbeatAccount_spec (heartbeatPrices prices) files nextLot with
    ⟨-, -, hfiles⟩ | ⟨hno, hfiles⟩
  · rw [hfiles, openLots_saved]
    exact ⟨hmatch, hkept⟩
  · have hopen : openLots ((buildFor files nextLot).manageOpenPositions
        (heartbeatPrices prices)).state.files = openLots files := openLots_congr hframe.account
    rw [hfiles, hopen]
    refine ⟨?_, hkept⟩
    show RowsMatch ((buildFor files nextLot).manageOpenPositions
      (heartbeatPrices prices)).state.store _
    -- A heartbeat that did not save closed nothing.
    rcases hcase with ⟨hret, hleft, -⟩ | ⟨-, hstate⟩
    · rw [show restoredBroker files.db.account nextLot = (buildFor files nextLot).broker from rfl,
        hlots, hsaves] at hno
      have hlen := length_uncrossed_add_crossed (heartbeatPrices prices) (openLots files)
      have hnone : crossedLots (heartbeatPrices prices) (openLots files) = [] := by
        rw [← List.length_eq_zero_iff]
        by_contra hpos
        exact hno ⟨hret, by rw [hleft]; omega⟩
      rw [hleft, uncrossedLots_eq_self hnone] at hmatch
      exact hmatch
    · rw [hstate]
      exact hstep

/-- **Book and table.** From an account whose book and table match, in any
sequence of decision cycles and heartbeats with any fetch failing, the open
rows are after every step, returned or raised, the lots of the saved state one
for one, and every row keeps its fate, as long as the exit pass of every step
is safe. -/
theorem in_step_run {files : AccountFiles} (hbook : KeptBook files) (hstep : InStep files)
    (steps : List AccountStep) (hsafe : Along AccountFiles.step StepSafe files steps) :
    Along AccountFiles.step StaysInStep files steps := by
  refine along_of_inv (I := fun files => KeptBook files ∧ InStep files) ?_ steps
    ⟨hbook, hstep⟩ hsafe
  rintro files step ⟨hbook, hstep⟩ hsafe
  have hstays : StaysInStep files step := by
    cases step with
    | cycle strategy market nextLot =>
      exact staysInStep_cycle hbook hstep strategy market nextLot hsafe
    | heartbeat prices nextLot =>
      exact staysInStep_heartbeat hbook hstep prices nextLot hsafe
  exact ⟨hstays, keptBook_step hbook step, hstays.1⟩

/-- A fresh account buys, is left alone by a heartbeat that has no price, and
is stopped out. -/
theorem in_step_run_fresh :
    Along AccountFiles.step StaysInStep AccountFiles.fresh
      [.cycle dipOneBar (twoBars 102 100) 1, .heartbeat (fun _ => none) 1,
        .heartbeat (fun _ => some 90) 1] :=
  in_step_run keptBook_fresh (List.Perm.refl _) _
    ⟨Or.inl (by decide +kernel), Or.inl (by decide +kernel), Or.inl (by decide +kernel), trivial⟩

/-- A fresh account buys at 100 and again at 101; at 98 only the second lot's
stop is crossed. The heartbeat closes the second lot's row, shrinks the first
lot and saves nothing. -/
theorem out_of_step :
    ¬ Along AccountFiles.step StaysInStep AccountFiles.fresh
      [.cycle dipOneBar (twoBars 102 100) 1, .cycle dipOneBar (twoBars 103 101) 1,
        .heartbeat (fun _ => some 98) 1] := by
  rintro ⟨-, -, ⟨h, -⟩, -⟩
  exact absurd h.length_eq (by decide +kernel)

end PaperTrading.Trading
