import Mathlib.Algebra.Group.Prod
import Mathlib.Algebra.Group.Pi.Basic
import PaperTrading.Lib.SharedDocument
import PaperTrading.Trading.InStep

/-!
# Overlapping visits to one account

Both programs load the account state when they start and write the whole of it
back at the end; the file lock of the store is held for the write only. So two
visits can overlap: `AccountStep.overlap` is a visit that loaded `copy` and
finds the database `cell` when it saves. What it trades depends on the copy
alone (`finish_broker`), its rows go to the trades table of `cell`.

`no_lost_update_run` says when no update is lost: at every save the saved state
still has the cash and the lots the program loaded, and a visit that does not
save trades nothing. Then after every step the saved lots are the first ones
less all lots closed plus all lots opened, and the saved cash is the first one
moved by every fill.
-/

namespace PaperTrading.Trading

open Broker Risk Calibration PaperTrading.Lib

namespace AccountStep

/-- The loop a program starts from. -/
def start (files : AccountFiles) : AccountStep → TradingLoop
  | .cycle _ _ nextLot => accountLoop files nextLot
  | .heartbeat _ nextLot => buildFor files nextLot

/-- The loop it has in memory at its end, returned or raised. -/
def finish (files : AccountFiles) : AccountStep → TradingLoop
  | .cycle strategy market nextLot =>
    (runCycle strategy market TRADE_SYMBOLS (accountLoop files nextLot)).state.loop
  | .heartbeat prices nextLot =>
    ((buildFor files nextLot).manageOpenPositions (heartbeatPrices prices)).state

/-- The program gets to `save_account_state`. -/
def Saves (files : AccountFiles) : AccountStep → Prop
  | .cycle strategy market nextLot =>
    (runCycle strategy market TRADE_SYMBOLS (accountLoop files nextLot)).Returns
  | .heartbeat prices nextLot =>
    HeartbeatSaves (heartbeatPrices prices) (restoredBroker files.db.account nextLot).lots

instance (files : AccountFiles) : (a : AccountStep) → Decidable (a.Saves files)
  | .cycle .. => inferInstanceAs (Decidable (Ran.Returns _))
  | .heartbeat .. => inferInstanceAs (Decidable (_ ∧ _))

/-- What a program sees that loaded `copy` and works on the database
`cell`. -/
def seen (copy cell : AccountFiles) : AccountFiles :=
  { db := { cell.db with account := copy.db.account }, calibration := copy.calibration }

/-- A visit that loaded `copy` and finds `cell`. Its rows go to the database
it finds; the saved state and the calibration file are written over, or stay
if it does not get there. -/
def overlap (a : AccountStep) (copy cell : AccountFiles) : AccountFiles :=
  let after := (seen copy cell).step a
  if a.Saves copy then
    match a with
    | .cycle .. => after
    | .heartbeat .. => { after with calibration := cell.calibration }
  else { db := { after.db with account := cell.db.account }, calibration := cell.calibration }

end AccountStep

open AccountStep

/-! ## What a visit trades depends on what it loaded -/

/-- What the broker, the risk manager and the calibration store hold in
memory. -/
def TradingLoop.memory (loop : TradingLoop) : TradingLoop :=
  { loop with store := AccountFiles.fresh.db, history := [] }

theorem memory_fields {l l' : TradingLoop} (h : l.memory = l'.memory) :
    l.broker = l'.broker ∧ l.risk = l'.risk ∧ l.calib = l'.calib := by
  have hbroker : l.memory.broker = l'.memory.broker := by rw [h]
  have hrisk : l.memory.risk = l'.memory.risk := by rw [h]
  have hcalib : l.memory.calib = l'.memory.calib := by rw [h]
  exact ⟨hbroker, hrisk, hcalib⟩

theorem manageLot_memory (px : PriceMap) (loop : TradingLoop) (lot : OpenPosition) :
    (loop.manageLot px lot).map TradingLoop.memory =
      (loop.memory.manageLot px lot).map TradingLoop.memory := by
  unfold TradingLoop.manageLot
  cases crossing px lot with
  | none => rfl
  | some c =>
    obtain ⟨cur, why⟩ := c
    rw [show loop.memory.broker = loop.broker from rfl]
    dsimp only
    cases loop.broker.closeLot lot cur with
    | error e => rfl
    | ok r =>
      obtain ⟨broker, fill⟩ := r
      dsimp only [TradingLoop.settle]
      cases broker.equity px <;> rfl

/-- An exit pass does not read the database. -/
theorem manageOpenPositions_memory {l k : TradingLoop} (h : l.memory = k.memory)
    (px : PriceMap) : (l.manageOpenPositions px).map TradingLoop.memory =
      (k.manageOpenPositions px).map TradingLoop.memory := by
  have hlots : l.broker.lots = k.broker.lots := by rw [(memory_fields h).1]
  have hproj := Ran.loop_proj (f := TradingLoop.manageLot px)
    (g := fun m lot => (m.manageLot px lot).map TradingLoop.memory) TradingLoop.memory
    (manageLot_memory px)
  unfold TradingLoop.manageOpenPositions
  rw [hproj, hproj, h, hlots]

theorem decision_memory {l l' : TradingLoop} (h : l.memory = l'.memory) (strategy : Strategy)
    (market : CachedMarket) : decision strategy market l = decision strategy market l' := by
  obtain ⟨hb, hr, hc⟩ := memory_fields h
  unfold decision candidateOf
  rw [hb, hc]
  cases fetchSignal strategy market TRADE_SYMBOL with
  | error e => rfl
  | ok ks =>
    cases l'.broker.equity (cyclePrices market) with
    | error e => rfl
    | ok equity =>
      dsimp only
      rw [entryGates_congr (cyclePrices market) _ hb hr]

/-- The decision of a cycle whose exit pass is `pass`: none if it raised. -/
def entered (strategy : Strategy) (market : CachedMarket) (pass : Ran PyError TradingLoop) :
    Option (Candidate × Entry) :=
  match pass.error with
  | none => decision strategy market pass.state
  | some _ => none

/-- The broker a cycle ends with, and when it returns. -/
theorem runCycle_broker (strategy : Strategy) (market : CachedMarket) (loop : TradingLoop) :
    let pass := loop.manageOpenPositions (cyclePrices market)
    let r := runCycle strategy market TRADE_SYMBOLS loop
    (r.Returns ↔ pass.Returns ∧
      ∀ lot ∈ pass.state.broker.lots, ¬ Unpriced (cyclePrices market) lot) ∧
    r.state.loop.broker = brokerAfter pass.state.broker (entered strategy market pass) := by
  have hspec := runCycle_spec strategy market loop
  dsimp only at hspec ⊢
  generalize loop.manageOpenPositions (cyclePrices market) = pass at hspec ⊢
  unfold entered
  rcases hspec with ⟨hpass, hr, hloop⟩ | ⟨hpass, hun, hr, hstop⟩ | ⟨hpass, hall, hr, hend, -⟩
  · obtain ⟨e, he⟩ := Option.ne_none_iff_exists'.mp hpass
    rw [he, hloop]
    exact ⟨iff_of_false hr fun h => hpass h.1, rfl⟩
  · have hnone : decision strategy market pass.state = none :=
      Classical.not_not.mp fun hd => hun (decision_some hd)
    have he : pass.error = none := hpass
    simp only [he, hnone]
    exact ⟨iff_of_false hr fun h => hun h.2, hstop.broker⟩
  · have he : pass.error = none := hpass
    simp only [he]
    exact ⟨iff_of_true hr ⟨hpass, hall⟩, hend.broker⟩

/-- The broker a visit ends with, and whether it saves, depend on what it
loaded and not on the database it works on. -/
theorem finish_broker (a : AccountStep) (copy cell : AccountFiles) :
    (a.finish (seen copy cell)).broker = (a.finish copy).broker ∧
    (a.Saves (seen copy cell) ↔ a.Saves copy) := by
  cases a with
  | cycle strategy market nextLot =>
    have hmem := manageOpenPositions_memory (l := accountLoop (seen copy cell) nextLot)
      (k := accountLoop copy nextLot) rfl (cyclePrices market)
    obtain ⟨hret, hfin⟩ :=
      runCycle_broker strategy market (accountLoop (seen copy cell) nextLot)
    obtain ⟨hret', hfin'⟩ := runCycle_broker strategy market (accountLoop copy nextLot)
    show (runCycle strategy market TRADE_SYMBOLS
        (accountLoop (seen copy cell) nextLot)).state.loop.broker =
      (runCycle strategy market TRADE_SYMBOLS (accountLoop copy nextLot)).state.loop.broker ∧
      ((runCycle strategy market TRADE_SYMBOLS (accountLoop (seen copy cell) nextLot)).Returns ↔
        (runCycle strategy market TRADE_SYMBOLS (accountLoop copy nextLot)).Returns)
    rw [hret, hret', hfin, hfin']
    generalize (accountLoop (seen copy cell) nextLot).manageOpenPositions (cyclePrices market) =
      pass at hmem
    generalize (accountLoop copy nextLot).manageOpenPositions (cyclePrices market) =
      pass' at hmem
    have hstate : pass.state.memory = pass'.state.memory := congrArg Ran.state hmem
    have herror : (pass.map TradingLoop.memory).error = (pass'.map TradingLoop.memory).error := by
      rw [hmem]
    rw [Ran.map_error, Ran.map_error] at herror
    unfold entered Ran.Returns
    rw [herror, (memory_fields hstate).1, decision_memory hstate]
    exact ⟨rfl, Iff.rfl⟩
  | heartbeat prices nextLot =>
    have hmem := manageOpenPositions_memory (l := buildFor (seen copy cell) nextLot)
      (k := buildFor copy nextLot) rfl (heartbeatPrices prices)
    have hstate : ((buildFor (seen copy cell) nextLot).manageOpenPositions
        (heartbeatPrices prices)).state.memory =
      ((buildFor copy nextLot).manageOpenPositions (heartbeatPrices prices)).state.memory :=
      congrArg Ran.state hmem
    exact ⟨(memory_fields hstate).1, Iff.rfl⟩

/-! ## The trades of a visit -/

theorem start_fills (a : AccountStep) (files : AccountFiles) :
    (a.start files).broker.fills = [] := by
  cases a <;>
  · show (restoredBroker files.db.account _).fills = []
    cases files.db.account <;> rfl

theorem manageLot_ledger {px : PriceMap} {loop : TradingLoop} {lot : OpenPosition} {cash : ℚ}
    (h : loop.broker.Ledger cash) : (loop.manageLot px lot).state.broker.Ledger cash := by
  rcases manageLot_cases px loop lot with hrun | ⟨cur, why, broker, fill, history, -, hclose, hrun⟩
  · rw [hrun]
    exact h
  · rw [hrun]
    exact PaperBroker.placeOrder_ledger h hclose

theorem manageOpenPositions_ledger {loop : TradingLoop} {cash : ℚ} (h : loop.broker.Ledger cash)
    (px : PriceMap) : (loop.manageOpenPositions px).state.broker.Ledger cash :=
  Ran.loop_inv (P := fun l : TradingLoop => l.broker.Ledger cash)
    (fun _ _ h => manageLot_ledger h) loop.broker.lots loop h

theorem brokerAfter_ledger {b : PaperBroker} {cash : ℚ} (h : b.Ledger cash)
    (d : Option (Candidate × Entry)) : (brokerAfter b d).Ledger cash := by
  cases d with
  | none => exact h
  | some ce => exact PaperBroker.placeOrder_ledger h (placeOrder_entry b ce.1 ce.2)

/-- A visit ends with the cash it loaded moved by its fills. -/
theorem finish_ledger (a : AccountStep) (files : AccountFiles) :
    (a.finish files).broker.Ledger (a.start files).broker.cash := by
  have hstart : (a.start files).broker.Ledger (a.start files).broker.cash := by
    unfold PaperBroker.Ledger
    rw [start_fills, List.map_nil, List.sum_nil, add_zero]
  cases a with
  | cycle strategy market nextLot =>
    unfold finish
    dsimp only
    rw [(runCycle_broker strategy market (accountLoop files nextLot)).2]
    exact brokerAfter_ledger (manageOpenPositions_ledger hstart _) _
  | heartbeat prices nextLot => exact manageOpenPositions_ledger hstart _

/-! ## What a visit leaves -/

theorem step_saves {a : AccountStep} {files : AccountFiles} (h : a.Saves files) :
    (files.step a).db.account = (a.finish files).saved.db.account := by
  cases a with
  | cycle strategy market nextLot =>
    have he : (runCycle strategy market TRADE_SYMBOLS (accountLoop files nextLot)).error = none := h
    show (runOneAccount strategy market files nextLot).state.files.db.account = _
    unfold runOneAccount
    simp only [he]
    rfl
  | heartbeat prices nextLot =>
    show (heartbeatAccount (heartbeatPrices prices) files nextLot).1.db.account = _
    rcases heartbeatAccount_spec (heartbeatPrices prices) files nextLot with
      ⟨-, -, hfiles⟩ | ⟨hno, -⟩
    · rw [hfiles]
      rfl
    · exact absurd h hno

theorem step_skips {a : AccountStep} {files : AccountFiles} (h : ¬ a.Saves files) :
    (files.step a).db.account = files.db.account ∧
    (files.step a).calibration = files.calibration := by
  cases a with
  | cycle strategy market nextLot =>
    obtain ⟨e, he⟩ := Option.ne_none_iff_exists'.mp h
    have hno : ¬ (runOneAccount strategy market files nextLot).Returns := by
      unfold runOneAccount
      simp only [he]
      exact Ran.raise_returns _ _
    show (runOneAccount strategy market files nextLot).state.files.db.account = _ ∧
      (runOneAccount strategy market files nextLot).state.files.calibration = _
    rcases runOneAccount_spec strategy market files nextLot with
      ⟨-, -, haccount, hfile, -, -⟩ | ⟨-, -, hret, -⟩
    · exact ⟨haccount, hfile⟩
    · exact absurd hret hno
  | heartbeat prices nextLot =>
    have hframe := manageOpenPositions_frame (buildFor files nextLot) (heartbeatPrices prices)
    show (heartbeatAccount (heartbeatPrices prices) files nextLot).1.db.account = _ ∧
      (heartbeatAccount (heartbeatPrices prices) files nextLot).1.calibration = _
    rcases heartbeatAccount_spec (heartbeatPrices prices) files nextLot with
      ⟨hyes, -, -⟩ | ⟨-, hfiles⟩
    · exact absurd hyes h
    · rw [hfiles]
      exact ⟨hframe.account, hframe.file⟩

/-- A heartbeat never writes the calibration file. -/
theorem step_heartbeat_calibration (files : AccountFiles) (prices : Ticker → Option ℚ)
    (nextLot : ℕ) : (files.step (.heartbeat prices nextLot)).calibration = files.calibration := by
  have hframe := manageOpenPositions_frame (buildFor files nextLot) (heartbeatPrices prices)
  show (heartbeatAccount (heartbeatPrices prices) files nextLot).1.calibration = _
  rcases heartbeatAccount_spec (heartbeatPrices prices) files nextLot with
    ⟨-, -, hfiles⟩ | ⟨-, hfiles⟩ <;>
  · rw [hfiles]
    exact hframe.file

/-- A visit that loads what it finds at its end is a step of the account. -/
theorem overlap_self (a : AccountStep) (files : AccountFiles) :
    a.overlap files files = files.step a := by
  have hseen : seen files files = files := rfl
  unfold overlap
  dsimp only
  rw [hseen]
  by_cases h : a.Saves files
  · rw [if_pos h]
    cases a with
    | cycle strategy market nextLot => rfl
    | heartbeat prices nextLot =>
      dsimp only
      rw [← step_heartbeat_calibration files prices nextLot]
  · obtain ⟨haccount, hfile⟩ := step_skips h
    rw [if_neg h, ← haccount, ← hfile]

/-! ## The saved account -/

/-- The saved cash, and how often each lot is open in the saved state. -/
def accountView (files : AccountFiles) : ℚ × (OpenPosition → ℤ) :=
  ((restoredBroker files.db.account 0).cash, fun lot => ((openLots files).count lot : ℤ))

/-- What a visit traded: the cash of its fills, and the lots it has at its end
less the lots it started with. -/
def tradesOf (a : AccountStep) (copy : AccountFiles) : ℚ × (OpenPosition → ℤ) :=
  (((a.finish copy).broker.fills.map Fill.cash).sum,
    fun lot => ((a.finish copy).broker.lots.count lot : ℤ) -
      ((a.start copy).broker.lots.count lot : ℤ))

theorem accountView_congr {files files' : AccountFiles}
    (h : files'.db.account = files.db.account) : accountView files' = accountView files := by
  unfold accountView
  rw [openLots_congr h, h]

/-- A visit that saves leaves the view of what it loaded, moved by its
trades. -/
theorem overlap_saves {a : AccountStep} {copy : AccountFiles} (hcopy : KeptBook copy)
    (h : a.Saves copy) (cell : AccountFiles) :
    accountView (a.overlap copy cell) = accountView copy + tradesOf a copy := by
  obtain ⟨hbroker, hsaves⟩ := finish_broker a copy cell
  have haccount : (a.overlap copy cell).db.account =
      (a.finish (seen copy cell)).saved.db.account := by
    rw [← step_saves (hsaves.mpr h)]
    unfold overlap
    dsimp only
    rw [if_pos h]
    cases a <;> rfl
  have hstart : (a.start copy).broker.lots = openLots copy := by
    cases a <;> exact hcopy.restored _
  have hcash : (a.start copy).broker.cash = (restoredBroker copy.db.account 0).cash := by
    cases a <;>
    · show (restoredBroker copy.db.account _).cash = _
      cases copy.db.account <;> rfl
  have hledger : (a.finish copy).broker.cash = _ := finish_ledger a copy
  rw [accountView_congr haccount]
  refine Prod.ext ?_ (funext fun lot => ?_)
  · show (a.finish (seen copy cell)).broker.cash = (restoredBroker copy.db.account 0).cash + _
    rw [hbroker, hledger, hcash]
    rfl
  · show ((openLots (a.finish (seen copy cell)).saved).count lot : ℤ) =
      ((openLots copy).count lot : ℤ) + (_ - ((a.start copy).broker.lots.count lot : ℤ))
    rw [openLots_saved, hbroker, hstart]
    omega

theorem overlap_skips {a : AccountStep} {copy : AccountFiles} (h : ¬ a.Saves copy)
    (cell : AccountFiles) : (a.overlap copy cell).db.account = cell.db.account := by
  unfold overlap
  dsimp only
  rw [if_neg h]

theorem keptBook_overlap (a : AccountStep) {copy cell : AccountFiles} (hcopy : KeptBook copy)
    (hcell : KeptBook cell) : KeptBook (a.overlap copy cell) := by
  by_cases h : a.Saves copy
  · have hseen : KeptBook (seen copy cell) := hcopy.congr rfl
    have hstep : KeptBook ((seen copy cell).step a) := keptBook_step hseen a
    refine hstep.congr ?_
    unfold overlap
    dsimp only
    rw [if_pos h]
    cases a <;> rfl
  · exact hcell.congr (overlap_skips h cell)

/-- The account state as a document that visits load and write back whole. -/
def accountDocument : Discipline AccountStep Empty AccountFiles (ℚ × (OpenPosition → ℤ)) where
  Good := KeptBook
  view := accountView
  store := AccountStep.overlap
  Saves a copy _ := a.Saves copy
  change a copy _ v := v + tradesOf a copy
  view_saves hcopy _ h := overlap_saves hcopy h _
  view_skips _ _ h := accountView_congr (overlap_skips h _)
  good_store a _ _ hcopy hcell := keptBook_overlap a hcopy hcell
  atomic k := k.elim
  atomicChange k := k.elim
  view_atomic k := k.elim
  good_atomic k := k.elim

/-! ## When no update is lost -/

/-- The document, the copies and the ledger before any visit has written. -/
def overlapStart (files : AccountFiles) : Shared ℕ AccountFiles (ℚ × (OpenPosition → ℤ)) :=
  { cell := files, held := fun _ => files, expected := accountView files }

/-- The exit pass sells nothing: no lot is crossed, or the first sell is
refused. -/
def NoTrade (px : PriceMap) (lots : List OpenPosition) : Prop :=
  crossedLots px lots = [] ∨ RefusedAtOnce px lots

/-- A visit that saves finds the cash and the lots it loaded; one that does not
save sells nothing. -/
def Serial (a : AccountStep) (copy cell : AccountFiles) : Prop :=
  (a.Saves copy → accountView copy = accountView cell) ∧
  (¬ a.Saves copy → NoTrade (stepPrices a) (openLots copy))

/-- The visit of an access, if it writes, is serial. -/
def Undisturbed (s : Shared ℕ AccountFiles (ℚ × (OpenPosition → ℤ))) :
    Access ℕ AccountStep Empty → Prop
  | .store i a => Serial a (s.held i) s.cell
  | _ => True

/-- A visit that neither saves nor sells trades nothing at all: an entry is
followed by a save. -/
theorem tradesOf_skips {a : AccountStep} {copy : AccountFiles} (hcopy : KeptBook copy)
    (hskip : ¬ a.Saves copy) (h : NoTrade (stepPrices a) (openLots copy)) :
    tradesOf a copy = 0 := by
  have hbroker : (a.finish copy).broker = (a.start copy).broker := by
    have hpass : ((a.start copy).manageOpenPositions (stepPrices a)).state = a.start copy := by
      have hlots : (a.start copy).broker.lots = openLots copy := by
        cases a <;> exact hcopy.restored _
      rw [← hlots] at h
      rcases h with h | h
      · exact (manage_uncrossed h).2
      · exact (manage_refused h).2
    cases a with
    | heartbeat prices nextLot => exact congrArg TradingLoop.broker hpass
    | cycle strategy market nextLot =>
      obtain ⟨hret, hfin⟩ := runCycle_broker strategy market (accountLoop copy nextLot)
      have hnone : entered strategy market
          ((accountLoop copy nextLot).manageOpenPositions (cyclePrices market)) = none := by
        unfold entered
        split
        · next he =>
          refine Classical.not_not.mp fun hd => hskip (hret.mpr ⟨he, decision_some hd⟩)
        · rfl
      rw [hnone] at hfin
      exact hfin.trans (congrArg TradingLoop.broker hpass)
  unfold tradesOf
  rw [hbroker, start_fills]
  refine Prod.ext rfl (funext fun lot => ?_)
  exact sub_self _

/-- Exactly when the saved account shows every trade: each visit that saves
finds the cash and the lots it loaded, and the trades of any other visit add up
to nothing. -/
theorem account_reflects_iff {files : AccountFiles} (h : KeptBook files)
    (accs : List (Access ℕ AccountStep Empty)) :
    Along accountDocument.step accountDocument.Reflects (overlapStart files) accs ↔
      Along accountDocument.step accountDocument.Fits (overlapStart files) accs :=
  accountDocument.reflects_iff accs (accountDocument.sound_start h)

theorem serial_fits {a : AccountStep} {copy cell : AccountFiles} (hcopy : KeptBook copy)
    (h : Serial a copy cell) : accountDocument.SameOutcome a copy cell :=
  (accountDocument.sameOutcome_add (w := tradesOf a copy) rfl).mpr
    ⟨h.1, fun hskip => tradesOf_skips hcopy hskip (h.2 hskip)⟩

/-- **No lost account update.** Any number of cycles and heartbeats of one
account, loading and saving in any order: if every visit that saves finds the
cash and the lots it loaded, and no visit sells without saving, then after each
of their steps the saved lots are the first ones less the lots closed plus the
lots opened, and the saved cash is the first one moved by every fill. -/
theorem no_lost_update_run {files : AccountFiles} (h : KeptBook files)
    (accs : List (Access ℕ AccountStep Empty))
    (hserial : Along accountDocument.step Undisturbed (overlapStart files) accs) :
    Along accountDocument.step accountDocument.Reflects (overlapStart files) accs := by
  refine along_of_inv (I := accountDocument.Sound) ?_ accs (accountDocument.sound_start h)
    hserial
  intro s acc hs hacc
  have hfits : accountDocument.Fits s acc := by
    cases acc with
    | load i => exact trivial
    | store i a => exact serial_fits (hs.held i) hacc
    | atomic k => exact trivial
  exact ⟨(accountDocument.reflects_step hs acc).mpr hfits, accountDocument.sound_step hs hfits⟩

theorem accountView_eq {files files' : AccountFiles}
    (hcash : (restoredBroker files.db.account 0).cash = (restoredBroker files'.db.account 0).cash)
    (hlots : openLots files = openLots files') : accountView files = accountView files' := by
  unfold accountView
  rw [hcash, hlots]

/-- A fresh account buys. Then a cycle and a heartbeat overlap; the cycle
trades nothing, so the heartbeat's close is not lost. -/
theorem no_lost_update_run_overlap :
    Along accountDocument.step accountDocument.Reflects (overlapStart AccountFiles.fresh)
      [.load 0, .store 0 (.cycle dipOneBar (twoBars 102 100) 1), .load 0, .load 1,
        .store 0 (.cycle dipOneBar (twoBars 100 100) 2), .store 1 (.heartbeat (fun _ => some 90) 1)] :=
  no_lost_update_run keptBook_fresh _
    ⟨trivial, ⟨fun _ => rfl, fun h => absurd (by decide +kernel) h⟩, trivial, trivial,
      ⟨fun _ => rfl, fun h => absurd (by decide +kernel) h⟩,
      ⟨fun _ => accountView_eq (by decide +kernel) (by decide +kernel),
        fun h => absurd (by decide +kernel) h⟩, trivial⟩

/-- A fresh account buys. The next cycle loads the account, a heartbeat loads
it too, closes the lot and saves, and the cycle saves what it had loaded: the
lot is open again, and the cash of its sale is gone. -/
theorem heartbeat_close_lost :
    ¬ Along accountDocument.step accountDocument.Reflects (overlapStart AccountFiles.fresh)
      [.load 0, .store 0 (.cycle dipOneBar (twoBars 102 100) 1), .load 0, .load 1,
        .store 1 (.heartbeat (fun _ => some 90) 1),
        .store 0 (.cycle dipOneBar (twoBars 100 100) 2)] := by
  rintro ⟨-, -, -, -, -, h, -⟩
  exact absurd (congrArg Prod.fst h) (by decide +kernel)

end PaperTrading.Trading
