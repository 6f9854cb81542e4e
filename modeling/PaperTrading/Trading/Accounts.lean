import PaperTrading.Trading.Manage

/-!
# The two programs of an account

`run_isolated._run_one_account` (a decision cycle) and the account pass of
`heartbeat.heartbeat_once`, as steps on what an account keeps between them:
its database and its calibration file.

They rebuild the loop differently. The cycle restores the broker and takes the
larger of the saved peak and the start cash for its risk manager; the
heartbeat restores the broker only. The cycle's exceptions escape before it
saves; the heartbeat's are swallowed, and it saves only when the pass left
fewer lots.

The lot counter belongs to the process, so both take where it stands.
-/

namespace PaperTrading.Trading

open Broker Risk Calibration PaperTrading.Lib

/-- `START_CASH` of both programs. -/
def START_CASH : ℚ := 10000

/-- The symbols a decision cycle trades. -/
def TRADE_SYMBOLS : List Ticker := ["BTC/USDT"]

/-- `SYMBOLS` of the heartbeat, which still prices ETH. -/
def HEARTBEAT_SYMBOLS : List Ticker := ["BTC/USDT", "ETH/USDT"]

/-- What an account keeps on disk. -/
structure AccountFiles where
  db : TradeStore
  calibration : CalibrationFile

/-- An account whose database does not exist yet. -/
def AccountFiles.fresh : AccountFiles := { db := {}, calibration := {} }

def freshBroker (nextLot : ℕ) : PaperBroker :=
  { cash := START_CASH, takerFee := TAKER_FEE, slippage := SLIPPAGE, nextLot := nextLot }

/-- The broker both programs start from: the saved one if there is a saved
state, else a fresh one. -/
def restoredBroker (saved : Option AccountState) (nextLot : ℕ) : PaperBroker :=
  match saved with
  | none => freshBroker nextLot
  | some st => (freshBroker nextLot).restoreState (st.broker.getD {})

/-- The first half of `_run_one_account`. -/
def accountLoop (files : AccountFiles) (nextLot : ℕ) : TradingLoop :=
  { broker := restoredBroker files.db.account nextLot
    risk := match files.db.account with
      | none => RiskManager.new START_CASH
      | some st => RiskManager.new (max (st.riskPeak.getD START_CASH) START_CASH)
    calib := CalibrationStore.load files.calibration
    store := files.db }

/-- `_build_for` of the heartbeat: the saved peak is not read. -/
def buildFor (files : AccountFiles) (nextLot : ℕ) : TradingLoop :=
  { broker := restoredBroker files.db.account nextLot
    risk := RiskManager.new START_CASH
    calib := CalibrationStore.load files.calibration
    store := files.db }

namespace TradingLoop

/-- What is on disk when the loop stops here. -/
def files (loop : TradingLoop) : AccountFiles :=
  { db := loop.store, calibration := loop.calib.file }

/-- What `save_account_state` leaves on disk. -/
def saved (loop : TradingLoop) : AccountFiles :=
  { loop.files with
    db := loop.store.saveAccountState
      { broker := some loop.broker.toState, riskPeak := some loop.risk.peakEquity } }

end TradingLoop

/-- A visit of a program to an account: the files it leaves, and the lot
counter of the process. -/
structure Visit where
  files : AccountFiles
  nextLot : ℕ

/-- `_run_one_account`; an exception escapes before the save. -/
def runOneAccount (strategy : Strategy) (market : CachedMarket) (files : AccountFiles)
    (nextLot : ℕ) : Ran PyError Visit :=
  let r := runCycle strategy market TRADE_SYMBOLS (accountLoop files nextLot)
  let loop := r.state.loop
  match r.error with
  | some e => .raise e { files := loop.files, nextLot := loop.broker.nextLot }
  | none => .ok { files := loop.saved, nextLot := loop.broker.nextLot }

/-- The dict `px` of the heartbeat. -/
def heartbeatPrices (prices : Ticker → Option ℚ) : PriceMap := fun t =>
  if t ∈ HEARTBEAT_SYMBOLS then some (prices t) else none

/-- The account pass of `heartbeat_once`: the files it leaves and the number
of lots it reports closed. -/
def heartbeatAccount (px : PriceMap) (files : AccountFiles) (nextLot : ℕ) :
    AccountFiles × ℕ :=
  let loop := buildFor files nextLot
  if loop.broker.lots = [] then (files, 0)
  else
    let before := loop.broker.lots.length
    let r := loop.manageOpenPositions px
    let after := r.state.broker.lots.length
    match r.error with
    | some _ => (r.state.files, 0)
    | none =>
      if after < before then (r.state.saved, before - after) else (r.state.files, 0)

/-- One run of one of the two programs on the account. -/
inductive AccountStep where
  | cycle (strategy : Strategy) (market : CachedMarket) (nextLot : ℕ)
  | heartbeat (prices : Ticker → Option ℚ) (nextLot : ℕ)

/-- The files after one run, whatever the caller does with its exception. -/
def AccountFiles.step (files : AccountFiles) : AccountStep → AccountFiles
  | .cycle strategy market nextLot => (runOneAccount strategy market files nextLot).state.files
  | .heartbeat prices nextLot => (heartbeatAccount (heartbeatPrices prices) files nextLot).1

theorem restoredBroker_fees (saved : Option AccountState) (nextLot : ℕ) :
    (restoredBroker saved nextLot).takerFee = TAKER_FEE ∧
    (restoredBroker saved nextLot).slippage = SLIPPAGE := by
  cases saved <;> exact ⟨rfl, rfl⟩

/-! ## What no pass touches -/

/-- An exit pass writes the trades and keeps the rest of the database, the
risk manager and the calibration file. -/
structure PassFrame (before after : TradingLoop) : Prop where
  risk : after.risk = before.risk
  file : after.calib.file = before.calib.file
  account : after.store.account = before.store.account
  nextLot : after.broker.nextLot = before.broker.nextLot
  ids : after.store.trades.map (·.id) = before.store.trades.map (·.id)

theorem PassFrame.refl (loop : TradingLoop) : PassFrame loop loop :=
  ⟨rfl, rfl, rfl, rfl, rfl⟩

theorem PassFrame.trans {a b c : TradingLoop} (h : PassFrame a b) (h' : PassFrame b c) :
    PassFrame a c :=
  ⟨h'.risk.trans h.risk, h'.file.trans h.file, h'.account.trans h.account,
    h'.nextLot.trans h.nextLot, h'.ids.trans h.ids⟩

/-- No pass opens a row. -/
theorem PassFrame.rows {before after : TradingLoop} (h : PassFrame before after) :
    after.store.trades.length = before.store.trades.length := by
  have hlen := congrArg List.length h.ids
  rwa [List.length_map, List.length_map] at hlen

theorem closeStoreLot_frame (store : TradeStore) (lot : OpenPosition) (fill : Fill)
    (why : ExitReason) :
    (closeStoreLot store lot fill why).account = store.account ∧
    (closeStoreLot store lot fill why).trades.map (·.id) = store.trades.map (·.id) := by
  unfold closeStoreLot
  cases rowOf store lot with
  | none => exact ⟨rfl, rfl⟩
  | some row =>
    refine ⟨rfl, ?_⟩
    simp only [TradeStore.closeTrade, List.map_map]
    exact List.map_congr_left fun r _ => TradeRow.close_id _ _ r

theorem closeLot_nextLot {b b' : PaperBroker} {lot : OpenPosition} {p : ℚ} {fill : Fill}
    (h : b.closeLot lot p = .ok (b', fill)) : b'.nextLot = b.nextLot := by
  rw [PaperBroker.closeLot_eq] at h
  cases hs : sellBook b.lots lot with
  | error e => rw [hs] at h; cases h
  | ok lots' =>
    rw [hs] at h
    cases h
    rfl

theorem manageLot_frame (px : PriceMap) (loop : TradingLoop) (lot : OpenPosition) :
    PassFrame loop (loop.manageLot px lot).state := by
  rcases manageLot_cases px loop lot with h | ⟨cur, why, broker, fill, history, -, hclose, h⟩
  · rw [h]
    exact PassFrame.refl loop
  · rw [h]
    obtain ⟨haccount, hids⟩ := closeStoreLot_frame loop.store lot fill why
    exact ⟨rfl, rfl, haccount, closeLot_nextLot hclose, hids⟩

theorem manageOpenPositions_frame (loop : TradingLoop) (px : PriceMap) :
    PassFrame loop (loop.manageOpenPositions px).state :=
  Ran.loop_inv (P := PassFrame loop) (fun s lot h => h.trans (manageLot_frame px s lot))
    loop.broker.lots loop (PassFrame.refl loop)

end PaperTrading.Trading
