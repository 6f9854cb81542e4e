import PaperTrading.Broker.Paper

/-!
# The trade store

`trading/store.py`, as far as the trading loop uses it: the `trades` table,
the decision log, the equity snapshots and the two JSON blobs of
`account_state` (the account's saved state and the buy-and-hold anchor).
Timestamps are left out.

`id INTEGER PRIMARY KEY AUTOINCREMENT` is a field of the store: ids increase
down the table and stay below the next one, so an update by id touches one row
(`eq_of_id`).
-/

namespace PaperTrading.Trading

open Broker

/-- The exit columns of a trade row, null together while the trade is open. -/
structure TradeExit where
  price : ℚ
  reason : String
  fee : ℚ
  pnl : ℚ
  pnlPct : ℚ
  hit : Bool
deriving DecidableEq, Repr

structure TradeRow where
  id : ℕ
  symbol : Ticker
  timeframe : String
  condition : String
  statedProb : ℚ
  entryPrice : ℚ
  size : ℚ
  entryFee : ℚ
  lotId : Option ℕ
  exit : Option TradeExit := none
deriving DecidableEq, Repr

/-- `exit_ts IS NULL` -/
def TradeRow.isOpen (r : TradeRow) : Bool := r.exit.isNone

/-- A row of the decision log. -/
structure DecisionRow where
  symbol : Ticker
  timeframe : String
  condition : String
  calibratedProb : ℚ
  direction : String
  action : String
  reason : String
  equity : ℚ
  size : ℚ
  entry : ℚ
deriving DecidableEq, Repr

/-- The JSON blob under the key `broker`: the broker's state and the peak. -/
structure AccountState where
  broker : Option BrokerState
  riskPeak : Option ℚ
deriving DecidableEq, Repr

/-- The JSON blob under the key `bh_start`. -/
structure BhAnchor where
  cash : ℚ
  prices : List (Ticker × ℚ)
deriving DecidableEq, Repr

/-- One account's database. -/
structure TradeStore where
  trades : List TradeRow := []
  nextId : ℕ := 1
  decisions : List DecisionRow := []
  snapshots : List (ℚ × Option ℚ) := []
  account : Option AccountState := none
  bhStart : Option BhAnchor := none
  ids_increase : (trades.map (·.id)).Pairwise (· < ·) := by decide
  ids_lt : ∀ r ∈ trades, r.id < nextId := by decide
deriving DecidableEq, Repr

/-- The `UPDATE trades SET exit… WHERE id=?` of `close_trade`, on one row. -/
def TradeRow.close (tradeId : ℕ) (e : TradeExit) (r : TradeRow) : TradeRow :=
  if r.id = tradeId then { r with exit := some e } else r

@[simp] theorem TradeRow.close_id (tradeId : ℕ) (e : TradeExit) (r : TradeRow) :
    (TradeRow.close tradeId e r).id = r.id := by
  unfold TradeRow.close
  split <;> rfl

namespace TradeStore

/-- `open_trade_ids`: the rows without an exit, in id order. -/
def openTradeIds (s : TradeStore) : List TradeRow := s.trades.filter (·.isOpen)

/-- `open_trade` inserts a row under the next id, with no exit. -/
def openTrade (s : TradeStore) (symbol : Ticker) (timeframe condition : String)
    (statedProb entryPrice size entryFee : ℚ) (lotId : Option ℕ) : TradeStore :=
  { s with
    trades := s.trades ++ [{ id := s.nextId, symbol := symbol, timeframe := timeframe
                             condition := condition, statedProb := statedProb
                             entryPrice := entryPrice, size := size, entryFee := entryFee
                             lotId := lotId }]
    nextId := s.nextId + 1
    ids_increase := by
      rw [List.map_append, List.pairwise_append]
      refine ⟨s.ids_increase, by simp, ?_⟩
      intro i hi j hj
      obtain ⟨r, hr, rfl⟩ := List.mem_map.mp hi
      obtain rfl : j = s.nextId := by simpa using hj
      exact s.ids_lt r hr
    ids_lt := by
      intro r hr
      rcases List.mem_append.mp hr with h | h
      · exact Nat.lt_succ_of_lt (s.ids_lt r h)
      · obtain rfl := List.mem_singleton.mp h
        exact Nat.lt_succ_self _ }

/-- `close_trade` -/
def closeTrade (s : TradeStore) (tradeId : ℕ) (e : TradeExit) : TradeStore :=
  { s with
    trades := s.trades.map (TradeRow.close tradeId e)
    ids_increase := by
      rw [List.map_map, show ((·.id) ∘ TradeRow.close tradeId e : TradeRow → ℕ) = (·.id) from
        funext fun r => TradeRow.close_id tradeId e r]
      exact s.ids_increase
    ids_lt := by
      intro r hr
      obtain ⟨r', hr', rfl⟩ := List.mem_map.mp hr
      rw [TradeRow.close_id]
      exact s.ids_lt r' hr' }

def recordDecision (s : TradeStore) (d : DecisionRow) : TradeStore :=
  { s with decisions := s.decisions ++ [d] }

def snapshotEquity (s : TradeStore) (equity : ℚ) (baseline : Option ℚ) : TradeStore :=
  { s with snapshots := s.snapshots ++ [(equity, baseline)] }

def saveAccountState (s : TradeStore) (a : AccountState) : TradeStore :=
  { s with account := some a }

def saveBhStart (s : TradeStore) (a : BhAnchor) : TradeStore := { s with bhStart := some a }

/-- Ids name rows: two rows with one id are one row. -/
theorem eq_of_id {s : TradeStore} {r r' : TradeRow} (h : r ∈ s.trades) (h' : r' ∈ s.trades)
    (hid : r.id = r'.id) : r = r' := by
  have hp := s.ids_increase
  rw [List.pairwise_map] at hp
  obtain ⟨i, hi, rfl⟩ := List.getElem_of_mem h
  obtain ⟨j, hj, rfl⟩ := List.getElem_of_mem h'
  rcases lt_trichotomy i j with hlt | rfl | hlt
  · have := List.pairwise_iff_getElem.mp hp i j hi hj hlt
    omega
  · rfl
  · have := List.pairwise_iff_getElem.mp hp j i hj hi hlt
    omega

/-- An update by the id of a row rewrites that row where it stands and no
other. -/
theorem closeTrade_at {s : TradeStore} {pre post : List TradeRow} {row : TradeRow}
    (hsplit : s.trades = pre ++ row :: post) (e : TradeExit) :
    (s.closeTrade row.id e).trades = pre ++ { row with exit := some e } :: post := by
  have hid := s.ids_increase
  rw [hsplit, List.map_append, List.map_cons, List.pairwise_append, List.pairwise_cons] at hid
  obtain ⟨-, ⟨hpost, -⟩, hpre⟩ := hid
  have hother : ∀ rows : List TradeRow, (∀ r ∈ rows, r.id ≠ row.id) →
      rows.map (TradeRow.close row.id e) = rows := by
    intro rows hne
    conv_rhs => rw [← List.map_id rows]
    exact List.map_congr_left fun r hr => if_neg (hne r hr)
  show s.trades.map (TradeRow.close row.id e) = _
  rw [hsplit, List.map_append, List.map_cons, hother pre, hother post]
  · rw [show TradeRow.close row.id e row = { row with exit := some e } from if_pos rfl]
  · intro r hr
    have := hpost r.id (List.mem_map_of_mem hr)
    omega
  · intro r hr
    have := hpre r.id (List.mem_map_of_mem hr) row.id (by simp)
    omega

theorem closeTrade_split {s : TradeStore} {row : TradeRow} (h : row ∈ s.trades) (e : TradeExit) :
    ∃ pre post, s.trades = pre ++ row :: post ∧
      (s.closeTrade row.id e).trades = pre ++ { row with exit := some e } :: post := by
  obtain ⟨pre, post, hsplit⟩ := List.append_of_mem h
  exact ⟨pre, post, hsplit, closeTrade_at hsplit e⟩

end TradeStore

end PaperTrading.Trading
