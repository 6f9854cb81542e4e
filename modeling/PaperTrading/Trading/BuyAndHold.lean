import Mathlib.Algebra.BigOperators.Group.List.Basic
import PaperTrading.Trading.Store

/-!
# The buy-and-hold overlay

`trading/buy_and_hold.py`, the part behind the baseline of an equity snapshot:
prices first seen are kept as the anchor, and the baseline is what an equal
split of the start cash, bought at the anchor, is worth now.
-/

namespace PaperTrading.Trading

open Broker

def PAPER_START_CASH : ℚ := 10000

/-- The symbols of the history tape. -/
def QUAL_SYMBOLS : List Ticker := ["BTC/USDT", "ETH/USDT"]

/-- A price dict without missing values, in its order. -/
abbrev Prices := List (Ticker × ℚ)

def qtyBought (cash startPrice takerFee slippage : ℚ) : ℚ :=
  let fill := startPrice * (1 + slippage)
  if fill ≤ 0 then 0 else cash / (fill * (1 + takerFee))

/-- The symbols with a positive price at both ends, each with its two prices. -/
def heldSymbols (startPrices currentPrices : Prices) : List (ℚ × ℚ) :=
  startPrices.filterMap fun (s, start) =>
    match currentPrices.lookup s with
    | none => none
    | some current => if start > 0 ∧ current > 0 then some (start, current) else none

/-- `buy_and_hold_mtm`, at the paper fees. -/
def buyAndHoldMtm (startCash : ℚ) (startPrices currentPrices : Prices) : Option ℚ :=
  let held := heldSymbols startPrices currentPrices
  if held = [] then none
  else
    let per := startCash / held.length
    some ((held.map fun (start, current) =>
      qtyBought per start TAKER_FEE SLIPPAGE * current).sum)

/-- The prices an anchor is made of: those of the tape's symbols if there are
any. -/
def cleanPrices (prices : Prices) : Prices :=
  let priced := prices.filter fun (_, p) => p ≠ 0
  let known := priced.filter fun (s, _) => s ∈ QUAL_SYMBOLS
  if known = [] then priced else known

/-- The second half of `ensure_bh_anchor`: make an anchor from these prices. -/
def freshBhAnchor (store : TradeStore) (prices : Prices) (startCash : ℚ) :
    TradeStore × BhAnchor :=
  let anchor : BhAnchor := { cash := startCash, prices := cleanPrices prices }
  if anchor.prices = [] then (store, anchor) else (store.saveBhStart anchor, anchor)

/-- `ensure_bh_anchor`: the anchor on file, or one made from these prices. -/
def ensureBhAnchor (store : TradeStore) (prices : Prices) (startCash : ℚ) :
    TradeStore × BhAnchor :=
  match store.bhStart with
  | none => freshBhAnchor store prices startCash
  | some saved =>
    if saved.prices = [] then freshBhAnchor store prices startCash else (store, saved)

/-- `overlay_equity` -/
def overlayEquity (store : TradeStore) (currentPrices : Prices) (startCash : ℚ) :
    TradeStore × Option ℚ :=
  let usable := currentPrices.filter fun (_, p) => p ≠ 0
  if usable = [] then (store, none)
  else
    let (store, anchor) := ensureBhAnchor store usable startCash
    (store, buyAndHoldMtm (if anchor.cash = 0 then startCash else anchor.cash)
      anchor.prices usable)

theorem freshBhAnchor_frame (store : TradeStore) (prices : Prices) (startCash : ℚ) :
    (freshBhAnchor store prices startCash).1.trades = store.trades ∧
    (freshBhAnchor store prices startCash).1.account = store.account := by
  unfold freshBhAnchor
  simp only
  constructor <;> split <;> rfl

theorem ensureBhAnchor_frame (store : TradeStore) (prices : Prices) (startCash : ℚ) :
    (ensureBhAnchor store prices startCash).1.trades = store.trades ∧
    (ensureBhAnchor store prices startCash).1.account = store.account := by
  unfold ensureBhAnchor
  split
  · exact freshBhAnchor_frame store prices startCash
  · split
    · exact freshBhAnchor_frame store prices startCash
    · exact ⟨rfl, rfl⟩

/-- The overlay writes at most the anchor. -/
theorem overlayEquity_frame (store : TradeStore) (prices : Prices) (startCash : ℚ) :
    (overlayEquity store prices startCash).1.trades = store.trades ∧
    (overlayEquity store prices startCash).1.account = store.account := by
  unfold overlayEquity
  simp only
  split
  · exact ⟨rfl, rfl⟩
  · exact ensureBhAnchor_frame store _ startCash

end PaperTrading.Trading
