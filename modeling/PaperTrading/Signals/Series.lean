import PaperTrading.Lib.Fallible
import PaperTrading.Trading.Signal

/-!
# The series a predicate reads

A predicate of `signals/dynamic.py` is called with the close, high and low lists
of one series and the index of a bar. Prices are rationals; `nan` is `none`, and
an exception is its text.

`SameTail` is what a predicate with a bounded lookback can see: two lists, each
with a position, that agree on the last `L` entries up to their positions.
-/

namespace PaperTrading.Signals

open Lib
open Trading (Candle)

/-- Closes, highs and lows of one series. `require_ohlc` refuses lists of
different lengths. -/
structure Ohlc where
  closes : List ℚ
  highs : List ℚ
  lows : List ℚ
  highs_length : highs.length = closes.length
  lows_length : lows.length = closes.length

def Ohlc.of (bars : List Candle) : Ohlc where
  closes := bars.map (·.close)
  highs := bars.map (·.high)
  lows := bars.map (·.low)
  highs_length := by simp
  lows_length := by simp

/-- `xs[k]`. -/
def item {α : Type} (xs : List α) (k : ℕ) : Except String α :=
  match xs[k]? with
  | some x => .ok x
  | none => .error "list index out of range"

/-- `a / b`. -/
def divide (a b : ℚ) : Except String ℚ :=
  if b = 0 then .error "float division by zero" else .ok (a / b)

/-- `xs[i - period + 1 : i + 1]`. -/
def lastWindow {α : Type} (xs : List α) (period i : ℕ) : List α :=
  (xs.take (i + 1)).drop (i + 1 - period)

/-- `x and y`, both of which may raise. -/
def andThen (x y : Except String Bool) : Except String Bool := do
  if ← x then y else pure false

/-- `x or y`, both of which may raise. -/
def orElse (x y : Except String Bool) : Except String Bool := do
  if ← x then pure true else y

theorem item_of_lt {α : Type} {xs : List α} {k : ℕ} (h : k < xs.length) :
    item xs k = .ok xs[k] := by
  simp [item, List.getElem?_eq_getElem h]

theorem lastWindow_one {α : Type} {xs : List α} {i : ℕ} (h : i < xs.length) :
    lastWindow xs 1 i = [xs[i]] := by
  unfold lastWindow
  rw [Nat.add_sub_cancel, List.drop_take, Nat.add_sub_cancel_left, List.drop_eq_getElem_cons h]
  rfl

/-! ## Lists that agree up to a position -/

/-- `xs` at `i` and `ys` at `j` have the same last `L` entries. -/
structure SameTail {α : Type} (L : ℕ) (xs : List α) (i : ℕ) (ys : List α) (j : ℕ) : Prop where
  left_in : i < xs.length
  right_in : j < ys.length
  left_back : L ≤ i + 1
  right_back : L ≤ j + 1
  same : ∀ d < L, xs[i - d]? = ys[j - d]?

namespace SameTail

variable {α : Type} {L : ℕ} {xs ys : List α} {i j : ℕ}

theorem mono (h : SameTail L xs i ys j) {M : ℕ} (hM : M ≤ L) : SameTail M xs i ys j where
  left_in := h.left_in
  right_in := h.right_in
  left_back := hM.trans h.left_back
  right_back := hM.trans h.right_back
  same := fun d hd => h.same d (hd.trans_le hM)

theorem map {β : Type} (f : α → β) (h : SameTail L xs i ys j) :
    SameTail L (xs.map f) i (ys.map f) j where
  left_in := by simpa using h.left_in
  right_in := by simpa using h.right_in
  left_back := h.left_back
  right_back := h.right_back
  same := fun d hd => by rw [List.getElem?_map, List.getElem?_map, h.same d hd]

/-- The entries `d` positions back agree. -/
theorem back (h : SameTail L xs i ys j) {a b d : ℕ} (ha : a + d = i) (hb : b + d = j)
    (hd : d < L) : xs[a]? = ys[b]? := by
  have := h.same d hd
  rwa [← ha, ← hb, Nat.add_sub_cancel, Nat.add_sub_cancel] at this

theorem item_back (h : SameTail L xs i ys j) {a b d : ℕ} (ha : a + d = i) (hb : b + d = j)
    (hd : d < L) : item xs a = item ys b := by
  unfold item
  rw [h.back ha hb hd]

theorem item_last (h : SameTail L xs i ys j) (hL : 0 < L) : item xs i = item ys j :=
  h.item_back rfl rfl hL

theorem getD_back (h : SameTail L xs i ys j) {a b d : ℕ} (ha : a + d = i) (hb : b + d = j)
    (hd : d < L) (x : α) : xs.getD a x = ys.getD b x := by
  rw [List.getD_eq_getElem?_getD, List.getD_eq_getElem?_getD, h.back ha hb hd]

theorem window (h : SameTail L xs i ys j) {period : ℕ} (hp : period ≤ L) :
    lastWindow xs period i = lastWindow ys period j := by
  have hi := h.left_back
  have hj := h.right_back
  refine List.ext_getElem? fun k => ?_
  unfold lastWindow
  rw [List.getElem?_drop, List.getElem?_drop]
  by_cases hk : k < period
  · rw [List.getElem?_take_of_lt (by omega), List.getElem?_take_of_lt (by omega)]
    exact h.back (d := period - 1 - k) (by omega) (by omega) (by omega)
  · rw [List.getElem?_take_eq_none (by omega), List.getElem?_take_eq_none (by omega)]

end SameTail

/-- What two series and two bars have in common when the last `L` bars agree. -/
structure SameBars (L : ℕ) (s : Ohlc) (i : ℕ) (r : Ohlc) (j : ℕ) : Prop where
  closes : SameTail L s.closes i r.closes j
  highs : SameTail L s.highs i r.highs j
  lows : SameTail L s.lows i r.lows j

theorem SameBars.of {L : ℕ} {bars bars' : List Candle} {i j : ℕ}
    (h : SameTail L bars i bars' j) : SameBars L (.of bars) i (.of bars') j :=
  ⟨h.map _, h.map _, h.map _⟩

/-! ## Slices of one list -/

/-- `xs[start : stop]`. -/
def slice {α : Type} (xs : List α) (start stop : ℕ) : List α := (xs.take stop).drop start

/-- Two slices that hold position `t` and the `L` entries up to it. -/
theorem slice_sameTail {α : Type} {xs : List α} {t L a b stop stop' : ℕ}
    (ht : t < stop) (hstop : stop ≤ xs.length) (ht' : t < stop') (hstop' : stop' ≤ xs.length)
    (ha : a + L ≤ t + 1) (hb : b + L ≤ t + 1) (hat : a ≤ t) (hbt : b ≤ t) :
    SameTail L (slice xs a stop) (t - a) (slice xs b stop') (t - b) where
  left_in := by simp [slice]; omega
  right_in := by simp [slice]; omega
  left_back := by omega
  right_back := by omega
  same := fun d hd => by
    unfold slice
    rw [List.getElem?_drop, List.getElem?_drop, List.getElem?_take_of_lt (by omega),
      List.getElem?_take_of_lt (by omega)]
    congr 1
    omega

end PaperTrading.Signals
