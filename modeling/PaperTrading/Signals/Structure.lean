import PaperTrading.Lib.MonotoneDeque
import PaperTrading.Signals.Series

/-!
# Donchian levels

`signals/structure.py`: the level of the `n` bars before bar `i`, computed for
the whole series in one pass over a deque, and the two atoms on it. The swing
and double-bottom atoms are left out, as they look back without bound.

`rangeBefore_sameTail` is the lemma of the module: the pass starts at the front
of its slice, and its level at a bar is still a matter of the `n` bars before it.
-/

namespace PaperTrading.Signals

open Lib

def NEAR_PCT : ℚ := 1 / 500
def NEAR_ATR_MULT : ℚ := 1 / 4
def NEAR_ATR_PERIOD : ℕ := 14

/-! ## The level -/

/-- An earlier value that the new one takes off the back of the deque. -/
def beaten (high : Bool) (old new : ℚ) : Bool :=
  if high then old ≤ new else new ≤ old

/-- The deque of positions and the levels so far. -/
structure RangePass where
  dq : List ℕ
  out : List (Option ℚ)

/-- One bar of `_range_before`. The positions in the deque have been read
before, so `values` has them. -/
def rangeStep (values : List ℚ) (n : ℕ) (high : Bool) (p : RangePass) (i : ℕ) : RangePass :=
  let dq := p.dq.dropWhile (· + n < i)
  let level := if n ≤ i then dq.head?.map fun j => values.getD j 0 else none
  let kept := dq.rdropWhile fun j => beaten high (values.getD j 0) (values.getD i 0)
  { dq := kept ++ [i], out := p.out ++ [level] }

/-- `_range_before`, max or min of the `n` values before each position. -/
def rangeBefore (values : List ℚ) (n : ℕ) (high : Bool) : List (Option ℚ) :=
  if n < 1 then List.replicate values.length none
  else ((List.range values.length).foldl (rangeStep values n high) ⟨[], []⟩).out

/-- The level of the `n` values before `i`; the value at `i` is not in it. -/
def priorDonchian (high : Bool) (values : List ℚ) (n i : ℕ) : Except String (Option ℚ) :=
  if n < 1 ∨ i < n then .ok none else item (rangeBefore values n high) i

def priorDonchianHigh (highs : List ℚ) (n i : ℕ) : Except String (Option ℚ) :=
  priorDonchian true highs n i

def priorDonchianLow (lows : List ℚ) (n i : ℕ) : Except String (Option ℚ) :=
  priorDonchian false lows n i

/-! ## Average true range -/

/-- `trs[j]`; the three lists are of one length. -/
def trueRangeAt (s : Ohlc) (j : ℕ) : ℚ :=
  if j = 0 then 0
  else
    let h := s.highs.getD j 0
    let l := s.lows.getD j 0
    let pc := s.closes.getD (j - 1) 0
    max (max (h - l) |h - pc|) |l - pc|

/-- `_atr_series`. -/
def atrSeries (s : Ohlc) (period : ℕ) : List (Option ℚ) :=
  if period = 0 ∨ s.closes.length ≤ period then List.replicate s.closes.length none
  else (List.range s.closes.length).map fun i =>
    if i < period then none
    else
      let window := (List.range period).map fun k => trueRangeAt s (i + 1 - period + k)
      some (window.sum / window.length)

def atrAt (s : Ohlc) (period i : ℕ) : Except String (Option ℚ) :=
  if i < period ∨ period = 0 then .ok none else item (atrSeries s period) i

/-- `near_band`. -/
def nearBand (close : ℚ) (atrVal : Option ℚ) : ℚ :=
  let band := NEAR_PCT * close
  match atrVal with
  | none => band
  | some a => if 0 < a then max band (NEAR_ATR_MULT * a) else band

def isNearLevel (close level : ℚ) (atrVal : Option ℚ) : Bool :=
  |close - level| ≤ nearBand close atrVal

/-! ## Atoms -/

/-- Long when the close breaks the prior `n`-bar high. -/
def donHi (s : Ohlc) (n i : ℕ) : Except String Bool := do
  match ← priorDonchianHigh s.highs n i with
  | none => pure false
  | some level => do
    let c ← item s.closes i
    pure (level < c)

/-- Long when the close is near the prior `n`-bar low. -/
def donLo (s : Ohlc) (n i : ℕ) : Except String Bool := do
  match ← priorDonchianLow s.lows n i with
  | none => pure false
  | some level => do
    let c ← item s.closes i
    let atrVal ← atrAt s NEAR_ATR_PERIOD i
    pure (isNearLevel c level atrVal)

/-! ## What they read -/

/-- The deque's comparison of two positions. -/
def beatenAt (values : List ℚ) (high : Bool) (j i : ℕ) : Bool :=
  beaten high (values.getD j 0) (values.getD i 0)

/-- The pass after `m` bars: the deque of a window of `n`, and a level for each
bar read. -/
theorem rangePass_eq (values : List ℚ) (n : ℕ) (high : Bool) (m : ℕ) :
    (List.range m).foldl (rangeStep values n high) ⟨[], []⟩ =
      { dq := (List.range m).foldl (MonotoneDeque.slide (beatenAt values high) n) []
        out := (List.range m).map fun i =>
          if n ≤ i then
            (MonotoneDeque.stack (beatenAt values high)
              (List.range' (i - n) n)).head?.map fun j => values.getD j 0
          else none } := by
  induction m with
  | zero => rfl
  | succ m ih =>
    have hread : n ≤ m →
        ((List.range m).foldl (MonotoneDeque.slide (beatenAt values high) n) []).dropWhile
          (· + n < m) = MonotoneDeque.stack (beatenAt values high) (List.range' (m - n) n) := by
      intro hn
      rw [MonotoneDeque.slide_window, Nat.sub_sub_self hn]
    rw [List.range_succ, List.foldl_append, List.foldl_append, List.map_append, ih]
    simp only [List.foldl_cons, List.foldl_nil, List.map_cons, List.map_nil, rangeStep,
      RangePass.mk.injEq]
    refine ⟨rfl, ?_⟩
    by_cases hn : n ≤ m
    · rw [if_pos hn, if_pos hn, hread hn]
    · rw [if_neg hn, if_neg hn]

/-- The level at a bar is the front of the deque run on the `n` values before
it alone. -/
theorem rangeBefore_level {values : List ℚ} {n i : ℕ} (high : Bool) (hn : 1 ≤ n) (hi : n ≤ i)
    (hlen : i < values.length) :
    item (rangeBefore values n high) i =
      .ok (MonotoneDeque.stack (beaten high)
        ((List.range n).map fun k => values.getD (i - n + k) 0)).head? := by
  have hpass := rangePass_eq values n high values.length
  have hval : (List.range n).map (fun k => values.getD (i - n + k) 0) =
      (List.range' (i - n) n).map fun j => values.getD j 0 := by
    rw [List.range'_eq_map_range, List.map_map]
    rfl
  unfold rangeBefore item
  rw [if_neg (by omega), hpass]
  simp only [List.getElem?_map, List.getElem?_range hlen, Option.map_some, if_pos hi]
  rw [hval, ← MonotoneDeque.map_stack, List.head?_map]
  rfl

theorem priorDonchian_sameTail {L n i j : ℕ} {xs ys : List ℚ} (high : Bool)
    (h : SameTail L xs i ys j) (hn : n + 1 ≤ L) :
    priorDonchian high xs n i = priorDonchian high ys n j := by
  have hi := h.left_back
  have hj := h.right_back
  unfold priorDonchian
  by_cases hz : n < 1
  · rw [if_pos (.inl hz), if_pos (.inl hz)]
  · rw [if_neg (by omega), if_neg (by omega),
      rangeBefore_level high (by omega) (by omega) h.left_in,
      rangeBefore_level high (by omega) (by omega) h.right_in]
    congr 3
    refine List.map_congr_left fun k hk => ?_
    have hk := List.mem_range.mp hk
    exact h.getD_back (d := n - k) (by omega) (by omega) (by omega) 0

theorem trueRangeAt_sameBars {L : ℕ} {s r : Ohlc} {i j a b d : ℕ} (h : SameBars L s i r j)
    (ha : a + d = i) (hb : b + d = j) (hd : d + 1 < L) (hpos : 0 < a ∧ 0 < b) :
    trueRangeAt s a = trueRangeAt r b := by
  unfold trueRangeAt
  rw [if_neg (by omega), if_neg (by omega), h.highs.getD_back ha hb (by omega),
    h.lows.getD_back ha hb (by omega),
    h.closes.getD_back (a := a - 1) (b := b - 1) (d := d + 1) (by omega) (by omega) hd]

theorem atrSeries_item {s : Ohlc} {period i : ℕ} (hp : period ≠ 0) (hi : period ≤ i)
    (hlen : i < s.closes.length) :
    item (atrSeries s period) i =
      .ok (some (((List.range period).map fun k => trueRangeAt s (i + 1 - period + k)).sum /
        (period : ℚ))) := by
  unfold atrSeries item
  rw [if_neg (by omega)]
  simp [List.getElem?_range hlen, Nat.not_lt.mpr hi]

theorem atrAt_sameBars {L : ℕ} {s r : Ohlc} {i j period : ℕ} (h : SameBars L s i r j)
    (hp : period + 1 ≤ L) : atrAt s period i = atrAt r period j := by
  have hi := h.closes.left_back
  have hj := h.closes.right_back
  unfold atrAt
  by_cases hz : period = 0
  · rw [if_pos (.inr hz), if_pos (.inr hz)]
  · rw [if_neg (by omega), if_neg (by omega), atrSeries_item hz (by omega) h.closes.left_in,
      atrSeries_item hz (by omega) h.closes.right_in]
    congr 4
    refine List.map_congr_left fun k hk => ?_
    have hk := List.mem_range.mp hk
    exact trueRangeAt_sameBars h (d := period - 1 - k) (by omega) (by omega) (by omega)
      (by omega)

theorem donHi_sameBars {L : ℕ} {s r : Ohlc} {i j n : ℕ} (h : SameBars L s i r j)
    (hn : n + 1 ≤ L) : donHi s n i = donHi r n j := by
  unfold donHi priorDonchianHigh
  rw [priorDonchian_sameTail true h.highs hn, h.closes.item_last (by omega)]

theorem donLo_sameBars {L : ℕ} {s r : Ohlc} {i j n : ℕ} (h : SameBars L s i r j)
    (hn : n + 1 ≤ L) (ha : NEAR_ATR_PERIOD + 1 ≤ L) : donLo s n i = donLo r n j := by
  unfold donLo priorDonchianLow
  rw [priorDonchian_sameTail false h.lows hn, h.closes.item_last (by omega),
    atrAt_sameBars h ha]

end PaperTrading.Signals
