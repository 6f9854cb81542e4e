import PaperTrading.Signals.Dynamic

/-!
# Higher-timeframe closes

`signals/htf.py`: the 5m closes are cut into buckets of `barsPer` bars from the
front of the slice, and the atom compares the close of the last completed bucket
with the mean of the last `period` of them. The EMA kind is left out.

Two slices of one tape that start in different phases of the buckets read
different closes. `htfCloseAboveMa_sameTail` is the positive half: slices that
start in the same phase agree.
-/

namespace PaperTrading.Signals

inductive Timeframe where
  | h1
  | h4
deriving DecidableEq, Repr

/-- `TF_BARS`, 5m bars of one completed bar. -/
def Timeframe.bars : Timeframe → ℕ
  | .h1 => 12
  | .h4 => 48

theorem Timeframe.bars_pos (tf : Timeframe) : 0 < tf.bars := by
  cases tf <;> decide

/-- `completed_htf_count`, buckets that have fully closed at index `i`. -/
def completedHtfCount (i barsPer : ℕ) : ℕ :=
  if barsPer = 0 then 0 else (i + 1) / barsPer

def htfBucketCloseIndex (k barsPer : ℕ) : ℕ := (k + 1) * barsPer - 1

/-- `_htf_closes_all`; the index of a complete bucket is always in range. -/
def htfClosesAll (closes : List ℚ) (barsPer : ℕ) : List ℚ :=
  (List.range (closes.length / barsPer)).map fun k =>
    closes.getD (htfBucketCloseIndex k barsPer) 0

/-- `htf_close_above_ma` for the SMA. -/
def htfCloseAboveMa (closes : List ℚ) (i barsPer period : ℕ) : Except String Bool :=
  if period = 0 ∨ barsPer = 0 then .ok false
  else if completedHtfCount i barsPer < period then .ok false
  else
    let htf := htfClosesAll closes barsPer
    let nComplete := min (completedHtfCount i barsPer) htf.length
    if nComplete < period then .ok false
    else do
      let idx := nComplete - 1
      match ← sma htf period idx with
      | none => pure false
      | some ma => do
        let c ← item htf idx
        pure (ma < c)

@[simp] theorem htfClosesAll_length (closes : List ℚ) (barsPer : ℕ) :
    (htfClosesAll closes barsPer).length = closes.length / barsPer := by
  simp [htfClosesAll]

/-- At a bar with enough completed buckets the atom is the SMA condition on the
bucket closes. -/
theorem htfCloseAboveMa_eq {closes : List ℚ} {i barsPer period : ℕ} (hb : 0 < barsPer)
    (hp : 0 < period) (hi : i < closes.length) (hc : period ≤ (i + 1) / barsPer) :
    htfCloseAboveMa closes i barsPer period =
      evalSmaAbove (htfClosesAll closes barsPer) period ((i + 1) / barsPer - 1) := by
  have hmin : min ((i + 1) / barsPer) (htfClosesAll closes barsPer).length = (i + 1) / barsPer := by
    rw [htfClosesAll_length]
    exact Nat.min_eq_left (Nat.div_le_div_right hi)
  unfold htfCloseAboveMa completedHtfCount
  dsimp only
  rw [if_neg (by omega), if_neg (by omega : ¬ barsPer = 0), if_neg (by omega), hmin,
    if_neg (by omega)]
  rfl

/-- The bucket closes of two lists agree when their buckets are in phase. -/
theorem htfClosesAll_sameTail {period barsPer i j : ℕ} {xs ys : List ℚ} (hb : 0 < barsPer)
    (hp : 0 < period) (h : SameTail (period * barsPer) xs i ys j)
    (hphase : (i + 1) % barsPer = (j + 1) % barsPer) :
    SameTail period (htfClosesAll xs barsPer) ((i + 1) / barsPer - 1)
      (htfClosesAll ys barsPer) ((j + 1) / barsPer - 1) := by
  have hi : period ≤ (i + 1) / barsPer := (Nat.le_div_iff_mul_le hb).mpr h.left_back
  have hj : period ≤ (j + 1) / barsPer := (Nat.le_div_iff_mul_le hb).mpr h.right_back
  have hxs : (i + 1) / barsPer ≤ xs.length / barsPer := Nat.div_le_div_right h.left_in
  have hys : (j + 1) / barsPer ≤ ys.length / barsPer := Nat.div_le_div_right h.right_in
  refine ⟨by rw [htfClosesAll_length]; omega, by rw [htfClosesAll_length]; omega,
    by omega, by omega, fun d hd => ?_⟩
  -- Both bucket closes lie `(i + 1) % barsPer + d * barsPer` bars back.
  have close : ∀ n : ℕ, d < (n + 1) / barsPer →
      htfBucketCloseIndex ((n + 1) / barsPer - 1 - d) barsPer +
        ((n + 1) % barsPer + d * barsPer) = n := by
    intro n hn
    have hdiv := Nat.div_add_mod (n + 1) barsPer
    obtain ⟨q, hq⟩ := Nat.exists_eq_add_of_lt hn
    unfold htfBucketCloseIndex
    have hmul : (n + 1) / barsPer - 1 - d + 1 = q + 1 := by omega
    have hsplit : barsPer * ((n + 1) / barsPer) = (q + 1) * barsPer + d * barsPer := by
      rw [hq]; ring
    have hpos : 0 < (q + 1) * barsPer := Nat.mul_pos (Nat.succ_pos q) hb
    rw [hmul]
    omega
  have hback : (i + 1) % barsPer + d * barsPer < period * barsPer := by
    have hr : (i + 1) % barsPer < barsPer := Nat.mod_lt _ hb
    have hd' : (d + 1) * barsPer ≤ period * barsPer := Nat.mul_le_mul_right _ hd
    have hd'' : (d + 1) * barsPer = d * barsPer + barsPer := by ring
    omega
  have hclose : xs.getD (htfBucketCloseIndex ((i + 1) / barsPer - 1 - d) barsPer) 0
      = ys.getD (htfBucketCloseIndex ((j + 1) / barsPer - 1 - d) barsPer) 0 :=
    h.getD_back (close i (by omega)) (hphase ▸ close j (by omega)) hback 0
  unfold htfClosesAll
  rw [List.getElem?_map, List.getElem?_map, List.getElem?_range (by omega),
    List.getElem?_range (by omega), Option.map_some, Option.map_some, hclose]

/-- The mean of one close is that close, which is never above itself. -/
theorem htfCloseAboveMa_one {closes : List ℚ} {i : ℕ} (barsPer : ℕ) (hi : i < closes.length)
    (hb : barsPer ≤ i + 1) : htfCloseAboveMa closes i barsPer 1 = .ok false := by
  by_cases hz : barsPer = 0
  · unfold htfCloseAboveMa
    rw [if_pos (.inr hz)]
  · have hpos : 0 < barsPer := Nat.pos_of_ne_zero hz
    have hc : 1 ≤ (i + 1) / barsPer := (Nat.one_le_div_iff hpos).mpr hb
    have hdiv : (i + 1) / barsPer ≤ closes.length / barsPer := Nat.div_le_div_right hi
    have hlen : (i + 1) / barsPer - 1 < (htfClosesAll closes barsPer).length := by
      rw [htfClosesAll_length]
      omega
    rw [htfCloseAboveMa_eq hpos Nat.one_pos hi hc]
    unfold evalSmaAbove
    rw [sma_of_lt 1 hlen, if_neg (by omega), item_of_lt hlen, lastWindow_one hlen]
    simp [pure, Except.pure, bind, Except.bind]

theorem htfCloseAboveMa_sameTail {period barsPer i j : ℕ} {xs ys : List ℚ}
    (h : SameTail (period * barsPer) xs i ys j)
    (hphase : 2 ≤ period → (i + 1) % barsPer = (j + 1) % barsPer) :
    htfCloseAboveMa xs i barsPer period = htfCloseAboveMa ys j barsPer period := by
  by_cases hz : period = 0 ∨ barsPer = 0
  · unfold htfCloseAboveMa
    rw [if_pos hz, if_pos hz]
  have hb : 0 < barsPer := by omega
  rcases (by omega : period = 1 ∨ 2 ≤ period) with rfl | hp
  · have hi := h.left_back
    have hj := h.right_back
    rw [htfCloseAboveMa_one barsPer h.left_in (by omega),
      htfCloseAboveMa_one barsPer h.right_in (by omega)]
  · have htail := htfClosesAll_sameTail hb (by omega) h (hphase hp)
    rw [htfCloseAboveMa_eq hb (by omega) h.left_in ((Nat.le_div_iff_mul_le hb).mpr h.left_back),
      htfCloseAboveMa_eq hb (by omega) h.right_in ((Nat.le_div_iff_mul_le hb).mpr h.right_back),
      evalSmaAbove_sameTail htail (by omega) le_rfl]

end PaperTrading.Signals
