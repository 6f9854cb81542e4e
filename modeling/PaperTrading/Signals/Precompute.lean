import PaperTrading.Signals.Strategy

/-!
# The precomputed signal of a slice

`signals/precompute.py`: a backtest of a named strategy does not call the
predicate at each bar; it indexes flags computed for the whole slice, with the
atoms written a second time over the series. Atoms that are not written there
fall back to the predicate.

`signalSeries_eval`: where the flags are built, they are the predicate's values,
unless an RSI atom has period 0, for which the predicate raises and the flags
are off.
-/

namespace PaperTrading.Signals

open Lib

/-- `for i in range(n)`, one flag a bar. -/
def perBar (n : ℕ) (flag : ℕ → Except String Bool) : Except String (List Bool) :=
  (List.range n).mapM flag

/-- `_zeros`. -/
def zeros (n : ℕ) : Except String (List Bool) := perBar n fun _ => .ok false

/-! ## Atoms over the series -/

/-- `sma_array`, the series of `_sma_series` under another cache. -/
def smaArray (closes : List ℚ) (period : ℕ) : List (Option ℚ) := smaSeries closes period

def stackSignal (closes : List ℚ) (periods : List ℕ) : Except String (List Bool) :=
  perBar closes.length fun i => do
    let vals ← periods.mapM fun p => item (smaArray closes p) i
    if anyNan vals then pure false else stacked closes vals.reduceOption i

def compareMa (closes : List ℚ) (ma : List (Option ℚ)) (above : Bool) :
    Except String (List Bool) :=
  perBar closes.length fun i => do
    match ← item ma i with
    | none => pure false
    | some v => do
      let c ← item closes i
      pure (if above then v < c else c < v)

def momSignal (closes : List ℚ) (lookback : ℕ) (threshold : ℚ) (gt : Bool) :
    Except String (List Bool) :=
  if lookback = 0 then zeros closes.length
  else perBar closes.length fun i =>
    if i < lookback then pure false
    else do
      let cur ← item closes i
      let prev ← item closes (i - lookback)
      let ratio ← divide cur prev
      let r := ratio - 1
      pure (if gt then threshold < r else r < threshold)

def htfSignal (closes : List ℚ) (barsPer period : ℕ) : Except String (List Bool) :=
  if period = 0 ∨ barsPer = 0 then zeros closes.length
  else
    let htf := (List.range (closes.length / barsPer)).map fun k =>
      closes.getD (htfBucketCloseIndex k barsPer) 0
    let ma := smaArray htf period
    perBar closes.length fun i =>
      if completedHtfCount i barsPer < period then pure false
      else
        let nComplete := min (completedHtfCount i barsPer) htf.length
        if nComplete < period then pure false
        else do
          let idx := nComplete - 1
          match ← item ma idx with
          | none => pure false
          | some v => do
            let c ← item htf idx
            pure (v < c)

/-- One change added to the running gains or losses. -/
def gainLoss (total : ℚ × ℚ) (diff : ℚ) : ℚ × ℚ :=
  if 0 ≤ diff then (total.1 + diff, total.2) else (total.1, total.2 + -diff)

def rsiSignal (closes : List ℚ) (period : ℤ) (minVal maxVal : ℚ) : Except String (List Bool) :=
  if period ≤ 0 then zeros closes.length
  else perBar closes.length fun i =>
    if (i : ℤ) < period then pure false
    else do
      let diffs ← changes closes period.toNat i
      let total := diffs.foldl gainLoss (0, 0)
      let r ← rsiOf (total.1 / period) (total.2 / period)
      pure (minVal < r ∧ r ≤ maxVal)

def donSignal (s : Ohlc) (n : ℕ) (high : Bool) : Except String (List Bool) :=
  perBar s.closes.length fun i => do
    match ← item (rangeBefore (if high then s.highs else s.lows) n high) i with
    | none => pure false
    | some lv => do
      let c ← item s.closes i
      if high then pure (lv < c)
      else do
        let atrVal ← item (atrSeries s NEAR_ATR_PERIOD) i
        pure (isNearLevel c lv atrVal)

/-- `_fallback_signal`, the predicate at every bar. -/
def fallbackSignal (sqrt : ℚ → ℚ) (s : Ohlc) (a : Atom) : Except String (List Bool) :=
  perBar s.closes.length fun i => a.eval sqrt s i

/-- `_atom_signal`, or the fallback for the names it does not know. -/
def atomSignal (sqrt : ℚ → ℚ) (s : Ohlc) : Atom → Except String (List Bool)
  | .smaStack periods => stackSignal s.closes periods
  | .smaAbove period => compareMa s.closes (smaArray s.closes period) true
  | .rsiRange period minVal maxVal => rsiSignal s.closes period minVal maxVal
  | .momGt lookback thr => momSignal s.closes lookback thr true
  | .momLt lookback thr => momSignal s.closes lookback thr false
  | .donHi n => donSignal s n true
  | .donLo n => donSignal s n false
  | .htfSma tf period => htfSignal s.closes tf.bars period
  | a => fallbackSignal sqrt s a

/-- `signal_series`: every part is built in full, then combined bar by bar. -/
def signalSeries (sqrt : ℚ → ℚ) (s : Ohlc) : Expr → Except String (List Bool)
  | .atom a => atomSignal sqrt s a
  | .both a b => do
    let x ← signalSeries sqrt s a
    let y ← signalSeries sqrt s b
    pure (List.zipWith (· && ·) x y)
  | .either a b => do
    let x ← signalSeries sqrt s a
    let y ← signalSeries sqrt s b
    pure (List.zipWith (· || ·) x y)

/-! ## The flags are the predicate -/

theorem perBar_congr {n : ℕ} {f g : ℕ → Except String Bool} (h : ∀ i < n, f i = g i) :
    perBar n f = perBar n g :=
  mapM_congr fun i hi => h i (List.mem_range.mp hi)

theorem perBar_ok {n : ℕ} {f : ℕ → Except String Bool} {flags : List Bool}
    (h : perBar n f = .ok flags) {i : ℕ} {b : Bool} (hb : flags[i]? = some b) : f i = .ok b := by
  obtain ⟨j, hj, hf⟩ := mapM_getElem? h hb
  obtain ⟨hlt, rfl⟩ := List.getElem?_eq_some_iff.mp hj
  rwa [List.getElem_range] at hf

theorem gainLoss_fold (diffs : List ℚ) (total : ℚ × ℚ) :
    diffs.foldl gainLoss total =
      (total.1 + (diffs.map fun d => max 0 d).sum,
        total.2 + (diffs.map fun d => max 0 (-d)).sum) := by
  induction diffs generalizing total with
  | nil => simp
  | cons d diffs ih =>
    rw [List.foldl_cons, ih]
    unfold gainLoss
    by_cases hd : 0 ≤ d
    · simp [hd, add_assoc]
    · have hd : d ≤ 0 := le_of_not_ge hd
      simp [not_le.mpr (lt_of_not_ge ‹_›), max_eq_left hd, max_eq_right (neg_nonneg.mpr hd),
        add_assoc]

theorem smaArray_item {closes : List ℚ} {i : ℕ} (period : ℕ) (hi : i < closes.length) :
    item (smaArray closes period) i = sma closes period i := by
  rw [sma_of_lt period hi]
  unfold smaArray smaSeries item
  by_cases hz : period = 0 ∨ closes.length < period
  · rw [if_pos hz, if_pos (by omega)]
    simp [hi]
  · rw [if_neg hz]
    by_cases hs : i < period - 1
    · simp [List.getElem?_range hi, hs]
    · simp [List.getElem?_range hi, hs, not_or.mp hz |>.1]

theorem rangeBefore_item {values : List ℚ} {i : ℕ} (n : ℕ) (high : Bool)
    (hi : i < values.length) :
    item (rangeBefore values n high) i = priorDonchian high values n i := by
  unfold priorDonchian
  by_cases hz : n < 1 ∨ i < n
  · rw [if_pos hz]
    unfold rangeBefore item
    by_cases hn : n < 1
    · simp [hn, hi]
    · rw [if_neg hn, rangePass_eq]
      simp [List.getElem?_range hi, Nat.not_le.mpr (hz.resolve_left hn)]
  · rw [if_neg hz]

theorem atrSeries_eq_atrAt {s : Ohlc} {i : ℕ} (period : ℕ) (hi : i < s.closes.length) :
    item (atrSeries s period) i = atrAt s period i := by
  unfold atrAt
  by_cases hz : i < period ∨ period = 0
  · rw [if_pos hz]
    unfold atrSeries item
    by_cases hn : period = 0 ∨ s.closes.length ≤ period
    · simp [hn, hi]
    · rw [if_neg hn]
      simp [List.getElem?_range hi, hz.resolve_right (not_or.mp hn).1]
  · rw [if_neg hz]

theorem stackSignal_eq (closes : List ℚ) (periods : List ℕ) :
    stackSignal closes periods = perBar closes.length (evalSmaStack closes periods) := by
  refine perBar_congr fun i hi => ?_
  unfold evalSmaStack
  rw [mapM_congr fun p _ => smaArray_item p hi]

theorem compareMa_eq (closes : List ℚ) (period : ℕ) :
    compareMa closes (smaArray closes period) true =
      perBar closes.length (evalSmaAbove closes period) := by
  refine perBar_congr fun i hi => ?_
  unfold evalSmaAbove
  rw [smaArray_item period hi]
  rfl

theorem momSignal_eq (closes : List ℚ) (lookback : ℕ) (thr : ℚ) (gt : Bool) :
    momSignal closes lookback thr gt =
      perBar closes.length fun i =>
        if gt then evalMomGt closes lookback thr i else evalMomLt closes lookback thr i := by
  unfold momSignal zeros
  by_cases hz : lookback = 0
  · rw [if_pos hz]
    refine perBar_congr fun i _ => ?_
    have hnan : rollingRet closes i lookback = .ok none := if_pos (.inr hz)
    unfold evalMomGt evalMomLt
    rw [hnan]
    cases gt <;> rfl
  · rw [if_neg hz]
    refine perBar_congr fun i hi => ?_
    unfold evalMomGt evalMomLt
    by_cases hl : i < lookback
    · have hnan : rollingRet closes i lookback = .ok none := if_pos (.inl hl)
      rw [if_pos hl, hnan]
      cases gt <;> rfl
    · have hret : rollingRet closes i lookback =
          (divide closes[i] closes[i - lookback]).map fun ratio => some (ratio - 1) := by
        unfold rollingRet
        rw [if_neg (by omega), item_of_lt hi, item_of_lt (by omega)]
        change (divide closes[i] closes[i - lookback] >>= fun ratio => pure (some (ratio - 1))) = _
        cases divide closes[i] closes[i - lookback] <;> rfl
      rw [if_neg hl, hret, item_of_lt hi, item_of_lt (by omega)]
      change (divide closes[i] closes[i - lookback] >>= fun ratio =>
        pure (if gt then decide (thr < ratio - 1) else decide (ratio - 1 < thr))) = _
      cases divide closes[i] closes[i - lookback] <;> cases gt <;> rfl

theorem htfSignal_eq (closes : List ℚ) (barsPer period : ℕ) :
    htfSignal closes barsPer period =
      perBar closes.length fun i => htfCloseAboveMa closes i barsPer period := by
  unfold htfSignal zeros
  by_cases hz : period = 0 ∨ barsPer = 0
  · rw [if_pos hz]
    refine perBar_congr fun i _ => ?_
    unfold htfCloseAboveMa
    rw [if_pos hz]
  · rw [if_neg hz]
    refine perBar_congr fun i hi => ?_
    unfold htfCloseAboveMa
    rw [if_neg hz]
    by_cases hc : completedHtfCount i barsPer < period
    · rw [if_pos hc, if_pos hc]
      rfl
    · rw [if_neg hc, if_neg hc]
      dsimp only
      by_cases hn : min (completedHtfCount i barsPer) (htfClosesAll closes barsPer).length < period
      · exact (if_pos hn).trans (if_pos hn).symm
      · have hidx : min (completedHtfCount i barsPer) (htfClosesAll closes barsPer).length - 1 <
            (htfClosesAll closes barsPer).length := by omega
        rw [if_neg hn, ← smaArray_item period hidx]
        exact if_neg hn

theorem rsiSignal_eq (closes : List ℚ) {period : ℤ} (minVal maxVal : ℚ) (hp : 0 < period) :
    rsiSignal closes period minVal maxVal =
      perBar closes.length (evalRsiRange closes period minVal maxVal) := by
  have hne : (period : ℚ) ≠ 0 := by exact_mod_cast hp.ne'
  unfold rsiSignal
  rw [if_neg (not_le.mpr hp)]
  refine perBar_congr fun i _ => ?_
  unfold evalRsiRange rsi
  by_cases hi : (i : ℤ) < period
  · rw [if_pos hi, if_pos hi]
    rfl
  · rw [if_neg hi, if_neg hi]
    cases changes closes period.toNat i with
    | error e => rfl
    | ok diffs =>
      simp only [bind, Except.bind, gainLoss_fold, zero_add, divide, if_neg hne]
      cases rsiOf ((diffs.map fun d => max 0 d).sum / (period : ℚ))
        ((diffs.map fun d => max 0 (-d)).sum / (period : ℚ)) <;> rfl

theorem donSignal_eq (s : Ohlc) (n : ℕ) (high : Bool) :
    donSignal s n high =
      perBar s.closes.length fun i => if high then donHi s n i else donLo s n i := by
  refine perBar_congr fun i hi => ?_
  cases high with
  | true =>
    unfold donHi priorDonchianHigh
    rw [if_pos rfl, if_pos rfl, rangeBefore_item n true (s.highs_length ▸ hi)]
    rfl
  | false =>
    unfold donLo priorDonchianLow
    rw [if_neg Bool.false_ne_true, if_neg Bool.false_ne_true,
      rangeBefore_item n false (s.lows_length ▸ hi), atrSeries_eq_atrAt NEAR_ATR_PERIOD hi]
    rfl

/-- No RSI window is empty. -/
def Atom.RsiPeriods : Atom → Prop
  | .rsiRange period _ _ => 0 < period
  | _ => True

def Expr.RsiPeriods : Expr → Prop
  | .atom a => a.RsiPeriods
  | .both a b => a.RsiPeriods ∧ b.RsiPeriods
  | .either a b => a.RsiPeriods ∧ b.RsiPeriods

theorem atomSignal_eq (sqrt : ℚ → ℚ) (s : Ohlc) {a : Atom} (ha : a.RsiPeriods) :
    atomSignal sqrt s a = fallbackSignal sqrt s a := by
  cases a with
  | smaStack periods => exact stackSignal_eq s.closes periods
  | smaAbove period => exact compareMa_eq s.closes period
  | rsiRange period minVal maxVal => exact rsiSignal_eq s.closes minVal maxVal ha
  | momGt lookback thr => exact momSignal_eq s.closes lookback thr true
  | momLt lookback thr => exact momSignal_eq s.closes lookback thr false
  | donHi n => exact donSignal_eq s n true
  | donLo n => exact donSignal_eq s n false
  | htfSma tf period => exact htfSignal_eq s.closes tf.bars period
  | _ => rfl

/-- The flags of a slice are the predicate at its bars. -/
theorem signalSeries_eval (sqrt : ℚ → ℚ) (s : Ohlc) {e : Expr} (he : e.RsiPeriods)
    {flags : List Bool} (h : signalSeries sqrt s e = .ok flags) {i : ℕ} {b : Bool}
    (hb : flags[i]? = some b) : e.eval sqrt s i = .ok b := by
  induction e generalizing flags b with
  | atom a =>
    rw [signalSeries, atomSignal_eq sqrt s he] at h
    exact perBar_ok h hb
  | both x y ihx ihy =>
    obtain ⟨fx, hx, h⟩ := except_bind_ok h
    obtain ⟨fy, hy, h⟩ := except_bind_ok h
    cases h
    obtain ⟨bx, bY, hbx, hby, rfl⟩ := List.getElem?_zipWith_eq_some.mp hb
    rw [Expr.eval, ihx he.1 hx hbx, ihy he.2 hy hby]
    cases bx <;> rfl
  | either x y ihx ihy =>
    obtain ⟨fx, hx, h⟩ := except_bind_ok h
    obtain ⟨fy, hy, h⟩ := except_bind_ok h
    cases h
    obtain ⟨bx, bY, hbx, hby, rfl⟩ := List.getElem?_zipWith_eq_some.mp hb
    rw [Expr.eval, ihx he.1 hx hbx, ihy he.2 hy hby]
    cases bx <;> rfl

end PaperTrading.Signals
