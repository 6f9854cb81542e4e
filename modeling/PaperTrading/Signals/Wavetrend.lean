import PaperTrading.Signals.Cut

/-!
# WaveTrend

`signals/wavetrend.py`: a chain of whole-series passes over the typical price,
each an average of the one before, with `nan` until its window is full. Every
pass is causal, so the two lines at bar `i` are those of the series cut after
bar `i`. The cache of the lines is left out.
-/

namespace PaperTrading.Signals

open Lib

def CHANNEL_LEN : ℕ := 10
def AVERAGE_LEN : ℕ := 21
def SIGNAL_LEN : ℕ := 4
def OS_LEVEL : ℚ := -60
def OB_LEVEL : ℚ := 60
def CI_SCALE : ℚ := 3 / 200

/-! ## Passes -/

/-- The loop of `_ema_series` behind its seed, which ends at a `nan`. -/
def wtEmaRun (k : ℚ) : ℚ → List (Option ℚ) → List (Option ℚ)
  | _, [] => []
  | _, none :: values => none :: values.map fun _ => none
  | val, some v :: values =>
    let val := v * k + val * (1 - k)
    some val :: wtEmaRun k val values

/-- `_ema_series` from its first value on, if the seed is whole. -/
def wtEmaSeeded (period : ℕ) (values : List (Option ℚ)) : List (Option ℚ) :=
  let seed := values.take period
  if period = 0 ∨ values.length < period ∨ anyNan seed then List.replicate values.length none
  else
    let k : ℚ := 2 / (period + 1)
    let val := seed.reduceOption.sum / period
    List.replicate (period - 1) none ++ some val :: wtEmaRun k val (values.drop period)

/-- `_ema_series`, which skips the leading `nan`s. -/
def wtEmaSeries (period : ℕ) : List (Option ℚ) → List (Option ℚ)
  | [] => []
  | none :: values => none :: wtEmaSeries period values
  | some v :: values => wtEmaSeeded period (some v :: values)

/-- `_sma_series`; a window that holds a `nan` has none. -/
def wtSmaSeries (period : ℕ) (values : List (Option ℚ)) : List (Option ℚ) :=
  if period = 0 ∨ values.length < period then List.replicate values.length none
  else (List.range values.length).map fun i =>
    if i < period - 1 then none
    else
      let window := lastWindow values period i
      if anyNan window then none else some (window.reduceOption.sum / period)

/-- `hlc3_series`; the three lists are of one length. -/
def hlc3Series (s : Ohlc) : List ℚ :=
  (List.range s.closes.length).map fun k =>
    (s.highs.getD k 0 + s.lows.getD k 0 + s.closes.getD k 0) / 3

/-- `abs(ap[k] - esa[k])`. -/
def wtDev (ap : ℚ) (esa : Option ℚ) : Option ℚ := esa.map fun e => |ap - e|

/-- One entry of `ci`. -/
def wtCi (ap : ℚ) (bands : Option ℚ × Option ℚ) : Option ℚ :=
  match bands with
  | (some e, some d) => if d = 0 then some 0 else some ((ap - e) / (CI_SCALE * d))
  | _ => none

/-- `WT1` and `WT2` of the whole series. -/
def wavetrendSeries (s : Ohlc) (channelLen averageLen signalLen : ℕ) :
    List (Option ℚ) × List (Option ℚ) :=
  let ap := hlc3Series s
  let esa := wtEmaSeries channelLen (ap.map some)
  let dev := ap.zipWith wtDev esa
  let d := wtEmaSeries channelLen dev
  let ci := ap.zipWith wtCi (esa.zip d)
  let wt1 := wtEmaSeries averageLen ci
  (wt1, wtSmaSeries signalLen wt1)

def wt1Series (s : Ohlc) : List (Option ℚ) :=
  (wavetrendSeries s CHANNEL_LEN AVERAGE_LEN SIGNAL_LEN).1

def wt2Series (s : Ohlc) : List (Option ℚ) :=
  (wavetrendSeries s CHANNEL_LEN AVERAGE_LEN SIGNAL_LEN).2

/-! ## Atoms -/

/-- `a` was at or under `b` a bar before `i` and is above it at `i`. -/
def crossOver (a b : List (Option ℚ)) (i : ℕ) : Except String Bool :=
  if i < 1 then pure false
  else do
    let a0 ← item a (i - 1)
    let b0 ← item b (i - 1)
    let a1 ← item a i
    let b1 ← item b i
    match a0, b0, a1, b1 with
    | some a0, some b0, some a1, some b1 => pure (a0 ≤ b0 ∧ b1 < a1)
    | _, _, _, _ => pure false

def crossUp (wt1 wt2 : List (Option ℚ)) (i : ℕ) : Except String Bool := crossOver wt1 wt2 i

def crossDown (wt1 wt2 : List (Option ℚ)) (i : ℕ) : Except String Bool := crossOver wt2 wt1 i

/-- `not math.isnan(wt2[i])` and `wt2[i]` in the zone. -/
def inZone (zone : ℚ → Bool) (wt2 : List (Option ℚ)) (i : ℕ) : Except String Bool := do
  match ← item wt2 i with
  | none => pure false
  | some w => pure (zone w)

/-- `WT1` crosses above `WT2` while `WT2` is oversold. -/
def wtCrossUpOs (s : Ohlc) (i : ℕ) : Except String Bool :=
  andThen (crossUp (wt1Series s) (wt2Series s) i) (inZone (· ≤ OS_LEVEL) (wt2Series s) i)

def wtBelowOs (s : Ohlc) (i : ℕ) : Except String Bool := inZone (· ≤ OS_LEVEL) (wt2Series s) i

def wtCrossDownOb (s : Ohlc) (i : ℕ) : Except String Bool :=
  andThen (crossDown (wt1Series s) (wt2Series s) i) (inZone (OB_LEVEL ≤ ·) (wt2Series s) i)

/-! ## No look-ahead -/

theorem wtEmaRun_take (k : ℚ) (values : List (Option ℚ)) : ∀ (val : ℚ) (m : ℕ),
    wtEmaRun k val (values.take m) = (wtEmaRun k val values).take m := by
  induction values with
  | nil =>
    intro val m
    simp [wtEmaRun]
  | cons v values ih =>
    intro val m
    cases m with
    | zero => rfl
    | succ m =>
      cases v with
      | none => simp [wtEmaRun]
      | some v => simp [wtEmaRun, ih]

theorem wtEmaSeeded_causal (period : ℕ) : Causal List.take (wtEmaSeeded period) := by
  intro values m
  unfold wtEmaSeeded
  dsimp only
  by_cases hz : period = 0 ∨ values.length < period
  · rw [if_pos (by simp only [List.length_take]; omega), if_pos (by omega), List.take_replicate,
      List.length_take]
  · by_cases hm : m < period
    · -- The cut is too short for the seed, and the seed's place is cut off.
      rw [if_pos (by simp only [List.length_take]; omega), List.length_take]
      split
      · rw [List.take_replicate]
      · rw [List.take_append_of_le_length (by rw [List.length_replicate]; omega),
          List.take_replicate]
        congr 1
        omega
    · have hseed : (values.take m).take period = values.take period := by
        rw [List.take_take, Nat.min_eq_left (by omega)]
      rw [hseed]
      by_cases hnan : anyNan (values.take period)
      · rw [if_pos (.inr (.inr hnan)), if_pos (.inr (.inr hnan)), List.take_replicate,
          List.length_take]
      · have htail : m - (period - 1) = m - period + 1 := by omega
        have hlong : ¬ (values.take m).length < period := by
          rw [List.length_take]
          omega
        rw [if_neg (by tauto), if_neg (by tauto), List.drop_take, wtEmaRun_take,
          List.take_append, List.length_replicate, List.take_replicate,
          Nat.min_eq_right (by omega), htail, List.take_succ_cons]

theorem wtEmaSeries_causal (period : ℕ) : Causal List.take (wtEmaSeries period) := by
  intro values
  induction values with
  | nil =>
    intro m
    simp [wtEmaSeries]
  | cons v values ih =>
    intro m
    cases m with
    | zero => simp [wtEmaSeries]
    | succ m =>
      cases v with
      | none => simp [wtEmaSeries, ih]
      | some v => exact wtEmaSeeded_causal period (some v :: values) (m + 1)

theorem wtSmaSeries_causal (period : ℕ) : Causal List.take (wtSmaSeries period) := by
  have hentry : ∀ values, wtSmaSeries period values = (List.range values.length).map fun i =>
      if i < period - 1 ∨ period = 0 then none
      else if anyNan (lastWindow values period i) then none
      else some ((lastWindow values period i).reduceOption.sum / period) := by
    intro values
    unfold wtSmaSeries
    by_cases hz : period = 0 ∨ values.length < period
    · rw [if_pos hz]
      refine (List.eq_replicate_iff.mpr ⟨by simp, fun b hb => ?_⟩).symm
      obtain ⟨i, hi, rfl⟩ := List.mem_map.mp hb
      have hi := List.mem_range.mp hi
      exact if_pos (by omega)
    · rw [if_neg hz]
      refine List.map_congr_left fun i _ => ?_
      by_cases hi : i < period - 1
      · rw [if_pos hi, if_pos (.inl hi)]
      · rw [if_neg hi, if_neg (show ¬ (i < period - 1 ∨ period = 0) by omega)]
  simp only [funext hentry]
  refine causal_perEntry (fun m values => List.length_take) fun values m i hi => ?_
  rw [lastWindow_take values hi]

theorem hlc3Series_causal : Causal Ohlc.take hlc3Series := by
  refine causal_perEntry (fun m s => List.length_take) fun s m i hi => ?_
  simp only [Ohlc.take_closes, Ohlc.take_highs, Ohlc.take_lows]
  rw [getD_take s.highs hi, getD_take s.lows hi, getD_take s.closes hi]

theorem wt1Series_causal : Causal Ohlc.take wt1Series := by
  have hesa : Causal Ohlc.take fun s => wtEmaSeries CHANNEL_LEN ((hlc3Series s).map some) :=
    (wtEmaSeries_causal _).comp (hlc3Series_causal.map some)
  have hd : Causal Ohlc.take fun s => wtEmaSeries CHANNEL_LEN
      ((hlc3Series s).zipWith wtDev (wtEmaSeries CHANNEL_LEN ((hlc3Series s).map some))) :=
    (wtEmaSeries_causal _).comp (hlc3Series_causal.zipWith wtDev hesa)
  exact (wtEmaSeries_causal _).comp
    (hlc3Series_causal.zipWith wtCi (hesa.zipWith Prod.mk hd))

theorem wt2Series_causal : Causal Ohlc.take wt2Series :=
  (wtSmaSeries_causal SIGNAL_LEN).comp wt1Series_causal

theorem crossOver_causal {a b : Ohlc → List (Option ℚ)} (ha : Causal Ohlc.take a)
    (hb : Causal Ohlc.take b) : CausalAt Ohlc.take fun s i => crossOver (a s) (b s) i := by
  intro s m i hi
  dsimp only
  unfold crossOver
  rw [item_causal ha s hi, item_causal hb s hi, item_causal ha s (i := i - 1) (by omega),
    item_causal hb s (i := i - 1) (by omega)]

theorem inZone_take (s : Ohlc) {m i : ℕ} (hi : i < m) (zone : ℚ → Bool) :
    inZone zone (wt2Series (s.take m)) i = inZone zone (wt2Series s) i := by
  unfold inZone
  rw [item_causal wt2Series_causal s hi]

theorem wtCrossUpOs_take (s : Ohlc) {m i : ℕ} (hi : i < m) :
    wtCrossUpOs (s.take m) i = wtCrossUpOs s i :=
  congrArg₂ andThen (crossOver_causal wt1Series_causal wt2Series_causal s m i hi)
    (inZone_take s hi _)

theorem wtBelowOs_take (s : Ohlc) {m i : ℕ} (hi : i < m) :
    wtBelowOs (s.take m) i = wtBelowOs s i :=
  inZone_take s hi _

theorem wtCrossDownOb_take (s : Ohlc) {m i : ℕ} (hi : i < m) :
    wtCrossDownOb (s.take m) i = wtCrossDownOb s i :=
  congrArg₂ andThen (crossOver_causal wt2Series_causal wt1Series_causal s m i hi)
    (inZone_take s hi _)

end PaperTrading.Signals
