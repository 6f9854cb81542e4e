import PaperTrading.Signals.Precompute
import PaperTrading.Signals.Parse

/-!
# The precomputed signal of a text

`signals/precompute.py` reads the strategy text a second time and builds the
flags of a whole series: each operand's flags in full, then combined bar by bar.
An operand that is empty is dropped; a name it does not know is handed to
`parse_strategy`. The byte-budget caches, keyed by the content of the series and
the text, are left out.

The flags of one name are the condition's answers (`nearSwingSignal_eq` and the
lemmas beside it), but for an RSI over 0 bars, which is off here and raises there.
-/

namespace PaperTrading.Signals

open Lib

/-! ## Names over the series -/

/-- `ema_array`, the series of `_ema_series` under another cache. -/
def emaArray (closes : List ℚ) (period : ℕ) : List (Option ℚ) := emaSeries closes period

/-- `_stack_signal`, where `array` is the average `kind` names. -/
def stackSignalOf (array : List ℚ → ℕ → List (Option ℚ)) (closes : List ℚ) (periods : List ℕ) :
    Except String (List Bool) :=
  perBar closes.length fun i => do
    let vals ← periods.mapM fun p => item (array closes p) i
    if anyNan vals then pure false else stacked closes vals.reduceOption i

/-- `_htf_signal`, where `array` is the average `kind` names. -/
def htfSignalOf (array : List ℚ → ℕ → List (Option ℚ)) (closes : List ℚ) (barsPer period : ℕ) :
    Except String (List Bool) :=
  if period = 0 ∨ barsPer = 0 then zeros closes.length
  else
    let htf := (List.range (closes.length / barsPer)).map fun k =>
      closes.getD (htfBucketCloseIndex k barsPer) 0
    let ma := array htf period
    perBar closes.length fun i =>
      if completedHtfCount i barsPer < period then pure false
      else
        let nComplete := min (completedHtfCount i barsPer) htf.length
        if nComplete < period then pure false
        else do
          let idx := nComplete - 1
          match ← item ma idx with
          | none => pure false
          | some v => do
            let c ← item htf idx
            pure (v < c)

/-- The pivots not passed yet, and the last two that were. -/
structure SwingPass where
  rest : List (ℕ × ℚ)
  older : Option ℚ
  newer : Option ℚ

/-- `while p < n_piv and idx[p] + k <= i`. -/
def drainSwings (k i : ℕ) (older newer : Option ℚ) : List (ℕ × ℚ) → SwingPass
  | [] => ⟨[], older, newer⟩
  | p :: rest =>
    if p.1 + k ≤ i then drainSwings k i newer (some p.2) rest else ⟨p :: rest, older, newer⟩

/-- The pass over the pivots after bar `i`. -/
def swingPass (pivots : List (ℕ × ℚ)) (k : ℕ) : ℕ → SwingPass
  | 0 => drainSwings k 0 none none pivots
  | i + 1 =>
    let pass := swingPass pivots k i
    drainSwings k (i + 1) pass.older pass.newer pass.rest

/-- `_near_swing_signal`, whose `last` is the newer of the two. -/
def nearSwingSignal (s : Ohlc) (k : ℕ) (high : Bool) : Except String (List Bool) :=
  let pivots := pivotArrays (if high then s.highs else s.lows) k high
  perBar s.closes.length fun i =>
    match (swingPass pivots k i).newer with
    | none => pure false
    | some last => do
      let c ← item s.closes i
      let atrVal ← item (atrSeries s NEAR_ATR_PERIOD) i
      pure (isNearLevel c last atrVal)

/-- `_dbl_signal`. -/
def dblSignal (s : Ohlc) (k : ℕ) (top : Bool) : Except String (List Bool) :=
  let pivots := pivotArrays (if top then s.highs else s.lows) k top
  perBar s.closes.length fun i =>
    let pass := swingPass pivots k i
    match pass.older, pass.newer with
    | some older, some newer => do
      let atrVal ← item (atrSeries s NEAR_ATR_PERIOD) i
      if swingsHold older newer atrVal then do
        let c ← item s.closes i
        pure (if top then c < newer else newer < c)
      else pure false
    | _, _ => pure false

/-! ## Rules -/

abbrev SignalRule := Text → Option (Except String (List Bool))

section Rules

variable (s : Ohlc)

def nearSwingFast : SignalRule :=
  rule (sideName "near_swing_" ["hi", "lo"]) fun m => do
    let k ← intOf m.2
    nearSwingSignal s k (m.1 = "hi")

def dblFast : SignalRule :=
  rule (sideName "dbl_" ["bot", "top"]) fun m => do
    let k ← intOf m.2
    dblSignal s k (m.1 = "top")

def donFast : SignalRule :=
  rule (sideName "don_" ["hi", "lo"]) fun m => do
    let n ← intOf m.2
    donSignal s n (m.1 = "hi")

def smaStackFast : SignalRule :=
  rule (stackName "sma") fun ps => do
    let periods ← periodsOf ps
    stackSignalOf smaArray s.closes periods

def emaStackFast : SignalRule :=
  rule (stackName "ema") fun ps => do
    let periods ← periodsOf ps
    stackSignalOf emaArray s.closes periods

def smaAboveFast : SignalRule := fun t =>
  if "sma_stack".toList.isPrefixOf t then none
  else rule (aboveName "sma") (fun p => do
    let period ← intOf p
    compareMa s.closes (smaArray s.closes period) true) t

def emaAboveFast : SignalRule := fun t =>
  if "ema_stack".toList.isPrefixOf t then none
  else rule (aboveName "ema") (fun p => do
    let period ← intOf p
    compareMa s.closes (emaArray s.closes period) true) t

def momFast : SignalRule :=
  rule (moveName "mom_" "_gt") fun m => do
    let val ← intOf m.2
    let lb ← intOf m.1
    momSignal s.closes lb (momThr val) true

def dipFast : SignalRule :=
  rule (moveName "dip_" "_lt") fun m => do
    let val ← intOf m.2
    let lb ← intOf m.1
    momSignal s.closes lb (dipThr val) false

def htfFast : SignalRule :=
  rule htfName fun m => do
    let period ← intOf m.2.2
    htfSignalOf (if m.2.1 = "sma" then smaArray else emaArray) s.closes (timeframeOf m.1).bars period

def rsiFullFast : SignalRule :=
  rule rsiFullName fun m => do
    let ov ← overOf m.2.2
    let p ← intOf m.1
    let th ← intOf m.2.1
    rsiSignal s.closes p th ov

def rsiLtFast : SignalRule :=
  rule rsiLtName fun m => do
    let p ← intOf m.1
    let th ← intOf m.2
    rsiSignal s.closes p (-1) th

def rsiShortFast : SignalRule :=
  rule (pairName "rsi_") fun m => do
    let p ← intOf m.1
    let th ← intOf m.2
    rsiSignal s.closes p th 100

/-- The patterns of `_atom_signal`, in its order. -/
def FAST_RULES : List SignalRule :=
  [nearSwingFast s, dblFast s, donFast s, smaStackFast s, emaStackFast s, smaAboveFast s,
    emaAboveFast s, momFast s, dipFast s, htfFast s, rsiFullFast s, rsiLtFast s, rsiShortFast s]

end Rules

/-- `_fallback_signal` of a text. -/
def textFallback (sqrt : ℚ → ℚ) (s : Ohlc) (t : Text) : Except String (List Bool) := do
  let pred ← parseStrategy sqrt t
  perBar s.closes.length (pred s)

/-- The flags of a text without separators. -/
def nameSeries (sqrt : ℚ → ℚ) (s : Ohlc) (t : Text) : Except String (List Bool) :=
  firstRule (FAST_RULES s) (textFallback sqrt s t) t

/-! ## Operands -/

def How.combine : How → List Bool → List Bool → List Bool
  | .all => List.zipWith (· && ·)
  | .any => List.zipWith (· || ·)

/-- `_combine` of the operands built, or no flags where none was left. -/
def combineSeries (how : How) (n : ℕ) : List (List Bool) → Except String (List Bool)
  | [] => zeros n
  | first :: rest => .ok (rest.foldl how.combine first)

/-- `[part for part in parts if part]`. -/
def kept (parts : List Text) : List Text := parts.filter fun part => !part.isEmpty

/-- `_build`. -/
def buildSeries (sqrt : ℚ → ℚ) (s : Ohlc) (expr : Text) : Except String (List Bool) :=
  match _h : splitTop (strip expr) with
  | some (how, parts) => do
    let built ← (kept parts).attach.mapM fun part => buildSeries sqrt s part.1
    combineSeries how s.closes.length built
  | none => nameSeries sqrt s (strip expr)
  termination_by separators expr
  decreasing_by exact separators_lt _h (List.mem_of_mem_filter part.2)

/-- `signal_series` of a text. -/
def textSignalSeries (sqrt : ℚ → ℚ) (s : Ohlc) (expr : Text) : Except String (List Bool) :=
  buildSeries sqrt s (strip expr)

theorem buildSeries_split {sqrt : ℚ → ℚ} {s : Ohlc} {expr : Text} {how : How} {parts : List Text}
    (h : splitTop (strip expr) = some (how, parts)) :
    buildSeries sqrt s expr = ((kept parts).mapM (buildSeries sqrt s) >>=
      combineSeries how s.closes.length) := by
  rw [buildSeries]
  split
  next how' parts' h' =>
    cases h.symm.trans h'
    rw [mapM_attach]
  next h' => cases h.symm.trans h'

theorem buildSeries_name {sqrt : ℚ → ℚ} {s : Ohlc} {expr : Text}
    (h : splitTop (strip expr) = none) :
    buildSeries sqrt s expr = nameSeries sqrt s (strip expr) := by
  rw [buildSeries]
  split
  next how' parts' h' => cases h.symm.trans h'
  next h' => rfl

/-! ## The flags of an average -/

theorem emaArray_item {closes : List ℚ} {i : ℕ} (period : ℕ) (hi : i < closes.length) :
    item (emaArray closes period) i = ema closes period i := by
  unfold ema
  by_cases hz : i < period - 1 ∨ period = 0
  · rw [if_pos hz]
    unfold emaArray emaSeries item
    by_cases hn : period = 0 ∨ closes.length < period
    · rw [if_pos hn, List.getElem?_replicate, if_pos hi]
    · have hseed : i < period - 1 := by omega
      rw [if_neg hn, List.getElem?_append_left (by simpa using hseed), List.getElem?_replicate,
        if_pos hseed]
  · rw [if_neg hz]
    rfl

section Averages

variable {array : List ℚ → ℕ → List (Option ℚ)} {ma : List ℚ → ℕ → ℕ → Except String (Option ℚ)}
  (h : ∀ {closes : List ℚ} {i : ℕ} (period : ℕ), i < closes.length →
    item (array closes period) i = ma closes period i)

include h

theorem stackSignalOf_eq (closes : List ℚ) (periods : List ℕ) :
    stackSignalOf array closes periods = perBar closes.length (evalStack ma closes periods) := by
  refine perBar_congr fun i hi => ?_
  unfold evalStack
  rw [mapM_congr fun p _ => h p hi]

theorem compareMa_above (closes : List ℚ) (period : ℕ) :
    compareMa closes (array closes period) true =
      perBar closes.length (evalAbove ma closes period) := by
  refine perBar_congr fun i hi => ?_
  unfold evalAbove
  rw [h period hi]
  rfl

theorem htfSignalOf_eq (closes : List ℚ) (barsPer period : ℕ) :
    htfSignalOf array closes barsPer period =
      perBar closes.length fun i => htfCloseAbove ma closes i barsPer period := by
  unfold htfSignalOf zeros
  by_cases hz : period = 0 ∨ barsPer = 0
  · rw [if_pos hz]
    refine perBar_congr fun i _ => ?_
    unfold htfCloseAbove
    rw [if_pos hz]
  · rw [if_neg hz]
    refine perBar_congr fun i hi => ?_
    unfold htfCloseAbove
    rw [if_neg hz]
    by_cases hc : completedHtfCount i barsPer < period
    · rw [if_pos hc, if_pos hc]
      rfl
    · rw [if_neg hc, if_neg hc]
      dsimp only
      by_cases hn : min (completedHtfCount i barsPer) (htfClosesAll closes barsPer).length < period
      · exact (if_pos hn).trans (if_pos hn).symm
      · have hidx : min (completedHtfCount i barsPer) (htfClosesAll closes barsPer).length - 1 <
            (htfClosesAll closes barsPer).length := by omega
        rw [if_neg hn, ← h period hidx]
        exact if_neg hn

end Averages

/-! ## The flags of the swings -/

/-- A pivot whose `k` right-hand bars are there by bar `i`. -/
def passed (k i : ℕ) (p : ℕ × ℚ) : Bool := p.1 + k ≤ i

/-- The last two pivots, when one more is passed. -/
def shiftSwing (last : Option ℚ × Option ℚ) (p : ℕ × ℚ) : Option ℚ × Option ℚ :=
  (last.2, some p.2)

/-- The last two of the pivots passed, none before the first. -/
def lastTwo (pivots : List (ℕ × ℚ)) : Option ℚ × Option ℚ :=
  pivots.foldl shiftSwing (none, none)

theorem drainSwings_eq (k i : ℕ) (pivots : List (ℕ × ℚ)) (older newer : Option ℚ) :
    drainSwings k i older newer pivots =
      { rest := pivots.dropWhile (passed k i)
        older := ((pivots.takeWhile (passed k i)).foldl shiftSwing (older, newer)).1
        newer := ((pivots.takeWhile (passed k i)).foldl shiftSwing (older, newer)).2 } := by
  induction pivots generalizing older newer with
  | nil => rfl
  | cons p pivots ih =>
    unfold drainSwings
    by_cases hp : p.1 + k ≤ i
    · have hpass : passed k i p = true := decide_eq_true hp
      rw [if_pos hp, ih, List.dropWhile_cons, List.takeWhile_cons, if_pos hpass, if_pos hpass]
      rfl
    · have hstay : passed k i p = false := decide_eq_false hp
      rw [if_neg hp, List.dropWhile_cons, List.takeWhile_cons, hstay]
      rfl

/-- What a stricter test takes, then what the looser one takes of the rest. -/
theorem takeWhile_of_imp {α : Type} {p q : α → Bool} (h : ∀ a, p a = true → q a = true)
    (l : List α) : l.takeWhile q = l.takeWhile p ++ (l.dropWhile p).takeWhile q ∧
      l.dropWhile q = (l.dropWhile p).dropWhile q := by
  induction l with
  | nil => exact ⟨rfl, rfl⟩
  | cons a l ih =>
    by_cases hp : p a = true
    · simp [hp, h a hp, ih.1, ih.2]
    · simp [hp]

theorem swingPass_eq (pivots : List (ℕ × ℚ)) (k i : ℕ) : swingPass pivots k i =
    { rest := pivots.dropWhile (passed k i)
      older := (lastTwo (pivots.takeWhile (passed k i))).1
      newer := (lastTwo (pivots.takeWhile (passed k i))).2 } := by
  induction i with
  | zero => exact drainSwings_eq k 0 pivots none none
  | succ i ih =>
    have himp : ∀ p, passed k i p = true → passed k (i + 1) p = true := by
      intro p hp
      exact decide_eq_true (Nat.le_succ_of_le (of_decide_eq_true hp))
    obtain ⟨htake, hdrop⟩ := takeWhile_of_imp himp pivots
    unfold swingPass
    rw [ih]
    dsimp only
    rw [drainSwings_eq, htake, hdrop]
    unfold lastTwo
    rw [List.foldl_append]

theorem lastTwo_eq (pivots : List (ℕ × ℚ)) :
    lastTwo pivots = ((pivots.reverse.tail.head?).map (·.2), (pivots.reverse.head?).map (·.2)) := by
  induction pivots using List.reverseRecOn with
  | nil => rfl
  | append_singleton pivots p ih =>
    unfold lastTwo at ih ⊢
    rw [List.foldl_append, ih, List.reverse_append]
    rfl

/-- The pivots the pass has met by bar `i`, newest first, are the confirmed ones. -/
theorem passed_swings {values : List ℚ} {k i : ℕ} (high : Bool) (hi : i < values.length) :
    confirmedSwings values k i high none =
      ((pivotArrays values k high).takeWhile (passed k i)).reverse := by
  rw [confirmedSwings_eq high none hi]
  by_cases hk : k < 1
  · have hnone : pivotArrays values k high = [] := if_pos (.inl hk)
    rw [if_pos hk, hnone]
    rfl
  · obtain ⟨later, hsplit, hlater⟩ := pivotArrays_split high (Nat.le_of_not_lt hk) hi
    have hin : ∀ p ∈ swingsBy values k high i, passed k i p = true := fun p hp =>
      decide_eq_true (swingsBy_index hp)
    have hout : later.takeWhile (passed k i) = [] := by
      cases later with
      | nil => rfl
      | cons p later =>
        have hstay : passed k i p = false :=
          decide_eq_false (Nat.not_le.mpr (hlater p List.mem_cons_self))
        rw [List.takeWhile_cons, hstay]
        rfl
    rw [if_neg hk, hsplit, List.takeWhile_append_of_pos hin, hout, List.append_nil]
    rfl

theorem confirmedSwings_some {values : List ℚ} {k i : ℕ} (high : Bool) (l : ℕ)
    (hi : i < values.length) : confirmedSwings values k i high (some l) =
      (confirmedSwings values k i high none).take l := by
  rw [confirmedSwings_eq high _ hi, confirmedSwings_eq high _ hi]
  by_cases hk : k < 1
  · rw [if_pos hk, if_pos hk, List.take_nil]
  · rw [if_neg hk, if_neg hk]
    rfl

theorem nearSwingSignal_eq (s : Ohlc) (k : ℕ) (high : Bool) :
    nearSwingSignal s k high = perBar s.closes.length fun i => nearSwing s k i high := by
  refine perBar_congr fun i hi => ?_
  have hlen : i < (if high then s.highs else s.lows).length := by
    cases high
    · exact s.lows_length ▸ hi
    · exact s.highs_length ▸ hi
  have hlast : (swingPass (pivotArrays (if high then s.highs else s.lows) k high) k i).newer =
      lastConfirmedSwing (if high then s.highs else s.lows) k i high := by
    rw [swingPass_eq, lastTwo_eq, ← passed_swings high hlen]
    unfold lastConfirmedSwing
    rw [confirmedSwings_some high 1 hlen]
    cases confirmedSwings (if high then s.highs else s.lows) k i high none <;> rfl
  unfold nearSwing
  rewrite [hlast, atrSeries_eq_atrAt NEAR_ATR_PERIOD hi]
  rfl

theorem dblSignal_eq (s : Ohlc) (k : ℕ) (top : Bool) :
    dblSignal s k top = perBar s.closes.length fun i => doubled s k i top := by
  refine perBar_congr fun i hi => ?_
  have hlen : i < (if top then s.highs else s.lows).length := by
    cases top
    · exact s.lows_length ▸ hi
    · exact s.highs_length ▸ hi
  unfold doubled
  dsimp only
  rw [swingPass_eq, lastTwo_eq, ← passed_swings top hlen, confirmedSwings_some top 2 hlen,
    atrSeries_eq_atrAt NEAR_ATR_PERIOD hi]
  -- No swing, one swing, or at least the two that are asked for.
  rcases confirmedSwings (if top then s.highs else s.lows) k i top none with _ | ⟨a, _ | ⟨b, l⟩⟩
  · rfl
  · rfl
  · rfl

end PaperTrading.Signals
