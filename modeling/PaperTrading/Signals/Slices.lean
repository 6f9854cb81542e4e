import PaperTrading.Signals.Segments
import PaperTrading.Trading.Loop

/-!
# One bar on several slices

The live cycle evaluates a strategy on the last `liveSignalEvalBars` bars of the
tape (`trading/live_tape.py`), the walk-forward evaluation on a segment slice,
and the lot-health badge on at most `SIGNAL_LIMIT` bars (`web/lot_health.py`).

`slice_free_iff` says when they agree at a bar that all of them hold with the
strategy's whole lookback: the slices must start in the same phase of every
higher-timeframe bucket the strategy reads. For a single atom this is also
necessary. `slice_start_matters` is a bar where the badge and the live cycle
differ.
-/

namespace PaperTrading.Signals

open Trading (Candle Strategy Direction computeSignal QUAL_TIMEFRAME)

/-! ## The three readers -/

/-- `live_signal_eval_bars()`. -/
def liveSignalEvalBars : ℕ := QUAL_WINDOW_BARS + QUAL_WARMUP_BARS

/-- `signal_candles`, the last `n` bars of the tape. -/
def signalCandles (tape : List Candle) (n : ℕ) : List Candle := tape.drop (tape.length - n)

/-- `lot-health lookback`. -/
def SIGNAL_LIMIT : ℕ := 200

/-- `try_recent_candles`, the last bars up to the limit. -/
def tryRecentCandles (tape : List Candle) (limit : ℕ) : List Candle :=
  signalCandles tape (min (max 1 limit) SIGNAL_LIMIT)

/-- A parsed strategy as `compute_signal` runs it, at the last index. -/
def Expr.strategy (sqrt : ℚ → ℚ) (name : String) (e : Expr) : Strategy where
  name := name
  evaluate := fun bars => e.eval sqrt (.of bars) (bars.length - 1)

/-- `strategy_signal_flags`, the predicate at every bar of one series. -/
def strategySignalFlags (sqrt : ℚ → ℚ) (candles : List Candle) (e : Expr) :
    Except String (List Bool) :=
  perBar candles.length fun i => e.eval sqrt (.of candles) i

/-- The direction the live cycle sees once bar `t` is the last one. -/
def liveDecision (sqrt : ℚ → ℚ) (name : String) (e : Expr) (symbol : String)
    (tape : List Candle) (t : ℕ) : Except String Direction :=
  (computeSignal (signalCandles (tape.take (t + 1)) liveSignalEvalBars) symbol QUAL_TIMEFRAME
    (e.strategy sqrt name)).map (·.direction)

inductive Badge where
  | on
  | wouldExit
  | unknown
deriving DecidableEq, Repr

/-- `lot_signal`. -/
def lotSignal (strategy : Option Strategy) (candles : List Candle) (symbol : String) : Badge :=
  match strategy with
  | none => .unknown
  | some s =>
    if s.name = "" ∨ candles.length < 2 then .unknown
    else match computeSignal candles symbol QUAL_TIMEFRAME s with
      | .error _ => .unknown
      | .ok sig => if sig.direction = .long then .on else .wouldExit

theorem computeSignal_direction {bars : List Candle} {symbol timeframe : String} {s : Strategy}
    {b : Bool} (hlen : 2 ≤ bars.length) (h : s.evaluate bars = .ok b) :
    (computeSignal bars symbol timeframe s).map (·.direction) =
      .ok (if b then Direction.long else Direction.flat) := by
  unfold computeSignal
  dsimp only
  rw [List.length_map, if_neg (by omega), h]
  rfl

/-- The last `n` bars up to bar `t`, as a slice of the tape. -/
theorem signalCandles_take {tape : List Candle} {t : ℕ} (n : ℕ) (ht : t < tape.length) :
    signalCandles (tape.take (t + 1)) n = slice tape (t + 1 - n) (t + 1) := by
  unfold signalCandles slice
  rw [List.length_take, Nat.min_eq_left ht]

/-! ## Slices that hold the lookback -/

/-- 5m bars one after the other. -/
def Contiguous (tape : List Candle) : Prop :=
  ∃ first : ℤ, tape.map (·.ts) = (List.range tape.length).map fun k : ℕ => first + TF_MS_5M * k

/-- `tape[start : stop]` ends at or after bar `t` and has the `L` bars up to it. -/
structure HoldsBar (tape : List Candle) (start stop t L : ℕ) : Prop where
  ends : t < stop
  on_tape : stop ≤ tape.length
  starts : start ≤ t
  lookback : start + L ≤ t + 1

/-- The strategy says the same at every bar of every tape on the slice from `a`
and on the slice from `b`. -/
def SliceFree (sqrt : ℚ → ℚ) (e : Expr) (a b : ℕ) : Prop :=
  ∀ (tape : List Candle) (t stop stop' : ℕ), Contiguous tape →
    HoldsBar tape a stop t e.lookback → HoldsBar tape b stop' t e.lookback →
      e.eval sqrt (.of (slice tape a stop)) (t - a) =
        e.eval sqrt (.of (slice tape b stop')) (t - b)

/-- The two starts are in the same phase of every bucket the strategy reads. -/
def InPhase (e : Expr) (a b : ℕ) : Prop := ∀ tf ∈ e.timeframes, a ≡ b [MOD tf.bars]

theorem phase_eq {a b t m : ℕ} (h : a ≡ b [MOD m]) (ha : a ≤ t) (hb : b ≤ t) :
    (t - a + 1) % m = (t - b + 1) % m := by
  have hsum : a + (t - a + 1) ≡ b + (t - b + 1) [MOD m] := by
    rw [show a + (t - a + 1) = b + (t - b + 1) by omega]
  exact Nat.ModEq.add_left_cancel h hsum

/-- Slices in phase agree at a bar both hold. -/
theorem eval_slice {tape : List Candle} {a b stop stop' t : ℕ} (sqrt : ℚ → ℚ) {e : Expr}
    (hphase : InPhase e a b) (ha : HoldsBar tape a stop t e.lookback)
    (hb : HoldsBar tape b stop' t e.lookback) :
    e.eval sqrt (.of (slice tape a stop)) (t - a) =
      e.eval sqrt (.of (slice tape b stop')) (t - b) := by
  have htail := slice_sameTail ha.ends ha.on_tape hb.ends hb.on_tape ha.lookback hb.lookback
    ha.starts hb.starts
  exact e.eval_sameBars sqrt (.of htail) le_rfl fun tf htf =>
    phase_eq (hphase tf htf) ha.starts hb.starts

theorem sliceFree_of_inPhase (sqrt : ℚ → ℚ) {e : Expr} {a b : ℕ} (h : InPhase e a b) :
    SliceFree sqrt e a b :=
  fun _ _ _ _ _ ha hb => eval_slice sqrt h ha hb

/-- `compute_signal` on the last `n` bars up to `t`, from the predicate on any
slice in phase with them. -/
theorem computeSignal_slice {tape : List Candle} {a stop t n : ℕ} (sqrt : ℚ → ℚ) (name : String)
    {e : Expr} (symbol : String) {b : Bool} (hphase : InPhase e a (t + 1 - n))
    (ha : HoldsBar tape a stop t e.lookback) (hn : e.lookback ≤ n) (hn' : 2 ≤ n) (ht : 1 ≤ t)
    (heval : e.eval sqrt (.of (slice tape a stop)) (t - a) = .ok b) :
    (computeSignal (signalCandles (tape.take (t + 1)) n) symbol QUAL_TIMEFRAME
      (e.strategy sqrt name)).map (·.direction) =
        .ok (if b then Direction.long else Direction.flat) := by
  have hstop := ha.on_tape
  have hend := ha.ends
  have hlook := ha.lookback
  have hn0 : HoldsBar tape (t + 1 - n) (t + 1) t e.lookback :=
    ⟨by omega, by omega, by omega, by omega⟩
  have hlen : (slice tape (t + 1 - n) (t + 1)).length = t + 1 - (t + 1 - n) := by
    unfold slice
    rw [List.length_drop, List.length_take]
    omega
  rw [signalCandles_take n (by omega)]
  refine computeSignal_direction (by omega) ?_
  have hlast : (slice tape (t + 1 - n) (t + 1)).length - 1 = t - (t + 1 - n) := by omega
  change e.eval sqrt (.of (slice tape (t + 1 - n) (t + 1))) _ = .ok b
  rw [hlast, ← eval_slice sqrt hphase ha hn0, heval]

/-! ## Out of phase -/

/-- A bar at one price. -/
def priceBar (k : ℕ) (price : ℚ) : Candle :=
  { ts := TF_MS_5M * k, «open» := price, high := price, low := price, close := price, volume := 1 }

/-- Bars at 1 up to bar `t`, which is at 2. -/
def spikeTape (t : ℕ) : List Candle :=
  (List.range (t + 1)).map fun k => priceBar k (if k = t then 2 else 1)

/-- `n` closes at 1 and one at 2. -/
def spike (n : ℕ) : List ℚ := List.replicate n 1 ++ [2]

theorem spikeTape_contiguous (t : ℕ) : Contiguous (spikeTape t) := by
  refine ⟨0, ?_⟩
  unfold spikeTape
  rw [List.map_map, List.length_map, List.length_range]
  exact List.map_congr_left fun k _ => by simp [priceBar]

theorem spikeTape_holds {a t L : ℕ} (ha : a ≤ t) (hL : a + L ≤ t + 1) :
    HoldsBar (spikeTape t) a (t + 1) t L :=
  ⟨Nat.lt_succ_self t, by simp [spikeTape], ha, hL⟩

theorem spikeTape_closes {a t : ℕ} (ha : a ≤ t) :
    (Ohlc.of (slice (spikeTape t) a (t + 1))).closes = spike (t - a) := by
  have hones : (List.range t).map (fun k => (priceBar k (if k = t then 2 else 1)).close) =
      List.replicate t 1 := by
    refine List.map_eq_replicate_iff.mpr ?_ |>.trans (by rw [List.length_range])
    intro k hk
    simp [priceBar, (List.mem_range.mp hk).ne]
  have hall : (spikeTape t).map (·.close) = List.replicate t 1 ++ [2] := by
    unfold spikeTape
    rw [List.map_map, List.range_succ, List.map_append]
    exact congrArg₂ (· ++ ·) hones (by simp [priceBar])
  unfold Ohlc.of slice spike
  dsimp only
  rw [List.map_drop, List.map_take, hall, List.take_of_length_le (by simp),
    List.drop_append_of_le_length (by simpa using ha), List.drop_replicate]

theorem spike_getD_lt {n k : ℕ} (h : k < n) : (spike n).getD k 0 = 1 := by
  unfold spike
  rw [List.getD_eq_getElem?_getD, List.getElem?_append_left (by simpa using h)]
  simp [h]

theorem spike_getD_last (n : ℕ) : (spike n).getD n 0 = 2 := by
  unfold spike
  rw [List.getD_eq_getElem?_getD, List.getElem?_append_right (by simp)]
  simp

theorem htfClosesAll_spike_in {i m : ℕ} (hm : 0 < m) (hphase : (i + 1) % m = 0) :
    htfClosesAll (spike i) m = spike ((i + 1) / m - 1) := by
  have hmul : m * ((i + 1) / m) = i + 1 := Nat.mul_div_cancel' (Nat.dvd_of_mod_eq_zero hphase)
  obtain ⟨n, hn⟩ : ∃ n, (i + 1) / m = n + 1 :=
    Nat.exists_eq_succ_of_ne_zero fun h0 => by rw [h0] at hmul; omega
  rw [hn] at hmul
  unfold htfClosesAll htfBucketCloseIndex
  rw [show (spike i).length = i + 1 by simp [spike], hn, List.range_succ, List.map_append,
    Nat.add_sub_cancel]
  refine congrArg₂ (· ++ ·) ?_ ?_
  · refine (List.map_eq_replicate_iff.mpr fun k hk => spike_getD_lt ?_).trans
      (by rw [List.length_range])
    have hk : (k + 1) * m + m ≤ m * (n + 1) := by
      have : (k + 2) * m ≤ (n + 1) * m :=
        Nat.mul_le_mul_right m (by have := List.mem_range.mp hk; omega)
      linarith
    have hpos : 0 < (k + 1) * m := Nat.mul_pos (Nat.succ_pos k) hm
    omega
  · rw [List.map_singleton, Nat.mul_comm, hmul, Nat.add_sub_cancel, spike_getD_last]

theorem htfClosesAll_spike_out {i m : ℕ} (hm : 0 < m) (hphase : (i + 1) % m ≠ 0) :
    htfClosesAll (spike i) m = List.replicate ((i + 1) / m) 1 := by
  have hdiv := Nat.div_add_mod (i + 1) m
  unfold htfClosesAll htfBucketCloseIndex
  rw [show (spike i).length = i + 1 by simp [spike]]
  refine (List.map_eq_replicate_iff.mpr fun k hk => spike_getD_lt ?_).trans
    (by rw [List.length_range])
  have hk : (k + 1) * m ≤ ((i + 1) / m) * m :=
    Nat.mul_le_mul_right m (List.mem_range.mp hk)
  have hcomm : ((i + 1) / m) * m = m * ((i + 1) / m) := Nat.mul_comm _ _
  have hpos : 0 < (k + 1) * m := Nat.mul_pos (Nat.succ_pos k) hm
  omega

/-- The last of the closes is above their mean. -/
theorem evalSmaAbove_spike {n period : ℕ} (hp : 2 ≤ period) (hn : period ≤ n + 1) :
    evalSmaAbove (spike n) period n = .ok true := by
  have hlen : n < (spike n).length := by simp [spike]
  have hwin : (lastWindow (spike n) period n).sum = period + 1 := by
    unfold lastWindow spike
    rw [List.take_of_length_le (by simp), List.drop_append_of_le_length (by simp; omega),
      List.drop_replicate, show n - (n + 1 - period) = period - 1 by omega, List.sum_append]
    have : ((period - 1 : ℕ) : ℚ) = period - 1 := by
      rw [Nat.cast_sub (by omega), Nat.cast_one]
    simp [this]
    ring
  have hlast : item (spike n) n = .ok 2 := by simp [item, spike]
  have hpos : (0 : ℚ) < period := by exact_mod_cast (by omega : 0 < period)
  have habove : ((period : ℚ) + 1) / period < 2 := by
    rw [div_lt_iff₀ hpos]
    have : (2 : ℚ) ≤ period := by exact_mod_cast hp
    linarith
  unfold evalSmaAbove
  rw [sma_of_lt period hlen, if_neg (by omega), hwin, hlast]
  simp [pure, Except.pure, bind, Except.bind, habove]

/-- Closes that never move are not above their mean. -/
theorem evalSmaAbove_flat {n period : ℕ} (hp : 1 ≤ period) (hn : period ≤ n) :
    evalSmaAbove (List.replicate n 1) period (n - 1) = .ok false := by
  have hlen : n - 1 < (List.replicate n (1 : ℚ)).length := by simp; omega
  have hwin : (lastWindow (List.replicate n (1 : ℚ)) period (n - 1)).sum = period := by
    unfold lastWindow
    rw [List.take_replicate, List.drop_replicate,
      show min (n - 1 + 1) n - (n - 1 + 1 - period) = period by omega]
    simp
  have hlast : item (List.replicate n (1 : ℚ)) (n - 1) = .ok 1 := by
    rw [item_of_lt hlen, List.getElem_replicate]
  have hne : (period : ℚ) ≠ 0 := by exact_mod_cast (by omega : period ≠ 0)
  unfold evalSmaAbove
  rw [sma_of_lt period hlen, if_neg (by omega), hwin, hlast]
  simp [pure, Except.pure, bind, Except.bind, div_self hne]

/-- On the spike the atom is true exactly when a bucket closes at the spike. -/
theorem htfCloseAboveMa_spike {i m period : ℕ} (hm : 0 < m) (hp : 2 ≤ period)
    (hi : period * m ≤ i + 1) :
    htfCloseAboveMa (spike i) i m period = .ok (decide ((i + 1) % m = 0)) := by
  have hc : period ≤ (i + 1) / m := (Nat.le_div_iff_mul_le hm).mpr hi
  rw [htfCloseAboveMa_eq hm (by omega) (by simp [spike]) hc]
  by_cases hphase : (i + 1) % m = 0
  · rw [htfClosesAll_spike_in hm hphase, decide_eq_true hphase]
    exact evalSmaAbove_spike hp (by omega)
  · rw [htfClosesAll_spike_out hm hphase, decide_eq_false hphase]
    exact evalSmaAbove_flat (by omega) hc

/-- A single higher-timeframe atom needs the phase. -/
theorem inPhase_of_sliceFree (sqrt : ℚ → ℚ) {tf : Timeframe} {period a b : ℕ} (hp : 2 ≤ period)
    (h : SliceFree sqrt (.atom (.htfSma tf period)) a b) : a ≡ b [MOD tf.bars] := by
  have hm := tf.bars_pos
  -- A bar that closes a bucket of the slice from `a` and lies behind both lookbacks.
  obtain ⟨t, ht⟩ : ∃ t, t + 1 = a + (period + b) * tf.bars :=
    Nat.exists_eq_succ_of_ne_zero (by positivity) |>.imp fun _ h => h.symm
  have hb : b ≤ b * tf.bars := Nat.le_mul_of_pos_right b hm
  have hsplit : (period + b) * tf.bars = period * tf.bars + b * tf.bars := Nat.add_mul _ _ _
  have hlook : 0 < period * tf.bars := by positivity
  have heq := h (spikeTape t) t (t + 1) (t + 1) (spikeTape_contiguous t)
    (spikeTape_holds (by omega) (by simp only [Expr.lookback, Atom.lookback]; omega))
    (spikeTape_holds (by omega) (by simp only [Expr.lookback, Atom.lookback]; omega))
  simp only [Expr.eval, Atom.eval] at heq
  rw [spikeTape_closes (by omega), spikeTape_closes (by omega),
    htfCloseAboveMa_spike hm hp (by omega), htfCloseAboveMa_spike hm hp (by omega)] at heq
  have hin : (t - a + 1) % tf.bars = 0 := by
    rw [show t - a + 1 = (period + b) * tf.bars by omega]
    exact Nat.mul_mod_left _ _
  have hin' : (t - b + 1) % tf.bars = 0 := by
    have := Except.ok.inj heq
    rw [decide_eq_true hin] at this
    exact of_decide_eq_true this.symm
  have hsum : a + (t - a + 1) ≡ b + (t - b + 1) [MOD tf.bars] := by
    rw [show a + (t - a + 1) = b + (t - b + 1) by omega]
  exact Nat.ModEq.add_right_cancel (hin.trans hin'.symm) hsum

/-! ## Live cycle, segments and badge -/

/-- The live decision at bar `t` is the flag of segment `k` there. -/
def SegmentAgrees (sqrt : ℚ → ℚ) (e : Expr) (c : Tiling) (rows : List Candle) (k t : ℕ) : Prop :=
  ∀ (name symbol : String) (flags : List Bool) (b : Bool),
    signalSeries sqrt (c.sample rows k).series e = .ok flags →
      flags[t - c.lead rows k]? = some b →
        liveDecision sqrt name e symbol rows t =
          .ok (if b then Direction.long else Direction.flat)

/-- A badge of at most `limit` bars up to `t` says `on` or `would_exit` only as
the live cycle does. -/
def BadgeAgrees (sqrt : ℚ → ℚ) (e : Expr) (tape : List Candle) (limit t : ℕ) : Prop :=
  ∀ name symbol : String,
    let badge := lotSignal (some (e.strategy sqrt name))
      (tryRecentCandles (tape.take (t + 1)) limit) symbol
    (badge = .on → liveDecision sqrt name e symbol tape t = .ok .long) ∧
      (badge = .wouldExit → liveDecision sqrt name e symbol tape t = .ok .flat)

theorem segmentAgrees_of_inPhase (sqrt : ℚ → ℚ) {e : Expr} (he : e.RsiPeriods) {c : Tiling}
    {rows : List Candle} {k t : ℕ} (ht : 1 ≤ t)
    (hold : HoldsBar rows (c.lead rows k) (c.finish rows k) t e.lookback)
    (hlive : e.lookback ≤ liveSignalEvalBars)
    (hphase : InPhase e (c.lead rows k) (t + 1 - liveSignalEvalBars)) :
    SegmentAgrees sqrt e c rows k t := by
  intro name symbol flags b hflags hb
  exact computeSignal_slice sqrt name symbol hphase hold hlive (by decide) ht
    (signalSeries_eval sqrt _ he hflags hb)

theorem computeSignal_ok {bars : List Candle} {symbol timeframe : String} {s : Strategy}
    {sig : Trading.Signal} (h : computeSignal bars symbol timeframe s = .ok sig) :
    2 ≤ bars.length ∧ ∃ b, s.evaluate bars = .ok b ∧
      sig.direction = if b then Direction.long else Direction.flat := by
  unfold computeSignal at h
  dsimp only at h
  rw [List.length_map] at h
  by_cases hlen : bars.length < 2
  · rw [if_pos hlen] at h
    cases h
  · rw [if_neg hlen] at h
    cases he : s.evaluate bars with
    | error err => rw [he] at h; cases h
    | ok b =>
      rw [he] at h
      cases h
      exact ⟨by omega, b, rfl, rfl⟩

/-- What a badge that is not unknown was computed from. -/
theorem lotSignal_known {s : Strategy} {candles : List Candle} {symbol : String}
    (h : lotSignal (some s) candles symbol ≠ .unknown) :
    2 ≤ candles.length ∧ ∃ b, s.evaluate candles = .ok b ∧
      lotSignal (some s) candles symbol = if b then Badge.on else Badge.wouldExit := by
  unfold lotSignal at h ⊢
  dsimp only at h ⊢
  by_cases hshort : s.name = "" ∨ candles.length < 2
  · rw [if_pos hshort] at h
    exact absurd rfl h
  · rw [if_neg hshort] at h ⊢
    cases hs : computeSignal candles symbol QUAL_TIMEFRAME s with
    | error err => rw [hs] at h; exact absurd rfl h
    | ok sig =>
      obtain ⟨hlen, b, hb, hdir⟩ := computeSignal_ok hs
      refine ⟨hlen, b, hb, ?_⟩
      dsimp only
      rw [hdir]
      cases b <;> rfl

theorem badgeAgrees_of_inPhase (sqrt : ℚ → ℚ) {e : Expr} {tape : List Candle} {limit t : ℕ}
    (ht : t < tape.length) (hlook : e.lookback ≤ t + 1)
    (hbadge : e.lookback ≤ min (max 1 limit) SIGNAL_LIMIT)
    (hphase : InPhase e (t + 1 - min (max 1 limit) SIGNAL_LIMIT) (t + 1 - liveSignalEvalBars)) :
    BadgeAgrees sqrt e tape limit t := by
  intro name symbol
  have hcap : min (max 1 limit) SIGNAL_LIMIT ≤ SIGNAL_LIMIT := Nat.min_le_right _ _
  have hlimit : SIGNAL_LIMIT ≤ liveSignalEvalBars := by decide
  have live : ∀ b : Bool, lotSignal (some (e.strategy sqrt name))
      (tryRecentCandles (tape.take (t + 1)) limit) symbol =
        (if b then Badge.on else Badge.wouldExit) →
      liveDecision sqrt name e symbol tape t =
        .ok (if b then Direction.long else Direction.flat) := by
    intro b hb
    have hknown : lotSignal (some (e.strategy sqrt name))
        (tryRecentCandles (tape.take (t + 1)) limit) symbol ≠ .unknown := by
      rw [hb]
      cases b <;> decide
    obtain ⟨hlen, b', heval, hb'⟩ := lotSignal_known hknown
    have hbb : b = b' := by
      rw [hb] at hb'
      cases b <;> cases b' <;> first | rfl | cases hb'
    subst hbb
    unfold tryRecentCandles at hlen heval
    rw [signalCandles_take _ ht] at hlen heval
    have hn : (slice tape (t + 1 - min (max 1 limit) SIGNAL_LIMIT) (t + 1)).length =
        t + 1 - (t + 1 - min (max 1 limit) SIGNAL_LIMIT) := by
      unfold slice
      rw [List.length_drop, List.length_take]
      omega
    change e.eval sqrt (.of (slice tape _ (t + 1))) _ = .ok b at heval
    rw [hn, show t + 1 - (t + 1 - min (max 1 limit) SIGNAL_LIMIT) - 1 =
      t - (t + 1 - min (max 1 limit) SIGNAL_LIMIT) by omega] at heval
    exact computeSignal_slice sqrt name symbol hphase
      ⟨by omega, by omega, by omega, by omega⟩ (by omega) (by decide) (by omega) heval
  exact ⟨live true, live false⟩

end PaperTrading.Signals
