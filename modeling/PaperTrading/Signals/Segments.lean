import PaperTrading.Signals.Precompute

/-!
# Walk-forward segments

`_tiled_slices` of `scripts/tournament_engine.py`: each out-of-sample segment
gets a slice of the tape that starts `trainBars + warmupBars` before it, located
by timestamp. The window evaluation indexes the slice's precomputed flags.
-/

namespace PaperTrading.Signals

open Lib
open Trading (Candle)

def TF_MS_5M : ℤ := 300000
def QUAL_WINDOW_BARS : ℕ := 90 * 24 * 12
def QUAL_N_WINDOWS : ℕ := 23
def QUAL_WARMUP_BARS : ℕ := 14 * 24 * 12
def QUAL_TRAIN_BARS : ℕ := 18144
def QUAL_SEGMENT_MS : ℤ := 87 * 86400000
def QUAL_TAPE_START_MS : ℤ := 1612224000000
def QUAL_OOS_START_MS : ℤ := QUAL_TAPE_START_MS + (QUAL_TRAIN_BARS + QUAL_WARMUP_BARS) * TF_MS_5M
def HOLDOUT_START_MS : ℤ := 1759276800000
def HOLDOUT_END_MS : ℤ := 1790812800000

/-- The keyword arguments of `_tiled_slices`. -/
structure Tiling where
  nWindows : ℕ := QUAL_N_WINDOWS
  oosStartMs : ℤ := QUAL_OOS_START_MS
  segmentMs : ℤ := QUAL_SEGMENT_MS
  trainBars : ℕ := QUAL_TRAIN_BARS
  warmupBars : ℕ := QUAL_WARMUP_BARS
  tfMs : ℤ := TF_MS_5M
  closeLast : Bool := false
  sealHoldout : Bool := false

/-- One symbol of one segment: the slice, and where train and test begin. -/
structure Sample where
  series : Ohlc
  warmup : ℕ
  cut : ℕ

/-- `bisect.bisect_left` on ascending stamps. -/
def bisectLeft (stamps : List ℤ) (x : ℤ) : ℕ := (stamps.takeWhile (· < x)).length

namespace Tiling

variable (c : Tiling)

def leadMs : ℤ := (c.trainBars + c.warmupBars) * c.tfMs
def trainMs : ℤ := c.trainBars * c.tfMs
def lastStart : ℤ := c.oosStartMs + (c.nWindows - 1) * c.segmentMs
def start (k : ℕ) : ℤ := c.oosStartMs + k * c.segmentMs

/-- The end of segment `k`; the last one runs to the tape end. -/
def stop (k : ℕ) : Option ℤ :=
  if c.closeLast ∨ k ≠ c.nWindows - 1 then some (c.start k + c.segmentMs) else none

/-- `i_lead`, where the slice of segment `k` starts. -/
def lead (rows : List Candle) (k : ℕ) : ℕ :=
  bisectLeft (rows.map (·.ts)) (c.start k - c.leadMs)

/-- `i_oos`. -/
def oos (rows : List Candle) (k : ℕ) : ℕ := bisectLeft (rows.map (·.ts)) (c.start k)

/-- `i_end`. -/
def finish (rows : List Candle) (k : ℕ) : ℕ :=
  match c.stop k with
  | none => rows.length
  | some stop => bisectLeft (rows.map (·.ts)) stop

/-- The slice of one symbol's rows for segment `k`. -/
def sample (rows : List Candle) (k : ℕ) : Sample where
  series := .of (slice rows (c.lead rows k) (c.finish rows k))
  warmup := bisectLeft (rows.map (·.ts)) (c.start k - c.trainMs) - c.lead rows k
  cut := c.oos rows k - c.lead rows k

/-- The tape must cover the first lead-in and reach the last segment. -/
def checkTape (sym : String) (rows : List Candle) : Except String Unit :=
  match rows.head?, rows.getLast? with
  | some first, some last =>
    if c.oosStartMs - c.leadMs < first.ts then
      .error s!"{sym}: tape starts after segment 0 lead-in"
    else if last.ts < c.lastStart then
      .error s!"{sym}: tape ends before the last OOS segment"
    else .ok ()
  | _, _ => .error s!"{sym}: empty tape"

/-- The seal on one segment: it must end before the holdout. -/
def checkStop (k : ℕ) : Except String Unit :=
  match c.sealHoldout, c.stop k with
  | true, none =>
    .error s!"discovery segment {k} ends at None, which is not strictly before the holdout"
  | true, some stop =>
    if HOLDOUT_START_MS < stop then
      .error s!"discovery segment {k} ends at {stop}, which is not strictly before the holdout"
    else .ok ()
  | false, _ => .ok ()

end Tiling

/-- `assert_no_holdout`. -/
def assertNoHoldout (rows : List Candle) (purpose : String) : Except String Unit :=
  match rows.find? (HOLDOUT_START_MS ≤ ·.ts) with
  | none => .ok ()
  | some row =>
    .error s!"{purpose} observed bar ts={row.ts} (holdout is [{HOLDOUT_START_MS}, {HOLDOUT_END_MS}))"

/-- One entry of `w_sample`. -/
def symbolSample (c : Tiling) (k : ℕ) (d : String × List Candle) :
    Except String (String × Sample) := do
  if c.sealHoldout then
    assertNoHoldout (slice d.2 (c.oos d.2 k) (c.finish d.2 k)) "walkforward"
  pure (d.1, c.sample d.2 k)

/-- `_tiled_slices`. -/
def tiledSlices (c : Tiling) (data : List (String × List Candle)) :
    Except String (List (List (String × Sample))) := do
  data.forM fun d => c.checkTape d.1 d.2
  (List.range c.nWindows).mapM fun k => do
    c.checkStop k
    data.mapM (symbolSample c k)

theorem symbolSample_ok {c : Tiling} {k : ℕ} {d : String × List Candle} {out : String × Sample}
    (h : symbolSample c k d = .ok out) : out = (d.1, c.sample d.2 k) := by
  unfold symbolSample at h
  by_cases hs : c.sealHoldout
  · rw [if_pos hs] at h
    obtain ⟨_, -, h⟩ := except_bind_ok h
    exact (Except.ok.inj h).symm
  · rw [if_neg hs] at h
    exact (Except.ok.inj h).symm

/-- Every sample is the slice of its symbol's rows for its segment. -/
theorem tiledSlices_sample {c : Tiling} {data : List (String × List Candle)}
    {slices : List (List (String × Sample))} (h : tiledSlices c data = .ok slices) {k : ℕ}
    {w : List (String × Sample)} (hw : slices[k]? = some w) {sym : String} {sample : Sample}
    (hs : (sym, sample) ∈ w) : ∃ rows, (sym, rows) ∈ data ∧ sample = c.sample rows k := by
  obtain ⟨_, -, h⟩ := except_bind_ok h
  obtain ⟨k', hk', hstep⟩ := mapM_getElem? h hw
  obtain ⟨_, -, hstep⟩ := except_bind_ok hstep
  obtain ⟨n, hn⟩ := List.mem_iff_getElem?.mp hs
  obtain ⟨d, hd, hsample⟩ := mapM_getElem? hstep hn
  obtain ⟨hlt, rfl⟩ := List.getElem?_eq_some_iff.mp hk'
  rw [List.getElem_range] at hsample
  obtain ⟨rfl, rfl⟩ := Prod.mk.inj (symbolSample_ok hsample)
  exact ⟨d.2, List.mem_of_getElem? hd, rfl⟩

end PaperTrading.Signals
