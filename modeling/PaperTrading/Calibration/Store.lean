import PaperTrading.Lib.Decimal

/-!
# The calibration store

`calibration/__init__.py`: one Beta posterior per condition key, held in
memory and written to a JSON file by `save`. `BinState` carries that both
counts are at least the prior's 1, so the mean and the warm-up blend never
divide by zero; a `CalibrationFile` holds what `save` can have written, so
reading one back and saving it again changes nothing (`save_load`).

`record_other` and `record_counts` say what one outcome does: it moves one
count of one key by one.
-/

namespace PaperTrading.Calibration

open PaperTrading.Lib

/-- A stable identifier for one (symbol, timeframe, condition) cell. -/
def conditionKey (symbol timeframe condition : String) : String :=
  s!"{symbol}|{timeframe}|{condition}"

/-- Beta posterior for one condition, never below the uniform prior. -/
@[ext] structure BinState where
  alpha : ℚ := 1
  beta : ℚ := 1
  one_le_alpha : 1 ≤ alpha := by decide
  one_le_beta : 1 ≤ beta := by decide
deriving DecidableEq, Repr

namespace BinState

def mean (b : BinState) : ℚ := b.alpha / (b.alpha + b.beta)

/-- `int(alpha + beta - 2)` -/
def trials (b : BinState) : ℕ := (b.alpha + b.beta - 2).floor.toNat

/-- One outcome; `strength` is 1 at every call. -/
def record (b : BinState) (success : Bool) : BinState :=
  if success then
    { b with alpha := b.alpha + 1
             one_le_alpha := le_trans b.one_le_alpha (le_add_of_nonneg_right zero_le_one) }
  else
    { b with beta := b.beta + 1
             one_le_beta := le_trans b.one_le_beta (le_add_of_nonneg_right zero_le_one) }

theorem one_le_roundTo {d : ℕ} {q : ℚ} (h : 1 ≤ q) : 1 ≤ roundTo d q := by
  have := @le_roundTo d 1 q (by exact_mod_cast h)
  exact_mod_cast this

/-- The bin as `save` writes it, to 3 decimals. -/
def saved (b : BinState) : BinState :=
  { alpha := roundTo 3 b.alpha, beta := roundTo 3 b.beta
    one_le_alpha := one_le_roundTo b.one_le_alpha
    one_le_beta := one_le_roundTo b.one_le_beta }

@[simp] theorem saved_saved (b : BinState) : b.saved.saved = b.saved := by
  ext <;> exact roundTo_idem 3 _

theorem saved_prior : ({} : BinState).saved = {} := by decide +kernel

/-- A bin that came from a file is still one after an outcome. -/
theorem saved_record {b : BinState} (h : b.saved = b) (success : Bool) :
    (b.record success).saved = b.record success := by
  have ha : roundTo 3 b.alpha = b.alpha := congrArg alpha h
  have hb : roundTo 3 b.beta = b.beta := congrArg beta h
  cases success
  · ext
    · exact ha
    · exact roundTo_add_one hb
  · ext
    · exact roundTo_add_one ha
    · exact hb

end BinState

/-- The dict of bins. Its order only shows in the text of the file. -/
abbrev Bins := String → Option BinState

/-- `setdefault(key, BinState())`, the value half. -/
def Bins.at (bins : Bins) (key : String) : BinState := (bins key).getD {}

def Bins.set (bins : Bins) (key : String) (b : BinState) : Bins :=
  fun k => if k = key then some b else bins k

@[simp] theorem Bins.at_set_self (bins : Bins) (key : String) (b : BinState) :
    (bins.set key b).at key = b := by simp [Bins.at, Bins.set]

theorem Bins.at_set_ne (bins : Bins) {key k : String} (b : BinState) (h : k ≠ key) :
    (bins.set key b).at k = bins.at k := by simp [Bins.at, Bins.set, h]

/-- A calibration file as `save` writes it; the empty one is a missing file. -/
structure CalibrationFile where
  bins : Bins := fun _ => none
  written : ∀ k b, bins k = some b → b.saved = b := by simp

theorem CalibrationFile.saved_at (f : CalibrationFile) (k : String) :
    (f.bins.at k).saved = f.bins.at k := by
  unfold Bins.at
  cases h : f.bins k with
  | none => exact BinState.saved_prior
  | some b => exact f.written k b h

/-- `WARMUP_TRIALS` -/
def WARMUP_TRIALS : ℕ := 20

/-- The store of one process: the bins in memory and the file on disk. -/
structure CalibrationStore where
  bins : Bins
  file : CalibrationFile

namespace CalibrationStore

/-- The constructor: read the file. -/
def load (f : CalibrationFile) : CalibrationStore := { bins := f.bins, file := f }

/-- The file `save` writes. -/
def toFile (c : CalibrationStore) : CalibrationFile where
  bins := fun k => (c.bins k).map BinState.saved
  written := by
    intro k b h
    obtain ⟨b', -, rfl⟩ := Option.map_eq_some_iff.mp h
    exact BinState.saved_saved b'

def save (c : CalibrationStore) : CalibrationStore := { c with file := c.toFile }

/-- `state(key)`: the bin, put in with the prior when it is not there. -/
def state (c : CalibrationStore) (key : String) : CalibrationStore × BinState :=
  ({ c with bins := c.bins.set key (c.bins.at key) }, c.bins.at key)

/-- The probability half of `calibrated_probability`, with the default
`min_weight` of 1; reading a key puts its bin in. -/
def calibratedProbability (c : CalibrationStore) (key : String) (proposed : ℚ) :
    CalibrationStore × ℚ :=
  let (c, b) := c.state key
  if b.trials ≥ WARMUP_TRIALS then (c, b.mean)
  else (c, (b.mean * b.trials + proposed) / (b.trials + 1))

def recordOutcome (c : CalibrationStore) (key : String) (success : Bool) : CalibrationStore :=
  { c with bins := c.bins.set key ((c.bins.at key).record success) }

@[simp] theorem load_file (f : CalibrationFile) : (load f).file = f := rfl
@[simp] theorem save_file (c : CalibrationStore) : c.save.file = c.toFile := rfl
@[simp] theorem recordOutcome_file (c : CalibrationStore) (k : String) (s : Bool) :
    (c.recordOutcome k s).file = c.file := rfl

@[simp] theorem calibratedProbability_file (c : CalibrationStore) (k : String) (p : ℚ) :
    (c.calibratedProbability k p).1.file = c.file := by
  unfold calibratedProbability state
  simp only
  split <;> rfl

/-- Asking for a probability changes no bin's counts. -/
theorem calibratedProbability_at (c : CalibrationStore) (key : String) (p : ℚ) (k : String) :
    (c.calibratedProbability key p).1.bins.at k = c.bins.at k := by
  have h : (c.bins.set key (c.bins.at key)).at k = c.bins.at k := by
    rcases eq_or_ne k key with rfl | hk
    · exact Bins.at_set_self _ _ _
    · exact Bins.at_set_ne _ _ hk
  unfold calibratedProbability state
  simp only
  split <;> exact h

theorem recordOutcome_at_self (c : CalibrationStore) (key : String) (s : Bool) :
    (c.recordOutcome key s).bins.at key = (c.bins.at key).record s :=
  Bins.at_set_self _ _ _

theorem recordOutcome_at_ne (c : CalibrationStore) {key k : String} (s : Bool) (h : k ≠ key) :
    (c.recordOutcome key s).bins.at k = c.bins.at k :=
  Bins.at_set_ne _ _ h

theorem toFile_at (c : CalibrationStore) (k : String) :
    c.toFile.bins.at k = (c.bins.at k).saved := by
  unfold Bins.at toFile
  cases h : c.bins k with
  | none => simp only [h, Option.map_none, Option.getD_none, BinState.saved_prior]
  | some b => simp only [h, Option.map_some, Option.getD_some]

/-- Reading a file and saving it again keeps every bin. -/
theorem save_load (f : CalibrationFile) (k : String) :
    (load f).save.file.bins.at k = f.bins.at k := by
  rw [save_file, toFile_at]
  exact f.saved_at k

end CalibrationStore

end PaperTrading.Calibration
