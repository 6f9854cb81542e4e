import Mathlib.Data.List.Perm.Subperm
import PaperTrading.Lib.Draws
import PaperTrading.Mint.Explorer
import PaperTrading.Mint.Shapes
import PaperTrading.Mint.Strict

/-!
# Random proposals

`propose_random` of `trading/explorer.py`: a depth, that many families that go together, and
an atom of each on the grids of the sampler. `Proposed` says which names that are, without the
order of the draws; they are the names some source of numbers makes it propose
(`propose_random_exactly`), and it always proposes one.
-/

namespace PaperTrading.Mint

open Lib Lib.Draws

/-! ## Atoms written -/

def STACK_WORDS : List String := ["sma_stack", "ema_stack"]

def wordText (word : String) (n : Text) : Text := word.toList ++ '_' :: n

/-- `{tf}_{kind}_abv_{period}` -/
def htfText (tf kind : String) (period : Text) : Text :=
  tf.toList ++ '_' :: (kind.toList ++ ("_abv_".toList ++ period))

/-- `rsi_{period}_>{lo}`, with `_<{hi}` behind it if there is one. -/
def rsiAboveText (period lo : Text) (hi : Option Text) : Text :=
  rsiText period '>' (lo ++ hi.elim [] fun hi => '_' :: '<' :: hi)

/-- `rsi_{period}_<{hi}` -/
def rsiBelowText (period hi : Text) : Text := rsiText period '<' hi

/-- `"_".join(str(p) for p in periods)` -/
def joinedPeriods (periods : List ℕ) : Text := List.intercalate ['_'] (periods.map printed)

/-! ## Grids -/

def MA_PERIODS : List ℕ :=
  [10, 15, 20, 25, 30, 35, 40, 50, 60, 70, 80, 90, 100, 120, 140, 150, 160, 180, 200]

def HTF_PERIODS : List ℕ := MA_PERIODS
def RSI_PERIODS : List ℕ := [10, 15, 20, 25, 30]
def RSI_GT : List ℕ := [35, 40, 45, 50, 55, 60, 65, 70]
def RSI_LT : List ℕ := [40, 50, 60, 70, 80]
def MOM_LOOKBACKS : List ℕ := [6, 12, 18, 24, 30, 36, 42, 48, 60, 72, 84, 96, 120, 144, 180]

def DIP_LOOKBACKS : List ℕ :=
  [6, 12, 30, 36, 42, 48, 60, 72, 84, 96, 120, 144, 168, 186, 204, 222, 240, 264]

/-- `_PCTS` -/
def PCTS : List ℕ := [2, 4, 6, 8, 10, 12]

def STRUCTURE_NS : List ℕ := [6, 12, 18, 24, 30, 36, 42, 48, 54, 60, 66, 72, 84, 96]

def STACKS : List (List ℕ) :=
  [[10, 30, 60], [10, 40, 80], [15, 40, 100], [20, 50, 100], [20, 50, 200], [20, 60, 120],
    [30, 70, 150], [40, 80, 160], [50, 100, 200]]

/-- `DEPTH_WEIGHTS` -/
def DEPTH_WEIGHTS : List (ℕ × ℕ) := [(2, 30), (3, 30), (4, 20), (5, 10), (6, 6), (7, 4)]

/-! ## Families -/

def LEVEL_WORDS : List String := ["don_hi", "don_lo", "near_swing_hi", "near_swing_lo", "dbl_bot"]
def MOVE_WORDS : List String := ["mom", "dip"]
def HTF_FAMILIES : List String := ["h1_ema", "h1_sma", "h4_ema", "h4_sma"]
def H4_FAMILIES : List String := ["h4_ema", "h4_sma"]

def FAMILIES : List String :=
  MA_WORDS ++ STACK_WORDS ++ ["rsi", "mom", "dip"] ++ LEVEL_WORDS ++ HTF_FAMILIES

/-- `_compatible` -/
def compatible (chosen : List String) (fam : String) : Bool :=
  let trial := fam :: chosen
  fam ∉ chosen && !("mom" ∈ trial && "dip" ∈ trial) &&
    !("mom" ∈ trial && trial.any (H4_FAMILIES.contains ·)) &&
    !(trial.any (HTF_FAMILIES.contains ·) && trial.any (MA_WORDS.contains ·))

/-! ## Draws -/

/-- The word of a move: momentum goes up, a dip down. -/
def moveWord (fam : String) : String := if fam = "mom" then "gt" else "lt"

/-- The lookbacks of a move. -/
def lookbacks (fam : String) : List ℕ := if fam = "mom" then MOM_LOOKBACKS else DIP_LOOKBACKS

/-- `legal_pcts` -/
def legalPcts (lookback : ℕ) : List ℕ :=
  PCTS.filter fun pct => pct ≤ min (staticCap lookback) (DEAD_MOM_PCT - 1)

/-- `allowed_depth_weights` -/
def allowedDepthWeights (table : List (ℕ × ℕ)) (deadDepth : ℕ) : List (ℕ × ℕ) :=
  let allowed := table.filter fun row => 0 < row.2 ∧ row.1 < deadDepth
  if allowed = [] then table else allowed

/-- The loop of `draw_depth`: the row at which the weights so far exceed the pick. -/
def rowAt (pick : ℕ) : List (ℕ × ℕ) → ℕ → Option ℕ
  | [], _ => none
  | (depth, weight) :: rest, acc =>
    if pick < acc + weight then some depth else rowAt pick rest (acc + weight)

/-- `draw_depth`; past the last weight stands the last row. -/
def drawDepth : Draws ℕ := do
  let table := allowedDepthWeights DEPTH_WEIGHTS DEAD_DEPTH
  let pick ← randrange (table.map Prod.snd).sum (by decide)
  pure ((rowAt pick table 0).getD ((table.getLast?.map Prod.fst).getD 0))

/-- `_pick_families` -/
def pickFamilies : ℕ → List String → Draws (Option (List String))
  | 0, chosen => pure (some chosen)
  | k + 1, chosen =>
    if h : FAMILIES.filter (compatible chosen) = [] then pure none
    else do
      let fam ← choice (FAMILIES.filter (compatible chosen)) h
      pickFamilies k (chosen ++ [fam])

/-- An RSI atom of `_sample_atom`. -/
def sampleRsi (ltOnly : Bool) : Draws Text := do
  let period ← choice RSI_PERIODS (by decide)
  if ltOnly then
    let hi ← choice RSI_LT (by decide)
    pure (rsiBelowText (printed period) (printed hi))
  else
    let roll ← randrange 3 (by decide)
    if roll = 0 then
      let lo ← choice RSI_GT (by decide)
      pure (rsiAboveText (printed period) (printed lo) none)
    else if roll = 1 then
      let hi ← choice RSI_LT (by decide)
      pure (rsiBelowText (printed period) (printed hi))
    else
      let lo ← choice RSI_GT (by decide)
      if h : RSI_LT.filter (lo + 10 ≤ ·) = [] then
        pure (rsiAboveText (printed period) (printed lo) none)
      else
        let hi ← choice (RSI_LT.filter (lo + 10 ≤ ·)) h
        pure (rsiAboveText (printed period) (printed lo) (some (printed hi)))

theorem lookbacks_ne_nil (fam : String) : lookbacks fam ≠ [] := by
  unfold lookbacks
  split <;> decide

/-- A momentum or dip atom of `_sample_atom`. -/
def sampleMove (fam : String) : Draws (Option Text) := do
  let lookback ← choice (lookbacks fam) (lookbacks_ne_nil fam)
  if h : legalPcts lookback = [] then pure none
  else
    let pct ← choice (legalPcts lookback) h
    pure (some (moveText fam (printed lookback) (moveWord fam) (printed pct)))

/-- `fam.split("_", 1)` -/
def splitFamily (fam : String) : String × String :=
  (String.ofList (fam.toList.takeWhile (· ≠ '_')),
    String.ofList ((fam.toList.dropWhile (· ≠ '_')).drop 1))

/-- `_sample_atom` -/
def sampleAtom (fam : String) (ltOnly : Bool) : Draws (Option Text) :=
  if fam ∈ MA_WORDS then do
    let period ← choice MA_PERIODS (by decide)
    pure (some (wordText fam (printed period)))
  else if fam ∈ STACK_WORDS then do
    let periods ← choice STACKS (by decide)
    pure (some (wordText fam (joinedPeriods periods)))
  else if fam = "rsi" then do
    let atom ← sampleRsi ltOnly
    pure (some atom)
  else if fam ∈ MOVE_WORDS then sampleMove fam
  else if fam ∈ LEVEL_WORDS then do
    let n ← choice STRUCTURE_NS (by decide)
    pure (some (wordText fam (printed n)))
  else if fam ∈ HTF_FAMILIES then do
    let period ← choice HTF_PERIODS (by decide)
    pure (some (htfText (splitFamily fam).1 (splitFamily fam).2 (printed period)))
  else pure none

/-- The atoms of the families, unless one has none. -/
def sampleAtoms (ltOnly : Bool) : List String → Draws (Option (List Text))
  | [] => pure (some [])
  | fam :: rest => do
    match ← sampleAtom fam ltOnly with
    | none => pure none
    | some atom => do
      let atoms ← sampleAtoms ltOnly rest
      pure (atoms.map (atom :: ·))

/-- What `propose_random` draws: a name, and the depth that was asked for. -/
def drawProposal : Draws (Option Text × ℕ) := do
  let depth ← drawDepth
  match ← pickFamilies depth [] with
  | none | some [] => pure (none, depth)
  | some families => do
    let atoms ← sampleAtoms (families.any (HTF_FAMILIES.contains ·)) families
    pure (atoms.map fun atoms => joined (sortedTexts atoms), depth)

/-- `propose_random`: `rng_for(seed, index)` is the source of an index. -/
def proposeRandom (rngFor : ℕ → ℕ → ℕ) (index : ℕ) : Option Text × ℕ :=
  drawProposal.run (rngFor index)

/-! ## Families that go together -/

/-- The families of one proposal. -/
structure Together (fams : List String) : Prop where
  known : fams ⊆ FAMILIES
  nodup : fams.Nodup
  oneWay : ¬ ("mom" ∈ fams ∧ "dip" ∈ fams)
  slow : ¬ ("mom" ∈ fams ∧ ∃ fam ∈ fams, fam ∈ H4_FAMILIES)
  spine : ¬ ((∃ fam ∈ fams, fam ∈ HTF_FAMILIES) ∧ ∃ fam ∈ fams, fam ∈ MA_WORDS)

theorem compatible_iff {chosen : List String} {fam : String} : compatible chosen fam = true ↔
    fam ∉ chosen ∧ ¬ ("mom" ∈ fam :: chosen ∧ "dip" ∈ fam :: chosen) ∧
      ¬ ("mom" ∈ fam :: chosen ∧ ∃ f ∈ fam :: chosen, f ∈ H4_FAMILIES) ∧
      ¬ ((∃ f ∈ fam :: chosen, f ∈ HTF_FAMILIES) ∧ ∃ f ∈ fam :: chosen, f ∈ MA_WORDS) := by
  unfold compatible
  simp only [Bool.and_eq_true, Bool.not_eq_true', decide_eq_true_eq, Bool.and_eq_false_iff,
    decide_eq_false_iff_not, List.any_eq_false, List.contains_iff_mem, and_assoc]
  refine and_congr_right fun _ => and_congr ?_ (and_congr ?_ ?_)
  · rw [not_and_or]
  · rw [not_and_or]
    exact or_congr Iff.rfl (by push Not; rfl)
  · rw [not_and_or]
    exact or_congr (by push Not; rfl) (by push Not; rfl)

theorem Together.nil : Together [] where
  known := List.nil_subset _
  nodup := List.nodup_nil
  oneWay := fun h => absurd h.1 List.not_mem_nil
  slow := fun h => absurd h.1 List.not_mem_nil
  spine := fun h => by
    obtain ⟨⟨_, hin, _⟩, _⟩ := h
    cases hin

/-- Some of the families that go together. -/
theorem Together.sublist {fams fams' : List String} (h : Together fams)
    (hsub : fams'.Sublist fams) : Together fams' where
  known := fun _ hfam => h.known (hsub.subset hfam)
  nodup := h.nodup.sublist hsub
  oneWay := fun hboth => h.oneWay ⟨hsub.subset hboth.1, hsub.subset hboth.2⟩
  slow := fun hboth => h.slow ⟨hsub.subset hboth.1,
    hboth.2.imp fun _ hfam => ⟨hsub.subset hfam.1, hfam.2⟩⟩
  spine := fun hboth => h.spine ⟨hboth.1.imp fun _ hfam => ⟨hsub.subset hfam.1, hfam.2⟩,
    hboth.2.imp fun _ hfam => ⟨hsub.subset hfam.1, hfam.2⟩⟩

theorem mem_concat_iff {chosen : List String} {fam f : String} :
    f ∈ chosen ++ [fam] ↔ f ∈ fam :: chosen := by
  rw [List.mem_append, List.mem_singleton, List.mem_cons, or_comm]

/-- One family more. -/
theorem Together.concat {chosen : List String} {fam : String} (h : Together chosen)
    (hfam : fam ∈ FAMILIES) (hcompatible : compatible chosen fam = true) :
    Together (chosen ++ [fam]) := by
  obtain ⟨hfresh, honeWay, hslow, hspine⟩ := compatible_iff.mp hcompatible
  refine ⟨fun f hf => ?_, ?_, ?_, ?_, ?_⟩
  · rcases List.mem_cons.mp (mem_concat_iff.mp hf) with rfl | hf
    · exact hfam
    · exact h.known hf
  · have hnodup : ([fam] ++ chosen).Nodup := List.nodup_cons.mpr ⟨hfresh, h.nodup⟩
    exact List.nodup_append_comm.mp hnodup
  · simpa only [mem_concat_iff] using honeWay
  · simpa only [mem_concat_iff] using hslow
  · simpa only [mem_concat_iff] using hspine

/-- The last of the families that go together is one of the options behind the others. -/
theorem Together.mem_options {chosen : List String} {fam : String}
    (h : Together (chosen ++ [fam])) : fam ∈ FAMILIES.filter (compatible chosen) := by
  have honeWay := h.oneWay
  have hslow := h.slow
  have hspine := h.spine
  simp only [mem_concat_iff] at honeWay hslow hspine
  have hfresh : fam ∉ chosen := fun hin =>
    (List.nodup_append.mp h.nodup).2.2 fam hin fam (List.mem_singleton_self fam) rfl
  exact List.mem_filter.mpr ⟨h.known (mem_concat_iff.mpr List.mem_cons_self),
    compatible_iff.mpr ⟨hfresh, honeWay, hslow, hspine⟩⟩

/-- The families that go with all others. -/
def FREE_FAMILIES : List String := STACK_WORDS ++ ["rsi"] ++ LEVEL_WORDS

/-- A family is left for as long as fewer are chosen than go with all others. -/
theorem Together.options {chosen : List String} (h : Together chosen)
    (hlen : chosen.length < FREE_FAMILIES.length) : FAMILIES.filter (compatible chosen) ≠ [] := by
  have hfree : ∃ fam ∈ FREE_FAMILIES, fam ∉ chosen := by
    by_contra hall
    push Not at hall
    have hle := (List.Nodup.subperm (by decide : FREE_FAMILIES.Nodup) hall).length_le
    omega
  obtain ⟨fam, hfam, hfresh⟩ := hfree
  have hplain : ∀ fam ∈ FREE_FAMILIES, fam ∈ FAMILIES ∧ fam ≠ "mom" ∧ fam ≠ "dip" ∧
      fam ∉ H4_FAMILIES ∧ fam ∉ HTF_FAMILIES ∧ fam ∉ MA_WORDS := by decide
  obtain ⟨hin, hmom, hdip, hh4, hhtf, hma⟩ := hplain fam hfam
  refine List.ne_nil_of_mem (List.mem_filter.mpr ⟨hin, compatible_iff.mpr ⟨hfresh, ?_, ?_, ?_⟩⟩)
  · have hold := h.oneWay
    simpa [Ne.symm hmom, Ne.symm hdip] using hold
  · have hold := h.slow
    simpa [Ne.symm hmom, hh4] using hold
  · have hold := h.spine
    simpa [hhtf, hma] using hold

/-! ## Names -/

/-- The atoms the grids of a family hold; with `ltOnly` an RSI has an upper bound only. -/
inductive OnGrid (ltOnly : Bool) : String → Text → Prop
  | average {fam : String} {n : ℕ} (hfam : fam ∈ MA_WORDS) (hn : n ∈ MA_PERIODS) :
    OnGrid ltOnly fam (wordText fam (printed n))
  | stack {fam : String} {periods : List ℕ} (hfam : fam ∈ STACK_WORDS) (hn : periods ∈ STACKS) :
    OnGrid ltOnly fam (wordText fam (joinedPeriods periods))
  | above {period lo : ℕ} (hfree : ltOnly = false) (hperiod : period ∈ RSI_PERIODS)
    (hlo : lo ∈ RSI_GT) : OnGrid ltOnly "rsi" (rsiAboveText (printed period) (printed lo) none)
  | band {period lo hi : ℕ} (hfree : ltOnly = false) (hperiod : period ∈ RSI_PERIODS)
    (hlo : lo ∈ RSI_GT) (hhi : hi ∈ RSI_LT) (hband : lo + 10 ≤ hi) :
    OnGrid ltOnly "rsi" (rsiAboveText (printed period) (printed lo) (some (printed hi)))
  | below {period hi : ℕ} (hperiod : period ∈ RSI_PERIODS) (hhi : hi ∈ RSI_LT) :
    OnGrid ltOnly "rsi" (rsiBelowText (printed period) (printed hi))
  | move {fam : String} {lookback pct : ℕ} (hfam : fam ∈ MOVE_WORDS)
    (hlb : lookback ∈ lookbacks fam) (hpct : pct ∈ legalPcts lookback) :
    OnGrid ltOnly fam (moveText fam (printed lookback) (moveWord fam) (printed pct))
  | level {fam : String} {n : ℕ} (hfam : fam ∈ LEVEL_WORDS) (hn : n ∈ STRUCTURE_NS) :
    OnGrid ltOnly fam (wordText fam (printed n))
  | htf {fam : String} {n : ℕ} (hfam : fam ∈ HTF_FAMILIES) (hn : n ∈ HTF_PERIODS) :
    OnGrid ltOnly fam (htfText (splitFamily fam).1 (splitFamily fam).2 (printed n))

/-- The names of families that go together, with an atom of each. -/
structure Proposed (fams : List String) (atoms : List Text) (name : Text) : Prop where
  together : Together fams
  two_le : 2 ≤ fams.length
  alive : fams.length < DEAD_DEPTH
  onGrid : List.Forall₂ (OnGrid (fams.any (HTF_FAMILIES.contains ·))) fams atoms
  name_eq : name = joined (sortedTexts atoms)

/-! ## What is drawn -/

theorem mem_of_rowAt {pick acc d : ℕ} {table : List (ℕ × ℕ)} (h : rowAt pick table acc = some d) :
    d ∈ table.map Prod.fst := by
  induction table generalizing acc with
  | nil => cases h
  | cons row table ih =>
    unfold rowAt at h
    split at h
    next => exact List.mem_cons.mpr (Or.inl (Option.some.inj h).symm)
    next => exact List.mem_cons_of_mem _ (ih h)

theorem canGive_drawDepth {depth : ℕ} :
    CanGive drawDepth depth ↔ 2 ≤ depth ∧ depth < DEAD_DEPTH := by
  have hrows : ∀ d ∈ (allowedDepthWeights DEPTH_WEIGHTS DEAD_DEPTH).map Prod.fst,
      2 ≤ d ∧ d < DEAD_DEPTH := by decide
  have hpicks : ∀ d < DEAD_DEPTH, 2 ≤ d → ∃ pick ∈ [0, 30, 60],
      pick < ((allowedDepthWeights DEPTH_WEIGHTS DEAD_DEPTH).map Prod.snd).sum ∧
        rowAt pick (allowedDepthWeights DEPTH_WEIGHTS DEAD_DEPTH) 0 = some d := by decide
  refine canGive_map.trans ⟨?_, fun h => ?_⟩
  · intro hgot
    obtain ⟨pick, -, rfl⟩ := hgot
    cases hpick : rowAt pick (allowedDepthWeights DEPTH_WEIGHTS DEAD_DEPTH) 0 with
    | some d => exact hrows d (mem_of_rowAt hpick)
    | none => decide
  · -- The first pick of each row, where the weights of the rows before it end.
    obtain ⟨pick, -, hlt, hrow⟩ := hpicks depth h.2 h.1
    refine ⟨pick, canGive_randrange.mpr hlt, ?_⟩
    rw [hrow]
    rfl

theorem canGive_pickFamilies {k : ℕ} {chosen : List String} {got : Option (List String)}
    (h : Together chosen) (hroom : chosen.length + k ≤ FREE_FAMILIES.length) :
    CanGive (pickFamilies k chosen) got ↔
      ∃ rest, got = some (chosen ++ rest) ∧ rest.length = k ∧ Together (chosen ++ rest) := by
  induction k generalizing chosen with
  | zero =>
    refine canGive_pure.trans ⟨fun hgot => ?_, ?_⟩
    · refine ⟨[], ?_, rfl, ?_⟩
      · rw [hgot, List.append_nil]
      · rw [List.append_nil]
        exact h
    · intro hgot
      obtain ⟨rest, rfl, hlen, -⟩ := hgot
      rw [List.length_eq_zero_iff.mp hlen, List.append_nil]
  | succ k ih =>
    -- There are more free families than a proposal has, so an option is left.
    unfold pickFamilies
    rw [dif_neg (h.options (by omega)), canGive_bind]
    have hstep : ∀ fam, Together (chosen ++ [fam]) →
        (CanGive (pickFamilies k (chosen ++ [fam])) got ↔ ∃ rest,
          got = some (chosen ++ [fam] ++ rest) ∧ rest.length = k ∧
            Together (chosen ++ [fam] ++ rest)) := fun fam hfam => ih hfam (by
      rw [List.length_append, List.length_singleton]
      omega)
    constructor
    · intro hgot
      obtain ⟨fam, hfam, hgot⟩ := hgot
      obtain ⟨hin, hcompatible⟩ := List.mem_filter.mp (canGive_choice.mp hfam)
      obtain ⟨rest, hrest, hlen, htogether⟩ := (hstep fam (h.concat hin hcompatible)).mp hgot
      rw [List.append_assoc] at hrest htogether
      exact ⟨fam :: rest, hrest, congrArg (· + 1) hlen, htogether⟩
    · intro hgot
      obtain ⟨rest, hrest, hlen, htogether⟩ := hgot
      cases rest with
      | nil => cases hlen
      | cons fam rest =>
        rw [List.append_cons] at hrest htogether
        have hfam := htogether.sublist (List.sublist_append_left _ rest)
        exact ⟨fam, canGive_choice.mpr hfam.mem_options,
          (hstep fam hfam).mpr ⟨rest, hrest, Nat.succ.inj hlen, htogether⟩⟩

theorem onGrid_of_sampleRsi {ltOnly : Bool} {atom : Text} (h : CanGive (sampleRsi ltOnly) atom) :
    OnGrid ltOnly "rsi" atom := by
  unfold sampleRsi at h
  obtain ⟨period, hperiod, h⟩ := canGive_bind.mp h
  have hperiod := canGive_choice.mp hperiod
  split at h
  next =>
    obtain ⟨hi, hhi, rfl⟩ := canGive_map.mp h
    exact .below hperiod (canGive_choice.mp hhi)
  next hfree =>
    have hfree : ltOnly = false := by simpa using hfree
    obtain ⟨roll, -, h⟩ := canGive_bind.mp h
    split at h
    next =>
      obtain ⟨lo, hlo, rfl⟩ := canGive_map.mp h
      exact .above hfree hperiod (canGive_choice.mp hlo)
    next =>
      split at h
      next =>
        obtain ⟨hi, hhi, rfl⟩ := canGive_map.mp h
        exact .below hperiod (canGive_choice.mp hhi)
      next =>
        obtain ⟨lo, hlo, h⟩ := canGive_bind.mp h
        have hlo := canGive_choice.mp hlo
        split at h
        next =>
          obtain rfl := canGive_pure.mp h
          exact .above hfree hperiod hlo
        next =>
          obtain ⟨hi, hhi, rfl⟩ := canGive_map.mp h
          obtain ⟨hhi, hband⟩ := List.mem_filter.mp (canGive_choice.mp hhi)
          exact .band hfree hperiod hlo hhi (of_decide_eq_true hband)

/-- Every lookback has a legal percent. -/
theorem legalPcts_ne_nil (lookback : ℕ) : legalPcts lookback ≠ [] := by
  have hcap : 2 ≤ staticCap lookback := by
    unfold staticCap
    dsimp only
    split_ifs <;> omega
  have hlegal : 2 ∈ legalPcts lookback :=
    List.mem_filter.mpr ⟨by decide, decide_eq_true (le_min hcap (by decide))⟩
  exact List.ne_nil_of_mem hlegal

theorem canGive_sampleMove {fam : String} {got : Option Text} : CanGive (sampleMove fam) got ↔
    ∃ lookback ∈ lookbacks fam, ∃ pct ∈ legalPcts lookback,
      got = some (moveText fam (printed lookback) (moveWord fam) (printed pct)) := by
  unfold sampleMove
  refine canGive_bind.trans (exists_congr fun lookback => and_congr canGive_choice ?_)
  rw [dif_neg (legalPcts_ne_nil lookback), canGive_map]
  exact exists_congr fun pct => and_congr canGive_choice Iff.rfl

/-- Every family has an atom, and it is on its grid. -/
theorem onGrid_of_sampleAtom {ltOnly : Bool} {fam : String} (hfam : fam ∈ FAMILIES)
    {got : Option Text} (h : CanGive (sampleAtom fam ltOnly) got) :
    ∃ atom, got = some atom ∧ OnGrid ltOnly fam atom := by
  unfold sampleAtom at h
  split at h
  next hma =>
    obtain ⟨n, hn, rfl⟩ := canGive_map.mp h
    exact ⟨_, rfl, .average hma (canGive_choice.mp hn)⟩
  next hma =>
    split at h
    next hstack =>
      obtain ⟨n, hn, rfl⟩ := canGive_map.mp h
      exact ⟨_, rfl, .stack hstack (canGive_choice.mp hn)⟩
    next hstack =>
      split at h
      next hrsi =>
        obtain ⟨atom, hatom, rfl⟩ := canGive_map.mp h
        exact ⟨atom, rfl, hrsi ▸ onGrid_of_sampleRsi hatom⟩
      next hrsi =>
        split at h
        next hmove =>
          obtain ⟨lookback, hlb, pct, hpct, rfl⟩ := canGive_sampleMove.mp h
          exact ⟨_, rfl, .move hmove hlb hpct⟩
        next hmove =>
          split at h
          next hlevel =>
            obtain ⟨n, hn, rfl⟩ := canGive_map.mp h
            exact ⟨_, rfl, .level hlevel (canGive_choice.mp hn)⟩
          next hlevel =>
            -- The last branch of `_sample_atom` is for words that are no family.
            have hhtf : fam ∈ HTF_FAMILIES := by
              unfold FAMILIES at hfam
              simp only [List.mem_append] at hfam
              have hmoves : fam ∈ ["rsi", "mom", "dip"] ↔ fam = "rsi" ∨ fam ∈ MOVE_WORDS :=
                List.mem_cons
              tauto
            rw [if_pos hhtf] at h
            obtain ⟨n, hn, rfl⟩ := canGive_map.mp h
            exact ⟨_, rfl, .htf hhtf (canGive_choice.mp hn)⟩

theorem canGive_roll {k : ℕ} (hk : k < 3) : CanGive (randrange 3 (by decide)) k :=
  canGive_randrange.mpr hk

theorem canGive_rsiBelow (ltOnly : Bool) {period hi : ℕ} (hperiod : period ∈ RSI_PERIODS)
    (hhi : hi ∈ RSI_LT) :
    CanGive (sampleRsi ltOnly) (rsiBelowText (printed period) (printed hi)) := by
  have hbound := canGive_map (g := fun hi => rsiBelowText (printed period) (printed hi)).mpr
    ⟨hi, canGive_choice (h := by decide).mpr hhi, rfl⟩
  refine canGive_bind.mpr ⟨period, canGive_choice.mpr hperiod, ?_⟩
  cases ltOnly with
  | true => exact hbound
  | false => exact canGive_bind.mpr ⟨1, canGive_roll (by decide), hbound⟩

theorem canGive_rsiBand {period lo hi : ℕ} (hperiod : period ∈ RSI_PERIODS) (hlo : lo ∈ RSI_GT)
    (hhi : hi ∈ RSI_LT) (hband : lo + 10 ≤ hi) : CanGive (sampleRsi false)
      (rsiAboveText (printed period) (printed lo) (some (printed hi))) := by
  have hin : hi ∈ RSI_LT.filter (lo + 10 ≤ ·) := List.mem_filter.mpr ⟨hhi, decide_eq_true hband⟩
  refine canGive_bind.mpr ⟨period, canGive_choice.mpr hperiod, canGive_bind.mpr
    ⟨2, canGive_roll (by decide), canGive_bind.mpr ⟨lo, canGive_choice.mpr hlo, ?_⟩⟩⟩
  rw [dif_neg (List.ne_nil_of_mem hin)]
  exact canGive_map.mpr ⟨hi, canGive_choice.mpr hin, rfl⟩

/-- Every atom of the grids can be drawn. -/
theorem OnGrid.canGive {ltOnly : Bool} {fam : String} {atom : Text} (h : OnGrid ltOnly fam atom) :
    CanGive (sampleAtom fam ltOnly) (some atom) := by
  have hmoves : ∀ fam ∈ MOVE_WORDS, fam ∉ MA_WORDS ∧ fam ∉ STACK_WORDS ∧ fam ≠ "rsi" := by decide
  have hlevels : ∀ fam ∈ LEVEL_WORDS, fam ∉ MA_WORDS ∧ fam ∉ STACK_WORDS ∧ fam ≠ "rsi" ∧
      fam ∉ MOVE_WORDS := by decide
  have hhtfs : ∀ fam ∈ HTF_FAMILIES, fam ∉ MA_WORDS ∧ fam ∉ STACK_WORDS ∧ fam ≠ "rsi" ∧
      fam ∉ MOVE_WORDS ∧ fam ∉ LEVEL_WORDS := by decide
  have hrsi : ∀ {atom : Text}, CanGive (sampleRsi ltOnly) atom →
      CanGive (sampleAtom "rsi" ltOnly) (some atom) := fun {atom} h =>
    canGive_map.mpr ⟨atom, h, rfl⟩
  cases h with
  | @average fam n hfam hn =>
    unfold sampleAtom
    rw [if_pos hfam]
    exact canGive_map.mpr ⟨n, canGive_choice.mpr hn, rfl⟩
  | @stack fam periods hfam hn =>
    have hma : ∀ fam ∈ STACK_WORDS, fam ∉ MA_WORDS := by decide
    unfold sampleAtom
    rw [if_neg (hma fam hfam), if_pos hfam]
    exact canGive_map.mpr ⟨periods, canGive_choice.mpr hn, rfl⟩
  | @above period lo hfree hperiod hlo =>
    subst hfree
    exact hrsi (canGive_bind.mpr ⟨period, canGive_choice.mpr hperiod, canGive_bind.mpr
      ⟨0, canGive_roll (by decide), canGive_map.mpr ⟨lo, canGive_choice.mpr hlo, rfl⟩⟩⟩)
  | band hfree hperiod hlo hhi hband =>
    subst hfree
    exact hrsi (canGive_rsiBand hperiod hlo hhi hband)
  | below hperiod hhi => exact hrsi (canGive_rsiBelow ltOnly hperiod hhi)
  | @move fam lookback pct hfam hlb hpct =>
    obtain ⟨hma, hstack, hne⟩ := hmoves fam hfam
    unfold sampleAtom
    rw [if_neg hma, if_neg hstack, if_neg hne, if_pos hfam]
    exact canGive_sampleMove.mpr ⟨lookback, hlb, pct, hpct, rfl⟩
  | @level fam n hfam hn =>
    obtain ⟨hma, hstack, hne, hmove⟩ := hlevels fam hfam
    unfold sampleAtom
    rw [if_neg hma, if_neg hstack, if_neg hne, if_neg hmove, if_pos hfam]
    exact canGive_map.mpr ⟨n, canGive_choice.mpr hn, rfl⟩
  | @htf fam n hfam hn =>
    obtain ⟨hma, hstack, hne, hmove, hlevel⟩ := hhtfs fam hfam
    unfold sampleAtom
    rw [if_neg hma, if_neg hstack, if_neg hne, if_neg hmove, if_neg hlevel, if_pos hfam]
    exact canGive_map.mpr ⟨n, canGive_choice.mpr hn, rfl⟩

theorem canGive_sampleAtoms {ltOnly : Bool} {fams : List String} {got : Option (List Text)}
    (hfams : fams ⊆ FAMILIES) : CanGive (sampleAtoms ltOnly fams) got ↔
      ∃ atoms, got = some atoms ∧ List.Forall₂ (OnGrid ltOnly) fams atoms := by
  induction fams generalizing got with
  | nil =>
    refine canGive_pure.trans ⟨fun h => ⟨[], h, .nil⟩, ?_⟩
    intro hgot
    obtain ⟨_, rfl, hatoms⟩ := hgot
    cases hatoms
    rfl
  | cons fam fams ih =>
    obtain ⟨hfam, hfams⟩ := List.cons_subset.mp hfams
    refine canGive_bind.trans ⟨?_, ?_⟩
    · intro hgot
      obtain ⟨got', hgot', h⟩ := hgot
      obtain ⟨atom, rfl, hatom⟩ := onGrid_of_sampleAtom hfam hgot'
      obtain ⟨rest, hrest, rfl⟩ := canGive_map.mp h
      obtain ⟨atoms, rfl, hatoms⟩ := (ih hfams).mp hrest
      exact ⟨atom :: atoms, rfl, .cons hatom hatoms⟩
    · intro hgot
      obtain ⟨_, rfl, hatoms⟩ := hgot
      cases hatoms with
      | cons hatom hatoms => exact ⟨_, hatom.canGive, canGive_map.mpr
          ⟨some _, (ih hfams).mpr ⟨_, rfl, hatoms⟩, rfl⟩⟩

/-- What can be drawn is a name of the depth, and each can be. -/
theorem canGive_drawProposal {got : Option Text × ℕ} : CanGive drawProposal got ↔
    ∃ fams atoms name, got = (some name, fams.length) ∧ Proposed fams atoms name := by
  have hlimit : DEAD_DEPTH ≤ FREE_FAMILIES.length := by decide
  constructor
  · intro h
    obtain ⟨depth, hdepth, h⟩ := canGive_bind.mp h
    obtain ⟨htwo, halive⟩ := canGive_drawDepth.mp hdepth
    obtain ⟨picked, hpicked, h⟩ := canGive_bind.mp h
    -- Neither branch without a name is taken: families are left, and two or more are picked.
    obtain ⟨fams, rfl, rfl, htogether⟩ :=
      (canGive_pickFamilies .nil (by rw [List.length_nil]; omega)).mp hpicked
    rw [List.nil_append] at htogether h
    cases fams with
    | nil =>
      rw [List.length_nil] at htwo
      omega
    | cons fam fams =>
      obtain ⟨drawn, hdrawn, rfl⟩ := canGive_map.mp h
      obtain ⟨atoms, rfl, hatoms⟩ := (canGive_sampleAtoms htogether.known).mp hdrawn
      exact ⟨fam :: fams, atoms, _, rfl, htogether, htwo, halive, hatoms, rfl⟩
  · intro hgot
    obtain ⟨fams, atoms, name, rfl, h⟩ := hgot
    have halive := h.alive
    refine canGive_bind.mpr ⟨fams.length, canGive_drawDepth.mpr ⟨h.two_le, h.alive⟩,
      canGive_bind.mpr ⟨some fams, ?_, ?_⟩⟩
    · exact (canGive_pickFamilies .nil (by rw [List.length_nil]; omega)).mpr
        ⟨fams, rfl, rfl, h.together⟩
    · cases fams with
      | nil => exact absurd h.two_le (by decide)
      | cons fam fams =>
        refine canGive_map.mpr ⟨some atoms,
          (canGive_sampleAtoms h.together.known).mpr ⟨atoms, rfl, h.onGrid⟩, ?_⟩
        rw [h.name_eq]
        rfl

/-! ## What is proposed -/

/-- A random attempt gives the canonical form of what is proposed. -/
theorem randomAttempt_canonical {ctx : MintContext} {propose : ℕ → Option Text} {book : Taken}
    {index : ℕ} {got : Text × Taken} (h : randomAttempt ctx propose book index = some got) :
    ∃ name, propose index = some name ∧
      got.1 = if canonicalName name = [] then name else canonicalName name := by
  unfold randomAttempt at h
  split at h
  next => cases h
  next name hname =>
    split at h
    next => cases h
    next =>
      refine ⟨name, hname, ?_⟩
      generalize (if canonicalName name = [] then name else canonicalName name) = canon at h ⊢
      dsimp only at h
      split at h
      next => cases h
      next =>
        obtain rfl := Option.some.inj h
        rfl

/-- What a refill gives is the canonical form of a proposal. -/
theorem sampleRandomNames_canonical (ctx : MintContext) (propose : ℕ → Option Text) (n start : ℕ)
    (book : Taken) : ∀ given ∈ (sampleRandomNames ctx propose n start book).out,
      ∃ i name, propose i = some name ∧
        given = if canonicalName name = [] then name else canonicalName name := by
  refine drawLoop_inv (P := fun d : Drawn Taken Text => ∀ given ∈ d.out, ∃ i name,
    propose i = some name ∧
      given = if canonicalName name = [] then name else canonicalName name) (fun d _ hd => ?_) _ ?_
  · intro given hgiven
    rcases List.mem_append.mp hgiven with hold | hnew
    · exact hd given hold
    · obtain ⟨got, hgot, rfl⟩ := Option.map_eq_some_iff.mp (Option.mem_toList.mp hnew)
      exact ⟨d.next, randomAttempt_canonical hgot⟩
  · intro given hgiven
    cases hgiven

/-- The random proposals are the names of two families or more, short of the dead depth, that
go together, with an atom of each on its grid. Whatever the source, a name is proposed; the
names proposed at a depth for some source are those with so many families; and a refill gives
the canonical forms of such names only. -/
theorem propose_random_exactly :
    (∀ (rngFor : ℕ → ℕ → ℕ) (index : ℕ), (proposeRandom rngFor index).1.isSome = true) ∧
    (∀ (name : Text) (depth : ℕ),
      (∃ rngFor index, proposeRandom rngFor index = (some name, depth)) ↔
        ∃ fams atoms, Proposed fams atoms name ∧ fams.length = depth) ∧
    ∀ (ctx : MintContext) (rngFor : ℕ → ℕ → ℕ) (n start : ℕ) (book : Taken),
      ∀ given ∈ (sampleRandomNames ctx (fun i => (proposeRandom rngFor i).1) n start book).out,
        ∃ fams atoms name, Proposed fams atoms name ∧
          given = if canonicalName name = [] then name else canonicalName name := by
  have hproposed : ∀ (rngFor : ℕ → ℕ → ℕ) (index : ℕ), ∃ fams atoms name,
      proposeRandom rngFor index = (some name, fams.length) ∧ Proposed fams atoms name :=
    fun rngFor index => canGive_drawProposal.mp (canGive_iff_run.mpr ⟨rngFor index, rfl⟩)
  refine ⟨fun rngFor index => ?_, fun name depth => ⟨?_, ?_⟩, ?_⟩
  · obtain ⟨_, _, _, hdraw, -⟩ := hproposed rngFor index
    rw [hdraw]
    rfl
  · intro hdrawn
    obtain ⟨rngFor, index, hdraw⟩ := hdrawn
    obtain ⟨fams, atoms, name', hdraw', h⟩ := hproposed rngFor index
    obtain ⟨hname, hdepth⟩ := Prod.mk.inj (hdraw.symm.trans hdraw')
    obtain rfl := Option.some.inj hname
    exact ⟨fams, atoms, h, hdepth.symm⟩
  · intro hname
    obtain ⟨fams, atoms, h, rfl⟩ := hname
    obtain ⟨r, hr⟩ := canGive_iff_run.mp (canGive_drawProposal.mpr ⟨fams, atoms, name, rfl, h⟩)
    exact ⟨fun _ => r, 0, hr⟩
  · intro ctx rngFor n start book given hgiven
    obtain ⟨i, name, hname, hcanon⟩ := sampleRandomNames_canonical ctx _ n start book given hgiven
    obtain ⟨fams, atoms, name', hdraw, h⟩ := hproposed rngFor i
    rw [hdraw] at hname
    obtain rfl := Option.some.inj hname
    exact ⟨fams, atoms, name', h, hcanon⟩

end PaperTrading.Mint
