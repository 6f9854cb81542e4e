import PaperTrading.Lib.Decimal
import PaperTrading.Mint.Bans

/-!
# The recipe and the densify batches

`next_refill_batch` of `trading/refill.py` and `next_densify_batch` of
`trading/densify.py`: a stream of names is walked until enough are accepted, each under its
own copies of the three duplicate keys. With an informative lift model the walk goes on to a
window of candidates, which `steerCandidates` ranks and shuffles.

What the streams hold and what the lift model scores are parameters. Every name of a batch
comes from its walk and may be minted (`nextRefillBatch_mintable`,
`nextDensifyBatch_mintable`).
-/

namespace PaperTrading.Mint

open Lib

def STEER_WINDOW : ℕ := 8
def LIFT_SEED : ℤ := 7063

/-- What steering reads of a `LiftModel`. -/
structure Lift where
  informative : Bool
  exploreShare : ℚ
  strategy : String
  /-- `score_name_parts` -/
  score : Text → ℚ × ℚ

/-- `random.Random(seed).shuffle`: some order of the same things. -/
structure Shuffle where
  run : ℤ → List Text → List Text
  perm : ∀ seed l, (run seed l).Perm l

/-- `lift is not None and bool(getattr(lift, "informative", False))` -/
def informative (lift : Option Lift) : Bool := lift.any Lift.informative

/-! ## Steering -/

/-- `explore_count` -/
def exploreCount (take : ℕ) (share : ℚ) : ℕ := min take (roundHalfEven (take * share)).toNat

/-- Higher scores first, then the higher Sharpe lift; the sort is stable. -/
def ranksBefore (a b : (ℚ × ℚ) × Text) : Bool :=
  b.1.1 < a.1.1 || (b.1.1 = a.1.1 && b.1.2 ≤ a.1.2)

/-- `steer_candidates` -/
def steerCandidates (shuffle : Shuffle) (candidates : List Text) (lift : Option Lift) (n : ℕ)
    (seed : ℤ) : List Text :=
  match lift.filter Lift.informative with
  | none => candidates.take n
  | some model =>
    let take := min n candidates.length
    let nExploit := take - exploreCount take model.exploreShare
    let scored := (candidates.map fun name => (model.score name, name)).insertionSort
      fun a b => ranksBefore a b
    let names := scored.map Prod.snd
    (names.take nExploit ++ shuffle.run seed (names.drop nExploit)).take take

theorem mem_of_mem_steer {shuffle : Shuffle} {candidates : List Text} {lift : Option Lift} {n : ℕ}
    {seed : ℤ} {name : Text} (h : name ∈ steerCandidates shuffle candidates lift n seed) :
    name ∈ candidates := by
  unfold steerCandidates at h
  split at h
  next => exact List.mem_of_mem_take h
  next model _ =>
    have hsorted : ∀ {t}, t ∈ ((candidates.map fun name => (model.score name, name)).insertionSort
        fun a b => ranksBefore a b).map Prod.snd → t ∈ candidates := by
      intro t ht
      obtain ⟨p, hp, rfl⟩ := List.mem_map.mp ht
      obtain ⟨c, hc, rfl⟩ := List.mem_map.mp ((List.mem_insertionSort _).mp hp)
      exact hc
    rcases List.mem_append.mp (List.mem_of_mem_take h) with h | h
    · exact hsorted (List.mem_of_mem_take h)
    · exact hsorted (List.mem_of_mem_drop ((shuffle.perm _ _).mem_iff.mp h))

/-! ## Walking a stream -/

/-- A walk: the names it has, and its copies of the taken names and their keys. -/
structure Walk where
  out : List Text := []
  taken : List Text
  takenKeys : List Text
  takenCanon : List Text

/-- The walk before its first candidate. -/
def Walk.start (takenNames : List Text) : Walk :=
  let taken := takenNames.filter (· ≠ [])
  { taken := taken, takenKeys := taken.map nearDuplicateKey, takenCanon := canonicalKeySet taken }

/-- A candidate is accepted, and `canon` is what it adds to the canonical keys. -/
def Walk.accept (w : Walk) (cand canon : Text) : Walk where
  out := w.out ++ [cand]
  taken := cand :: w.taken
  takenKeys := nearDuplicateKey cand :: w.takenKeys
  takenCanon := canon :: w.takenCanon

/-- The candidates in order, until `target` names are accepted. -/
def walkNames (step : Walk → Text → Walk) (target : ℕ) : List Text → Walk → Walk
  | [], w => w
  | cand :: rest, w =>
    if target ≤ w.out.length then w else walkNames step target rest (step w cand)

section
variable (ctx : MintContext)

/-- The body of the loop in `next_refill_batch`. -/
def recipeStep (w : Walk) (cand : Text) : Walk :=
  let canon := canonicalName cand
  if canon = [] ∨ ¬ nameIsParseable cand then w
  else if nameHasMomGtAndDip cand then w
  else if (mintBlockReason ctx cand w.takenCanon).isSome then w
  else if ¬ isRefillableName cand then w
  else if cand ∈ w.taken ∨ canon ∈ w.takenCanon then w
  else if nearDuplicateKey cand ∈ w.takenKeys then w
  else w.accept cand canon

/-- `candidate_allowed`; `burned` says whether a family of the name is burned out, which
`h4×mom` always is. -/
def candidateAllowed (burned : Text → Bool) (w : Walk) (name : Text) : Bool :=
  if name = [] ∨ ¬ nameIsParseable name then false
  else if nameHasMomGtAndDip name then false
  else if (mintBlockReason ctx name w.takenCanon).isSome then false
  else if name ∈ w.taken ∨ nearDuplicateKey name ∈ w.takenKeys then false
  else if lookbackTooExpensive name DEFAULT_STRUCTURE_LOOKBACK_MAX then false
  else if lookbackTooExpensive name ctx.structureLookbackMax then false
  else if burned name then false
  else isRefillableName name

/-- The body of the loop in `next_densify_batch`. The candidate is written canonically, and
its own text goes to the canonical keys. -/
def densifyStep (burned : Text → Bool) (w : Walk) (raw : Text) : Walk :=
  let cand := if canonicalName raw = [] then raw else canonicalName raw
  if candidateAllowed ctx burned w cand then w.accept cand cand else w

/-- `target` of both batches: a window of candidates when they are to be ranked. -/
def walkTarget (want : ℕ) (lift : Option Lift) : ℕ :=
  if informative lift then want * STEER_WINDOW else want

/-- What both batches return of their walk. -/
def pickedOf (shuffle : Shuffle) (lift : Option Lift) (liftSeed : Option ℤ) (want : ℕ)
    (out : List Text) : List Text :=
  if informative lift then steerCandidates shuffle out lift want (liftSeed.getD LIFT_SEED) else out

/-- `next_refill_batch` over the names of the recipe. -/
def nextRefillBatch (shuffle : Shuffle) (recipe takenNames : List Text) (want : ℕ)
    (lift : Option Lift) (liftSeed : Option ℤ) : List Text :=
  if want = 0 then []
  else pickedOf shuffle lift liftSeed want
    (walkNames (recipeStep ctx) (walkTarget want lift) recipe (Walk.start takenNames)).out

/-- `next_densify_batch` over the names of the densify stream, and whether it ran out. -/
def nextDensifyBatch (shuffle : Shuffle) (stream : List Text) (burned : Text → Bool)
    (takenNames : List Text) (want : ℕ) (lift : Option Lift) (liftSeed : Option ℤ) :
    List Text × Bool :=
  if want = 0 then ([], false)
  else
    let w := walkNames (densifyStep ctx burned) (walkTarget want lift) stream (Walk.start takenNames)
    let picked := pickedOf shuffle lift liftSeed want w.out
    (picked, decide (w.out.length < walkTarget want lift) &&
      (!informative lift || decide (picked.length < want)))

/-! ## What a batch holds -/

variable {ctx} {tested : List Text} {w : Walk} {cand : Text}

/-- The names of a walk may be minted, and it knows at least the keys it began with. -/
structure Walk.Good (ctx : MintContext) (tested : List Text) (w : Walk) : Prop where
  mintable : ∀ name ∈ w.out, Mintable ctx tested name
  keys : tested ⊆ w.takenCanon

theorem Walk.Good.accept (h : w.Good ctx tested) (canon : Text)
    (hmint : Mintable ctx w.takenCanon cand) : (w.accept cand canon).Good ctx tested where
  mintable := by
    intro name hname
    rcases List.mem_append.mp hname with hname | hname
    · exact h.mintable name hname
    · rw [List.mem_singleton.mp hname]
      exact hmint.mono h.keys
  keys := List.Subset.trans h.keys (List.subset_cons_self _ _)

theorem recipeStep_good (h : w.Good ctx tested) : (recipeStep ctx w cand).Good ctx tested := by
  unfold recipeStep
  dsimp only
  split
  next => exact h
  next hparse =>
    split
    next => exact h
    next hdip =>
      split
      next => exact h
      next hblock =>
        have hmint : Mintable ctx w.takenCanon cand :=
          ⟨by simpa using (not_or.mp hparse).2, Option.not_isSome_iff_eq_none.mp hblock,
            Bool.eq_false_iff.mpr hdip⟩
        split
        · exact h
        · split
          · exact h
          · split
            · exact h
            · exact h.accept _ hmint

theorem candidateAllowed_mintable {burned : Text → Bool}
    (h : candidateAllowed ctx burned w cand = true) : Mintable ctx w.takenCanon cand := by
  unfold candidateAllowed at h
  split at h
  next => cases h
  next hparse =>
    split at h
    next => cases h
    next hdip =>
      split at h
      next => cases h
      next hblock =>
        exact ⟨by simpa using (not_or.mp hparse).2, Option.not_isSome_iff_eq_none.mp hblock,
          Bool.eq_false_iff.mpr hdip⟩

theorem densifyStep_good {burned : Text → Bool} (h : w.Good ctx tested) :
    (densifyStep ctx burned w cand).Good ctx tested := by
  unfold densifyStep
  generalize (if canonicalName cand = [] then cand else canonicalName cand) = cand
  dsimp only
  split
  next hallowed => exact h.accept _ (candidateAllowed_mintable hallowed)
  next => exact h

theorem walkNames_good {step : Walk → Text → Walk}
    (hstep : ∀ {w cand}, w.Good ctx tested → (step w cand).Good ctx tested) (target : ℕ)
    (names : List Text) (h : w.Good ctx tested) :
    (walkNames step target names w).Good ctx tested := by
  induction names generalizing w with
  | nil => exact h
  | cons cand rest ih =>
    unfold walkNames
    split
    next => exact h
    next => exact ih (hstep h)

theorem Walk.start_good (takenNames : List Text) :
    (Walk.start takenNames).Good ctx (canonicalKeySet takenNames) where
  mintable := fun _ h => absurd h List.not_mem_nil
  keys := by
    show canonicalKeySet takenNames ⊆ canonicalKeySet (takenNames.filter (· ≠ []))
    unfold canonicalKeySet
    rw [List.filter_filter]
    simp

theorem mem_of_mem_picked {shuffle : Shuffle} {lift : Option Lift} {liftSeed : Option ℤ} {want : ℕ}
    {out : List Text} {name : Text} (h : name ∈ pickedOf shuffle lift liftSeed want out) :
    name ∈ out := by
  unfold pickedOf at h
  split at h
  · exact mem_of_mem_steer h
  · exact h

section
variable {shuffle : Shuffle} {names takenNames : List Text} {burned : Text → Bool} {want : ℕ}
variable {lift : Option Lift} {liftSeed : Option ℤ} {name : Text}

theorem nextRefillBatch_mintable
    (h : name ∈ nextRefillBatch ctx shuffle names takenNames want lift liftSeed) :
    Mintable ctx (canonicalKeySet takenNames) name := by
  unfold nextRefillBatch at h
  split at h
  next => cases h
  next =>
    exact (walkNames_good recipeStep_good _ _ (Walk.start_good _)).mintable name (mem_of_mem_picked h)

theorem nextDensifyBatch_mintable
    (h : name ∈ (nextDensifyBatch ctx shuffle names burned takenNames want lift liftSeed).1) :
    Mintable ctx (canonicalKeySet takenNames) name := by
  unfold nextDensifyBatch at h
  split at h
  next => cases h
  next =>
    exact (walkNames_good densifyStep_good _ _ (Walk.start_good _)).mintable name
      (mem_of_mem_picked h)

end

end

end PaperTrading.Mint
