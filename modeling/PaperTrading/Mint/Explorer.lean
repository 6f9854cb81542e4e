import PaperTrading.Lib.Keyed
import PaperTrading.Mint.Batches

/-!
# Mixed refills

`mix_refill` of `trading/explorer.py`: a batch is drawn at random, then from swaps of
parents, then from the recipe and the densify stream; what is short is drawn again from each
in turn. All of them share one book of names and keys (`Taken`), and each attempt at a
random name or a swap uses up one draw index, which the cursor file carries to the next
refill.

What a draw proposes, the streams and the lift model are parameters. `Filled` is what a side
of the mix does to the book.
-/

namespace PaperTrading.Mint

open Lib

def MAX_ATTEMPTS_PER_NAME : ℕ := 48

/-! ## The book -/

/-- `_Taken` -/
structure Taken where
  names : List Text
  keys : List Text
  canon : List Text
  keys_eq : keys = names.map nearDuplicateKey
  canon_eq : canon = (names.map canonicalName).filter (· ≠ [])

namespace Taken

/-- The book of the names that are taken. -/
def of (names : List Text) : Taken where
  names := names.filter (· ≠ [])
  keys := (names.filter (· ≠ [])).map nearDuplicateKey
  canon := canonicalKeySet names
  keys_eq := rfl
  canon_eq := rfl

def add (t : Taken) (name : Text) : Taken where
  names := name :: t.names
  keys := nearDuplicateKey name :: t.keys
  canon := if canonicalName name = [] then t.canon else canonicalName name :: t.canon
  keys_eq := by rw [List.map_cons, t.keys_eq]
  canon_eq := by
    rw [List.map_cons, List.filter_cons, ← t.canon_eq]
    by_cases h : canonicalName name = []
    · simp [h]
    · simp [h]

end Taken

/-! ## Draws -/

section
variable (ctx : MintContext)

/-- `reject_reason` -/
def rejectReason (name : Text) (minAtoms : ℕ) (book : Taken) : Option String :=
  let nAtoms := name.count '&' + 1
  if name = [] ∨ ¬ nameIsParseable name then some "unparseable"
  else if RECIPE_MAX_ATOMS < nAtoms then some "too_many_atoms"
  else if nAtoms < minAtoms then some "too_few_atoms"
  else if nameHasMomGtAndDip name then some "mom_and_dip"
  else if h4AndMom name then some "h4_mom"
  else if lookbackTooExpensive name ctx.structureLookbackMax then some "lookback"
  else (mintBlockReason ctx name book.canon).or
    (if name ∈ book.names then some "taken"
    else if canonicalName name ≠ [] ∧ canonicalName name ∈ book.canon then some "canonical_tested"
    else if nearDuplicateKey name ∈ book.keys then some "near_duplicate"
    else none)

/-- One attempt of `sample_random_names`: the proposal, and then its canonical form, must
clear every ban. -/
def randomAttempt (propose : ℕ → Option Text) (book : Taken) (index : ℕ) : Option (Text × Taken) :=
  match propose index with
  | none => none
  | some name =>
    if name = [] ∨ (rejectReason ctx name 2 book).isSome then none
    else
      let canon := if canonicalName name = [] then name else canonicalName name
      if (rejectReason ctx canon 2 book).isSome then none else some (canon, book.add canon)

/-- A row of `sample_paired_names`. -/
structure PairRow where
  child : Text
  parent : Text
  axis : String
  draw : ℕ
deriving DecidableEq, Repr

/-- `_one_atom_change` -/
def oneAtomChange (parent child : Text) (axis : String) : Bool :=
  let before := atomsOf parent
  let after := atomsOf child
  let gone := (before.filter (· ∉ after)).dedup.length
  let new := (after.filter (· ∉ before)).dedup.length
  if axis = "add_atom" then after.length = before.length + 1 && gone = 0 && new = 1
  else if axis = "remove_atom" then before.length = after.length + 1 && new = 0 && gone = 1
  else before.length = after.length && gone + new = 2

/-- One attempt of `sample_paired_names`; `swap` is `one_swap` of the parent it draws. -/
def pairedAttempt (swap : ℕ → Option (Text × Text × String)) (book : Taken) (index : ℕ) :
    Option (PairRow × Taken) :=
  match swap index with
  | none => none
  | some s =>
    if ¬ oneAtomChange s.2.1 s.1 s.2.2 then none
    else if (rejectReason ctx s.1 1 book).isSome then none
    else some (⟨s.1, s.2.1, s.2.2, index⟩, book.add s.1)

/-- `sample_random_names` -/
def sampleRandomNames (propose : ℕ → Option Text) (n start : ℕ) (book : Taken) : Drawn Taken Text :=
  drawLoop (randomAttempt ctx propose) n (n * MAX_ATTEMPTS_PER_NAME) { state := book, next := start }

/-- `sample_paired_names`; without a parent nothing is drawn. -/
def samplePairedNames (pool : List Text) (swap : List Text → ℕ → Option (Text × Text × String))
    (n start : ℕ) (book : Taken) : Drawn Taken PairRow :=
  let parents := pool.filter fun parent => strip parent ≠ []
  drawLoop (pairedAttempt ctx (swap parents)) n
    (if parents = [] then 0 else n * MAX_ATTEMPTS_PER_NAME) { state := book, next := start }

end

/-! ## The exploit share -/

/-- `_take_exploit`: the book with the name, if none of its keys is taken. -/
def takeExploit (name : Text) (book : Taken) : Option Taken :=
  if name = [] ∨ name ∈ book.names then none
  else if nearDuplicateKey name ∈ book.keys then none
  else if canonicalName name ≠ [] ∧ canonicalName name ∈ book.canon then none
  else some (book.add name)

/-- The names of a batch that can be taken, until there are enough. -/
def takeNames (enough : ℕ → Bool) : List Text → List Text → Taken → List Text × Taken
  | [], kept, book => (kept, book)
  | name :: rest, kept, book =>
    if enough kept.length then (kept, book)
    else
      match takeExploit name book with
      | none => takeNames enough rest kept book
      | some book' => takeNames enough rest (kept ++ [name]) book'

/-! ## The mix -/

/-- `split_counts`: random, paired and recipe. -/
def splitCounts (want : ℕ) (randomShare pairedShare : ℚ) : ℕ × ℕ × ℕ :=
  let nRandom := min want (roundHalfEven (want * min 1 (max 0 randomShare))).toNat
  let nExploit := want - nRandom
  let nPaired := min nExploit (roundHalfEven (nExploit * min 1 (max 0 pairedShare))).toNat
  (nRandom, nPaired, nExploit - nPaired)

/-- `discovery_explorer.json`: missing, no cursor, or a seed and the next index. -/
inductive ExplorerFile where
  | missing
  | unreadable
  | cursor (seed drawIndex : ℤ)
deriving DecidableEq, Repr

structure Cursor where
  seed : ℤ
  drawIndex : ℕ
deriving DecidableEq, Repr

/-- `load_explorer_cursor` -/
def loadExplorerCursor (explorerSeed : ℤ) : ExplorerFile → Cursor
  | .cursor seed drawIndex => ⟨seed, drawIndex.toNat⟩
  | _ => ⟨explorerSeed, 0⟩

/-- The arguments of a refill and what it reads. -/
structure RefillRequest where
  takenNames : List Text
  n : ℤ
  lift : Option Lift
  liftSeed : Option ℤ
  persist : Bool
  randomShare : ℚ
  pairedShare : ℚ
  explorerSeed : ℤ
  parents : List Text
  ctx : MintContext
  shuffle : Shuffle
  /-- `propose_random(seed, index)` -/
  propose : ℤ → ℕ → Option Text
  /-- the child, parent and axis of draw `index` over a pool of parents -/
  swap : ℤ → List Text → ℕ → Option (Text × Text × String)
  recipe : List Text
  densify : List Text
  burned : Text → Bool

/-- The counts and labels a refill reports. -/
structure RefillMeta where
  source : String
  generatedLast : ℕ
  exhausted : Bool
  strategy : String
  random : ℕ
  paired : ℕ
  exploit : ℕ
deriving DecidableEq, Repr

/-- The names and the report, the file afterwards, the pair links that were appended, and the
draw indices that were used up. -/
structure RefillResult where
  names : List Text
  report : RefillMeta
  file : ExplorerFile
  links : List (PairRow × ℤ)
  draws : List ℕ

/-- `_source` -/
def sourceOf (random paired exploit : ℕ) (densifyCalled : Bool) : String :=
  if 2 ≤ ([random, paired, exploit].filter (0 < ·)).length then "mixed"
  else if 0 < random then "random"
  else if 0 < paired then "paired"
  else if densifyCalled then "densify"
  else "recipe"

namespace RefillRequest
variable (req : RefillRequest)

/-- `_fill_exploit`: the recipe first, densify for what is short. -/
def fillExploit (want : ℕ) (book : Taken) : (List Text × Taken) × Bool :=
  if want = 0 then (([], book), false)
  else
    let recipe := nextRefillBatch req.ctx req.shuffle req.recipe book.names want req.lift req.liftSeed
    let kept := takeNames (fun _ => false) recipe [] book
    if want ≤ kept.1.length then ((kept.1.take want, kept.2), false)
    else
      let more := nextDensifyBatch req.ctx req.shuffle req.densify req.burned kept.2.names
        (want - kept.1.length) req.lift req.liftSeed
      (takeNames (fun have_ => want ≤ have_) more.1 kept.1 kept.2, true)

/-- `strategy = getattr(lift, "strategy", None) or "recipe_order"` -/
def strategy : String :=
  match req.lift.map Lift.strategy with
  | none | some "" => "recipe_order"
  | some strategy => strategy

/-- `cursor` of `mix_refill` -/
def cursor (file : ExplorerFile) : Cursor :=
  if req.persist then loadExplorerCursor req.explorerSeed file else ⟨req.explorerSeed, 0⟩

/-- The random names of one of the two rounds. -/
def sampleRandom (seed : ℤ) (n start : ℕ) (book : Taken) : Drawn Taken Text :=
  sampleRandomNames req.ctx (req.propose seed) n start book

/-- The swaps of one of the two rounds. -/
def samplePaired (seed : ℤ) (n start : ℕ) (book : Taken) : Drawn Taken PairRow :=
  samplePairedNames req.ctx req.parents (req.swap seed) n start book

end RefillRequest

/-- What the sides of one round gave. -/
structure Round where
  random : Drawn Taken Text
  paired : Drawn Taken PairRow
  exploit : (List Text × Taken) × Bool

namespace Round

def children (r : Round) : List Text := r.paired.out.map PairRow.child

/-- How many names the round gave. -/
def size (r : Round) : ℕ := r.random.out.length + r.paired.out.length + r.exploit.1.1.length

end Round

namespace RefillRequest
variable (req : RefillRequest)

/-- The first round, each side up to its share. -/
def firstRound (seed : ℤ) (want start : ℕ) (book : Taken) : Round :=
  let counts := splitCounts want req.randomShare req.pairedShare
  let random := req.sampleRandom seed counts.1 start book
  let paired := req.samplePaired seed counts.2.1 random.next random.state
  { random := random, paired := paired, exploit := req.fillExploit counts.2.2 paired.state }

/-- The second round: what is short, from each side that is on, in turn. -/
def secondRound (seed : ℤ) (short start : ℕ) (book : Taken) : Round :=
  let random := req.sampleRandom seed (if 0 < req.randomShare then short else 0) start book
  let short := short - random.out.length
  let paired := req.samplePaired seed (if 0 < req.pairedShare then short else 0) random.next
    random.state
  { random := random, paired := paired
    exploit := req.fillExploit (short - paired.out.length) paired.state }

end RefillRequest

/-- `mix_refill` -/
def mixRefill (req : RefillRequest) (file : ExplorerFile) : RefillResult :=
  let want := req.n.toNat
  if want = 0 then
    { names := [], report := ⟨"recipe", 0, false, req.strategy, 0, 0, 0⟩, file := file, links := []
      draws := [] }
  else
    let cursor := req.cursor file
    let one := req.firstRound cursor.seed want cursor.drawIndex (.of req.takenNames)
    let two := req.secondRound cursor.seed (want - one.size) one.paired.next one.exploit.1.2
    let random := one.random.out ++ two.random.out
    let pairs := one.paired.out ++ two.paired.out
    let exploit := one.exploit.1.1 ++ two.exploit.1.1
    let names := random ++ pairs.map PairRow.child ++ exploit
    let next := two.paired.next
    { names := names
      report :=
        { source := sourceOf random.length pairs.length exploit.length
            (one.exploit.2 || two.exploit.2)
          generatedLast := names.length
          exhausted := names.length < want
          strategy := req.strategy
          random := random.length, paired := pairs.length, exploit := exploit.length }
      file := if req.persist ∧ (next ≠ cursor.drawIndex ∨ file = .missing) then
        .cursor cursor.seed next else file
      links := if req.persist then pairs.map fun row => (row, cursor.seed) else []
      draws := one.random.draws ++ one.paired.draws ++ two.random.draws ++ two.paired.draws }

/-- Persisted refills one after the other: the file they leave and the indices they used. -/
def refillRun : List RefillRequest → ExplorerFile → ExplorerFile × List ℕ
  | [], file => (file, [])
  | req :: rest, file =>
    let result := mixRefill { req with persist := true } file
    let later := refillRun rest result.file
    (later.1, result.draws ++ later.2)

end PaperTrading.Mint
