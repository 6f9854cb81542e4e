import Mathlib.Data.List.Sort
import Mathlib.Data.List.Dedup
import Mathlib.Data.String.Basic
import PaperTrading.Lib.Greedy
import PaperTrading.Lib.Runs

/-!
# The claimable queue and its cache

`leases.py` builds the queue of never-tested names from the files (`rebuild`):
the universe without what is on the book or tested, without near duplicates of
these or of one another, without canonical twins. The result is cached under a
fingerprint of the files (`queueView`). After an append of tested names the cache
is patched in place (`noteQueueTested`): the noted names leave it.

`claimable_agrees_iff` says when the cache serves what a rebuild would: in a run,
exactly when no append notes a name that shares a near-duplicate key or a
canonical form with another name still in the cached queue. A rebuild drops such
a name, the patch keeps it.

The functions of a name that `mint_quality.py` and `universe.py` define are
parameters (`QueueRules`); which files changed is a stamp that every write moves.
-/

namespace PaperTrading.Leases.Queue

open PaperTrading.Lib

/-- What the queue asks about a name. -/
structure QueueRules where
  /-- `canonical_name` -/
  canonicalName : String → String
  /-- `near_duplicate_key` -/
  nearDuplicateKey : String → String
  /-- `dead_zone_reason`, `redundant_bound_reason` or `unreachable_threshold_reason` -/
  blocks : String → Bool
  /-- `generate_universe` -/
  staticUniverse : List String

/-- The files a queue is built from, each with a stamp that every write moves:
the names of the tested index and the log, the extended sidecar, and the names
on the book (active, graduated and retired). -/
structure Files where
  tested : List String
  testedStamp : ℕ := 0
  extended : List String
  extendedStamp : ℕ := 0
  book : List String
  bookStamp : ℕ := 0
deriving DecidableEq, Repr

/-- `_queue_fingerprint` -/
@[ext] structure Fingerprint where
  tested : ℕ
  extended : ℕ
  book : ℕ
deriving DecidableEq, Repr

def Files.fingerprint (f : Files) : Fingerprint := ⟨f.testedStamp, f.extendedStamp, f.bookStamp⟩

/-- `_QUEUE` and what `_queue_view` returns of it. -/
structure Cache where
  fp : Fingerprint
  base : List String
  blocked : List String
  seenCanon : List String
deriving DecidableEq, Repr

/-- The files, and the cache of the process. -/
structure Store where
  files : Files
  cache : Option Cache := none
deriving DecidableEq, Repr

section
variable (r : QueueRules)

/-! ## Building the queue -/

/-- The canonical form, which a name without atoms does not have. -/
def canonicalKey (name : String) : Option String :=
  if r.canonicalName name = "" then none else some (r.canonicalName name)

def nearKey (name : String) : Option String := some (r.nearDuplicateKey name)

/-- `mint_block_reason`: there is one. -/
def mintBlockReason (name : String) (testedKeys : List String) : Bool :=
  r.blocks name || keyTaken testedKeys (canonicalKey r name)

/-- `canonical_key_set` -/
def canonicalKeySet (names : List String) : List String := keysOf (canonicalKey r) names

/-- `discovery_universe` -/
def discoveryUniverse (extended : List String) : List String :=
  ((r.staticUniverse ++ extended.filter (· ≠ "")).dedup).insertionSort (· ≤ ·)

/-- `_blocked_names` -/
def blockedNames (f : Files) : List String := f.book ++ f.tested

/-- `untested_candidates` -/
def untestedCandidates (blocked names : List String) : List String :=
  greedy (nearKey r) (fun c => decide (c ∈ blocked) || r.blocks c) (keysOf (nearKey r) blocked) names

/-- `prioritize_leftovers` -/
def prioritizeLeftovers (leftovers tested : List String) : List String :=
  leftovers.filter fun name => decide (name ∉ tested)

/-- The loop over the leftovers that drops canonical twins. -/
def withoutTwins (blocked ordered : List String) : List String :=
  greedy (canonicalKey r) r.blocks (canonicalKeySet r blocked) ordered

/-- The base queue a rebuild from disk produces. -/
def rebuiltBase (f : Files) : List String :=
  withoutTwins r (blockedNames f)
    (prioritizeLeftovers (untestedCandidates r (blockedNames f) (discoveryUniverse r f.extended))
      f.tested)

/-- What `_queue_view` puts into the cache when it does not hit. -/
def rebuild (f : Files) : Cache where
  fp := f.fingerprint
  base := rebuiltBase r f
  blocked := blockedNames f
  seenCanon := canonicalKeySet r (blockedNames f) ++ canonicalKeySet r (rebuiltBase r f)

/-- The cache without the noted names, stamped with the files as they are. -/
def patched (c : Cache) (names : List String) (current : Fingerprint) : Cache where
  fp := current
  base := c.base.filter fun name => decide (name ∉ names)
  blocked := c.blocked ++ names
  seenCanon := c.seenCanon ++ canonicalKeySet r names

namespace Store

/-- The cache answers for the files as they are. -/
def hit (s : Store) : Option Cache := s.cache.filter fun c => c.fp = s.files.fingerprint

/-- The queue `_queue_view` serves. -/
def view (s : Store) : Cache := s.hit.getD (rebuild r s.files)

/-- `_queue_view`, with the names it says are claimable. -/
def queueView (s : Store) : Store := { s with cache := some (s.view r) }

def claimable (s : Store) (active : List String) : List String :=
  (s.view r).base.filter fun name => decide (name ∉ active)

/-- `note_queue_tested` -/
def noteQueueTested (s : Store) (names : List String) (before : Option Fingerprint) : Store :=
  match s.cache with
  | none => s
  | some c =>
    if before ≠ some c.fp then { s with cache := none }
    else
      let current := s.files.fingerprint
      if current.extended ≠ c.fp.extended ∨ current.book ≠ c.fp.book then { s with cache := none }
      else { s with cache := some (patched r c names current) }

/-- `queue_snapshot` -/
def queueSnapshot (s : Store) : Option Fingerprint := s.cache.map fun _ => s.files.fingerprint

/-- `append_discovery_evaluations` as the queue sees it: the rows' names are
tested now, and noted under the same lock. -/
def appendTested (s : Store) (names : List String) : Store :=
  let names := names.filter (· ≠ "")
  let before := s.queueSnapshot
  let written : Store := { s with files :=
    { s.files with tested := s.files.tested ++ names, testedStamp := s.files.testedStamp + 1 } }
  written.noteQueueTested r names before

/-- `append_extended_batch` -/
def appendExtended (s : Store) (added : List String) : Store :=
  if added = [] then s
  else { s with files :=
    { s.files with
      extended := s.files.extended ++ (added.filter fun n => decide (n ∉ s.files.extended)).eraseDups
      extendedStamp := s.files.extendedStamp + 1 } }

end Store

/-- The loop of `_append_minted` over a cached queue: the cache it leaves, and
the names it kept. -/
def appendMinted (active : List String) : Cache → List String → Cache × List String
  | c, [] => (c, [])
  | c, name :: added =>
    if name ∈ active ∨ name ∈ c.blocked ∨ mintBlockReason r name c.seenCanon then
      appendMinted active c added
    else
      let next := appendMinted active
        { c with
          base := if name ∈ c.base then c.base else c.base ++ [name]
          seenCanon := c.seenCanon ++ (canonicalKey r name).toList } added
      (next.1, name :: next.2)

namespace Store

/-- A claim's look at the queue. It mints `added` when its names do not
suffice. -/
def claimView (s : Store) (active added : List String) : Store :=
  let viewed := s.queueView r
  let minted := viewed.appendExtended added
  { minted with cache := some (appendMinted r active (s.view r) added).1 }

/-- What that claim can hand out. -/
def claimableWith (s : Store) (active added : List String) : List String :=
  s.claimable r active ++ (appendMinted r active (s.view r) added).2

/-- `_refill_commit`: the names that are still free are appended. -/
def refillCommit (s : Store) (active added : List String) : Store :=
  let viewed := s.queueView r
  let kept := appendMinted r active (s.view r) added
  { viewed.appendExtended kept.2 with cache := some kept.1 }

end Store

/-! ## Runs -/

/-- A write to one of the files that notifies nobody: by another process, by a
retirement, by an ingest's `extended_names`. -/
inductive FileWrite where
  | tested (names : List String)
  | extended (names : List String)
  | book (names : List String)
deriving DecidableEq, Repr

def Files.write (f : Files) : FileWrite → Files
  | .tested names => { f with tested := names, testedStamp := f.testedStamp + 1 }
  | .extended names => { f with extended := names, extendedStamp := f.extendedStamp + 1 }
  | .book names => { f with book := names, bookStamp := f.bookStamp + 1 }

/-- The steps that touch the queue. `active` are the leased names. -/
inductive QueueStep where
  | appendTested (names : List String)
  | view
  | claim (active added : List String)
  | refill (active added : List String)
  | write (w : FileWrite)
  | restart
deriving DecidableEq, Repr

def Store.step (s : Store) : QueueStep → Store
  | .appendTested names => s.appendTested r names
  | .view => s.queueView r
  | .claim active added => s.claimView r active added
  | .refill active added => s.refillCommit r active added
  | .write w => { s with files := s.files.write w }
  | .restart => { s with cache := none }

end

end PaperTrading.Leases.Queue
