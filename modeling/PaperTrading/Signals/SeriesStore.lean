import Mathlib.Algebra.Order.BigOperators.Group.List
import Mathlib.Data.List.Dedup
import Mathlib.Algebra.Ring.Int.Defs
import Mathlib.Data.Rat.Defs
import PaperTrading.Lib.Dict
import PaperTrading.Lib.Runs

/-!
# The byte-budget cache

`signals/series_cache.py` keeps series under a content key in one store with a byte counter:
a hit moves its entry to the end, and a put drops entries from the front until the new one
has room. Every call holds the lock, so a run is a list of calls.

`store_accounts` is about every run: the counter is the size of what is stored and within
the budget, a hit is the value last stored under the key, and an entry leaves by a clear, by
a new value for its key, or because it was used before all that stay and there was no room.
A put of a value that does not fit stores nothing and leaves what its key had, which
`unfit_put_ignored` is an instance of.
-/

namespace PaperTrading.Signals

open Lib

/-- `CACHE_BUDGET_BYTES` -/
def CACHE_BUDGET_BYTES : ℤ := 150 * 1024 * 1024

/-! ## The store -/

/-- What is cached: an array of so many bytes an item, a tuple, or something else. -/
inductive Series where
  | array (itemsize : ℕ) (items : List ℚ)
  | tuple (parts : List Series)
  | other (name : String)

mutual

/-- `value_nbytes` -/
def Series.nbytes : Series → ℤ
  | .array itemsize items => itemsize * items.length + 64
  | .tuple parts => partsNbytes parts
  | .other _ => 0

/-- The sum over the parts of a tuple. -/
def partsNbytes : List Series → ℤ
  | [] => 0
  | part :: parts => part.nbytes + partsNbytes parts

end

/-- An entry of `_STORE` with its key. -/
abbrev StoreEntry (κ : Type) := κ × Series × ℤ

section
variable {κ : Type} [DecidableEq κ]

/-- `_STORE`, the least recently used entry first, and `_NBYTES`. -/
structure SeriesStore (κ : Type) [DecidableEq κ] where
  store : Dict κ (Series × ℤ)
  nbytes : ℤ

namespace SeriesStore

def empty : SeriesStore κ := ⟨Dict.empty, 0⟩

/-- `_STORE.move_to_end(key)` for a key that is there. -/
def moveToEnd (d : Dict κ (Series × ℤ)) (key : κ) (e : Series × ℤ) : Dict κ (Series × ℤ) :=
  (d.erase key).set key e

/-- `cache_get` -/
def cacheGet (c : SeriesStore κ) (key : κ) : Option Series × SeriesStore κ :=
  match c.store.get? key with
  | none => (none, c)
  | some hit => (some hit.1, { c with store := moveToEnd c.store key hit })

/-- The loop of `cache_put`: how many entries leave at the front, and the counter then. -/
def evicted (size : ℤ) : List (StoreEntry κ) → ℤ → ℕ × ℤ
  | [], nbytes => (0, nbytes)
  | e :: rest, nbytes =>
    if CACHE_BUDGET_BYTES < nbytes + size then
      ((evicted size rest (nbytes - e.2.2)).1 + 1, (evicted size rest (nbytes - e.2.2)).2)
    else (0, nbytes)

/-- The size a put is made with. -/
def putSize (value : Series) (nbytes : Option ℤ) : ℤ := nbytes.getD value.nbytes

/-- The value can be stored. -/
def Fits (value : Series) (nbytes : Option ℤ) : Prop :=
  0 < putSize value nbytes ∧ putSize value nbytes ≤ CACHE_BUDGET_BYTES

instance (value : Series) (nbytes : Option ℤ) : Decidable (Fits value nbytes) :=
  inferInstanceAs (Decidable (_ ∧ _))

/-- `cache_put`; it returns `value` always. -/
def cachePut (c : SeriesStore κ) (key : κ) (value : Series) (nbytes : Option ℤ) : SeriesStore κ :=
  let size := putSize value nbytes
  if Fits value nbytes then
    let counter := c.nbytes - ((c.store.get? key).map Prod.snd).getD 0
    let store := c.store.erase key
    let loop := evicted size store.entries counter
    let kept := store.keepNewest (store.entries.length - loop.1)
    { store := kept.set key (value, size), nbytes := loop.2 + size }
  else c

end SeriesStore

/-- A call. -/
inductive StoreCall (κ : Type) where
  | put (key : κ) (value : Series) (nbytes : Option ℤ)
  | get (key : κ)
  | clear

/-! ## What a run did -/

/-- The store, with what was last stored under each key since it was cleared and the keys in
the order they were used, which the code does not keep. -/
structure StoreRun (κ : Type) [DecidableEq κ] where
  cache : SeriesStore κ
  latest : κ → Option Series
  uses : List κ

namespace StoreRun

open SeriesStore

def initial : StoreRun κ := ⟨.empty, fun _ => none, []⟩

def step (r : StoreRun κ) : StoreCall κ → StoreRun κ
  | .put key value nbytes =>
    if Fits value nbytes then
      { cache := r.cache.cachePut key value nbytes
        latest := fun k => if k = key then some value else r.latest k
        uses := r.uses ++ [key] }
    else r
  | .get key =>
    { r with
      cache := (r.cache.cacheGet key).2
      uses := if (r.cache.store.get? key).isSome then r.uses ++ [key] else r.uses }
  | .clear => { cache := .empty, latest := fun _ => none, uses := r.uses }

end StoreRun

/-! ## What a call does to the entries -/

/-- The bytes of some entries. -/
def bytesOf (es : List (StoreEntry κ)) : ℤ := (es.map fun e => e.2.2).sum

/-- The entries of the other keys. -/
def othersOf (es : List (StoreEntry κ)) (key : κ) : List (StoreEntry κ) :=
  es.filter fun e => e.1 ≠ key

theorem entries_erase (d : Dict κ (Series × ℤ)) (key : κ) :
    (d.erase key).entries = othersOf d.entries key := by
  show (d.entries.filterMap fun e => (if e.1 = key then none else some e.2).map (Prod.mk e.1)) = _
  unfold othersOf
  rw [← List.filterMap_eq_filter]
  refine List.filterMap_congr fun e _ => ?_
  by_cases h : e.1 = key
  · simp [h, Option.guard]
  · simp [h, Option.guard]

/-- The key's own bytes and those of the others are all. -/
theorem bytesOf_others (d : Dict κ (Series × ℤ)) (key : κ) :
    bytesOf (othersOf d.entries key) + ((d.get? key).map Prod.snd).getD 0 = bytesOf d.entries := by
  have hlist : ∀ es : List (StoreEntry κ), (es.map Prod.fst).Nodup →
      bytesOf (othersOf es key) +
        (((es.find? fun e => e.1 = key).map Prod.snd).map Prod.snd).getD 0 = bytesOf es := by
    intro es
    induction es with
    | nil =>
      intro _
      rfl
    | cons e es ih =>
      intro hnodup
      obtain ⟨hnot, hnodup⟩ := List.nodup_cons.mp hnodup
      unfold bytesOf othersOf at ih ⊢
      by_cases h : e.1 = key
      · have hothers : es.filter (fun e => decide (e.1 ≠ key)) = es := by
          refine List.filter_eq_self.mpr fun e' he' => decide_eq_true fun heq => hnot ?_
          rw [h, ← heq]
          exact List.mem_map_of_mem he'
        rw [List.filter_cons_of_neg (by simpa using h), hothers,
          List.find?_cons_of_pos (by simpa using h)]
        simp only [Option.map_some, Option.getD_some, List.map_cons, List.sum_cons]
        omega
      · rw [List.filter_cons_of_pos (by simpa using h), List.find?_cons_of_neg (by simpa using h)]
        simp only [List.map_cons, List.sum_cons]
        have hrest := ih hnodup
        omega
  exact hlist d.entries d.nodup

namespace SeriesStore

theorem entries_moveToEnd (d : Dict κ (Series × ℤ)) (key : κ) (e : Series × ℤ) :
    (moveToEnd d key e).entries = othersOf d.entries key ++ [(key, e)] := by
  unfold moveToEnd
  rw [Dict.entries_set_of_none (by rw [Dict.get?_erase, if_pos rfl]), entries_erase]

omit [DecidableEq κ] in
/-- The loop pops entries from the front, and stops when there is room or none is left. -/
theorem evicted_spec (size : ℤ) (es : List (StoreEntry κ)) (nbytes : ℤ) :
    (evicted size es nbytes).1 ≤ es.length ∧
      (evicted size es nbytes).2 = nbytes - bytesOf (es.take (evicted size es nbytes).1) ∧
      ((evicted size es nbytes).2 + size ≤ CACHE_BUDGET_BYTES ∨
        (evicted size es nbytes).1 = es.length) ∧
      ∀ i < (evicted size es nbytes).1, CACHE_BUDGET_BYTES < nbytes - bytesOf (es.take i) + size := by
  induction es generalizing nbytes with
  | nil => exact ⟨le_rfl, (sub_zero nbytes).symm, Or.inr rfl, fun i hi => absurd hi (Nat.not_lt_zero i)⟩
  | cons e es ih =>
    unfold evicted
    split
    next hfull =>
      obtain ⟨hlen, hcount, hstop, hfulls⟩ := ih (nbytes - e.2.2)
      refine ⟨Nat.succ_le_succ hlen, ?_, hstop.imp_right (congrArg (· + 1)), fun i hi => ?_⟩
      · rw [hcount, List.take_succ_cons]
        unfold bytesOf
        rw [List.map_cons, List.sum_cons]
        omega
      · cases i with
        | zero => simpa [bytesOf] using hfull
        | succ i =>
          have hlater := hfulls i (Nat.lt_of_succ_lt_succ hi)
          rw [List.take_succ_cons]
          unfold bytesOf at hlater ⊢
          rw [List.map_cons, List.sum_cons]
          omega
    next hroom =>
      refine ⟨Nat.zero_le _, ?_, Or.inl (not_lt.mp hroom), fun i hi => absurd hi (Nat.not_lt_zero i)⟩
      simp [bytesOf]

/-- The counter is the size of what is stored, within the budget. -/
structure Accounts (c : SeriesStore κ) : Prop where
  counter : c.nbytes = bytesOf c.store.entries
  within : c.nbytes ≤ CACHE_BUDGET_BYTES

/-- How many entries a put pops. -/
def popped (c : SeriesStore κ) (key : κ) (size : ℤ) : ℕ :=
  (evicted size (othersOf c.store.entries key) (bytesOf (othersOf c.store.entries key))).1

section
variable {c : SeriesStore κ} {key : κ} {value : Series} {nbytes : Option ℤ}

/-- What a put that stores leaves. -/
theorem cachePut_spec (hc : Accounts c) (key : κ) (hfits : Fits value nbytes) :
    (c.cachePut key value nbytes).store.entries =
        (othersOf c.store.entries key).drop (popped c key (putSize value nbytes)) ++
          [(key, value, putSize value nbytes)] ∧
      Accounts (c.cachePut key value nbytes) := by
  have hcounter : c.nbytes - ((c.store.get? key).map Prod.snd).getD 0 =
      bytesOf (othersOf c.store.entries key) := by
    have hsplit := bytesOf_others c.store key
    rw [hc.counter]
    omega
  obtain ⟨hlen, hcount, hstop, -⟩ := evicted_spec (putSize value nbytes)
    (othersOf c.store.entries key) (bytesOf (othersOf c.store.entries key))
  have hkept : ((c.store.erase key).keepNewest ((othersOf c.store.entries key).length -
      popped c key (putSize value nbytes))).entries =
        (othersOf c.store.entries key).drop (popped c key (putSize value nbytes)) := by
    show (c.store.erase key).entries.drop ((c.store.erase key).entries.length - _) = _
    rw [entries_erase]
    congr 1
    unfold popped
    omega
  have hput : c.cachePut key value nbytes =
      { store := ((c.store.erase key).keepNewest ((othersOf c.store.entries key).length -
          popped c key (putSize value nbytes))).set key (value, putSize value nbytes)
        nbytes := (evicted (putSize value nbytes) (othersOf c.store.entries key)
          (bytesOf (othersOf c.store.entries key))).2 + putSize value nbytes } := by
    unfold cachePut
    dsimp only
    rw [if_pos hfits, hcounter, entries_erase]
    rfl
  have habsent : ((c.store.erase key).keepNewest ((othersOf c.store.entries key).length -
      popped c key (putSize value nbytes))).get? key = none := by
    cases hget : ((c.store.erase key).keepNewest ((othersOf c.store.entries key).length -
      popped c key (putSize value nbytes))).get? key with
    | none => rfl
    | some v =>
      have hold := Dict.get?_of_keepNewest hget
      rw [Dict.get?_erase, if_pos rfl] at hold
      cases hold
  have hentries : (c.cachePut key value nbytes).store.entries =
      (othersOf c.store.entries key).drop (popped c key (putSize value nbytes)) ++
        [(key, value, putSize value nbytes)] := by
    rw [hput]
    dsimp only
    rw [Dict.entries_set_of_none habsent, hkept]
  have htotal : bytesOf (othersOf c.store.entries key) =
      bytesOf ((othersOf c.store.entries key).take (popped c key (putSize value nbytes))) +
        bytesOf ((othersOf c.store.entries key).drop (popped c key (putSize value nbytes))) := by
    unfold bytesOf
    rw [← List.sum_append, ← List.map_append, List.take_append_drop]
  have hnbytes : (c.cachePut key value nbytes).nbytes =
      bytesOf ((othersOf c.store.entries key).drop (popped c key (putSize value nbytes))) +
        putSize value nbytes := by
    rw [hput]
    dsimp only
    rw [hcount]
    unfold popped at htotal ⊢
    omega
  refine ⟨hentries, ?_, ?_⟩
  · rw [hnbytes, hentries]
    unfold bytesOf
    rw [List.map_append, List.sum_append]
    simp
  · rcases hstop with hroom | hall
    · rw [hput]
      exact hroom
    · -- nothing is left but the new entry
      rw [hnbytes]
      unfold popped
      rw [hall, List.drop_length]
      simpa [bytesOf] using hfits.2

theorem accounts_cacheGet (hc : Accounts c) (key : κ) : Accounts (c.cacheGet key).2 := by
  unfold cacheGet
  split
  next => exact hc
  next hit hget =>
    refine ⟨?_, hc.within⟩
    have hsplit := bytesOf_others c.store key
    rw [hget] at hsplit
    show c.nbytes = bytesOf (moveToEnd c.store key hit).entries
    rw [entries_moveToEnd, hc.counter, ← hsplit]
    unfold bytesOf
    rw [List.map_append, List.sum_append]
    simp

end

end SeriesStore

/-! ## The order of use -/

/-- The last use of one key was before that of the other. -/
def UsedBefore (uses : List κ) (a b : κ) : Prop := [a, b].Sublist uses.dedup

theorem dedup_snoc (uses : List κ) (key : κ) :
    (uses ++ [key]).dedup = uses.dedup.filter (· ≠ key) ++ [key] := by
  induction uses with
  | nil => simp
  | cons a uses ih =>
    by_cases hmem : a ∈ uses
    · rw [List.dedup_cons_of_mem hmem, List.cons_append,
        List.dedup_cons_of_mem (List.mem_append_left _ hmem), ih]
    · rw [List.dedup_cons_of_notMem hmem, List.cons_append]
      by_cases ha : a = key
      · rw [List.dedup_cons_of_mem (by simp [ha]), ih, List.filter_cons_of_neg (by simpa using ha)]
      · rw [List.dedup_cons_of_notMem (by simp [hmem, ha]), ih,
          List.filter_cons_of_pos (by simpa using ha), List.cons_append]

/-- The entries are in the order of their last use. -/
def InOrder (es : List (StoreEntry κ)) (uses : List κ) : Prop :=
  (es.map Prod.fst).Sublist uses.dedup

theorem InOrder.snoc {es kept : List (StoreEntry κ)} {uses : List κ} (h : InOrder es uses)
    {key : κ} (hkept : kept.Sublist (othersOf es key)) (v : Series × ℤ) :
    InOrder (kept ++ [(key, v)]) (uses ++ [key]) := by
  unfold InOrder
  rw [dedup_snoc, List.map_append]
  refine List.Sublist.append ?_ (List.Sublist.refl _)
  have hothers : (othersOf es key).map Prod.fst = (es.map Prod.fst).filter (· ≠ key) := by
    unfold othersOf
    rw [List.filter_map]
    rfl
  exact (hkept.map Prod.fst).trans (hothers ▸ h.filter _)

/-! ## Every run -/

open SeriesStore

/-- What holds between calls. -/
structure BooksKept (r : StoreRun κ) : Prop where
  accounts : Accounts r.cache
  latest : ∀ key v, r.cache.store.get? key = some v → r.latest key = some v.1
  inOrder : InOrder r.cache.store.entries r.uses

/-- An entry leaves for a put of another key: it was used before all that stay, and beside
those used after it there was no room for what is stored. -/
def MadeRoom (r : StoreRun κ) (call : StoreCall κ) (e : StoreEntry κ) : Prop :=
  ∃ key value nbytes, call = .put key value nbytes ∧ Fits value nbytes ∧ e.1 ≠ key ∧
    ∃ later, (∀ stay ∈ (r.step call).cache.store.entries, stay.1 = key ∨ stay ∈ later) ∧
      (∀ stay ∈ later, UsedBefore r.uses e.1 stay.1) ∧
      CACHE_BUDGET_BYTES < e.2.2 + bytesOf later + putSize value nbytes

/-- What the store promises of a call. -/
structure Accounted (r : StoreRun κ) (call : StoreCall κ) : Prop where
  accounts : Accounts (r.step call).cache
  answered : ∀ key v, call = .get key → (r.cache.cacheGet key).1 = some v → r.latest key = some v
  leaves : ∀ e ∈ r.cache.store.entries, e ∉ (r.step call).cache.store.entries →
    call = .clear ∨ (∃ value nbytes, call = .put e.1 value nbytes ∧ Fits value nbytes) ∨
      MadeRoom r call e

theorem accounts_empty : Accounts (SeriesStore.empty : SeriesStore κ) := by
  refine ⟨rfl, ?_⟩
  show (0 : ℤ) ≤ CACHE_BUDGET_BYTES
  decide

theorem booksKept_initial : BooksKept (StoreRun.initial : StoreRun κ) where
  accounts := accounts_empty
  latest := fun key v h => by cases h
  inOrder := List.Sublist.refl _

section
variable {r : StoreRun κ} {key : κ}

theorem booksKept_put (hr : BooksKept r) (value : Series) (nbytes : Option ℤ) :
    BooksKept (r.step (.put key value nbytes)) := by
  by_cases hfits : Fits value nbytes
  · obtain ⟨hentries, haccounts⟩ := cachePut_spec hr.accounts key hfits
    have hstep : r.step (.put key value nbytes) =
        { cache := r.cache.cachePut key value nbytes
          latest := fun k => if k = key then some value else r.latest k
          uses := r.uses ++ [key] } := if_pos hfits
    rw [hstep]
    refine ⟨haccounts, fun k v hk => ?_, ?_⟩
    · have hmem := Dict.get?_eq_some.mp hk
      rw [hentries] at hmem
      dsimp only
      rcases List.mem_append.mp hmem with hold | hnew
      · obtain ⟨hin, hne⟩ := List.mem_filter.mp (List.mem_of_mem_drop hold)
        rw [if_neg (by simpa using hne)]
        exact hr.latest k v (Dict.get?_eq_some.mpr hin)
      · have heq := List.mem_singleton.mp hnew
        rw [if_pos (congrArg Prod.fst heq)]
        exact congrArg some (congrArg (fun e => e.2.1) heq).symm
    · show InOrder (r.cache.cachePut key value nbytes).store.entries (r.uses ++ [key])
      rw [hentries]
      exact hr.inOrder.snoc (List.drop_sublist _ _) _
  · have hstep : r.step (.put key value nbytes) = r := if_neg hfits
    rw [hstep]
    exact hr

theorem booksKept_get (hr : BooksKept r) : BooksKept (r.step (.get key)) := by
  refine ⟨accounts_cacheGet hr.accounts key, ?_, ?_⟩
  · show ∀ k v, (r.cache.cacheGet key).2.store.get? k = some v → r.latest k = some v.1
    unfold cacheGet
    split
    next => exact hr.latest
    next hit hget =>
      intro k v hk
      unfold moveToEnd at hk
      rw [Dict.get?_set, Dict.get?_erase] at hk
      by_cases hkey : k = key
      · rw [if_pos hkey] at hk
        rw [← Option.some.inj hk, hkey]
        exact hr.latest key hit hget
      · rw [if_neg hkey, if_neg hkey] at hk
        exact hr.latest k v hk
  · show InOrder (r.cache.cacheGet key).2.store.entries
      (if (r.cache.store.get? key).isSome then r.uses ++ [key] else r.uses)
    unfold cacheGet
    split
    next hget =>
      rw [hget]
      exact hr.inOrder
    next hit hget =>
      rw [hget, Option.isSome_some, if_pos rfl]
      dsimp only
      rw [entries_moveToEnd]
      exact hr.inOrder.snoc (List.Sublist.refl _) hit

theorem booksKept_step (hr : BooksKept r) (call : StoreCall κ) : BooksKept (r.step call) := by
  cases call with
  | put key value nbytes => exact booksKept_put hr value nbytes
  | get key => exact booksKept_get hr
  | clear => exact ⟨accounts_empty, (fun key v h => by cases h), List.nil_sublist _⟩

/-- An entry of another key that a put drops was used before all that stay. -/
theorem madeRoom_of_put (hr : BooksKept r) {value : Series} {nbytes : Option ℤ}
    (hfits : Fits value nbytes) {e : StoreEntry κ} (he : e ∈ r.cache.store.entries)
    (hne : e.1 ≠ key) (hgone : e ∉ (r.step (.put key value nbytes)).cache.store.entries) :
    MadeRoom r (.put key value nbytes) e := by
  obtain ⟨hentries, -⟩ := cachePut_spec hr.accounts key hfits
  have hafter : (r.step (.put key value nbytes)).cache.store.entries =
      (othersOf r.cache.store.entries key).drop (popped r.cache key (putSize value nbytes)) ++
        [(key, value, putSize value nbytes)] := by
    have hstep : (r.step (.put key value nbytes)).cache = r.cache.cachePut key value nbytes := by
      unfold StoreRun.step
      dsimp only
      rw [if_pos hfits]
    rw [hstep, hentries]
  obtain ⟨-, -, -, hfulls⟩ := evicted_spec (putSize value nbytes)
    (othersOf r.cache.store.entries key) (bytesOf (othersOf r.cache.store.entries key))
  have hin : e ∈ othersOf r.cache.store.entries key := List.mem_filter.mpr ⟨he, decide_eq_true hne⟩
  obtain ⟨i, hi⟩ := List.mem_iff_getElem?.mp hin
  obtain ⟨hlt, hget⟩ := List.getElem?_eq_some_iff.mp hi
  have hsplit : (othersOf r.cache.store.entries key).drop i =
      e :: (othersOf r.cache.store.entries key).drop (i + 1) := by
    rw [List.drop_eq_getElem_cons hlt, hget]
  have hpopped : i < popped r.cache key (putSize value nbytes) := by
    by_contra hnot
    refine hgone ?_
    rw [hafter]
    refine List.mem_append_left _ (List.mem_of_getElem? (i := i - popped r.cache key (putSize value nbytes)) ?_)
    rw [List.getElem?_drop, show popped r.cache key (putSize value nbytes) +
      (i - popped r.cache key (putSize value nbytes)) = i by omega, hi]
  refine ⟨key, value, nbytes, rfl, hfits, hne, (othersOf r.cache.store.entries key).drop (i + 1),
    fun stay hstay => ?_, fun stay hstay => ?_, ?_⟩
  · rw [hafter] at hstay
    rcases List.mem_append.mp hstay with hold | hnew
    · exact Or.inr ((List.drop_sublist_drop_left _ hpopped).mem hold)
    · exact Or.inl (congrArg Prod.fst (List.mem_singleton.mp hnew))
  · have hpair : [e, stay].Sublist (othersOf r.cache.store.entries key) := by
      have htail : [e, stay].Sublist ((othersOf r.cache.store.entries key).drop i) := by
        rw [hsplit]
        exact (List.singleton_sublist.mpr hstay).cons_cons e
      exact htail.trans (List.drop_sublist _ _)
    have hkeys := (hpair.trans List.filter_sublist).map Prod.fst
    exact hkeys.trans hr.inOrder
  · have hfull := hfulls i hpopped
    have htotal : bytesOf (othersOf r.cache.store.entries key) =
        bytesOf ((othersOf r.cache.store.entries key).take i) +
          (e.2.2 + bytesOf ((othersOf r.cache.store.entries key).drop (i + 1))) := by
      have hcons : e.2.2 + bytesOf ((othersOf r.cache.store.entries key).drop (i + 1)) =
          bytesOf ((othersOf r.cache.store.entries key).drop i) := by
        rw [hsplit]
        unfold bytesOf
        rw [List.map_cons, List.sum_cons]
      rw [hcons]
      unfold bytesOf
      rw [← List.sum_append, ← List.map_append, List.take_append_drop]
    omega

theorem accounted_of_booksKept (hr : BooksKept r) (call : StoreCall κ) : Accounted r call := by
  refine ⟨(booksKept_step hr call).accounts, ?_, fun e he hgone => ?_⟩
  · rintro key v rfl hanswer
    unfold cacheGet at hanswer
    split at hanswer
    next => cases hanswer
    next hit hget => exact Option.some.inj hanswer ▸ hr.latest key hit hget
  · cases call with
    | put key value nbytes =>
      by_cases hfits : Fits value nbytes
      · by_cases hkey : e.1 = key
        · exact Or.inr (Or.inl ⟨value, nbytes, hkey ▸ rfl, hfits⟩)
        · exact Or.inr (Or.inr (madeRoom_of_put hr hfits he hkey hgone))
      · have hstep : r.step (.put key value nbytes) = r := if_neg hfits
        rw [hstep] at hgone
        exact absurd he hgone
    | get key =>
      -- a hit only moves its entry
      refine absurd ?_ hgone
      show e ∈ (r.cache.cacheGet key).2.store.entries
      unfold cacheGet
      split
      next => exact he
      next hit hget =>
        dsimp only
        rw [entries_moveToEnd]
        by_cases hkey : e.1 = key
        · have hsame := Dict.entry_unique (Dict.get?_eq_some.mp hget)
            (show (key, e.2) ∈ r.cache.store.entries from hkey ▸ he)
          refine List.mem_append_right _ (List.mem_singleton.mpr ?_)
          rw [hsame, ← hkey]
        · exact List.mem_append_left _ (List.mem_filter.mpr ⟨he, decide_eq_true hkey⟩)
    | clear => exact Or.inl rfl

/-- Every run of calls is accounted for. -/
theorem store_accounts (calls : List (StoreCall κ)) :
    Along StoreRun.step Accounted (StoreRun.initial : StoreRun κ) calls :=
  along_of_inv (I := BooksKept) (C := fun _ _ => True)
    (fun _ call hr _ => ⟨accounted_of_booksKept hr call, booksKept_step hr call⟩) calls booksKept_initial
    (along_of_forall (fun _ _ => trivial) calls)

end

end

/-- A put of a value without bytes stores nothing: the key answers with the one before, not
with the one put last. -/
theorem unfit_put_ignored :
    ((([.put "k" (.array 8 [1]) none, .put "k" (.tuple []) none] : List (StoreCall String)).foldl
      StoreRun.step .initial).cache.cacheGet "k").1 = some (.array 8 [1]) ∧
      Series.array 8 [1] ≠ .tuple [] := by
  refine ⟨rfl, fun h => ?_⟩
  cases h

end PaperTrading.Signals
