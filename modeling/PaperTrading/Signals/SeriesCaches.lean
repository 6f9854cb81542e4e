import PaperTrading.Lib.Memo
import PaperTrading.Lib.Runs
import PaperTrading.Signals.Ema

/-!
# The series caches

`sma` and `ema` of `signals/dynamic.py` and `_htf_closes_all` of
`signals/htf.py` keep whole series under a key made of the identity of the close
list, its length and two or three of its values. No cache holds the list itself,
so once the list is released its identity can go to another one, and an entry can
be found by a list it was not made from.

`Memory` is the close lists that are alive and the three caches; a list of bucket
closes lives in the higher-timeframe cache, and its identity is free again when
that cache is emptied. An entry carries the closes it was made from, which the
code does not keep.

`caches_transparent` is about every run. As long as each call that finds an entry
finds one made from closes that agree with its own as far as it reads, every call
returns what the recurrence gives without a cache. `recycled_list_stale` is a run
where a list with the sampled values of a released one is served its average.
-/

namespace PaperTrading.Signals

open Lib

/-! ## The recurrences -/

/-- `len(closes) - 1 if i is None else i`. -/
def barOf (closes : List ℚ) (i : Option ℤ) : ℤ := i.getD (closes.length - 1)

/-- `i < period - 1 or period <= 0`, where the averages are `nan`. -/
def tooEarly (period : ℕ) (i : ℤ) : Bool := i < (period : ℤ) - 1 ∨ period = 0

inductive Average where
  | sma
  | ema
deriving DecidableEq, Repr

/-- `_sma_series` or `_ema_series`. -/
def Average.series : Average → List ℚ → ℕ → List (Option ℚ)
  | .sma => smaSeries
  | .ema => emaSeries

/-- The average at a bar of the series of the list itself. -/
def Average.plain (a : Average) (closes : List ℚ) (period : ℕ) (i : Option ℤ) :
    Except String (Option ℚ) :=
  if tooEarly period (barOf closes i) then .ok none
  else item (a.series closes period) (barOf closes i).toNat

/-- `htf_close_above_ma` on the bucket closes of the list itself. -/
def plainAbove (a : Average) (closes : List ℚ) (barsPer period : ℕ) (i : Option ℤ) :
    Except String Bool :=
  if barOf closes i < 0 then .ok false
  else
    htfCloseAbove (fun htf p idx => a.plain htf p (some idx)) closes (barOf closes i).toNat barsPer
      period

/-- `completed_htf_closes` on the bucket closes of the list itself. -/
def plainBuckets (closes : List ℚ) (barsPer : ℕ) (i : Option ℤ) : List ℚ :=
  if barOf closes i < 0 then []
  else (htfClosesAll closes barsPer).take (completedHtfCount (barOf closes i).toNat barsPer)

/-! ## The caches -/

/-- What `_series_cache_key` samples of a list: its identity, the period, its
length and the first, the middle and the last close. -/
structure SeriesKey where
  list : ℕ
  period : ℕ
  n : ℕ
  first : ℚ
  middle : ℚ
  last : ℚ
deriving DecidableEq

def seriesCacheKey (list : ℕ) (closes : List ℚ) (period : ℕ) : SeriesKey :=
  ⟨list, period, closes.length, closes.getD 0 0, closes.getD (closes.length / 2) 0,
    closes.getD (closes.length - 1) 0⟩

/-- The key of `_htf_closes_all`. -/
structure BucketKey where
  list : ℕ
  barsPer : ℕ
  n : ℕ
  first : ℚ
  last : ℚ
deriving DecidableEq

def bucketKey (list : ℕ) (closes : List ℚ) (barsPer : ℕ) : BucketKey :=
  ⟨list, barsPer, closes.length, closes.getD 0 0, closes.getD (closes.length - 1) 0⟩

/-- A list of floats with its identity. -/
structure Listed where
  list : ℕ
  closes : List ℚ
deriving DecidableEq

abbrev SeriesCache := Memo SeriesKey (List ℚ) (List (Option ℚ))
abbrev BucketCache := Memo BucketKey (List ℚ) Listed

/-- `_SMA_CACHE_MAX` and `_EMA_CACHE_MAX`. -/
def SERIES_CACHE_MAX : ℕ := 1024

/-- `_HTF_CACHE_MAX` -/
def HTF_CACHE_MAX : ℕ := 256

/-- `sma` where no series of the list is kept: the last bar takes its window
alone and keeps nothing, an earlier one builds and keeps the whole series. -/
def smaMissed (m : SeriesCache) (x : Listed) (period i : ℕ) :
    Except String (Option ℚ) × SeriesCache :=
  if i + 1 = x.closes.length then (.ok (some ((lastWindow x.closes period i).sum / period)), m)
  else
    (item (smaSeries x.closes period) i,
      m.keep SERIES_CACHE_MAX (seriesCacheKey x.list x.closes period)
        ⟨x.closes, smaSeries x.closes period⟩)

/-- `sma` -/
def smaCached (m : SeriesCache) (x : Listed) (period : ℕ) (i : Option ℤ) :
    Except String (Option ℚ) × SeriesCache :=
  let i := barOf x.closes i
  if tooEarly period i then (.ok none, m)
  else
    match m.get? (seriesCacheKey x.list x.closes period) with
    | some e =>
      if e.value.length = x.closes.length then (item e.value i.toNat, m)
      else smaMissed m x period i.toNat
    | none => smaMissed m x period i.toNat

/-- `ema` -/
def emaCached (m : SeriesCache) (x : Listed) (period : ℕ) (i : Option ℤ) :
    Except String (Option ℚ) × SeriesCache :=
  let i := barOf x.closes i
  if tooEarly period i then (.ok none, m)
  else
    let r := m.through SERIES_CACHE_MAX (fun series => series.length = x.closes.length)
      (seriesCacheKey x.list x.closes period) ⟨x.closes, emaSeries x.closes period⟩
    (item r.1.value i.toNat, r.2)

/-- `_htf_closes_all`, which gives a list it makes the identity `fresh`. -/
def htfClosesCached (m : BucketCache) (x : Listed) (barsPer fresh : ℕ) :
    Kept (List ℚ) Listed × BucketCache :=
  m.through HTF_CACHE_MAX (fun _ => true) (bucketKey x.list x.closes barsPer)
    ⟨x.closes, ⟨fresh, htfClosesAll x.closes barsPer⟩⟩

/-- `completed_htf_count`, which is 0 before the first bar. -/
def completedAt (closes : List ℚ) (barsPer : ℕ) (i : Option ℤ) : ℕ :=
  if barOf closes i < 0 then 0 else completedHtfCount (barOf closes i).toNat barsPer

/-! ## Lists and caches together -/

/-- The close lists alive, by identity, and the caches. -/
structure Memory where
  alive : Dict ℕ (List ℚ)
  sma : SeriesCache
  ema : SeriesCache
  htf : BucketCache
deriving DecidableEq

namespace Memory

def initial : Memory := ⟨Dict.empty, Dict.empty, Dict.empty, Dict.empty⟩

def cacheOf (s : Memory) : Average → SeriesCache
  | .sma => s.sma
  | .ema => s.ema

def average (s : Memory) (a : Average) (x : Listed) (period : ℕ) (i : Option ℤ) :
    Except String (Option ℚ) × Memory :=
  match a with
  | .sma => ((smaCached s.sma x period i).1, { s with sma := (smaCached s.sma x period i).2 })
  | .ema => ((emaCached s.ema x period i).1, { s with ema := (emaCached s.ema x period i).2 })

/-- `not math.isnan(ma) and htf[idx] > ma`. -/
def lastAbove (htf : List ℚ) (idx : ℕ) (ma : Except String (Option ℚ)) : Except String Bool := do
  match ← ma with
  | none => pure false
  | some v => do
    let c ← item htf idx
    pure (v < c)

/-- `htf_close_above_ma` -/
def above (s : Memory) (a : Average) (x : Listed) (barsPer period fresh : ℕ) (i : Option ℤ) :
    Except String Bool × Memory :=
  if period = 0 ∨ barsPer = 0 then (.ok false, s)
  else if completedAt x.closes barsPer i < period then (.ok false, s)
  else
    let r := htfClosesCached s.htf x barsPer fresh
    let s := { s with htf := r.2 }
    let htf := r.1.value
    let nComplete := min (completedAt x.closes barsPer i) htf.closes.length
    if nComplete < period then (.ok false, s)
    else
      let ma := s.average a htf period (some (nComplete - 1 : ℕ))
      (lastAbove htf.closes (nComplete - 1) ma.1, ma.2)

/-- `completed_htf_closes` -/
def buckets (s : Memory) (x : Listed) (barsPer fresh : ℕ) (i : Option ℤ) : List ℚ × Memory :=
  if completedAt x.closes barsPer i = 0 then ([], s)
  else
    let r := htfClosesCached s.htf x barsPer fresh
    (r.1.value.closes.take (completedAt x.closes barsPer i), { s with htf := r.2 })

end Memory

/-- What a program does with close lists: make one, drop one, evaluate at a bar,
empty a cache. A call that makes a list of bucket closes gives it `fresh`. -/
inductive Event where
  | create (list : ℕ) (closes : List ℚ)
  | release (list : ℕ)
  | average (a : Average) (list period : ℕ) (i : Option ℤ)
  | above (a : Average) (list barsPer period fresh : ℕ) (i : Option ℤ)
  | buckets (list barsPer fresh : ℕ) (i : Option ℤ)
  | clearSma
  | clearEma
  | clearHtf
deriving DecidableEq

inductive Answer where
  | average (value : Except String (Option ℚ))
  | above (value : Except String Bool)
  | buckets (closes : List ℚ)
deriving DecidableEq

namespace Memory

/-- A call on the list with this identity, if one is alive. -/
def onList (s : Memory) (list : ℕ) (call : Listed → Answer × Memory) : Option Answer × Memory :=
  match s.alive.get? list with
  | none => (none, s)
  | some closes => ((call ⟨list, closes⟩).1, (call ⟨list, closes⟩).2)

/-- What an event returns, and the memory after it. -/
def perform (s : Memory) : Event → Option Answer × Memory
  | .create list closes => (none, { s with alive := s.alive.set list closes })
  | .release list => (none, { s with alive := s.alive.erase list })
  | .average a list period i => s.onList list fun x =>
      (.average (s.average a x period i).1, (s.average a x period i).2)
  | .above a list barsPer period fresh i => s.onList list fun x =>
      (.above (s.above a x barsPer period fresh i).1, (s.above a x barsPer period fresh i).2)
  | .buckets list barsPer fresh i => s.onList list fun x =>
      (.buckets (s.buckets x barsPer fresh i).1, (s.buckets x barsPer fresh i).2)
  | .clearSma => (none, { s with sma := Dict.empty })
  | .clearEma => (none, { s with ema := Dict.empty })
  | .clearHtf => (none, { s with htf := Dict.empty })

def step (s : Memory) (e : Event) : Memory := (s.perform e).2

/-- What the call returns without a cache. -/
def uncached (s : Memory) : Event → Option Answer
  | .average a list period i =>
      (s.alive.get? list).map fun closes => .average (a.plain closes period i)
  | .above a list barsPer period _ i =>
      (s.alive.get? list).map fun closes => .above (plainAbove a closes barsPer period i)
  | .buckets list barsPer _ i =>
      (s.alive.get? list).map fun closes => .buckets (plainBuckets closes barsPer i)
  | _ => none

/-- The call returns what it does without a cache. -/
def Transparent (s : Memory) (e : Event) : Prop := (s.perform e).1 = s.uncached e

instance (s : Memory) (e : Event) : Decidable (s.Transparent e) :=
  inferInstanceAs (Decidable ((s.perform e).1 = s.uncached e))

/-- An identity that a list alive or a kept list of bucket closes has. -/
def Taken (s : Memory) (list : ℕ) : Prop :=
  list ∈ s.alive.keys ∨ list ∈ s.htf.entries.map fun e => e.2.value.list

instance (s : Memory) (list : ℕ) : Decidable (s.Taken list) :=
  inferInstanceAs (Decidable (_ ∨ _))

/-- What a program can do: a new list has an identity no list alive has, and only
a list that is alive is dropped or evaluated. -/
def Possible (s : Memory) : Event → Prop
  | .create list _ => ¬ s.Taken list
  | .release list => list ∈ s.alive.keys
  | .average _ list _ _ => list ∈ s.alive.keys
  | .above _ list _ _ fresh _ => list ∈ s.alive.keys ∧ ¬ s.Taken fresh
  | .buckets list _ fresh _ => list ∈ s.alive.keys ∧ ¬ s.Taken fresh
  | _ => True

instance (s : Memory) : (e : Event) → Decidable (s.Possible e)
  | .create list _ => inferInstanceAs (Decidable (¬ s.Taken list))
  | .release list => inferInstanceAs (Decidable (list ∈ s.alive.keys))
  | .average _ list _ _ => inferInstanceAs (Decidable (list ∈ s.alive.keys))
  | .above _ list _ _ fresh _ => inferInstanceAs (Decidable (list ∈ s.alive.keys ∧ ¬ s.Taken fresh))
  | .buckets list _ fresh _ => inferInstanceAs (Decidable (list ∈ s.alive.keys ∧ ¬ s.Taken fresh))
  | .clearSma | .clearEma | .clearHtf => inferInstanceAs (Decidable True)

end Memory

/-! ## Entries made from another list -/

/-- The closes the average reads for bar `i` of either list are the same. -/
def Average.readsAlike (a : Average) (period i : ℕ) (xs ys : List ℚ) : Prop :=
  match a with
  | .sma => lastWindow xs period i = lastWindow ys period i
  | .ema => xs.take (i + 1) = ys.take (i + 1)

instance (period i : ℕ) (xs ys : List ℚ) :
    (a : Average) → Decidable (a.readsAlike period i xs ys)
  | .sma => inferInstanceAs (Decidable (lastWindow xs period i = lastWindow ys period i))
  | .ema => inferInstanceAs (Decidable (xs.take (i + 1) = ys.take (i + 1)))

/-- If the call reads an entry, the entry was made from closes that agree with
those of the list as far as the call reads. -/
def AverageServed (a : Average) (m : SeriesCache) (x : Listed) (period : ℕ) (i : Option ℤ) : Prop :=
  tooEarly period (barOf x.closes i) = false → barOf x.closes i < x.closes.length →
    ∀ e ∈ m.get? (seriesCacheKey x.list x.closes period),
      a.readsAlike period (barOf x.closes i).toNat e.source x.closes

/-- The same for the bucket closes, of which the first `count` are read. -/
def BucketsServed (m : BucketCache) (x : Listed) (barsPer count : ℕ) : Prop :=
  ∀ e ∈ m.get? (bucketKey x.list x.closes barsPer),
    (htfClosesAll e.source barsPer).take count = (htfClosesAll x.closes barsPer).take count

instance (m : BucketCache) (x : Listed) (barsPer count : ℕ) :
    Decidable (BucketsServed m x barsPer count) :=
  inferInstanceAs (Decidable (∀ e ∈ m.get? _, _))

instance (a : Average) (m : SeriesCache) (x : Listed) (period : ℕ) (i : Option ℤ) :
    Decidable (AverageServed a m x period i) :=
  inferInstanceAs (Decidable (_ → _ → ∀ e ∈ m.get? _, _))

namespace Memory

/-- The average is asked of the list of bucket closes the call found or made. -/
def AboveServed (s : Memory) (a : Average) (x : Listed) (barsPer period fresh : ℕ)
    (i : Option ℤ) : Prop :=
  period ≠ 0 → barsPer ≠ 0 → period ≤ completedAt x.closes barsPer i →
    BucketsServed s.htf x barsPer (completedAt x.closes barsPer i) ∧
      AverageServed a (s.cacheOf a) (htfClosesCached s.htf x barsPer fresh).1.value period
        (some (min (completedAt x.closes barsPer i) (x.closes.length / barsPer) - 1 : ℕ))

instance (s : Memory) (a : Average) (x : Listed) (barsPer period fresh : ℕ) (i : Option ℤ) :
    Decidable (s.AboveServed a x barsPer period fresh i) :=
  inferInstanceAs (Decidable (_ → _ → _ → _ ∧ _))

/-- No entry the event reads was made from closes that differ, as far as it reads,
from those of the list it is about. -/
def Served (s : Memory) : Event → Prop
  | .average a list period i => ∀ closes ∈ s.alive.get? list,
      AverageServed a (s.cacheOf a) ⟨list, closes⟩ period i
  | .above a list barsPer period fresh i => ∀ closes ∈ s.alive.get? list,
      s.AboveServed a ⟨list, closes⟩ barsPer period fresh i
  | .buckets list barsPer _ i => ∀ closes ∈ s.alive.get? list,
      BucketsServed s.htf ⟨list, closes⟩ barsPer (completedAt closes barsPer i)
  | _ => True

instance (s : Memory) : (e : Event) → Decidable (s.Served e)
  | .average _ list _ _ | .above _ list _ _ _ _ | .buckets list _ _ _ =>
      inferInstanceAs (Decidable (∀ closes ∈ s.alive.get? list, _))
  | .create _ _ | .release _ | .clearSma | .clearEma | .clearHtf => inferInstanceAs (Decidable True)

end Memory

/-! ## What the entries are -/

/-- The entry is the series of its own closes, which are as many as the key says. -/
def SeriesMade (a : Average) (k : SeriesKey) (e : Kept (List ℚ) (List (Option ℚ))) : Prop :=
  e.value = a.series e.source k.period ∧ e.source.length = k.n

/-- The entry is the bucket closes of its own closes. -/
def BucketsMade (k : BucketKey) (e : Kept (List ℚ) Listed) : Prop :=
  e.value.closes = htfClosesAll e.source k.barsPer ∧ e.source.length = k.n

/-- The entries of the three caches are what they were made from. -/
structure Memory.Made (s : Memory) : Prop where
  sma : Memo.Keeps (SeriesMade .sma) s.sma
  ema : Memo.Keeps (SeriesMade .ema) s.ema
  htf : Memo.Keeps BucketsMade s.htf

theorem Memory.initial_made : initial.Made :=
  ⟨Memo.keeps_empty, Memo.keeps_empty, Memo.keeps_empty⟩

/-! ## The averages -/

theorem tooEarly_eq_false {period : ℕ} {i : ℤ} :
    tooEarly period i = false ↔ (period : ℤ) - 1 ≤ i ∧ period ≠ 0 := by
  unfold tooEarly
  rw [decide_eq_false_iff_not, not_or, not_lt]

theorem smaSeries_length (closes : List ℚ) (period : ℕ) :
    (smaSeries closes period).length = closes.length := by
  unfold smaSeries
  split
  next => exact List.length_replicate
  next => rw [List.length_map, List.length_range]

theorem Average.series_length (a : Average) (closes : List ℚ) (period : ℕ) :
    (a.series closes period).length = closes.length := by
  cases a with
  | sma => exact smaSeries_length closes period
  | ema => exact emaSeries_length closes period

/-- Where the series has a value it is the mean of the window. -/
theorem item_smaSeries {closes : List ℚ} {period i : ℕ} (hp : period ≠ 0) (hpi : period ≤ i + 1)
    (hi : i < closes.length) :
    item (smaSeries closes period) i = .ok (some ((lastWindow closes period i).sum / period)) := by
  have hlen : i < (smaSeries closes period).length := by
    rw [smaSeries_length]
    exact hi
  rw [item_of_lt hlen]
  unfold smaSeries
  have hfull : ¬ (period = 0 ∨ closes.length < period) := by omega
  simp only [hfull, if_false, List.getElem_map, List.getElem_range]
  rw [if_neg (by omega)]

theorem item_of_le {α : Type} {xs : List α} {k : ℕ} (h : xs.length ≤ k) :
    item xs k = .error "list index out of range" := by
  unfold item
  rw [List.getElem?_eq_none h]

namespace Average

/-- Series of lists that agree as far as bar `i` reads agree at bar `i`. -/
theorem item_series_alike (a : Average) {period i : ℕ} {xs ys : List ℚ} (hp : period ≠ 0)
    (hpi : period ≤ i + 1) (hlen : xs.length = ys.length)
    (h : i < ys.length → a.readsAlike period i xs ys) :
    item (a.series xs period) i = item (a.series ys period) i := by
  by_cases hi : i < ys.length
  · have h := h hi
    cases a with
    | sma =>
      have h : lastWindow xs period i = lastWindow ys period i := h
      show item (smaSeries xs period) i = item (smaSeries ys period) i
      rw [item_smaSeries hp hpi (hlen ▸ hi), item_smaSeries hp hpi hi, h]
    | ema =>
      have h : xs.take (i + 1) = ys.take (i + 1) := h
      show item (emaSeries xs period) i = item (emaSeries ys period) i
      rw [← item_causal (emaSeries_causal period) xs (Nat.lt_succ_self i),
        ← item_causal (emaSeries_causal period) ys (Nat.lt_succ_self i), Nat.succ_eq_add_one, h]
  · rw [item_of_le, item_of_le]
    · rw [series_length]
      omega
    · rw [series_length]
      omega

theorem readsAlike_of_take (a : Average) (period : ℕ) {i : ℕ} {xs ys : List ℚ}
    (h : xs.take (i + 1) = ys.take (i + 1)) : a.readsAlike period i xs ys := by
  cases a with
  | sma =>
    show lastWindow xs period i = lastWindow ys period i
    unfold lastWindow
    rw [h]
  | ema => exact h

/-- The average at a bar depends on the closes up to the bar. -/
theorem plain_take (a : Average) (period : ℕ) {idx : ℕ} {xs ys : List ℚ}
    (hlen : xs.length = ys.length) (h : xs.take (idx + 1) = ys.take (idx + 1)) :
    a.plain xs period (some idx) = a.plain ys period (some idx) := by
  have hbar : ∀ closes : List ℚ, barOf closes (some idx) = idx := fun closes => rfl
  unfold plain
  rw [hbar, hbar]
  cases he : tooEarly period idx with
  | true => rfl
  | false =>
    obtain ⟨hle, hp⟩ := tooEarly_eq_false.mp he
    rw [Int.toNat_natCast]
    exact a.item_series_alike hp (by omega) hlen fun _ => a.readsAlike_of_take period h

/-- An entry serves the list at the bar when it was made from closes that agree
with the list's. -/
theorem item_served {a : Average} {m : SeriesCache} {x : Listed} {period : ℕ} {i : Option ℤ}
    (he : tooEarly period (barOf x.closes i) = false) (hs : AverageServed a m x period i)
    {e : Kept (List ℚ) (List (Option ℚ))}
    (hmade : SeriesMade a (seriesCacheKey x.list x.closes period) e)
    (hfrom : e.source = x.closes ∨ m.get? (seriesCacheKey x.list x.closes period) = some e) :
    item e.value (barOf x.closes i).toNat = a.plain x.closes period i := by
  obtain ⟨hle, hp⟩ := tooEarly_eq_false.mp he
  obtain ⟨hvalue, hlen⟩ := hmade
  have hpi : period ≤ (barOf x.closes i).toNat + 1 := by omega
  unfold plain
  rw [he, hvalue]
  refine a.item_series_alike hp hpi hlen fun hi => ?_
  rcases hfrom with hfrom | hfrom
  · rw [hfrom]
    exact a.readsAlike_of_take period rfl
  · exact hs he (by omega) e hfrom

theorem made_new (a : Average) (x : Listed) (period : ℕ) :
    SeriesMade a (seriesCacheKey x.list x.closes period) ⟨x.closes, a.series x.closes period⟩ :=
  ⟨rfl, rfl⟩

end Average

section Calls

variable {m : SeriesCache} {x : Listed} {period : ℕ} {i : Option ℤ}

/-- The window of the last bar is the entry the series would have there. -/
theorem smaMissed_spec (hm : Memo.Keeps (SeriesMade .sma) m)
    (he : tooEarly period (barOf x.closes i) = false) :
    (smaMissed m x period (barOf x.closes i).toNat).1 = Average.sma.plain x.closes period i ∧
      Memo.Keeps (SeriesMade .sma) (smaMissed m x period (barOf x.closes i).toNat).2 := by
  obtain ⟨hle, hp⟩ := tooEarly_eq_false.mp he
  have hplain : Average.sma.plain x.closes period i =
      item (smaSeries x.closes period) (barOf x.closes i).toNat := by
    unfold Average.plain
    rw [he]
    rfl
  rw [hplain]
  unfold smaMissed
  split
  next hlast => exact ⟨(item_smaSeries hp (by omega) (by omega)).symm, hm⟩
  next => exact ⟨rfl, hm.keep SERIES_CACHE_MAX (Average.made_new .sma x period)⟩

theorem smaCached_spec (hm : Memo.Keeps (SeriesMade .sma) m)
    (hs : AverageServed .sma m x period i) :
    (smaCached m x period i).1 = Average.sma.plain x.closes period i ∧
      Memo.Keeps (SeriesMade .sma) (smaCached m x period i).2 := by
  unfold smaCached
  dsimp only
  split
  next he =>
    unfold Average.plain
    rw [he]
    exact ⟨rfl, hm⟩
  next he =>
    have he := Bool.eq_false_iff.mpr he
    cases hk : m.get? (seriesCacheKey x.list x.closes period) with
    | none => exact smaMissed_spec hm he
    | some e =>
      dsimp only
      split
      next => exact ⟨Average.item_served he hs (hm _ e hk) (Or.inr hk), hm⟩
      next => exact smaMissed_spec hm he

theorem emaCached_spec (hm : Memo.Keeps (SeriesMade .ema) m)
    (hs : AverageServed .ema m x period i) :
    (emaCached m x period i).1 = Average.ema.plain x.closes period i ∧
      Memo.Keeps (SeriesMade .ema) (emaCached m x period i).2 := by
  unfold emaCached
  dsimp only
  split
  next he =>
    unfold Average.plain
    rw [he]
    exact ⟨rfl, hm⟩
  next he =>
    have he := Bool.eq_false_iff.mpr he
    obtain ⟨hmade, hkeeps, hfrom⟩ := Memo.through_kept hm SERIES_CACHE_MAX
      (fun series => series.length = x.closes.length) (Average.made_new .ema x period)
    exact ⟨Average.item_served he hs hmade (hfrom.imp_left (congrArg Kept.source)), hkeeps⟩

end Calls

/-! ## The calls on the whole memory -/

namespace Memory

variable {s : Memory} {a : Average} {x : Listed} {barsPer period fresh : ℕ} {i : Option ℤ}

theorem average_spec (h : s.Made) (hs : AverageServed a (s.cacheOf a) x period i) :
    (s.average a x period i).1 = a.plain x.closes period i ∧ (s.average a x period i).2.Made := by
  cases a with
  | sma =>
    obtain ⟨hval, hkeeps⟩ := smaCached_spec h.sma hs
    exact ⟨hval, hkeeps, h.ema, h.htf⟩
  | ema =>
    obtain ⟨hval, hkeeps⟩ := emaCached_spec h.ema hs
    exact ⟨hval, h.sma, hkeeps, h.htf⟩

theorem htfClosesCached_made (h : s.Made) (x : Listed) (barsPer fresh : ℕ) :
    BucketsMade (bucketKey x.list x.closes barsPer) (htfClosesCached s.htf x barsPer fresh).1 ∧
      Memo.Keeps BucketsMade (htfClosesCached s.htf x barsPer fresh).2 ∧
      ((htfClosesCached s.htf x barsPer fresh).1 =
          ⟨x.closes, ⟨fresh, htfClosesAll x.closes barsPer⟩⟩ ∨
        s.htf.get? (bucketKey x.list x.closes barsPer) =
          some (htfClosesCached s.htf x barsPer fresh).1) :=
  Memo.through_kept h.htf HTF_CACHE_MAX _ ⟨rfl, rfl⟩

/-- The bucket closes a call finds or makes: as many as its own list has, and the
same as far as it reads. -/
theorem htfClosesCached_spec (h : s.Made) (x : Listed) (barsPer fresh : ℕ) :
    (htfClosesCached s.htf x barsPer fresh).1.value.closes.length = x.closes.length / barsPer ∧
      Memory.Made { s with htf := (htfClosesCached s.htf x barsPer fresh).2 } ∧
      ∀ count, BucketsServed s.htf x barsPer count →
        (htfClosesCached s.htf x barsPer fresh).1.value.closes.take count =
          (htfClosesAll x.closes barsPer).take count := by
  obtain ⟨⟨hvalue, hlen⟩, hkeeps, hfrom⟩ := htfClosesCached_made h x barsPer fresh
  refine ⟨?_, ⟨h.sma, h.ema, hkeeps⟩, ?_⟩
  · rw [hvalue, htfClosesAll_length, hlen]
    rfl
  · intro count hserved
    rcases hfrom with hfrom | hfrom
    · rw [hfrom]
    · rw [hvalue]
      exact hserved _ hfrom

theorem buckets_spec (h : s.Made)
    (hs : BucketsServed s.htf x barsPer (completedAt x.closes barsPer i)) :
    (s.buckets x barsPer fresh i).1 = plainBuckets x.closes barsPer i ∧
      (s.buckets x barsPer fresh i).2.Made := by
  obtain ⟨_, hmade, htake⟩ := htfClosesCached_spec h x barsPer fresh
  have htake := htake _ hs
  have hplain : plainBuckets x.closes barsPer i =
      (htfClosesAll x.closes barsPer).take (completedAt x.closes barsPer i) := by
    unfold plainBuckets completedAt
    split
    next => exact List.take_zero.symm
    next => rfl
  rw [hplain]
  unfold buckets
  split
  next hz =>
    rw [hz]
    exact ⟨List.take_zero.symm, h⟩
  next => exact ⟨htake, hmade⟩

/-- The condition without caches, in the steps of the call. -/
theorem plainAbove_eq (a : Average) (closes : List ℚ) (barsPer period : ℕ) (i : Option ℤ) :
    plainAbove a closes barsPer period i =
      if period = 0 ∨ barsPer = 0 then .ok false
      else if completedAt closes barsPer i < period then .ok false
      else if min (completedAt closes barsPer i) (closes.length / barsPer) < period then .ok false
      else
        lastAbove (htfClosesAll closes barsPer)
          (min (completedAt closes barsPer i) (closes.length / barsPer) - 1)
          (a.plain (htfClosesAll closes barsPer) period
            (some (min (completedAt closes barsPer i) (closes.length / barsPer) - 1 : ℕ))) := by
  unfold plainAbove completedAt
  by_cases hneg : barOf closes i < 0
  · rw [if_pos hneg, if_pos hneg]
    by_cases hz : period = 0 ∨ barsPer = 0
    · rw [if_pos hz]
    · rw [if_neg hz, if_pos (by omega)]
  · rw [if_neg hneg, if_neg hneg]
    unfold htfCloseAbove
    simp only [htfClosesAll_length]
    rfl

theorem above_spec (h : s.Made) (hs : s.AboveServed a x barsPer period fresh i) :
    (s.above a x barsPer period fresh i).1 = plainAbove a x.closes barsPer period i ∧
      (s.above a x barsPer period fresh i).2.Made := by
  rw [plainAbove_eq]
  unfold above
  by_cases hz : period = 0 ∨ barsPer = 0
  · rw [if_pos hz, if_pos hz]
    exact ⟨rfl, h⟩
  by_cases hearly : completedAt x.closes barsPer i < period
  · rw [if_neg hz, if_neg hz, if_pos hearly, if_pos hearly]
    exact ⟨rfl, h⟩
  rw [not_or] at hz
  obtain ⟨hbuckets, haverage⟩ := hs hz.1 hz.2 (not_lt.mp hearly)
  obtain ⟨hlen, hmade, htake⟩ := htfClosesCached_spec h x barsPer fresh
  have htake := htake _ hbuckets
  have hz := not_or.mpr hz
  dsimp only
  rw [if_neg hz, if_neg hz, if_neg hearly, if_neg hearly, hlen]
  by_cases hshort : min (completedAt x.closes barsPer i) (x.closes.length / barsPer) < period
  · rw [if_pos hshort, if_pos hshort]
    exact ⟨rfl, hmade⟩
  rw [if_neg hshort, if_neg hshort]
  generalize hidx : min (completedAt x.closes barsPer i) (x.closes.length / barsPer) - 1 = idx
  have hidx' : idx + 1 ≤ completedAt x.closes barsPer i := by omega
  -- the entry agrees with the list's own bucket closes up to the last completed one
  have hprefix : (htfClosesCached s.htf x barsPer fresh).1.value.closes.take (idx + 1) =
      (htfClosesAll x.closes barsPer).take (idx + 1) := by
    have h := congrArg (List.take (idx + 1)) htake
    rwa [List.take_take, List.take_take, Nat.min_eq_left hidx'] at h
  have hcache : Memory.cacheOf { s with htf := (htfClosesCached s.htf x barsPer fresh).2 } a =
      s.cacheOf a := by cases a <;> rfl
  rw [hidx, ← hcache] at haverage
  obtain ⟨hvalue, hmade'⟩ := average_spec hmade haverage
  have hitem := congrArg (item · idx) hprefix
  rw [item_take _ (Nat.lt_succ_self idx), item_take _ (Nat.lt_succ_self idx)] at hitem
  have hsame := hlen.trans (htfClosesAll_length x.closes barsPer).symm
  refine ⟨?_, hmade'⟩
  rw [hvalue, a.plain_take period hsame hprefix]
  unfold lastAbove
  rw [hitem]

/-- A call on a list alive is right when it is right on the list's closes. -/
theorem onList_spec {list : ℕ} {call : Listed → Answer × Memory} {plain : List ℚ → Answer}
    (h : s.Made) (hcall : ∀ closes ∈ s.alive.get? list,
      (call ⟨list, closes⟩).1 = plain closes ∧ (call ⟨list, closes⟩).2.Made) :
    (s.onList list call).1 = (s.alive.get? list).map plain ∧ (s.onList list call).2.Made := by
  unfold onList
  cases hl : s.alive.get? list with
  | none => exact ⟨rfl, h⟩
  | some closes =>
    obtain ⟨hvalue, hmade⟩ := hcall closes hl
    exact ⟨congrArg some hvalue, hmade⟩

/-- One event: what a call returns, and the entries it leaves. -/
theorem perform_spec (h : s.Made) {e : Event} (hs : s.Served e) :
    s.Transparent e ∧ (s.step e).Made := by
  cases e with
  | create list closes => exact ⟨rfl, h.sma, h.ema, h.htf⟩
  | release list => exact ⟨rfl, h.sma, h.ema, h.htf⟩
  | average a list period i =>
    refine onList_spec h fun closes hl => ?_
    obtain ⟨hvalue, hmade⟩ := average_spec h (hs closes hl)
    exact ⟨congrArg Answer.average hvalue, hmade⟩
  | above a list barsPer period fresh i =>
    refine onList_spec h fun closes hl => ?_
    obtain ⟨hvalue, hmade⟩ := above_spec h (hs closes hl)
    exact ⟨congrArg Answer.above hvalue, hmade⟩
  | buckets list barsPer fresh i =>
    refine onList_spec h fun closes hl => ?_
    obtain ⟨hvalue, hmade⟩ := buckets_spec h (hs closes hl)
    exact ⟨congrArg Answer.buckets hvalue, hmade⟩
  | clearSma => exact ⟨rfl, Memo.keeps_empty, h.ema, h.htf⟩
  | clearEma => exact ⟨rfl, h.sma, Memo.keeps_empty, h.htf⟩
  | clearHtf => exact ⟨rfl, h.sma, h.ema, Memo.keeps_empty⟩

end Memory

/-! ## Every run -/

/-- In a run where no call reads an entry made from other closes than its list's,
every call returns what the recurrence gives on its list. -/
theorem caches_transparent (es : List Event)
    (h : Along Memory.step Memory.Served Memory.initial es) :
    Along Memory.step Memory.Transparent Memory.initial es :=
  along_of_inv (P := Memory.Transparent) (C := Memory.Served) (I := Memory.Made)
    (fun _ _ hmade hserved => Memory.perform_spec hmade hserved) es Memory.initial_made h

/-- Lists of bucket closes and averages of them, a list released and its identity
given to a list with other sampled values: every call is right. -/
theorem caches_transparent_recycled :
    Along Memory.step Memory.Transparent Memory.initial
      [.create 1 [1, 2, 3, 4, 5], .average .sma 1 2 (some 1), .average .ema 1 2 none,
        .above .ema 1 2 2 2 (some 3), .release 1, .create 1 [1, 9, 4, 4, 6],
        .average .sma 1 2 (some 1), .above .sma 1 2 1 3 none, .buckets 1 2 4 (some 3)] :=
  caches_transparent _ (by decide +kernel)

/-- The second list has the identity, the length and the three sampled closes of
the first, and is served the first one's average, 3/2 where its own is 5. -/
theorem recycled_list_stale :
    Along Memory.step Memory.Possible Memory.initial
        [.create 1 [1, 2, 3, 4, 5], .average .sma 1 2 (some 1), .release 1,
          .create 1 [1, 9, 3, 4, 5], .average .sma 1 2 (some 1)] ∧
      ¬ Along Memory.step Memory.Transparent Memory.initial
        [.create 1 [1, 2, 3, 4, 5], .average .sma 1 2 (some 1), .release 1,
          .create 1 [1, 9, 3, 4, 5], .average .sma 1 2 (some 1)] := by
  decide +kernel

end PaperTrading.Signals
