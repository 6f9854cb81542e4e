import PaperTrading.Lib.LastByKey
import PaperTrading.Lib.Runs
import Mathlib.Data.Option.Basic

/-!
# The pinned tape

`price_history.py` cuts every symbol's tape at a pin, 00:00 UTC of the newest
day all symbols reach, and hashes the cuts into a manifest that workers verify.
`live_tape.py` grows a tape by merging fetched pages: later bars are appended,
a bar of a stored timestamp replaces the stored one.

A `StoredTape` carries that its timestamps increase, which every writer keeps
(`mergeArrays`). `cut_merge_iff` says when a page leaves a cut as it is, and
`pinned_manifest_stable_iff` follows this through any growth: the manifest of a
pin is stable exactly when no page brings another bar for a timestamp inside the
pinned window. A tape whose newest bar is after the pin is safe from pages that
start at it (`keepsPinned_of_later`). A tape whose newest bar lies at the pin is
not: that bar is still forming, and it is inside the window.
-/

namespace PaperTrading.Tape

open PaperTrading.Lib

/-- `QUAL_SYMBOLS` -/
inductive Symbol where
  | btc
  | eth
deriving DecidableEq, Repr

def Symbol.name : Symbol → String
  | .btc => "BTC/USDT"
  | .eth => "ETH/USDT"

def QUAL_SYMBOLS : List Symbol := [.btc, .eth]

/-- `DAY_MS` -/
def DAY_MS : ℤ := 86400000

/-- `QUAL_CANONICAL_START_MS` -/
def QUAL_CANONICAL_START_MS : ℤ := 1612224000000 - 7 * 24 * 12 * 300000

/-- A row of `TAPE_DTYPE`: a timestamp and the bits of five floats. -/
structure Bar where
  ts : ℤ
  openBits : BitVec 64
  highBits : BitVec 64
  lowBits : BitVec 64
  closeBits : BitVec 64
  volumeBits : BitVec 64
deriving DecidableEq, Repr

/-- A stored tape: timestamps increase. -/
structure StoredTape where
  bars : List Bar
  sorted : StrictlySorted Bar.ts bars

@[ext] theorem StoredTape.ext {t u : StoredTape} (h : t.bars = u.bars) : t = u := by
  cases t
  cases u
  congr

/-- `_dedup_last` -/
def dedupLast (rows : List Bar) : StoredTape where
  bars := PaperTrading.Lib.dedupLast Bar.ts rows
  sorted := dedupLast_sorted rows

/-- `merge_arrays` -/
def mergeArrays (old : StoredTape) (new : List Bar) : StoredTape :=
  if old.bars = [] then dedupLast new
  else if new = [] then old
  else dedupLast (old.bars ++ new)

/-! ## The cut, the hash and the pin -/

/-- `np.searchsorted(ts, v, side="right")` -/
def searchsortedRight (bars : List Bar) (v : ℤ) : ℕ := bars.countP fun b => b.ts ≤ v

/-- `np.searchsorted(ts, v, side="left")` -/
def searchsortedLeft (bars : List Bar) (v : ℤ) : ℕ := bars.countP fun b => b.ts < v

/-- `_cut_to_pin` with no cap on the count. -/
def cutToPin (t : StoredTape) (pin : Option ℤ) : List Bar :=
  let upto := match pin with
    | some p => t.bars.take (searchsortedRight t.bars p)
    | none => t.bars
  upto.drop (searchsortedLeft upto QUAL_CANONICAL_START_MS)

/-- The tapes of all symbols. -/
abbrev Tapes := Symbol → StoredTape

/-- `floor_utc_day` -/
def floorUtcDay (ts : ℤ) : ℤ := ts - ts % DAY_MS

/-- `_raw_end`: the newest bar the symbols share. -/
def rawEnd (tapes : Tapes) : Option ℤ := do
  let btc ← (tapes .btc).bars.getLast?
  let eth ← (tapes .eth).bars.getLast?
  return min btc.ts eth.ts

/-- `_active_pin`: a pin kept on the side, or the day of the newest bar. -/
def activePin (side : Option ℤ) (tapes : Tapes) : Option ℤ :=
  match side with
  | some pin => some pin
  | none => (rawEnd tapes).map floorUtcDay

/-- A little-endian 64-bit word. -/
def le64 (w : BitVec 64) : List (BitVec 8) :=
  (List.range 8).map fun k => w.extractLsb' (8 * k) 8

def int64 (n : ℤ) : List (BitVec 8) := le64 (BitVec.ofInt 64 n)

def utf8 (s : String) : List (BitVec 8) := s.toUTF8.data.toList.map UInt8.toBitVec

/-- `arr.tobytes()`, one row. -/
def Bar.bytes (b : Bar) : List (BitVec 8) :=
  int64 b.ts ++ le64 b.openBits ++ le64 b.highBits ++ le64 b.lowBits ++ le64 b.closeBits ++
    le64 b.volumeBits

/-- The manifest of a pin. -/
structure Manifest where
  sha256 : String
  dataEnd : Option ℤ
  symbols : List (String × ℕ × Option ℤ)
  source : String
  keepBars : ℕ
  canonicalStart : ℤ
deriving DecidableEq, Repr

/-- The bytes `_hash_manifest` digests. -/
def digested (cuts : Symbol → List Bar) (pin : Option ℤ) : List (BitVec 8) :=
  utf8 "paper-discovery-tape-v1\n" ++ int64 (pin.getD (-1)) ++
    QUAL_SYMBOLS.flatMap fun s =>
      utf8 s.name ++ [0] ++ int64 (cuts s).length ++ (cuts s).flatMap Bar.bytes

/-- `_hash_manifest`, for a digest function. -/
def hashManifest (sha256 : List (BitVec 8) → String) (cuts : Symbol → List Bar) (source : String)
    (pin : Option ℤ) : Manifest where
  sha256 := sha256 (digested cuts pin)
  dataEnd := pin
  symbols := QUAL_SYMBOLS.map fun s =>
    (s.name, (cuts s).length, (cuts s).getLast?.map Bar.ts)
  source := if source = "" then "missing" else source
  keepBars := (cuts .btc).length
  canonicalStart := QUAL_CANONICAL_START_MS

/-- The tapes after a page of one symbol was merged. -/
def grow (tapes : Tapes) (page : Symbol × List Bar) : Tapes :=
  fun s => if s = page.1 then mergeArrays (tapes s) page.2 else tapes s

/-! ## What the cut keeps -/

/-- The timestamp is inside the window pinned at `pin`. -/
def InWindow (pin : Option ℤ) (ts : ℤ) : Prop :=
  QUAL_CANONICAL_START_MS ≤ ts ∧ ∀ p ∈ pin, ts ≤ p

instance (pin : Option ℤ) (ts : ℤ) : Decidable (InWindow pin ts) :=
  inferInstanceAs (Decidable (_ ∧ _))

/-- Cutting a sorted list after the rows below a bound is filtering. -/
theorem take_countP {p : Bar → Bool} {bars : List Bar} (h : bars.Pairwise fun a b => p b → p a) :
    bars.take (bars.countP p) = bars.filter p := by
  induction bars with
  | nil => rfl
  | cons b bars ih =>
    cases hb : p b with
    | true =>
      rw [List.countP_cons_of_pos hb, List.take_succ_cons, List.filter_cons_of_pos hb, ih h.of_cons]
    | false =>
      have hnone : bars.filter p = [] := by
        rw [List.filter_eq_nil_iff]
        intro a ha hpa
        rw [List.rel_of_pairwise_cons h ha hpa] at hb
        cases hb
      rw [List.filter_cons_of_neg (by simp [hb]), hnone, List.countP_eq_length_filter,
        List.filter_cons_of_neg (by simp [hb]), hnone]
      rfl

theorem drop_countP {p : Bar → Bool} {bars : List Bar} (h : bars.Pairwise fun a b => p b → p a) :
    bars.drop (bars.countP p) = bars.filter fun b => !p b := by
  induction bars with
  | nil => rfl
  | cons b bars ih =>
    cases hb : p b with
    | true =>
      rw [List.countP_cons_of_pos hb, List.drop_succ_cons, ih h.of_cons,
        List.filter_cons_of_neg (by simp [hb])]
    | false =>
      have hall : ∀ a ∈ bars, p a = false := by
        intro a ha
        cases hpa : p a with
        | false => rfl
        | true => rw [← hb, List.rel_of_pairwise_cons h ha hpa]
      have hzero : (b :: bars).countP p = 0 := by
        rw [List.countP_eq_zero]
        intro a ha
        rcases List.mem_cons.mp ha with rfl | ha
        · simp [hb]
        · simp [hall a ha]
      rw [hzero, List.drop_zero, eq_comm, List.filter_eq_self]
      intro a ha
      rcases List.mem_cons.mp ha with rfl | ha
      · simp [hb]
      · simp [hall a ha]

/-- The cut is the part of the tape inside the window. -/
theorem cutToPin_eq (t : StoredTape) (pin : Option ℤ) :
    cutToPin t pin = t.bars.filter fun b => InWindow pin b.ts := by
  -- a bound on the timestamp cuts a sorted tape in two
  have hdown : ∀ {bars : List Bar} (v : ℤ), StrictlySorted Bar.ts bars →
      bars.Pairwise fun a b => decide (b.ts < v) → decide (a.ts < v) := by
    intro bars v hs
    refine hs.imp ?_
    intro a b hab hb
    have hbv : b.ts < v := by simpa using hb
    simpa using hab.trans hbv
  have hdrop : ∀ bars : List Bar, StrictlySorted Bar.ts bars →
      bars.drop (searchsortedLeft bars QUAL_CANONICAL_START_MS) =
        bars.filter fun b => QUAL_CANONICAL_START_MS ≤ b.ts := by
    intro bars hs
    unfold searchsortedLeft
    rw [drop_countP (hdown _ hs)]
    congr 1
    funext b
    rw [← decide_not, decide_eq_decide, not_lt]
  unfold cutToPin
  cases pin with
  | none =>
    simp only
    rw [hdrop _ t.sorted]
    congr 1
    funext b
    simp [InWindow]
  | some p =>
    have htake : t.bars.take (searchsortedRight t.bars p) = t.bars.filter fun b => b.ts ≤ p := by
      unfold searchsortedRight
      apply take_countP
      refine t.sorted.imp ?_
      intro a b hab hb
      have hbp : b.ts ≤ p := by simpa using hb
      simpa using (hab.trans_le hbp).le
    simp only
    rw [htake, hdrop _ (t.sorted.filter _), List.filter_filter]
    congr 1
    funext b
    simp [InWindow]

/-- A bar of the merged tape is the last of its timestamp in the old tape
followed by the page. -/
theorem mem_mergeArrays {old : StoredTape} {new : List Bar} {b : Bar} :
    b ∈ (mergeArrays old new).bars ↔ lastWith Bar.ts b.ts (old.bars ++ new) = some b := by
  unfold mergeArrays
  split
  next hold =>
    rw [hold, List.nil_append]
    exact mem_dedupLast
  next =>
    split
    next hnew => rw [hnew, List.append_nil, old.sorted.lastWith]
    next => exact mem_dedupLast

/-- The page brings no other bar for a timestamp inside the window. Of several
bars of one timestamp the page's last counts. -/
def KeepsPinned (pin : Option ℤ) (tape : StoredTape) (page : List Bar) : Prop :=
  ∀ b ∈ page, lastWith Bar.ts b.ts page = some b → InWindow pin b.ts → b ∈ tape.bars

instance (pin : Option ℤ) (tape : StoredTape) (page : List Bar) : Decidable (KeepsPinned pin tape page) :=
  inferInstanceAs (Decidable (∀ b ∈ page, _ → _ → _))

/-- A merge leaves the cut as it is exactly when the page brings no other bar
for a timestamp inside the window. -/
theorem cut_merge_iff {pin : Option ℤ} {tape : StoredTape} {page : List Bar} :
    cutToPin (mergeArrays tape page) pin = cutToPin tape pin ↔ KeepsPinned pin tape page := by
  rw [cutToPin_eq, cutToPin_eq]
  constructor
  · intro heq b _ hlast hwin
    have hmem : b ∈ (mergeArrays tape page).bars.filter fun b => InWindow pin b.ts := by
      rw [List.mem_filter, mem_mergeArrays, lastWith_append, hlast]
      exact ⟨rfl, by simpa using hwin⟩
    rw [heq] at hmem
    exact (List.mem_filter.mp hmem).1
  · intro hkeep
    apply StrictlySorted.eq_of_mem_iff ((mergeArrays tape page).sorted.filter _)
      (tape.sorted.filter _)
    intro b
    rw [List.mem_filter, List.mem_filter]
    refine and_congr_left fun hwin => ?_
    have hwin : InWindow pin b.ts := by simpa using hwin
    rw [mem_mergeArrays, lastWith_append]
    -- either the page is silent about this timestamp or it repeats the stored bar
    cases hnew : lastWith Bar.ts b.ts page with
    | none => rw [Option.none_or, tape.sorted.lastWith]
    | some c =>
      have hts : c.ts = b.ts := lastWith_key hnew
      have hc : c ∈ tape.bars :=
        hkeep c (mem_of_lastWith hnew) (by rw [hts]; exact hnew) (by rw [hts]; exact hwin)
      rw [Option.some_or, Option.some.injEq]
      constructor
      · intro h
        exact h ▸ hc
      · intro hb
        exact tape.sorted.eq_of_key hc hb hts

/-! ## The manifest of a pin under growth -/

/-- The grown tapes have the cuts, and so the hash and the manifest, that the
tapes had at the pin. -/
structure SamePinned (sha256 : List (BitVec 8) → String) (source : String) (pin : Option ℤ)
    (tapes grown : Tapes) : Prop where
  cuts : ∀ s, cutToPin (grown s) pin = cutToPin (tapes s) pin
  manifest : hashManifest sha256 (fun s => cutToPin (grown s) pin) source pin =
    hashManifest sha256 (fun s => cutToPin (tapes s) pin) source pin

theorem samePinned_iff {sha256 : List (BitVec 8) → String} {source : String} {pin : Option ℤ}
    {tapes grown : Tapes} :
    SamePinned sha256 source pin tapes grown ↔
      ∀ s, cutToPin (grown s) pin = cutToPin (tapes s) pin := by
  constructor
  · exact SamePinned.cuts
  · intro h
    exact ⟨h, congrArg (hashManifest sha256 · source pin) (funext h)⟩

theorem samePinned_grow_iff {sha256 : List (BitVec 8) → String} {source : String}
    {pin : Option ℤ} {tapes grown : Tapes} {page : Symbol × List Bar}
    (h : SamePinned sha256 source pin tapes grown) :
    SamePinned sha256 source pin tapes (grow grown page) ↔
      KeepsPinned pin (grown page.1) page.2 := by
  rw [samePinned_iff, ← cut_merge_iff]
  constructor
  · intro hs
    have := hs page.1
    rw [grow, if_pos rfl] at this
    rw [this, h.cuts]
  · intro hcut s
    unfold grow
    split
    next heq => rw [heq, hcut, h.cuts]
    next => exact h.cuts s

/-- **Pinned tape stability.** Through any growth the cuts, the hash and the
manifest of a pin stay what they were, exactly when every page merged on the way
brings no other bar for a timestamp inside the pinned window. -/
theorem pinned_manifest_stable_iff (sha256 : List (BitVec 8) → String) (source : String)
    (pin : Option ℤ) (tapes : Tapes) (pages : List (Symbol × List Bar)) :
    Along grow (fun grown page => SamePinned sha256 source pin tapes (grow grown page)) tapes pages ↔
      Along grow (fun grown page => KeepsPinned pin (grown page.1) page.2) tapes pages := by
  apply along_congr_inv (I := SamePinned sha256 source pin tapes)
  · intro grown page h
    exact samePinned_grow_iff h
  · intro grown page h hkeep
    exact (samePinned_grow_iff h).mpr hkeep
  · exact ⟨fun _ => rfl, rfl⟩

/-- The page starts at the newest stored bar. -/
def Later (tape : StoredTape) (page : List Bar) : Prop :=
  ∀ newest ∈ tape.bars.getLast?, ∀ b ∈ page, newest.ts ≤ b.ts

/-- A page that starts at the newest stored bar keeps every window that ends
before that bar. -/
theorem keepsPinned_of_later {pin : ℤ} {tape : StoredTape} {page : List Bar} {newest : Bar}
    (hlast : tape.bars.getLast? = some newest) (hpin : pin < newest.ts) (hpage : Later tape page) :
    KeepsPinned (some pin) tape page := by
  intro b hb _ hwin
  have hle := hwin.2 pin rfl
  have hge := hpage newest hlast b hb
  omega

/-! ## The active pin under growth -/

theorem getLast?_le {bars : List Bar} (h : StrictlySorted Bar.ts bars) {b last : Bar}
    (hb : b ∈ bars) (hlast : bars.getLast? = some last) : b.ts ≤ last.ts := by
  obtain ⟨front, rfl⟩ := List.getLast?_eq_some_iff.mp hlast
  rcases List.mem_append.mp hb with hb | hb
  · exact (List.pairwise_append.mp h |>.2.2 b hb last (List.mem_singleton_self last)).le
  · rw [List.mem_singleton.mp hb]

/-- The newest bar of a tape does not get older as the tape grows. -/
theorem getLast?_mergeArrays {old : StoredTape} {last : Bar} (new : List Bar)
    (h : old.bars.getLast? = some last) :
    ∃ last', (mergeArrays old new).bars.getLast? = some last' ∧ last.ts ≤ last'.ts := by
  have hmem : last ∈ old.bars := List.mem_of_getLast? h
  obtain ⟨b, hb⟩ : ∃ b, lastWith Bar.ts last.ts (old.bars ++ new) = some b := by
    unfold lastWith
    rw [List.filter_append]
    have hne : old.bars.filter (fun a => a.ts = last.ts) ++ new.filter (fun a => a.ts = last.ts) ≠
        [] := by
      intro hnil
      have hin : last ∈ old.bars.filter fun a => a.ts = last.ts :=
        List.mem_filter.mpr ⟨hmem, by simp⟩
      rw [(List.append_eq_nil_iff.mp hnil).1] at hin
      cases hin
    exact ⟨_, List.getLast?_eq_some_getLast hne⟩
  have hbts : b.ts = last.ts := lastWith_key hb
  have hin : b ∈ (mergeArrays old new).bars := by
    rw [mem_mergeArrays, hbts]
    exact hb
  cases hlast' : (mergeArrays old new).bars.getLast? with
  | none =>
    rw [List.getLast?_eq_none_iff] at hlast'
    rw [hlast'] at hin
    cases hin
  | some last' =>
    refine ⟨last', rfl, ?_⟩
    rw [← hbts]
    exact getLast?_le (mergeArrays old new).sorted hin hlast'

theorem getLast?_grow {tapes : Tapes} {s : Symbol} {last : Bar} (page : Symbol × List Bar)
    (h : (tapes s).bars.getLast? = some last) :
    ∃ last', (grow tapes page s).bars.getLast? = some last' ∧ last.ts ≤ last'.ts := by
  unfold grow
  split
  · exact getLast?_mergeArrays page.2 h
  · exact ⟨last, h, le_refl _⟩

theorem floorUtcDay_mono {a b : ℤ} (h : a ≤ b) : floorUtcDay a ≤ floorUtcDay b := by
  unfold floorUtcDay DAY_MS
  omega

/-- The active pin never moves backwards. -/
theorem active_grow {tapes : Tapes} {active : ℤ} (page : Symbol × List Bar)
    (h : activePin none tapes = some active) :
    ∃ active', activePin none (grow tapes page) = some active' ∧ active ≤ active' := by
  unfold activePin rawEnd at h ⊢
  cases hbtc : (tapes .btc).bars.getLast? with
  | none =>
    rw [hbtc] at h
    cases h
  | some btc =>
    cases heth : (tapes .eth).bars.getLast? with
    | none =>
      rw [hbtc, heth] at h
      cases h
    | some eth =>
      obtain ⟨btc', hbtc', hbtcle⟩ := getLast?_grow page hbtc
      obtain ⟨eth', heth', hethle⟩ := getLast?_grow page heth
      rw [hbtc, heth] at h
      rw [hbtc', heth']
      refine ⟨floorUtcDay (min btc'.ts eth'.ts), rfl, ?_⟩
      obtain rfl : floorUtcDay (min btc.ts eth.ts) = active := Option.some.inj h
      exact floorUtcDay_mono (by omega)

/-! ## A bar that lies at the pin -/

/-- 2026-01-01 00:00 UTC, the only bar of both tapes. -/
def midnight : Bar := ⟨1767225600000, 0, 0, 0, 0, 0⟩

def midnightTapes : Tapes := fun _ => ⟨[midnight], List.pairwise_singleton _ _⟩

/-- The same bar a moment later: it has traded since. -/
def midnightLater : Bar := { midnight with closeBits := 1 }

/-- A digest that stands in for the real one: the bytes themselves. -/
def spelled (bytes : List (BitVec 8)) : String :=
  String.ofList (bytes.map fun b => Char.ofNat b.toNat)

/-- The code pins these tapes at their newest bar, and the bar's own update
changes the cut. -/
theorem midnight_bar_moves :
    activePin none midnightTapes = some midnight.ts ∧
    ¬ Along grow (fun grown page =>
        SamePinned spelled "live_tape" (some midnight.ts) midnightTapes (grow grown page))
      midnightTapes [(.btc, [midnightLater])] := by
  constructor
  · decide +kernel
  · intro h
    have hcut := h.1.cuts .btc
    revert hcut
    decide +kernel

end PaperTrading.Tape
