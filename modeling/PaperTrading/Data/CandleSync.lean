import Mathlib.Data.Rat.Init
import PaperTrading.Lib.Dict
import PaperTrading.Lib.Pages
import PaperTrading.Tape.Pin

/-!
# Fetching candles into the store

`page_forward` of `data/candle_sync.py`, and the store functions it and `backfill` use
(`upsert_ohlcv`, `symbol_bounds` and `gap_edges` of `data/candle_store.py`,
`last_closed_open_ms` of `data/candle_quality.py`).

A request may fail, after its retries or because the process was killed; each page is
committed, so what was stored stays. `pageForward_extends` and `pageForward_complete` are
what one walk does, for an exchange whose answers are `Honest`; it ends for any answers
(`pages_le_span`).
-/

namespace PaperTrading.Data

open PaperTrading.Lib
open PaperTrading.Tape (Symbol)

/-- `TF_MS` -/
def TF_MS : ℤ := 300000

/-- A bar as the exchange sends it. -/
structure Row where
  ts : ℤ
  «open» : ℚ
  high : ℚ
  low : ℚ
  close : ℚ
  volume : Option ℚ
deriving DecidableEq

/-- What the table has beside the open time. -/
structure Candle where
  «open» : ℚ
  high : ℚ
  low : ℚ
  close : ℚ
  volume : ℚ
deriving DecidableEq

def Row.stored (r : Row) : Candle :=
  { «open» := r.open, high := r.high, low := r.low, close := r.close, volume := r.volume.getD 0 }

/-- The rows of one symbol: the open time is their key. -/
abbrev Store := Dict ℤ Candle

/-- `last_closed_open_ms` -/
def lastClosedOpenMs (nowMs : ℤ) : ℤ := nowMs - nowMs % TF_MS - TF_MS

/-- A bar that opens by then has closed. -/
theorem closed_of_le {nowMs ts : ℤ} (h : ts ≤ lastClosedOpenMs nowMs) : ts + TF_MS ≤ nowMs := by
  unfold lastClosedOpenMs at h
  have hmod : 0 ≤ nowMs % TF_MS := Int.emod_nonneg _ (by decide)
  omega

namespace Store

/-- The open times, in order. -/
def opens (s : Store) : List ℤ := s.keys.insertionSort (· ≤ ·)

/-- `symbol_bounds` -/
def symbolBounds (s : Store) : Option (ℤ × ℤ × ℕ) :=
  match s.opens.head?, s.opens.getLast? with
  | some min, some max => some (min, max, s.opens.length)
  | _, _ => none

/-- `gap_edges` -/
def gapEdges (s : Store) : List (ℤ × ℤ) := (steps s.opens).filter fun p => p.2 - p.1 ≠ TF_MS

/-- `upsert_ohlcv` -/
def upsertOhlcv (s : Store) (rows : List Row) : Store :=
  rows.foldl (fun s r => s.set r.ts r.stored) s

end Store

/-- `_closed` -/
def closedRows (rows : List Row) (lastClosedMs earliestMs : ℤ) : List Row :=
  rows.filter fun r => earliestMs ≤ r.ts ∧ r.ts ≤ lastClosedMs

/-- `fetch_with_retry` for one symbol: the answer to the request of that number, or `none`
when it failed for good. -/
abbrev Fetch := ℕ → ℤ → ℕ → Option (List Row)

/-- A walk: the store, the requests made so far, whether one failed, and the report. -/
structure Walk where
  store : Store
  asked : ℕ
  failed : Bool := false
  pages : ℕ := 0
  upserted : ℕ := 0
  nextOpenMs : ℤ

/-- `raw.sort(key=...)` -/
def sortRows (raw : List Row) : List Row := raw.insertionSort fun a b => a.ts ≤ b.ts

/-- A page is stored; `raw` is in order. -/
def Walk.take (w : Walk) (raw : List Row) (endMs : ℤ) : Walk :=
  { w with
    store := w.store.upsertOhlcv (closedRows raw endMs w.nextOpenMs)
    asked := w.asked + 1
    pages := w.pages + 1
    upserted := w.upserted + (closedRows raw endMs w.nextOpenMs).length }

/-- One turn of the loop of `page_forward`, and whether it goes on. -/
def Walk.turn (fetch : Fetch) (endMs : ℤ) (pageLimit : ℕ) (w : Walk) : Walk × Bool :=
  match fetch w.asked w.nextOpenMs pageLimit with
  | none => ({ w with asked := w.asked + 1, failed := true }, false)
  | some raw =>
    match (sortRows raw).getLast? with
    | none => ({ w with asked := w.asked + 1, pages := w.pages + 1 }, false)
    | some last =>
      if last.ts + TF_MS ≤ w.nextOpenMs then (w.take (sortRows raw) endMs, false)
      else
        ({ w.take (sortRows raw) endMs with nextOpenMs := last.ts + TF_MS },
          !(decide (last.ts ≥ endMs) || decide (raw.length < pageLimit)))

/-- The loop of `page_forward`, with so many pages left. -/
def Walk.loop (fetch : Fetch) (endMs : ℤ) (pageLimit : ℕ) : ℕ → Walk → Walk
  | 0, w => w
  | left + 1, w =>
    if w.nextOpenMs ≤ endMs then
      if (w.turn fetch endMs pageLimit).2 then
        Walk.loop fetch endMs pageLimit left (w.turn fetch endMs pageLimit).1
      else (w.turn fetch endMs pageLimit).1
    else w

/-- `page_forward` -/
def pageForward (fetch : Fetch) (store : Store) (asked : ℕ) (startMs endMs : ℤ)
    (pageLimit maxPages : ℕ) : Walk :=
  Walk.loop fetch endMs pageLimit maxPages { store := store, asked := asked, nextOpenMs := startMs }

/-! ## Termination -/

/-- A turn that goes on has moved the cursor up. -/
theorem turn_advances {fetch : Fetch} {endMs : ℤ} {pageLimit : ℕ} {w : Walk}
    (h : (w.turn fetch endMs pageLimit).2 = true) :
    w.nextOpenMs < (w.turn fetch endMs pageLimit).1.nextOpenMs := by
  unfold Walk.turn at h ⊢
  split at h
  next => cases h
  next raw _ =>
    split at h
    next => cases h
    next last _ =>
      split at h
      next => cases h
      next hnext =>
        rw [if_neg hnext]
        exact lt_of_not_ge hnext

theorem turn_pages (fetch : Fetch) (endMs : ℤ) (pageLimit : ℕ) (w : Walk) :
    w.pages ≤ (w.turn fetch endMs pageLimit).1.pages ∧
      (w.turn fetch endMs pageLimit).1.pages ≤ w.pages + 1 := by
  unfold Walk.turn
  split
  next => exact ⟨Nat.le_refl _, Nat.le_succ _⟩
  next =>
    split
    next => exact ⟨Nat.le_succ _, Nat.le_refl _⟩
    next =>
      split
      next => exact ⟨Nat.le_succ _, Nat.le_refl _⟩
      next => exact ⟨Nat.le_succ _, Nat.le_refl _⟩

theorem loop_pages (fetch : Fetch) (endMs : ℤ) (pageLimit : ℕ) : ∀ (left : ℕ) (w : Walk),
    w.pages ≤ (w.loop fetch endMs pageLimit left).pages ∧
      (w.loop fetch endMs pageLimit left).pages ≤ w.pages + left := by
  intro left
  induction left with
  | zero => intro w; exact ⟨Nat.le_refl _, Nat.le_refl _⟩
  | succ left ih =>
    intro w
    have hturn := turn_pages fetch endMs pageLimit w
    unfold Walk.loop
    split
    next =>
      split
      next =>
        have hrest := ih (w.turn fetch endMs pageLimit).1
        omega
      next => omega
    next => omega

/-- Whatever the exchange answers, and whatever the budget, a walk makes no more requests
than there are milliseconds in its span. -/
theorem pages_le_span (fetch : Fetch) (endMs : ℤ) (pageLimit : ℕ) : ∀ (left : ℕ) (w : Walk),
    (w.loop fetch endMs pageLimit left).pages ≤ w.pages + (endMs + 1 - w.nextOpenMs).toNat := by
  intro left
  induction left with
  | zero => intro w; exact Nat.le_add_right _ _
  | succ left ih =>
    intro w
    have hturn := turn_pages fetch endMs pageLimit w
    unfold Walk.loop
    split
    next hin =>
      split
      next hmore =>
        have hrest := ih (w.turn fetch endMs pageLimit).1
        have hup := turn_advances hmore
        omega
      next => omega
    next => exact Nat.le_add_right _ _

/-! ## The exchange -/

/-- The bars of a symbol: 5 minutes apart, with gaps where trading was suspended. -/
structure Exchange where
  bars : List Row
  ascending : Ascending Row.ts bars
  onGrid : ∀ r ∈ bars, r.ts % TF_MS = 0

/-- The bar that opens at a time, as the table would have it. -/
def Exchange.bar? (X : Exchange) (ts : ℤ) : Option Candle :=
  (X.bars.find? fun r => r.ts = ts).map Row.stored

/-- Every answer is the first bars from the time asked for, of what the exchange has at
that moment: the bars that had closed, and any later ones, forming or not. -/
def Honest (X : Exchange) (lastClosed : ℤ) (fetch : Fetch) : Prop :=
  ∀ n, ∃ view : List Row, Ascending Row.ts view ∧
    (∀ r, r.ts ≤ lastClosed → (r ∈ view ↔ r ∈ X.bars)) ∧
    ∀ since limit raw, fetch n since limit = some raw → raw = pageFrom Row.ts view since limit

theorem bar?_eq_some {X : Exchange} {ts : ℤ} {b : Candle} :
    X.bar? ts = some b ↔ ∃ r ∈ X.bars, r.ts = ts ∧ r.stored = b := by
  unfold Exchange.bar?
  constructor
  · intro h
    obtain ⟨r, hr, hb⟩ := Option.map_eq_some_iff.mp h
    exact ⟨r, List.mem_of_find?_eq_some hr, by simpa using List.find?_some hr, hb⟩
  · rintro ⟨r, hr, hts, hb⟩
    cases hfind : X.bars.find? fun r => r.ts = ts with
    | none =>
      rw [List.find?_eq_none] at hfind
      exact absurd (decide_eq_true hts) (hfind r hr)
    | some r' =>
      have hts' : r'.ts = ts := by simpa using List.find?_some hfind
      have hmem := List.mem_of_find?_eq_some hfind
      have hsame : r' = r := ascending_inj X.ascending hmem hr (hts'.trans hts.symm)
      rw [Option.map_some, hsame, hb]

/-! ## What a walk stores -/

/-- Rows up to `hi` are new, and as the exchange has them; the others stay. -/
def Extends (X : Exchange) (hi : ℤ) (s s' : Store) : Prop :=
  ∀ ts, s'.get? ts = s.get? ts ∨ (ts ≤ hi ∧ ∃ b, X.bar? ts = some b ∧ s'.get? ts = some b)

/-- The store has every bar of the exchange from `lo` to `hi`. -/
def Complete (X : Exchange) (lo hi : ℤ) (s : Store) : Prop :=
  ∀ ts b, lo ≤ ts → ts ≤ hi → X.bar? ts = some b → s.get? ts = some b

theorem Extends.refl (X : Exchange) (hi : ℤ) (s : Store) : Extends X hi s s :=
  fun _ => Or.inl rfl

theorem Extends.trans {X : Exchange} {hi : ℤ} {s s' s'' : Store} (h : Extends X hi s s')
    (h' : Extends X hi s' s'') : Extends X hi s s'' := by
  intro ts
  rcases h' ts with heq | hnew
  · rw [heq]
    exact h ts
  · exact Or.inr hnew

theorem Extends.mono {X : Exchange} {hi hi' : ℤ} {s s' : Store} (h : Extends X hi s s')
    (hhi : hi ≤ hi') : Extends X hi' s s' := by
  intro ts
  rcases h ts with heq | ⟨hle, hb⟩
  · exact Or.inl heq
  · exact Or.inr ⟨hle.trans hhi, hb⟩

/-- What is complete stays complete. -/
theorem Complete.extends {X : Exchange} {lo hi hi' : ℤ} {s s' : Store} (h : Complete X lo hi s)
    (he : Extends X hi' s s') : Complete X lo hi s' := by
  intro ts b hlo hhi hb
  rcases he ts with heq | ⟨_, b', hb', hnew⟩
  · rw [heq]
    exact h ts b hlo hhi hb
  · rwa [← hb, hb']

theorem get?_upsert_of_not_mem : ∀ {rows : List Row} {s : Store} {ts : ℤ},
    (∀ r ∈ rows, r.ts ≠ ts) → (s.upsertOhlcv rows).get? ts = s.get? ts := by
  intro rows
  induction rows with
  | nil => intro s ts _; rfl
  | cons r rows ih =>
    intro s ts h
    have hr : ts ≠ r.ts := fun heq => h r List.mem_cons_self heq.symm
    rw [Store.upsertOhlcv, List.foldl_cons, ← Store.upsertOhlcv,
      ih fun r' hr' => h r' (List.mem_cons_of_mem _ hr'), Dict.get?_set, if_neg hr]

theorem get?_upsert_of_mem : ∀ {rows : List Row} {s : Store} {r : Row},
    Ascending Row.ts rows → r ∈ rows → (s.upsertOhlcv rows).get? r.ts = some r.stored := by
  intro rows
  induction rows with
  | nil => intro s r _ h; cases h
  | cons r' rows ih =>
    intro s r hasc hr
    obtain ⟨hhead, hasc⟩ := List.pairwise_cons.mp hasc
    rw [Store.upsertOhlcv, List.foldl_cons, ← Store.upsertOhlcv]
    rcases List.mem_cons.mp hr with rfl | hr
    · rw [get?_upsert_of_not_mem fun r' hr' => (hhead r' hr').ne', Dict.get?_set, if_pos rfl]
    · exact ih hasc hr

/-! ## One page -/

/-- What an honest answer tells of the bars that had closed. -/
structure Answer (X : Exchange) (e since : ℤ) (limit : ℕ) (raw : List Row) : Prop where
  ascending : Ascending Row.ts raw
  later : ∀ r ∈ raw, since ≤ r.ts
  bars : ∀ r ∈ raw, r.ts ≤ e → r ∈ X.bars
  /-- It has every bar up to any one it has, and all of them when it is short. -/
  reaches : ∀ r ∈ X.bars, since ≤ r.ts → r.ts ≤ e →
    ((∃ r' ∈ raw, r.ts ≤ r'.ts) ∨ raw.length < limit) → r ∈ raw

theorem Honest.answer {X : Exchange} {e since : ℤ} {fetch : Fetch} (h : Honest X e fetch) {n limit : ℕ}
    {raw : List Row} (hraw : fetch n since limit = some raw) : Answer X e since limit raw := by
  obtain ⟨view, hasc, hbars, hpage⟩ := h n
  obtain rfl := hpage since limit raw hraw
  refine ⟨hasc.sublist page_sublist, fun r hr => (mem_page hr).2,
    fun r hr he => (hbars r he).mp (mem_page hr).1, ?_⟩
  intro r hr hsince he hreach
  have hview := (hbars r he).mpr hr
  rcases hreach with ⟨r', hr', hle⟩ | hshort
  · exact mem_page_of_le hasc hview hsince hr' hle
  · exact mem_page_of_short hshort hview hsince

section
variable {X : Exchange} {e hi : ℤ} {fetch : Fetch} {limit : ℕ}

theorem sortRows_answer {since : ℤ} {raw : List Row} (h : Answer X e since limit raw) :
    sortRows raw = raw :=
  List.Pairwise.insertionSort_eq (h.ascending.imp le_of_lt)

/-- The closed bars of a page are stored, and nothing else. -/
theorem take_extends {w : Walk} {raw : List Row} (h : Answer X e w.nextOpenMs limit raw)
    (hhi : hi ≤ e) : Extends X hi w.store (w.take raw hi).store := by
  intro ts
  show (w.store.upsertOhlcv (closedRows raw hi w.nextOpenMs)).get? ts = _ ∨ _
  by_cases hts : ∃ r ∈ closedRows raw hi w.nextOpenMs, r.ts = ts
  · obtain ⟨r, hr, rfl⟩ := hts
    obtain ⟨hraw, hin⟩ := List.mem_filter.mp hr
    obtain ⟨hlo, hle⟩ := of_decide_eq_true hin
    refine Or.inr ⟨hle, r.stored, ?_, ?_⟩
    · exact bar?_eq_some.mpr ⟨r, h.bars r hraw (hle.trans hhi), rfl, rfl⟩
    · exact get?_upsert_of_mem (h.ascending.sublist List.filter_sublist) hr
  · exact Or.inl (get?_upsert_of_not_mem fun r hr heq => hts ⟨r, hr, heq⟩)

theorem take_complete {w : Walk} {raw : List Row} (h : Answer X e w.nextOpenMs limit raw)
    (hhi : hi ≤ e) {ts : ℤ} {b : Candle} (hlo : w.nextOpenMs ≤ ts) (hts : ts ≤ hi)
    (hreach : (∃ r' ∈ raw, ts ≤ r'.ts) ∨ raw.length < limit) (hb : X.bar? ts = some b) :
    (w.take raw hi).store.get? ts = some b := by
  obtain ⟨r, hr, rfl, rfl⟩ := bar?_eq_some.mp hb
  have hraw := h.reaches r hr hlo (hts.trans hhi) hreach
  exact get?_upsert_of_mem (h.ascending.sublist List.filter_sublist)
    (List.mem_filter.mpr ⟨hraw, decide_eq_true ⟨hlo, hts⟩⟩)

/-- What one turn does, when its request is answered: it stores what the exchange has up
to where the walk goes on, or up to the end. -/
structure Turned (X : Exchange) (hi : ℤ) (w w' : Walk) (more : Bool) : Prop where
  pages : w'.pages = w.pages + 1
  failed : w'.failed = w.failed
  stores : Extends X hi w.store w'.store
  upTo : ∀ ts b, w.nextOpenMs ≤ ts → ts ≤ hi → (ts < w'.nextOpenMs ∨ more = false) →
    X.bar? ts = some b → w'.store.get? ts = some b
  /-- A walk that goes on has passed a bar. -/
  passed : more = true → ∃ r ∈ X.bars, w.nextOpenMs ≤ r.ts ∧ r.ts < w'.nextOpenMs ∧ r.ts ≤ hi

theorem grid_lt {a b : ℤ} (ha : a % TF_MS = 0) (hb : b % TF_MS = 0) (h : a < b + TF_MS) : a ≤ b := by
  unfold TF_MS at *
  omega

theorem turn_spec (hfetch : Honest X e fetch) (hhi : hi ≤ e) (hlimit : 0 < limit) (w : Walk) :
    (w.turn fetch hi limit).1 = { w with asked := w.asked + 1, failed := true } ∨
      Turned X hi w (w.turn fetch hi limit).1 (w.turn fetch hi limit).2 := by
  unfold Walk.turn
  split
  next => exact Or.inl rfl
  next raw hraw =>
    right
    have hanswer := hfetch.answer hraw
    rw [sortRows_answer hanswer]
    split
    next hnil =>
      -- an empty page: there is nothing from the cursor on
      have hempty := List.getLast?_eq_none_iff.mp hnil
      refine ⟨rfl, rfl, Extends.refl _ _ _, ?_, fun h => by cases h⟩
      intro ts b hlo hts _ hb
      obtain ⟨r, hr, rfl, _⟩ := bar?_eq_some.mp hb
      have hmem := hanswer.reaches r hr hlo (hts.trans hhi)
        (Or.inr (by rw [hempty]; exact hlimit))
      rw [hempty] at hmem
      cases hmem
    next last hlast =>
      have hmem : last ∈ raw := List.mem_of_getLast? hlast
      have hsince := hanswer.later last hmem
      have hnext : ¬ last.ts + TF_MS ≤ w.nextOpenMs := by
        unfold TF_MS
        omega
      rw [if_neg hnext]
      refine ⟨rfl, rfl, take_extends hanswer hhi, ?_, ?_⟩
      · intro ts b hlo hts hwhere hb
        refine take_complete hanswer hhi hlo hts ?_ hb
        by_cases hle : ts ≤ last.ts
        · exact Or.inl ⟨last, hmem, hle⟩
        · -- past the last bar of the page only where the page was short
          rcases hwhere with hlt | hend
          · obtain ⟨r, hr, rfl, _⟩ := bar?_eq_some.mp hb
            have hgrid := X.onGrid last (hanswer.bars last hmem (by omega))
            exact absurd (grid_lt (X.onGrid r hr) hgrid hlt) hle
          · simp only [Bool.not_eq_false', Bool.or_eq_true, decide_eq_true_eq] at hend
            rcases hend with hend | hshort
            · exact absurd (hts.trans hend) hle
            · exact Or.inr hshort
      · intro hmore
        simp only [Bool.not_eq_true', Bool.or_eq_false_iff, decide_eq_false_iff_not, not_le] at hmore
        refine ⟨last, hanswer.bars last hmem (by omega), hsince, ?_, by omega⟩
        show last.ts < last.ts + TF_MS
        unfold TF_MS
        omega

/-! ## A walk -/

/-- The bars a walk from `lo` to `hi` has to pass. -/
def Exchange.count (X : Exchange) (lo hi : ℤ) : ℕ := X.bars.countP fun r => lo ≤ r.ts ∧ r.ts ≤ hi

theorem Exchange.count_le (X : Exchange) (lo hi : ℤ) : X.count lo hi ≤ X.bars.length :=
  List.countP_le_length

theorem Turned.count_lt {w w' : Walk} (h : Turned X hi w w' true) :
    X.count w'.nextOpenMs hi < X.count w.nextOpenMs hi := by
  obtain ⟨r, hr, hlo, hlt, hle⟩ := h.passed rfl
  refine countP_lt_of_exists ?_ hr (decide_eq_true ⟨hlo, hle⟩) (decide_eq_false ?_)
  · intro r' _ hr'
    have hin := of_decide_eq_true hr'
    exact decide_eq_true ⟨by omega, hin.2⟩
  · intro hin
    omega

/-- A walk stores the exchange's bars of its span and nothing else. -/
theorem loop_extends (hfetch : Honest X e fetch) (hhi : hi ≤ e) (hlimit : 0 < limit) :
    ∀ (left : ℕ) (w : Walk), Extends X hi w.store (w.loop fetch hi limit left).store := by
  intro left
  induction left with
  | zero => intro w; exact Extends.refl _ _ _
  | succ left ih =>
    intro w
    unfold Walk.loop
    split
    next =>
      rcases turn_spec hfetch hhi hlimit w with hfail | hturn
      · split
        next =>
          have hrest := ih (w.turn fetch hi limit).1
          rw [hfail] at hrest ⊢
          exact hrest
        next =>
          rw [hfail]
          exact Extends.refl _ _ _
      · split
        next => exact hturn.stores.trans (ih _)
        next => exact hturn.stores
    next => exact Extends.refl _ _ _

theorem turn_failed_stops {w : Walk}
    (h : (w.turn fetch hi limit).1 = { w with asked := w.asked + 1, failed := true })
    (hw : w.failed = false) : (w.turn fetch hi limit).2 = false := by
  have hfailed : (w.turn fetch hi limit).1.failed = true := by rw [h]
  unfold Walk.turn at hfailed ⊢
  split at hfailed
  next hnone => rfl
  next raw hraw =>
    split at hfailed
    next => exact absurd hfailed (by simp [hw])
    next =>
      split at hfailed
      next => exact absurd hfailed (by simp [hw, Walk.take])
      next => exact absurd hfailed (by simp [hw, Walk.take])

/-- A walk that no request broke off and that had pages left has every bar of its span,
and it used no more pages than there are bars in it, and one. -/
theorem loop_complete (hfetch : Honest X e fetch) (hhi : hi ≤ e) (hlimit : 0 < limit) :
    ∀ (left : ℕ) (w : Walk), w.failed = false →
      (w.loop fetch hi limit left).failed = false →
      (w.loop fetch hi limit left).pages ≤ w.pages + 1 + X.count w.nextOpenMs hi ∧
        ((w.loop fetch hi limit left).pages < w.pages + left →
          Complete X w.nextOpenMs hi (w.loop fetch hi limit left).store) := by
  intro left
  induction left with
  | zero =>
    intro w _ _
    refine ⟨?_, fun h => absurd h (Nat.lt_irrefl _)⟩
    show w.pages ≤ _
    omega
  | succ left ih =>
    intro w hw
    unfold Walk.loop
    split
    next =>
      rcases turn_spec hfetch hhi hlimit w with hfail | hturn
      · rw [turn_failed_stops hfail hw, hfail]
        intro h
        cases h
      · cases hmore : (w.turn fetch hi limit).2 with
        | true =>
          rw [hmore] at hturn
          intro hend
          obtain ⟨hpages, hcomplete⟩ := ih _ (hturn.failed.trans hw) hend
          have hone := hturn.pages
          have hcount := hturn.count_lt
          refine ⟨by simp only [if_true]; omega, ?_⟩
          intro hleft ts b hlo hts hb
          by_cases hlt : ts < (w.turn fetch hi limit).1.nextOpenMs
          · have hstored := hturn.upTo ts b hlo hts (Or.inl hlt) hb
            rcases loop_extends hfetch hhi hlimit left (w.turn fetch hi limit).1 ts with heq | hnew
            · rw [if_pos rfl, heq, hstored]
            · obtain ⟨_, b', hb', hget⟩ := hnew
              rw [if_pos rfl, hget, ← hb, hb']
          · exact hcomplete (by simp only [if_true] at hleft; omega) ts b (by omega) hts hb
        | false =>
          rw [hmore] at hturn
          intro _
          have hone := hturn.pages
          refine ⟨?_, fun _ ts b hlo hts hb => hturn.upTo ts b hlo hts (Or.inr rfl) hb⟩
          show (w.turn fetch hi limit).1.pages ≤ _
          omega
    next hpast =>
      intro _
      refine ⟨by omega, fun _ ts b hlo hts _ => absurd (hlo.trans hts) hpast⟩

end

end PaperTrading.Data
