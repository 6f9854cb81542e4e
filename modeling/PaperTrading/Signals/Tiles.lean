import Mathlib.Data.Nat.Find
import PaperTrading.Lib.Pages
import PaperTrading.Signals.Segments

/-!
# What the walk-forward segments hold

The four cut points of a segment come from binary searches in the tape's timestamps. On a
tape that ascends strictly, gaps or no gaps, they split the tape by time (`tiled`): the
scored parts tile the span from the first segment to the last one's end, and a segment's
warm-up, train and scored parts follow each other.

`tiled_slices_spec` draws the consequences: earlier history, and bars from a segment's
end on, leave a closed segment as it is, and a sealed slice has no bar of the holdout, so
it does not depend on any. The last segment may be closed by flag before the tape has
reached its end; later bars then still come into it (`closed_last_grows`).
-/

namespace PaperTrading.Signals

open PaperTrading.Lib
open Trading (Candle)

/-- `_window_slices` with `tiled=True`. -/
def windowSlices (data : List (String × List Candle)) (nWindows : ℕ) (discovery : Bool) :
    Except String (List (List (String × Sample))) :=
  if discovery then tiledSlices { nWindows := nWindows, closeLast := true, sealHoldout := true } data
  else tiledSlices { nWindows := nWindows } data

/-! ## Cut points -/

/-- The rows from one time to another. -/
def within (rows : List Candle) (a b : ℤ) : List Candle := rows.filter fun r => a ≤ r.ts ∧ r.ts < b

section
variable {rows : List Candle}

theorem bisectLeft_ts (rows : List Candle) (x : ℤ) :
    bisectLeft (rows.map (·.ts)) x = (rows.takeWhile fun r => r.ts < x).length := by
  unfold bisectLeft
  rw [List.takeWhile_map, List.length_map]
  rfl

theorem take_bisectLeft (h : Ascending Candle.ts rows) (x : ℤ) :
    rows.take (bisectLeft (rows.map (·.ts)) x) = rows.filter fun r => r.ts < x := by
  rw [bisectLeft_ts, ← takeWhile_lt h]
  exact (List.prefix_iff_eq_take.mp (List.takeWhile_prefix _)).symm

theorem drop_bisectLeft (h : Ascending Candle.ts rows) (x : ℤ) :
    rows.drop (bisectLeft (rows.map (·.ts)) x) = rows.filter fun r => x ≤ r.ts := by
  rw [bisectLeft_ts]
  exact drop_takeWhile_lt h x

theorem bisectLeft_mono (h : Ascending Candle.ts rows) {a b : ℤ} (hab : a ≤ b) :
    bisectLeft (rows.map (·.ts)) a ≤ bisectLeft (rows.map (·.ts)) b := by
  rw [bisectLeft_ts, bisectLeft_ts, takeWhile_lt h, takeWhile_lt h, ← List.countP_eq_length_filter,
    ← List.countP_eq_length_filter]
  refine List.countP_mono_left fun r _ hr => ?_
  exact decide_eq_true ((of_decide_eq_true hr).trans_le hab)

/-- Two searches cut out the rows between two times. -/
theorem slice_bisectLeft (h : Ascending Candle.ts rows) {a b : ℤ} (hab : a ≤ b) :
    slice rows (bisectLeft (rows.map (·.ts)) a) (bisectLeft (rows.map (·.ts)) b) = within rows a b := by
  have hfront : (rows.filter fun r => r.ts < b).takeWhile (fun r => r.ts < a) =
      rows.takeWhile fun r => r.ts < a := by
    rw [takeWhile_lt (h.sublist List.filter_sublist), takeWhile_lt h, List.filter_filter]
    refine List.filter_congr fun r _ => ?_
    by_cases hr : r.ts < a
    · simp [hr, hr.trans_le hab]
    · simp [hr]
  unfold slice within
  rw [take_bisectLeft h, bisectLeft_ts, ← hfront, drop_takeWhile_lt (h.sublist List.filter_sublist),
    List.filter_filter]
  exact List.filter_congr fun r _ => (Bool.decide_and ..).symm

theorem slice_bisectLeft_length (h : Ascending Candle.ts rows) (a : ℤ) :
    slice rows (bisectLeft (rows.map (·.ts)) a) rows.length = rows.filter fun r => a ≤ r.ts := by
  unfold slice
  rw [List.take_length, drop_bisectLeft h]

end

/-! ## The parts of a segment -/

namespace Tiling

variable (c : Tiling)

/-- The row comes before the end of segment `k`. -/
def Before (k : ℕ) (r : Candle) : Prop := ∀ e ∈ c.stop k, r.ts < e

instance (k : ℕ) (r : Candle) : Decidable (c.Before k r) :=
  inferInstanceAs (Decidable (∀ e ∈ c.stop k, r.ts < e))

/-- The rows from a time to the end of segment `k`. -/
def upTo (rows : List Candle) (a : ℤ) (k : ℕ) : List Candle :=
  rows.filter fun r => a ≤ r.ts ∧ c.Before k r

/-- `i_train` -/
def train (rows : List Candle) (k : ℕ) : ℕ :=
  bisectLeft (rows.map (·.ts)) (c.start k - c.trainMs)

/-- The three parts of a segment's slice. -/
def warmPart (rows : List Candle) (k : ℕ) : List Candle := slice rows (c.lead rows k) (c.train rows k)

def trainPart (rows : List Candle) (k : ℕ) : List Candle := slice rows (c.train rows k) (c.oos rows k)

def scoredPart (rows : List Candle) (k : ℕ) : List Candle := slice rows (c.oos rows k) (c.finish rows k)

end Tiling

/-- Segments and lead-ins do not run backwards. -/
structure Tiling.Forward (c : Tiling) : Prop where
  segment : 0 ≤ c.segmentMs
  bar : 0 ≤ c.tfMs

section
variable {c : Tiling} {rows : List Candle} {k : ℕ}

theorem train_le (hc : c.Forward) : c.start k - c.trainMs ≤ c.start k := by
  have htrain : 0 ≤ c.trainMs := Int.mul_nonneg (Int.natCast_nonneg _) hc.bar
  omega

theorem lead_le (hc : c.Forward) : c.start k - c.leadMs ≤ c.start k - c.trainMs := by
  have hle : c.trainMs ≤ c.leadMs := Int.mul_le_mul_of_nonneg_right (by omega) hc.bar
  omega

theorem start_le_stop (hc : c.Forward) {e : ℤ} (he : e ∈ c.stop k) : c.start k ≤ e := by
  have hseg := hc.segment
  unfold Tiling.stop at he
  split at he
  next =>
    obtain rfl := Option.mem_some_iff.mp he
    omega
  next => cases he

theorem start_mono (hc : c.Forward) {i j : ℕ} (hij : i ≤ j) : c.start i ≤ c.start j := by
  have hmul : (i : ℤ) * c.segmentMs ≤ j * c.segmentMs :=
    Int.mul_le_mul_of_nonneg_right (by omega) hc.segment
  unfold Tiling.start
  omega

/-- A slice that starts at a time no later than the segment holds the rows from then to
the segment's end. -/
theorem slice_finish (h : Ascending Candle.ts rows) (hc : c.Forward) {a : ℤ} (ha : a ≤ c.start k) :
    slice rows (bisectLeft (rows.map (·.ts)) a) (c.finish rows k) = c.upTo rows a k := by
  unfold Tiling.finish
  cases hstop : c.stop k with
  | none =>
    simp only
    rw [slice_bisectLeft_length h]
    refine List.filter_congr fun r _ => ?_
    simp [Tiling.Before, hstop]
  | some e =>
    simp only
    rw [slice_bisectLeft h (ha.trans (start_le_stop hc hstop))]
    refine List.filter_congr fun r _ => ?_
    simp [Tiling.Before, hstop]

theorem warmPart_eq (h : Ascending Candle.ts rows) (hc : c.Forward) :
    c.warmPart rows k = within rows (c.start k - c.leadMs) (c.start k - c.trainMs) :=
  slice_bisectLeft h (lead_le hc)

theorem trainPart_eq (h : Ascending Candle.ts rows) (hc : c.Forward) :
    c.trainPart rows k = within rows (c.start k - c.trainMs) (c.start k) :=
  slice_bisectLeft h (train_le hc)

theorem scoredPart_eq (h : Ascending Candle.ts rows) (hc : c.Forward) :
    c.scoredPart rows k = c.upTo rows (c.start k) k :=
  slice_finish h hc (le_refl _)

/-! ## A segment -/

/-- Slices that meet make one. -/
theorem slice_append {α : Type} (xs : List α) {i j k : ℕ} (hij : i ≤ j) (hjk : j ≤ k) :
    slice xs i j ++ slice xs j k = slice xs i k := by
  have hfront : xs.take j = (xs.take k).take j := by rw [List.take_take, Nat.min_eq_left hjk]
  unfold slice
  rw [hfront]
  -- the rest of the longer slice is either all there or empty
  have hrest : ((xs.take k).drop j).drop (i - ((xs.take k).take j).length) = (xs.take k).drop j := by
    rw [List.drop_drop, List.length_take]
    by_cases hlen : j ≤ (xs.take k).length
    · rw [Nat.min_eq_left hlen, Nat.sub_eq_zero_of_le hij, Nat.add_zero]
    · rw [List.drop_eq_nil_of_le (by omega), List.drop_eq_nil_of_le (by omega)]
  have hsplit := congrArg (List.drop i) (List.take_append_drop j (xs.take k))
  rwa [List.drop_append, hrest] at hsplit

/-- What segment `k` is to the rows: three parts that follow each other, each the rows of
its span of time. -/
structure Parts (c : Tiling) (rows : List Candle) (k : ℕ) : Prop where
  series : (c.sample rows k).series =
    .of (c.warmPart rows k ++ c.trainPart rows k ++ c.scoredPart rows k)
  warmup : (c.sample rows k).warmup = (c.warmPart rows k).length
  cut : (c.sample rows k).cut = (c.warmPart rows k ++ c.trainPart rows k).length
  warm : c.warmPart rows k = within rows (c.start k - c.leadMs) (c.start k - c.trainMs)
  train : c.trainPart rows k = within rows (c.start k - c.trainMs) (c.start k)
  scored : c.scoredPart rows k = c.upTo rows (c.start k) k

theorem slice_length {α : Type} (xs : List α) {i j : ℕ} (hj : j ≤ xs.length) :
    (slice xs i j).length = j - i := by
  unfold slice
  rw [List.length_drop, List.length_take, Nat.min_eq_left hj]

theorem bisectLeft_le (rows : List Candle) (x : ℤ) : bisectLeft (rows.map (·.ts)) x ≤ rows.length := by
  rw [bisectLeft_ts]
  exact (List.takeWhile_prefix _).length_le

theorem lead_le_train (h : Ascending Candle.ts rows) (hc : c.Forward) :
    c.lead rows k ≤ c.train rows k := bisectLeft_mono h (lead_le hc)

theorem train_le_oos (h : Ascending Candle.ts rows) (hc : c.Forward) :
    c.train rows k ≤ c.oos rows k := bisectLeft_mono h (train_le hc)

theorem oos_le_finish (h : Ascending Candle.ts rows) (hc : c.Forward) :
    c.oos rows k ≤ c.finish rows k := by
  unfold Tiling.finish
  cases hstop : c.stop k with
  | none => exact bisectLeft_le rows _
  | some e => exact bisectLeft_mono h (start_le_stop hc hstop)

theorem parts (h : Ascending Candle.ts rows) (hc : c.Forward) (k : ℕ) : Parts c rows k where
  series := by
    unfold Tiling.warmPart Tiling.trainPart Tiling.scoredPart
    rw [slice_append rows (lead_le_train h hc) (train_le_oos h hc),
      slice_append rows ((lead_le_train h hc).trans (train_le_oos h hc)) (oos_le_finish h hc)]
    rfl
  warmup := (slice_length rows (bisectLeft_le rows _)).symm
  cut := by
    unfold Tiling.warmPart Tiling.trainPart
    rw [slice_append rows (lead_le_train h hc) (train_le_oos h hc)]
    exact (slice_length rows (bisectLeft_le rows _)).symm
  warm := warmPart_eq h hc
  train := trainPart_eq h hc
  scored := scoredPart_eq h hc

/-- A segment's sample, of the rows from its lead-in to its end. -/
def Tiling.sampleOf (c : Tiling) (k : ℕ) (span : List Candle) : Sample where
  series := .of span
  warmup := span.countP fun r => r.ts < c.start k - c.trainMs
  cut := span.countP fun r => r.ts < c.start k

theorem filter_upTo (hc : c.Forward) {a b : ℤ} (hb : b ≤ c.start k) :
    (c.upTo rows a k).filter (fun r => r.ts < b) = within rows a b := by
  unfold Tiling.upTo within
  rw [List.filter_filter]
  refine List.filter_congr fun r _ => ?_
  by_cases hr : r.ts < b
  · have hbefore : c.Before k r := fun e he => hr.trans_le (hb.trans (start_le_stop hc he))
    simp [hr, hbefore]
  · simp [hr]

/-- The sample depends on the rows of its span alone. -/
theorem sample_eq (h : Ascending Candle.ts rows) (hc : c.Forward) (k : ℕ) :
    c.sample rows k = c.sampleOf k (c.upTo rows (c.start k - c.leadMs) k) := by
  have hparts := parts h hc k
  have hspan : slice rows (c.lead rows k) (c.finish rows k) = c.upTo rows (c.start k - c.leadMs) k :=
    slice_finish h hc ((lead_le hc).trans (train_le hc))
  have hwarm : (c.sample rows k).warmup =
      (c.upTo rows (c.start k - c.leadMs) k).countP fun r => r.ts < c.start k - c.trainMs := by
    rw [hparts.warmup, hparts.warm, List.countP_eq_length_filter, filter_upTo hc (train_le hc)]
  have hcut : (c.sample rows k).cut =
      (c.upTo rows (c.start k - c.leadMs) k).countP fun r => r.ts < c.start k := by
    have hjoin : c.warmPart rows k ++ c.trainPart rows k =
        within rows (c.start k - c.leadMs) (c.start k) := by
      unfold Tiling.warmPart Tiling.trainPart
      rw [slice_append rows (lead_le_train h hc) (train_le_oos h hc)]
      exact slice_bisectLeft h ((lead_le hc).trans (train_le hc))
    rw [hparts.cut, hjoin, List.countP_eq_length_filter, filter_upTo hc (le_refl _)]
  unfold Tiling.sampleOf
  rw [← hwarm, ← hcut, ← hspan]
  rfl

/-! ## The tiles -/

theorem stop_le_start (hc : c.Forward) {i j : ℕ} (hij : i < j) (hj : j < c.nWindows) :
    c.stop i = some (c.start i + c.segmentMs) ∧ c.start i + c.segmentMs ≤ c.start j := by
  have hnot : i ≠ c.nWindows - 1 := by omega
  refine ⟨if_pos (Or.inr hnot), ?_⟩
  have hnext := start_mono hc (Nat.succ_le_of_lt hij)
  unfold Tiling.start at hnext ⊢
  rw [Nat.succ_eq_add_one, Int.natCast_add, Int.add_mul] at hnext
  omega

/-- Every row from the first segment to the end of the last is scored in exactly one. -/
theorem partition (h : Ascending Candle.ts rows) (hc : c.Forward) (hn : 0 < c.nWindows)
    {r : Candle} (hr : r ∈ rows) (hoos : c.oosStartMs ≤ r.ts) (hend : c.Before (c.nWindows - 1) r) :
    ∃! k, k < c.nWindows ∧ r ∈ c.scoredPart rows k := by
  -- the last segment that has begun by then
  let k := Nat.findGreatest (fun k => c.start k ≤ r.ts) (c.nWindows - 1)
  have hzero : c.start 0 ≤ r.ts := by
    unfold Tiling.start
    omega
  have hk : c.start k ≤ r.ts :=
    Nat.findGreatest_spec (P := fun k => c.start k ≤ r.ts) (Nat.zero_le _) hzero
  have hkle : k ≤ c.nWindows - 1 := Nat.findGreatest_le _
  refine ⟨k, ⟨by omega, ?_⟩, ?_⟩
  · rw [scoredPart_eq h hc]
    refine List.mem_filter.mpr ⟨hr, decide_eq_true ⟨hk, ?_⟩⟩
    rcases Nat.lt_or_ge k (c.nWindows - 1) with hlt | hge
    · have hnot : ¬ c.start (k + 1) ≤ r.ts := Nat.findGreatest_is_greatest (Nat.lt_succ_self k) hlt
      have hstop := stop_le_start hc (Nat.lt_succ_self k) (by omega : k + 1 < c.nWindows)
      intro e he
      rw [hstop.1] at he
      obtain rfl := Option.mem_some_iff.mp he
      have hstart : c.start (k + 1) = c.start k + c.segmentMs := by
        unfold Tiling.start
        rw [Int.natCast_add, Int.add_mul]
        omega
      omega
    · rwa [show k = c.nWindows - 1 by omega]
  · rintro j ⟨hj, hmem⟩
    rw [scoredPart_eq h hc] at hmem
    obtain ⟨hstart, hbefore⟩ := of_decide_eq_true (List.mem_filter.mp hmem).2
    rcases Nat.lt_trichotomy j k with hlt | heq | hgt
    · obtain ⟨hstop, hle⟩ := stop_le_start hc hlt (by omega)
      exact absurd (hbefore _ hstop) (by omega)
    · exact heq
    · have hnot : ¬ c.start j ≤ r.ts := Nat.findGreatest_is_greatest hgt (by omega)
      exact absurd hstart hnot

end

/-! ## What was checked -/

section
variable {c : Tiling} {data : List (String × List Candle)} {slices : List (List (String × Sample))}

theorem forM_ok {α : Type} {f : α → Except String Unit} : ∀ {l : List α}, l.forM f = .ok () →
    ∀ a ∈ l, f a = .ok () := by
  intro l
  induction l with
  | nil => intro _ a ha; cases ha
  | cons a l ih =>
    intro h b hb
    have hbind : (f a >>= fun _ => l.forM f) = .ok () := h
    obtain ⟨_, ha, hl⟩ := except_bind_ok hbind
    rcases List.mem_cons.mp hb with rfl | hb
    · exact ha
    · exact ih hl b hb

/-- What the tapes and the segments were checked for, and what came of it. -/
theorem tiledSlices_ok (h : tiledSlices c data = .ok slices) :
    (∀ d ∈ data, c.checkTape d.1 d.2 = .ok ()) ∧ (∀ k < c.nWindows, c.checkStop k = .ok ()) ∧
      slices = (List.range c.nWindows).map fun k => data.map fun d => (d.1, c.sample d.2 k) := by
  obtain ⟨_, htapes, h⟩ := except_bind_ok h
  refine ⟨forM_ok htapes, ?_, ?_⟩
  · intro k hk
    obtain ⟨w, hw⟩ := mapM_ok h k (List.mem_range.mpr hk)
    obtain ⟨_, hstop, _⟩ := except_bind_ok hw
    exact hstop
  · refine mapM_eq_map (fun k _ w hw => ?_) h
    obtain ⟨_, -, hw⟩ := except_bind_ok hw
    exact mapM_eq_map (fun d _ out hd => symbolSample_ok hd) hw

theorem checkTape_ok {sym : String} {rows : List Candle} (h : c.checkTape sym rows = .ok ()) :
    ∃ first last, rows.head? = some first ∧ rows.getLast? = some last ∧
      first.ts ≤ c.oosStartMs - c.leadMs ∧ c.lastStart ≤ last.ts := by
  unfold Tiling.checkTape at h
  split at h
  next first last hfirst hlast =>
    split at h
    next => cases h
    next hlead =>
      split at h
      next => cases h
      next hreach => exact ⟨first, last, hfirst, hlast, not_lt.mp hlead, not_lt.mp hreach⟩
  next => cases h

/-- A sealed segment ends before the holdout. -/
theorem checkStop_ok (hseal : c.sealHoldout = true) {k : ℕ} (h : c.checkStop k = .ok ()) :
    ∃ e, c.stop k = some e ∧ e ≤ HOLDOUT_START_MS := by
  unfold Tiling.checkStop at h
  rw [hseal] at h
  cases hstop : c.stop k with
  | none => rw [hstop] at h; cases h
  | some e =>
    rw [hstop] at h
    refine ⟨e, rfl, not_lt.mp fun hlt => ?_⟩
    simp only [if_pos hlt] at h
    cases h

/-! ## Other tapes -/

/-- `d'` is `d` with earlier history and later bars, the later ones not in segment `k`:
it is not the last, or the tape had reached its end. -/
def Extended (c : Tiling) (k : ℕ) (d d' : String × List Candle) : Prop :=
  d'.1 = d.1 ∧ ∃ pre post, d'.2 = pre ++ d.2 ++ post ∧ Ascending Candle.ts d'.2 ∧
    (k + 1 < c.nWindows ∨ ∀ r ∈ post, ¬ c.Before k r)

/-- The tapes agree before the holdout. -/
def SameBefore (d d' : String × List Candle) : Prop :=
  d'.1 = d.1 ∧ (d'.2.filter fun r => r.ts < HOLDOUT_START_MS) =
    d.2.filter fun r => r.ts < HOLDOUT_START_MS

theorem upTo_extended (hc : c.Forward) {k : ℕ} {d d' : String × List Candle}
    (hcheck : c.checkTape d.1 d.2 = .ok ()) (h : Extended c k d d') :
    c.upTo d'.2 (c.start k - c.leadMs) k = c.upTo d.2 (c.start k - c.leadMs) k := by
  obtain ⟨_, pre, post, hrows, hasc, hpost⟩ := h
  obtain ⟨first, last, hfirst, hlast, hlead, hreach⟩ := checkTape_ok hcheck
  rw [hrows] at hasc
  have hsplit := List.pairwise_append.mp hasc
  have hpre : pre.filter (fun r => c.start k - c.leadMs ≤ r.ts ∧ c.Before k r) = [] := by
    refine List.filter_eq_nil_iff.mpr fun r hr hin => ?_
    have hlt := (List.pairwise_append.mp hsplit.1).2.2 r hr first (List.mem_of_head? hfirst)
    have hmono := start_mono hc (Nat.zero_le k)
    have hzero : c.start 0 = c.oosStartMs := by simp [Tiling.start]
    have hin := (of_decide_eq_true hin).1
    omega
  have hpost : post.filter (fun r => c.start k - c.leadMs ≤ r.ts ∧ c.Before k r) = [] := by
    refine List.filter_eq_nil_iff.mpr fun r hr hin => ?_
    have hin := (of_decide_eq_true hin).2
    rcases hpost with hnext | hafter
    · have hlt := hsplit.2.2 last (List.mem_append_right _ (List.mem_of_getLast? hlast)) r hr
      obtain ⟨hstop, hle⟩ := stop_le_start hc (by omega : k < c.nWindows - 1) (by omega)
      have hstart : c.start (c.nWindows - 1) = c.lastStart := by
        unfold Tiling.start Tiling.lastStart
        rw [Int.natCast_sub (by omega)]
        rfl
      have hbefore := hin _ hstop
      omega
    · exact hafter r hr hin
  unfold Tiling.upTo
  rw [hrows, List.filter_append, List.filter_append, hpre, hpost, List.nil_append, List.append_nil]

theorem upTo_same {k : ℕ} {e : ℤ} (hstop : c.stop k = some e) (he : e ≤ HOLDOUT_START_MS)
    {d d' : String × List Candle} (h : SameBefore d d') (a : ℤ) :
    c.upTo d'.2 a k = c.upTo d.2 a k := by
  have hcut (rows : List Candle) : c.upTo rows a k =
      (rows.filter fun r => r.ts < HOLDOUT_START_MS).filter fun r => a ≤ r.ts ∧ c.Before k r := by
    unfold Tiling.upTo
    rw [List.filter_filter]
    refine List.filter_congr fun r _ => ?_
    by_cases hr : a ≤ r.ts ∧ c.Before k r
    · have hlt : r.ts < HOLDOUT_START_MS := (hr.2 e hstop).trans_le he
      simp [hr, hlt]
    · simp [hr]
  rw [hcut, hcut, h.2]

theorem map_eq_of_forall₂ {α β γ : Type} {R : α → β → Prop} {f : α → γ} {g : β → γ} :
    ∀ {l : List α} {l' : List β}, List.Forall₂ R l l' →
      (∀ a ∈ l, ∀ b ∈ l', R a b → g b = f a) → l'.map g = l.map f := by
  intro l l' h
  induction h with
  | nil => intro _; rfl
  | cons hab _ ih =>
    intro hfg
    rw [List.map_cons, List.map_cons, hfg _ List.mem_cons_self _ List.mem_cons_self hab,
      ih fun a ha b hb => hfg a (List.mem_cons_of_mem _ ha) b (List.mem_cons_of_mem _ hb)]

theorem getElem?_slices {n k : ℕ} {α : Type} (f : ℕ → α) (hk : k < n) :
    ((List.range n).map f)[k]? = some (f k) := by
  rw [List.getElem?_map, List.getElem?_range hk]
  rfl

/-- The walk-forward slices of tapes that ascend and pass the checks: the parts of a
segment follow each other and are the rows of their times; each row from the first
segment to the last one's end is scored once; history before the tape, and bars after it
that are not before a closed segment's end, leave the segment's slices as they are; and a
sealed slice has no row of the holdout, so tapes that agree before it have equal slices. -/
theorem tiled_slices_spec (c : Tiling) (hc : c.Forward) (data : List (String × List Candle))
    (hasc : ∀ d ∈ data, Ascending Candle.ts d.2) (slices : List (List (String × Sample)))
    (h : tiledSlices c data = .ok slices) :
    slices = (List.range c.nWindows).map (fun k => data.map fun d => (d.1, c.sample d.2 k)) ∧
    (∀ d ∈ data, ∀ k, Parts c d.2 k) ∧
    (∀ d ∈ data, 0 < c.nWindows → ∀ r ∈ d.2, c.oosStartMs ≤ r.ts → c.Before (c.nWindows - 1) r →
      ∃! k, k < c.nWindows ∧ r ∈ c.scoredPart d.2 k) ∧
    (∀ k < c.nWindows, (c.stop k).isSome = true → ∀ data' slices',
      List.Forall₂ (Extended c k) data data' → tiledSlices c data' = .ok slices' →
        slices'[k]? = slices[k]?) ∧
    (c.sealHoldout = true →
      (∀ d ∈ data, ∀ k < c.nWindows, ∀ r ∈ c.warmPart d.2 k ++ c.trainPart d.2 k ++ c.scoredPart d.2 k,
        r.ts < HOLDOUT_START_MS) ∧
      ∀ data' slices', (∀ d ∈ data', Ascending Candle.ts d.2) → List.Forall₂ SameBefore data data' →
        tiledSlices c data' = .ok slices' → slices' = slices) := by
  obtain ⟨htapes, hstops, rfl⟩ := tiledSlices_ok h
  refine ⟨rfl, fun d hd k => parts (hasc d hd) hc k,
    fun d hd hn r hr hoos hend => partition (hasc d hd) hc hn hr hoos hend, ?_, ?_⟩
  · intro k hk _ data' slices' hext h'
    obtain ⟨_, _, rfl⟩ := tiledSlices_ok h'
    rw [getElem?_slices _ hk, getElem?_slices _ hk]
    refine congrArg some (map_eq_of_forall₂ hext fun d hd d' _ hdd' => ?_)
    obtain ⟨_, _, _, _, hasc', _⟩ := id hdd'
    rw [hdd'.1, sample_eq hasc' hc, sample_eq (hasc d hd) hc, upTo_extended hc (htapes d hd) hdd']
  · intro hseal
    constructor
    · intro d hd k hk r hr
      obtain ⟨e, hstop, he⟩ := checkStop_ok hseal (hstops k hk)
      have hend := start_le_stop hc hstop
      have htrain := train_le (k := k) hc
      have hparts := parts (hasc d hd) hc k
      rw [hparts.warm, hparts.train, hparts.scored] at hr
      rcases List.mem_append.mp hr with hr | hr
      · rcases List.mem_append.mp hr with hr | hr
        · have hin := of_decide_eq_true (List.mem_filter.mp hr).2
          omega
        · have hin := of_decide_eq_true (List.mem_filter.mp hr).2
          omega
      · have hin := of_decide_eq_true (List.mem_filter.mp hr).2
        exact (hin.2 e hstop).trans_le he
    · intro data' slices' hasc' hsame h'
      obtain ⟨_, _, rfl⟩ := tiledSlices_ok h'
      refine List.map_congr_left fun k hk => ?_
      obtain ⟨e, hstop, he⟩ := checkStop_ok hseal (hstops k (List.mem_range.mp hk))
      refine map_eq_of_forall₂ hsame fun d hd d' hd' hdd' => ?_
      rw [hdd'.1, sample_eq (hasc' d' hd') hc, sample_eq (hasc d hd) hc, upTo_same hstop he hdd']

/-- How many bars the symbols of a segment have. -/
def barCounts (w : List (String × Sample)) : List ℕ := w.map fun s => s.2.series.closes.length

theorem counted {x : Except String (List (List (String × Sample)))} {k : ℕ} {n : Option (List ℕ)}
    (h : x.toOption.map (fun slices => slices[k]?.map barCounts) = some n) :
    ∃ slices, x = .ok slices ∧ slices[k]?.map barCounts = n := by
  cases x with
  | error e => cases h
  | ok slices => exact ⟨slices, rfl, Option.some.inj h⟩

/-- Two segments of ten, on a tape with gaps. -/
theorem tiled_slices_spec_two :
    let c : Tiling := ⟨2, 0, 10, 1, 1, 1, true, true⟩
    let row (ts : ℤ) : Candle := ⟨ts, 1, 1, 1, 1, 0⟩
    let data := [("BTC", [row (-2), row (-1), row 0, row 4, row 12])]
    ∃ slices, tiledSlices c data = .ok slices ∧
      ∀ d ∈ data, ∀ r ∈ d.2, c.oosStartMs ≤ r.ts → c.Before 1 r →
        ∃! k, k < c.nWindows ∧ r ∈ c.scoredPart d.2 k := by
  intro c row data
  have hc : c.Forward := ⟨by decide, by decide⟩
  have hasc : ∀ d ∈ data, Ascending Candle.ts d.2 := by
    unfold Ascending
    decide
  obtain ⟨slices, hslices, _⟩ := counted (x := tiledSlices c data) (k := 1) (n := some [1])
    (by decide +kernel)
  exact ⟨slices, hslices, fun d hd => (tiled_slices_spec c hc data hasc slices hslices).2.2.1 d hd (by decide)⟩

end

/-! ## The last segment, closed before its end -/

/-- The full segments that end by the holdout. -/
def DISCOVERY_N_WINDOWS : ℕ := ((HOLDOUT_START_MS - QUAL_OOS_START_MS) / QUAL_SEGMENT_MS).toNat

/-- A tape of the first lead-in and the last segment's first bar, and its next bar. -/
def shortTape : List Candle :=
  [⟨QUAL_TAPE_START_MS, 1, 1, 1, 1, 0⟩, ⟨QUAL_OOS_START_MS + 17 * QUAL_SEGMENT_MS, 2, 2, 2, 2, 0⟩]

def nextBar : Candle := ⟨QUAL_OOS_START_MS + 17 * QUAL_SEGMENT_MS + TF_MS_5M, 3, 3, 3, 3, 0⟩

theorem shortTape_ascending : Ascending Candle.ts (shortTape ++ [nextBar]) := by
  unfold Ascending shortTape nextBar
  decide

/-- The discovery slices of the tape: the last segment has an end, the tape has not
reached it, and the next bar comes into the segment. -/
theorem closed_last_grows :
    Ascending Candle.ts (shortTape ++ [nextBar]) ∧
    ∃ slices slices', windowSlices [("BTC", shortTape)] DISCOVERY_N_WINDOWS true = .ok slices ∧
      windowSlices [("BTC", shortTape ++ [nextBar])] DISCOVERY_N_WINDOWS true = .ok slices' ∧
      slices'[17]? ≠ slices[17]? := by
  obtain ⟨slices, hslices, hone⟩ := counted (x := windowSlices [("BTC", shortTape)] DISCOVERY_N_WINDOWS true)
    (k := 17) (n := some [1]) (by decide +kernel)
  obtain ⟨slices', hslices', htwo⟩ :=
    counted (x := windowSlices [("BTC", shortTape ++ [nextBar])] DISCOVERY_N_WINDOWS true)
      (k := 17) (n := some [2]) (by decide +kernel)
  refine ⟨shortTape_ascending, slices, slices', hslices, hslices', fun h => ?_⟩
  rw [h, hone] at htwo
  exact absurd htwo (by decide)

end PaperTrading.Signals
