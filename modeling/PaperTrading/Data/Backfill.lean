import Mathlib.Logic.Function.Basic
import PaperTrading.Data.CandleSync

/-!
# Backfilling the candle store

`backfill` of `data/candle_sync.py`: for each symbol it walks from the start to the first
stored row, from the last stored row to the last closed bar, and then through the holes
it sees, all on one budget of pages.

`backfill_completes`: with pages enough and requests that are answered, the rows from the
start to the last closed bar are then the exchange's bars, no matter how many runs were
broken off before, and no run stores a bar that has not closed. It takes stores whose
rows are the exchange's closed bars; rows that are there are not fetched again, so a
wrong one stays (`stored_rows_stay`).
-/

namespace PaperTrading.Data

open PaperTrading.Lib
open PaperTrading.Tape (Symbol)

/-- The arguments of one run; `fetch` is what the exchange answers during it. -/
structure Attempt where
  symbols : List Symbol
  startMs : ℤ
  nowMs : ℤ
  maxPages : ℕ
  pageLimit : ℕ
  fetch : Symbol → Fetch

/-- `end_ms` -/
def Attempt.endMs (a : Attempt) : ℤ := lastClosedOpenMs a.nowMs

/-- The work on one symbol: its rows, the requests made so far, the pages left, whether a
request failed (which ends the whole run), and the report. -/
structure Job where
  store : Store
  asked : ℕ
  remaining : ℕ
  failed : Bool := false
  pages : ℕ := 0
  upserted : ℕ := 0
  filled : ℕ := 0

section
variable (fetch : Fetch) (limit : ℕ)

/-- `run` -/
def Job.run (lo hi : ℤ) (j : Job) : Job :=
  if j.failed = true ∨ j.remaining = 0 ∨ hi < lo then j
  else
    let w := pageForward fetch j.store j.asked lo hi limit j.remaining
    { j with
      store := w.store
      asked := w.asked
      remaining := j.remaining - w.pages
      failed := w.failed
      pages := j.pages + w.pages
      upserted := j.upserted + w.upserted }

/-- Before the first stored row. -/
def Job.before (startMs : ℤ) (j : Job) : Job :=
  match j.store.symbolBounds with
  | some (min, _, _) => if min > startMs then j.run fetch limit startMs (min - TF_MS) else j
  | none => j

/-- After the last stored row. -/
def Job.after (endMs : ℤ) (j : Job) : Job :=
  match j.store.symbolBounds with
  | some (_, max, _) => if max < endMs then j.run fetch limit (max + TF_MS) endMs else j
  | none => j

/-- Both ends, or the whole span when there is no row. -/
def Job.ends (startMs endMs : ℤ) (j : Job) : Job :=
  match j.store.symbolBounds with
  | none => j.run fetch limit startMs endMs
  | some _ => (j.before fetch limit startMs).after fetch limit endMs

/-- One hole. -/
def Job.fill (j : Job) (gap : ℤ × ℤ) : Job :=
  let r := j.run fetch limit (gap.1 + TF_MS) (gap.2 - TF_MS)
  { r with filled := j.filled + (r.upserted - j.upserted) }

/-- The body of the loop over the symbols. Once the pages are used up the loop over the
holes stops; here the rest of it does nothing. -/
def Job.backfill (startMs endMs : ℤ) (j : Job) : Job :=
  (j.ends fetch limit startMs endMs).store.gapEdges.foldl (Job.fill fetch limit)
    (j.ends fetch limit startMs endMs)

end

/-- The table, by symbol, and the state of a run. -/
structure Sync where
  stores : Symbol → Store
  asked : ℕ := 0
  failed : Bool := false

/-- One symbol of a run. -/
def Sync.backfillSymbol (a : Attempt) (s : Sync) (sym : Symbol) : Sync :=
  if s.failed then s
  else
    let j := Job.backfill (a.fetch sym) a.pageLimit a.startMs a.endMs
      { store := s.stores sym, asked := s.asked, remaining := a.maxPages }
    { stores := Function.update s.stores sym j.store, asked := j.asked, failed := j.failed }

/-- `backfill` -/
def backfill (a : Attempt) (stores : Symbol → Store) : Sync :=
  a.symbols.foldl (Sync.backfillSymbol a) { stores := stores }

/-! ## One stretch -/

/-- What a part of the work on a symbol does, by at most `n` walks. -/
structure Grew (X : Exchange) (e : ℤ) (n : ℕ) (j j' : Job) : Prop where
  stores : Extends X e j.store j'.store
  remaining : j'.remaining ≤ j.remaining
  failed : j.failed = true → j'.failed = true
  cost : j'.failed = false → j.remaining ≤ j'.remaining + n * (1 + X.bars.length)

section
variable {X : Exchange} {e : ℤ} {fetch : Fetch} {limit : ℕ}

theorem Grew.refl (X : Exchange) (e : ℤ) (n : ℕ) (j : Job) : Grew X e n j j where
  stores := Extends.refl _ _ _
  remaining := Nat.le_refl _
  failed := fun h => h
  cost := fun _ => Nat.le_add_right _ _

theorem Grew.trans {m n : ℕ} {j j' j'' : Job} (h : Grew X e m j j') (h' : Grew X e n j' j'') :
    Grew X e (m + n) j j'' where
  stores := h.stores.trans h'.stores
  remaining := Nat.le_trans h'.remaining h.remaining
  failed := fun hj => h'.failed (h.failed hj)
  cost := by
    intro hj
    have hj' : j'.failed = false := by
      cases hf : j'.failed with
      | false => rfl
      | true => rw [h'.failed hf] at hj; cases hj
    have h₁ := h.cost hj'
    have h₂ := h'.cost hj
    rw [Nat.add_mul]
    omega

/-- A part of the work that ends with pages left was under way with pages left. -/
theorem Grew.ok {n : ℕ} {j j' : Job} (h : Grew X e n j j')
    (hok : j'.failed = false ∧ 0 < j'.remaining) : j.failed = false ∧ 0 < j.remaining := by
  refine ⟨?_, Nat.lt_of_lt_of_le hok.2 h.remaining⟩
  cases hf : j.failed with
  | false => rfl
  | true => rw [h.failed hf] at hok; cases hok.1

theorem run_grew (hfetch : Honest X e fetch) (hlimit : 0 < limit) (lo : ℤ) {hi : ℤ} (hhi : hi ≤ e)
    (j : Job) : Grew X e 1 j (j.run fetch limit lo hi) := by
  unfold Job.run
  split
  next => exact Grew.refl _ _ _ _
  next hgo =>
    rw [not_or, not_or] at hgo
    have hpages := loop_pages fetch hi limit j.remaining
      { store := j.store, asked := j.asked, nextOpenMs := lo }
    refine ⟨(loop_extends hfetch hhi hlimit _ _).mono hhi, Nat.sub_le _ _, ?_, ?_⟩
    · intro hf
      exact absurd hf hgo.1
    · intro hf
      have hbound := (loop_complete hfetch hhi hlimit j.remaining
        { store := j.store, asked := j.asked, nextOpenMs := lo } rfl hf).1
      have hcount := X.count_le lo hi
      show j.remaining ≤ j.remaining - (pageForward fetch j.store j.asked lo hi limit _).pages + _
      unfold pageForward
      simp only at hbound hpages ⊢
      omega

theorem run_complete (hfetch : Honest X e fetch) (hlimit : 0 < limit) {lo hi : ℤ} (hhi : hi ≤ e)
    {j : Job} (hok : (j.run fetch limit lo hi).failed = false ∧ 0 < (j.run fetch limit lo hi).remaining) :
    Complete X lo hi (j.run fetch limit lo hi).store := by
  have hstart := (run_grew hfetch hlimit lo hhi j).ok hok
  unfold Job.run at hok ⊢
  split at hok
  next hstop =>
    -- no walk: nothing failed and pages are left, so the span is empty
    have hempty : hi < lo := by
      rcases hstop with hf | hz | hlt
      · rw [hstart.1] at hf; cases hf
      · omega
      · exact hlt
    rw [if_pos (Or.inr (Or.inr hempty))]
    exact fun ts b hlo hts _ => absurd (hlo.trans hts) (not_le_of_gt hempty)
  next hgo =>
    rw [if_neg hgo]
    refine (loop_complete hfetch hhi hlimit j.remaining
      { store := j.store, asked := j.asked, nextOpenMs := lo } rfl hok.1).2 ?_
    have hleft := hok.2
    show (pageForward fetch j.store j.asked lo hi limit j.remaining).pages < 0 + j.remaining
    simp only at hleft
    omega

end

/-! ## What the store has -/

theorem mem_opens {s : Store} {ts : ℤ} : ts ∈ s.opens ↔ ∃ b, s.get? ts = some b := by
  unfold Store.opens
  rw [List.mem_insertionSort]
  exact Dict.mem_keys

theorem opens_ascending (s : Store) : s.opens.Pairwise (· < ·) := by
  have hle : s.opens.Pairwise (· ≤ ·) := List.pairwise_insertionSort _ _
  have hne : s.opens.Nodup := (List.perm_insertionSort _ _).nodup_iff.mpr s.keys_nodup
  exact (hle.and hne).imp fun h => lt_of_le_of_ne h.1 h.2

theorem opens_nil {s : Store} (h : s.symbolBounds = none) : s.opens = [] := by
  unfold Store.symbolBounds at h
  split at h
  next => cases h
  next hnot =>
    cases hopens : s.opens with
    | nil => rfl
    | cons t ts =>
      rw [hopens] at hnot
      exact absurd (List.getLast?_cons ..) (hnot t _ rfl)

theorem symbolBounds_spec {s : Store} {min max : ℤ} {n : ℕ} (h : s.symbolBounds = some (min, max, n)) :
    (min ∈ s.opens ∧ max ∈ s.opens) ∧ ∀ ts ∈ s.opens, min ≤ ts ∧ ts ≤ max := by
  unfold Store.symbolBounds at h
  split at h
  next lo hi hlo hhi =>
    obtain ⟨rfl, rfl, _⟩ : lo = min ∧ hi = max ∧ s.opens.length = n := by simpa using h
    have hasc := opens_ascending s
    refine ⟨⟨List.mem_of_head? hlo, List.mem_of_getLast? hhi⟩, fun ts hts => ⟨?_, ?_⟩⟩
    · obtain ⟨rest, hrest⟩ := List.head?_eq_some_iff.mp hlo
      rw [hrest] at hts hasc
      rcases List.mem_cons.mp hts with rfl | hts
      · exact le_refl _
      · exact le_of_lt ((List.pairwise_cons.mp hasc).1 ts hts)
    · obtain ⟨rest, hrest⟩ := List.getLast?_eq_some_iff.mp hhi
      rw [hrest] at hts hasc
      rcases List.mem_append.mp hts with hts | hts
      · exact le_of_lt ((List.pairwise_append.mp hasc).2.2 ts hts hi (List.mem_singleton_self hi))
      · exact le_of_eq (List.mem_singleton.mp hts)
  next => cases h

/-- The rows of a symbol open on the grid, and no later than `e`. -/
structure OnGrid (e : ℤ) (s : Store) : Prop where
  closed : ∀ ts b, s.get? ts = some b → ts ≤ e
  grid : ∀ ts b, s.get? ts = some b → ts % TF_MS = 0

/-- From the start on the rows are the exchange's bars. -/
def TrueFrom (X : Exchange) (startMs : ℤ) (s : Store) : Prop :=
  ∀ ts b, s.get? ts = some b → startMs ≤ ts → X.bar? ts = some b

theorem onGrid_empty (e : ℤ) : OnGrid e .empty where
  closed := fun _ _ h => by cases h
  grid := fun _ _ h => by cases h

theorem trueFrom_empty (X : Exchange) (startMs : ℤ) : TrueFrom X startMs .empty :=
  fun _ _ h => by cases h

theorem bar?_grid {X : Exchange} {ts : ℤ} {b : Candle} (h : X.bar? ts = some b) : ts % TF_MS = 0 := by
  obtain ⟨r, hr, rfl, _⟩ := bar?_eq_some.mp h
  exact X.onGrid r hr

theorem OnGrid.grows {X : Exchange} {e : ℤ} {s s' : Store} (h : OnGrid e s)
    (he : Extends X e s s') : OnGrid e s' where
  closed := by
    intro ts b hb
    rcases he ts with heq | hnew
    · exact h.closed ts b (heq ▸ hb)
    · exact hnew.1
  grid := by
    intro ts b hb
    rcases he ts with heq | ⟨_, b', hb', _⟩
    · exact h.grid ts b (heq ▸ hb)
    · exact bar?_grid hb'

theorem TrueFrom.grows {X : Exchange} {startMs e : ℤ} {s s' : Store} (h : TrueFrom X startMs s)
    (he : Extends X e s s') : TrueFrom X startMs s' := by
  intro ts b hb hstart
  rcases he ts with heq | ⟨_, b', hb', hget⟩
  · exact h ts b (heq ▸ hb) hstart
  · rw [hb', ← hget, hb]

theorem OnGrid.mono {e e' : ℤ} {s : Store} (h : OnGrid e s) (he : e ≤ e') : OnGrid e' s :=
  { h with closed := fun ts b hb => (h.closed ts b hb).trans he }

theorem OnGrid.le_of_mem {e ts : ℤ} {s : Store} (h : OnGrid e s) (hts : ts ∈ s.opens) : ts ≤ e := by
  obtain ⟨b, hb⟩ := mem_opens.mp hts
  exact h.closed ts b hb

theorem OnGrid.grid_of_mem {e ts : ℤ} {s : Store} (h : OnGrid e s) (hts : ts ∈ s.opens) :
    ts % TF_MS = 0 := by
  obtain ⟨b, hb⟩ := mem_opens.mp hts
  exact h.grid ts b hb

/-- Rows are replaced, never deleted. -/
theorem Extends.opens {X : Exchange} {e ts : ℤ} {s s' : Store} (he : Extends X e s s')
    (hts : ts ∈ s.opens) : ts ∈ s'.opens := by
  obtain ⟨b, hb⟩ := mem_opens.mp hts
  rcases he ts with heq | ⟨_, b', _, hget⟩
  · exact mem_opens.mpr ⟨b, heq.trans hb⟩
  · exact mem_opens.mpr ⟨b', hget⟩

/-- A bar that is there as the exchange has it stays. -/
theorem Extends.keeps {X : Exchange} {e ts : ℤ} {b : Candle} {s s' : Store} (he : Extends X e s s')
    (hb : X.bar? ts = some b) (hget : s.get? ts = some b) : s'.get? ts = some b := by
  rcases he ts with heq | ⟨_, b', hb', hnew⟩
  · rw [heq, hget]
  · rw [hnew, ← hb', hb]

/-- Times on the grid are a bar apart. -/
theorem grid_gap {a b : ℤ} (ha : a % TF_MS = 0) (hb : b % TF_MS = 0) (h : a < b) : a + TF_MS ≤ b := by
  unfold TF_MS at *
  omega

/-! ## Both ends -/

section
variable {X : Exchange} {e : ℤ} {fetch : Fetch} {limit : ℕ} {startMs : ℤ}

theorem before_grew (hfetch : Honest X e fetch) (hlimit : 0 < limit) {j : Job}
    (hj : OnGrid e j.store) (startMs : ℤ) : Grew X e 1 j (j.before fetch limit startMs) := by
  unfold Job.before
  split
  next min max n hb =>
    split
    next =>
      refine run_grew hfetch hlimit _ ?_ j
      have hmin := hj.le_of_mem (symbolBounds_spec hb).1.1
      unfold TF_MS
      omega
    next => exact Grew.refl _ _ _ _
  next => exact Grew.refl _ _ _ _

theorem after_grew (hfetch : Honest X e fetch) (hlimit : 0 < limit) (j : Job) :
    Grew X e 1 j (j.after fetch limit e) := by
  unfold Job.after
  split
  next =>
    split
    next => exact run_grew hfetch hlimit _ (le_refl e) j
    next => exact Grew.refl _ _ _ _
  next => exact Grew.refl _ _ _ _

theorem ends_grew (hfetch : Honest X e fetch) (hlimit : 0 < limit) {j : Job}
    (hj : OnGrid e j.store) (startMs : ℤ) : Grew X e 2 j (j.ends fetch limit startMs e) := by
  unfold Job.ends
  split
  next => exact (run_grew hfetch hlimit _ (le_refl e) j).trans (Grew.refl X e 1 _)
  next => exact (before_grew hfetch hlimit hj startMs).trans (after_grew hfetch hlimit _)

/-- Before the first row the walk has brought everything from the start. -/
theorem before_complete (hfetch : Honest X e fetch) (hlimit : 0 < limit) {j : Job}
    (hj : OnGrid e j.store) {min max : ℤ} {n : ℕ}
    (hbounds : j.store.symbolBounds = some (min, max, n))
    (hok : (j.before fetch limit startMs).failed = false ∧ 0 < (j.before fetch limit startMs).remaining)
    {ts : ℤ} {b : Candle} (hstart : startMs ≤ ts) (hlt : ts < min) (hb : X.bar? ts = some b) :
    (j.before fetch limit startMs).store.get? ts = some b := by
  have hmin := (symbolBounds_spec hbounds).1.1
  have hgap := grid_gap (bar?_grid hb) (hj.grid_of_mem hmin) hlt
  have hle := hj.le_of_mem hmin
  unfold Job.before at hok ⊢
  rw [hbounds] at hok ⊢
  have hgt : min > startMs := by omega
  simp only [if_pos hgt] at hok ⊢
  exact run_complete hfetch hlimit (by unfold TF_MS; omega) hok ts b hstart (by omega) hb

/-- After the last row the walk has brought everything to the last closed bar. -/
theorem after_complete (hfetch : Honest X e fetch) (hlimit : 0 < limit) {j : Job}
    (hj : OnGrid e j.store) {min max : ℤ} {n : ℕ}
    (hbounds : j.store.symbolBounds = some (min, max, n))
    (hok : (j.after fetch limit e).failed = false ∧ 0 < (j.after fetch limit e).remaining)
    {ts : ℤ} {b : Candle} (hgt : max < ts) (hend : ts ≤ e) (hb : X.bar? ts = some b) :
    (j.after fetch limit e).store.get? ts = some b := by
  have hmax := (symbolBounds_spec hbounds).1.2
  have hgap := grid_gap (hj.grid_of_mem hmax) (bar?_grid hb) hgt
  unfold Job.after at hok ⊢
  rw [hbounds] at hok ⊢
  have hlt : max < e := by omega
  simp only [if_pos hlt] at hok ⊢
  exact run_complete hfetch hlimit (le_refl e) hok ts b hgap hend hb

/-- After both ends, what is still missing lies between two rows. -/
theorem ends_complete (hfetch : Honest X e fetch) (hlimit : 0 < limit) {j : Job}
    (hj : OnGrid e j.store) (hbars : TrueFrom X startMs j.store)
    (hok : (j.ends fetch limit startMs e).failed = false ∧ 0 < (j.ends fetch limit startMs e).remaining)
    {ts : ℤ} {b : Candle} (hstart : startMs ≤ ts) (hend : ts ≤ e) (hb : X.bar? ts = some b) :
    (j.ends fetch limit startMs e).store.get? ts = some b ∨
      ∃ lo ∈ (j.ends fetch limit startMs e).store.opens,
        ∃ hi ∈ (j.ends fetch limit startMs e).store.opens, lo < ts ∧ ts < hi ∧
          ts ∉ (j.ends fetch limit startMs e).store.opens := by
  unfold Job.ends at hok ⊢
  cases hbounds : j.store.symbolBounds with
  | none =>
    simp only [hbounds] at hok ⊢
    exact Or.inl (run_complete hfetch hlimit (le_refl e) hok ts b hstart hend hb)
  | some bounds =>
    obtain ⟨min, max, n⟩ := bounds
    simp only [hbounds] at hok ⊢
    have hbefore := before_grew hfetch hlimit hj startMs
    have hafter := after_grew hfetch hlimit (j.before fetch limit startMs)
    have hj₁ := hj.grows hbefore.stores
    have hbars₂ := (hbars.grows hbefore.stores).grows hafter.stores
    by_cases hlt : ts < min
    · have hget := before_complete hfetch hlimit hj hbounds (hafter.ok hok) hstart hlt hb
      exact Or.inl (hafter.stores.keeps hb hget)
    · have hmin := hbefore.stores.opens (symbolBounds_spec hbounds).1.1
      cases hbounds₁ : (j.before fetch limit startMs).store.symbolBounds with
      | none => rw [opens_nil hbounds₁] at hmin; cases hmin
      | some bounds₁ =>
        obtain ⟨min₁, max₁, n₁⟩ := bounds₁
        by_cases hgt : max₁ < ts
        · exact Or.inl (after_complete hfetch hlimit hj₁ hbounds₁ hok hgt hend hb)
        · by_cases hmem : ts ∈ ((j.before fetch limit startMs).after fetch limit e).store.opens
          · obtain ⟨b', hb'⟩ := mem_opens.mp hmem
            have hsame := hbars₂ ts b' hb' hstart
            rw [hb] at hsame
            exact Or.inl (by rw [hb', ← hsame])
          · have hmin₂ := hafter.stores.opens hmin
            have hmax₂ := hafter.stores.opens (symbolBounds_spec hbounds₁).1.2
            have hne₁ : min ≠ ts := fun h => hmem (h ▸ hmin₂)
            have hne₂ : max₁ ≠ ts := fun h => hmem (h ▸ hmax₂)
            exact Or.inr ⟨min, hmin₂, max₁, hmax₂, by omega, by omega, hmem⟩

/-! ## The holes -/

theorem fill_grew (hfetch : Honest X e fetch) (hlimit : 0 < limit) (j : Job) {gap : ℤ × ℤ}
    (hgap : gap.2 ≤ e) : Grew X e 1 j (j.fill fetch limit gap) := by
  have hhi : gap.2 - TF_MS ≤ e := by
    unfold TF_MS
    omega
  have hrun := run_grew hfetch hlimit (gap.1 + TF_MS) hhi j
  exact ⟨hrun.stores, hrun.remaining, hrun.failed, hrun.cost⟩

theorem fills_grew (hfetch : Honest X e fetch) (hlimit : 0 < limit) : ∀ (gaps : List (ℤ × ℤ))
    (j : Job), (∀ gap ∈ gaps, gap.2 ≤ e) →
    Grew X e gaps.length j (gaps.foldl (Job.fill fetch limit) j) := by
  intro gaps
  induction gaps with
  | nil => intro j _; exact Grew.refl _ _ _ _
  | cons gap gaps ih =>
    intro j hgaps
    rw [List.foldl_cons, List.length_cons, Nat.add_comm]
    exact (fill_grew hfetch hlimit j (hgaps gap List.mem_cons_self)).trans
      (ih _ fun g hg => hgaps g (List.mem_cons_of_mem _ hg))

theorem fills_complete (hfetch : Honest X e fetch) (hlimit : 0 < limit) : ∀ (gaps : List (ℤ × ℤ))
    (j : Job), (∀ gap ∈ gaps, gap.2 ≤ e) →
    (gaps.foldl (Job.fill fetch limit) j).failed = false ∧
      0 < (gaps.foldl (Job.fill fetch limit) j).remaining →
    ∀ gap ∈ gaps, Complete X (gap.1 + TF_MS) (gap.2 - TF_MS)
      (gaps.foldl (Job.fill fetch limit) j).store := by
  intro gaps
  induction gaps with
  | nil => intro j _ _ gap hgap; cases hgap
  | cons gap gaps ih =>
    intro j hgaps hok g hg
    have hrest : ∀ g ∈ gaps, g.2 ≤ e := fun g hg => hgaps g (List.mem_cons_of_mem _ hg)
    rw [List.foldl_cons] at hok ⊢
    rcases List.mem_cons.mp hg with rfl | hg
    · have hgrew := fills_grew hfetch hlimit gaps (j.fill fetch limit g) hrest
      have hle := hgaps g List.mem_cons_self
      have hdone : Complete X (g.1 + TF_MS) (g.2 - TF_MS) (j.fill fetch limit g).store :=
        run_complete hfetch hlimit (by unfold TF_MS; omega) (hgrew.ok hok)
      exact hdone.extends hgrew.stores
    · exact ih _ hrest hok g hg

/-! ## One symbol -/

theorem gapEdges_le {s : Store} (hs : OnGrid e s) : ∀ gap ∈ s.gapEdges, gap.2 ≤ e := by
  intro gap hgap
  exact hs.le_of_mem (mem_of_mem_steps (List.mem_filter.mp hgap).1).2

theorem length_gapEdges_le {s : Store} {K : List ℤ} (hK : s.opens ⊆ K) : s.gapEdges.length ≤ K.length := by
  have hnodup : s.opens.Nodup := (opens_ascending s).imp ne_of_lt
  exact ((List.length_filter_le _ _).trans (length_steps_le _)).trans
    (List.subperm_of_subset hnodup hK).length_le

theorem backfillJob_grew (hfetch : Honest X e fetch) (hlimit : 0 < limit) {j : Job} {K : List ℤ}
    (hj : OnGrid e j.store) (startMs : ℤ)
    (hK : (j.ends fetch limit startMs e).store.opens ⊆ K) :
    Grew X e (2 + K.length) j (j.backfill fetch limit startMs e) := by
  have hends := ends_grew hfetch hlimit hj startMs
  have hfills := fills_grew hfetch hlimit (j.ends fetch limit startMs e).store.gapEdges
    (j.ends fetch limit startMs e) (gapEdges_le (hj.grows hends.stores))
  have hboth := hends.trans hfills
  refine ⟨hboth.stores, hboth.remaining, hboth.failed, fun hf => (hboth.cost hf).trans ?_⟩
  have hlen := length_gapEdges_le hK
  exact Nat.add_le_add_left (Nat.mul_le_mul_right _ (by omega)) _

/-- With pages left, a symbol's rows from the start on are the exchange's. -/
theorem backfillJob_complete (hfetch : Honest X e fetch) (hlimit : 0 < limit) {j : Job}
    (hj : OnGrid e j.store) (hbars : TrueFrom X startMs j.store)
    (hok : (j.backfill fetch limit startMs e).failed = false ∧
      0 < (j.backfill fetch limit startMs e).remaining) :
    Complete X startMs e (j.backfill fetch limit startMs e).store := by
  intro ts b hstart hend hb
  have hends := ends_grew hfetch hlimit hj startMs
  have htape := hj.grows hends.stores
  have hgaps := gapEdges_le htape
  have hfills := fills_grew hfetch hlimit _ (j.ends fetch limit startMs e) hgaps
  rcases ends_complete hfetch hlimit hj hbars (hfills.ok hok) hstart hend hb with hget | hbetween
  · exact hfills.stores.keeps hb hget
  · obtain ⟨lo, hlo, hi, hhi, hlt, hgt, hmem⟩ := hbetween
    obtain ⟨gap, hgap, hin⟩ := exists_step (opens_ascending _) hlo hhi hlt hgt hmem
    have hside := mem_of_mem_steps hgap
    have hleft := grid_gap (htape.grid_of_mem hside.1) (bar?_grid hb) hin.1
    have hright := grid_gap (bar?_grid hb) (htape.grid_of_mem hside.2) hin.2
    have hedge : gap ∈ (j.ends fetch limit startMs e).store.gapEdges := by
      refine List.mem_filter.mpr ⟨hgap, decide_eq_true ?_⟩
      unfold TF_MS at *
      omega
    exact fills_complete hfetch hlimit _ _ hgaps hok gap hedge ts b hleft (by omega) hb

end

/-! ## All symbols -/

/-- What the rows of each symbol are before and after a part of a run. -/
def Grows (X : Symbol → Exchange) (e : ℤ) (s s' : Symbol → Store) : Prop :=
  ∀ sym, Extends (X sym) e (s sym) (s' sym)

/-- Pages that are enough for a symbol whose rows and bars are at times of `K`. -/
def enoughPages (X : Exchange) (K : List ℤ) : ℕ := (2 + K.length) * (1 + X.bars.length) + 1

/-- The rows, and the bars that may come, are at times of `K`. -/
def Within (X : Exchange) (K : List ℤ) (s : Store) : Prop := s.opens ⊆ K ∧ X.bars.map Row.ts ⊆ K

theorem Within.grows {X : Exchange} {e : ℤ} {s s' : Store} {K : List ℤ} (h : Within X K s)
    (he : Extends X e s s') : Within X K s' := by
  refine ⟨fun ts hts => ?_, h.2⟩
  obtain ⟨b, hb⟩ := mem_opens.mp hts
  rcases he ts with heq | ⟨_, b', hb', _⟩
  · exact h.1 (mem_opens.mpr ⟨b, heq ▸ hb⟩)
  · obtain ⟨r, hr, hrt, _⟩ := bar?_eq_some.mp hb'
    exact h.2 (hrt ▸ List.mem_map_of_mem hr)

/-- What a run relies on: honest answers, and pages that hold something. -/
structure Served (X : Symbol → Exchange) (a : Attempt) : Prop where
  honest : ∀ sym, Honest (X sym) a.endMs (a.fetch sym)
  limit : 0 < a.pageLimit

section
variable {X : Symbol → Exchange} {a : Attempt}

/-- Nothing but the exchange's bars comes in. -/
theorem backfillSymbol_grows (ha : Served X a) {s : Sync} (sym : Symbol)
    (hgrid : ∀ sym, OnGrid a.endMs (s.stores sym)) :
    Grows X a.endMs s.stores (s.backfillSymbol a sym).stores := by
  unfold Sync.backfillSymbol
  split
  next => exact fun _ => Extends.refl _ _ _
  next =>
    intro sym'
    show Extends _ _ _ (Function.update s.stores sym _ sym')
    by_cases hsym : sym' = sym
    · rw [hsym, Function.update_self]
      exact (backfillJob_grew (ha.honest sym) ha.limit (hgrid sym) a.startMs (List.Subset.refl _)).stores
    · rw [Function.update_of_ne hsym]
      exact Extends.refl _ _ _

theorem backfillSymbol_failed {s : Sync} {sym : Symbol}
    (h : (s.backfillSymbol a sym).failed = false) : s.failed = false := by
  cases hf : s.failed with
  | false => rfl
  | true =>
    unfold Sync.backfillSymbol at h
    rw [if_pos hf, hf] at h
    cases h

/-- With pages enough the symbol is complete. -/
theorem backfillSymbol_complete (ha : Served X a) {s : Sync} {sym : Symbol} {K : List ℤ}
    (hgrid : OnGrid a.endMs (s.stores sym)) (hbars : TrueFrom (X sym) a.startMs (s.stores sym))
    (hK : Within (X sym) K (s.stores sym)) (henough : enoughPages (X sym) K ≤ a.maxPages)
    (hdone : (s.backfillSymbol a sym).failed = false) :
    Complete (X sym) a.startMs a.endMs ((s.backfillSymbol a sym).stores sym) := by
  have hs := backfillSymbol_failed hdone
  unfold Sync.backfillSymbol at hdone ⊢
  rw [if_neg (by rw [hs]; decide)] at hdone ⊢
  show Complete _ _ _ (Function.update s.stores sym _ sym)
  rw [Function.update_self]
  have hends := ends_grew (ha.honest sym) ha.limit
    (j := { store := s.stores sym, asked := s.asked, remaining := a.maxPages }) hgrid a.startMs
  have hgrew := backfillJob_grew (ha.honest sym) ha.limit
    (j := { store := s.stores sym, asked := s.asked, remaining := a.maxPages }) hgrid a.startMs
    (hK.grows hends.stores).1
  have hcost := hgrew.cost hdone
  unfold enoughPages at henough
  exact backfillJob_complete (ha.honest sym) ha.limit hgrid hbars ⟨hdone, by simp only at hcost; omega⟩

/-- A run, symbol by symbol. -/
theorem symbols_grow (ha : Served X a) : ∀ (syms : List Symbol) (s : Sync),
    (∀ sym, OnGrid a.endMs (s.stores sym)) →
    Grows X a.endMs s.stores (syms.foldl (Sync.backfillSymbol a) s).stores := by
  intro syms
  induction syms with
  | nil => intro s _ sym; exact Extends.refl _ _ _
  | cons sym syms ih =>
    intro s hgrid sym'
    have hone := backfillSymbol_grows ha sym hgrid
    exact (hone sym').trans (ih _ (fun sym => (hgrid sym).grows (hone sym)) sym')

theorem symbols_failed : ∀ (syms : List Symbol) (s : Sync),
    (syms.foldl (Sync.backfillSymbol a) s).failed = false → s.failed = false := by
  intro syms
  induction syms with
  | nil => intro s h; exact h
  | cons sym syms ih => intro s h; exact backfillSymbol_failed (ih _ h)

theorem symbols_complete (ha : Served X a) {K : Symbol → List ℤ}
    (henough : ∀ sym, enoughPages (X sym) (K sym) ≤ a.maxPages) : ∀ (syms : List Symbol) (s : Sync),
    (∀ sym, OnGrid a.endMs (s.stores sym)) → (∀ sym, TrueFrom (X sym) a.startMs (s.stores sym)) →
    (∀ sym, Within (X sym) (K sym) (s.stores sym)) →
    (syms.foldl (Sync.backfillSymbol a) s).failed = false →
    ∀ sym ∈ syms, Complete (X sym) a.startMs a.endMs
      ((syms.foldl (Sync.backfillSymbol a) s).stores sym) := by
  intro syms
  induction syms with
  | nil => intro s _ _ _ _ sym hsym; cases hsym
  | cons sym syms ih =>
    intro s hgrid hbars hK hdone sym' hsym'
    have hone := backfillSymbol_grows ha sym hgrid
    have hgrid' := fun sym => (hgrid sym).grows (hone sym)
    rcases List.mem_cons.mp hsym' with rfl | hsym'
    · have hcomplete := backfillSymbol_complete ha (hgrid sym') (hbars sym') (hK sym')
        (henough sym') (symbols_failed syms _ hdone)
      exact hcomplete.extends (symbols_grow ha syms _ hgrid' sym')
    · exact ih _ hgrid' (fun sym => (hbars sym).grows (hone sym))
        (fun sym => (hK sym).grows (hone sym)) hdone sym' hsym'

end

/-! ## Requests that are answered -/

/-- No request fails for good. -/
def Answered (fetch : Fetch) : Prop := ∀ n since limit, (fetch n since limit).isSome = true

section
variable {fetch : Fetch} {limit : ℕ}

theorem turn_answered (h : Answered fetch) (hi : ℤ) (w : Walk) :
    (w.turn fetch hi limit).1.failed = w.failed := by
  unfold Walk.turn
  split
  next hnone =>
    have hsome := h w.asked w.nextOpenMs limit
    rw [hnone] at hsome
    cases hsome
  next =>
    split
    next => rfl
    next =>
      split
      next => rfl
      next => rfl

theorem loop_answered (h : Answered fetch) (hi : ℤ) : ∀ (left : ℕ) (w : Walk),
    (w.loop fetch hi limit left).failed = w.failed := by
  intro left
  induction left with
  | zero => intro w; rfl
  | succ left ih =>
    intro w
    unfold Walk.loop
    split
    next =>
      split
      next => rw [ih, turn_answered h]
      next => exact turn_answered h hi w
    next => rfl

theorem run_answered (h : Answered fetch) (lo hi : ℤ) {j : Job} (hj : j.failed = false) :
    (j.run fetch limit lo hi).failed = false := by
  unfold Job.run
  split
  next => exact hj
  next => exact loop_answered h hi _ _

theorem ends_answered (h : Answered fetch) (startMs e : ℤ) {j : Job} (hj : j.failed = false) :
    (j.ends fetch limit startMs e).failed = false := by
  have hbefore : (j.before fetch limit startMs).failed = false := by
    unfold Job.before
    split
    next =>
      split
      next => exact run_answered h _ _ hj
      next => exact hj
    next => exact hj
  unfold Job.ends
  split
  next => exact run_answered h _ _ hj
  next =>
    unfold Job.after
    split
    next =>
      split
      next => exact run_answered h _ _ hbefore
      next => exact hbefore
    next => exact hbefore

theorem fills_answered (h : Answered fetch) : ∀ (gaps : List (ℤ × ℤ)) (j : Job), j.failed = false →
    (gaps.foldl (Job.fill fetch limit) j).failed = false := by
  intro gaps
  induction gaps with
  | nil => intro j hj; exact hj
  | cons gap gaps ih => intro j hj; exact ih _ (run_answered h _ _ hj)

end

/-- A run whose requests are answered is not broken off. -/
theorem symbols_answered {a : Attempt} (h : ∀ sym, Answered (a.fetch sym)) : ∀ (syms : List Symbol)
    (s : Sync), s.failed = false → (syms.foldl (Sync.backfillSymbol a) s).failed = false := by
  intro syms
  induction syms with
  | nil => intro s hs; exact hs
  | cons sym syms ih =>
    intro s hs
    refine ih _ ?_
    unfold Sync.backfillSymbol
    rw [if_neg (by rw [hs]; decide)]
    exact fills_answered (h sym) _ _ (ends_answered (h sym) _ _ rfl)

/-! ## Runs -/

/-- One run after another; each may have been broken off. -/
def runs (attempts : List Attempt) (stores : Symbol → Store) : Symbol → Store :=
  attempts.foldl (fun s a => (backfill a s).stores) stores

theorem lastClosedOpenMs_mono {t t' : ℤ} (h : t ≤ t') : lastClosedOpenMs t ≤ lastClosedOpenMs t' := by
  unfold lastClosedOpenMs TF_MS
  omega

/-- The time of the last of the runs. -/
def clock (t₀ : ℤ) (attempts : List Attempt) : ℤ := attempts.foldl (fun _ a => a.nowMs) t₀

/-- Runs one after another keep the rows on the grid and closed, and the exchange's. -/
theorem runs_keep {X : Symbol → Exchange} {startMs : ℤ} {K : Symbol → List ℤ} :
    ∀ (attempts : List Attempt) (t₀ : ℤ) (stores : Symbol → Store),
      (∀ a ∈ attempts, Served X a) →
      (t₀ :: attempts.map Attempt.nowMs).Pairwise (· ≤ ·) →
      (∀ sym, OnGrid (lastClosedOpenMs t₀) (stores sym)) →
      (∀ sym, TrueFrom (X sym) startMs (stores sym)) →
      (∀ sym, Within (X sym) (K sym) (stores sym)) →
      (∀ sym, OnGrid (lastClosedOpenMs (clock t₀ attempts)) (runs attempts stores sym)) ∧
        (∀ sym, TrueFrom (X sym) startMs (runs attempts stores sym)) ∧
        ∀ sym, Within (X sym) (K sym) (runs attempts stores sym) := by
  intro attempts
  induction attempts with
  | nil => intro t₀ stores _ _ hgrid hbars hK; exact ⟨hgrid, hbars, hK⟩
  | cons a attempts ih =>
    intro t₀ stores hserved htime hgrid hbars hK
    obtain ⟨hfirst, htime⟩ := List.pairwise_cons.mp htime
    have hle := lastClosedOpenMs_mono (hfirst a.nowMs List.mem_cons_self)
    have hgrow := symbols_grow (hserved a List.mem_cons_self) a.symbols { stores := stores }
      fun sym => (hgrid sym).mono hle
    exact ih a.nowMs _ (fun r hr => hserved r (List.mem_cons_of_mem _ hr)) htime
      (fun sym => ((hgrid sym).mono hle).grows (hgrow sym))
      (fun sym => (hbars sym).grows (hgrow sym)) fun sym => (hK sym).grows (hgrow sym)

theorem clock_le {attempts : List Attempt} {a : Attempt} : ∀ {t₀ : ℤ},
    (t₀ :: (attempts ++ [a]).map Attempt.nowMs).Pairwise (· ≤ ·) → clock t₀ attempts ≤ a.nowMs := by
  induction attempts with
  | nil => intro t₀ h; exact (List.pairwise_cons.mp h).1 a.nowMs List.mem_cons_self
  | cons b attempts ih => intro t₀ h; exact ih (List.pairwise_cons.mp h).2

/-- Runs broken off anywhere store no bar that has not closed; a run after them with
pages enough, and answers to its requests, leaves each symbol with exactly the exchange's
closed bars from the start on; and a walk ends whatever it is sent. -/
theorem backfill_completes (X : Symbol → Exchange) (stores : Symbol → Store) (t₀ : ℤ)
    (attempts : List Attempt) (a : Attempt)
    (hgrid : ∀ sym, OnGrid (lastClosedOpenMs t₀) (stores sym))
    (hbars : ∀ sym, TrueFrom (X sym) a.startMs (stores sym))
    (hserved : ∀ r ∈ attempts ++ [a], Served X r)
    (htime : (t₀ :: (attempts ++ [a]).map Attempt.nowMs).Pairwise (· ≤ ·))
    (hanswered : ∀ sym, Answered (a.fetch sym)) :
    (∀ sym ts b, (runs attempts stores sym).get? ts = some b →
      ts + TF_MS ≤ clock t₀ attempts) ∧
    (∃ enough, ∀ maxPages, enough ≤ maxPages → ∀ sym ∈ a.symbols, ∀ ts, a.startMs ≤ ts →
      ts ≤ a.endMs →
      ((backfill { a with maxPages := maxPages } (runs attempts stores)).stores sym).get? ts =
        (X sym).bar? ts) ∧
    ∀ fetch store asked lo hi limit maxPages,
      (pageForward fetch store asked lo hi limit maxPages).pages ≤ (hi + 1 - lo).toNat := by
  let K : Symbol → List ℤ := fun sym => (stores sym).opens ++ (X sym).bars.map Row.ts
  have hK : ∀ sym, Within (X sym) (K sym) (stores sym) := fun sym =>
    ⟨List.subset_append_left _ _, List.subset_append_right _ _⟩
  have htime' : (t₀ :: attempts.map Attempt.nowMs).Pairwise (· ≤ ·) := by
    rw [List.map_append, ← List.cons_append] at htime
    exact (List.pairwise_append.mp htime).1
  obtain ⟨hgrid₁, hbars₁, hK₁⟩ := runs_keep attempts t₀ stores
    (fun r hr => hserved r (List.mem_append_left _ hr)) htime' hgrid hbars hK
  refine ⟨fun sym ts b hb => closed_of_le ((hgrid₁ sym).closed ts b hb), ?_, ?_⟩
  · refine ⟨enoughPages (X .btc) (K .btc) + enoughPages (X .eth) (K .eth), ?_⟩
    intro maxPages henough sym hsym ts hstart hend
    have ha := hserved a (List.mem_append_right _ (List.mem_singleton_self a))
    have hserved' : Served X { a with maxPages := maxPages } := ⟨ha.honest, ha.limit⟩
    have hgrid₂ : ∀ sym, OnGrid a.endMs (runs attempts stores sym) := fun sym =>
      (hgrid₁ sym).mono (lastClosedOpenMs_mono (clock_le htime))
    have hgrow := symbols_grow hserved' a.symbols { stores := runs attempts stores } hgrid₂
    have hcomplete := symbols_complete hserved' (K := K)
      (fun sym => by cases sym <;> (show _ ≤ maxPages; omega)) a.symbols
      { stores := runs attempts stores } hgrid₂ hbars₁ hK₁
      (symbols_answered (a := { a with maxPages := maxPages }) hanswered a.symbols _ rfl) sym hsym
    -- what is stored is the exchange's, and what the exchange has is stored
    cases hb : (X sym).bar? ts with
    | some b => exact hcomplete ts b hstart hend hb
    | none =>
      cases hget : ((backfill { a with maxPages := maxPages } (runs attempts stores)).stores sym).get? ts with
      | none => rfl
      | some b =>
        have htrue := ((hbars₁ sym).grows (hgrow sym)) ts b hget hstart
        rw [hb] at htrue
        cases htrue
  · intro fetch store asked lo hi limit maxPages
    have hspan := pages_le_span fetch hi limit maxPages
      { store := store, asked := asked, nextOpenMs := lo }
    rwa [Nat.zero_add] at hspan

/-- The exchange answers each request from the bars it has. -/
def Exchange.fetch (X : Exchange) : Fetch := fun _ since limit => some (pageFrom Row.ts X.bars since limit)

/-- The requests from the `n`-th on fail. -/
def brokenAfter (n : ℕ) (fetch : Fetch) : Fetch := fun k since limit =>
  if k < n then fetch k since limit else none

theorem Exchange.honest (X : Exchange) (e : ℤ) : Honest X e X.fetch := fun _ =>
  ⟨X.bars, X.ascending, fun _ _ => Iff.rfl, fun _ _ _ h => (Option.some.inj h).symm⟩

theorem brokenAfter_honest {X : Exchange} {e : ℤ} {fetch : Fetch} (h : Honest X e fetch) (n : ℕ) :
    Honest X e (brokenAfter n fetch) := by
  intro k
  obtain ⟨view, hasc, hbars, hpage⟩ := h k
  refine ⟨view, hasc, hbars, fun since limit raw hraw => hpage since limit raw ?_⟩
  unfold brokenAfter at hraw
  split at hraw
  next => exact hraw
  next => cases hraw

/-- A bar of the examples: the `k`-th from the epoch on. -/
def barAt (k : ℤ) (price : ℚ) : Row :=
  { ts := TF_MS * k, «open» := price, high := price, low := price, close := price, volume := none }

/-- Two bars, a suspension of two bars, and two more. -/
def gappedExchange : Exchange where
  bars := [barAt 0 1, barAt 1 2, barAt 4 3, barAt 5 4]
  ascending := by
    unfold Ascending
    decide
  onGrid := by decide

/-- A run on pages of one bar is broken off at its second request; the next one has
pages of two. -/
theorem backfill_completes_gapped :
    let first : Attempt :=
      { symbols := [.btc], startMs := 0, nowMs := TF_MS * 6, maxPages := 10, pageLimit := 1
        fetch := fun _ => brokenAfter 1 gappedExchange.fetch }
    let second : Attempt :=
      { first with pageLimit := 2, nowMs := TF_MS * 7, fetch := fun _ => gappedExchange.fetch }
    (runs [first] (fun _ => .empty) .btc).opens = [0] ∧
      ∃ enough, ∀ maxPages, enough ≤ maxPages → ∀ sym ∈ [Symbol.btc], ∀ ts, 0 ≤ ts →
        ts ≤ TF_MS * 6 →
        ((backfill { second with maxPages := maxPages } (runs [first] fun _ => .empty)).stores sym).get? ts =
          gappedExchange.bar? ts := by
  intro first second
  have hfirst : Served (fun _ => gappedExchange) first :=
    ⟨fun _ => brokenAfter_honest (gappedExchange.honest _) 1, by decide⟩
  have hsecond : Served (fun _ => gappedExchange) second :=
    ⟨fun _ => gappedExchange.honest _, by decide⟩
  refine ⟨by decide +kernel, ?_⟩
  refine (backfill_completes (fun _ => gappedExchange) (fun _ => .empty) 0 [first] second
    (fun _ => onGrid_empty _) (fun _ => trueFrom_empty _ _) ?_ (by decide) fun _ _ _ _ => rfl).2.1
  intro r hr
  rcases List.mem_cons.mp hr with rfl | hr
  · exact hfirst
  · obtain rfl := List.mem_singleton.mp hr
    exact hsecond

/-- A row the exchange does not have stays, whatever the budget; and with pages of no bar
nothing is ever stored. -/
theorem stored_rows_stay :
    let wrong : Store := Dict.empty.set 0 (barAt 0 9).stored
    let a : Attempt :=
      { symbols := [.btc], startMs := 0, nowMs := TF_MS, maxPages := 10, pageLimit := 1000
        fetch := fun _ => gappedExchange.fetch }
    Served (fun _ => gappedExchange) a ∧
      (∀ maxPages, ((backfill { a with maxPages := maxPages } fun _ => wrong).stores .btc).get? 0 =
        some (barAt 0 9).stored) ∧
      gappedExchange.bar? 0 = some (barAt 0 1).stored ∧ (barAt 0 1).stored ≠ (barAt 0 9).stored ∧
      ∀ maxPages, ((backfill { a with maxPages := maxPages, pageLimit := 0 } fun _ => .empty).stores
        .btc).get? 0 = none := by
  intro wrong a
  refine ⟨⟨fun _ => gappedExchange.honest _, by decide⟩, fun _ => rfl, by decide +kernel,
    by decide +kernel, ?_⟩
  intro maxPages
  cases maxPages with
  | zero => rfl
  | succ n => rfl

end PaperTrading.Data
