import PaperTrading.Mint.Operands

/-!
# Bounds of one indicator

The atoms of one indicator compare one number with their bounds, so an atom is implied by
others of its indicator that have a bound at least as tight as each of its own
(`implied`). A number meets every bound of a group when it meets the largest of one
direction and the smallest of the other, and there is none exactly when the guard's merged
interval is empty (`emptyBand_iff`).
-/

namespace PaperTrading.Mint

open Lib
open Signals

variable {group others : List AtomParts} {a : AtomParts}

/-! ## Tighter bounds -/

/-- A bound in the same direction, and no looser. -/
def Tighter (b' b : Op × ℕ) : Prop :=
  b'.1 = b.1 ∧ match b.1 with
    | .gt => b.2 ≤ b'.2
    | .lt => b'.2 ≤ b.2

theorem Tighter.refl (b : Op × ℕ) : Tighter b b := by
  refine ⟨rfl, ?_⟩
  cases b.1
  · exact le_rfl
  · exact le_rfl

theorem Tighter.meets {family : String} {b b' : Op × ℕ} {v : ℚ} (h : Tighter b' b)
    (hv : Mint.meets family b' v = true) : Mint.meets family b v = true := by
  obtain ⟨op, n⟩ := b
  obtain ⟨op', n'⟩ := b'
  obtain ⟨rfl, hle⟩ : op' = op ∧ _ := h
  cases op' with
  | gt => exact meets_gt_mono hle hv
  | lt => exact meets_lt_mono hle hv

theorem mem_boundsOf {op : Op} {n : ℕ} :
    n ∈ boundsOf op group ↔ ∃ a ∈ group, (op, n) ∈ a.bounds := by
  unfold boundsOf
  rw [List.mem_filterMap]
  constructor
  · rintro ⟨b, hb, hop⟩
    split at hop
    next heq =>
      obtain ⟨a, ha, hb⟩ := List.mem_flatMap.mp hb
      refine ⟨a, ha, ?_⟩
      rwa [← heq, ← Option.some.inj hop]
    next => cases hop
  · rintro ⟨a, ha, hb⟩
    exact ⟨(op, n), List.mem_flatMap.mpr ⟨a, ha, hb⟩, if_pos rfl⟩

/-- The ends of the merged interval are bounds, the tightest of their directions. -/
theorem max_boundsOf {n : ℕ} : (boundsOf .gt group).max? = some n ↔
    (∃ a ∈ group, (.gt, n) ∈ a.bounds) ∧ ∀ a ∈ group, ∀ m, (.gt, m) ∈ a.bounds → m ≤ n := by
  rw [List.max?_eq_some_iff, mem_boundsOf]
  refine and_congr_right fun _ => ⟨fun h a ha m hm => ?_, fun h m hm => ?_⟩
  · exact h m (mem_boundsOf.mpr ⟨a, ha, hm⟩)
  · obtain ⟨a, ha, hb⟩ := mem_boundsOf.mp hm
    exact h a ha m hb

theorem min_boundsOf {n : ℕ} : (boundsOf .lt group).min? = some n ↔
    (∃ a ∈ group, (.lt, n) ∈ a.bounds) ∧ ∀ a ∈ group, ∀ m, (.lt, m) ∈ a.bounds → n ≤ m := by
  rw [List.min?_eq_some_iff, mem_boundsOf]
  refine and_congr_right fun _ => ⟨fun h a ha m hm => ?_, fun h m hm => ?_⟩
  · exact h m (mem_boundsOf.mpr ⟨a, ha, hm⟩)
  · obtain ⟨a, ha, hb⟩ := mem_boundsOf.mp hm
    exact h a ha m hb

/-- Each bound of a group has the end of the merged interval of its direction. -/
theorem exists_wanted (ha : a ∈ group) {b : Op × ℕ} (hb : b ∈ a.bounds) :
    ∃ b' ∈ wanted group, Tighter b' b := by
  obtain ⟨op, n⟩ := b
  have hmem : n ∈ boundsOf op group := mem_boundsOf.mpr ⟨a, ha, hb⟩
  unfold wanted
  cases op with
  | gt =>
    obtain ⟨m, hm⟩ := Option.ne_none_iff_exists'.mp fun hnone =>
      List.ne_nil_of_mem hmem (List.max?_eq_none_iff.mp hnone)
    refine ⟨(.gt, m), List.mem_append_left _ (by simp [hm]), rfl, ?_⟩
    exact (max_boundsOf.mp hm).2 a ha n hb
  | lt =>
    obtain ⟨m, hm⟩ := Option.ne_none_iff_exists'.mp fun hnone =>
      List.ne_nil_of_mem hmem (List.min?_eq_none_iff.mp hnone)
    refine ⟨(.lt, m), List.mem_append_right _ (by simp [hm]), rfl, ?_⟩
    exact (min_boundsOf.mp hm).2 a ha n hb

/-- The bounds wanted of a group are bounds of its atoms. -/
theorem of_mem_wanted {b : Op × ℕ} (hb : b ∈ wanted group) : ∃ a ∈ group, b ∈ a.bounds := by
  unfold wanted at hb
  rcases List.mem_append.mp hb with hb | hb
  · obtain ⟨n, hn, rfl⟩ := Option.map_eq_some_iff.mp (Option.mem_toList.mp hb)
    exact (max_boundsOf.mp hn).1
  · obtain ⟨n, hn, rfl⟩ := Option.map_eq_some_iff.mp (Option.mem_toList.mp hb)
    exact (min_boundsOf.mp hn).1

theorem wanted_eq_of_merged (h : mergedInterval others = mergedInterval group) :
    wanted others = wanted group := by
  unfold mergedInterval at h
  unfold wanted
  rw [(Prod.mk.inj h).1, (Prod.mk.inj h).2]

/-! ## Implied atoms -/

section Implied

variable {sqrt : ℚ → ℚ} {s : Ohlc} {i : ℕ}

/-- The atoms of a group: known ones, of one indicator. -/
def OneIndicator (group : List AtomParts) (key : String × String × List ℕ) : Prop :=
  ∀ a ∈ group, (∃ tok, inspectAtom tok = some a) ∧ a.key = key

theorem oneIndicator_groupOf (x : Text) (key : String × String × List ℕ) :
    OneIndicator (groupOf x key) key := by
  intro a ha
  obtain ⟨hknown, hkey⟩ := mem_groupOf.mp ha
  obtain ⟨o, -, ho⟩ := mem_known.mp hknown
  exact ⟨⟨o.1, ho⟩, hkey⟩

theorem family_of_key {key : String × String × List ℕ} (h : a.key = key) : a.family = key.1 := by
  rw [← h]
  rfl

/-- An atom with bounds holds when there is a number and it meets them. -/
theorem holds_iff {tok : Text} (h : inspectAtom tok = some a) (hb : a.bounds ≠ []) :
    a.condition.eval sqrt s i = .ok true ↔
      ∃ v, measure a.family (a.params.headD 0) s i = .ok (some v) ∧
        ∀ b ∈ a.bounds, meets a.family b v = true := by
  rw [eval_bounded h hb]
  cases measure a.family (a.params.headD 0) s i with
  | error e =>
    constructor
    · intro hok
      cases hok
    · rintro ⟨v, hv, -⟩
      cases hv
  | ok r =>
    cases r with
    | none =>
      constructor
      · intro hok
        cases hok
      · rintro ⟨v, hv, -⟩
        cases hv
    | some v =>
      have hval : (Except.ok (some v) >>= fun r : Option ℚ =>
          (pure (r.any fun v => a.bounds.all fun b => meets a.family b v) : Except String Bool)) =
            .ok (a.bounds.all fun b => meets a.family b v) := rfl
      rw [hval]
      constructor
      · intro hok
        exact ⟨v, rfl, List.all_eq_true.mp (Except.ok.inj hok)⟩
      · rintro ⟨w, hw, hmeets⟩
        obtain rfl : v = w := Option.some.inj (Except.ok.inj hw)
        exact congrArg Except.ok (List.all_eq_true.mpr hmeets)

/-- An atom holds when others of its indicator do that have, for each of its bounds, one
as tight. -/
theorem implied {key : String × String × List ℕ} (hothers : OneIndicator others key)
    (ha : ∃ tok, inspectAtom tok = some a) (hkey : a.key = key) (hne : others ≠ [])
    (htight : ∀ b ∈ a.bounds, ∃ a' ∈ others, ∃ b' ∈ a'.bounds, Tighter b' b)
    (hold : ∀ a' ∈ others, a'.condition.eval sqrt s i = .ok true) :
    a.condition.eval sqrt s i = .ok true := by
  obtain ⟨tok, htok⟩ := ha
  obtain ⟨a₀, ha₀⟩ := List.exists_mem_of_ne_nil _ hne
  have hbounded : ∀ a' ∈ others, a'.bounds ≠ [] ↔ a.bounds ≠ [] := by
    intro a' ha'
    obtain ⟨⟨tok', htok'⟩, hkey'⟩ := hothers a' ha'
    rw [bounds_ne_nil_iff htok, bounds_ne_nil_iff htok', family_of_key hkey, family_of_key hkey']
  by_cases hb : a.bounds = []
  · have hb₀ : a₀.bounds = [] := by
      by_contra hne₀
      exact (hbounded a₀ ha₀).mp hne₀ hb
    rw [condition_congr (hkey.trans (hothers a₀ ha₀).2.symm) (hb.trans hb₀.symm)]
    exact hold a₀ ha₀
  · have hnum : ∀ a' ∈ others, ∃ v, measure a.family (a.params.headD 0) s i = .ok (some v) ∧
        ∀ b ∈ a'.bounds, meets a.family b v = true := by
      intro a' ha'
      obtain ⟨⟨tok', htok'⟩, hkey'⟩ := hothers a' ha'
      have hsame := hkey'.trans hkey.symm
      unfold AtomParts.key at hsame
      obtain ⟨hfamily, hrest⟩ := Prod.mk.inj hsame
      rw [← hfamily, ← (Prod.mk.inj hrest).2]
      exact (holds_iff htok' ((hbounded a' ha').mpr hb)).mp (hold a' ha')
    obtain ⟨v, hv, -⟩ := hnum a₀ ha₀
    refine (holds_iff htok hb).mpr ⟨v, hv, fun b hb => ?_⟩
    obtain ⟨a', ha', b', hb', htighter⟩ := htight b hb
    obtain ⟨w, hw, hmeets⟩ := hnum a' ha'
    obtain rfl : v = w := Option.some.inj (Except.ok.inj (hv.symm.trans hw))
    exact htighter.meets (hmeets b' hb')

end Implied

/-! ## Bounds that nothing meets -/

/-- No number meets every bound of a group. -/
def Unmeetable (group : List AtomParts) : Prop :=
  ∀ v : ℚ, ∃ a ∈ group, ∃ b ∈ a.bounds, meets a.family b v = false

/-- Only an RSI has upper bounds. -/
theorem family_of_lt {tok : Text} {n : ℕ} (h : inspectAtom tok = some a)
    (hb : (.lt, n) ∈ a.bounds) : a.family = "rsi" := by
  cases inspected h with
  | rsiFull _ => rfl
  | rsiLt _ _ => rfl
  | rsiShort _ _ _ => rfl
  | move _ => cases List.mem_singleton.mp hb
  | htf _ | average _ | smaStack _ | emaStack _ | level _ | band _ | volume _ | plain _ _ => cases hb

/-- Some number is beyond any lower bound. -/
theorem exists_meets_gt (family : String) (n : ℕ) : ∃ v, meets family (.gt, n) v = true := by
  by_cases hmom : family = "mom"
  · exact ⟨momThr n + 1, by simp [meets, hmom]⟩
  · by_cases hdip : family = "dip"
    · exact ⟨dipThr n - 1, by simp [meets, hdip]⟩
    · exact ⟨n + 1, by simp [meets, hmom, hdip]⟩

/-- The guard's interval is empty exactly when no number meets the bounds. -/
theorem emptyBand_iff {key : String × String × List ℕ} (hgroup : OneIndicator group key) :
    emptyBand (mergedInterval group) = true ↔ Unmeetable group := by
  have hrsi : ∀ a ∈ group, ∀ n, (.lt, n) ∈ a.bounds → key.1 = "rsi" := by
    intro a ha n hn
    obtain ⟨⟨tok, htok⟩, hkey⟩ := hgroup a ha
    rw [← family_of_key hkey]
    exact family_of_lt htok hn
  have hmeets : ∀ v : ℚ, (∀ b ∈ wanted group, meets key.1 b v = true) → ¬ Unmeetable group := by
    intro v hv hun
    obtain ⟨a, ha, b, hb, hno⟩ := hun v
    obtain ⟨b', hb', htighter⟩ := exists_wanted ha hb
    have hyes := htighter.meets (hv b' hb')
    rw [family_of_key (hgroup a ha).2, hyes] at hno
    cases hno
  cases hlo : (boundsOf .gt group).max? with
  | none =>
    have hempty : emptyBand (mergedInterval group) = false := by
      unfold mergedInterval
      rw [hlo]
      rfl
    rw [hempty]
    refine iff_of_false Bool.false_ne_true (hmeets 0 fun b hb => ?_)
    unfold wanted at hb
    rw [hlo] at hb
    obtain ⟨n, -, rfl⟩ := Option.map_eq_some_iff.mp (Option.mem_toList.mp hb)
    exact decide_eq_true (Nat.cast_nonneg n)
  | some lo =>
    obtain ⟨⟨a, ha, hgt⟩, -⟩ := max_boundsOf.mp hlo
    cases hhi : (boundsOf .lt group).min? with
    | none =>
      have hempty : emptyBand (mergedInterval group) = false := by
        unfold mergedInterval
        rw [hlo, hhi]
        rfl
      obtain ⟨v, hv⟩ := exists_meets_gt key.1 lo
      rw [hempty]
      refine iff_of_false Bool.false_ne_true (hmeets v fun b hb => ?_)
      unfold wanted at hb
      rw [hlo, hhi] at hb
      obtain rfl : b = (.gt, lo) := by simpa using hb
      exact hv
    | some hi =>
      obtain ⟨⟨a', ha', hlt⟩, -⟩ := min_boundsOf.mp hhi
      have hfamily : key.1 = "rsi" := hrsi a' ha' hi hlt
      have hempty : emptyBand (mergedInterval group) = decide (hi ≤ lo) := by
        unfold mergedInterval
        rw [hlo, hhi]
        rfl
      rw [hempty, decide_eq_true_eq]
      constructor
      · intro hle v
        by_cases hv : v ≤ hi
        · refine ⟨a, ha, (.gt, lo), hgt, ?_⟩
          rw [family_of_key (hgroup a ha).2, hfamily]
          exact decide_eq_false (not_lt.mpr (hv.trans (Nat.cast_le.mpr hle)))
        · exact ⟨a', ha', (.lt, hi), hlt, decide_eq_false hv⟩
      · intro hun
        by_contra hlt
        refine hmeets hi (fun b hb => ?_) hun
        unfold wanted at hb
        rw [hlo, hhi] at hb
        rw [hfamily]
        rcases List.mem_append.mp hb with hb | hb
        · obtain rfl : b = (.gt, lo) := by simpa using hb
          exact decide_eq_true (Nat.cast_lt.mpr (not_le.mp hlt))
        · obtain rfl : b = (.lt, hi) := by simpa using hb
          exact decide_eq_true le_rfl

end PaperTrading.Mint
