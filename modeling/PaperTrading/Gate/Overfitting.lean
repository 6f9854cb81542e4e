import Mathlib.Algebra.BigOperators.Field
import Mathlib.Algebra.BigOperators.Group.Finset.Basic
import Mathlib.Algebra.Order.BigOperators.Group.Finset
import Mathlib.Data.Finset.Powerset
import Mathlib.Tactic.FieldSimp
import Mathlib.Tactic.Linarith
import Mathlib.Tactic.Positivity
import Mathlib.Tactic.Ring
import PaperTrading.Gate.MultipleTesting
import PaperTrading.Lib.StableRank

/-!
# The probability of overfitting by its definition

The figure is defined over sets of blocks: every half of the blocks picks the strategy with
the greatest Sharpe ratio of its raw rows, that strategy is ranked by the Sharpe ratios of
the other half's rows, and the figure is the fraction of halves whose pick ranks in the
lower half (`cscv`). The program does neither the sets nor the second half: it lists index
combinations and subtracts sums from the totals. `pbo_eq_cscv` says that it computes the
same number, whatever the order of the combinations.
-/

namespace PaperTrading.Gate

open PaperTrading.Lib

/-! ## The definition -/

section
variable (stats : Stats)

/-- The mean return of a strategy over a set of blocks. -/
def meanOver (col : List ℚ) (blocks : Finset ℕ) : ℚ :=
  (∑ i ∈ blocks, col.getD i 0) / blocks.card

/-- The sample variance over a set of blocks. -/
def varianceOver (col : List ℚ) (blocks : Finset ℕ) : ℚ :=
  (∑ i ∈ blocks, (col.getD i 0 - meanOver col blocks) ^ 2) / (blocks.card - 1)

/-- What stands for the Sharpe ratio of returns that do not vary. -/
def signRatio (mean : ℚ) : ℚ :=
  if 1 / 10 ^ 15 < mean then 10 ^ 6 else if mean < -(1 / 10 ^ 15) then -10 ^ 6 else 0

/-- The sample Sharpe ratio over a set of blocks. -/
def sharpeOver (col : List ℚ) (blocks : Finset ℕ) : ℚ :=
  if blocks.card < 2 ∨ stats.sqrt (varianceOver col blocks) ≤ 1 / 10 ^ 12 then
    signRatio (meanOver col blocks)
  else meanOver col blocks / stats.sqrt (varianceOver col blocks)

/-- The first of `n` strategies that no other exceeds. -/
def winnerOf (n : ℕ) (sharpe : ℕ → ℚ) : ℕ :=
  ((List.range n).find? fun b => decide (∀ j < n, sharpe j ≤ sharpe b)).getD 0

/-- The rank of `b` among `n` strategies, the worst first and the first first among equals. -/
def rankOf (n : ℕ) (sharpe : ℕ → ℚ) (b : ℕ) : ℕ :=
  ((Finset.range n).filter fun j => sharpe j < sharpe b ∨ sharpe j = sharpe b ∧ j < b).card + 1

/-- The pick of these blocks ranks in the lower half on the others. -/
def Overfits (cols : List (List ℚ)) (t : ℕ) (blocks : Finset ℕ) : Prop :=
  (rankOf cols.length
      (fun j => sharpeOver stats (cols.getD j []) (Finset.range t \ blocks))
      (winnerOf cols.length fun j => sharpeOver stats (cols.getD j []) blocks) : ℚ) /
    (cols.length + 1) ≤ 1 / 2

instance (cols : List (List ℚ)) (t : ℕ) : DecidablePred (Overfits stats cols t) := fun _ =>
  inferInstanceAs (Decidable ((rankOf cols.length _ _ : ℚ) / (cols.length + 1) ≤ 1 / 2))

/-- The halves of `t` blocks. -/
def halves (t : ℕ) : Finset (Finset ℕ) := (Finset.range t).powersetCard (t / 2)

/-- The fraction of the halves whose pick overfits. -/
def cscv (cols : List (List ℚ)) (t : ℕ) : ℚ :=
  ((halves t).filter (Overfits stats cols t)).card / (halves t).card

end

/-! ## Sums and ratios -/

section
variable {stats : Stats} {cols : List (List ℚ)} {t : ℕ}

/-- A column as the program holds it. -/
def floats (col : List ℚ) : List Flt := col.map Flt.fin

theorem foldl_add_fin (l : List ℚ) : ∀ a : ℚ,
    (l.map Flt.fin).foldl Flt.add (.fin a) = .fin (a + l.sum) := by
  induction l with
  | nil => intro a; rw [List.sum_nil, add_zero]; rfl
  | cons x l ih =>
    intro a
    rw [List.map_cons, List.foldl_cons, List.sum_cons, ← add_assoc]
    exact ih (a + x)

theorem sum_fin (l : List ℚ) : Flt.sum (l.map Flt.fin) = .fin l.sum := by
  unfold Flt.sum
  rw [foldl_add_fin, zero_add]

theorem floats_getD (col : List ℚ) (i : ℕ) : (floats col).getD i (.fin 0) = .fin (col.getD i 0) := by
  unfold floats
  rw [List.getD_eq_getElem?_getD, List.getD_eq_getElem?_getD, List.getElem?_map]
  cases col[i]? <;> rfl

/-- The sums over listed blocks are those over the set of them. -/
theorem sums_floats (col : List ℚ) {is : List ℕ} (h : is.Nodup) :
    sums (floats col) is = (.fin (∑ i ∈ is.toFinset, col.getD i 0),
      .fin (∑ i ∈ is.toFinset, col.getD i 0 ^ 2)) := by
  have hvals : (is.map fun i => (floats col).getD i (.fin 0)) =
      (is.map fun i => col.getD i 0).map Flt.fin := by
    rw [List.map_map]
    exact List.map_congr_left fun i _ => floats_getD col i
  have hsquares : ((is.map fun i => col.getD i 0).map Flt.fin).map (fun x => x.mul x) =
      (is.map fun i => col.getD i 0 ^ 2).map Flt.fin := by
    rw [List.map_map, List.map_map, List.map_map]
    exact List.map_congr_left fun i _ => congrArg Flt.fin (pow_two _).symm
  unfold sums
  dsimp only
  rw [hvals, hsquares, sum_fin, sum_fin, List.sum_toFinset _ h, List.sum_toFinset _ h]

/-- The squared deviations from the mean, from the sum and the sum of squares. -/
theorem varianceOver_eq (col : List ℚ) {blocks : Finset ℕ} (h : 2 ≤ blocks.card) :
    ((∑ i ∈ blocks, col.getD i 0 ^ 2) / blocks.card - meanOver col blocks * meanOver col blocks) *
        (blocks.card / (blocks.card - 1)) = varianceOver col blocks := by
  have hpos : (2 : ℚ) ≤ blocks.card := by exact_mod_cast h
  have hne : (blocks.card : ℚ) ≠ 0 := by linarith
  have hne' : (blocks.card : ℚ) - 1 ≠ 0 := by linarith
  have hsum : ∑ i ∈ blocks, col.getD i 0 = blocks.card * meanOver col blocks := by
    unfold meanOver
    field_simp
  have hsquares : ∑ i ∈ blocks, (col.getD i 0 - meanOver col blocks) ^ 2 =
      ∑ i ∈ blocks, col.getD i 0 ^ 2 - blocks.card * meanOver col blocks ^ 2 := by
    calc ∑ i ∈ blocks, (col.getD i 0 - meanOver col blocks) ^ 2
        = ∑ i ∈ blocks, (col.getD i 0 ^ 2 - 2 * meanOver col blocks * col.getD i 0 +
            meanOver col blocks ^ 2) := Finset.sum_congr rfl fun i _ => by ring
      _ = ∑ i ∈ blocks, col.getD i 0 ^ 2 - 2 * meanOver col blocks * ∑ i ∈ blocks, col.getD i 0 +
            blocks.card * meanOver col blocks ^ 2 := by
          rw [Finset.sum_add_distrib, Finset.sum_sub_distrib, ← Finset.mul_sum, Finset.sum_const,
            nsmul_eq_mul]
      _ = _ := by rw [hsum]; ring
  unfold varianceOver
  rw [hsquares]
  field_simp

theorem varianceOver_nonneg (col : List ℚ) {blocks : Finset ℕ} (h : 2 ≤ blocks.card) :
    0 ≤ varianceOver col blocks := by
  have hpos : (2 : ℚ) ≤ blocks.card := by exact_mod_cast h
  exact div_nonneg (Finset.sum_nonneg fun i _ => sq_nonneg _) (by linarith)

/-- The ratio computed from sums is the sample Sharpe ratio of the rows they are of. -/
theorem sharpeFromSums_eq (col : List ℚ) {blocks : Finset ℕ} {n : ℕ} (hn : blocks.card = n) :
    sharpeFromSums stats (.fin (∑ i ∈ blocks, col.getD i 0))
      (.fin (∑ i ∈ blocks, col.getD i 0 ^ 2)) n = .fin (sharpeOver stats col blocks) := by
  subst hn
  have hmean : (Flt.fin (∑ i ∈ blocks, col.getD i 0)).divBy blocks.card =
      .fin (meanOver col blocks) := rfl
  have hsign : (if Flt.lt (.fin (1 / 10 ^ 15)) (.fin (meanOver col blocks)) then Flt.fin (10 ^ 6)
      else if Flt.lt (.fin (meanOver col blocks)) (Flt.fin (1 / 10 ^ 15)).neg then .fin (-10 ^ 6)
      else .fin 0) = .fin (signRatio (meanOver col blocks)) := by
    unfold signRatio Flt.neg
    rw [Flt.lt_fin, Flt.lt_fin]
    simp only [decide_eq_true_eq]
    split_ifs <;> rfl
  unfold sharpeFromSums sharpeOver
  dsimp only
  rw [hmean, hsign]
  by_cases hfew : blocks.card < 2
  · rw [if_pos hfew, if_pos (Or.inl hfew)]
  have htwo : 2 ≤ blocks.card := not_lt.mp hfew
  have hvar : (((Flt.fin (∑ i ∈ blocks, col.getD i 0 ^ 2)).divBy blocks.card).sub
        ((Flt.fin (meanOver col blocks)).mul (.fin (meanOver col blocks)))).mul
        (.fin (blocks.card / (blocks.card - 1))) = .fin (varianceOver col blocks) := by
    rw [← varianceOver_eq col htwo]
    show Flt.fin (((∑ i ∈ blocks, col.getD i 0 ^ 2) * (blocks.card : ℚ)⁻¹ +
      -(meanOver col blocks * meanOver col blocks)) * (blocks.card / (blocks.card - 1))) = _
    rw [← div_eq_mul_inv, ← sub_eq_add_neg]
  have hmax : (Flt.fin (varianceOver col blocks)).maximum (.fin 0) =
      .fin (varianceOver col blocks) := by
    show (if decide (varianceOver col blocks < 0) = true then Flt.fin 0 else _) = _
    rw [if_neg]
    rw [decide_eq_true_eq]
    exact not_lt.mpr (varianceOver_nonneg col htwo)
  rw [if_neg hfew, hvar, hmax]
  unfold rootOf
  dsimp only
  rw [Flt.le_fin]
  by_cases htiny : stats.sqrt (varianceOver col blocks) ≤ 1 / 10 ^ 12
  · rw [if_pos (decide_eq_true htiny), if_pos (Or.inr htiny)]
  rw [if_neg (by rw [decide_eq_true_eq]; exact htiny), if_neg (not_or.mpr ⟨hfew, htiny⟩)]
  have hroot : (Flt.fin (stats.sqrt (varianceOver col blocks))).maximum (.fin (1 / 10 ^ 12)) =
      .fin (stats.sqrt (varianceOver col blocks)) := by
    show (if decide (stats.sqrt (varianceOver col blocks) < 1 / 10 ^ 12) = true then _ else _) = _
    rw [if_neg]
    rw [decide_eq_true_eq]
    exact not_lt.mpr (not_le.mp htiny).le
  rw [hroot]
  show Flt.fin (meanOver col blocks * (stats.sqrt (varianceOver col blocks))⁻¹) = _
  rw [← div_eq_mul_inv]

/-- The ratio of the other blocks, from the totals without these. -/
theorem sharpeFromSums_rest (col : List ℚ) {is : List ℕ} (hnodup : is.Nodup)
    (hsub : is ⊆ List.range t) :
    sharpeFromSums stats ((sums (floats col) (List.range t)).1.sub (sums (floats col) is).1)
      ((sums (floats col) (List.range t)).2.sub (sums (floats col) is).2) (t - is.length) =
      .fin (sharpeOver stats col (Finset.range t \ is.toFinset)) := by
  have hset : is.toFinset ⊆ Finset.range t := fun i hi =>
    Finset.mem_range.mpr (List.mem_range.mp (hsub (List.mem_toFinset.mp hi)))
  have hrange : (List.range t).toFinset = Finset.range t := by
    ext i
    rw [List.mem_toFinset, List.mem_range, Finset.mem_range]
  have hcard : (Finset.range t \ is.toFinset).card = t - is.length := by
    rw [Finset.card_sdiff_of_subset hset, Finset.card_range, List.toFinset_card_of_nodup hnodup]
  have hdiff : ∀ f : ℕ → ℚ, ∑ i ∈ Finset.range t, f i + -∑ i ∈ is.toFinset, f i =
      ∑ i ∈ Finset.range t \ is.toFinset, f i := fun f => by
    rw [← sub_eq_add_neg, sub_eq_iff_eq_add, Finset.sum_sdiff hset]
  rw [sums_floats col List.nodup_range, sums_floats col hnodup, hrange]
  dsimp only [Flt.sub, Flt.neg, Flt.add]
  rw [hdiff, hdiff]
  exact sharpeFromSums_eq col hcard

/-! ## The pick and its rank -/

theorem foldl_greaterOf_fin (l : List (ℚ × ℕ)) : ∀ best : ℚ × ℕ,
    l.foldl (fun (b : Flt × ℕ) y => if b.1 ≠ .nan ∧ ((Prod.map Flt.fin id y).1 = .nan ∨
        Flt.lt b.1 (Prod.map Flt.fin id y).1 = true) then Prod.map Flt.fin id y else b)
      (Prod.map Flt.fin id best) = Prod.map Flt.fin id (l.foldl greaterOf best) := by
  induction l with
  | nil => intro best; rfl
  | cons y l ih =>
    intro best
    rw [List.foldl_cons, List.foldl_cons, ← ih]
    congr 1
    unfold greaterOf
    by_cases hlt : best.1 < y.1
    · rw [if_pos hlt, if_pos ⟨Flt.noConfusion, Or.inr (decide_eq_true hlt)⟩]
    · rw [if_neg hlt, if_neg]
      rintro ⟨_, hnan | hless⟩
      · cases hnan
      · exact hlt (of_decide_eq_true hless)

theorem argmax_fin (xs : List ℚ) : argmax (xs.map Flt.fin) = firstGreatest xs := by
  cases xs with
  | nil => rfl
  | cons x xs =>
    rw [List.map_cons, argmax, firstGreatest, List.zipIdx_map, List.foldl_map]
    exact congrArg Prod.snd (foldl_greaterOf_fin (xs.zipIdx 1) (x, 0))

theorem argsort_fin (xs : List ℚ) : argsort (xs.map Flt.fin) = stableOrder xs := by
  unfold argsort stableOrder
  rw [List.zipIdx_map, ← List.map_insertionSort (fun a b : ℚ × ℕ => a.1 ≤ b.1)
    (fun a b : Flt × ℕ => b.1 = .nan ∨ Flt.le a.1 b.1 = true), List.map_map]
  · rfl
  · intro a _ b _
    constructor
    · exact fun h => Or.inr (decide_eq_true h)
    · rintro (h | h)
      · cases h
      · exact of_decide_eq_true h

/-- A list that is read at every position. -/
theorem map_eq_range (cols : List (List ℚ)) (f : List ℚ → ℚ) :
    cols.map f = (List.range cols.length).map fun j => f (cols.getD j []) := by
  refine List.ext_getElem (by rw [List.length_map, List.length_map, List.length_range])
    fun j h _ => ?_
  rw [List.length_map] at h
  rw [List.getElem_map, List.getElem_map, List.getElem_range, List.getD_eq_getElem?_getD,
    List.getElem?_eq_getElem h, Option.getD_some]

theorem firstGreatest_eq_winnerOf {n : ℕ} (hn : 0 < n) (sharpe : ℕ → ℚ) :
    firstGreatest ((List.range n).map sharpe) = winnerOf n sharpe ∧ winnerOf n sharpe < n := by
  have hget : ∀ {j : ℕ} {y : ℚ}, ((List.range n).map sharpe)[j]? = some y →
      j < n ∧ y = sharpe j := by
    intro j y h
    obtain ⟨hj, rfl⟩ := List.getElem?_eq_some_iff.mp h
    rw [List.length_map, List.length_range] at hj
    exact ⟨hj, by rw [List.getElem_map, List.getElem_range]⟩
  have hne : (List.range n).map sharpe ≠ [] := by
    intro h
    rw [List.map_eq_nil_iff, List.range_eq_nil] at h
    exact hn.ne' h
  obtain ⟨x, hx, hall⟩ := firstGreatest_spec hne
  obtain ⟨hlt, rfl⟩ := hget hx
  generalize firstGreatest ((List.range n).map sharpe) = b at hx hall hlt
  have hread : ∀ j < n, ((List.range n).map sharpe)[j]? = some (sharpe j) := fun j hj => by
    rw [List.getElem?_map, List.getElem?_range hj, Option.map_some]
  have hfound : (List.range n).find? (fun b => decide (∀ j < n, sharpe j ≤ sharpe b)) = some b := by
    rw [List.find?_range_eq_some]
    refine ⟨decide_eq_true fun j hj => (hall j _ (hread j hj)).1, List.mem_range.mpr hlt,
      fun j hj => ?_⟩
    -- an earlier one does not reach the value at `b`
    rw [Bool.not_eq_true', decide_eq_false_iff_not]
    intro hle
    exact absurd (hle b hlt) (not_le.mpr ((hall j _ (hread j (hj.trans hlt))).2 hj))
  unfold winnerOf
  rw [hfound]
  exact ⟨rfl, hlt⟩

theorem lowerHalf_iff {is : List ℕ} (hcols : 0 < cols.length) (hnodup : is.Nodup)
    (hsub : is ⊆ List.range t) :
    lowerHalf stats (cols.map floats) t is = true ↔ Overfits stats cols t is.toFinset := by
  have hin : ((cols.map floats).map fun col =>
        sharpeFromSums stats (sums col is).1 (sums col is).2 is.length) =
      ((List.range cols.length).map fun j =>
        sharpeOver stats (cols.getD j []) is.toFinset).map Flt.fin := by
    rw [← map_eq_range cols fun col => sharpeOver stats col is.toFinset, List.map_map, List.map_map]
    refine List.map_congr_left fun col _ => ?_
    show sharpeFromSums stats (sums (floats col) is).1 (sums (floats col) is).2 is.length = _
    rw [sums_floats col hnodup]
    exact sharpeFromSums_eq col (List.toFinset_card_of_nodup hnodup)
  have hout : ((cols.map floats).map fun col =>
        sharpeFromSums stats ((sums col (List.range t)).1.sub (sums col is).1)
          ((sums col (List.range t)).2.sub (sums col is).2) (t - is.length)) =
      ((List.range cols.length).map fun j =>
        sharpeOver stats (cols.getD j []) (Finset.range t \ is.toFinset)).map Flt.fin := by
    rw [← map_eq_range cols fun col => sharpeOver stats col (Finset.range t \ is.toFinset),
      List.map_map, List.map_map]
    exact List.map_congr_left fun col _ => sharpeFromSums_rest col hnodup hsub
  obtain ⟨hwinner, hlt⟩ := firstGreatest_eq_winnerOf hcols fun j =>
    sharpeOver stats (cols.getD j []) is.toFinset
  unfold lowerHalf Overfits
  dsimp only
  rw [hin, hout, argmax_fin, argsort_fin, hwinner, idxOf_stableOrder _ hlt, List.length_map,
    decide_eq_true_eq]
  rfl

/-! ## The halves -/

theorem mem_combinations {is : List ℕ} : ∀ {l : List ℕ} {k : ℕ},
    is ∈ combinations l k ↔ is.Sublist l ∧ is.length = k := by
  intro l
  induction l generalizing is with
  | nil =>
    intro k
    cases k with
    | zero =>
      rw [combinations, List.mem_singleton, List.sublist_nil]
      exact ⟨fun h => ⟨h, h ▸ rfl⟩, fun h => h.1⟩
    | succ k =>
      rw [combinations, List.sublist_nil]
      refine ⟨fun h => (List.not_mem_nil h).elim, ?_⟩
      rintro ⟨rfl, h⟩
      cases h
  | cons i l ih =>
    intro k
    cases k with
    | zero =>
      rw [combinations, List.mem_singleton]
      refine ⟨fun h => h ▸ ⟨List.nil_sublist _, rfl⟩, fun h => List.eq_nil_of_length_eq_zero h.2⟩
    | succ k =>
      rw [combinations, List.mem_append, List.mem_map, ih, List.sublist_cons_iff]
      constructor
      · rintro (⟨js, hjs, rfl⟩ | ⟨hsub, hlen⟩)
        · obtain ⟨hsub, hlen⟩ := ih.mp hjs
          exact ⟨Or.inr ⟨js, rfl, hsub⟩, congrArg (· + 1) hlen⟩
        · exact ⟨Or.inl hsub, hlen⟩
      · rintro ⟨hsub | ⟨js, rfl, hsub⟩, hlen⟩
        · exact Or.inr ⟨hsub, hlen⟩
        · exact Or.inl ⟨js, ih.mpr ⟨hsub, Nat.succ.inj hlen⟩, rfl⟩

theorem combinations_nodup : ∀ {l : List ℕ} {k : ℕ}, l.Nodup → (combinations l k).Nodup := by
  intro l
  induction l with
  | nil =>
    intro k _
    cases k with
    | zero => exact List.nodup_singleton _
    | succ k => exact List.nodup_nil
  | cons i l ih =>
    intro k h
    rw [List.nodup_cons] at h
    cases k with
    | zero => exact List.nodup_singleton _
    | succ k =>
      rw [combinations]
      refine List.Nodup.append ((ih h.2).map fun a b hab => (List.cons.inj hab).2) (ih h.2) ?_
      intro js hwith hwithout
      obtain ⟨ks, _, rfl⟩ := List.mem_map.mp hwith
      exact h.1 ((mem_combinations.mp hwithout).1.subset List.mem_cons_self)

/-- Combinations with the same members are equal. -/
theorem combination_eq {k : ℕ} {is js : List ℕ} (his : is ∈ combinations (List.range t) k)
    (hjs : js ∈ combinations (List.range t) k) (h : is.toFinset = js.toFinset) : is = js := by
  have his' := (mem_combinations.mp his).1
  have hjs' := (mem_combinations.mp hjs).1
  have hperm : is.Perm js := by
    refine (List.perm_ext_iff_of_nodup (his'.nodup List.nodup_range)
      (hjs'.nodup List.nodup_range)).mpr fun i => ?_
    rw [← List.mem_toFinset, h, List.mem_toFinset]
  refine hperm.eq_of_pairwise (fun a b _ _ hab hba => ?_) (List.pairwise_lt_range.sublist his')
    (List.pairwise_lt_range.sublist hjs')
  exact absurd hba (Nat.lt_asymm hab)

/-- The combinations that pass a test are the halves whose sets pass it. -/
theorem filter_combinations_length (p : Finset ℕ → Prop) [DecidablePred p] (t : ℕ) :
    ((combinations (List.range t) (t / 2)).filter fun is => decide (p is.toFinset)).length =
      ((halves t).filter p).card := by
  have hinj : Set.InjOn List.toFinset
      {is | is ∈ (combinations (List.range t) (t / 2)).filter fun is => decide (p is.toFinset)} := by
    intro is his js hjs h
    exact combination_eq (List.mem_filter.mp his).1 (List.mem_filter.mp hjs).1 h
  have hnodup := ((combinations_nodup (k := t / 2) (List.nodup_range (n := t))).filter
    fun is => decide (p is.toFinset)).map_on hinj
  rw [← List.length_map List.toFinset, ← List.toFinset_card_of_nodup hnodup]
  congr 1
  ext blocks
  rw [List.mem_toFinset, List.mem_map, Finset.mem_filter, halves, Finset.mem_powersetCard]
  constructor
  · rintro ⟨is, his, rfl⟩
    obtain ⟨his, hp⟩ := List.mem_filter.mp his
    obtain ⟨hsub, hlen⟩ := mem_combinations.mp his
    refine ⟨⟨fun i hi => ?_, ?_⟩, of_decide_eq_true hp⟩
    · exact Finset.mem_range.mpr (List.mem_range.mp (hsub.subset (List.mem_toFinset.mp hi)))
    · rw [List.toFinset_card_of_nodup (hsub.nodup List.nodup_range), hlen]
  · rintro ⟨⟨hsub, hcard⟩, hp⟩
    have hset : ((List.range t).filter (· ∈ blocks)).toFinset = blocks := by
      ext i
      rw [List.mem_toFinset, List.mem_filter, List.mem_range, decide_eq_true_eq]
      exact ⟨fun h => h.2, fun h => ⟨Finset.mem_range.mp (hsub h), h⟩⟩
    refine ⟨(List.range t).filter (· ∈ blocks), List.mem_filter.mpr ⟨mem_combinations.mpr
      ⟨List.filter_sublist, ?_⟩, ?_⟩, hset⟩
    · rw [← List.toFinset_card_of_nodup (List.nodup_range.filter _), hset, hcard]
    · rw [hset]
      exact decide_eq_true hp

/-- Of an even number of blocks, what the program computes is the fraction of the halves
whose pick ranks in the lower half, between 0 and 1, and the same in every order of the
combinations; with fewer than two strategies or no blocks it is none. -/
theorem pbo_eq_cscv (stats : Stats) (cols : List (List ℚ)) (k : ℕ) :
    probabilityOfBacktestOverfitting stats (cols.map floats) (2 * k) =
        (if cols.length < 2 ∨ k = 0 then none else some (cscv stats cols (2 * k))) ∧
      (0 ≤ cscv stats cols (2 * k) ∧ cscv stats cols (2 * k) ≤ 1) ∧
      ∀ splits : List (List ℕ), splits.Perm (combinations (List.range (2 * k)) k) →
        2 ≤ cols.length → ((splits.filter (lowerHalf stats (cols.map floats) (2 * k))).length /
          splits.length : ℚ) = cscv stats cols (2 * k) := by
  have hhalf : 2 * k / 2 = k := by omega
  have hall : ((combinations (List.range (2 * k)) k).length : ℚ) = (halves (2 * k)).card := by
    have h := filter_combinations_length (fun _ => True) (2 * k)
    rw [hhalf, Finset.filter_true] at h
    rw [← h, List.filter_eq_self.mpr fun _ _ => decide_eq_true trivial]
  have hfiltered : 2 ≤ cols.length →
      ((combinations (List.range (2 * k)) k).filter
        (lowerHalf stats (cols.map floats) (2 * k))).length =
      ((halves (2 * k)).filter (Overfits stats cols (2 * k))).card := by
    intro hcols
    have h := filter_combinations_length (Overfits stats cols (2 * k)) (2 * k)
    rw [hhalf] at h
    rw [← h]
    congr 1
    refine List.filter_congr fun is his => ?_
    obtain ⟨hsub, _⟩ := mem_combinations.mp his
    rw [Bool.eq_iff_iff, decide_eq_true_eq]
    exact lowerHalf_iff (by omega) (hsub.nodup List.nodup_range) hsub.subset
  refine ⟨?_, ⟨by unfold cscv; positivity, ?_⟩, ?_⟩
  · have heven : evenRows (2 * k) = 2 * k := by
      unfold evenRows
      rw [if_pos (by omega)]
    unfold probabilityOfBacktestOverfitting
    dsimp only
    rw [heven, hhalf, List.length_map]
    by_cases hfew : cols.length < 2 ∨ k = 0
    · rw [if_pos hfew, if_pos (by omega)]
    rw [if_neg hfew, if_neg (by omega), if_neg ?_]
    · rw [hall, hfiltered (by omega)]
      rfl
    · -- there is a half
      intro hnone
      have hmem : List.range k ∈ combinations (List.range (2 * k)) k := by
        refine mem_combinations.mpr ⟨?_, List.length_range⟩
        exact List.range_sublist.mpr (by omega)
      rw [hnone] at hmem
      exact List.not_mem_nil hmem
  · unfold cscv
    refine div_le_one_of_le₀ ?_ (by positivity)
    exact_mod_cast Finset.card_filter_le _ _
  · intro splits hperm hcols
    rw [(hperm.filter _).length_eq, hperm.length_eq, hall, hfiltered hcols]
    rfl

/-- Two strategies, each the best of one of two blocks, and the combinations in reverse. -/
theorem pbo_eq_cscv_two :
    let stats : Stats := { sqrt := id, ppf := fun _ => .fin 0, cdf := id }
    probabilityOfBacktestOverfitting stats ([[2, 1], [1, 2]].map floats) 2 =
        some (cscv stats [[2, 1], [1, 2]] 2) ∧
      (([[1], [0]].filter (lowerHalf stats ([[2, 1], [1, 2]].map floats) 2)).length / 2 : ℚ) =
        cscv stats [[2, 1], [1, 2]] 2 := by
  intro stats
  have h := pbo_eq_cscv stats [[2, 1], [1, 2]] 1
  exact ⟨h.1, h.2.2 [[1], [0]] (by decide) (by decide)⟩

end

end PaperTrading.Gate
