import PaperTrading.Fund.Signal
import PaperTrading.Lib.Comprehension
import PaperTrading.Lib.CrossSection
import PaperTrading.Lib.Fallible

/-!
# Portfolio construction

`blend_signals` of `portfolio/construction.py`: every ticker's conviction is the weighted mean of
the views that were not abstained from, and the convictions are scaled to the gross target, first
taken from their mean if the sleeve is market neutral. In exact arithmetic.

`blend_book` says what the book is: the cross-section of the convictions over the tickers that
have a signal. An abstained signal is no vote, but its ticker is in that set. So a market neutral
sleeve is not always the one without the abstained signals (`abstention_counts`);
`blend_abstained_iff` says exactly when it is.
-/

namespace PaperTrading.Fund

open PaperTrading.Lib

def ABSTAINED : Text := "abstained".toList

/-- `signal.metadata.get("abstained") is True` -/
def Signal.abstained (s : Signal) : Bool := s.metadata.get? ABSTAINED = some (.flag true)

/-- `BlendResult` -/
structure BlendResult where
  convictions : Dict Text ℚ
  weights : Dict Text ℚ

/-- `weighted_sum` and `weight_total` -/
structure Votes where
  weightedSum : Dict Text ℚ
  weightTotal : Dict Text ℚ

/-- A turn of the loop over the signals. A model without a weight is a `KeyError`. -/
def addVote (modelWeights : Dict Text ℚ) (v : Votes) (s : Signal) : Except Text Votes :=
  if s.abstained then .ok v
  else
    match modelWeights.get? s.modelName with
    | none => .error s.modelName
    | some w => .ok {
        weightedSum := v.weightedSum.set s.ticker
          ((v.weightedSum.get? s.ticker).getD 0 + w * s.value)
        weightTotal := v.weightTotal.set s.ticker ((v.weightTotal.get? s.ticker).getD 0 + w) }

/-- `weighted_sum[t] / weight_total[t] if weight_total.get(t) else 0.0`. Where there is a total
there is a sum. -/
def Votes.conviction (v : Votes) (t : Text) : ℚ :=
  if (v.weightTotal.get? t).getD 0 ≠ 0 then
    (v.weightedSum.get? t).getD 0 / (v.weightTotal.get? t).getD 0
  else 0

/-- `sorted({s.ticker for s in signals})` -/
def tickersOf (signals : List Signal) : List Text := sortedSet (signals.map Signal.ticker)

theorem nodup_tickersOf (signals : List Signal) : (tickersOf signals).Nodup := nodup_sortedSet _

def MIN_GROSS : ℚ := 1 / 10 ^ 9

theorem minGross_pos : 0 < MIN_GROSS := by
  unfold MIN_GROSS
  positivity

/-- From the convictions to the weights. -/
def weightsOf (tickers : List Text) (h : tickers.Nodup) (convictions : Dict Text ℚ)
    (grossTarget : ℚ) (marketNeutral : Bool) : Dict Text ℚ :=
  let mean := convictions.values.sum / convictions.values.length
  let scaled :=
    if marketNeutral && tickers ≠ [] then convictions.map fun _ c => c - mean else convictions
  let gross := (scaled.values.map abs).sum
  if gross < MIN_GROSS then Dict.ofKeys tickers h fun _ => 0
  else scaled.map fun _ c => c / gross * grossTarget

/-- `blend_signals` -/
def blendSignals (signals : List Signal) (modelWeights : Dict Text ℚ) (grossTarget : ℚ)
    (marketNeutral : Bool) : Except Text BlendResult := do
  let votes ← signals.foldlM (addVote modelWeights) ⟨Dict.empty, Dict.empty⟩
  let convictions := Dict.ofKeys (tickersOf signals) (nodup_tickersOf signals) votes.conviction
  return {
    convictions := convictions
    weights := weightsOf (tickersOf signals) (nodup_tickersOf signals) convictions grossTarget
      marketNeutral }

/-- `weights.get(t, 0.0)` -/
def BlendResult.weight (r : BlendResult) (t : Text) : ℚ := (r.weights.get? t).getD 0

/-! ## The votes -/

/-- The signals on a ticker that are votes. -/
def voters (signals : List Signal) (t : Text) : List Signal :=
  signals.filter fun s => ¬ s.abstained ∧ s.ticker = t

/-- Every model that votes has a weight. -/
def Weighted (modelWeights : Dict Text ℚ) (signals : List Signal) : Prop :=
  ∀ s ∈ signals, ¬ s.abstained → (modelWeights.get? s.modelName).isSome

section
variable (modelWeights : Dict Text ℚ)

/-- The weight of a signal's model. -/
def weightOf (s : Signal) : ℚ := (modelWeights.get? s.modelName).getD 0

/-- The weighted mean of the votes on a ticker, or zero without any. -/
def meanView (signals : List Signal) (t : Text) : ℚ :=
  ((voters signals t).map fun s => weightOf modelWeights s * s.value).sum /
    ((voters signals t).map (weightOf modelWeights)).sum

variable {modelWeights}

/-- One signal adds its vote to its ticker. -/
theorem addVote_ok {v : Votes} {s : Signal}
    (h : ¬ s.abstained → (modelWeights.get? s.modelName).isSome) :
    ∃ v', addVote modelWeights v s = .ok v' ∧ ∀ t,
      (v'.weightedSum.get? t).getD 0 = (v.weightedSum.get? t).getD 0 +
        ((voters [s] t).map fun s => weightOf modelWeights s * s.value).sum ∧
      (v'.weightTotal.get? t).getD 0 = (v.weightTotal.get? t).getD 0 +
        ((voters [s] t).map (weightOf modelWeights)).sum := by
  unfold addVote voters
  by_cases hs : s.abstained = true
  · rw [if_pos hs]
    refine ⟨v, rfl, fun t => ?_⟩
    simp [hs]
  · rw [if_neg hs]
    obtain ⟨w, hw⟩ := Option.isSome_iff_exists.mp (h hs)
    rw [hw]
    refine ⟨_, rfl, fun t => ?_⟩
    simp only [Dict.get?_set]
    by_cases ht : s.ticker = t
    · simp [hs, ht, weightOf, hw]
    · have ht' : ¬ t = s.ticker := fun h => ht h.symm
      simp [hs, ht, ht']

theorem voters_cons (s : Signal) (signals : List Signal) (t : Text) :
    voters (s :: signals) t = voters [s] t ++ voters signals t := by
  unfold voters
  rw [← List.filter_append]
  rfl

/-- The loop adds up the votes on each ticker. -/
theorem votes_ok : ∀ {signals : List Signal} {v : Votes}, Weighted modelWeights signals →
    ∃ v', signals.foldlM (addVote modelWeights) v = .ok v' ∧ ∀ t,
      (v'.weightedSum.get? t).getD 0 = (v.weightedSum.get? t).getD 0 +
        ((voters signals t).map fun s => weightOf modelWeights s * s.value).sum ∧
      (v'.weightTotal.get? t).getD 0 = (v.weightTotal.get? t).getD 0 +
        ((voters signals t).map (weightOf modelWeights)).sum := by
  intro signals
  induction signals with
  | nil =>
    intro v _
    exact ⟨v, rfl, fun t => ⟨(add_zero _).symm, (add_zero _).symm⟩⟩
  | cons s signals ih =>
    intro v h
    obtain ⟨v₁, hv₁, hsum₁⟩ := addVote_ok (v := v) (h s List.mem_cons_self)
    obtain ⟨v₂, hv₂, hsum₂⟩ := ih (v := v₁) fun s' hs' => h s' (List.mem_cons_of_mem _ hs')
    refine ⟨v₂, ?_, fun t => ?_⟩
    · rw [List.foldlM_cons, hv₁]
      exact hv₂
    · rw [(hsum₂ t).1, (hsum₂ t).2, (hsum₁ t).1, (hsum₁ t).2, voters_cons s signals,
        List.map_append, List.map_append, List.sum_append, List.sum_append, add_assoc, add_assoc]
      exact ⟨rfl, rfl⟩

theorem weighted_of_votes : ∀ {signals : List Signal} {v v' : Votes},
    signals.foldlM (addVote modelWeights) v = .ok v' → Weighted modelWeights signals := by
  intro signals
  induction signals with
  | nil => exact fun _ _ hs => nomatch hs
  | cons s signals ih =>
    intro v v' h s' hs' hvote
    rw [List.foldlM_cons] at h
    obtain ⟨v₁, hv₁, h⟩ := except_bind_ok h
    rcases List.mem_cons.mp hs' with rfl | hs'
    · unfold addVote at hv₁
      rw [if_neg hvote] at hv₁
      cases hw : modelWeights.get? s'.modelName with
      | none =>
        rw [hw] at hv₁
        cases hv₁
      | some w => rfl
    · exact ih h s' hs' hvote

/-- What the loop leaves gives each ticker its mean view. -/
theorem conviction_eq {signals : List Signal} (h : Weighted modelWeights signals) :
    ∃ v, signals.foldlM (addVote modelWeights) ⟨Dict.empty, Dict.empty⟩ = .ok v ∧
      v.conviction = meanView modelWeights signals := by
  obtain ⟨v, hv, hsums⟩ := votes_ok (v := ⟨Dict.empty, Dict.empty⟩) h
  refine ⟨v, hv, ?_⟩
  funext t
  unfold Votes.conviction meanView
  rw [(hsums t).1, (hsums t).2]
  show (if 0 + _ ≠ (0 : ℚ) then (0 + _) / (0 + _) else 0) = _
  rw [zero_add, zero_add]
  split
  · rfl
  next hzero =>
    rw [not_not.mp hzero, div_zero]

end

/-! ## The book -/

/-- The scores: the convictions, from their mean if the sleeve is market neutral. -/
def scoreOf (T : Finset Text) (c : Text → ℚ) (marketNeutral : Bool) : Text → ℚ :=
  if marketNeutral then demeaned T c else c

section
variable {keys : List Text} (hkeys : keys.Nodup) (f : Text → ℚ)
include hkeys

theorem sum_keys : (keys.map f).sum = ∑ t ∈ keys.toFinset, f t := (List.sum_toFinset f hkeys).symm

theorem mean_keys : (keys.map f).sum / (keys.map f).length = mean keys.toFinset f := by
  unfold mean
  rw [sum_keys hkeys, List.length_map, List.toFinset_card_of_nodup hkeys]

theorem scaled_ofKeys (marketNeutral : Bool) :
    (if marketNeutral && keys ≠ [] then (Dict.ofKeys keys hkeys f).map fun _ c =>
        c - (Dict.ofKeys keys hkeys f).values.sum / (Dict.ofKeys keys hkeys f).values.length
      else Dict.ofKeys keys hkeys f) =
      Dict.ofKeys keys hkeys (scoreOf keys.toFinset f marketNeutral) := by
  rw [Dict.values_ofKeys, mean_keys hkeys]
  cases marketNeutral with
  | false => rfl
  | true =>
    by_cases hnil : keys = []
    · rw [if_neg (by simp [hnil])]
      exact Dict.ofKeys_congr hkeys fun t ht => by rw [hnil] at ht; cases ht
    · rw [if_pos (by simp [hnil]), Dict.map_ofKeys hkeys f (· - mean keys.toFinset f)]
      rfl

/-- The weights are the scores scaled to the gross target. -/
theorem weightsOf_eq (grossTarget : ℚ) (marketNeutral : Bool) :
    weightsOf keys hkeys (Dict.ofKeys keys hkeys f) grossTarget marketNeutral =
      Dict.ofKeys keys hkeys (scaledTo MIN_GROSS keys.toFinset
        (scoreOf keys.toFinset f marketNeutral) grossTarget) := by
  unfold weightsOf
  dsimp only
  rw [scaled_ofKeys, Dict.values_ofKeys, List.map_map, sum_keys hkeys]
  show (if spread keys.toFinset (scoreOf keys.toFinset f marketNeutral) < MIN_GROSS then _ else _) = _
  split
  next hlt => exact Dict.ofKeys_congr hkeys fun t _ => (scaledTo_of_lt hlt t).symm
  next hge =>
    rw [Dict.map_ofKeys hkeys _ fun c => c / _ * grossTarget]
    refine Dict.ofKeys_congr hkeys fun t ht => ?_
    exact (scaledTo_of_le (not_lt.mp hge) (List.mem_toFinset.mpr ht)).symm

end

section
variable (modelWeights : Dict Text ℚ) (signals : List Signal)

/-- The tickers that have a signal. -/
def covered : Finset Text := (tickersOf signals).toFinset

/-- What `blend_signals` returns where it returns. -/
def blended (grossTarget : ℚ) (marketNeutral : Bool) : BlendResult where
  convictions := Dict.ofKeys (tickersOf signals) (nodup_tickersOf signals) (meanView modelWeights signals)
  weights := Dict.ofKeys (tickersOf signals) (nodup_tickersOf signals) (scaledTo MIN_GROSS
    (covered signals) (scoreOf (covered signals) (meanView modelWeights signals) marketNeutral) grossTarget)

variable {modelWeights signals}

theorem mem_covered {t : Text} : t ∈ covered signals ↔ ∃ s ∈ signals, s.ticker = t := by
  unfold covered tickersOf
  rw [List.mem_toFinset, mem_sortedSet, List.mem_map]

/-- It returns exactly when every model that votes has a weight. -/
theorem blend_ok_iff {grossTarget : ℚ} {marketNeutral : Bool} {r : BlendResult} :
    blendSignals signals modelWeights grossTarget marketNeutral = .ok r ↔
      Weighted modelWeights signals ∧ r = blended modelWeights signals grossTarget marketNeutral := by
  constructor
  · intro h
    unfold blendSignals at h
    obtain ⟨v, hv, hr⟩ := except_bind_ok h
    have hweighted := weighted_of_votes hv
    obtain ⟨v', hv', hconviction⟩ := conviction_eq hweighted
    obtain rfl : v = v' := Except.ok.inj (hv.symm.trans hv')
    refine ⟨hweighted, ?_⟩
    dsimp only at hr
    rw [hconviction, weightsOf_eq] at hr
    exact (Except.ok.inj hr).symm
  · rintro ⟨hweighted, rfl⟩
    obtain ⟨v, hv, hconviction⟩ := conviction_eq hweighted
    unfold blendSignals
    rw [hv]
    show Except.ok (BlendResult.mk _ (weightsOf _ _ (Dict.ofKeys _ _ v.conviction) _ _)) = _
    rw [hconviction, weightsOf_eq]
    rfl

theorem blended_weight (grossTarget : ℚ) (marketNeutral : Bool) (t : Text) :
    (blended modelWeights signals grossTarget marketNeutral).weight t =
      scaledTo MIN_GROSS (covered signals)
        (scoreOf (covered signals) (meanView modelWeights signals) marketNeutral) grossTarget t := by
  unfold BlendResult.weight blended
  dsimp only
  rw [Dict.get?_ofKeys]
  split
  · rfl
  next ht => exact (scaledTo_of_notMem fun h => ht (List.mem_toFinset.mp h)).symm

/-! ## What it depends on -/

theorem blended_perm {signals' : List Signal} (h : signals.Perm signals') (grossTarget : ℚ)
    (marketNeutral : Bool) : blended modelWeights signals' grossTarget marketNeutral =
      blended modelWeights signals grossTarget marketNeutral := by
  have hview : meanView modelWeights signals' = meanView modelWeights signals := by
    funext t
    have hvoters : (voters signals' t).Perm (voters signals t) := h.symm.filter _
    unfold meanView
    rw [(hvoters.map _).sum_eq, (hvoters.map _).sum_eq]
  have htickers : tickersOf signals' = tickersOf signals :=
    sortedSet_congr fun t => (h.symm.map Signal.ticker).mem_iff
  unfold blended covered
  rw [hview]
  simp only [htickers]

/-- The signals that are votes. -/
def votesOf (signals : List Signal) : List Signal := signals.filter fun s => ¬ s.abstained

theorem weighted_votesOf (h : Weighted modelWeights signals) :
    Weighted modelWeights (votesOf signals) :=
  fun s hs => h s (List.mem_filter.mp hs).1

theorem meanView_votesOf : meanView modelWeights (votesOf signals) = meanView modelWeights signals := by
  funext t
  have hvoters : voters (votesOf signals) t = voters signals t := by
    unfold voters votesOf
    rw [List.filter_filter]
    refine List.filter_congr fun s _ => ?_
    cases s.abstained <;> simp
  unfold meanView
  rw [hvoters]

theorem covered_votesOf : covered (votesOf signals) ⊆ covered signals := by
  intro t ht
  obtain ⟨s, hs, rfl⟩ := mem_covered.mp ht
  exact mem_covered.mpr ⟨s, (List.mem_filter.mp hs).1, rfl⟩

/-- A ticker without a vote has no view. -/
theorem meanView_of_notMem {t : Text} (ht : t ∉ covered (votesOf signals)) :
    meanView modelWeights signals t = 0 := by
  have hnone : voters signals t = [] := by
    refine List.filter_eq_nil_iff.mpr fun s hs hvote => ht ?_
    obtain ⟨hcounts, hticker⟩ := of_decide_eq_true hvote
    exact mem_covered.mpr ⟨s, List.mem_filter.mpr ⟨hs, decide_eq_true hcounts⟩, hticker⟩
  unfold meanView
  rw [hnone]
  exact div_zero _

/-- The abstained signals make no difference exactly when the sleeve is not market neutral, or
no ticker is without a vote, or the mean views add up to zero, or nothing is scaled anyway. -/
theorem blended_votesOf_iff {grossTarget : ℚ} (hg : 0 < grossTarget) (marketNeutral : Bool) :
    (∀ t, (blended modelWeights (votesOf signals) grossTarget marketNeutral).weight t =
        (blended modelWeights signals grossTarget marketNeutral).weight t) ↔
      marketNeutral = false ∨ covered signals ⊆ covered (votesOf signals) ∨
        ∑ t ∈ covered signals, meanView modelWeights signals t = 0 ∨
        spread (covered (votesOf signals))
            (demeaned (covered (votesOf signals)) (meanView modelWeights signals)) < MIN_GROSS ∧
          spread (covered signals)
            (demeaned (covered signals) (meanView modelWeights signals)) < MIN_GROSS := by
  simp only [blended_weight, meanView_votesOf]
  cases marketNeutral with
  | false =>
    refine iff_of_true (fun t => ?_) (Or.inl rfl)
    exact scaledTo_subset covered_votesOf (fun t _ ht => meanView_of_notMem ht) t
  | true =>
    rw [or_iff_right (show ¬ true = false from nofun)]
    exact scaledTo_demeaned_subset_iff covered_votesOf (fun t _ ht => meanView_of_notMem ht)
      minGross_pos hg

theorem blended_gross {grossTarget : ℚ} (hg : 0 < grossTarget) (marketNeutral : Bool) :
    ((blended modelWeights signals grossTarget marketNeutral).weights.values.map abs).sum =
        grossTarget ∨
      ∀ w ∈ (blended modelWeights signals grossTarget marketNeutral).weights.values, w = 0 := by
  unfold blended
  dsimp only
  rw [Dict.values_ofKeys, List.map_map, sum_keys (nodup_tickersOf signals)]
  rcases sum_abs_scaledTo (T := covered signals)
      (c := scoreOf (covered signals) (meanView modelWeights signals) marketNeutral) minGross_pos
      hg.le with h | h
  · exact Or.inl h
  · refine Or.inr fun w hw => ?_
    obtain ⟨t, _, rfl⟩ := List.mem_map.mp hw
    exact h t

theorem blended_neutral (grossTarget : ℚ) :
    (blended modelWeights signals grossTarget true).weights.values.sum = 0 := by
  unfold blended
  dsimp only
  rw [Dict.values_ofKeys, sum_keys (nodup_tickersOf signals)]
  exact sum_scaledTo (sum_demeaned _ _)

end

/-! ## Abstentions -/

/-- The weights of a sleeve have the gross target together or are all zero, add up to zero in a
market neutral sleeve, and do not depend on the order of the signals. They are those without the
abstained signals exactly when the sleeve is not market neutral, or every ticker has a vote, or
the mean views add up to zero, or they are too close to their mean to be scaled. -/
theorem blend_abstained_iff (signals : List Signal) (modelWeights : Dict Text ℚ)
    (grossTarget : ℚ) (marketNeutral : Bool) (r : BlendResult) (hg : 0 < grossTarget)
    (h : blendSignals signals modelWeights grossTarget marketNeutral = .ok r) :
    ((r.weights.values.map abs).sum = grossTarget ∨ ∀ w ∈ r.weights.values, w = 0) ∧
    (marketNeutral = true → r.weights.values.sum = 0) ∧
    (∀ signals', signals.Perm signals' →
      blendSignals signals' modelWeights grossTarget marketNeutral = .ok r) ∧
    ∃ r₀, blendSignals (votesOf signals) modelWeights grossTarget marketNeutral = .ok r₀ ∧
      ((∀ t, r₀.weight t = r.weight t) ↔
        marketNeutral = false ∨ covered signals ⊆ covered (votesOf signals) ∨
          ∑ t ∈ covered signals, meanView modelWeights signals t = 0 ∨
          spread (covered (votesOf signals))
              (demeaned (covered (votesOf signals)) (meanView modelWeights signals)) < MIN_GROSS ∧
            spread (covered signals)
              (demeaned (covered signals) (meanView modelWeights signals)) < MIN_GROSS) := by
  obtain ⟨hweighted, rfl⟩ := blend_ok_iff.mp h
  refine ⟨blended_gross hg marketNeutral, ?_, ?_, ?_⟩
  · intro hneutral
    rw [hneutral]
    exact blended_neutral grossTarget
  · intro signals' hperm
    refine blend_ok_iff.mpr ⟨fun s hs => hweighted s (hperm.mem_iff.mpr hs), ?_⟩
    exact (blended_perm hperm grossTarget marketNeutral).symm
  · exact ⟨_, blend_ok_iff.mpr ⟨weighted_votesOf hweighted, rfl⟩,
      blended_votesOf_iff hg marketNeutral⟩

/-- A model that is sure of one ticker and abstains from another. -/
def sureSignals : List Signal :=
  [⟨"pead".toList, "AAA".toList, [], 1, none, Dict.empty⟩,
    ⟨"pead".toList, "BBB".toList, [], 0, none, Dict.empty.set ABSTAINED (.flag true)⟩]

def oneModel : Dict Text ℚ := Dict.empty.set "pead".toList 1

theorem sureSignals_weighted : Weighted oneModel sureSignals := by
  intro s hs _
  have hname : s.modelName = "pead".toList := by
    rcases List.mem_cons.mp hs with rfl | hs
    · rfl
    · rw [List.mem_singleton.mp hs]
  rw [hname]
  rfl

theorem blend_abstained_iff_sure :
    let r := blended oneModel sureSignals 1 true
    ((r.weights.values.map abs).sum = 1 ∨ ∀ w ∈ r.weights.values, w = 0) ∧
      (true = true → r.weights.values.sum = 0) :=
  let h := blend_abstained_iff sureSignals oneModel 1 true _ one_pos
    (blend_ok_iff.mpr ⟨sureSignals_weighted, rfl⟩)
  ⟨h.1, h.2.1⟩

/-- With the abstention, the market neutral sleeve is long the one and short the other; without
it, the one is all there is and the sleeve is flat. -/
theorem abstention_counts : ¬ ∀ (signals : List Signal) (modelWeights : Dict Text ℚ)
    (grossTarget : ℚ) (marketNeutral : Bool) (r r₀ : BlendResult),
    (∀ w ∈ modelWeights.values, 0 < w) → 0 < grossTarget →
    blendSignals signals modelWeights grossTarget marketNeutral = .ok r →
    blendSignals (votesOf signals) modelWeights grossTarget marketNeutral = .ok r₀ →
    ∀ t, r₀.weight t = r.weight t := by
  intro h
  have hweight := h sureSignals oneModel 1 true _ _ (by decide) one_pos
    (blend_ok_iff.mpr ⟨sureSignals_weighted, rfl⟩)
    (blend_ok_iff.mpr ⟨weighted_votesOf sureSignals_weighted, rfl⟩) "BBB".toList
  revert hweight
  decide +kernel

end PaperTrading.Fund
