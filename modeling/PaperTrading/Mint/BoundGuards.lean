import PaperTrading.Mint.Bounds

/-!
# The guard of bounds

`redundant_bound_reason` looks at the indicators of a name in the order they are first met,
and gives the reason of the first that has one. A redundant bound is an atom that can be
left out (`redundant_droppable`); an empty band is a group of bounds that no number meets,
and a name with one is never true.
-/

namespace PaperTrading.Mint

open Lib
open Signals

/-! ## Conjunctions -/

section Conjunctions

variable {preds : List Predicate} {s : Ohlc} {i : ℕ}

theorem allPreds_true_iff : allPreds preds s i = .ok true ↔ ∀ p ∈ preds, p s i = .ok true := by
  unfold allPreds allOf
  rw [show true = !false from rfl, stopAt_open_iff, List.forall_mem_map]

/-- Where every part has a value, so has the whole. -/
theorem allPreds_valued (h : ∀ p ∈ preds, ∃ b, p s i = .ok b) : ∃ b, allPreds preds s i = .ok b := by
  cases hall : allPreds preds s i with
  | ok b => exact ⟨b, rfl⟩
  | error e =>
    obtain ⟨us, e, ws, hxs, -⟩ := stopAt_error_iff.mp ⟨e, hall⟩
    have hmem : .error e ∈ preds.map fun p => p s i := by
      rw [hxs]
      exact List.mem_append_right _ List.mem_cons_self
    obtain ⟨p, hp, he⟩ := List.mem_map.mp hmem
    obtain ⟨b, hb⟩ := h p hp
    cases hb.symm.trans he

/-- Two values are the same when they are true together. -/
theorem same_of_true {x y : Except String Bool} (hx : ∃ b, x = .ok b) (hy : ∃ b, y = .ok b)
    (h : x = .ok true ↔ y = .ok true) : x = y := by
  obtain ⟨b, rfl⟩ := hx
  obtain ⟨c, rfl⟩ := hy
  cases b <;> cases c <;> simp_all

/-- A part can be left out that holds whenever the others do. -/
theorem eraseIdx_same {k : ℕ} (hvalued : ∀ p ∈ preds, ∃ b, p s i = .ok b)
    (h : (∀ p ∈ preds.eraseIdx k, p s i = .ok true) → ∀ p ∈ preds, p s i = .ok true) :
    allPreds (preds.eraseIdx k) s i = allPreds preds s i := by
  have hsub : ∀ p ∈ preds.eraseIdx k, p ∈ preds := fun p hp => List.mem_of_mem_eraseIdx hp
  refine same_of_true (allPreds_valued fun p hp => hvalued p (hsub p hp)) (allPreds_valued hvalued) ?_
  rw [allPreds_true_iff, allPreds_true_iff]
  exact ⟨h, fun hall p hp => hall p (hsub p hp)⟩

end Conjunctions

/-! ## Where an atom stands -/

/-- An element found by a filter is found at a place, and without it the others are. -/
theorem filterMap_eraseIdx {α β : Type} {f : α → Option β} {l : List α} {i : ℕ} {b : β}
    (h : (l.filterMap f)[i]? = some b) : ∃ k a, l[k]? = some a ∧ f a = some b ∧
      (l.eraseIdx k).filterMap f = (l.filterMap f).eraseIdx i := by
  induction l generalizing i with
  | nil => cases h
  | cons x l ih =>
    cases hx : f x with
    | none =>
      rw [List.filterMap_cons_none hx] at h
      obtain ⟨k, a, hk, ha, hrest⟩ := ih h
      refine ⟨k + 1, a, hk, ha, ?_⟩
      rw [List.eraseIdx_cons_succ, List.filterMap_cons_none hx, List.filterMap_cons_none hx, hrest]
    | some c =>
      rw [List.filterMap_cons_some hx] at h
      cases i with
      | zero =>
        refine ⟨0, x, rfl, hx.trans h, ?_⟩
        rw [List.filterMap_cons_some hx]
        rfl
      | succ i =>
        obtain ⟨k, a, hk, ha, hrest⟩ := ih h
        refine ⟨k + 1, a, hk, ha, ?_⟩
        rw [List.eraseIdx_cons_succ, List.filterMap_cons_some hx, List.filterMap_cons_some hx, hrest]
        rfl

/-- The atom of an operand, if it is of the indicator. -/
def atomOf (key : String × String × List ℕ) (o : Text × Text) : Option AtomParts :=
  (inspectAtom o.1).filter fun a => a.key = key

theorem atomOf_eq_some {key : String × String × List ℕ} {o : Text × Text} {a : AtomParts} :
    atomOf key o = some a ↔ inspectAtom o.1 = some a ∧ a.key = key := by
  unfold atomOf
  rw [Option.filter_eq_some_iff, decide_eq_true_eq]

theorem groupOf_operands (x : Text) (key : String × String × List ℕ) :
    groupOf x key = (operands x).filterMap (atomOf key) := by
  unfold groupOf
  rw [known_operands, List.filter_filterMap]
  rfl

section Dropping

variable {x : Text} {key : String × String × List ℕ} {sqrt : ℚ → ℚ} {preds : List Predicate}
variable {s : Ohlc} {i : ℕ}

/-- The predicate of an operand is the one at its place. -/
theorem pred_at (h : (conjuncts x).mapM (parseClause sqrt) = .ok preds) {k : ℕ} {p : Predicate}
    (hp : preds[k]? = some p) :
    ∃ o, (operands x)[k]? = some o ∧ o ∈ operands x ∧ parseClause sqrt o.2 = .ok p := by
  obtain ⟨t, ht, hparse⟩ := mapM_getElem? h hp
  rw [conjuncts_operands, List.getElem?_map] at ht
  obtain ⟨o, ho, rfl⟩ := Option.map_eq_some_iff.mp ht
  exact ⟨o, ho, List.mem_of_getElem? ho, hparse⟩

/-- Every operand has its predicate. -/
theorem pred_of (h : (conjuncts x).mapM (parseClause sqrt) = .ok preds) {k : ℕ} {o : Text × Text}
    (ho : (operands x)[k]? = some o) : ∃ p, preds[k]? = some p ∧ parseClause sqrt o.2 = .ok p := by
  have hplace : (conjuncts x)[k]? = some o.2 := by
    rw [conjuncts_operands, List.getElem?_map, ho]
    rfl
  exact mapM_getElem?_of h hplace

/-- Where an operand's predicate is true, the atom is well worded and holds. -/
theorem holds_of_pred {o : Text × Text} {a : AtomParts} {p : Predicate} (ho : o ∈ operands x)
    (ha : inspectAtom o.1 = some a) (hp : parseClause sqrt o.2 = .ok p) :
    p s i = .ok true ↔ a.misworded = false ∧ a.condition.eval sqrt s i = .ok true := by
  rw [clause_inspect ho ha hp]
  cases a.misworded with
  | false => exact ⟨fun h => ⟨rfl, h⟩, fun h => h.2⟩
  | true =>
    refine ⟨fun h => ?_, fun h => ?_⟩
    · cases h
    · cases h.1

/-- The atoms of the operands left hold where the predicates left do. -/
theorem holds_of_left (h : (conjuncts x).mapM (parseClause sqrt) = .ok preds) {k : ℕ}
    (hall : ∀ p ∈ preds.eraseIdx k, p s i = .ok true) {a : AtomParts}
    (ha : a ∈ ((operands x).eraseIdx k).filterMap (atomOf key)) :
    a.misworded = false ∧ a.condition.eval sqrt s i = .ok true := by
  obtain ⟨o, ho, hatom⟩ := List.mem_filterMap.mp ha
  obtain ⟨j, hj, hget⟩ := List.mem_eraseIdx_iff_getElem?.mp ho
  obtain ⟨p, hp, hparse⟩ := pred_of h hget
  refine (holds_of_pred (List.mem_of_getElem? hget) (atomOf_eq_some.mp hatom).1 hparse).mp ?_
  exact hall p (List.mem_eraseIdx_iff_getElem?.mpr ⟨j, hj, hp⟩)

/-- A bound is redundant only if an operand can be left out. -/
theorem redundant_droppable {n : ℕ} (hlen : (groupOf x key).length ≠ 1)
    (hn : n < (groupOf x key).length)
    (hsame : mergedInterval ((groupOf x key).eraseIdx n) = mergedInterval (groupOf x key)) :
    ∃ k < (operands x).length, ∀ sqrt preds, (conjuncts x).mapM (parseClause sqrt) = .ok preds →
      ∀ s i, (∀ p ∈ preds.eraseIdx k, p s i = .ok true) → ∀ p ∈ preds, p s i = .ok true := by
  obtain ⟨a, ha⟩ : ∃ a, (groupOf x key)[n]? = some a := ⟨_, List.getElem?_eq_getElem hn⟩
  cases hword : a.misworded with
  | true =>
    -- the misworded atom is never true, so any other atom can be left out
    obtain ⟨m, hm, hne⟩ : ∃ m < (groupOf x key).length, n ≠ m := by
      by_cases h0 : n = 0
      · exact ⟨1, by omega, by omega⟩
      · exact ⟨0, by omega, h0⟩
    obtain ⟨b, hb⟩ : ∃ b, (groupOf x key)[m]? = some b := ⟨_, List.getElem?_eq_getElem hm⟩
    rw [groupOf_operands] at ha hb
    obtain ⟨k, o, hk, -, hrest⟩ := filterMap_eraseIdx hb
    refine ⟨k, (List.getElem?_eq_some_iff.mp hk).1, fun sqrt preds h s i hall => ?_⟩
    have hleft : a ∈ ((operands x).eraseIdx k).filterMap (atomOf key) := by
      rw [hrest]
      exact List.mem_eraseIdx_iff_getElem?.mpr ⟨n, hne, ha⟩
    cases hword.symm.trans (holds_of_left h hall hleft).1
  | false =>
    have hgroup := oneIndicator_groupOf x key
    have hmem := List.mem_of_getElem? ha
    have hne : (groupOf x key).eraseIdx n ≠ [] := by
      intro hnil
      have hzero := congrArg List.length hnil
      rw [List.length_eraseIdx_of_lt hn, List.length_nil] at hzero
      omega
    have ha' := ha
    rw [groupOf_operands] at ha'
    obtain ⟨k, o, hk, hatom, hrest⟩ := filterMap_eraseIdx ha'
    rw [← groupOf_operands] at hrest
    refine ⟨k, (List.getElem?_eq_some_iff.mp hk).1, fun sqrt preds h s i hall p hp => ?_⟩
    obtain ⟨j, hj⟩ := List.getElem?_of_mem hp
    by_cases hjk : j = k
    · obtain ⟨o', ho', hin, hparse⟩ := pred_at h hj
      obtain rfl : o' = o := Option.some.inj (ho'.symm.trans (hjk ▸ hk))
      refine (holds_of_pred hin (atomOf_eq_some.mp hatom).1 hparse).mpr ⟨hword, ?_⟩
      have hothers : OneIndicator ((groupOf x key).eraseIdx n) key := fun a' ha' =>
        hgroup a' (List.mem_of_mem_eraseIdx ha')
      refine implied hothers (hgroup a hmem).1 (hgroup a hmem).2 hne (fun b hb => ?_) fun a' ha' => ?_
      · obtain ⟨b', hb', htighter⟩ := exists_wanted hmem hb
        rw [← wanted_eq_of_merged hsame] at hb'
        obtain ⟨a', ha', hmem'⟩ := of_mem_wanted hb'
        exact ⟨a', ha', b', hmem', htighter⟩
      · rw [← hrest] at ha'
        exact (holds_of_left h hall ha').2
    · exact hall p (List.mem_eraseIdx_iff_getElem?.mpr ⟨j, hjk, hj⟩)

end Dropping

/-! ## The two reasons -/

theorem groupBoundReason_emptyBand {group : List AtomParts} (hne : group ≠ []) :
    groupBoundReason group = some "empty_band" ↔ emptyBand (mergedInterval group) = true := by
  unfold groupBoundReason
  rw [if_neg hne]
  split
  next hempty => exact iff_of_true rfl hempty
  next hempty =>
    refine iff_of_false ?_ hempty
    split
    · decide
    · split
      · decide
      · split <;> decide

theorem groupBoundReason_redundant {group : List AtomParts}
    (h : groupBoundReason group = some "redundant_threshold") : group.length ≠ 1 ∧
      ∃ n < group.length, mergedInterval (group.eraseIdx n) = mergedInterval group := by
  unfold groupBoundReason at h
  split at h
  next => cases h
  next =>
    split at h
    next => exact absurd (Option.some.inj h) (by decide)
    next =>
      split at h
      next => cases h
      next hlen =>
        split at h
        next => exact absurd (Option.some.inj h) (by decide)
        next =>
          split at h
          next hany =>
            obtain ⟨n, hn, hsame⟩ := List.any_eq_true.mp hany
            exact ⟨hlen, n, List.mem_range.mp hn, of_decide_eq_true hsame⟩
          next => cases h

/-- Where a group has bounds that no number meets, its atoms do not hold together. -/
theorem not_true_of_unmeetable {x : Text} {key : String × String × List ℕ} {sqrt : ℚ → ℚ}
    {preds : List Predicate} {s : Ohlc} {i : ℕ} (h : (conjuncts x).mapM (parseClause sqrt) = .ok preds)
    (hun : Unmeetable (groupOf x key)) : allPreds preds s i ≠ .ok true := by
  intro htrue
  have hholds : ∀ a ∈ groupOf x key, a.condition.eval sqrt s i = .ok true := by
    intro a ha
    rw [groupOf_operands] at ha
    obtain ⟨o, ho, hatom⟩ := List.mem_filterMap.mp ha
    obtain ⟨k, hk⟩ := List.getElem?_of_mem ho
    obtain ⟨p, hp, hparse⟩ := pred_of h hk
    exact ((holds_of_pred ho (atomOf_eq_some.mp hatom).1 hparse).mp
      (allPreds_true_iff.mp htrue p (List.mem_of_getElem? hp))).2
  have hgroup := oneIndicator_groupOf x key
  obtain ⟨a₀, ha₀, b₀, hb₀, -⟩ := hun 0
  obtain ⟨⟨tok, htok⟩, hkey⟩ := hgroup a₀ ha₀
  obtain ⟨v, hv, -⟩ := (holds_iff htok (List.ne_nil_of_mem hb₀)).mp (hholds a₀ ha₀)
  obtain ⟨a, ha, b, hb, hno⟩ := hun v
  obtain ⟨⟨tok', htok'⟩, hkey'⟩ := hgroup a ha
  obtain ⟨w, hw, hmeets⟩ := (holds_iff htok' (List.ne_nil_of_mem hb)).mp (hholds a ha)
  have hsame := hkey'.trans hkey.symm
  unfold AtomParts.key at hsame
  obtain ⟨hfamily, hrest⟩ := Prod.mk.inj hsame
  rw [hfamily, (Prod.mk.inj hrest).2] at hw
  obtain rfl : v = w := Option.some.inj (Except.ok.inj (hv.symm.trans hw))
  cases (hmeets b hb).symm.trans hno

/-- A series of closes. -/
def closesOnly (closes : List ℚ) : Ohlc := ⟨closes, closes, closes, rfl, rfl⟩

/-- Two RSI bounds with a return between them, which raises after a close of zero. -/
def GUARDED : Text := "rsi_2_>45&mom_1b_gt1pc&rsi_2_>50".toList

/-- The conditions of its operands. -/
def guardedConditions : List Condition :=
  [.atom (.rsiRange 2 45 100), .atom (.momGt 1 (1 / 100)), .atom (.rsiRange 2 50 100)]

theorem mapM_guarded (sqrt : ℚ → ℚ) : (conjuncts GUARDED).mapM (parseClause sqrt) =
    .ok (guardedConditions.map (Condition.eval sqrt)) :=
  mapM_conjuncts sqrt (by decide +kernel) (by decide +kernel)

/-- An RSI over 100 is asked for. -/
def TOO_HIGH : Text := "rsi_14_>100".toList

/-- The first indicator has a redundant bound, the second bounds that nothing meets. -/
def TWO_REASONS : Text := "rsi_14_>45&rsi_14_>50&rsi_21_>60&rsi_21_<40".toList

end PaperTrading.Mint
