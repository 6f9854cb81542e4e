import Mathlib.Algebra.BigOperators.Group.Finset.Basic
import Mathlib.Algebra.BigOperators.Intervals
import Mathlib.Data.Finset.Powerset
import Mathlib.Data.Nat.Choose.Sum
import PaperTrading.Report.Blocks

/-!
# The block report by its definition

A block's means are those of the rows that have it and of the rows that do not, its matched
effect weighs the difference of the two means at each depth by the smaller side, and the
sign test's figure is twice the probability of at most the smaller count, at most 1
(`AsDefined`). The report is all that, from the streamed rows as from the accepted ones, but
for the sign test the module computes itself: of as many positive as negative pairs it does
not double the probability (`asDefined_iff`).
-/

namespace PaperTrading.Report

open PaperTrading.Gate (Cell)
open PaperTrading.Lib

/-! ## The definition -/

/-- The numbers a field has in some items. -/
def present (field : Field) (items : List Item) : List ℚ := items.filterMap (·.value field)

def meanOf (values : List ℚ) : Option ℚ :=
  if values = [] then none else some (values.sum / values.length)

/-- The share of the qualified. -/
def passRate (items : List Item) : Option ℚ :=
  if items = [] then none else some (items.countP (·.qualified) / items.length)

/-- The daily Sharpe ratios at one depth. -/
def atDepth (items : List Item) (depth : ℕ) : List ℚ :=
  present .dailySharpe (items.filter fun item => item.depth = depth)

/-- The size of the smaller side at one depth. -/
def smallerSide (withBlock without : List Item) (depth : ℕ) : ℕ :=
  min (atDepth withBlock depth).length (atDepth without depth).length

/-- The mean of the values at one depth, and 0 of none. -/
def depthMean (items : List Item) (depth : ℕ) : ℚ :=
  (atDepth items depth).sum / (atDepth items depth).length

/-- The differences of the means, depth by depth, weighted by the smaller side. -/
def matchedEffect (withBlock without : List Item) : Option ℚ :=
  let depths := ((withBlock ++ without).map (·.depth)).toFinset
  let weight := ∑ d ∈ depths, smallerSide withBlock without d
  if weight = 0 then none
  else some ((∑ d ∈ depths, (smallerSide withBlock without d : ℚ) *
    (depthMean withBlock d - depthMean without d)) / weight)

/-- The effect of a block, from the items with it and those without. -/
def definedEffect (items : List Item) (blocks : String → List String) (level block : String) :
    Effect :=
  let withBlock := items.filter fun item => block ∈ blocks item.strategy
  let without := items.filter fun item => block ∉ blocks item.strategy
  { block := block
    level := level
    nWith := withBlock.length
    nWithout := without.length
    means := FIELDS.map fun field =>
      { label := field.label
        withBlock := round6 (meanOf (present field withBlock))
        withoutBlock := round6 (meanOf (present field without)) }
    passRateWith := round6 (passRate withBlock)
    passRateWithout := round6 (passRate without)
    depthControlled := round6 (matchedEffect withBlock without) }

/-- The effects of all the blocks that some item has. -/
def definedEffects (blocks : String → List String) (level : String) (items : List Item) :
    List Effect :=
  sortEffects ((firstSeen (items.flatMap fun item => blocks item.strategy)).map
    (definedEffect items blocks level))

/-- The probability of at most `k` heads in `n` fair throws. -/
def atMost (n k : ℕ) : ℚ :=
  ((Finset.range n).powerset.filter fun heads => heads.card ≤ k).card / 2 ^ n

/-- The two-sided p-value of a sign test. -/
def exactSignTest (pos neg : ℕ) : ℚ := min 1 (2 * atMost (pos + neg) (min pos neg))

/-- The report is what it is defined to be, from the streamed rows, and so is the sign test. -/
structure AsDefined (stats : Stats) (lines : List Row) (pairs : List PairLink) (pos neg : ℕ) :
    Prop where
  streamed : buildBlockReport stats (iterPublicRows slimPrefilter lines) pairs =
    buildBlockReport stats ((storedResults lines).filter isPreHoldout) pairs
  families : (buildBlockReport stats (iterPublicRows slimPrefilter lines) pairs).families =
    definedEffects familiesOf "family" (itemsOf ((storedResults lines).filter isPreHoldout))
  buckets : (buildBlockReport stats (iterPublicRows slimPrefilter lines) pairs).buckets =
    definedEffects bucketsOf "bucket" (itemsOf ((storedResults lines).filter isPreHoldout))
  sign_test : ownSignTestP stats pos neg = exactSignTest pos neg

/-! ## Members and others -/

section
variable {items : List Item} {has : Item → Prop} [DecidablePred has]

theorem foldl_addTo (values : List (Option ℚ)) : ∀ slot : ℚ × ℕ,
    values.foldl addTo slot =
      (slot.1 + values.reduceOption.sum, slot.2 + values.reduceOption.length) := by
  induction values with
  | nil => intro slot; simp
  | cons value values ih =>
    intro slot
    rw [List.foldl_cons, ih]
    cases value with
    | none => rfl
    | some v =>
      show ((slot.1 + v) + _, (slot.2 + 1) + _) = _
      rw [List.reduceOption_cons_of_some, List.sum_cons, List.length_cons, add_assoc,
        Nat.add_assoc, Nat.add_comm 1]

theorem reduceOption_value (field : Field) (items : List Item) :
    (items.map (Item.value · field)).reduceOption = present field items := by
  unfold present List.reduceOption
  rw [List.filterMap_map]
  rfl

/-- The positions of the members, in order. -/
def membersOf (items : List Item) (has : Item → Prop) [DecidablePred has] : List ℕ :=
  (items.zipIdx.filter fun e => decide (has e.1)).map Prod.snd

/-- What is read at the members' places is read of the members. -/
theorem map_filter_membersOf (items : List Item) (has : Item → Prop) [DecidablePred has] {β : Type} {p : ℕ → Bool} {q : Item → Bool} {f : ℕ → β} {g : Item → β}
    (hp : ∀ i item, items[i]? = some item → p i = q item)
    (hf : ∀ i item, items[i]? = some item → f i = g item) :
    ((membersOf items has).filter p).map f =
      ((items.filter fun item => has item).filter q).map g := by
  have hget : ∀ e ∈ items.zipIdx.filter (fun e => decide (has e.1)), items[e.2]? = some e.1 :=
    fun e he => List.mk_mem_zipIdx_iff_getElem?.mp (List.mem_filter.mp he).1
  have hitems : (items.filter fun item => has item) =
      (items.zipIdx.filter fun e => decide (has e.1)).map Prod.fst := by
    conv_lhs => rw [← List.zipIdx_map_fst 0 items, List.filter_map]
    rfl
  unfold membersOf
  rw [hitems, List.filter_map, List.filter_map, List.map_map, List.map_map]
  have hfilter : (items.zipIdx.filter fun e => decide (has e.1)).filter (p ∘ Prod.snd) =
      (items.zipIdx.filter fun e => decide (has e.1)).filter (q ∘ Prod.fst) :=
    List.filter_congr fun e he => hp _ _ (hget e he)
  rw [hfilter]
  exact List.map_congr_left fun e he => hf _ _ (hget e (List.mem_filter.mp he).1)

theorem map_membersOf (items : List Item) (has : Item → Prop) [DecidablePred has] {β : Type} {f : ℕ → β} {g : Item → β}
    (hf : ∀ i item, items[i]? = some item → f i = g item) :
    (membersOf items has).map f = (items.filter fun item => has item).map g := by
  have h := map_filter_membersOf items has (p := fun _ => true) (q := fun _ => true)
    (fun _ _ _ => rfl) hf
  rwa [List.filter_true, List.filter_true] at h

theorem getD_column {β : Type} {f : Item → β} {z : β} {i : ℕ} {item : Item}
    (h : items[i]? = some item) : (items.map f).getD i z = f item := by
  rw [List.getD_eq_getElem?_getD, List.getElem?_map, h]
  rfl

theorem value_getD {field : Field} {i : ℕ} {item : Item} (h : items[i]? = some item) :
    ((prepare items).values field).getD i none = item.value field := getD_column h

theorem depth_getD {i : ℕ} {item : Item} (h : items[i]? = some item) :
    (prepare items).depth.getD i 0 = item.depth := getD_column h

theorem qualified_getD {i : ℕ} {item : Item} (h : items[i]? = some item) :
    (prepare items).qualified.getD i false = item.qualified := getD_column h

/-- The numbers of all items are those of the members and those of the others. -/
theorem present_split (items : List Item) (has : Item → Prop) [DecidablePred has] (field : Field) :
    (present field (items.filter fun item => has item) ++
      present field (items.filter fun item => ¬ has item)).Perm (present field items) := by
  unfold present
  rw [← List.filterMap_append]
  refine List.Perm.filterMap _ ?_
  have h := List.filter_append_perm (fun item => decide (has item)) items
  simpa using h

/-- The sum and the count of the members' numbers. -/
theorem tally_membersOf (field : Field) :
    (membersOf items has).foldl
        (fun slot i => addTo slot (((prepare items).values field).getD i none)) (0, 0) =
      ((present field (items.filter fun item => has item)).sum,
        (present field (items.filter fun item => has item)).length) := by
  rw [← List.foldl_map, map_membersOf items has fun i item h => value_getD h, foldl_addTo,
    reduceOption_value, zero_add, Nat.zero_add]

theorem ratio_eq_meanOf (values : List ℚ) : ratio values.sum values.length = meanOf values := by
  unfold ratio meanOf
  simp only [List.length_eq_zero_iff]

/-- The totals less the members' are the others'. -/
theorem ratio_others (field : Field) :
    ratio (((prepare items).totals field).1 -
        (present field (items.filter fun item => has item)).sum)
      (((prepare items).totals field).2 -
        (present field (items.filter fun item => has item)).length) =
      meanOf (present field (items.filter fun item => ¬ has item)) := by
  have hsplit := present_split items has field
  have hsum := hsplit.sum_eq
  have hlength := hsplit.length_eq
  rw [List.sum_append] at hsum
  rw [List.length_append] at hlength
  show ratio ((items.map (Item.value · field)).reduceOption.sum - _)
    ((items.map (Item.value · field)).reduceOption.length - _) = _
  rw [reduceOption_value, ← hsum, ← hlength, add_sub_cancel_left, Nat.add_sub_cancel_left]
  exact ratio_eq_meanOf _

/-! ## The matched effect -/

theorem atDepth_split (items : List Item) (has : Item → Prop) [DecidablePred has] (d : ℕ) :
    (atDepth (items.filter fun item => has item) d ++
      atDepth (items.filter fun item => ¬ has item) d).Perm (atDepth items d) := by
  have h := present_split (items.filter fun item => item.depth = d) has .dailySharpe
  rw [List.filter_comm, List.filter_comm (fun item => decide ¬has item)] at h
  exact h

/-- The totals at each depth, the depths as they were first met. -/
theorem depthTotals_entries (items : List Item) : (prepare items).depthTotals.entries =
    (firstSeen (items.map (·.depth))).map fun d =>
      (d, (atDepth items d).sum, (atDepth items d).length) := by
  have hzip : (items.map (Item.value · .dailySharpe)).zip (items.map (·.depth)) =
      items.map fun item => (item.value .dailySharpe, item.depth) := by
    rw [List.zip_map']
  show (foldedBy Prod.snd _ _ _).entries = _
  rw [entries_foldedBy, entries_groupedBy, hzip, List.map_map, List.map_map]
  refine List.map_congr_left fun d _ => ?_
  refine Prod.ext rfl ?_
  show List.foldl (fun slot (e : Option ℚ × ℕ) => addTo slot e.1) (0, 0)
    ((items.map fun item => (item.value .dailySharpe, item.depth)).filter fun x => x.2 = d) = _
  rw [List.filter_map, List.foldl_map]
  show List.foldl (fun slot (item : Item) => addTo slot (item.value .dailySharpe)) (0, 0)
    (items.filter fun item => item.depth = d) = _
  rw [← List.foldl_map, foldl_addTo, reduceOption_value, zero_add, Nat.zero_add]
  rfl

/-- The members' sum and count at a depth. -/
theorem withByDepth_get (d : ℕ) :
    ((foldedBy (fun i => (prepare items).depth.getD i 0)
        (fun slot i => addTo slot (((prepare items).values .dailySharpe).getD i none)) (0, 0)
        ((membersOf items has).filter fun i =>
          (((prepare items).values .dailySharpe).getD i none).isSome)).get? d).getD (0, 0) =
      ((atDepth (items.filter fun item => has item) d).sum,
        (atDepth (items.filter fun item => has item) d).length) := by
  have hfold : ∀ l : List ℕ,
      (if d ∈ l.map (fun i => (prepare items).depth.getD i 0) then
        some ((l.filter fun i => (prepare items).depth.getD i 0 = d).foldl
          (fun slot i => addTo slot (((prepare items).values .dailySharpe).getD i none)) (0, 0))
      else none).getD (0, 0) =
      (l.filter fun i => (prepare items).depth.getD i 0 = d).foldl
        (fun slot i => addTo slot (((prepare items).values .dailySharpe).getD i none)) (0, 0) := by
    intro l
    split
    next => rfl
    next hno =>
      have hnil : l.filter (fun i => (prepare items).depth.getD i 0 = d) = [] := by
        refine List.filter_eq_nil_iff.mpr fun i hi hdepth => hno ?_
        exact List.mem_map.mpr ⟨i, hi, of_decide_eq_true hdepth⟩
      rw [hnil]
      rfl
  rw [get?_foldedBy, hfold, List.filter_filter, ← List.foldl_map,
    map_filter_membersOf items has (q := fun item => (decide (item.depth = d)) &&
        (item.value .dailySharpe).isSome) (g := (Item.value · .dailySharpe)) ?_
      (fun i item h => value_getD h),
    foldl_addTo, zero_add, Nat.zero_add, reduceOption_value]
  · have hpresent : present .dailySharpe ((items.filter fun item => has item).filter fun item =>
        decide (item.depth = d) && (item.value .dailySharpe).isSome) =
        atDepth (items.filter fun item => has item) d := by
      unfold atDepth present
      generalize (items.filter fun item => has item) = l
      induction l with
      | nil => rfl
      | cons item l ih =>
        rw [List.filter_cons, List.filter_cons]
        by_cases hd : item.depth = d
        · cases hv : item.value .dailySharpe with
          | none => simp only [hd, hv, decide_true, Option.isSome_none, Bool.and_false,
              Bool.false_eq_true, if_false, if_true, List.filterMap_cons, ih]
          | some v => simp only [hd, hv, decide_true, Option.isSome_some, Bool.and_true,
              if_true, List.filterMap_cons, ih]
        · simp only [hd, decide_false, Bool.false_and, Bool.false_eq_true, if_false, ih]
    rw [hpresent]
  · intro i item h
    rw [depth_getD h, value_getD h]

/-- One depth adds the weighted difference of the two means, and the weight. -/
theorem matchStep_eq {withByDepth : Dict ℕ (ℚ × ℕ)} {d : ℕ} (acc : ℚ × ℕ)
    (hget : (withByDepth.get? d).getD (0, 0) =
      ((atDepth (items.filter fun item => has item) d).sum,
        (atDepth (items.filter fun item => has item) d).length)) :
    matchStep withByDepth acc (d, (atDepth items d).sum, (atDepth items d).length) =
      (acc.1 + (smallerSide (items.filter fun item => has item)
          (items.filter fun item => ¬ has item) d : ℚ) *
          (depthMean (items.filter fun item => has item) d -
            depthMean (items.filter fun item => ¬ has item) d),
        acc.2 + smallerSide (items.filter fun item => has item)
          (items.filter fun item => ¬ has item) d) := by
  have hsplit := atDepth_split items has d
  have hsum := hsplit.sum_eq
  have hlength := hsplit.length_eq
  rw [List.sum_append] at hsum
  rw [List.length_append] at hlength
  unfold matchStep
  dsimp only
  rw [hget, ← hsum, ← hlength]
  dsimp only
  rw [add_sub_cancel_left, Nat.add_sub_cancel_left]
  unfold smallerSide depthMean
  split
  next hnone =>
    -- one side is empty, so the weight is 0
    have hweight : min (atDepth (items.filter fun item => has item) d).length
        (atDepth (items.filter fun item => ¬ has item) d).length = 0 := by omega
    rw [hweight, Nat.cast_zero, zero_mul, add_zero, Nat.add_zero]
  next => rfl

/-- The loop of `_matched` computes the weighted difference. -/
theorem matched_eq : matched (prepare items) (membersOf items has) =
    matchedEffect (items.filter fun item => has item) (items.filter fun item => ¬ has item) := by
  generalize hW : (items.filter fun item => has item) = withBlock
  generalize hO : (items.filter fun item => ¬ has item) = without
  have hdepths : ((withBlock ++ without).map (·.depth)).toFinset =
      (firstSeen (items.map (·.depth))).toFinset := by
    ext d
    rw [List.mem_toFinset, List.mem_toFinset, mem_firstSeen, ← hW, ← hO]
    have hperm := (List.filter_append_perm (fun item => decide (has item)) items).map (·.depth)
    have hmem := hperm.mem_iff (a := d)
    simpa using hmem
  have hloop : ∀ (l : List ℕ) (acc : ℚ × ℕ),
      (l.map fun d => (d, (atDepth items d).sum, (atDepth items d).length)).foldl
        (matchStep (foldedBy (fun i => (prepare items).depth.getD i 0)
          (fun slot i => addTo slot (((prepare items).values .dailySharpe).getD i none)) (0, 0)
          ((membersOf items has).filter fun i =>
            (((prepare items).values .dailySharpe).getD i none).isSome))) acc =
      (acc.1 + (l.map fun d => (smallerSide withBlock without d : ℚ) *
          (depthMean withBlock d - depthMean without d)).sum,
        acc.2 + (l.map (smallerSide withBlock without)).sum) := by
    intro l
    induction l with
    | nil => intro acc; simp
    | cons d l ih =>
      intro acc
      rw [List.map_cons, List.foldl_cons, matchStep_eq acc (withByDepth_get d), hW, hO, ih,
        List.map_cons, List.map_cons, List.sum_cons, List.sum_cons, add_assoc, Nat.add_assoc]
  unfold matched matchedEffect
  dsimp only
  rw [depthTotals_entries, hloop, hdepths, zero_add, Nat.zero_add,
    List.sum_toFinset _ (nodup_firstSeen _), List.sum_toFinset _ (nodup_firstSeen _)]

/-! ## Effects and blocks -/

theorem effect_eq (blocks : String → List String) (level block : String) :
    effect (prepare items) (membersOf items fun item => block ∈ blocks item.strategy) block level =
      definedEffect items blocks level block := by
  have hmembers : (membersOf items fun item => block ∈ blocks item.strategy).length =
      (items.filter fun item => block ∈ blocks item.strategy).length := by
    have h := congrArg List.length (map_membersOf items
      (fun item => block ∈ blocks item.strategy) (f := fun _ => ()) (g := fun _ => ())
      fun _ _ _ => rfl)
    rwa [List.length_map, List.length_map] at h
  have hqualified : (membersOf items fun item => block ∈ blocks item.strategy).countP
        (fun i => (prepare items).qualified.getD i false) =
      (items.filter fun item => block ∈ blocks item.strategy).countP (·.qualified) := by
    have h := congrArg List.length (map_filter_membersOf items
      (fun item => block ∈ blocks item.strategy)
      (p := fun i => (prepare items).qualified.getD i false) (q := (·.qualified))
      (f := fun _ => ()) (g := fun _ => ()) (fun i item h => qualified_getD h) fun _ _ _ => rfl)
    rwa [List.length_map, List.length_map, ← List.countP_eq_length_filter,
      ← List.countP_eq_length_filter] at h
  have hperm := List.filter_append_perm (fun item : Item => decide (block ∈ blocks item.strategy))
    items
  have hothers : (prepare items).n - (items.filter fun item => block ∈ blocks item.strategy).length =
      (items.filter fun item => block ∉ blocks item.strategy).length := by
    have hlength := hperm.length_eq
    rw [List.length_append] at hlength
    show items.length - _ = _
    rw [← hlength, Nat.add_sub_cancel_left]
    simp
  have hpassed : ((prepare items).qTotal : ℚ) -
        ((items.filter fun item => block ∈ blocks item.strategy).countP (·.qualified) : ℕ) =
      ((items.filter fun item => block ∉ blocks item.strategy).countP (·.qualified) : ℕ) := by
    have hcount := hperm.countP_eq (·.qualified)
    rw [List.countP_append] at hcount
    have htotal : (prepare items).qTotal = items.countP (·.qualified) := by
      show (items.map (·.qualified)).count true = _
      rw [List.count, List.countP_map]
      exact List.countP_congr fun item _ => by simp
    rw [htotal, ← hcount, Nat.cast_add, add_sub_cancel_left]
    simp
  have hrate : ∀ l : List Item, ratio ((l.countP (·.qualified) : ℕ) : ℚ) l.length = passRate l := by
    intro l
    unfold ratio passRate
    simp only [List.length_eq_zero_iff]
  unfold effect definedEffect
  dsimp only
  rw [hmembers, hqualified, hothers, hpassed, hrate, hrate, matched_eq]
  congr 1
  refine List.map_congr_left fun field _ => ?_
  rw [tally_membersOf]
  dsimp only
  rw [ratio_eq_meanOf, ratio_others]

theorem filter_eq_of_nodup {b : String} : ∀ {l : List String}, l.Nodup →
    l.filter (fun x => x = b) = if b ∈ l then [b] else [] := by
  intro l
  induction l with
  | nil => intro _; rfl
  | cons x l ih =>
    intro h
    rw [List.nodup_cons] at h
    rw [List.filter_cons, ih h.2]
    by_cases hx : x = b
    · subst hx
      simp [h.1]
    · simp [hx, Ne.symm hx]

/-- A block's positions are those of the items that have it. -/
theorem blockRows_entries (blocks : String → List String) (hblocks : ∀ name, (blocks name).Nodup) :
    (blockRows blocks items).entries =
      (firstSeen (items.flatMap fun item => blocks item.strategy)).map fun b =>
        (b, membersOf items fun item => b ∈ blocks item.strategy) := by
  have hkeys : (items.zipIdx.flatMap fun e => (blocks e.1.strategy).map (·, e.2)).map Prod.fst =
      items.flatMap fun item => blocks item.strategy := by
    have hfst : items.zipIdx.flatMap (fun e => blocks e.1.strategy) =
        (items.zipIdx.map Prod.fst).flatMap fun item => blocks item.strategy := by
      rw [List.flatMap_map]
    rw [List.map_flatMap]
    rw [List.zipIdx_map_fst] at hfst
    rw [← hfst]
    refine List.flatMap_congr fun e _ => ?_
    rw [List.map_map]
    exact List.map_id _
  have hgroup : ∀ (b : String) (l : List (Item × ℕ)),
      ((l.flatMap fun e => (blocks e.1.strategy).map (·, e.2)).filter fun x => x.1 = b).map
        Prod.snd = (l.filter fun e => b ∈ blocks e.1.strategy).map Prod.snd := by
    intro b l
    induction l with
    | nil => rfl
    | cons e l ih =>
      rw [List.flatMap_cons, List.filter_append, List.map_append, ih, List.filter_map,
        List.filter_cons]
      have hone : (blocks e.1.strategy).filter ((fun x : String × ℕ => decide (x.1 = b)) ∘ (·, e.2)) =
          if b ∈ blocks e.1.strategy then [b] else [] := filter_eq_of_nodup (hblocks _)
      rw [hone]
      by_cases hb : b ∈ blocks e.1.strategy
      · simp [hb]
      · simp [hb]
  unfold blockRows Dict.map
  show List.filterMap (fun e => some (e.1, e.2.map Prod.snd)) (groupedBy Prod.fst _).entries = _
  rw [entries_groupedBy, hkeys, List.filterMap_map]
  refine (congrFun List.filterMap_eq_map _).trans (List.map_congr_left fun b _ => ?_)
  exact Prod.ext rfl (hgroup b items.zipIdx)

theorem effectsOf_eq (blocks : String → List String) (hblocks : ∀ name, (blocks name).Nodup)
    (level : String) : effectsOf blocks level items = definedEffects blocks level items := by
  unfold effectsOf definedEffects
  rw [blockRows_entries blocks hblocks, List.map_map]
  congr 1
  exact List.map_congr_left fun b _ => effect_eq blocks level b

end

/-! ## The sign test -/

theorem atMost_eq (n k : ℕ) :
    atMost n k = (((List.range (k + 1)).map n.choose).sum : ℕ) / 2 ^ n := by
  have hcount : ((Finset.range n).powerset.filter fun heads => heads.card ≤ k).card =
      ∑ i ∈ Finset.range (k + 1), n.choose i := by
    have hsplit : (Finset.range n).powerset.filter (fun heads => heads.card ≤ k) =
        (Finset.range (k + 1)).biUnion fun i => (Finset.range n).powersetCard i := by
      ext heads
      simp only [Finset.mem_filter, Finset.mem_powerset, Finset.mem_biUnion, Finset.mem_range,
        Finset.mem_powersetCard, Nat.lt_succ_iff]
      exact ⟨fun h => ⟨heads.card, h.2, h.1, rfl⟩, fun ⟨i, hi, hsub, hcard⟩ => ⟨hsub, hcard ▸ hi⟩⟩
    rw [hsplit, Finset.card_biUnion]
    · exact Finset.sum_congr rfl fun i _ => by rw [Finset.card_powersetCard, Finset.card_range]
    · intro i _ j _ hij
      exact Finset.pairwise_disjoint_powersetCard _ hij
  unfold atMost
  rw [hcount]
  have hlist : ∑ i ∈ Finset.range (k + 1), n.choose i = ((List.range (k + 1)).map n.choose).sum := by
    rw [← List.toFinset_range, List.sum_toFinset _ List.nodup_range]
  rw [hlist]

/-- The lower half of the throws, the middle included, is more than half of them and not all. -/
theorem half_choose {m : ℕ} (hm : 0 < m) :
    4 ^ m ≤ 2 * ∑ i ∈ Finset.range (m + 1), (2 * m).choose i ∧
      ∑ i ∈ Finset.range (m + 1), (2 * m).choose i < 4 ^ m := by
  have hall : ∑ i ∈ Finset.range (2 * m + 1), (2 * m).choose i = 4 ^ m := by
    rw [Nat.sum_range_choose, pow_mul]
    rfl
  have hparts : ∑ i ∈ Finset.range (2 * m + 1), (2 * m).choose i =
      ∑ i ∈ Finset.range (m + 1), (2 * m).choose i +
        ∑ i ∈ Finset.range m, (2 * m).choose (m + 1 + i) := by
    rw [show 2 * m + 1 = m + 1 + m by omega, Finset.sum_range_add]
  -- the upper half is the lower one without the middle, the other way round
  have hupper : ∑ i ∈ Finset.range m, (2 * m).choose (m + 1 + i) =
      ∑ i ∈ Finset.range m, (2 * m).choose i := by
    rw [← Finset.sum_range_reflect]
    refine Finset.sum_congr rfl fun i hi => ?_
    have hi := Finset.mem_range.mp hi
    rw [← Nat.choose_symm (by omega : i ≤ 2 * m)]
    congr 1
    omega
  have hmiddle : ∑ i ∈ Finset.range (m + 1), (2 * m).choose i =
      ∑ i ∈ Finset.range m, (2 * m).choose i + (2 * m).choose m := Finset.sum_range_succ _ _
  have hpos : 0 < ∑ i ∈ Finset.range m, (2 * m).choose i :=
    Finset.sum_pos (fun i hi => Nat.choose_pos (by have := Finset.mem_range.mp hi; omega))
      (Finset.nonempty_range_iff.mpr hm.ne')
  omega

theorem ownSignTestP_iff (stats : Stats) {pos neg : ℕ} (hsome : 0 < pos + neg)
    (hfew : pos + neg ≤ 1024) : ownSignTestP stats pos neg = exactSignTest pos neg ↔ pos ≠ neg := by
  have hown : ownSignTestP stats pos neg =
      min 1 (if pos ≠ neg then atMost (pos + neg) (min pos neg) * 2
        else atMost (pos + neg) (min pos neg)) := by
    unfold ownSignTestP
    dsimp only
    rw [if_neg (by omega), atMost_eq]
  rw [hown]
  unfold exactSignTest
  constructor
  · rintro h rfl
    rw [if_neg (fun hne => hne rfl), min_self, ← two_mul, atMost_eq] at h
    obtain ⟨hhalf, hless⟩ := half_choose (m := pos) (by omega)
    have hlist : ((List.range (pos + 1)).map (2 * pos).choose).sum =
        ∑ i ∈ Finset.range (pos + 1), (2 * pos).choose i := by
      rw [← List.toFinset_range, List.sum_toFinset _ List.nodup_range]
    rw [hlist, pow_mul] at h
    norm_num at h
    have hfour : (0 : ℚ) < 4 ^ pos := by positivity
    have hlt : ((∑ i ∈ Finset.range (pos + 1), (2 * pos).choose i : ℕ) : ℚ) / 4 ^ pos < 1 := by
      rw [div_lt_one hfour]
      exact_mod_cast hless
    have hge : (1 : ℚ) ≤ 2 * (((∑ i ∈ Finset.range (pos + 1), (2 * pos).choose i : ℕ) : ℚ) /
        4 ^ pos) := by
      rw [← mul_div_assoc, le_div_iff₀ hfour, one_mul]
      exact_mod_cast hhalf
    push_cast at hlt hge
    rw [min_eq_right hlt.le, min_eq_left hge] at h
    exact hlt.ne h
  · intro hne
    rw [if_pos hne, mul_comm]

/-- Everything but the sign test the module computes itself is as defined; that one is
exactly where the two counts differ. -/
theorem asDefined_iff (stats : Stats) (lines : List Row) (pairs : List PairLink) {pos neg : ℕ}
    (hsome : 0 < pos + neg) (hfew : pos + neg ≤ 1024) :
    AsDefined stats lines pairs pos neg ↔ pos ≠ neg := by
  have hitems : itemsOf (iterPublicRows slimPrefilter lines) =
      itemsOf ((storedResults lines).filter isPreHoldout) := by
    have hagain : ((storedResults lines).filter isPreHoldout).filter isPreHoldout =
        (storedResults lines).filter isPreHoldout :=
      List.filter_eq_self.mpr fun row hrow => (List.mem_filter.mp hrow).2
    unfold itemsOf
    rw [filter_iterPublicRows, hagain]
  have hreport : buildBlockReport stats (iterPublicRows slimPrefilter lines) pairs =
      buildBlockReport stats ((storedResults lines).filter isPreHoldout) pairs := by
    unfold buildBlockReport
    rw [hitems]
  refine ⟨fun h => (ownSignTestP_iff stats hsome hfew).mp h.sign_test, fun hne => ?_⟩
  refine ⟨hreport, ?_, ?_, (ownSignTestP_iff stats hsome hfew).mpr hne⟩
  · rw [hreport]
    exact effectsOf_eq familiesOf (fun _ => nodup_firstSeen _) "family"
  · rw [hreport]
    exact effectsOf_eq bucketsOf (fun _ => nodup_firstSeen _) "bucket"

theorem asDefined_iff_two : AsDefined ⟨id, id, none, none⟩ [] [] 2 0 ↔ 2 ≠ 0 :=
  asDefined_iff ⟨id, id, none, none⟩ [] [] (by decide) (by decide)

/-- One positive and one negative pair: 3/4 for 1. -/
theorem signTest_tie : ¬ AsDefined ⟨id, id, none, none⟩ [] [] 1 1 := by
  intro h
  have hown : ownSignTestP ⟨id, id, none, none⟩ 1 1 = 3 / 4 := by
    unfold ownSignTestP
    norm_num [List.range_succ, Nat.choose]
  have hexact : exactSignTest 1 1 = 1 := by
    unfold exactSignTest
    rw [atMost_eq]
    norm_num [List.range_succ, Nat.choose]
  have hsame := h.sign_test
  rw [hown, hexact] at hsame
  norm_num at hsame

end PaperTrading.Report
