import Mathlib.Data.List.Induction
import Mathlib.Order.Lattice
import PaperTrading.Lib.Dict

/-!
# Grouping by a key

`groupedBy`: the elements of a list gathered by key, each group in the order of the list.
The groups stand in the order their keys were first seen, and the group of a key is the
elements that have it (`entries_groupedBy`).
-/

namespace PaperTrading.Lib

variable {α κ : Type} [DecidableEq κ]

/-- `d.setdefault(key(x), []).append(x)`, for one element after the other. -/
def groupedBy (key : α → κ) (xs : List α) : Dict κ (List α) :=
  xs.foldl (fun d x => d.set (key x) ((d.get? (key x)).getD [] ++ [x])) Dict.empty

/-- The elements of a list, each where it was first seen. -/
def firstSeen : List κ → List κ
  | [] => []
  | k :: ks => k :: (firstSeen ks).filter (· ≠ k)

theorem mem_firstSeen {ks : List κ} {k : κ} : k ∈ firstSeen ks ↔ k ∈ ks := by
  induction ks with
  | nil => exact Iff.rfl
  | cons j ks ih =>
    unfold firstSeen
    rw [List.mem_cons, List.mem_cons, List.mem_filter, ih, decide_eq_true_eq]
    by_cases hk : k = j
    · rw [or_iff_left_iff_imp.mpr fun _ => hk, or_iff_left_iff_imp.mpr fun _ => hk]
    · rw [and_iff_left hk]

theorem nodup_firstSeen (ks : List κ) : (firstSeen ks).Nodup := by
  induction ks with
  | nil => exact List.nodup_nil
  | cons j ks ih =>
    refine List.nodup_cons.mpr ⟨fun hj => ?_, ih.filter _⟩
    exact of_decide_eq_true (List.mem_filter.mp hj).2 rfl

theorem firstSeen_concat (ks : List κ) (k : κ) :
    firstSeen (ks ++ [k]) = if k ∈ ks then firstSeen ks else firstSeen ks ++ [k] := by
  induction ks with
  | nil => rfl
  | cons j ks ih =>
    show j :: (firstSeen (ks ++ [k])).filter (· ≠ j) = _
    rw [ih]
    by_cases hk : k ∈ ks
    · rw [if_pos hk, if_pos (List.mem_cons_of_mem _ hk)]
      rfl
    · rw [if_neg hk, List.filter_append]
      by_cases hj : k = j
      · rw [if_pos (hj ▸ List.mem_cons_self), hj]
        simp [firstSeen]
      · rw [if_neg fun h => (List.mem_cons.mp h).elim hj hk]
        simp [firstSeen, hj]

/-- What a test leaves of a list is first seen in the order of the list. -/
theorem firstSeen_filter (p : κ → Bool) (ks : List κ) :
    (firstSeen ks).filter p = firstSeen (ks.filter p) := by
  induction ks with
  | nil => rfl
  | cons k ks ih =>
    have hcomm : ((firstSeen ks).filter (· ≠ k)).filter p =
        (firstSeen (ks.filter p)).filter (· ≠ k) := by
      rw [← ih, List.filter_filter, List.filter_filter]
      exact List.filter_congr fun j _ => Bool.and_comm _ _
    show (k :: (firstSeen ks).filter (· ≠ k)).filter p = _
    by_cases hk : p k = true
    · rw [List.filter_cons_of_pos hk, List.filter_cons_of_pos hk, hcomm]
      rfl
    · rw [List.filter_cons_of_neg hk, List.filter_cons_of_neg hk, hcomm]
      refine List.filter_eq_self.mpr fun j hj => decide_eq_true fun hjk => hk ?_
      rw [← hjk]
      exact (List.mem_filter.mp (mem_firstSeen.mp hj)).2

theorem firstSeen_append {ks js : List κ} (h : ∀ k ∈ ks, k ∉ js) :
    firstSeen (ks ++ js) = firstSeen ks ++ firstSeen js := by
  induction ks with
  | nil => rfl
  | cons k ks ih =>
    have hk : k ∉ js := h k List.mem_cons_self
    have hkeep : (firstSeen js).filter (· ≠ k) = firstSeen js :=
      List.filter_eq_self.mpr fun j hj => decide_eq_true fun hjk =>
        hk (hjk ▸ mem_firstSeen.mp hj)
    show k :: (firstSeen (ks ++ js)).filter (· ≠ k) = _
    rw [ih fun j hj => h j (List.mem_cons_of_mem _ hj), List.filter_append, hkeep]
    rfl

theorem firstSeen_of_same {k : κ} {ks : List κ} (hne : ks ≠ []) (h : ∀ j ∈ ks, j = k) :
    firstSeen ks = [k] := by
  obtain ⟨j, rest, rfl⟩ := List.exists_cons_of_ne_nil hne
  obtain rfl := h j List.mem_cons_self
  show j :: (firstSeen rest).filter (· ≠ j) = [j]
  rw [List.filter_eq_nil_iff.mpr fun i hi => ?_]
  rw [h i (List.mem_cons_of_mem _ (mem_firstSeen.mp hi))]
  simp

theorem firstSeen_sorted [LinearOrder κ] {ks : List κ} (h : ks.Pairwise (· ≤ ·)) :
    (firstSeen ks).Pairwise (· < ·) := by
  induction ks with
  | nil => exact List.Pairwise.nil
  | cons k ks ih =>
    obtain ⟨hk, hks⟩ := List.pairwise_cons.mp h
    refine List.pairwise_cons.mpr ⟨fun j hj => ?_, (ih hks).filter _⟩
    obtain ⟨hmem, hne⟩ := List.mem_filter.mp hj
    exact lt_of_le_of_ne (hk j (mem_firstSeen.mp hmem)) (of_decide_eq_true hne).symm

variable {key : α → κ}

theorem groupedBy_concat (xs : List α) (x : α) : groupedBy key (xs ++ [x]) =
    (groupedBy key xs).set (key x) (((groupedBy key xs).get? (key x)).getD [] ++ [x]) := by
  unfold groupedBy
  rw [List.foldl_append]
  rfl

/-- The group of a key, if any element has it. -/
theorem get?_groupedBy (xs : List α) (k : κ) : (groupedBy key xs).get? k =
    if k ∈ xs.map key then some (xs.filter fun x => key x = k) else none := by
  induction xs using List.reverseRecOn with
  | nil => rfl
  | append_singleton xs x ih =>
    rw [groupedBy_concat, Dict.get?_set]
    by_cases hk : k = key x
    · have hold : ((groupedBy key xs).get? k).getD [] = xs.filter fun y => key y = k := by
        rw [ih]
        split
        next => rfl
        next hno =>
          refine (List.filter_eq_nil_iff.mpr fun y hy hkey => hno ?_).symm
          exact List.mem_map.mpr ⟨y, hy, of_decide_eq_true hkey⟩
      rw [if_pos hk, ← hk, hold, if_pos (by rw [hk]; exact List.mem_map_of_mem (by simp)),
        List.filter_append]
      simp [hk]
    · have hmem : k ∈ (xs ++ [x]).map key ↔ k ∈ xs.map key := by simp [hk]
      have hfilter : (xs ++ [x]).filter (fun y => key y = k) = xs.filter fun y => key y = k := by
        have hne : ¬ key x = k := fun h => hk h.symm
        simp [hne]
      rw [if_neg hk, ih, hfilter]
      simp only [hmem]

theorem keys_groupedBy (xs : List α) : (groupedBy key xs).keys = firstSeen (xs.map key) := by
  induction xs using List.reverseRecOn with
  | nil => rfl
  | append_singleton xs x ih =>
    rw [groupedBy_concat, List.map_append, List.map_singleton, firstSeen_concat, ← ih]
    have hmem : key x ∈ xs.map key ↔ key x ∈ (groupedBy key xs).keys := by rw [ih, mem_firstSeen]
    unfold Dict.keys at hmem ⊢
    cases hget : (groupedBy key xs).get? (key x) with
    | none =>
      rw [if_neg fun h => Dict.get?_eq_none.mp hget (hmem.mp h), Dict.entries_set_of_none hget,
        List.map_append]
      rfl
    | some group =>
      obtain ⟨l₁, l₂, hold, hnew⟩ := Dict.entries_set_of_some (v := (some group).getD [] ++ [x]) hget
      rw [if_pos (hmem.mpr (Dict.mem_keys.mpr ⟨group, hget⟩)), hnew, hold]
      simp

/-- The groups, in the order their keys were first seen. -/
theorem entries_groupedBy (xs : List α) : (groupedBy key xs).entries =
    (firstSeen (xs.map key)).map fun k => (k, xs.filter fun x => key x = k) := by
  have hentry : ∀ e ∈ (groupedBy key xs).entries, e = (e.1, xs.filter fun x => key x = e.1) := by
    intro e he
    have hget := Dict.get?_eq_some.mpr he
    rw [get?_groupedBy] at hget
    split at hget
    next => exact Prod.ext rfl (Option.some.inj hget).symm
    next => cases hget
  calc (groupedBy key xs).entries
    _ = (groupedBy key xs).entries.map fun e => (e.1, xs.filter fun x => key x = e.1) := by
      conv_lhs => rw [← List.map_id (groupedBy key xs).entries]
      exact List.map_congr_left hentry
    _ = (groupedBy key xs).keys.map fun k => (k, xs.filter fun x => key x = k) := by
      unfold Dict.keys
      rw [List.map_map]
      rfl
    _ = _ := by rw [keys_groupedBy]

/-! ## Folding the groups -/

/-- `d[key(x)] = op(d.get(key(x), init), x)`, for one element after the other. -/
def foldedBy {β : Type} (key : α → κ) (op : β → α → β) (init : β) (xs : List α) : Dict κ β :=
  xs.foldl (fun d x => d.set (key x) (op ((d.get? (key x)).getD init) x)) Dict.empty

/-- Each group is folded by itself. -/
theorem entries_foldedBy {β : Type} (op : β → α → β) (init : β) (xs : List α) :
    (foldedBy key op init xs).entries =
      (groupedBy key xs).entries.map fun e => (e.1, e.2.foldl op init) := by
  induction xs using List.reverseRecOn with
  | nil => rfl
  | append_singleton xs x ih =>
    have hfolded : foldedBy key op init (xs ++ [x]) = (foldedBy key op init xs).set (key x)
        (op (((foldedBy key op init xs).get? (key x)).getD init) x) := by
      unfold foldedBy
      rw [List.foldl_append]
      rfl
    have hvalue : op (((foldedBy key op init xs).get? (key x)).getD init) x =
        (((groupedBy key xs).get? (key x)).getD [] ++ [x]).foldl op init := by
      rw [Dict.get?_of_entries_map ih, List.foldl_append]
      cases (groupedBy key xs).get? (key x) <;> rfl
    rw [hfolded, groupedBy_concat, hvalue]
    exact Dict.entries_set_map ih _ _

theorem get?_foldedBy {β : Type} (op : β → α → β) (init : β) (xs : List α) (k : κ) :
    (foldedBy key op init xs).get? k =
      if k ∈ xs.map key then some ((xs.filter fun x => key x = k).foldl op init) else none := by
  rw [Dict.get?_of_entries_map (entries_foldedBy op init xs), get?_groupedBy]
  split <;> rfl

/-! ## The last of each group -/

/-- `d[key(x)] = x`, for one element after the other. -/
def lastsBy (key : α → κ) (xs : List α) : Dict κ α :=
  xs.foldl (fun d x => d.set (key x) x) Dict.empty

theorem get?_lastsBy (xs : List α) (k : κ) :
    (lastsBy key xs).get? k = (xs.filter fun x => key x = k).getLast? := by
  induction xs using List.reverseRecOn with
  | nil => rfl
  | append_singleton xs x ih =>
    have hlast : lastsBy key (xs ++ [x]) = (lastsBy key xs).set (key x) x := by
      unfold lastsBy
      rw [List.foldl_append]
      rfl
    rw [hlast, Dict.get?_set, ih, List.filter_append]
    by_cases hk : k = key x
    · simp [hk]
    · have hne : ¬ key x = k := fun h => hk h.symm
      simp [hk, hne]

/-- An element is the last of its group when no other of the group comes behind it. -/
theorem mem_lastsBy {xs : List α} (hxs : xs.Nodup) {x : α} :
    (∃ k, (lastsBy key xs).get? k = some x) ↔
      ∃ before after, xs = before ++ x :: after ∧ ∀ y ∈ after, key y ≠ key x := by
  simp only [get?_lastsBy]
  constructor
  · intro h
    obtain ⟨k, hk⟩ := h
    obtain ⟨front, hfront⟩ := List.getLast?_eq_some_iff.mp hk
    have hmem : x ∈ xs.filter fun y => key y = k := by
      rw [hfront]
      exact List.mem_append_right _ (List.mem_singleton_self x)
    obtain ⟨hx, hkey⟩ := List.mem_filter.mp hmem
    obtain rfl : key x = k := of_decide_eq_true hkey
    obtain ⟨before, after, hsplit⟩ := List.append_of_mem hx
    refine ⟨before, after, hsplit, fun y hy hsame => ?_⟩
    -- `y` would stand behind `x`, the last of the group
    have hgroup : (after.filter fun y => key y = key x) = [] := by
      rw [hsplit, List.filter_append, List.filter_cons_of_pos (by simp)] at hfront
      have hnodup : (before ++ x :: after).Nodup := hsplit ▸ hxs
      rcases List.eq_nil_or_concat (after.filter fun y => key y = key x) with hnil | ⟨init, z, hz⟩
      · exact hnil
      · rw [hz, List.concat_eq_append, ← List.cons_append, ← List.append_assoc] at hfront
        have hzx : z = x := (List.append_inj_right' hfront rfl |> List.singleton_inj.mp)
        have hlast : x ∈ after.filter fun y => key y = key x := by
          rw [hz, hzx, List.concat_eq_append]
          exact List.mem_append_right _ (List.mem_singleton_self x)
        have hafter : x ∈ after := (List.mem_filter.mp hlast).1
        exact absurd hafter (List.nodup_cons.mp (List.nodup_append.mp hnodup).2.1).1
    exact absurd (List.mem_filter.mpr ⟨hy, decide_eq_true hsame⟩) (hgroup ▸ List.not_mem_nil)
  · intro h
    obtain ⟨before, after, rfl, hlast⟩ := h
    refine ⟨key x, ?_⟩
    have hnone : (after.filter fun y => key y = key x) = [] :=
      List.filter_eq_nil_iff.mpr fun y hy => by simpa using hlast y hy
    rw [List.filter_append, List.filter_cons_of_pos (by simp), hnone]
    exact List.getLast?_concat ..

/-- The values are the elements that are the last of their groups, each once. -/
theorem nodup_lastsBy (xs : List α) : ((lastsBy key xs).entries.map Prod.snd).Nodup := by
  have hkeys : ((lastsBy key xs).entries.map Prod.snd).map key = (lastsBy key xs).keys := by
    unfold Dict.keys
    rw [List.map_map]
    refine List.map_congr_left fun e he => ?_
    have hget := Dict.get?_eq_some.mpr (show (e.1, e.2) ∈ (lastsBy key xs).entries from he)
    rw [get?_lastsBy] at hget
    exact of_decide_eq_true (List.mem_filter.mp (List.mem_of_getLast? hget)).2
  have hnodup := (lastsBy key xs).keys_nodup
  rw [← hkeys] at hnodup
  exact hnodup.of_map key

end PaperTrading.Lib
