import Mathlib.Data.List.GetD
import Mathlib.Order.Basic

/-!
# Binary search for a boundary

The half-open search for the first position where a test fails, as `while` loops
write it: halve the window, go right of a position that passes, left of one that
does not. `bisect_eq`: where the positions that pass are those before a boundary
in the window, the search ends at the boundary. `bisect_filter`: where the entries
of a list that pass come before the others, the search says how many they are.
-/

namespace PaperTrading.Lib

/-- The search in the window `[lo, hi)`. -/
def bisect (p : ℕ → Bool) (lo hi : ℕ) : ℕ :=
  if _h : lo < hi then
    let mid := (lo + hi) / 2
    if p mid then bisect p (mid + 1) hi else bisect p lo mid
  else lo
  termination_by hi - lo
  decreasing_by all_goals omega

theorem bisect_eq {p : ℕ → Bool} {b : ℕ} : ∀ (lo hi : ℕ), lo ≤ b → b ≤ hi →
    (∀ j, lo ≤ j → j < hi → (p j = true ↔ j < b)) → bisect p lo hi = b
  | lo, hi, hlo, hhi, hp => by
    unfold bisect
    split
    next h =>
      have hmid := hp ((lo + hi) / 2) (by omega) (by omega)
      dsimp only
      split
      next hpass =>
        have hb := hmid.mp hpass
        exact bisect_eq _ hi hb hhi fun j hj hjhi => hp j (by omega) hjhi
      next hfail =>
        have hb : b ≤ (lo + hi) / 2 := Nat.le_of_not_lt fun hlt => hfail (hmid.mpr hlt)
        exact bisect_eq lo _ hlo hb fun j hj hjhi => hp j hj (by omega)
    next h => omega
  termination_by lo hi => hi - lo
  decreasing_by all_goals omega

/-- Entries that pass and come before the others are the front of the list. -/
theorem filter_append_filter_not {α : Type*} {p : α → Bool} {l : List α}
    (h : l.Pairwise fun a b => p b = true → p a = true) :
    l.filter p ++ l.filter (fun a => !p a) = l := by
  induction l with
  | nil => rfl
  | cons a l ih =>
    obtain ⟨ha, hl⟩ := List.pairwise_cons.mp h
    cases hp : p a with
    | true =>
      rw [List.filter_cons_of_pos hp, List.filter_cons_of_neg (by simp [hp]), List.cons_append, ih hl]
    | false =>
      have hnone : l.filter p = [] :=
        List.filter_eq_nil_iff.mpr fun b hb hpb => Bool.false_ne_true (hp.symm.trans (ha b hb hpb))
      have hrest := ih hl
      rw [hnone, List.nil_append] at hrest
      rw [List.filter_cons_of_neg (by simp [hp]), List.filter_cons_of_pos (by simp [hp]), hnone, hrest]
      rfl

theorem bisect_append {α : Type*} {p : α → Bool} {yes no : List α} (d : α)
    (hyes : ∀ a ∈ yes, p a = true) (hno : ∀ a ∈ no, p a = false) :
    bisect (fun mid => p ((yes ++ no).getD mid d)) 0 (yes ++ no).length = yes.length := by
  refine bisect_eq 0 _ (Nat.zero_le _) (by rw [List.length_append]; omega) fun j _ hj => ?_
  by_cases hlt : j < yes.length
  · rw [List.getD_append _ _ _ _ hlt, List.getD_eq_getElem _ _ hlt]
    exact iff_of_true (hyes _ (List.getElem_mem hlt)) hlt
  · have hge := Nat.le_of_not_lt hlt
    have hin : j - yes.length < no.length := by
      rw [List.length_append] at hj
      omega
    rw [List.getD_append_right _ _ _ _ hge, List.getD_eq_getElem _ _ hin,
      hno _ (List.getElem_mem hin)]
    exact iff_of_false Bool.false_ne_true hlt

theorem bisect_filter {α : Type*} {p : α → Bool} {l : List α} (d : α)
    (h : l.Pairwise fun a b => p b = true → p a = true) :
    bisect (fun mid => p (l.getD mid d)) 0 l.length = (l.filter p).length := by
  have hsplit := filter_append_filter_not h
  have hyes : ∀ a ∈ l.filter p, p a = true := fun a ha => (List.mem_filter.mp ha).2
  have hno : ∀ a ∈ l.filter (fun a => !p a), p a = false := fun a ha => by
    simpa using (List.mem_filter.mp ha).2
  have hend := bisect_append d hyes hno
  rwa [hsplit] at hend

theorem take_filter {α : Type*} {p : α → Bool} {l : List α}
    (h : l.Pairwise fun a b => p b = true → p a = true) :
    l.take (l.filter p).length = l.filter p := by
  have htake : (l.filter p ++ l.filter fun a => !p a).take (l.filter p).length = l.filter p :=
    List.take_left
  rwa [filter_append_filter_not h] at htake

end PaperTrading.Lib
