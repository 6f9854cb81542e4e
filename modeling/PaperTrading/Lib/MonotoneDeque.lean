import Mathlib.Data.List.DropRight
import Mathlib.Data.List.Range

/-!
# The deque of a sliding window

The usual one-pass window extremum: every arriving entry takes the entries it
beats off the back and joins there, and entries too old for the window leave at
the front. `slide_window` says, of any comparison, that the front depends on the
window alone, whatever the deque has seen before it. Where the comparison is a
total preorder the front is an entry no other one is above (`head?_stack`).
-/

namespace PaperTrading.Lib.MonotoneDeque

variable {α β : Type*}

/-- `x` takes the entries it beats off the back and joins there. -/
def push (beaten : α → α → Bool) (dq : List α) (x : α) : List α :=
  dq.rdropWhile (beaten · x) ++ [x]

/-- The deque after the entries `xs`, with no entry leaving at the front. -/
def stack (beaten : α → α → Bool) (xs : List α) : List α :=
  xs.foldl (push beaten) []

/-- One arrival at a window of `n` entries, the deque holding positions. -/
def slide (beaten : ℕ → ℕ → Bool) (n : ℕ) (dq : List ℕ) (i : ℕ) : List ℕ :=
  push beaten (dq.dropWhile (· + n < i)) i

theorem dropWhile_rdropWhile (p q : α → Bool) (l : List α) :
    (l.rdropWhile q).dropWhile p = (l.dropWhile p).rdropWhile q := by
  induction l using List.reverseRecOn with
  | nil => simp
  | append_singleton l x ih =>
    rw [List.rdropWhile_concat, List.dropWhile_append]
    by_cases hq : q x
    · rw [if_pos hq, ih]
      by_cases he : (l.dropWhile p).isEmpty
      · rw [if_pos he, List.isEmpty_iff.mp he]
        cases hp : p x <;> simp [hp, hq, List.rdropWhile_singleton]
      · rw [if_neg he, List.rdropWhile_concat_pos _ _ _ hq]
    · rw [if_neg hq, List.dropWhile_append]
      by_cases he : (l.dropWhile p).isEmpty
      · rw [if_pos he]
        cases hp : p x <;> simp [hp, hq, List.rdropWhile_singleton]
      · rw [if_neg he, List.rdropWhile_concat_neg _ _ _ hq]

/-- Entries leave at the front before or after an arrival alike. -/
theorem dropWhile_push (beaten : α → α → Bool) (old : α → Bool) (dq : List α) {x : α}
    (hx : old x = false) :
    (push beaten dq x).dropWhile old = push beaten (dq.dropWhile old) x := by
  unfold push
  rw [List.dropWhile_append, dropWhile_rdropWhile]
  split
  · next he => rw [List.isEmpty_iff.mp he]; simp [hx]
  · rfl

theorem map_push (v : β → α) (beaten : α → α → Bool) (dq : List β) (x : β) :
    (push (fun a b => beaten (v a) (v b)) dq x).map v = push beaten (dq.map v) (v x) := by
  unfold push
  rw [List.map_append, List.rdropWhile, List.rdropWhile, ← List.map_reverse (f := v) (l := dq),
    List.dropWhile_map, List.map_reverse]
  rfl

theorem map_stack (v : β → α) (beaten : α → α → Bool) (xs : List β) :
    (stack (fun a b => beaten (v a) (v b)) xs).map v = stack beaten (xs.map v) := by
  unfold stack
  rw [List.foldl_map]
  exact (List.foldl_hom (List.map v) fun dq x => (map_push v beaten dq x).symm).symm

section Window

variable (beaten : ℕ → ℕ → Bool)

theorem stack_snoc {a m : ℕ} (h : a ≤ m) :
    stack beaten (List.range' a (m + 1 - a)) = push beaten (stack beaten (List.range' a (m - a))) m := by
  unfold stack
  rw [Nat.succ_sub h, List.range'_1_concat, List.foldl_append]
  simp [Nat.add_sub_cancel' h]

theorem mem_push {dq : List α} {r : α → α → Bool} {x y : α} (h : y ∈ push r dq x) :
    y ∈ dq ∨ y = x := by
  rcases List.mem_append.mp h with h | h
  · exact .inl ((List.rdropWhile_prefix _ _).subset h)
  · exact .inr (List.mem_singleton.mp h)

theorem mem_stack {r : α → α → Bool} {xs : List α} {y : α} (h : y ∈ stack r xs) : y ∈ xs := by
  induction xs using List.reverseRecOn with
  | nil => exact h
  | append_singleton xs x ih =>
    rw [stack, List.foldl_append] at h
    rcases mem_push h with h | rfl
    · exact List.mem_append_left _ (ih h)
    · exact List.mem_append_right _ (List.mem_singleton.mpr rfl)

/-- Dropping the positions before `b` leaves the stack of the positions from
`b` on. -/
theorem dropWhile_stack {a b m : ℕ} (hab : a ≤ b) (hbm : b ≤ m) :
    (stack beaten (List.range' a (m - a))).dropWhile (· < b) =
      stack beaten (List.range' b (m - b)) := by
  induction m, hbm using Nat.le_induction with
  | base =>
    rw [Nat.sub_self, List.range'_zero, List.dropWhile_eq_nil_iff.mpr]
    · rfl
    · intro j hj
      have := List.mem_range'_1.mp (mem_stack hj)
      exact decide_eq_true (by omega)
  | succ m hbm ih =>
    have hm : decide (m < b) = false := decide_eq_false (Nat.not_lt.mpr hbm)
    rw [stack_snoc beaten (hab.trans hbm), stack_snoc beaten hbm,
      dropWhile_push beaten (fun j => decide (j < b)) _ hm, ih]

/-- What is left in the deque when position `m` arrives: the stack of the `n`
positions before it. -/
theorem slide_window (n m : ℕ) :
    ((List.range m).foldl (slide beaten n) []).dropWhile (· + n < m) =
      stack beaten (List.range' (m - n) (m - (m - n))) := by
  induction m with
  | zero => simp [stack]
  | succ m ih =>
    have hold : (fun j => decide (j + n < m + 1)) = fun j => decide (j < m + 1 - n) := by
      funext j
      exact decide_eq_decide.mpr (by omega)
    rw [List.range_succ, List.foldl_append, List.foldl_cons, List.foldl_nil, slide, ih,
      ← stack_snoc beaten (Nat.sub_le m n), hold,
      dropWhile_stack beaten (by omega) (Nat.sub_le _ _)]

end Window

/-! ## The front -/

section Front

variable {r : α → α → Bool} {dq : List α}

/-- What an arrival takes off the back it beats. -/
theorem mem_rdropWhile_or (p : α → Bool) {l : List α} {y : α} (hy : y ∈ l) :
    y ∈ l.rdropWhile p ∨ p y = true := by
  induction l using List.reverseRecOn with
  | nil => cases hy
  | append_singleton l x ih =>
    rw [List.rdropWhile_concat]
    split
    next hx =>
      rcases List.mem_append.mp hy with hy | hy
      · exact ih hy
      · exact Or.inr (List.mem_singleton.mp hy ▸ hx)
    next => exact Or.inl hy

/-- No entry of the deque is beaten by one behind it. -/
def Falling (r : α → α → Bool) (dq : List α) : Prop := dq.Pairwise fun a b => r a b = false

variable (htotal : ∀ a b, r a b = true ∨ r b a = true)
  (htrans : ∀ a b c, r a b = true → r b c = true → r a c = true)
include htotal htrans

/-- What an arrival leaves it does not beat. -/
theorem not_beaten (h : Falling r dq) (x : α) : ∀ a ∈ dq.rdropWhile (r · x), r a x = false := by
  induction dq using List.reverseRecOn with
  | nil =>
    intro a ha
    cases ha
  | append_singleton dq z ih =>
    obtain ⟨hdq, -, hz⟩ := List.pairwise_append.mp h
    rw [List.rdropWhile_concat]
    split
    next => exact ih hdq
    next hzx =>
      intro a ha
      rcases List.mem_append.mp ha with ha | ha
      · have haz := hz a ha z (List.mem_singleton_self z)
        cases hax : r a x with
        | false => rfl
        | true =>
          have hza := (htotal z a).resolve_right (by rw [haz]; exact Bool.false_ne_true)
          exact absurd (htrans z a x hza hax) hzx
      · rw [List.mem_singleton.mp ha]
        exact Bool.eq_false_iff.mpr hzx

theorem Falling.push (h : Falling r dq) (x : α) : Falling r (push r dq x) := by
  unfold Falling MonotoneDeque.push
  refine List.pairwise_append.mpr ⟨?_, List.pairwise_singleton _ x, fun a ha b hb => ?_⟩
  · exact List.Pairwise.sublist (List.rdropWhile_prefix _ _).sublist h
  · rw [List.mem_singleton.mp hb]
    exact not_beaten htotal htrans h x a ha

theorem falling_stack (xs : List α) : Falling r (stack r xs) := by
  induction xs using List.reverseRecOn with
  | nil => exact List.Pairwise.nil
  | append_singleton xs x ih =>
    unfold stack
    rw [List.foldl_append]
    exact ih.push htotal htrans x

/-- Every entry is at most one that is still in the deque. -/
theorem exists_stack {xs : List α} {x : α} (hx : x ∈ xs) : ∃ y ∈ stack r xs, r x y = true := by
  induction xs using List.reverseRecOn with
  | nil => cases hx
  | append_singleton xs z ih =>
    have hself : r z z = true := (htotal z z).elim id id
    unfold stack
    rw [List.foldl_append]
    show ∃ y ∈ push r (stack r xs) z, r x y = true
    rcases List.mem_append.mp hx with hx | hx
    · obtain ⟨y, hy, hxy⟩ := ih hx
      rcases mem_rdropWhile_or (r · z) hy with hkept | hbeaten
      · exact ⟨y, List.mem_append_left _ hkept, hxy⟩
      · exact ⟨z, List.mem_append_right _ (List.mem_singleton_self z), htrans x y z hxy hbeaten⟩
    · exact ⟨z, List.mem_append_right _ (List.mem_singleton_self z),
        List.mem_singleton.mp hx ▸ hself⟩

/-- The front of the deque is an entry that no other is above. -/
theorem head?_stack {xs : List α} {m : α} (h : (stack r xs).head? = some m) :
    m ∈ xs ∧ ∀ x ∈ xs, r x m = true := by
  obtain ⟨rest, hstack⟩ := List.head?_eq_some_iff.mp h
  refine ⟨mem_stack (hstack ▸ List.mem_cons_self), fun x hx => ?_⟩
  obtain ⟨y, hy, hxy⟩ := exists_stack htotal htrans hx
  rw [hstack] at hy
  rcases List.mem_cons.mp hy with rfl | hy
  · exact hxy
  · have hfalling := falling_stack htotal htrans xs
    rw [hstack] at hfalling
    have hfront := List.rel_of_pairwise_cons hfalling hy
    have hym := (htotal y m).resolve_right (by rw [hfront]; exact Bool.false_ne_true)
    exact htrans x y m hxy hym

omit htotal htrans in
theorem stack_ne_nil {xs : List α} (h : xs ≠ []) : stack r xs ≠ [] := by
  obtain ⟨init, x, rfl⟩ := List.eq_nil_or_concat xs |>.resolve_left h
  unfold stack
  rw [List.concat_eq_append, List.foldl_append]
  exact List.append_ne_nil_of_right_ne_nil _ (List.cons_ne_nil x [])

end Front

end PaperTrading.Lib.MonotoneDeque
