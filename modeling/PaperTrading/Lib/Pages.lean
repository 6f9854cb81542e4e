import Mathlib.Data.List.Chain
import Mathlib.Data.List.DropRight
import Mathlib.Data.List.Sort
import Mathlib.Order.Lattice

/-!
# Pages of a sorted list

A source that is asked for the elements from a point on gives the first so many of them:
`pageFrom`. What a reader may conclude from a page about the whole: every element up to any
one of the page is on it (`mem_page_of_le`), and a page that is not full has all that
there are (`mem_page_of_short`).

`steps` are the neighbouring pairs of a list. A point between the ends of a sorted list
is in the list or inside one of its steps (`exists_step`).
-/

namespace PaperTrading.Lib

variable {α β : Type}

section
variable [LinearOrder β]

/-- Ascending in the key, with no key twice. -/
def Ascending (key : α → β) (l : List α) : Prop := l.Pairwise fun a b => key a < key b

/-- The first `limit` elements from `since` on. -/
def pageFrom (key : α → β) (l : List α) (since : β) (limit : ℕ) : List α :=
  (l.filter fun a => since ≤ key a).take limit

variable {key : α → β} {l : List α} {since : β} {limit : ℕ}

theorem mem_page {a : α} (h : a ∈ pageFrom key l since limit) : a ∈ l ∧ since ≤ key a := by
  have hfilter := List.mem_filter.mp (List.mem_of_mem_take h)
  exact ⟨hfilter.1, of_decide_eq_true hfilter.2⟩

theorem Ascending.sublist {l' : List α} (hl : Ascending key l) (h : l'.Sublist l) :
    Ascending key l' := List.Pairwise.sublist h hl

theorem page_sublist : (pageFrom key l since limit).Sublist l :=
  (List.take_sublist _ _).trans List.filter_sublist

/-- An element is known by its key. -/
theorem ascending_inj (hl : Ascending key l) {a b : α} (ha : a ∈ l) (hb : b ∈ l)
    (hab : key a = key b) : a = b := by
  by_contra hne
  have hlt := List.pairwise_iff_getElem.mp hl
  obtain ⟨i, hi, rfl⟩ := List.mem_iff_getElem.mp ha
  obtain ⟨j, hj, rfl⟩ := List.mem_iff_getElem.mp hb
  rcases Nat.lt_trichotomy i j with hij | rfl | hij
  · exact (hlt i j hi hj hij).ne hab
  · exact hne rfl
  · exact (hlt j i hj hi hij).ne' hab

/-- What stands before an element of the front of a sorted list is in the front. -/
theorem mem_take_of_le : ∀ {l : List α} {n : ℕ} {a b : α}, Ascending key l → a ∈ l →
    b ∈ l.take n → key a ≤ key b → a ∈ l.take n := by
  intro l
  induction l with
  | nil => intro n a b _ ha; cases ha
  | cons x l ih =>
    intro n a b hl ha hb hle
    cases n with
    | zero => cases hb
    | succ n =>
      rw [List.take_succ_cons] at hb ⊢
      obtain ⟨hx, hl⟩ := List.pairwise_cons.mp hl
      rcases List.mem_cons.mp ha with rfl | ha
      · exact List.mem_cons_self
      · rcases List.mem_cons.mp hb with hb | hb
        · exact absurd (hx a ha) (not_lt_of_ge (hb ▸ hle))
        · exact List.mem_cons_of_mem _ (ih hl ha hb hle)

/-- A page reaches as far as its elements do. -/
theorem mem_page_of_le (hl : Ascending key l) {a b : α} (ha : a ∈ l) (hsince : since ≤ key a)
    (hb : b ∈ pageFrom key l since limit) (hle : key a ≤ key b) : a ∈ pageFrom key l since limit :=
  mem_take_of_le (hl.sublist List.filter_sublist)
    (List.mem_filter.mpr ⟨ha, decide_eq_true hsince⟩) hb hle

/-- A page that is not full is the last. -/
theorem mem_page_of_short (hshort : (pageFrom key l since limit).length < limit) {a : α} (ha : a ∈ l)
    (hsince : since ≤ key a) : a ∈ pageFrom key l since limit := by
  unfold pageFrom at hshort ⊢
  rw [List.length_take] at hshort
  rw [List.take_of_length_le (by omega)]
  exact List.mem_filter.mpr ⟨ha, decide_eq_true hsince⟩

/-- The front of a sorted list below a bound. -/
theorem takeWhile_lt (hl : Ascending key l) (x : β) :
    l.takeWhile (fun a => key a < x) = l.filter fun a => key a < x := by
  induction l with
  | nil => rfl
  | cons a l ih =>
    obtain ⟨ha, hl⟩ := List.pairwise_cons.mp hl
    by_cases hx : key a < x
    · rw [List.takeWhile_cons_of_pos (by simpa using hx), List.filter_cons_of_pos (by simpa using hx),
        ih hl]
    · have hnone : l.filter (fun a => key a < x) = [] := by
        refine List.filter_eq_nil_iff.mpr fun b hb hbx => hx ?_
        exact (ha b hb).trans (of_decide_eq_true hbx)
      rw [List.takeWhile_cons_of_neg (by simpa using hx), List.filter_cons_of_neg (by simpa using hx),
        hnone]

/-- What is behind the front is not below the bound. -/
theorem drop_takeWhile_lt (hl : Ascending key l) (x : β) :
    l.drop (l.takeWhile fun a => key a < x).length = l.filter fun a => x ≤ key a := by
  induction l with
  | nil => rfl
  | cons a l ih =>
    obtain ⟨ha, hl⟩ := List.pairwise_cons.mp hl
    by_cases hx : key a < x
    · rw [List.takeWhile_cons_of_pos (by simpa using hx), List.length_cons, List.drop_succ_cons, ih hl,
        List.filter_cons_of_neg (by simpa using hx)]
    · have hall : ∀ b ∈ a :: l, decide (x ≤ key b) = true := by
        intro b hb
        rcases List.mem_cons.mp hb with rfl | hb
        · exact decide_eq_true (not_lt.mp hx)
        · exact decide_eq_true ((not_lt.mp hx).trans (ha b hb).le)
      rw [List.takeWhile_cons_of_neg (by simpa using hx), List.length_nil, List.drop_zero,
        List.filter_eq_self.mpr hall]

end

/-- Fewer elements meet a narrower condition, when one that met the wider one does not. -/
theorem countP_lt_of_exists {p q : α → Bool} {l : List α} (hpq : ∀ a ∈ l, p a = true → q a = true)
    {a : α} (ha : a ∈ l) (hq : q a = true) (hp : p a = false) : l.countP p < l.countP q := by
  obtain ⟨l₁, l₂, rfl⟩ := List.append_of_mem ha
  have h₁ : l₁.countP p ≤ l₁.countP q := List.countP_mono_left fun b hb =>
    hpq b (List.mem_append_left _ hb)
  have h₂ : l₂.countP p ≤ l₂.countP q := List.countP_mono_left fun b hb =>
    hpq b (List.mem_append_right _ (List.mem_cons_of_mem _ hb))
  rw [List.countP_append, List.countP_append, List.countP_cons_of_pos hq,
    List.countP_cons_of_neg (by simp [hp])]
  omega

/-! ## Steps of a list -/

/-- The neighbouring pairs. -/
def steps (l : List β) : List (β × β) := l.zip l.tail

theorem steps_cons_cons (a b : β) (l : List β) : steps (a :: b :: l) = (a, b) :: steps (b :: l) := rfl

theorem mem_of_mem_steps {l : List β} {p : β × β} (h : p ∈ steps l) : p.1 ∈ l ∧ p.2 ∈ l :=
  ⟨(List.of_mem_zip h).1, List.mem_of_mem_tail (List.of_mem_zip h).2⟩

theorem length_steps_le (l : List β) : (steps l).length ≤ l.length := by
  unfold steps
  rw [List.length_zip]
  exact Nat.min_le_left _ _

/-- A point between two elements of a sorted list that is not in it is inside a step. -/
theorem exists_step [LinearOrder β] : ∀ {l : List β} {a b x : β}, l.Pairwise (· < ·) → a ∈ l → b ∈ l → a < x →
    x < b → x ∉ l → ∃ p ∈ steps l, p.1 < x ∧ x < p.2 := by
  intro l
  induction l with
  | nil => intro a b x _ ha; cases ha
  | cons y l ih =>
    intro a b x hl ha hb hax hxb hx
    obtain ⟨hy, hl'⟩ := List.pairwise_cons.mp hl
    have hyx : y < x := by
      rcases List.mem_cons.mp ha with rfl | ha
      · exact hax
      · exact (hy a ha).trans hax
    -- `b` is further on, so there is a next element
    have hb : b ∈ l := by
      rcases List.mem_cons.mp hb with rfl | hb
      · exact absurd hyx (not_lt_of_gt hxb)
      · exact hb
    cases l with
    | nil => cases hb
    | cons z l =>
      rw [steps_cons_cons]
      rcases lt_trichotomy x z with hlt | heq | hgt
      · exact ⟨(y, z), List.mem_cons_self, hyx, hlt⟩
      · exact absurd (heq ▸ List.mem_cons_of_mem _ List.mem_cons_self) hx
      · have hx' : x ∉ z :: l := fun h => hx (List.mem_cons_of_mem _ h)
        obtain ⟨p, hp, hin⟩ := ih hl' List.mem_cons_self hb hgt hxb hx'
        exact ⟨p, List.mem_cons_of_mem _ hp, hin⟩

/-! ## The end of a list -/

theorem length_rtake (l : List α) (n : ℕ) : (l.rtake n).length = min n l.length := by
  unfold List.rtake
  rw [List.length_drop]
  omega

theorem rtake_suffix (l : List α) (n : ℕ) : l.rtake n <:+ l := List.drop_suffix _ _

theorem rtake_of_length_le {l : List α} {n : ℕ} (h : l.length ≤ n) : l.rtake n = l := by
  unfold List.rtake
  rw [Nat.sub_eq_zero_of_le h, List.drop_zero]

theorem rtake_of_suffix {l back : List α} (h : back <:+ l) : l.rtake back.length = back := by
  obtain ⟨front, rfl⟩ := h
  unfold List.rtake
  rw [List.length_append, Nat.add_sub_cancel, List.drop_left]

theorem rtake_rtake {l : List α} {m n : ℕ} (h : m ≤ n) : (l.rtake n).rtake m = l.rtake m := by
  unfold List.rtake
  rw [List.length_drop, List.drop_drop]
  congr 1
  omega

/-! ## Pages that end below a bound -/

/-- Below a bound a page has all there are, when these are no more than it may have. -/
theorem page_filter_lt [LinearOrder β] {key : α → β} {l : List α} {since : β} {limit : ℕ}
    (hl : Ascending key l) (x : β)
    (hfew : ((l.filter fun a => key a < x).filter fun a => since ≤ key a).length ≤ limit) :
    (pageFrom key l since limit).filter (fun a => key a < x) =
      (l.filter fun a => key a < x).filter fun a => since ≤ key a := by
  unfold pageFrom
  have hcomm : ((l.filter fun a => key a < x).filter fun a => since ≤ key a) =
      (l.filter fun a => since ≤ key a).filter fun a => key a < x := by
    rw [List.filter_filter, List.filter_filter]
    exact List.filter_congr fun a _ => Bool.and_comm _ _
  rw [hcomm] at hfew ⊢
  have hsorted : Ascending key (l.filter fun a => since ≤ key a) := hl.sublist List.filter_sublist
  generalize (l.filter fun a => since ≤ key a) = m at hfew hsorted
  rw [← takeWhile_lt hsorted] at hfew ⊢
  rw [← takeWhile_lt (hsorted.sublist (List.take_sublist _ _)), ← List.take_takeWhile,
    List.take_of_length_le hfew]

/-- Each element stands `w` before the next, at least. -/
def SpacedBy (key : α → ℤ) (w : ℤ) (l : List α) : Prop := l.Pairwise fun a b => key a + w ≤ key b

theorem SpacedBy.ascending {key : α → ℤ} {w : ℤ} {l : List α} (hw : 0 < w) (h : SpacedBy key w l) :
    Ascending key l := List.Pairwise.imp (fun {a b} hab => by omega) h

/-- There are no more elements in a stretch than it has room for. -/
theorem SpacedBy.length_le {key : α → ℤ} {w x : ℤ} : ∀ {l : List α} {n : ℕ},
    SpacedBy key w l → (∀ a ∈ l, x - n * w ≤ key a ∧ key a < x) → l.length ≤ n := by
  intro l
  induction l with
  | nil => intro n _ _; exact Nat.zero_le n
  | cons a l ih =>
    intro n hl hin
    obtain ⟨ha, hl⟩ := List.pairwise_cons.mp hl
    obtain ⟨hlow, hhigh⟩ := hin a List.mem_cons_self
    cases n with
    | zero =>
      rw [Int.natCast_zero, Int.zero_mul] at hlow
      omega
    | succ n =>
      refine Nat.succ_le_succ (ih hl fun b hb => ⟨?_, (hin b (List.mem_cons_of_mem _ hb)).2⟩)
      have hab := ha b hb
      rw [Int.natCast_succ, Int.add_mul, Int.one_mul] at hlow
      omega

/-- Each element stands exactly `w` before the next: no hole. -/
def EvenlySpaced (key : α → ℤ) (w : ℤ) (l : List α) : Prop :=
  l.IsChain fun a b => key b = key a + w

theorem EvenlySpaced.of_append {key : α → ℤ} {w : ℤ} {l₁ l₂ : List α}
    (h : EvenlySpaced key w (l₁ ++ l₂)) : EvenlySpaced key w l₁ ∧ EvenlySpaced key w l₂ :=
  ⟨List.IsChain.left_of_append h, List.IsChain.right_of_append h⟩

/-- From the first element of an even list to any later place. -/
theorem EvenlySpaced.key_head {key : α → ℤ} {w : ℤ} : ∀ {l : List α} {a o : α},
    EvenlySpaced key w (a :: l ++ [o]) → key o = key a + (l.length + 1) * w := by
  intro l
  induction l with
  | nil =>
    intro a o h
    have hstep := (List.isChain_cons_cons.mp h).1
    rw [List.length_nil, Int.natCast_zero, Int.zero_add, Int.one_mul]
    exact hstep
  | cons b l ih =>
    intro a o h
    obtain ⟨hstep, hrest⟩ := List.isChain_cons_cons.mp h
    rw [ih hrest, hstep, List.length_cons, Int.natCast_succ, Int.add_mul ((l.length : ℤ) + 1) 1 w,
      Int.one_mul]
    omega

theorem EvenlySpaced.key_getElem {key : α → ℤ} {w : ℤ} : ∀ {l : List α} {a : α} {i : ℕ},
    EvenlySpaced key w (a :: l) → ∀ hi : i < (a :: l).length, key (a :: l)[i] = key a + i * w := by
  intro l
  induction l with
  | nil =>
    intro a i _ hi
    obtain rfl : i = 0 := by
      rw [List.length_singleton] at hi
      omega
    rw [List.getElem_cons_zero, Int.natCast_zero, Int.zero_mul, Int.add_zero]
  | cons b l ih =>
    intro a i h hi
    obtain ⟨hstep, hrest⟩ := List.isChain_cons_cons.mp h
    cases i with
    | zero => rw [List.getElem_cons_zero, Int.natCast_zero, Int.zero_mul, Int.add_zero]
    | succ i =>
      rw [List.getElem_cons_succ, ih hrest, hstep, Int.natCast_succ, Int.add_mul, Int.one_mul]
      omega

/-- The elements at most `n` steps before one of an even list are the `n` right before it. -/
theorem EvenlySpaced.filter_eq {key : α → ℤ} {w : ℤ} (hw : 0 < w) {o : α} {n : ℕ} : ∀ {l : List α},
    EvenlySpaced key w (l ++ [o]) → l.filter (fun a => key o - n * w ≤ key a) = l.rtake n := by
  intro l
  induction l with
  | nil => intro _; exact (List.rtake_nil n).symm
  | cons a l ih =>
    intro h
    have ho := h.key_head
    have hrest := ih (List.IsChain.tail h)
    by_cases hn : n ≤ l.length
    · -- the first element is out of reach
      have hout : ¬ key o - n * w ≤ key a := by
        have hmul : (n : ℤ) * w ≤ l.length * w :=
          Int.mul_le_mul_of_nonneg_right (Int.ofNat_le.mpr hn) hw.le
        rw [Int.add_mul, Int.one_mul] at ho
        omega
      rw [List.filter_cons_of_neg (by simpa using hout), hrest]
      unfold List.rtake
      rw [List.length_cons, show l.length + 1 - n = (l.length - n) + 1 by omega,
        List.drop_succ_cons]
    · have hall : ∀ b ∈ a :: l, decide (key o - n * w ≤ key b) = true := by
        have hmul : ((l.length : ℤ) + 1) * w ≤ n * w :=
          Int.mul_le_mul_of_nonneg_right (by omega) hw.le
        have ha : key o - n * w ≤ key a := by omega
        intro b hb
        rcases List.mem_cons.mp hb with rfl | hb
        · exact decide_eq_true ha
        · have hin : b ∈ l.filter fun a => key o - n * w ≤ key a := by
            rw [hrest]
            rw [rtake_of_length_le (by omega)]
            exact hb
          exact (List.mem_filter.mp hin).2
      rw [List.filter_eq_self.mpr hall]
      exact (rtake_of_length_le (by rw [List.length_cons]; omega)).symm

end PaperTrading.Lib
