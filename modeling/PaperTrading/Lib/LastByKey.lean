import Mathlib.Data.List.Sort
import Mathlib.Order.Lattice

/-!
# The last row of every key

Rows are sorted by a key with a stable sort, and of the rows of one key the last
is kept. `mem_dedupLast` says what is left: for every key the last row of the
original list that has it (`lastWith`). The result is strictly sorted
(`dedupLast_sorted`), so two such lists with the same rows are the same list
(`eq_of_mem_iff`).
-/

namespace PaperTrading.Lib

variable {α κ : Type} [LinearOrder κ] (key : α → κ)

/-- Rows in increasing order of their keys, no key twice. -/
def StrictlySorted (l : List α) : Prop := l.Pairwise fun a b => key a < key b

/-- The last row with this key. -/
def lastWith (k : κ) (l : List α) : Option α := (l.filter fun a => key a = k).getLast?

/-- Stable sort by key. -/
def sortByKey (l : List α) : List α := l.insertionSort fun a b => key a ≤ key b

/-- Of neighbours with one key the last. -/
def keepLast : List α → List α
  | [] => []
  | [a] => [a]
  | a :: b :: l => if key a = key b then keepLast (b :: l) else a :: keepLast (b :: l)

def dedupLast (l : List α) : List α := keepLast key (sortByKey key l)

variable {key}

/-! ## The stable sort -/

/-- Inserting a row puts it before the rows of its own key. -/
theorem filter_orderedInsert (k : κ) (a : α) (l : List α) :
    (l.orderedInsert (fun a b => key a ≤ key b) a).filter (fun b => key b = k) =
      (a :: l).filter (fun b => key b = k) := by
  induction l with
  | nil => rfl
  | cons b l ih =>
    rw [List.orderedInsert_cons]
    split
    next => rfl
    next hlt =>
      rw [List.filter_cons, ih]
      by_cases ha : key a = k
      · -- the row passed `b`, so `b` has a smaller key
        have hb : key b ≠ k := by
          intro hb
          exact hlt (ha.trans hb.symm).le
        simp [ha, hb]
      · simp [ha, List.filter_cons]

theorem filter_sortByKey (k : κ) (l : List α) :
    (sortByKey key l).filter (fun a => key a = k) = l.filter fun a => key a = k := by
  unfold sortByKey
  induction l with
  | nil => rfl
  | cons a l ih =>
    rw [List.insertionSort_cons, filter_orderedInsert, List.filter_cons, List.filter_cons, ih]

theorem sortByKey_sorted (l : List α) : (sortByKey key l).Pairwise fun a b => key a ≤ key b := by
  have : Std.Total (fun a b : α => key a ≤ key b) := ⟨fun a b => le_total (key a) (key b)⟩
  have : IsTrans α (fun a b => key a ≤ key b) := ⟨fun a b c => le_trans⟩
  exact List.pairwise_insertionSort _ l

/-- Inserting a row puts it before those of no smaller key and after the others. -/
theorem pairwise_orderedInsert_iff {R : α → α → Prop} (a : α) : ∀ {l : List α},
    l.Pairwise (fun b c => key b ≤ key c) →
    ((l.orderedInsert (fun b c => key b ≤ key c) a).Pairwise R ↔
      (∀ b ∈ l, (key a ≤ key b → R a b) ∧ (key b < key a → R b a)) ∧ l.Pairwise R) := by
  intro l
  induction l with
  | nil =>
    intro _
    exact iff_of_true (List.pairwise_singleton R a) ⟨fun b hb => absurd hb List.not_mem_nil, .nil⟩
  | cons b l ih =>
    intro hsorted
    obtain ⟨hb, hl⟩ := List.pairwise_cons.mp hsorted
    rw [List.orderedInsert_cons]
    split
    next hab =>
      -- no row has a smaller key than `b`
      have hall : ∀ c ∈ b :: l, key a ≤ key c := by
        intro c hc
        obtain rfl | hc := List.mem_cons.mp hc
        · exact hab
        · exact hab.trans (hb c hc)
      rw [List.pairwise_cons]
      refine and_congr_left fun _ => forall₂_congr fun c hc => ?_
      exact ⟨fun h => ⟨fun _ => h, fun hlt => absurd (hall c hc) (not_le.mpr hlt)⟩,
        fun h => h.1 (hall c hc)⟩
    next hab =>
      have hlt : key b < key a := not_le.mp hab
      rw [List.pairwise_cons, ih hl, List.pairwise_cons, List.forall_mem_cons]
      have hmem : (∀ c ∈ l.orderedInsert (fun b c => key b ≤ key c) a, R b c) ↔
          R b a ∧ ∀ c ∈ l, R b c := by
        rw [← List.forall_mem_cons]
        exact forall_congr' fun c => imp_congr_left ((List.mem_orderedInsert _).trans List.mem_cons.symm)
      rw [hmem]
      constructor
      · rintro ⟨⟨hba, hbl⟩, hal, hl'⟩
        exact ⟨⟨⟨fun h => absurd hlt (not_lt.mpr h), fun _ => hba⟩, hal⟩, hbl, hl'⟩
      · rintro ⟨⟨hba, hal⟩, hbl, hl'⟩
        exact ⟨⟨hba.2 hlt, hbl⟩, hal, hl'⟩

/-- Two rows of the sorted list stand as their keys do, and as before where these are
equal. -/
theorem pairwise_sortByKey_iff {R : α → α → Prop} {l : List α} :
    (sortByKey key l).Pairwise R ↔
      l.Pairwise fun a b => (key a ≤ key b → R a b) ∧ (key b < key a → R b a) := by
  induction l with
  | nil => exact iff_of_true .nil .nil
  | cons a l ih =>
    have hcons : sortByKey key (a :: l) =
        (sortByKey key l).orderedInsert (fun b c => key b ≤ key c) a := rfl
    rw [hcons, pairwise_orderedInsert_iff a (sortByKey_sorted l), ih, List.pairwise_cons]
    refine and_congr_left fun _ => forall_congr' fun b => ?_
    exact imp_congr_left (List.mem_insertionSort _)

theorem sortByKey_perm (l : List α) : (sortByKey key l).Perm l := List.perm_insertionSort _ l

/-- A list that is sorted is left as it is. -/
theorem sortByKey_eq_self_iff {l : List α} :
    sortByKey key l = l ↔ l.Pairwise fun a b => key a ≤ key b := by
  refine ⟨fun h => h ▸ sortByKey_sorted l, fun h => ?_⟩
  exact List.Pairwise.insertionSort_eq h

/-! ## Keeping the last -/

theorem mem_of_mem_keepLast {a : α} : ∀ {l : List α}, a ∈ keepLast key l → a ∈ l := by
  intro l
  induction l using keepLast.induct key with
  | case1 => exact id
  | case2 b => exact id
  | case3 b c l heq ih =>
    intro h
    rw [keepLast, if_pos heq] at h
    exact List.mem_cons_of_mem _ (ih h)
  | case4 b c l hne ih =>
    intro h
    rw [keepLast, if_neg hne, List.mem_cons] at h
    rcases h with rfl | h
    · exact List.mem_cons_self
    · exact List.mem_cons_of_mem _ (ih h)

theorem keepLast_sorted : ∀ {l : List α}, l.Pairwise (fun a b => key a ≤ key b) →
    StrictlySorted key (keepLast key l) := by
  intro l
  induction l using keepLast.induct key with
  | case1 => intro _; exact List.Pairwise.nil
  | case2 b => intro _; exact List.pairwise_singleton _ b
  | case3 b c l heq ih =>
    intro h
    rw [keepLast, if_pos heq]
    exact ih h.of_cons
  | case4 b c l hne ih =>
    intro h
    rw [keepLast, if_neg hne]
    refine List.Pairwise.cons ?_ (ih h.of_cons)
    intro a ha
    have hbc : key b < key c := lt_of_le_of_ne (List.rel_of_pairwise_cons h List.mem_cons_self) hne
    rcases List.mem_cons.mp (mem_of_mem_keepLast ha) with rfl | hmem
    · exact hbc
    · exact hbc.trans_le (List.rel_of_pairwise_cons h.of_cons hmem)

/-- In a sorted list what is kept is the last of its key. -/
theorem mem_keepLast {a : α} : ∀ {l : List α}, l.Pairwise (fun a b => key a ≤ key b) →
    (a ∈ keepLast key l ↔ lastWith key (key a) l = some a) := by
  intro l
  induction l using keepLast.induct key with
  | case1 => intro _; simp [keepLast, lastWith]
  | case2 b =>
    intro _
    simp only [keepLast, List.mem_singleton, lastWith]
    by_cases h : key b = key a
    · simp [h, eq_comm]
    · have hne : a ≠ b := fun hab => h (hab ▸ rfl)
      simp [h, hne]
  | case3 b c l heq ih =>
    intro h
    rw [keepLast, if_pos heq, ih h.of_cons]
    -- `c` has the key of `b`, so dropping `b` does not change the last
    unfold lastWith
    by_cases hb : key b = key a
    · have hc : key c = key a := heq ▸ hb
      simp [hb, hc, List.getLast?_cons_cons]
    · simp [List.filter_cons, hb]
  | case4 b c l hne ih =>
    intro h
    have hbc : key b < key c := lt_of_le_of_ne (List.rel_of_pairwise_cons h List.mem_cons_self) hne
    rw [keepLast, if_neg hne, List.mem_cons, ih h.of_cons]
    unfold lastWith
    by_cases hb : key b = key a
    · -- every later row has a larger key
      have hnone : (c :: l).filter (fun x => key x = key a) = [] := by
        rw [List.filter_eq_nil_iff]
        intro x hx
        have hcx : key c ≤ key x := by
          rcases List.mem_cons.mp hx with rfl | hx
          · exact le_refl _
          · exact List.rel_of_pairwise_cons h.of_cons hx
        simpa [← hb] using (hbc.trans_le hcx).ne'
      rw [List.filter_cons_of_pos (a := b) (by simpa using hb), hnone]
      simp [eq_comm]
    · have hab : a ≠ b := fun hab => hb (hab ▸ rfl)
      rw [List.filter_cons_of_neg (a := b) (by simpa using hb), or_iff_right hab]

/-! ## Both together -/

theorem mem_dedupLast {a : α} {l : List α} :
    a ∈ dedupLast key l ↔ lastWith key (key a) l = some a := by
  unfold dedupLast
  rw [mem_keepLast (sortByKey_sorted l)]
  unfold lastWith
  rw [filter_sortByKey]

theorem dedupLast_sorted (l : List α) : StrictlySorted key (dedupLast key l) :=
  keepLast_sorted (sortByKey_sorted l)

/-! ## Last rows -/

theorem lastWith_key {k : κ} {a : α} {l : List α} (h : lastWith key k l = some a) : key a = k := by
  have := List.mem_of_getLast? h
  simpa using (List.mem_filter.mp this).2

theorem mem_of_lastWith {k : κ} {a : α} {l : List α} (h : lastWith key k l = some a) : a ∈ l :=
  (List.mem_filter.mp (List.mem_of_getLast? h)).1

theorem lastWith_eq_none {k : κ} {l : List α} : lastWith key k l = none ↔ ∀ a ∈ l, key a ≠ k := by
  unfold lastWith
  rw [List.getLast?_eq_none_iff, List.filter_eq_nil_iff]
  simp

/-- The last row of a key is in the second list, if that has one. -/
theorem lastWith_append (k : κ) (l m : List α) :
    lastWith key k (l ++ m) = (lastWith key k m).or (lastWith key k l) := by
  unfold lastWith
  rw [List.filter_append, List.getLast?_append]

/-- Rows of a strictly sorted list are told apart by their keys. -/
theorem StrictlySorted.eq_of_key {l : List α} (h : StrictlySorted key l) {a b : α} (ha : a ∈ l)
    (hb : b ∈ l) (hk : key a = key b) : a = b := by
  have hnodup : (l.map key).Nodup := List.pairwise_map.mpr (h.imp fun hlt => hlt.ne)
  exact List.inj_on_of_nodup_map hnodup ha hb hk

/-- In a strictly sorted list every row is the last of its key. -/
theorem StrictlySorted.lastWith {l : List α} (h : StrictlySorted key l) {a : α} :
    lastWith key (key a) l = some a ↔ a ∈ l := by
  constructor
  · exact mem_of_lastWith
  · intro ha
    have hin : a ∈ l.filter fun b => key b = key a := List.mem_filter.mpr ⟨ha, by simp⟩
    obtain ⟨b, hb⟩ : ∃ b, PaperTrading.Lib.lastWith key (key a) l = some b := by
      unfold PaperTrading.Lib.lastWith
      rw [List.getLast?_eq_some_getLast (List.ne_nil_of_mem hin)]
      exact ⟨_, rfl⟩
    rw [hb, h.eq_of_key (mem_of_lastWith hb) ha (lastWith_key hb)]

/-- Strictly sorted lists with the same rows are equal. -/
theorem StrictlySorted.eq_of_mem_iff {l m : List α} (hl : StrictlySorted key l)
    (hm : StrictlySorted key m) (h : ∀ a, a ∈ l ↔ a ∈ m) : l = m := by
  have hirr : ∀ {l : List α}, StrictlySorted key l → l.Nodup := fun h =>
    h.imp fun hlt heq => absurd (heq ▸ hlt) (lt_irrefl _)
  have hasymm : Std.Antisymm (fun a b : α => key a < key b) :=
    ⟨fun a b hab hba => absurd (hab.trans hba) (lt_irrefl _)⟩
  exact ((List.perm_ext_iff_of_nodup (hirr hl) (hirr hm)).mpr h).eq_of_pairwise' hl hm

/-! ## Prefixes of sorted lists -/

/-- A sorted list whose elements another sorted list has, and that lacks none of those below
one of its own, is where the other one begins. -/
theorem prefix_of_sorted {γ : Type} {r : γ → γ → Prop} (hirrefl : ∀ a, ¬ r a a)
    (htrans : ∀ a b c, r a b → r b c → r a c) : ∀ {l m : List γ}, l.Pairwise r → m.Pairwise r →
    (∀ a ∈ l, a ∈ m) → (∀ a ∈ m, ∀ b ∈ l, r a b → a ∈ l) → l <+: m := by
  intro l
  induction l with
  | nil => exact fun _ _ _ _ => List.nil_prefix
  | cons x l ih =>
    intro m hl hm hsub hbelow
    rw [List.pairwise_cons] at hl
    cases m with
    | nil => exact absurd (hsub x List.mem_cons_self) List.not_mem_nil
    | cons y m =>
      rw [List.pairwise_cons] at hm
      obtain rfl : y = x := by
        rcases List.mem_cons.mp (hsub x List.mem_cons_self) with heq | hmem
        · exact heq.symm
        · -- `y` is below `x`, so it is of the list, which has nothing below `x`
          have hyx := hm.1 x hmem
          have hy := hbelow y List.mem_cons_self x List.mem_cons_self hyx
          rcases List.mem_cons.mp hy with heq | hy
          · exact heq
          · exact absurd (htrans _ _ _ hyx (hl.1 y hy)) (hirrefl y)
      rw [List.cons_prefix_cons]
      refine ⟨rfl, ih hl.2 hm.2 (fun a ha => ?_) fun a ha b hb hab => ?_⟩
      · rcases List.mem_cons.mp (hsub a (List.mem_cons_of_mem _ ha)) with rfl | hmem
        · exact absurd (hl.1 a ha) (hirrefl a)
        · exact hmem
      · rcases List.mem_cons.mp (hbelow a (List.mem_cons_of_mem _ ha) b (List.mem_cons_of_mem _ hb)
          hab) with rfl | hmem
        · exact absurd (hm.1 a ha) (hirrefl a)
        · exact hmem

end PaperTrading.Lib
