import Mathlib.Data.List.Basic
import Mathlib.Data.Option.Basic

/-!
# Greedy selection by key

`greedy key skip taken l` walks over `l` and keeps an element when it is not to
be skipped and its key has not been taken, by an element kept before or by
`taken` itself. An element without a key is never held back by one.

`greedy_block` says what blocking some elements and taking their keys as well
does to a selection: it removes from the result exactly what has one of those
keys. `greedy_block_iff` looks at a second selection over the first and says
when blocking removes the blocked elements and nothing else.
-/

namespace PaperTrading.Lib

variable {α κ κ₂ : Type}

/-- The keys of some elements. -/
def keysOf (key : α → Option κ) (l : List α) : List κ := l.filterMap key

/-- A key is in the keys of a list with an element that has it. -/
theorem mem_keysOf {key : α → Option κ} {k : κ} {a : α} {l : List α} (ha : a ∈ l)
    (hk : key a = some k) : k ∈ keysOf key l :=
  List.mem_filterMap.mpr ⟨a, ha, hk⟩

variable [DecidableEq κ] [DecidableEq κ₂]

/-- The key is there and has been taken. -/
def keyTaken (taken : List κ) (key : Option κ) : Bool := key.any (· ∈ taken)

def greedy (key : α → Option κ) (skip : α → Bool) : List κ → List α → List α
  | _, [] => []
  | taken, a :: l =>
    if skip a || keyTaken taken (key a) then greedy key skip taken l
    else a :: greedy key skip ((key a).toList ++ taken) l

/-! ## Taken keys -/

theorem keyTaken_append (s t : List κ) (o : Option κ) :
    keyTaken (s ++ t) o = (keyTaken s o || keyTaken t o) := by
  cases o with
  | none => rfl
  | some k => simp [keyTaken]

theorem keyTaken_congr {s t : List κ} (h : ∀ k, k ∈ s ↔ k ∈ t) (o : Option κ) :
    keyTaken s o = keyTaken t o := by
  cases o with
  | none => rfl
  | some k => simp [keyTaken, h]

theorem keyTaken_keysOf {key : α → Option κ} {a : α} {l : List α} (ha : a ∈ l)
    (hk : (key a).isSome) : keyTaken (keysOf key l) (key a) = true := by
  obtain ⟨k, hk⟩ := Option.isSome_iff_exists.mp hk
  simp [keyTaken, hk, mem_keysOf ha hk]

section
variable {key : α → Option κ} {skip : α → Bool}

/-! ## One step of the walk -/

theorem greedy_drop {a : α} {l : List α} {taken : List κ}
    (h : (skip a || keyTaken taken (key a)) = true) :
    greedy key skip taken (a :: l) = greedy key skip taken l := by
  rw [greedy, if_pos h]

theorem greedy_keep {a : α} {l : List α} {taken : List κ}
    (h : (skip a || keyTaken taken (key a)) = false) :
    greedy key skip taken (a :: l) = a :: greedy key skip ((key a).toList ++ taken) l := by
  rw [greedy, if_neg (by simp [h])]

/-- Only membership in the taken keys matters. -/
theorem greedy_congr : ∀ (l : List α) {s t : List κ}, (∀ k, k ∈ s ↔ k ∈ t) →
    greedy key skip s l = greedy key skip t l := by
  intro l
  induction l with
  | nil => intros; rfl
  | cons a l ih =>
    intro s t h
    have hstep : ∀ k, k ∈ (key a).toList ++ s ↔ k ∈ (key a).toList ++ t := by
      intro k
      rw [List.mem_append, List.mem_append, h]
    unfold greedy
    rw [keyTaken_congr h, ih h, ih hstep]

theorem greedy_sublist : ∀ (l : List α) (taken : List κ), (greedy key skip taken l).Sublist l := by
  intro l
  induction l with
  | nil => intro _; exact List.Sublist.refl _
  | cons a l ih =>
    intro taken
    unfold greedy
    split
    next => exact (ih taken).cons a
    next => exact (ih _).cons_cons a

/-- What is kept was not to be skipped, and its key was free. -/
theorem mem_greedy {a : α} : ∀ {l : List α} {taken : List κ}, a ∈ greedy key skip taken l →
    skip a = false ∧ keyTaken taken (key a) = false := by
  intro l
  induction l with
  | nil => intro _ h; cases h
  | cons b l ih =>
    intro taken h
    cases hb : skip b || keyTaken taken (key b) with
    | true =>
      rw [greedy_drop hb] at h
      exact ih h
    | false =>
      rw [greedy_keep hb] at h
      rcases List.mem_cons.mp h with rfl | h
      · exact Bool.or_eq_false_iff.mp hb
      · obtain ⟨hskip, hfree⟩ := ih h
        rw [keyTaken_append] at hfree
        exact ⟨hskip, (Bool.or_eq_false_iff.mp hfree).2⟩

/-- The first element with a free key is kept, unless such elements are skipped. -/
theorem find?_greedy (f : α → κ) {skip : α → Bool} {k : κ} : ∀ (l : List α) {taken : List κ},
    (∀ a, f a = k → skip a = false) → k ∉ taken →
      (greedy (fun a => some (f a)) skip taken l).find? (fun a => f a = k) =
        l.find? fun a => f a = k := by
  intro l
  induction l with
  | nil => intro taken _ _; rfl
  | cons a l ih =>
    intro taken hskip hfree
    by_cases hk : f a = k
    · have hkeep : (skip a || keyTaken taken (some (f a))) = false := by
        simp [hskip a hk, keyTaken, hk, hfree]
      rw [greedy_keep hkeep, List.find?_cons, List.find?_cons, decide_eq_true hk]
    · cases hdrop : skip a || keyTaken taken (some (f a)) with
      | true => rw [greedy_drop hdrop, ih hskip hfree, List.find?_cons, decide_eq_false hk]
      | false =>
        rw [greedy_keep hdrop, List.find?_cons, List.find?_cons, decide_eq_false hk]
        refine ih hskip ?_
        rw [Option.toList_some, List.singleton_append, List.mem_cons, not_or]
        exact ⟨fun h => hk h.symm, hfree⟩

/-- When every key was taken nothing is kept. -/
theorem greedy_all_taken {l : List α} {taken : List κ} (h : ∀ a ∈ l, keyTaken taken (key a) = true) :
    greedy key skip taken l = [] := by
  rw [List.eq_nil_iff_forall_not_mem]
  intro a ha
  have hfree := (mem_greedy ha).2
  rw [h a ((greedy_sublist l taken).mem ha)] at hfree
  cases hfree

/-- The keys of what is kept are free, and no two of them are the same. -/
theorem keysOf_greedy : ∀ (l : List α) (taken : List κ),
    (keysOf key (greedy key skip taken l)).Nodup ∧
      ∀ k ∈ keysOf key (greedy key skip taken l), k ∉ taken := by
  intro l taken
  refine ⟨?_, ?_⟩
  · induction l generalizing taken with
    | nil => exact List.nodup_nil
    | cons a l ih =>
      unfold greedy
      split
      next => exact ih taken
      next =>
        unfold keysOf
        cases hk : key a with
        | none =>
          rw [List.filterMap_cons_none hk]
          exact ih _
        | some k =>
          rw [List.filterMap_cons_some hk]
          refine List.nodup_cons.mpr ⟨?_, ih _⟩
          intro hmem
          obtain ⟨b, hb, hbk⟩ := List.mem_filterMap.mp hmem
          have hfree := (mem_greedy hb).2
          simp [keyTaken, hbk] at hfree
  · intro k hk
    obtain ⟨a, ha, hak⟩ := List.mem_filterMap.mp hk
    have hfree := (mem_greedy ha).2
    simpa [keyTaken, hak] using hfree

/-- Elements that all have keys are kept once each. -/
theorem greedy_nodup (hkey : ∀ a, (key a).isSome) (l : List α) (taken : List κ) :
    (greedy key skip taken l).Nodup := by
  have hkeys : (keysOf key (greedy key skip taken l)).Nodup := (keysOf_greedy l taken).1
  apply (List.pairwise_filterMap.mp hkeys).imp
  intro a b hne hab
  obtain ⟨k, hk⟩ := Option.isSome_iff_exists.mp (hkey a)
  exact hne k hk k (hab ▸ hk) rfl

/-- Elements whose keys are free and not repeated are all kept. -/
theorem greedy_fresh_append {rest : List α} : ∀ (l : List α) {taken : List κ},
    (keysOf key l).Nodup → (∀ k ∈ keysOf key l, k ∉ taken) →
      greedy key (fun _ => false) taken (l ++ rest) =
        l ++ greedy key (fun _ => false) (keysOf key l ++ taken) rest := by
  intro l
  induction l with
  | nil => intro taken _ _; rfl
  | cons a l ih =>
    intro taken hnodup hfree
    unfold keysOf at hnodup hfree ⊢
    cases hk : key a with
    | none =>
      rw [List.filterMap_cons_none hk] at hnodup hfree ⊢
      rw [List.cons_append, greedy_keep (by simp [hk, keyTaken]), hk, Option.toList_none,
        List.nil_append, ih hnodup hfree]
      rfl
    | some k =>
      rw [List.filterMap_cons_some hk] at hnodup hfree ⊢
      obtain ⟨hnot, hnodup⟩ := List.nodup_cons.mp hnodup
      have hkeep : ((fun _ => false) a || keyTaken taken (key a)) = false := by
        simpa [hk, keyTaken] using hfree k List.mem_cons_self
      have hfree' : ∀ k' ∈ keysOf key l, k' ∉ (key a).toList ++ taken := by
        intro k' hk'
        rw [hk, Option.toList_some, List.singleton_append, List.mem_cons, not_or]
        refine ⟨?_, hfree k' (List.mem_cons_of_mem _ hk')⟩
        intro heq
        exact hnot (heq ▸ hk')
      rw [List.cons_append, greedy_keep hkeep, ih hnodup hfree', List.cons_append]
      congr 2
      apply greedy_congr
      intro k'
      simp only [keysOf, hk, Option.toList_some, List.mem_append, List.mem_cons]
      tauto

/-- With more keys taken, what has one of these is gone and the rest is kept. -/
theorem greedy_more (more : List κ) : ∀ (l : List α) (taken : List κ),
    greedy key skip (more ++ taken) l =
      (greedy key skip taken l).filter fun a => !keyTaken more (key a) := by
  intro l
  induction l with
  | nil => intro _; rfl
  | cons a l ih =>
    intro taken
    cases hold : skip a || keyTaken taken (key a) with
    | true =>
      -- dropped before, dropped now
      have hnew : (skip a || keyTaken (more ++ taken) (key a)) = true := by
        rw [keyTaken_append]
        rcases Bool.or_eq_true_iff.mp hold with h | h <;> simp [h]
      rw [greedy_drop hnew, greedy_drop hold, ih]
    | false =>
      obtain ⟨hskip, hfree⟩ := Bool.or_eq_false_iff.mp hold
      rw [greedy_keep hold]
      cases hin : keyTaken more (key a) with
      | true =>
        -- kept before, dropped now: its key is one of the new ones
        have hnew : (skip a || keyTaken (more ++ taken) (key a)) = true := by
          simp [keyTaken_append, hin]
        rw [greedy_drop hnew, List.filter_cons_of_neg (by simp [hin]), ← ih]
        apply greedy_congr
        intro k
        have hk : ∀ k, key a = some k → k ∈ more := by
          intro k hk
          simpa [keyTaken, hk] using hin
        simp only [List.mem_append, Option.mem_toList]
        constructor
        · intro h
          exact h.imp id Or.inr
        · intro h
          rcases h with h | h | h
          · exact Or.inl h
          · exact Or.inl (hk k h)
          · exact Or.inr h
      | false =>
        have hnew : (skip a || keyTaken (more ++ taken) (key a)) = false := by
          simp [keyTaken_append, hin, hskip, hfree]
        rw [greedy_keep hnew, List.filter_cons_of_pos (by simp [hin]), ← ih]
        congr 1
        apply greedy_congr
        intro k
        simp only [List.mem_append]
        tauto

/-! ## Blocking elements -/

/-- Skipping an element whose key was taken anyway changes nothing. -/
theorem greedy_skip_taken {extra : α → Bool} : ∀ (l : List α) {taken : List κ},
    (∀ a, extra a = true → keyTaken taken (key a) = true) →
      greedy key (fun a => extra a || skip a) taken l = greedy key skip taken l := by
  intro l
  induction l with
  | nil => intros; rfl
  | cons a l ih =>
    intro taken h
    have hmore : ∀ b, extra b = true → keyTaken ((key a).toList ++ taken) (key b) = true := by
      intro b hb
      rw [keyTaken_append, h b hb, Bool.or_true]
    have hsame : ((extra a || skip a) || keyTaken taken (key a)) =
        (skip a || keyTaken taken (key a)) := by
      cases hb : extra a with
      | false => rfl
      | true => simp [h a hb]
    unfold greedy
    rw [hsame, ih h, ih hmore]

/-- Blocking elements that all have keys, with their keys taken, removes what
has one of these keys. -/
theorem greedy_block [DecidableEq α] {blocked : List α} (hkey : ∀ a, (key a).isSome) (l : List α)
    (taken : List κ) :
    greedy key (fun a => decide (a ∈ blocked) || skip a) (keysOf key blocked ++ taken) l =
      (greedy key skip taken l).filter fun a => !keyTaken (keysOf key blocked) (key a) := by
  rw [greedy_skip_taken, greedy_more]
  intro a ha
  rw [keyTaken_append, keyTaken_keysOf (of_decide_eq_true ha) (hkey a), Bool.true_or]

end

/-- A selection by `key₂` over one by `key`: blocking elements in both, with
their keys taken, removes just them exactly when nothing else that was selected
shares a key of either kind with one of them. -/
theorem greedy_block_iff [DecidableEq α] {key : α → Option κ} {key₂ : α → Option κ₂}
    {skip : α → Bool} {blocked : List α} (hkey : ∀ a, (key a).isSome) :
    ∀ (l : List α) (taken : List κ₂),
    greedy key₂ skip (keysOf key₂ blocked ++ taken)
        (l.filter fun a => !keyTaken (keysOf key blocked) (key a)) =
      (greedy key₂ skip taken l).filter (fun a => decide (a ∉ blocked)) ↔
    ∀ a ∈ greedy key₂ skip taken l, a ∉ blocked →
      keyTaken (keysOf key blocked) (key a) = false ∧
        keyTaken (keysOf key₂ blocked) (key₂ a) = false := by
  intro l taken
  constructor
  · intro heq a ha hnot
    have hmem : a ∈ (greedy key₂ skip taken l).filter fun a => decide (a ∉ blocked) :=
      List.mem_filter.mpr ⟨ha, by simpa using hnot⟩
    rw [← heq] at hmem
    obtain ⟨_, hfree⟩ := mem_greedy hmem
    rw [keyTaken_append] at hfree
    have hin := List.mem_filter.mp ((greedy_sublist _ _).mem hmem)
    exact ⟨by simpa using hin.2, (Bool.or_eq_false_iff.mp hfree).1⟩
  · induction l generalizing taken with
    | nil => intro _; rfl
    | cons a l ih =>
      intro hsep
      cases hold : skip a || keyTaken taken (key₂ a) with
      | true =>
        -- the second selection dropped `a` before; it does so again, if it gets there
        rw [greedy_drop hold] at hsep ⊢
        rw [← ih taken hsep, List.filter_cons]
        split
        next =>
          have hnew : (skip a || keyTaken (keysOf key₂ blocked ++ taken) (key₂ a)) = true := by
            rw [keyTaken_append]
            rcases Bool.or_eq_true_iff.mp hold with h | h <;> simp [h]
          rw [greedy_drop hnew]
        next => rfl
      | false =>
        rw [greedy_keep hold] at hsep ⊢
        have hrest := ih _ fun b hb => hsep b (List.mem_cons_of_mem _ hb)
        by_cases hin : a ∈ blocked
        · -- `a` is blocked; its keys were taken with it
          have hq : keyTaken (keysOf key blocked) (key a) = true := keyTaken_keysOf hin (hkey a)
          rw [List.filter_cons_of_neg (by simp [hq]), List.filter_cons_of_neg (by simp [hin]), ← hrest]
          apply greedy_congr
          intro k
          simp only [List.mem_append, Option.mem_toList]
          constructor
          · intro h
            exact h.imp id Or.inr
          · intro h
            rcases h with h | h | h
            · exact Or.inl h
            · exact Or.inl (mem_keysOf hin h)
            · exact Or.inr h
        · obtain ⟨hq, hq₂⟩ := hsep a List.mem_cons_self hin
          obtain ⟨hskip, hfree⟩ := Bool.or_eq_false_iff.mp hold
          have hnew : (skip a || keyTaken (keysOf key₂ blocked ++ taken) (key₂ a)) = false := by
            simp [keyTaken_append, hskip, hfree, hq₂]
          rw [List.filter_cons_of_pos (by simp [hq]), List.filter_cons_of_pos (by simp [hin]),
            greedy_keep hnew, ← hrest]
          congr 1
          apply greedy_congr
          intro k
          simp only [List.mem_append]
          tauto

end PaperTrading.Lib
