import Mathlib.Data.List.Nodup

/-!
# Leaders and followers

A walk over a list, best first: an element that some leader covers follows the
first one that does; the others become leaders. `covers` need be neither symmetric
nor transitive.

No leader covers a later one (`leaders_independent`), everything else follows a
leader before it (`leader_or_follower`, `follows_split`), and the choice stays as
it is when followers are taken out of the list (`leaders_filter`,
`followers_filter`).
-/

namespace PaperTrading.Lib

variable {α : Type} (covers : α → α → Bool)

/-- The elements of the list that become leaders beside those there are. -/
def leaders : List α → List α → List α
  | _, [] => []
  | known, a :: l =>
    match known.find? (covers · a) with
    | none => a :: leaders (known ++ [a]) l
    | some _ => leaders known l

/-- The followers, each with its leader. -/
def followers : List α → List α → List (α × α)
  | _, [] => []
  | known, a :: l =>
    match known.find? (covers · a) with
    | none => followers (known ++ [a]) l
    | some w => (a, w) :: followers known l

variable {covers}

theorem leaders_cons_none {known l : List α} {a : α} (h : known.find? (covers · a) = none) :
    leaders covers known (a :: l) = a :: leaders covers (known ++ [a]) l := by
  rw [leaders, h]

theorem leaders_cons_some {known l : List α} {a w : α} (h : known.find? (covers · a) = some w) :
    leaders covers known (a :: l) = leaders covers known l := by
  rw [leaders, h]

theorem followers_cons_none {known l : List α} {a : α} (h : known.find? (covers · a) = none) :
    followers covers known (a :: l) = followers covers (known ++ [a]) l := by
  rw [followers, h]

theorem followers_cons_some {known l : List α} {a w : α} (h : known.find? (covers · a) = some w) :
    followers covers known (a :: l) = (a, w) :: followers covers known l := by
  rw [followers, h]

theorem leaders_sublist : ∀ (l known : List α), (leaders covers known l).Sublist l := by
  intro l
  induction l with
  | nil => intro _; exact List.Sublist.refl _
  | cons a l ih =>
    intro known
    cases h : known.find? (covers · a) with
    | none =>
      rw [leaders_cons_none h]
      exact (ih _).cons_cons a
    | some w =>
      rw [leaders_cons_some h]
      exact (ih known).cons a

variable (covers) in
/-- No leader covers a later one. -/
theorem leaders_independent : ∀ (l known : List α),
    (leaders covers known l).Pairwise (fun a b => covers a b = false) ∧
      ∀ w ∈ known, ∀ a ∈ leaders covers known l, covers w a = false := by
  intro l
  induction l with
  | nil => intro known; exact ⟨List.Pairwise.nil, fun _ _ _ ha => by cases ha⟩
  | cons a l ih =>
    intro known
    cases h : known.find? (covers · a) with
    | none =>
      rw [leaders_cons_none h]
      obtain ⟨hpair, hknown⟩ := ih (known ++ [a])
      refine ⟨List.Pairwise.cons (fun b hb => ?_) hpair, fun w hw b hb => ?_⟩
      · exact hknown a (List.mem_append_right _ List.mem_cons_self) b hb
      · rcases List.mem_cons.mp hb with rfl | hb
        · simpa using List.find?_eq_none.mp h w hw
        · exact hknown w (List.mem_append_left _ hw) b hb
    | some w =>
      rw [leaders_cons_some h]
      exact ih known

/-- Everything becomes a leader or follows one. -/
theorem leader_or_follower : ∀ (l known : List α) {a : α}, a ∈ l →
    a ∈ leaders covers known l ∨ ∃ w, (a, w) ∈ followers covers known l := by
  intro l
  induction l with
  | nil => intro _ _ h; cases h
  | cons b l ih =>
    intro known a ha
    cases h : known.find? (covers · b) with
    | none =>
      rw [leaders_cons_none h, followers_cons_none h]
      rcases List.mem_cons.mp ha with rfl | ha
      · exact .inl List.mem_cons_self
      · exact (ih _ ha).imp_left (List.mem_cons_of_mem _)
    | some w =>
      rw [leaders_cons_some h, followers_cons_some h]
      rcases List.mem_cons.mp ha with rfl | ha
      · exact .inr ⟨w, List.mem_cons_self⟩
      · exact (ih _ ha).imp_right fun ⟨w, hw⟩ => ⟨w, List.mem_cons_of_mem _ hw⟩

/-- A follower stands in the list behind its leader, unless that was known before. -/
theorem follows_split : ∀ (l known : List α) {a w : α}, (a, w) ∈ followers covers known l →
    covers w a = true ∧ ∃ l₁ l₂, l = l₁ ++ a :: l₂ ∧ (w ∈ known ∨ w ∈ leaders covers known l₁) := by
  intro l
  induction l with
  | nil => intro _ _ _ h; cases h
  | cons b l ih =>
    intro known a w hw
    cases h : known.find? (covers · b) with
    | none =>
      rw [followers_cons_none h] at hw
      obtain ⟨hcov, l₁, l₂, rfl, hlead⟩ := ih _ hw
      refine ⟨hcov, b :: l₁, l₂, rfl, ?_⟩
      rw [leaders_cons_none h]
      rcases hlead with hlead | hlead
      · rcases List.mem_append.mp hlead with hlead | hlead
        · exact .inl hlead
        · rw [List.mem_singleton.mp hlead]
          exact .inr List.mem_cons_self
      · exact .inr (List.mem_cons_of_mem _ hlead)
    | some v =>
      rw [followers_cons_some h] at hw
      rcases List.mem_cons.mp hw with heq | hw
      · cases heq
        exact ⟨(List.find?_some h :), [], l, rfl, .inl (List.mem_of_find?_eq_some h)⟩
      · obtain ⟨hcov, l₁, l₂, rfl, hlead⟩ := ih _ hw
        refine ⟨hcov, b :: l₁, l₂, rfl, ?_⟩
        rw [leaders_cons_some h]
        exact hlead

theorem leaders_append : ∀ (l₁ known l₂ : List α), leaders covers known (l₁ ++ l₂) =
    leaders covers known l₁ ++ leaders covers (known ++ leaders covers known l₁) l₂ := by
  intro l₁
  induction l₁ with
  | nil => intro known l₂; rw [List.nil_append, leaders, List.append_nil, List.nil_append]
  | cons a l₁ ih =>
    intro known l₂
    rw [List.cons_append]
    cases h : known.find? (covers · a) with
    | none =>
      rw [leaders_cons_none h, leaders_cons_none h, ih, List.append_assoc]
      rfl
    | some w => rw [leaders_cons_some h, leaders_cons_some h, ih]

/-- Who follows is in the list and, if the list names nobody twice, no leader. -/
theorem not_leader_of_follows {l : List α} (hnodup : l.Nodup) {a w : α}
    (h : (a, w) ∈ followers covers [] l) : a ∈ l ∧ w ∈ leaders covers [] l ∧
      a ∉ leaders covers [] l := by
  obtain ⟨hcov, l₁, l₂, rfl, hlead⟩ := follows_split l [] h
  have hlead := hlead.resolve_left List.not_mem_nil
  have hw : w ∈ leaders covers [] (l₁ ++ a :: l₂) := by
    rw [leaders_append]
    exact List.mem_append_left _ hlead
  refine ⟨List.mem_append_right _ List.mem_cons_self, hw, fun ha => ?_⟩
  rw [leaders_append, List.mem_append] at ha
  rw [List.nodup_append] at hnodup
  rcases ha with ha | ha
  · exact hnodup.2.2 a ((leaders_sublist _ _).mem ha) a List.mem_cons_self rfl
  · have := (leaders_independent covers (a :: l₂) ([] ++ leaders covers [] l₁)).2 w
      (List.mem_append_right _ hlead) a ha
    rw [hcov] at this
    cases this

/-- Without some of the followers the leaders are the same. -/
theorem leaders_filter (keep : α → Bool) : ∀ (l known : List α),
    (∀ a ∈ leaders covers known l, keep a = true) →
      leaders covers known (l.filter keep) = leaders covers known l := by
  intro l
  induction l with
  | nil => intro _ _; rfl
  | cons a l ih =>
    intro known hkeep
    cases h : known.find? (covers · a) with
    | none =>
      rw [leaders_cons_none h] at hkeep ⊢
      rw [List.filter_cons_of_pos (hkeep a List.mem_cons_self), leaders_cons_none h,
        ih _ fun b hb => hkeep b (List.mem_cons_of_mem _ hb)]
    | some w =>
      rw [leaders_cons_some h] at hkeep ⊢
      rw [List.filter_cons]
      split
      next => rw [leaders_cons_some h, ih known hkeep]
      next => exact ih known hkeep

theorem followers_filter (keep : α → Bool) : ∀ (l known : List α),
    (∀ a ∈ leaders covers known l, keep a = true) →
      followers covers known (l.filter keep) =
        (followers covers known l).filter fun p => keep p.1 := by
  intro l
  induction l with
  | nil => intro _ _; rfl
  | cons a l ih =>
    intro known hkeep
    cases h : known.find? (covers · a) with
    | none =>
      rw [leaders_cons_none h] at hkeep
      rw [List.filter_cons_of_pos (hkeep a List.mem_cons_self), followers_cons_none h,
        followers_cons_none h, ih _ fun b hb => hkeep b (List.mem_cons_of_mem _ hb)]
    | some w =>
      rw [leaders_cons_some h] at hkeep
      rw [List.filter_cons, followers_cons_some h, List.filter_cons]
      split
      next => rw [followers_cons_some h, ih known hkeep]
      next => exact ih known hkeep

end PaperTrading.Lib
