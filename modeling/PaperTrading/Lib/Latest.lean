import Mathlib.Order.Lattice
import Mathlib.Data.List.Induction
import Mathlib.Tactic.Basic

/-!
# The latest of some entries

`latest stamp l` goes through `l` and keeps the entry with the latest stamp, of equal
stamps the last; an entry without a stamp is kept only until another has one.
`latest_max` says that no entry is newer, and `latest_filter` that an entry that is the
latest of all is the latest of every selection it belongs to.
-/

namespace PaperTrading.Lib

variable {α κ : Type} [LinearOrder κ] (stamp : α → Option κ)

/-- The better of the best so far and the next entry. -/
def later (best : Option α) (a : α) : Option α :=
  match best with
  | none => some a
  | some b =>
    match stamp a, stamp b with
    | none, _ => some b
    | some _, none => some a
    | some s, some t => if t ≤ s then some a else some b

def latest (l : List α) : Option α := l.foldl (later stamp) none

/-- `a` is not newer than `b`. -/
def AtMost (a b : α) : Prop := ∀ s, stamp a = some s → ∃ t, stamp b = some t ∧ s ≤ t

variable {stamp}

theorem AtMost.refl (a : α) : AtMost stamp a a := fun s h => ⟨s, h, le_refl s⟩

theorem AtMost.trans {a b c : α} (hab : AtMost stamp a b) (hbc : AtMost stamp b c) :
    AtMost stamp a c := by
  intro s hs
  obtain ⟨t, ht, hst⟩ := hab s hs
  obtain ⟨u, hu, htu⟩ := hbc t ht
  exact ⟨u, hu, le_trans hst htu⟩

/-- The next entry takes the place of the best when it has a stamp and is not older. -/
theorem later_take {a b : α} (hstamp : (stamp a).isSome = true) (h : AtMost stamp b a) :
    later stamp (some b) a = some a := by
  obtain ⟨s, hs⟩ := Option.isSome_iff_exists.mp hstamp
  unfold later
  dsimp only
  rw [hs]
  cases hb : stamp b with
  | none => rfl
  | some t =>
    obtain ⟨s', hs', hle⟩ := h t hb
    rw [hs] at hs'
    cases hs'
    exact if_pos hle

variable (stamp) in
/-- Otherwise the best stays, and the entry is not newer. -/
theorem later_cases (b a : α) :
    later stamp (some b) a = some a ∧ (stamp a).isSome = true ∧ AtMost stamp b a ∨
      later stamp (some b) a = some b ∧ AtMost stamp a b := by
  unfold later
  dsimp only
  cases ha : stamp a with
  | none => exact .inr ⟨rfl, fun s hs => by rw [ha] at hs; cases hs⟩
  | some s =>
    cases hb : stamp b with
    | none => exact .inl ⟨rfl, rfl, fun t ht => by rw [hb] at ht; cases ht⟩
    | some t =>
      dsimp only
      by_cases hle : t ≤ s
      · rw [if_pos hle]
        refine .inl ⟨rfl, rfl, fun t' ht' => ⟨s, ha, ?_⟩⟩
        rw [hb] at ht'
        cases ht'
        exact hle
      · rw [if_neg hle]
        refine .inr ⟨rfl, fun s' hs' => ⟨t, hb, ?_⟩⟩
        rw [ha] at hs'
        cases hs'
        exact le_of_lt (not_le.mp hle)

theorem latest_append_singleton (l : List α) (a : α) :
    latest stamp (l ++ [a]) = later stamp (latest stamp l) a := by
  unfold latest
  rw [List.foldl_append]
  rfl

theorem latest_eq_none {l : List α} : latest stamp l = none ↔ l = [] := by
  induction l using List.reverseRecOn with
  | nil => exact iff_of_true rfl rfl
  | append_singleton l a _ =>
    rw [latest_append_singleton]
    refine iff_of_false (fun h => ?_) (by simp)
    cases hl : latest stamp l with
    | none =>
      rw [hl] at h
      cases h
    | some b =>
      rw [hl] at h
      rcases later_cases stamp b a with ⟨heq, -⟩ | ⟨heq, -⟩
      · rw [heq] at h
        cases h
      · rw [heq] at h
        cases h

/-- The latest entry is one of the list, and no other is newer. -/
theorem latest_max {l : List α} {e : α} (h : latest stamp l = some e) :
    e ∈ l ∧ ∀ a ∈ l, AtMost stamp a e := by
  induction l using List.reverseRecOn generalizing e with
  | nil => cases h
  | append_singleton l a ih =>
    rw [latest_append_singleton] at h
    cases hl : latest stamp l with
    | none =>
      rw [hl] at h
      cases h
      rw [latest_eq_none.mp hl]
      exact ⟨List.mem_cons_self, fun b hb => List.mem_singleton.mp hb ▸ AtMost.refl _⟩
    | some b =>
      rw [hl] at h
      obtain ⟨hmem, hmax⟩ := ih hl
      rcases later_cases stamp b a with ⟨heq, -, hle⟩ | ⟨heq, hle⟩
      · rw [heq] at h
        cases h
        refine ⟨List.mem_append_right _ List.mem_cons_self, fun c hc => ?_⟩
        rcases List.mem_append.mp hc with hc | hc
        · exact (hmax c hc).trans hle
        · exact List.mem_singleton.mp hc ▸ AtMost.refl _
      · rw [heq] at h
        cases h
        refine ⟨List.mem_append_left _ hmem, fun c hc => ?_⟩
        rcases List.mem_append.mp hc with hc | hc
        · exact hmax c hc
        · exact List.mem_singleton.mp hc ▸ hle

/-- The latest entry of all is the latest of every selection that has it. -/
theorem latest_filter {l : List α} {e : α} {p : α → Bool} (h : latest stamp l = some e)
    (hp : p e = true) : latest stamp (l.filter p) = some e := by
  induction l using List.reverseRecOn generalizing e with
  | nil => cases h
  | append_singleton l a ih =>
    rw [latest_append_singleton] at h
    rw [List.filter_append]
    cases hl : latest stamp l with
    | none =>
      rw [hl] at h
      cases h
      rw [latest_eq_none.mp hl, List.filter_cons_of_pos hp]
      rfl
    | some b =>
      rw [hl] at h
      rcases later_cases stamp b a with ⟨heq, hstamp, hle⟩ | ⟨heq, -⟩
      · rw [heq] at h
        cases h
        rw [List.filter_cons_of_pos hp, List.filter_nil, latest_append_singleton]
        cases hsel : latest stamp (l.filter p) with
        | none => rfl
        | some c =>
          exact later_take hstamp
            (((latest_max hl).2 c (List.mem_filter.mp (latest_max hsel).1).1).trans hle)
      · have hkeep := heq
        rw [heq] at h
        cases h
        rw [List.filter_cons]
        split
        next =>
          rw [List.filter_nil, latest_append_singleton, ih hl hp]
          exact hkeep
        next =>
          rw [List.filter_nil, List.append_nil]
          exact ih hl hp

end PaperTrading.Lib
