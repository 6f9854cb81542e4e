import Mathlib.Data.List.Basic

/-!
# Conditions that stop at the first answer

`all` and `any` over conditions that may raise: the conditions are asked in order
until one decides, and the ones behind it are never asked. `all` is decided by
`false` and `any` by `true`, so both are `stopAt` of the answer that decides.

`stopAt_error_iff` says when the whole raises: when a condition that raises is
reached, everything before it having left the question open.
-/

namespace PaperTrading.Lib

variable {ε : Type*}

/-- Asks in order, until the answer is `stop`. -/
def stopAt (stop : Bool) : List (Except ε Bool) → Except ε Bool
  | [] => .ok !stop
  | .error e :: _ => .error e
  | .ok b :: xs => if b = stop then .ok stop else stopAt stop xs

/-- `all(xs)`. -/
def allOf (xs : List (Except ε Bool)) : Except ε Bool := stopAt false xs

/-- `any(xs)`. -/
def anyOf (xs : List (Except ε Bool)) : Except ε Bool := stopAt true xs

/-- Some condition raises, and those before it leave the question open. -/
def RaiseReached (stop : Bool) (xs : List (Except ε Bool)) : Prop :=
  ∃ us e ws, xs = us ++ .error e :: ws ∧ ∀ x ∈ us, x = .ok !stop

variable {stop : Bool} {xs : List (Except ε Bool)}

@[simp] theorem stopAt_nil : (stopAt stop [] : Except ε Bool) = .ok !stop := rfl

theorem stopAt_singleton (stop : Bool) (x : Except ε Bool) : stopAt stop [x] = x := by
  cases x with
  | error e => rfl
  | ok b => cases b <;> cases stop <;> rfl

/-- A condition that leaves the question open does not count. -/
theorem stopAt_append {us : List (Except ε Bool)} (hus : ∀ x ∈ us, x = .ok !stop) :
    stopAt stop (us ++ xs) = stopAt stop xs := by
  induction us with
  | nil => rfl
  | cons x us ih =>
    rw [hus x List.mem_cons_self, List.cons_append, stopAt, if_neg (by cases stop <;> decide),
      ih fun y hy => hus y (List.mem_cons_of_mem _ hy)]

/-- Two lists behind each other are asked like two questions. -/
theorem stopAt_append_pair (us : List (Except ε Bool)) :
    stopAt stop (us ++ xs) = stopAt stop [stopAt stop us, stopAt stop xs] := by
  induction us with
  | nil =>
    rw [List.nil_append, stopAt_nil, stopAt, if_neg (by cases stop <;> decide), stopAt_singleton]
  | cons u us ih =>
    cases u with
    | error e => rfl
    | ok b =>
      rw [List.cons_append, stopAt, stopAt]
      by_cases hb : b = stop
      · rw [if_pos hb, if_pos hb, stopAt, if_pos rfl]
      · rw [if_neg hb, if_neg hb, ih]

/-- Conditions that do not raise. -/
theorem stopAt_map_ok (stop : Bool) (bs : List Bool) :
    stopAt stop (bs.map Except.ok : List (Except ε Bool)) =
      .ok (if stop ∈ bs then stop else !stop) := by
  induction bs with
  | nil => rfl
  | cons b bs ih =>
    rw [List.map_cons, stopAt, ih]
    by_cases hb : b = stop
    · rw [if_pos hb, if_pos (by rw [hb]; exact List.mem_cons_self)]
    · have hmem : stop ∈ b :: bs ↔ stop ∈ bs := by simp [Ne.symm hb]
      rw [if_neg hb]
      simp only [hmem]

/-- The question stays open when every condition leaves it open. -/
theorem stopAt_open_iff : stopAt stop xs = .ok !stop ↔ ∀ x ∈ xs, x = .ok !stop := by
  constructor
  · intro h
    induction xs with
    | nil => simp
    | cons x xs ih =>
      cases x with
      | error e => cases h
      | ok b =>
        rw [stopAt] at h
        by_cases hb : b = stop
        · rw [if_pos hb] at h
          cases stop <;> cases h
        · rw [if_neg hb] at h
          have hopen : b = !stop := by cases b <;> cases stop <;> simp_all
          rw [List.forall_mem_cons]
          exact ⟨congrArg _ hopen, ih h⟩
  · intro h
    have hnil : stopAt stop (xs ++ []) = stopAt stop [] := stopAt_append h
    rwa [List.append_nil] at hnil

/-- The answer that decides is one of the answers. -/
theorem stopAt_stop (h : stopAt stop xs = .ok stop) : .ok stop ∈ xs := by
  induction xs with
  | nil => cases stop <;> cases h
  | cons x xs ih =>
    cases x with
    | error e => cases h
    | ok b =>
      rw [stopAt] at h
      by_cases hb : b = stop
      · rw [hb]
        exact List.mem_cons_self
      · rw [if_neg hb] at h
        exact List.mem_cons_of_mem _ (ih h)

theorem stopAt_error_iff : (∃ e, stopAt stop xs = .error e) ↔ RaiseReached stop xs := by
  constructor
  · intro h
    induction xs with
    | nil => simp at h
    | cons x xs ih =>
      cases x with
      | error e => exact ⟨[], e, xs, rfl, by simp⟩
      | ok b =>
        rw [stopAt] at h
        by_cases hb : b = stop
        · simp [hb] at h
        · rw [if_neg hb] at h
          obtain ⟨us, e, ws, rfl, hus⟩ := ih h
          have hopen : b = !stop := by cases b <;> cases stop <;> simp_all
          refine ⟨.ok b :: us, e, ws, rfl, fun x hx => ?_⟩
          rcases List.mem_cons.mp hx with rfl | hx
          · rw [hopen]
          · exact hus x hx
  · rintro ⟨us, e, ws, rfl, hus⟩
    exact ⟨e, by rw [stopAt_append hus, stopAt]⟩

end PaperTrading.Lib
