import PaperTrading.Lib.Dict

/-!
# Memos

A memo keeps computed values under a digest of the argument. The digest need not
tell two arguments apart, so beside each value stands the argument it was
computed from: a record that the lookups never read, and that says afterwards
whether a value was served to the argument it belongs to. A memo that is full is
emptied before the next value is kept.

`through_kept` says what a read-through gives: the entry of its key, new or kept,
with what is known of every entry. `Keeps` is that knowledge.
-/

namespace PaperTrading.Lib

variable {κ α β : Type}

/-- A kept value and the argument it was computed from. -/
structure Kept (α β : Type) where
  source : α
  value : β
deriving DecidableEq

/-- Values by the digest of their argument. -/
abbrev Memo (κ α β : Type) := Dict κ (Kept α β)

namespace Memo

/-- `P` is known of every entry. -/
def Keeps [DecidableEq κ] (P : κ → Kept α β → Prop) (m : Memo κ α β) : Prop :=
  ∀ k e, m.get? k = some e → P k e

section
variable [DecidableEq κ]

/-- Keep a value, in an empty memo if this one has `cap` entries. -/
def keep (cap : ℕ) (m : Memo κ α β) (k : κ) (e : Kept α β) : Memo κ α β :=
  (if cap ≤ m.entries.length then Dict.empty else m).set k e

/-- The entry under `k`, if it is one to use; else `e`, which is kept. -/
def through (cap : ℕ) (usable : β → Bool) (m : Memo κ α β) (k : κ) (e : Kept α β) :
    Kept α β × Memo κ α β :=
  match m.get? k with
  | some old => if usable old.value then (old, m) else (e, m.keep cap k e)
  | none => (e, m.keep cap k e)

variable {P : κ → Kept α β → Prop}

theorem keeps_empty : Keeps P (Dict.empty : Memo κ α β) := by
  intro k e h
  rw [Dict.get?_empty] at h
  cases h

theorem Keeps.keep {m : Memo κ α β} (hm : Keeps P m) (cap : ℕ) {k : κ} {e : Kept α β}
    (he : P k e) : Keeps P (m.keep cap k e) := by
  intro k' e' h
  unfold Memo.keep at h
  rw [Dict.get?_set] at h
  split at h
  next hk =>
    cases h
    rw [hk]
    exact he
  next =>
    split at h
    next =>
      rw [Dict.get?_empty] at h
      cases h
    next => exact hm k' e' h

/-- A read-through gives an entry it knows `P` of, and what it leaves keeps `P`.
The entry is the one offered unless the memo had one under the key. -/
theorem through_kept {m : Memo κ α β} (hm : Keeps P m) (cap : ℕ) (usable : β → Bool) {k : κ}
    {e : Kept α β} (he : P k e) :
    P k (m.through cap usable k e).1 ∧ Keeps P (m.through cap usable k e).2 ∧
      ((m.through cap usable k e).1 = e ∨ m.get? k = some (m.through cap usable k e).1) := by
  unfold through
  cases hk : m.get? k with
  | none => exact ⟨he, hm.keep cap he, Or.inl rfl⟩
  | some old =>
    dsimp only
    split
    next => exact ⟨hm k old hk, hm, Or.inr rfl⟩
    next => exact ⟨he, hm.keep cap he, Or.inl rfl⟩

end

end Memo

end PaperTrading.Lib
