import Mathlib.Data.List.Nodup
import Mathlib.Data.List.Basic

/-!
# Insertion-ordered dictionaries

A `Dict` is the list of its entries in insertion order, with the fact that no
key occurs twice. Setting a key that is there keeps its place; a new key goes to
the end. `filterMap` is the loop that updates or deletes entries while it walks
over them.

Every operation has one lemma that says what `get?` reads afterwards
(`get?_set`, `get?_filterMap`, `get?_map`, `get?_erase`); proofs about a
dictionary go through these and never through its list.
-/

namespace PaperTrading.Lib

variable {κ α β : Type}

/-- A dictionary: its entries in insertion order, each key once. -/
structure Dict (κ α : Type) where
  entries : List (κ × α)
  nodup : (entries.map Prod.fst).Nodup

namespace Dict

@[ext] theorem ext {d e : Dict κ α} (h : d.entries = e.entries) : d = e := by
  cases d
  cases e
  congr

instance [DecidableEq κ] [DecidableEq α] : DecidableEq (Dict κ α) := fun d e =>
  decidable_of_iff (d.entries = e.entries) ⟨ext, fun h => h ▸ rfl⟩

def empty : Dict κ α := ⟨[], List.nodup_nil⟩

def keys (d : Dict κ α) : List κ := d.entries.map Prod.fst

theorem keys_nodup (d : Dict κ α) : d.keys.Nodup := d.nodup

/-- Two entries with one key are the same entry. -/
theorem entry_unique {d : Dict κ α} {k : κ} {v w : α} (hv : (k, v) ∈ d.entries)
    (hw : (k, w) ∈ d.entries) : v = w :=
  (Prod.mk.injEq .. ▸ List.inj_on_of_nodup_map d.nodup hv hw rfl : k = k ∧ v = w).2

/-! ## Loops over the entries -/

/-- Elements that keep their label when they are replaced. -/
theorem map_filterMap_sublist {γ : Type} {f : α → Option β} {g : α → γ} {g' : β → γ}
    (hf : ∀ a b, f a = some b → g' b = g a) (l : List α) :
    ((l.filterMap f).map g').Sublist (l.map g) := by
  induction l with
  | nil => exact List.Sublist.refl _
  | cons a l ih =>
    cases h : f a with
    | none =>
      rw [List.filterMap_cons_none h]
      exact ih.cons _
    | some b =>
      rw [List.filterMap_cons_some h, List.map_cons, List.map_cons, hf a b h]
      exact ih.cons_cons _

/-- Keep, replace or delete each entry in turn. -/
def filterMap (f : κ → α → Option β) (d : Dict κ α) : Dict κ β where
  entries := d.entries.filterMap fun e => (f e.1 e.2).map (e.1, ·)
  nodup := by
    refine (map_filterMap_sublist (g := Prod.fst) ?_ d.entries).nodup d.nodup
    intro e e' h
    obtain ⟨b, _, rfl⟩ := Option.map_eq_some_iff.mp h
    rfl

/-- Entries that are kept as they are or dropped. -/
theorem entries_filterMap_sublist {f : κ → α → Option α} {d : Dict κ α}
    (hf : ∀ k v w, f k v = some w → w = v) : (d.filterMap f).entries.Sublist d.entries := by
  have hkept : ∀ e e' : κ × α, (f e.1 e.2).map (e.1, ·) = some e' → id e' = id e := by
    intro e e' h
    obtain ⟨w, hw, rfl⟩ := Option.map_eq_some_iff.mp h
    rw [hf e.1 e.2 w hw]
  have hsub := map_filterMap_sublist hkept d.entries
  rwa [List.map_id, List.map_id] at hsub

/-- Replace the value of every entry. -/
def map (f : κ → α → β) (d : Dict κ α) : Dict κ β := d.filterMap fun k v => some (f k v)

section
variable [DecidableEq κ]

/-! ## Reading and writing one key -/

def get? (d : Dict κ α) (k : κ) : Option α :=
  (d.entries.find? fun e => e.1 = k).map Prod.snd

theorem get?_eq_some {d : Dict κ α} {k : κ} {v : α} : d.get? k = some v ↔ (k, v) ∈ d.entries := by
  unfold get?
  constructor
  · intro h
    obtain ⟨e, he, rfl⟩ := Option.map_eq_some_iff.mp h
    have hk : e.1 = k := by simpa using List.find?_some he
    rw [← hk]
    exact List.mem_of_find?_eq_some he
  · intro h
    cases he : d.entries.find? fun e => e.1 = k with
    | none =>
      rw [List.find?_eq_none] at he
      exact absurd (decide_eq_true rfl) (he _ h)
    | some e =>
      have hk : e.1 = k := by simpa using List.find?_some he
      have hmem : (k, e.2) ∈ d.entries := by rw [← hk]; exact List.mem_of_find?_eq_some he
      rw [Option.map_some, entry_unique hmem h]

theorem get?_eq_none {d : Dict κ α} {k : κ} : d.get? k = none ↔ k ∉ d.keys := by
  constructor
  · intro h hk
    obtain ⟨e, he, rfl⟩ := List.mem_map.mp hk
    rw [get?_eq_some.mpr he] at h
    cases h
  · intro hk
    cases h : d.get? k with
    | none => rfl
    | some v => exact absurd (List.mem_map.mpr ⟨_, get?_eq_some.mp h, rfl⟩) hk

theorem mem_keys {d : Dict κ α} {k : κ} : k ∈ d.keys ↔ ∃ v, d.get? k = some v := by
  rw [← Option.isSome_iff_exists, Option.isSome_iff_ne_none, ne_eq, get?_eq_none, not_not]

@[simp] theorem get?_empty (k : κ) : (empty : Dict κ α).get? k = none := rfl

@[simp] theorem get?_filterMap {f : κ → α → Option β} {d : Dict κ α} {k : κ} :
    (d.filterMap f).get? k = (d.get? k).bind (f k) := by
  have hmem : ∀ v, (d.filterMap f).get? k = some v ↔ (d.get? k).bind (f k) = some v := by
    intro v
    rw [get?_eq_some, Option.bind_eq_some_iff]
    simp only [filterMap, List.mem_filterMap, Option.map_eq_some_iff, get?_eq_some]
    constructor
    · intro h
      obtain ⟨⟨k', w⟩, he, u, hu, heq⟩ := h
      obtain ⟨rfl, rfl⟩ : k' = k ∧ u = v := by simpa using heq
      exact ⟨w, he, hu⟩
    · intro h
      obtain ⟨w, he, hw⟩ := h
      exact ⟨(k, w), he, v, hw, rfl⟩
  exact Option.ext hmem

@[simp] theorem get?_map {f : κ → α → β} {d : Dict κ α} {k : κ} :
    (d.map f).get? k = (d.get? k).map (f k) := by
  rw [map, get?_filterMap]
  cases d.get? k <;> rfl

/-- `del d[k]`, which is harmless when the key is not there. -/
def erase (d : Dict κ α) (k : κ) : Dict κ α := d.filterMap fun k' v => if k' = k then none else some v

@[simp] theorem get?_erase {d : Dict κ α} {k k' : κ} :
    (d.erase k).get? k' = if k' = k then none else d.get? k' := by
  rw [erase, get?_filterMap]
  by_cases h : k' = k
  · cases d.get? k' <;> simp [h]
  · cases d.get? k' <;> simp [h]

/-- An entry erased is gone. -/
theorem length_erase_lt {d : Dict κ α} {k : κ} (h : k ∈ d.keys) :
    (d.erase k).entries.length < d.entries.length := by
  have hsub : (d.erase k).entries.Sublist d.entries := by
    refine entries_filterMap_sublist fun k' v w hw => ?_
    split at hw
    next => cases hw
    next => exact (Option.some.inj hw).symm
  refine Nat.lt_of_le_of_ne hsub.length_le fun hlength => ?_
  obtain ⟨v, hv⟩ := mem_keys.mp h
  have hgone : (d.erase k).get? k = none := by rw [get?_erase, if_pos rfl]
  rw [show d.erase k = d from ext (hsub.eq_of_length hlength), hv] at hgone
  cases hgone

/-- `d[k] = v` -/
def set (d : Dict κ α) (k : κ) (v : α) : Dict κ α :=
  if h : k ∈ d.keys then d.map fun k' w => if k' = k then v else w
  else
    { entries := d.entries ++ [(k, v)]
      nodup := by
        rw [List.map_append]
        exact List.Nodup.append d.nodup (List.nodup_singleton k) (by simpa [keys] using h) }

@[simp] theorem get?_set {d : Dict κ α} {k k' : κ} {v : α} :
    (d.set k v).get? k' = if k' = k then some v else d.get? k' := by
  unfold set
  split
  next h =>
    rw [get?_map]
    by_cases hk : k' = k
    · obtain ⟨w, hw⟩ := mem_keys.mp h
      simp [hk, hw]
    · cases d.get? k' <;> simp [hk]
  next h =>
    rw [← get?_eq_none] at h
    unfold get? at h ⊢
    rw [List.find?_append]
    by_cases hk : k' = k
    · rw [hk, if_pos rfl]
      rw [Option.map_eq_none_iff] at h
      simp [h]
    · rw [if_neg hk]
      have hne : ¬ k = k' := fun h => hk h.symm
      simp [hne]

theorem entries_set_of_none {d : Dict κ α} {k : κ} {v : α} (h : d.get? k = none) :
    (d.set k v).entries = d.entries ++ [(k, v)] := by
  unfold set
  rw [dif_neg (get?_eq_none.mp h)]

/-- A key that is there keeps its place. -/
theorem entries_set_of_some {d : Dict κ α} {k : κ} {v w : α} (h : d.get? k = some w) :
    ∃ l₁ l₂, d.entries = l₁ ++ (k, w) :: l₂ ∧ (d.set k v).entries = l₁ ++ (k, v) :: l₂ := by
  obtain ⟨l₁, l₂, hl⟩ := List.append_of_mem (get?_eq_some.mp h)
  refine ⟨l₁, l₂, hl, ?_⟩
  have hnodup := d.nodup
  rw [hl, List.map_append, List.map_cons, List.nodup_middle, List.nodup_cons, List.mem_append,
    not_or] at hnodup
  have hkeep : ∀ l : List (κ × α), k ∉ l.map Prod.fst →
      (l.filterMap fun e => some (e.1, if e.1 = k then v else e.2)) = l := by
    intro l hk
    refine (List.filterMap_congr (g := some) ?_).trans List.filterMap_some
    intro e he
    have hne : e.1 ≠ k := fun heq => hk (heq ▸ List.mem_map_of_mem he)
    rw [if_neg hne]
  unfold set
  rw [dif_pos (mem_keys.mpr ⟨w, h⟩)]
  show (d.entries.filterMap fun e => some (e.1, if e.1 = k then v else e.2)) = _
  rw [hl, List.filterMap_append, hkeep l₁ hnodup.1.1, List.filterMap_cons, hkeep l₂ hnodup.1.2]
  simp

/-- What is there already changes nothing. -/
theorem length_set_le (d : Dict κ α) (k : κ) (v : α) :
    (d.set k v).entries.length ≤ d.entries.length + 1 := by
  cases h : d.get? k with
  | none =>
    have hlen : (d.set k v).entries.length = d.entries.length + 1 := by
      rw [entries_set_of_none h, List.length_append, List.length_singleton]
    exact Nat.le_of_eq hlen
  | some w =>
    obtain ⟨l₁, l₂, hold, hnew⟩ := entries_set_of_some (v := v) h
    rw [hold, hnew, List.length_append, List.length_append, List.length_cons, List.length_cons]
    omega

theorem set_of_get? {d : Dict κ α} {k : κ} {v : α} (h : d.get? k = some v) : d.set k v = d := by
  obtain ⟨l₁, l₂, hold, hnew⟩ := entries_set_of_some (v := v) h
  exact ext (hnew.trans hold.symm)

theorem get?_of_entries_map {f : α → β} {d : Dict κ α} {e : Dict κ β}
    (h : e.entries = d.entries.map fun p => (p.1, f p.2)) (k : κ) :
    e.get? k = (d.get? k).map f := by
  unfold get?
  rw [h, List.find?_map, Option.map_map, Option.map_map]
  rfl

/-- What `set` does to the entries does not depend on what the values are. -/
theorem entries_set_map {f : α → β} {d : Dict κ α} {e : Dict κ β}
    (h : e.entries = d.entries.map fun p => (p.1, f p.2)) (k : κ) (v : α) :
    (e.set k (f v)).entries = (d.set k v).entries.map fun p => (p.1, f p.2) := by
  have hkeys : e.keys = d.keys := by
    unfold keys
    rw [h, List.map_map]
    rfl
  cases hd : d.get? k with
  | none =>
    have he : e.get? k = none := by
      rw [get?_eq_none, hkeys, ← get?_eq_none]
      exact hd
    rw [entries_set_of_none he, entries_set_of_none hd, h, List.map_append]
    rfl
  | some w =>
    have hmem := mem_keys.mpr ⟨w, hd⟩
    have hset : ∀ {γ : Type} (g : Dict κ γ) (x : γ), k ∈ g.keys →
        (g.set k x).entries = g.entries.map fun p => (p.1, if p.1 = k then x else p.2) := by
      intro γ g x hg
      unfold set
      rw [dif_pos hg]
      exact congrFun List.filterMap_eq_map g.entries
    rw [hset e _ (hkeys ▸ hmem), hset d _ hmem, h, List.map_map, List.map_map]
    refine List.map_congr_left fun p _ => ?_
    show (p.1, if p.1 = k then f v else f p.2) = (p.1, f (if p.1 = k then v else p.2))
    split <;> rfl

/-- Setting a key gives up the value that was there and counts the new one. -/
theorem countP_set (d : Dict κ α) (k : κ) (v : α) (p : α → Bool) :
    (d.set k v).entries.countP (fun e => p e.2) + (d.get? k).toList.countP p =
      d.entries.countP (fun e => p e.2) + [v].countP p := by
  cases h : d.get? k with
  | none =>
    rw [entries_set_of_none h, List.countP_append, Option.toList_none, List.countP_nil, Nat.add_zero]
    simp [List.countP_cons]
  | some w =>
    obtain ⟨l₁, l₂, hold, hnew⟩ := entries_set_of_some (v := v) h
    rw [hold, hnew]
    simp only [List.countP_append, List.countP_cons, List.countP_nil, Option.toList_some]
    omega

/-- Oldest entries are dropped until `cap` are left. -/
def keepNewest (d : Dict κ α) (cap : ℕ) : Dict κ α where
  entries := d.entries.drop (d.entries.length - cap)
  nodup := ((List.drop_sublist _ _).map Prod.fst).nodup d.nodup

theorem get?_of_keepNewest {d : Dict κ α} {cap : ℕ} {k : κ} {v : α}
    (h : (d.keepNewest cap).get? k = some v) : d.get? k = some v :=
  get?_eq_some.mpr (List.mem_of_mem_drop (get?_eq_some.mp h))

theorem mem_keys_of_get? {d : Dict κ α} {k : κ} {v : α} (h : d.get? k = some v) : k ∈ d.keys :=
  mem_keys.mpr ⟨v, h⟩

end

end Dict

end PaperTrading.Lib
