import Mathlib.Data.List.Basic

/-!
# Runs of equal keys by their indices

An array library cuts a column into runs by index: the indices at which a key differs
from the one before it (`runStarts`), the ends as the starts one further on, and a
reduction over each piece (`reduceat`). For a column that is a list of pieces one after
the other, these are the offsets of the pieces (`runStarts_flat`, `runEnds_flat`), and
what is read there are the first elements, the last ones and the reductions of the pieces
(`mapM_offsets`, `mapM_ends`, `reduceat_offsets`).
-/

namespace PaperTrading.Lib

variable {α β κ : Type}

/-- A list with a first element. -/
structure Piece (α : Type) where
  first : α
  rest : List α

namespace Piece

def ofList : List α → Option (Piece α)
  | [] => none
  | a :: l => some ⟨a, l⟩

def rows (g : Piece α) : List α := g.first :: g.rest

def last (g : Piece α) : α := g.rest.getLastD g.first

def map (f : α → β) (g : Piece α) : Piece β := ⟨f g.first, g.rest.map f⟩

/-- The elements combined from the left. -/
def reduce (op : α → α → α) (g : Piece α) : α := g.rest.foldl op g.first

theorem ofList_rows (g : Piece α) : ofList g.rows = some g := rfl

theorem ofList_eq_some {l : List α} {g : Piece α} : ofList l = some g ↔ l = g.rows := by
  cases l with
  | nil => exact iff_of_false (fun h => by cases h) fun h => by cases h
  | cons a l =>
    constructor
    · intro h
      cases h
      rfl
    · intro h
      rw [h, ofList_rows]

theorem last_map (f : α → β) (g : Piece α) : (g.map f).last = f g.last := List.getLastD_map ..

theorem rows_map (f : α → β) (g : Piece α) : (g.map f).rows = g.rows.map f := rfl

theorem length_pos (g : Piece α) : 0 < g.rows.length := Nat.succ_pos _

theorem getElem?_last (g : Piece α) : g.rows[g.rows.length - 1]? = some g.last := by
  unfold last
  rw [← List.getLast?_eq_getElem?, List.getLastD_eq_getLast?]
  exact List.getLast?_cons

end Piece

/-- The pieces one after the other. -/
def flat (gs : List (Piece α)) : List α := gs.flatMap Piece.rows

@[simp] theorem flat_nil : flat ([] : List (Piece α)) = [] := rfl

@[simp] theorem flat_cons (g : Piece α) (gs : List (Piece α)) : flat (g :: gs) = g.rows ++ flat gs :=
  rfl

theorem flat_append (gs hs : List (Piece α)) : flat (gs ++ hs) = flat gs ++ flat hs :=
  List.flatMap_append ..

/-! ## Cutting by index -/

/-- The indices of `true`. -/
def flatnonzero (mask : List Bool) : List ℕ := mask.findIdxs id

/-- Where a key differs from the one before it, and the very first index. -/
def runStarts [DecidableEq κ] (keys : List κ) : List ℕ :=
  flatnonzero (true :: List.zipWith (fun a b => decide (a ≠ b)) keys.tail keys)

/-- A run ends where the next one starts. -/
def runEnds [DecidableEq κ] (keys : List κ) : List ℕ := (runStarts keys).tail ++ [keys.length]

/-- The reduction of every piece `xs[start:next start]`; the last piece goes to the end. -/
def reduceat (op : α → α → α) (xs : List α) : List ℕ → Option (List α)
  | [] => some []
  | [s] => (Piece.ofList (xs.drop s)).map fun g => [g.reduce op]
  | s :: e :: starts => do
    let piece ← if s < e then (Piece.ofList ((xs.drop s).take (e - s))).map (Piece.reduce op)
      else xs[s]?
    return piece :: (← reduceat op xs (e :: starts))

/-! ## Offsets -/

/-- Where each piece starts, the first at `s`. -/
def offsets : ℕ → List (Piece α) → List ℕ
  | _, [] => []
  | s, g :: gs => s :: offsets (s + g.rows.length) gs

/-- Where each piece ends. -/
def ends : ℕ → List (Piece α) → List ℕ
  | _, [] => []
  | s, g :: gs => (s + g.rows.length) :: ends (s + g.rows.length) gs

theorem offsets_dropLast (gs : List (Piece α)) (g : Piece α) (s : ℕ) :
    (offsets s (gs ++ [g])).dropLast = offsets s gs := by
  induction gs generalizing s with
  | nil => rfl
  | cons h gs ih =>
    rw [List.cons_append, offsets, offsets, List.dropLast_cons_of_ne_nil ?_, ih]
    intro hnil
    cases gs <;> cases hnil

theorem ends_dropLast (gs : List (Piece α)) (g : Piece α) (s : ℕ) :
    (ends s (gs ++ [g])).dropLast = ends s gs := by
  induction gs generalizing s with
  | nil => rfl
  | cons h gs ih =>
    rw [List.cons_append, ends, ends, List.dropLast_cons_of_ne_nil ?_, ih]
    intro hnil
    cases gs <;> cases hnil

theorem getLast?_ends (gs : List (Piece α)) (g : Piece α) (s : ℕ) :
    (ends s (g :: gs)).getLast? = some (s + (flat (g :: gs)).length) := by
  induction gs generalizing s g with
  | nil =>
    rw [flat_cons, flat_nil, List.append_nil]
    rfl
  | cons h gs ih =>
    rw [ends, ends, List.getLast?_cons_cons, ← ends, ih, flat_cons g, List.length_append,
      Nat.add_assoc]

theorem tail_offsets (gs : List (Piece α)) (g : Piece α) (s : ℕ) :
    (offsets s (g :: gs)).tail ++ [s + (flat (g :: gs)).length] = ends s (g :: gs) := by
  induction gs generalizing s g with
  | nil =>
    rw [flat_cons, flat_nil, List.append_nil]
    rfl
  | cons h gs ih =>
    have hlen : s + (flat (g :: h :: gs)).length = s + g.rows.length + (flat (h :: gs)).length := by
      rw [flat_cons, List.length_append, Nat.add_assoc]
    rw [hlen, ends, ← ih]
    rfl

/-- The elements of a piece share a key, and the next piece has another. -/
structure Runs (key : α → κ) (gs : List (Piece α)) : Prop where
  same : ∀ g ∈ gs, ∀ a ∈ g.rest, key a = key g.first
  differ : gs.Pairwise fun g h => key h.first ≠ key g.first

section
variable {key : α → κ}

theorem Runs.tail {g : Piece α} {gs : List (Piece α)} (h : Runs key (g :: gs)) : Runs key gs :=
  ⟨fun g hg => h.same g (List.mem_cons_of_mem _ hg), h.differ.of_cons⟩

theorem Runs.head_differ {g : Piece α} {gs : List (Piece α)} (h : Runs key (g :: gs)) :
    ∀ g' ∈ gs.head?, key g'.first ≠ key g.first := fun _ hg' =>
  List.rel_of_pairwise_cons h.differ (List.mem_of_mem_head? hg')

theorem Runs.rest {g : Piece α} {gs : List (Piece α)} (h : Runs key (g :: gs)) :
    ∀ k ∈ g.rest.map key, k = key g.first := by
  intro k hk
  obtain ⟨a, ha, rfl⟩ := List.mem_map.mp hk
  exact h.same g List.mem_cons_self a ha

theorem keys_flat (g : Piece α) (gs : List (Piece α)) :
    (flat (g :: gs)).map key = key g.first :: (g.rest.map key ++ (flat gs).map key) := by
  rw [flat_cons, List.map_append]
  rfl

variable [DecidableEq κ]

/-- Inside a piece no key differs from the one before it. -/
theorem edges_same (k : κ) (l : List κ) (hl : ∀ a ∈ l, a = k) (m : List κ) :
    List.zipWith (fun a b => decide (a ≠ b)) (l ++ m) (k :: (l ++ m)) =
      List.replicate l.length false ++ List.zipWith (fun a b => decide (a ≠ b)) m (k :: m) := by
  induction l with
  | nil => rfl
  | cons a l ih =>
    obtain rfl : a = k := hl a List.mem_cons_self
    rw [List.cons_append, List.zipWith_cons_cons, ih fun b hb => hl b (List.mem_cons_of_mem _ hb)]
    simp [List.replicate_succ]

theorem findIdxs_replicate_false (n s : ℕ) : (List.replicate n false).findIdxs id s = [] := by
  induction n generalizing s with
  | zero => rfl
  | succ n ih => simp [List.replicate_succ, ih]

theorem edges_flat {gs : List (Piece α)} (h : Runs key gs) (k : κ)
    (hk : ∀ g ∈ gs.head?, key g.first ≠ k) (s : ℕ) :
    (List.zipWith (fun a b => decide (a ≠ b)) ((flat gs).map key) (k :: (flat gs).map key)).findIdxs
      id s = offsets s gs := by
  induction gs generalizing k s with
  | nil => rfl
  | cons g gs ih =>
    rw [keys_flat, List.zipWith_cons_cons, decide_eq_true (hk g rfl), edges_same _ _ h.rest,
      List.findIdxs_cons, if_pos (by rfl), List.findIdxs_append, findIdxs_replicate_false,
      List.nil_append, ih h.tail _ h.head_differ, offsets, List.length_replicate, List.length_map]
    congr 2
    show s + 1 + g.rest.length = s + (g.rest.length + 1)
    omega

/-- The runs of a column start where its pieces do. -/
theorem runStarts_flat {g : Piece α} {gs : List (Piece α)} (h : Runs key (g :: gs)) :
    runStarts ((flat (g :: gs)).map key) = offsets 0 (g :: gs) := by
  unfold runStarts flatnonzero
  rw [keys_flat, List.tail_cons, edges_same _ _ h.rest, List.findIdxs_cons, if_pos (by rfl),
    List.findIdxs_append, findIdxs_replicate_false, List.nil_append,
    edges_flat h.tail _ h.head_differ, offsets, List.length_replicate,
    List.length_map]
  congr 2
  show 0 + 1 + g.rest.length = 0 + (g.rest.length + 1)
  omega

theorem runEnds_flat {g : Piece α} {gs : List (Piece α)} (h : Runs key (g :: gs)) :
    runEnds ((flat (g :: gs)).map key) = ends 0 (g :: gs) := by
  have hends := tail_offsets gs g 0
  rw [Nat.zero_add] at hends
  unfold runEnds
  rw [runStarts_flat h, List.length_map, hends]

end

/-! ## Columns -/

theorem flat_map (f : α → β) (gs : List (Piece α)) : flat (gs.map (Piece.map f)) = (flat gs).map f := by
  induction gs with
  | nil => rfl
  | cons g gs ih => rw [List.map_cons, flat_cons, flat_cons, List.map_append, ih, Piece.rows_map]

theorem offsets_map (f : α → β) (gs : List (Piece α)) (s : ℕ) :
    offsets s (gs.map (Piece.map f)) = offsets s gs := by
  induction gs generalizing s with
  | nil => rfl
  | cons g gs ih => rw [List.map_cons, offsets, offsets, ih, Piece.rows_map, List.length_map]

theorem ends_map (f : α → β) (gs : List (Piece α)) (s : ℕ) :
    ends s (gs.map (Piece.map f)) = ends s gs := by
  induction gs generalizing s with
  | nil => rfl
  | cons g gs ih => rw [List.map_cons, ends, ends, ih, Piece.rows_map, List.length_map]

/-! ## What is read there -/

theorem mapM_offsets (before : List α) (gs : List (Piece α)) (after : List α) :
    (offsets before.length gs).mapM (fun s => (before ++ flat gs ++ after)[s]?) =
      some (gs.map Piece.first) := by
  induction gs generalizing before with
  | nil => rfl
  | cons g gs ih =>
    have hshift : before ++ flat (g :: gs) ++ after = before ++ g.rows ++ flat gs ++ after := by
      rw [flat_cons, List.append_assoc before g.rows]
    have hfirst : (before ++ g.rows ++ flat gs ++ after)[before.length]? = some g.first := by
      rw [List.append_assoc, List.append_assoc, List.getElem?_append_right (Nat.le_refl _),
        Nat.sub_self]
      rfl
    have hrest := ih (before ++ g.rows)
    rw [List.length_append] at hrest
    rw [offsets, List.mapM_cons, hshift, hfirst, hrest]
    rfl

theorem mapM_ends (before : List α) (gs : List (Piece α)) (after : List α) :
    (ends before.length gs).mapM (fun e => (before ++ flat gs ++ after)[e - 1]?) =
      some (gs.map Piece.last) := by
  induction gs generalizing before with
  | nil => rfl
  | cons g gs ih =>
    have hshift : before ++ flat (g :: gs) ++ after = before ++ g.rows ++ flat gs ++ after := by
      rw [flat_cons, List.append_assoc before g.rows]
    have hlast : (before ++ g.rows ++ flat gs ++ after)[before.length + g.rows.length - 1]? =
        some g.last := by
      have hpos := g.length_pos
      rw [List.append_assoc, List.append_assoc, List.getElem?_append_right (by omega),
        List.getElem?_append_left (by omega), ← g.getElem?_last]
      congr 1
      omega
    have hrest := ih (before ++ g.rows)
    rw [List.length_append] at hrest
    rw [ends, List.mapM_cons, hshift, hlast, hrest]
    rfl

theorem reduceat_offsets (op : α → α → α) (before : List α) (gs : List (Piece α)) :
    reduceat op (before ++ flat gs) (offsets before.length gs) = some (gs.map (Piece.reduce op)) := by
  induction gs generalizing before with
  | nil => rfl
  | cons g gs ih =>
    have hdrop : (before ++ flat (g :: gs)).drop before.length = g.rows ++ flat gs := by
      rw [List.drop_left, flat_cons]
    cases gs with
    | nil =>
      rw [offsets, offsets, reduceat, hdrop, flat_nil, List.append_nil, Piece.ofList_rows]
      rfl
    | cons h gs =>
      have hrest := ih (before ++ g.rows)
      have hpos := g.length_pos
      rw [List.length_append, List.append_assoc, ← flat_cons, offsets] at hrest
      rw [offsets, offsets, reduceat, if_pos (by omega), hdrop, Nat.add_sub_cancel_left,
        List.take_left, Piece.ofList_rows, hrest]
      rfl

theorem column_offsets (f : α → β) (gs : List (Piece α)) (after : List α) :
    (offsets 0 gs).mapM (fun s => ((flat gs ++ after).map f)[s]?) =
      some (gs.map fun g => f g.first) := by
  have hcolumn := mapM_offsets [] (gs.map (Piece.map f)) (after.map f)
  rw [List.nil_append, flat_map, ← List.map_append, List.map_map, List.length_nil, offsets_map]
    at hcolumn
  exact hcolumn

theorem column_ends (f : α → β) (gs : List (Piece α)) (after : List α) :
    (ends 0 gs).mapM (fun e => ((flat gs ++ after).map f)[e - 1]?) =
      some (gs.map fun g => f g.last) := by
  have hcolumn := mapM_ends [] (gs.map (Piece.map f)) (after.map f)
  rw [List.nil_append, flat_map, ← List.map_append, List.map_map, List.length_nil, ends_map]
    at hcolumn
  refine hcolumn.trans (congrArg some (List.map_congr_left fun g _ => g.last_map f))

theorem column_reduceat (op : β → β → β) (f : α → β) (gs : List (Piece α)) :
    reduceat op ((flat gs).map f) (offsets 0 gs) = some (gs.map fun g => (g.map f).reduce op) := by
  have hcolumn := reduceat_offsets op [] (gs.map (Piece.map f))
  rw [List.nil_append, flat_map, List.map_map, List.length_nil, offsets_map] at hcolumn
  exact hcolumn

end PaperTrading.Lib
