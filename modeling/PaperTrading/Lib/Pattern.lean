import Mathlib.Data.List.Basic

/-!
# Backtracking patterns

Regular expressions as lists of ways: a pattern reads a front part of a text in
every way it can, the way a backtracking matcher would try first in front, and
`whole` takes the first way that reads the text to its end. A text a pattern
reads begins with one of its opening words (`StartsWith`), so in a list of rules
only those that open like the text need be tried (`firstRule_openings`).
-/

namespace PaperTrading.Lib

/-- What a pattern captures and the text it leaves, for every way to read. -/
def Pattern (α : Type) := List Char → List (α × List Char)

namespace Pattern

variable {α β : Type}

instance : Monad Pattern where
  pure a := fun t => [(a, t)]
  bind p f := fun t => (p t).flatMap fun way => f way.1 way.2

/-- The word `w`. -/
def lit (w : String) : Pattern Unit := fun t =>
  if w.toList.isPrefixOf t then [((), t.drop w.toList.length)] else []

/-- `(w₁|w₂|…)`. -/
def oneOf (ws : List String) : Pattern String := fun t =>
  ws.flatMap fun w => (lit w t).map fun way => (w, way.2)

/-- `(…)?`, which reads rather than not. -/
def opt (p : Pattern α) : Pattern (Option α) := fun t =>
  (p t).map (fun way => (some way.1, way.2)) ++ [(none, t)]

/-- `[…]*`, the longest run first. -/
def many (c : Char → Bool) : Pattern (List Char) := fun t =>
  (List.range ((t.takeWhile c).length + 1)).reverse.map fun n => (t.take n, t.drop n)

/-- `[…]+`. -/
def many1 (c : Char → Bool) : Pattern (List Char) := fun t =>
  (many c t).filter fun way => !way.1.isEmpty

/-- `re.match("^…$", t)` for a text that does not end in a line break. -/
def whole (p : Pattern α) (t : List Char) : Option α :=
  ((p t).find? fun way => way.2.isEmpty).map (·.1)

/-- Every text `p` reads begins with one of `ws`. -/
def StartsWith (ws : List String) (p : Pattern α) : Prop :=
  ∀ t, p t ≠ [] → ∃ w ∈ ws, w.toList <+: t

theorem lit_startsWith (w : String) : StartsWith [w] (lit w) := by
  intro t h
  unfold lit at h
  split at h
  next hpre => exact ⟨w, List.mem_singleton_self w, List.isPrefixOf_iff_prefix.mp hpre⟩
  next => exact absurd rfl h

theorem oneOf_startsWith (ws : List String) : StartsWith ws (oneOf ws) := by
  intro t h
  obtain ⟨way, hway⟩ := List.exists_mem_of_ne_nil _ h
  obtain ⟨w, hw, hway⟩ := List.mem_flatMap.mp hway
  have hread : lit w t ≠ [] := fun hnil => by simp [hnil] at hway
  obtain ⟨w', hw', hpre⟩ := lit_startsWith w t hread
  exact ⟨w, hw, List.mem_singleton.mp hw' ▸ hpre⟩

theorem StartsWith.bind {ws : List String} {p : Pattern α} (hp : StartsWith ws p)
    (f : α → Pattern β) : StartsWith ws (p >>= f) := by
  intro t h
  refine hp t fun hnil => h ?_
  change (p t).flatMap _ = []
  rw [hnil, List.flatMap_nil]

/-- A word of a choice and the word behind it make one opening. -/
theorem oneOf_lit_startsWith (ws : List String) (v : String) (f : String → Pattern β) :
    StartsWith (ws.map (· ++ v)) (do let w ← oneOf ws; lit v; f w) := by
  intro t h
  obtain ⟨out, hout⟩ := List.exists_mem_of_ne_nil _ h
  obtain ⟨way, hway, hout⟩ := List.mem_flatMap.mp hout
  obtain ⟨w, hw, hway⟩ := List.mem_flatMap.mp hway
  obtain ⟨way', hread, rfl⟩ := List.mem_map.mp hway
  obtain ⟨way'', hbehind, -⟩ := List.mem_flatMap.mp hout
  refine ⟨w ++ v, List.mem_map_of_mem hw, ?_⟩
  unfold lit at hread hbehind
  split at hread
  next hpre =>
    obtain ⟨rest, rfl⟩ := List.isPrefixOf_iff_prefix.mp hpre
    rw [List.mem_singleton] at hread
    subst hread
    rw [List.drop_left] at hbehind
    split at hbehind
    next hpre' =>
      obtain ⟨rest', rfl⟩ := List.isPrefixOf_iff_prefix.mp hpre'
      exact ⟨rest', by simp [String.toList_append]⟩
    next => cases hbehind
  next => cases hread

/-- A text that is read opens, in its first `n` characters, like one of the words. -/
theorem StartsWith.take_mem {ws : List String} {p : Pattern α} (hp : StartsWith ws p) {n : ℕ}
    (hn : ∀ w ∈ ws, n ≤ w.toList.length) {t : List Char} {a : α} (h : whole p t = some a) :
    t.take n ∈ ws.map fun w => w.toList.take n := by
  have hread : p t ≠ [] := fun hnil => by simp [whole, hnil] at h
  obtain ⟨w, hw, rest, rfl⟩ := hp t hread
  exact List.mem_map.mpr ⟨w, hw, (List.take_append_of_le_length (hn w hw)).symm⟩

/-- What `p` leaves is the rest of the text. -/
def LeavesRest (p : Pattern α) : Prop := ∀ t, ∀ way ∈ p t, way.2 <:+ t

theorem lit_leavesRest (w : String) : LeavesRest (lit w) := by
  intro t way h
  unfold lit at h
  split at h
  · rw [List.mem_singleton.mp h]
    exact List.drop_suffix _ t
  · cases h

theorem oneOf_leavesRest (ws : List String) : LeavesRest (oneOf ws) := by
  intro t way h
  obtain ⟨w, -, h⟩ := List.mem_flatMap.mp h
  obtain ⟨way', hway', rfl⟩ := List.mem_map.mp h
  exact lit_leavesRest w t way' hway'

theorem many_leavesRest (c : Char → Bool) : LeavesRest (many c) := by
  intro t way h
  obtain ⟨n, -, rfl⟩ := List.mem_map.mp h
  exact List.drop_suffix n t

/-- Every text `p` reads ends with `w`. -/
def EndsWith (w : String) (p : Pattern α) : Prop :=
  ∀ t, ∀ way ∈ p t, w.toList ++ way.2 <:+ t

theorem lit_endsWith (w : String) (a : α) : EndsWith w (do lit w; pure a) := by
  intro t way h
  obtain ⟨way', hway', h⟩ := List.mem_flatMap.mp h
  rw [List.mem_singleton.mp h]
  unfold lit at hway'
  split at hway'
  next hpre =>
    obtain ⟨rest, rfl⟩ := List.isPrefixOf_iff_prefix.mp hpre
    exact ⟨[], by rw [List.mem_singleton.mp hway', List.drop_left, List.nil_append]⟩
  next => cases hway'

theorem EndsWith.bind {w : String} {p : Pattern α} {f : α → Pattern β} (hp : LeavesRest p)
    (hf : ∀ a, EndsWith w (f a)) : EndsWith w (p >>= f) := by
  intro t way h
  obtain ⟨way', hway', h⟩ := List.mem_flatMap.mp h
  exact (hf way'.1 way'.2 way h).trans (hp t way' hway')

theorem EndsWith.suffix {w : String} {p : Pattern α} (hp : EndsWith w p) {t : List Char} {a : α}
    (h : whole p t = some a) : w.toList <:+ t := by
  obtain ⟨way, hway, -⟩ := Option.map_eq_some_iff.mp h
  have hsuffix := hp t way (List.mem_of_find?_eq_some hway)
  have hrest := List.find?_some hway
  rwa [List.isEmpty_iff.mp hrest, List.append_nil] at hsuffix

end Pattern

/-! ## Rules tried in order -/

section Rules

variable {α β : Type}

/-- A pattern, and what its captures build; `none` where it does not match. -/
def rule (p : Pattern α) (build : α → β) (t : List Char) : Option β := (p.whole t).map build

/-- The first rule that matches, or the fallback. -/
def firstRule (rules : List (List Char → Option β)) (fallback : β) (t : List Char) : β :=
  rules.foldr (fun r rest => (r t).getD rest) fallback

@[simp] theorem firstRule_nil (fallback : β) (t : List Char) : firstRule [] fallback t = fallback := rfl

theorem firstRule_cons (r : List Char → Option β) (rules : List (List Char → Option β))
    (fallback : β) (t : List Char) :
    firstRule (r :: rules) fallback t = (r t).getD (firstRule rules fallback t) := rfl

/-- What holds of every rule's result and of the fallback holds of the first
match; a rule is only asked when the ones before it did not match. -/
theorem firstRule_cases {P : β → Prop} {r : List Char → Option β}
    {rules : List (List Char → Option β)} {fallback : β} {t : List Char}
    (hit : ∀ b, r t = some b → P b) (miss : r t = none → P (firstRule rules fallback t)) :
    P (firstRule (r :: rules) fallback t) := by
  rw [firstRule_cons]
  cases hr : r t with
  | none => exact miss hr
  | some b => exact hit b hr

/-- The first rule that matches decides. -/
theorem firstRule_append {before after : List (List Char → Option β)} {r : List Char → Option β}
    {fallback b : β} {t : List Char} (hbefore : ∀ r' ∈ before, r' t = none) (hr : r t = some b) :
    firstRule (before ++ r :: after) fallback t = b := by
  induction before with
  | nil => rw [List.nil_append, firstRule_cons, hr, Option.getD_some]
  | cons r' before ih =>
    rw [List.cons_append, firstRule_cons, hbefore r' List.mem_cons_self, Option.getD_none]
    exact ih fun r'' hr'' => hbefore r'' (List.mem_cons_of_mem _ hr'')

/-- What holds of the fallback and of whatever the rules give. -/
theorem firstRule_forall {P : β → Prop} {rules : List (List Char → Option β)} {fallback : β}
    {t : List Char} (h : ∀ r ∈ rules, ∀ b, r t = some b → P b) (hf : P fallback) :
    P (firstRule rules fallback t) := by
  induction rules with
  | nil => exact hf
  | cons r rules ih =>
    exact firstRule_cases (h r List.mem_cons_self) fun _ =>
      ih fun r' hr' => h r' (List.mem_cons_of_mem _ hr')

theorem rule_forall {P : β → Prop} {p : Pattern α} {build : α → β} {t : List Char}
    (h : ∀ a, P (build a)) : ∀ b, rule p build t = some b → P b := by
  intro b hb
  obtain ⟨a, -, rfl⟩ := Option.map_eq_some_iff.mp hb
  exact h a

/-- Rules whose texts open differently need not be tried. -/
theorem firstRule_openings {n : ℕ} {table : List ((List Char → Option β) × List (List Char))}
    {t : List Char} (h : ∀ r ∈ table, ∀ b, r.1 t = some b → t.take n ∈ r.2) (fallback : β) :
    firstRule (table.map Prod.fst) fallback t =
      firstRule ((table.filter fun r => t.take n ∈ r.2).map Prod.fst) fallback t := by
  induction table with
  | nil => rfl
  | cons r table ih =>
    have ih := ih fun r' hr' => h r' (List.mem_cons_of_mem _ hr')
    rw [List.map_cons, firstRule_cons, ih, List.filter_cons]
    by_cases hin : t.take n ∈ r.2
    · rw [if_pos (by simpa using hin), List.map_cons, firstRule_cons]
    · have hnone : r.1 t = none := by
        cases hr : r.1 t with
        | none => rfl
        | some b => exact absurd (h r List.mem_cons_self b hr) hin
      rw [if_neg (by simpa using hin), hnone]
      rfl

theorem rule_opening {p : Pattern α} {build : α → β} {ws : List String} {n : ℕ}
    (hp : Pattern.StartsWith ws p) (hn : ∀ w ∈ ws, n ≤ w.toList.length) {t : List Char} {b : β}
    (h : rule p build t = some b) : t.take n ∈ ws.map fun w => w.toList.take n := by
  obtain ⟨a, ha, -⟩ := Option.map_eq_some_iff.mp h
  exact hp.take_mem hn ha

end Rules

end PaperTrading.Lib
