import Mathlib.Data.List.TakeWhile
import PaperTrading.Lib.Pattern

/-!
# What a pattern can read

`Reads p t a rest`: one way for `p` to read a front part of `t` captures `a` and
leaves `rest`. Each combinator has one equation for its readings, so what a
pattern reads becomes an equation between texts, and a text with one reading to
its end is captured in that way (`whole_of_unique`).

A run of characters of a class ends where the next character is not in the class
(`run_unique`, `last_run_unique`).
-/

namespace PaperTrading.Lib

namespace Pattern

variable {α β : Type}

/-- One way for `p` to read `t`. -/
def Reads (p : Pattern α) (t : List Char) (a : α) (rest : List Char) : Prop := (a, rest) ∈ p t

theorem reads_pure {a b : α} {t rest : List Char} :
    Reads (pure a) t b rest ↔ b = a ∧ t = rest := by
  show (b, rest) ∈ [(a, t)] ↔ _
  rw [List.mem_singleton, Prod.mk.injEq, eq_comm (a := rest)]

theorem reads_bind {p : Pattern α} {f : α → Pattern β} {t rest : List Char} {b : β} :
    Reads (p >>= f) t b rest ↔ ∃ a mid, Reads p t a mid ∧ Reads (f a) mid b rest := by
  show (b, rest) ∈ (p t).flatMap _ ↔ _
  rw [List.mem_flatMap]
  constructor
  · intro h
    obtain ⟨way, hway, h⟩ := h
    exact ⟨way.1, way.2, hway, h⟩
  · intro h
    obtain ⟨a, mid, ha, h⟩ := h
    exact ⟨(a, mid), ha, h⟩

theorem reads_lit {w : String} {t rest : List Char} {u : Unit} :
    Reads (lit w) t u rest ↔ t = w.toList ++ rest := by
  unfold Reads lit
  split
  next h =>
    obtain ⟨tail, rfl⟩ := List.isPrefixOf_iff_prefix.mp h
    rw [List.drop_left, List.mem_singleton, Prod.mk.injEq, List.append_cancel_left_eq]
    exact ⟨fun h => h.2.symm, fun h => ⟨rfl, h.symm⟩⟩
  next h =>
    constructor
    · intro hmem
      cases hmem
    · rintro rfl
      exact absurd (List.isPrefixOf_iff_prefix.mpr (List.prefix_append _ _)) h

theorem reads_oneOf {ws : List String} {t rest : List Char} {w : String} :
    Reads (oneOf ws) t w rest ↔ w ∈ ws ∧ t = w.toList ++ rest := by
  unfold Reads oneOf
  rw [List.mem_flatMap]
  constructor
  · intro h
    obtain ⟨v, hv, h⟩ := h
    obtain ⟨way, hway, h⟩ := List.mem_map.mp h
    obtain ⟨rfl, rfl⟩ := Prod.mk.inj h
    exact ⟨hv, reads_lit.mp hway⟩
  · intro h
    obtain ⟨hw, h⟩ := h
    exact ⟨w, hw, List.mem_map.mpr ⟨((), rest), reads_lit.mpr h, rfl⟩⟩

theorem reads_opt {p : Pattern α} {t rest : List Char} {o : Option α} :
    Reads (opt p) t o rest ↔ (∃ a, o = some a ∧ Reads p t a rest) ∨ (o = none ∧ t = rest) := by
  unfold Reads opt
  rw [List.mem_append, List.mem_map, List.mem_singleton]
  constructor
  · intro h
    rcases h with h | h
    · obtain ⟨way, hway, h⟩ := h
      obtain ⟨rfl, rfl⟩ := Prod.mk.inj h
      exact Or.inl ⟨way.1, rfl, hway⟩
    · obtain ⟨rfl, rfl⟩ := Prod.mk.inj h
      exact Or.inr ⟨rfl, rfl⟩
  · intro h
    rcases h with ⟨a, rfl, h⟩ | ⟨rfl, rfl⟩
    · exact Or.inl ⟨(a, rest), h, rfl⟩
    · exact Or.inr rfl

theorem reads_many {c : Char → Bool} {t rest ds : List Char} :
    Reads (many c) t ds rest ↔ (∀ x ∈ ds, c x = true) ∧ t = ds ++ rest := by
  unfold Reads many
  rw [List.mem_map]
  constructor
  · intro h
    obtain ⟨n, hn, h⟩ := h
    obtain ⟨rfl, rfl⟩ := Prod.mk.inj h
    refine ⟨fun x hx => ?_, (List.take_append_drop n t).symm⟩
    have hn := List.mem_range.mp (List.mem_reverse.mp hn)
    have htake : t.take n = (t.takeWhile c).take n := by
      have hpre := List.takeWhile_prefix c (l := t)
      rw [List.prefix_iff_eq_take.mp hpre, List.take_take, Nat.min_eq_left (by omega)]
    rw [htake] at hx
    exact List.mem_takeWhile_imp (List.mem_of_mem_take hx)
  · rintro ⟨hds, rfl⟩
    refine ⟨ds.length, ?_, by rw [List.take_left, List.drop_left]⟩
    rw [List.mem_reverse, List.mem_range, List.takeWhile_append_of_pos hds, List.length_append]
    omega

theorem reads_many1 {c : Char → Bool} {t rest ds : List Char} :
    Reads (many1 c) t ds rest ↔ ds ≠ [] ∧ (∀ x ∈ ds, c x = true) ∧ t = ds ++ rest := by
  unfold Reads many1
  rw [List.mem_filter, ← Reads, reads_many, and_comm]
  simp

/-! ## Reading to the end -/

/-- What a text is captured as is one way to read it to its end. -/
theorem reads_of_whole {p : Pattern α} {t : List Char} {a : α} (h : whole p t = some a) :
    Reads p t a [] := by
  obtain ⟨way, hway, rfl⟩ := Option.map_eq_some_iff.mp h
  have hmem := List.mem_of_find?_eq_some hway
  have hend := List.find?_some hway
  rwa [show way = (way.1, []) from Prod.ext rfl (List.isEmpty_iff.mp hend)] at hmem

theorem whole_isSome {p : Pattern α} {t : List Char} {a : α} (h : Reads p t a []) :
    ∃ b, whole p t = some b := by
  cases hw : whole p t with
  | some b => exact ⟨b, rfl⟩
  | none =>
    have hnone := List.find?_eq_none.mp (Option.map_eq_none_iff.mp hw) (a, []) h
    exact absurd rfl hnone

/-- A text with one reading to its end is captured so. -/
theorem whole_of_unique {p : Pattern α} {t : List Char} {a : α} (h : Reads p t a [])
    (hunique : ∀ b, Reads p t b [] → b = a) : whole p t = some a := by
  obtain ⟨b, hb⟩ := whole_isSome h
  rw [hb, hunique b (reads_of_whole hb)]

/-- A pattern whose readings to the end are determined by the text: it captures `a`
exactly when it can read `a`. -/
theorem whole_iff {p : Pattern α} {t : List Char}
    (hunique : ∀ a b, Reads p t a [] → Reads p t b [] → a = b) {a : α} :
    whole p t = some a ↔ Reads p t a [] :=
  ⟨reads_of_whole, fun h => whole_of_unique h fun b hb => hunique b a hb h⟩

/-! ## The characters of what is read -/

/-- Every text `p` reads is of characters of a class. -/
def SpeltWith (c : Char → Bool) (p : Pattern α) : Prop :=
  ∀ t a rest, Reads p t a rest → ∃ front, t = front ++ rest ∧ ∀ x ∈ front, c x = true

section SpeltWith

variable {c : Char → Bool} {p : Pattern α}

theorem SpeltWith.pure (a : α) : SpeltWith c (Pure.pure a : Pattern α) := by
  intro t b rest h
  exact ⟨[], (reads_pure.mp h).2, fun x hx => by cases hx⟩

theorem SpeltWith.bind {f : α → Pattern β} (hp : SpeltWith c p) (hf : ∀ a, SpeltWith c (f a)) :
    SpeltWith c (p >>= f) := by
  intro t b rest h
  obtain ⟨a, mid, ha, hb⟩ := reads_bind.mp h
  obtain ⟨front, rfl, hfront⟩ := hp t a mid ha
  obtain ⟨back, rfl, hback⟩ := hf a mid b rest hb
  exact ⟨front ++ back, (List.append_assoc _ _ _).symm, fun x hx =>
    (List.mem_append.mp hx).elim (hfront x) (hback x)⟩

theorem SpeltWith.lit {w : String} (hw : w.toList.all c = true) : SpeltWith c (lit w) := by
  intro t u rest h
  exact ⟨w.toList, reads_lit.mp h, List.all_eq_true.mp hw⟩

theorem SpeltWith.oneOf {ws : List String} (hws : (ws.all fun w => w.toList.all c) = true) :
    SpeltWith c (oneOf ws) := by
  intro t w rest h
  obtain ⟨hw, ht⟩ := reads_oneOf.mp h
  exact ⟨w.toList, ht, List.all_eq_true.mp (List.all_eq_true.mp hws w hw)⟩

theorem SpeltWith.opt (hp : SpeltWith c p) : SpeltWith c (opt p) := by
  intro t o rest h
  rcases reads_opt.mp h with ⟨a, -, ha⟩ | ⟨-, rfl⟩
  · exact hp t a rest ha
  · exact ⟨[], rfl, fun x hx => by cases hx⟩

theorem SpeltWith.many1 {c' : Char → Bool} (hc : ∀ x, c' x = true → c x = true) :
    SpeltWith c (many1 c') := by
  intro t ds rest h
  obtain ⟨-, hds, ht⟩ := reads_many1.mp h
  exact ⟨ds, ht, fun x hx => hc x (hds x hx)⟩

theorem SpeltWith.whole (hp : SpeltWith c p) {t : List Char} {a : α} (h : whole p t = some a) :
    ∀ x ∈ t, c x = true := by
  obtain ⟨front, ht, hfront⟩ := hp t a [] (reads_of_whole h)
  rw [List.append_nil] at ht
  rw [ht]
  exact hfront

end SpeltWith

end Pattern

/-! ## Rules -/

section Rules

variable {α β : Type} {t : List Char}

theorem rule_eq_none {p : Pattern α} {build : α → β} :
    rule p build t = none ↔ p.whole t = none := Option.map_eq_none_iff

theorem rule_eq_some {p : Pattern α} {build : α → β} {b : β} :
    rule p build t = some b ↔ ∃ c, p.whole t = some c ∧ build c = b := Option.map_eq_some_iff

/-- The first rule matches, or the others decide. -/
theorem firstRule_eq {r : List Char → Option β} {rules : List (List Char → Option β)}
    {fallback b : β} (h : firstRule (r :: rules) fallback t = b) :
    r t = some b ∨ (r t = none ∧ firstRule rules fallback t = b) := by
  rw [firstRule_cons] at h
  cases hr : r t with
  | none =>
    rw [hr] at h
    exact Or.inr ⟨rfl, h⟩
  | some x =>
    rw [hr, Option.getD_some] at h
    exact Or.inl (congrArg some h)

end Rules

/-! ## Runs -/

/-- A text that begins with a run of a class followed by something else has one such
run. -/
theorem run_unique {c : Char → Bool} {ds ds' rest rest' : List Char}
    (hds : ∀ x ∈ ds, c x = true) (hds' : ∀ x ∈ ds', c x = true)
    (hrest : ∀ x ∈ rest.head?, c x = false) (hrest' : ∀ x ∈ rest'.head?, c x = false)
    (h : ds ++ rest = ds' ++ rest') : ds = ds' ∧ rest = rest' := by
  have hstop : ∀ (run tail : List Char), (∀ x ∈ run, c x = true) →
      (∀ x ∈ tail.head?, c x = false) → (run ++ tail).takeWhile c = run := by
    intro run tail hrun htail
    rw [List.takeWhile_append_of_pos hrun]
    cases tail with
    | nil => exact List.append_nil run
    | cons x tail =>
      rw [List.takeWhile_cons, htail x rfl]
      exact List.append_nil run
  have heq : ds = ds' := by rw [← hstop ds rest hds hrest, h, hstop ds' rest' hds' hrest']
  rw [heq, List.append_cancel_left_eq] at h
  exact ⟨heq, h⟩

/-- The same at the end of a text. -/
theorem last_run_unique {c : Char → Bool} {ds ds' front front' : List Char}
    (hds : ∀ x ∈ ds, c x = true) (hds' : ∀ x ∈ ds', c x = true)
    (hfront : ∀ x ∈ front.getLast?, c x = false) (hfront' : ∀ x ∈ front'.getLast?, c x = false)
    (h : front ++ ds = front' ++ ds') : front = front' ∧ ds = ds' := by
  have hrev := congrArg List.reverse h
  rw [List.reverse_append, List.reverse_append] at hrev
  obtain ⟨hds, hfront⟩ := run_unique (fun x hx => hds x (List.mem_reverse.mp hx))
    (fun x hx => hds' x (List.mem_reverse.mp hx)) (fun x hx => hfront x (by simpa using hx))
    (fun x hx => hfront' x (by simpa using hx)) hrev
  exact ⟨List.reverse_injective hfront, List.reverse_injective hds⟩

end PaperTrading.Lib
