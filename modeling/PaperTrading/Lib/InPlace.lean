import Mathlib.Data.List.Basic
import Mathlib.Logic.Function.Basic
import Mathlib.Tactic.Basic

/-!
# Documents written in place

A file holds a document as text. To save another one it is cut to nothing and filled
up again, bit by bit, by whoever writes it; others may read it at any time, and the
writer may crash at any time. `InPlace` is the file with the writes that are under way.

While no write begins inside another (`Sound`), a file is either cut short, which a
`Format` never takes for a document, or it has the document of the last write that
was finished (`Sound.read`).
-/

namespace PaperTrading.Lib

variable {ι D : Type}

/-- How documents are written and read: a document reads as it was written, and a text
that was cut short as nothing. -/
structure Format (D : Type) where
  dumps : D → Option (List Char)
  loads : List Char → Option D
  loads_dumps : ∀ {d t}, dumps d = some t → loads t = some d
  loads_cut : ∀ {d t p}, dumps d = some t → p <+: t → p ≠ t → loads p = none
  loads_nil : loads [] = none

namespace Format

variable (fmt : Format D)

/-- A file that does not exist is read as one that cannot be read. -/
def read (file : Option (List Char)) : Option D := file.bind fmt.loads

/-- The file has some of the text of a document, but not all of it. -/
def Cut (file : Option (List Char)) : Prop :=
  ∃ p d t, file = some p ∧ fmt.dumps d = some t ∧ p <+: t ∧ p ≠ t

variable {fmt}

theorem read_cut {file : Option (List Char)} (h : fmt.Cut file) : fmt.read file = none := by
  obtain ⟨p, d, t, rfl, hdumps, hpre, hne⟩ := h
  exact fmt.loads_cut hdumps hpre hne

theorem dumps_ne_nil {d : D} {t : List Char} (h : fmt.dumps d = some t) : t ≠ [] := by
  rintro rfl
  have := fmt.loads_dumps h
  rw [fmt.loads_nil] at this
  cases this

/-- The format of the documents of a table. -/
def ofTable [DecidableEq D] (table : List (D × List Char)) (hne : ∀ a ∈ table, a.2 ≠ [])
    (hpre : ∀ a ∈ table, ∀ b ∈ table, a.2 <+: b.2 → a = b) : Format D :=
  have hdumps : ∀ {d t}, ((table.find? (·.1 = d)).map (·.2)) = some t → (d, t) ∈ table := by
    intro d t h
    obtain ⟨a, ha, rfl⟩ := Option.map_eq_some_iff.mp h
    obtain rfl : a.1 = d := of_decide_eq_true (List.find?_some ha :)
    exact List.mem_of_find?_eq_some ha
  have hloads : ∀ {t d}, ((table.find? (·.2 = t)).map (·.1)) = some d → (d, t) ∈ table := by
    intro t d h
    obtain ⟨a, ha, rfl⟩ := Option.map_eq_some_iff.mp h
    obtain rfl : a.2 = t := of_decide_eq_true (List.find?_some ha :)
    exact List.mem_of_find?_eq_some ha
  { dumps := fun d => (table.find? (·.1 = d)).map (·.2)
    loads := fun t => (table.find? (·.2 = t)).map (·.1)
    loads_dumps := fun {d t} h => by
      cases hread : (table.find? (·.2 = t)).map (·.1) with
      | some d' =>
        have heq := hpre _ (hdumps h) _ (hloads hread) (List.prefix_refl t)
        exact congrArg some (congrArg Prod.fst heq).symm
      | none =>
        rw [Option.map_eq_none_iff, List.find?_eq_none] at hread
        exact absurd (decide_eq_true rfl) (hread _ (hdumps h))
    loads_cut := fun {d t p} h hp hcut => by
      by_contra hread
      obtain ⟨d', hread⟩ := Option.ne_none_iff_exists'.mp hread
      exact hcut (congrArg Prod.snd (hpre _ (hloads hread) _ (hdumps h) hp))
    loads_nil := by
      by_contra hread
      obtain ⟨d, hread⟩ := Option.ne_none_iff_exists'.mp hread
      exact hne _ (hloads hread) rfl }

end Format

/-- A write under way: the document, its text, and how much of it is in the file. -/
structure Writing (D : Type) where
  doc : D
  text : List Char
  pos : ℕ

/-- A file, the writes under way, and the document of the last write that was
finished. -/
structure InPlace (ι D : Type) where
  file : Option (List Char)
  writes : ι → Option (Writing D)
  saved : Option D

/-- `chunk` written at position `k`; a gap before it is filled with zeros. -/
def overlay (t : List Char) (k : ℕ) (chunk : List Char) : List Char :=
  t.take k ++ List.replicate (k - t.length) (Char.ofNat 0) ++ chunk ++ t.drop (k + chunk.length)

theorem overlay_end {t : List Char} {k : ℕ} (hk : t.length = k) (chunk : List Char) :
    overlay t k chunk = t ++ chunk := by
  subst hk
  unfold overlay
  rw [List.take_length, Nat.sub_self, List.replicate_zero, List.append_nil,
    List.drop_eq_nil_of_le (Nat.le_add_right _ _), List.append_nil]

theorem update_eq_some [DecidableEq ι] {f : ι → Option D} {i j : ι} {v : Option D} {w : D}
    (h : Function.update f i v j = some w) : j = i ∧ v = some w ∨ j ≠ i ∧ f j = some w := by
  rcases eq_or_ne j i with rfl | hne
  · rw [Function.update_self] at h
    exact .inl ⟨rfl, h⟩
  · rw [Function.update_of_ne hne] at h
    exact .inr ⟨hne, h⟩

namespace InPlace

section
variable [DecidableEq ι] (s : InPlace ι D) (i : ι)

/-- The file is opened for a document, and cut to nothing. -/
def openFor (d : D) (t : List Char) : InPlace ι D :=
  { s with file := some [], writes := Function.update s.writes i (some ⟨d, t, 0⟩) }

/-- The writer writes the next `n` characters. -/
def fill (n : ℕ) : InPlace ι D :=
  match s.writes i with
  | none => s
  | some w =>
    let file := some (overlay (s.file.getD []) w.pos ((w.text.drop w.pos).take n))
    if w.text.length ≤ w.pos + n then
      { file := file, writes := Function.update s.writes i none, saved := some w.doc }
    else
      { s with
        file := file
        writes := Function.update s.writes i (some { w with pos := w.pos + n }) }

/-- The writer is gone; what it wrote stays. -/
def crash : InPlace ι D := { s with writes := Function.update s.writes i none }

end

/-- At most one write is under way, and the file has what it has written so far. When
none is, the file has the last document that was saved, or was left cut short. -/
structure Sound (fmt : Format D) (s : InPlace ι D) : Prop where
  one : ∀ {i j v w}, s.writes i = some v → s.writes j = some w → i = j
  during : ∀ {i w}, s.writes i = some w → fmt.dumps w.doc = some w.text ∧
    w.pos < w.text.length ∧ s.file = some (w.text.take w.pos)
  after : (∀ i, s.writes i = none) → fmt.Cut s.file ∨
    ∀ d, s.saved = some d → ∃ t, fmt.dumps d = some t ∧ s.file = some t

variable {fmt : Format D} {s : InPlace ι D}

theorem cut_take {w : Writing D} (hdumps : fmt.dumps w.doc = some w.text)
    (hpos : w.pos < w.text.length) : fmt.Cut (some (w.text.take w.pos)) := by
  refine ⟨_, _, _, rfl, hdumps, List.take_prefix _ _, fun heq => ?_⟩
  have := congrArg List.length heq
  rw [List.length_take] at this
  omega

theorem Sound.cut (h : s.Sound fmt) {i : ι} {w : Writing D} (hw : s.writes i = some w) :
    fmt.Cut s.file := by
  obtain ⟨hdumps, hpos, hfile⟩ := h.during hw
  rw [hfile]
  exact cut_take hdumps hpos

/-- A file that is not cut short has the last document that was saved. -/
theorem Sound.read (h : s.Sound fmt) (hwhole : ¬ fmt.Cut s.file) {d : D}
    (hd : s.saved = some d) : fmt.read s.file = some d := by
  have hnone : ∀ i, s.writes i = none := fun i => by
    cases hw : s.writes i with
    | none => rfl
    | some w => exact absurd (h.cut hw) hwhole
  obtain ⟨t, hdumps, hfile⟩ := (h.after hnone).resolve_left hwhole d hd
  rw [hfile]
  exact fmt.loads_dumps hdumps

/-- The writer goes on where it stopped. -/
theorem Sound.file_fill (h : s.Sound fmt) {i : ι} {w : Writing D} (hw : s.writes i = some w)
    (n : ℕ) : overlay (s.file.getD []) w.pos ((w.text.drop w.pos).take n) =
      w.text.take (w.pos + n) := by
  obtain ⟨-, hpos, hfile⟩ := h.during hw
  have hlen : (w.text.take w.pos).length = w.pos := by
    rw [List.length_take]
    omega
  rw [hfile, Option.getD_some, overlay_end hlen, List.take_add]

section
variable [DecidableEq ι]

theorem Sound.openFor (hfree : ∀ i, s.writes i = none) (i : ι) {d : D} {t : List Char}
    (hdumps : fmt.dumps d = some t) : (s.openFor i d t).Sound fmt := by
  have hwrites : ∀ {j w}, (s.openFor i d t).writes j = some w → j = i ∧ w = ⟨d, t, 0⟩ := by
    intro j w hw
    rcases update_eq_some hw with ⟨hj, hold⟩ | ⟨-, hold⟩
    · exact ⟨hj, (Option.some.inj hold).symm⟩
    · cases (hfree j).symm.trans hold
  refine ⟨fun hv hw => (hwrites hv).1.trans (hwrites hw).1.symm, fun hw => ?_, fun hnone => ?_⟩
  · obtain ⟨-, rfl⟩ := hwrites hw
    exact ⟨hdumps, List.length_pos_of_ne_nil (Format.dumps_ne_nil hdumps), rfl⟩
  · cases (Function.update_self ..).symm.trans (hnone i)

theorem Sound.fill (h : s.Sound fmt) (i : ι) (n : ℕ) : (s.fill i n).Sound fmt := by
  unfold InPlace.fill
  cases hw : s.writes i with
  | none => exact h
  | some w =>
    have hfile := h.file_fill hw n
    obtain ⟨hdumps, hpos, -⟩ := h.during hw
    have hothers : ∀ {j}, j ≠ i → s.writes j = none := fun {j} hne => by
      cases hj : s.writes j with
      | none => rfl
      | some v => exact absurd (h.one hj hw) hne
    dsimp only
    rw [hfile]
    split
    next hdone =>
      -- the last character: the document is saved
      have hnone : ∀ {j v}, Function.update s.writes i none j ≠ some v := fun {j v} hj => by
        rcases update_eq_some hj with ⟨-, hold⟩ | ⟨hne, hold⟩
        · cases hold
        · cases (hothers hne).symm.trans hold
      refine ⟨fun hv _ => absurd hv hnone, fun hv => absurd hv hnone, fun _ => .inr fun d hd => ?_⟩
      obtain rfl := Option.some.inj hd
      exact ⟨w.text, hdumps, congrArg some (List.take_of_length_le hdone)⟩
    next hmore =>
      have hwrites : ∀ {j v}, Function.update s.writes i (some { w with pos := w.pos + n }) j =
          some v → j = i ∧ v = { w with pos := w.pos + n } := by
        intro j v hj
        rcases update_eq_some hj with ⟨heq, hold⟩ | ⟨hne, hold⟩
        · exact ⟨heq, (Option.some.inj hold).symm⟩
        · cases (hothers hne).symm.trans hold
      refine ⟨fun hv hu => (hwrites hv).1.trans (hwrites hu).1.symm, fun hu => ?_, fun hnone => ?_⟩
      · obtain ⟨-, rfl⟩ := hwrites hu
        exact ⟨hdumps, Nat.lt_of_not_le hmore, rfl⟩
      · cases (Function.update_self ..).symm.trans (hnone i)

theorem Sound.crash (h : s.Sound fmt) (i : ι) : (s.crash i).Sound fmt := by
  have hwrites : ∀ {j w}, (s.crash i).writes j = some w → s.writes j = some w := by
    intro j w hj
    rcases update_eq_some hj with ⟨-, hold⟩ | ⟨-, hold⟩
    · cases hold
    · exact hold
  refine ⟨fun hv hw => h.one (hwrites hv) (hwrites hw), fun hw => h.during (hwrites hw),
    fun hnone => ?_⟩
  cases hi : s.writes i with
  | some w => exact .inl (h.cut hi)
  | none =>
    refine h.after fun j => ?_
    have hj : Function.update s.writes i none j = none := hnone j
    rcases eq_or_ne j i with rfl | hne
    · exact hi
    · rwa [Function.update_of_ne hne] at hj

/-- Whoever is in the middle of a write after some characters was so before. -/
theorem writes_fill {i j : ι} {n : ℕ} (h : ((s.fill i n).writes j).isSome) :
    (s.writes j).isSome := by
  unfold InPlace.fill at h
  cases hw : s.writes i with
  | none =>
    rw [hw] at h
    exact h
  | some w =>
    rw [hw] at h
    rcases eq_or_ne j i with rfl | hne
    · rw [hw]
      rfl
    · dsimp only at h
      split at h <;>
      exact (congrArg Option.isSome (Function.update_of_ne hne ..)).symm.trans h

theorem writes_crash {i j : ι} (h : ((s.crash i).writes j).isSome) :
    j ≠ i ∧ (s.writes j).isSome := by
  obtain ⟨w, hw⟩ := Option.isSome_iff_exists.mp h
  rcases update_eq_some hw with ⟨-, hold⟩ | ⟨hne, hold⟩
  · cases hold
  · exact ⟨hne, hold ▸ rfl⟩

end

end InPlace

end PaperTrading.Lib
