import PaperTrading.Lib.Readings
import PaperTrading.Mint.Atoms

/-!
# The texts of atoms

For each pattern of an atom, the texts it reads, written out: the words of the atom
and its runs of digits. The captures are determined by the text, so a pattern captures
them exactly when the text is made of them. The parser's own pattern of a family reads
the texts of the mint's pattern with the same captures.
-/

namespace PaperTrading.Mint

open Lib Pattern
open Signals (digits)

/-- A run of digits, as `(\d+)` captures it. -/
def IsDigits (ds : Text) : Prop := ds ≠ [] ∧ ∀ c ∈ ds, isDigit c = true

theorem reads_digits {t ds rest : Text} :
    Reads digits t ds rest ↔ IsDigits ds ∧ t = ds ++ rest := by
  unfold digits IsDigits
  rw [reads_many1, and_assoc]

theorem reads_lit_bind {β : Type} {w : String} {f : Unit → Pattern β} {t rest : Text} {b : β} :
    Reads (lit w >>= f) t b rest ↔ ∃ mid, t = w.toList ++ mid ∧ Reads (f ()) mid b rest := by
  rw [reads_bind]
  constructor
  · rintro ⟨u, mid, hmid, h⟩
    exact ⟨mid, reads_lit.mp hmid, h⟩
  · rintro ⟨mid, hmid, h⟩
    exact ⟨(), mid, reads_lit.mpr hmid, h⟩

theorem reads_digits_bind {β : Type} {f : Text → Pattern β} {t rest : Text} {b : β} :
    Reads (digits >>= f) t b rest ↔
      ∃ ds mid, IsDigits ds ∧ t = ds ++ mid ∧ Reads (f ds) mid b rest := by
  rw [reads_bind]
  constructor
  · rintro ⟨ds, mid, hmid, h⟩
    obtain ⟨hds, hmid⟩ := reads_digits.mp hmid
    exact ⟨ds, mid, hds, hmid, h⟩
  · rintro ⟨ds, mid, hds, hmid, h⟩
    exact ⟨ds, mid, reads_digits.mpr ⟨hds, hmid⟩, h⟩

theorem reads_oneOf_bind {β : Type} {ws : List String} {f : String → Pattern β} {t rest : Text}
    {b : β} : Reads (oneOf ws >>= f) t b rest ↔
      ∃ w mid, w ∈ ws ∧ t = w.toList ++ mid ∧ Reads (f w) mid b rest := by
  rw [reads_bind]
  constructor
  · rintro ⟨w, mid, hmid, h⟩
    obtain ⟨hw, hmid⟩ := reads_oneOf.mp hmid
    exact ⟨w, mid, hw, hmid, h⟩
  · rintro ⟨w, mid, hw, hmid, h⟩
    exact ⟨w, mid, reads_oneOf.mpr ⟨hw, hmid⟩, h⟩

theorem not_isDigit_of_mem {c : Char} (h : c ∈ ['_', 'b', 'p', '>', '<', 'a', 'c']) :
    isDigit c = false := by
  have hall : (['_', 'b', 'p', '>', '<', 'a', 'c'].all fun c => !isDigit c) = true := by
    decide +kernel
  simpa using List.all_eq_true.mp hall c h

/-! ## One word and a number -/

theorem reads_wordAtom {words : List String} {t : Text} {c : String × Text} :
    Reads (wordAtom words) t c [] ↔
      c.1 ∈ words ∧ IsDigits c.2 ∧ t = c.1.toList ++ '_' :: c.2 := by
  unfold wordAtom
  simp only [reads_oneOf_bind, reads_lit_bind, reads_digits_bind, reads_pure]
  constructor
  · rintro ⟨w, _, hw, rfl, _, rfl, n, _, hn, rfl, rfl, rfl⟩
    exact ⟨hw, hn, by rw [List.append_nil]; rfl⟩
  · rintro ⟨hw, hn, rfl⟩
    exact ⟨c.1, _, hw, rfl, c.2, rfl, c.2, [], hn, (List.append_nil _).symm, rfl, rfl⟩

/-- A word, a dash and a number come apart in one way. -/
theorem word_digits_unique {w w' : String} {n n' : Text} (hn : IsDigits n) (hn' : IsDigits n')
    (h : w.toList ++ '_' :: n = w'.toList ++ '_' :: n') : w = w' ∧ n = n' := by
  have hend : ∀ v : String, ∀ x ∈ (v.toList ++ ['_']).getLast?, isDigit x = false := by
    intro v x hx
    rw [List.getLast?_concat] at hx
    cases hx
    exact not_isDigit_of_mem (by decide)
  have h : (w.toList ++ ['_']) ++ n = (w'.toList ++ ['_']) ++ n' := by
    rw [List.append_assoc, List.append_assoc]
    exact h
  obtain ⟨hw, hn⟩ := last_run_unique hn.2 hn'.2 (hend w) (hend w') h
  exact ⟨String.toList_injective (List.append_cancel_right hw), hn⟩

theorem wordAtom_iff {words : List String} {t : Text} {c : String × Text} :
    (wordAtom words).whole t = some c ↔
      c.1 ∈ words ∧ IsDigits c.2 ∧ t = c.1.toList ++ '_' :: c.2 := by
  rw [← reads_wordAtom]
  refine whole_iff fun a b ha hb => ?_
  obtain ⟨_, hna, rfl⟩ := reads_wordAtom.mp ha
  obtain ⟨_, hnb, h⟩ := reads_wordAtom.mp hb
  exact Prod.ext (word_digits_unique hna hnb h).1 (word_digits_unique hna hnb h).2

/-! ## Momentum and dips -/

/-- The text of a move atom. -/
def moveText (kind : String) (lookback : Text) (word : String) (pct : Text) : Text :=
  kind.toList ++ '_' :: (lookback ++ 'b' :: '_' :: (word.toList ++ (pct ++ ['p', 'c'])))

theorem reads_moveAtom {t : Text} {c : String × Text × String × Text} :
    Reads moveAtom t c [] ↔ c.1 ∈ ["mom", "dip"] ∧ IsDigits c.2.1 ∧ c.2.2.1 ∈ ["gt", "lt"] ∧
      IsDigits c.2.2.2 ∧ t = moveText c.1 c.2.1 c.2.2.1 c.2.2.2 := by
  unfold moveAtom moveText
  simp only [reads_oneOf_bind, reads_lit_bind, reads_digits_bind, reads_pure]
  constructor
  · rintro ⟨kind, _, hkind, rfl, _, rfl, lb, _, hlb, rfl, _, rfl, word, _, hword, rfl, pct, _, hpct,
      rfl, _, rfl, rfl, rfl⟩
    exact ⟨hkind, hlb, hword, hpct, rfl⟩
  · rintro ⟨hkind, hlb, hword, hpct, rfl⟩
    exact ⟨c.1, _, hkind, rfl, _, rfl, c.2.1, _, hlb, rfl, _, rfl, c.2.2.1, _, hword, rfl, c.2.2.2, _,
      hpct, rfl, _, rfl, rfl, rfl⟩

/-- What follows a run of digits in a move atom is no digit. -/
theorem head_not_digit {c : Char} {rest : Text} (h : c ∈ ['_', 'b', 'p', '>', '<', 'a', 'c']) :
    ∀ x ∈ (c :: rest).head?, isDigit x = false := by
  intro x hx
  cases hx
  exact not_isDigit_of_mem h

theorem moveText_unique {kind kind' word word' : String} {lb lb' pct pct' : Text}
    (hkind : kind ∈ ["mom", "dip"]) (hkind' : kind' ∈ ["mom", "dip"])
    (hword : word ∈ ["gt", "lt"]) (hword' : word' ∈ ["gt", "lt"]) (hlb : IsDigits lb)
    (hlb' : IsDigits lb') (hpct : IsDigits pct) (hpct' : IsDigits pct')
    (h : moveText kind lb word pct = moveText kind' lb' word' pct') :
    kind = kind' ∧ lb = lb' ∧ word = word' ∧ pct = pct' := by
  unfold moveText at h
  have hk : kind = kind' := by
    rcases List.mem_pair.mp hkind with rfl | rfl <;> rcases List.mem_pair.mp hkind' with rfl | rfl
    · rfl
    · exact absurd (List.cons.inj h).1 (by decide)
    · exact absurd (List.cons.inj h).1 (by decide)
    · rfl
  rw [hk, List.append_cancel_left_eq] at h
  obtain ⟨hlb, h⟩ := run_unique hlb.2 hlb'.2 (head_not_digit (by decide)) (head_not_digit (by decide))
    (List.cons.inj h).2
  have h := (List.cons.inj (List.cons.inj h).2).2
  have hw : word = word' := by
    rcases List.mem_pair.mp hword with rfl | rfl <;> rcases List.mem_pair.mp hword' with rfl | rfl
    · rfl
    · exact absurd (List.cons.inj h).1 (by decide)
    · exact absurd (List.cons.inj h).1 (by decide)
    · rfl
  rw [hw, List.append_cancel_left_eq] at h
  exact ⟨hk, hlb, hw, (run_unique hpct.2 hpct'.2 (head_not_digit (by decide))
    (head_not_digit (by decide)) h).1⟩

theorem moveAtom_iff {t : Text} {c : String × Text × String × Text} :
    moveAtom.whole t = some c ↔ c.1 ∈ ["mom", "dip"] ∧ IsDigits c.2.1 ∧ c.2.2.1 ∈ ["gt", "lt"] ∧
      IsDigits c.2.2.2 ∧ t = moveText c.1 c.2.1 c.2.2.1 c.2.2.2 := by
  rw [← reads_moveAtom]
  refine whole_iff fun a b ha hb => ?_
  obtain ⟨hk, hlb, hw, hpct, rfl⟩ := reads_moveAtom.mp ha
  obtain ⟨hk', hlb', hw', hpct', h⟩ := reads_moveAtom.mp hb
  obtain ⟨h1, h2, h3, h4⟩ := moveText_unique hk hk' hw hw' hlb hlb' hpct hpct' h
  exact Prod.ext h1 (Prod.ext h2 (Prod.ext h3 h4))

/-- The parser's pattern for a move, one way with its optional characters. -/
theorem reads_moveName {front word : String} {t : Text} {c : Text × Text}
    (h : Reads (Signals.moveName front word) t c []) : ∃ b dash pc : Text,
      IsDigits c.1 ∧ IsDigits c.2 ∧ (b = [] ∨ b = ['b']) ∧ (dash = [] ∨ dash = ['_']) ∧
        (pc = [] ∨ pc = ['p', 'c']) ∧
        t = front.toList ++ (c.1 ++ (b ++ (word.toList ++ (dash ++ (c.2 ++ pc))))) := by
  have hopt : ∀ {w : String} {o : Option Unit} {u v : Text}, Reads (opt (lit w)) u o v →
      ∃ d : Text, (d = [] ∨ d = w.toList) ∧ u = d ++ v := by
    intro w o u v hr
    rcases reads_opt.mp hr with ⟨_, _, hr⟩ | ⟨_, hr⟩
    · exact ⟨w.toList, Or.inr rfl, reads_lit.mp hr⟩
    · exact ⟨[], Or.inl rfl, hr⟩
  unfold Signals.moveName at h
  simp only [reads_lit_bind, reads_digits_bind] at h
  obtain ⟨_, ht, lb, rest, hlb, hrest, h⟩ := h
  obtain ⟨_, rest₁, hb, h₁⟩ := reads_bind.mp h
  obtain ⟨b, hb, hrest₁⟩ := hopt hb
  obtain ⟨rest₂, hrest₂, h₂⟩ := reads_lit_bind.mp h₁
  obtain ⟨_, rest₃, hdash, h₃⟩ := reads_bind.mp h₂
  obtain ⟨dash, hdash, hrest₃⟩ := hopt hdash
  obtain ⟨pct, rest₄, hpct, hrest₄, h₄⟩ := reads_digits_bind.mp h₃
  obtain ⟨_, rest₅, hpc, h₅⟩ := reads_bind.mp h₄
  obtain ⟨pc, hpc', hrest₅⟩ := hopt hpc
  obtain ⟨hc, hend⟩ := reads_pure.mp h₅
  rw [hend, List.append_nil] at hrest₅
  rw [hc]
  refine ⟨b, dash, pc, hlb, hpct, hb, hdash, hpc', ?_⟩
  rw [ht, hrest, hrest₁, hrest₂, hrest₃, hrest₄, hrest₅]

/-- The parser reads a move of the right word with the mint's captures. -/
theorem moveName_whole {kind word : String} {lb pct : Text} (hlb : IsDigits lb)
    (hpct : IsDigits pct) :
    (Signals.moveName (kind ++ "_") ("_" ++ word)).whole (moveText kind lb word pct) =
      some (lb, pct) := by
  have htext : ∀ (u : Text), ("_" ++ word).toList ++ u = '_' :: (word.toList ++ u) := by
    intro u
    rw [String.toList_append]
    rfl
  have hfront : ∀ (u : Text), (kind ++ "_").toList ++ u = kind.toList ++ '_' :: u := by
    intro u
    rw [String.toList_append, List.append_assoc]
    rfl
  refine whole_of_unique ?_ fun c hc => ?_
  · unfold Signals.moveName moveText
    simp only [reads_lit_bind, reads_digits_bind, reads_bind (p := Pattern.opt _), reads_pure]
    refine ⟨_, (hfront _).symm, lb, _, hlb, rfl, some (), _,
      reads_opt.mpr (Or.inl ⟨(), rfl, reads_lit.mpr rfl⟩), _, (htext _).symm, none, _,
      reads_opt.mpr (Or.inr ⟨rfl, rfl⟩), pct, _, hpct, rfl, some (), [],
      reads_opt.mpr (Or.inl ⟨(), rfl, reads_lit.mpr rfl⟩), rfl, rfl⟩
  · obtain ⟨b, dash, pc, hlb', hpct', hb, hdash, hpc, h⟩ := reads_moveName hc
    unfold moveText at h
    rw [hfront, List.append_cancel_left_eq, htext] at h
    have hrest : ∀ x ∈ (b ++ '_' :: (word.toList ++ (dash ++ (c.2 ++ pc)))).head?,
        isDigit x = false := by
      rcases hb with rfl | rfl
      · exact head_not_digit (by decide)
      · exact head_not_digit (by decide)
    obtain ⟨hl, h⟩ := run_unique hlb.2 hlb'.2 (head_not_digit (by decide)) hrest (List.cons.inj h).2
    rcases hb with rfl | rfl
    · exact absurd (List.cons.inj h).1 (by decide)
    have h := (List.cons.inj (List.cons.inj h).2).2
    rw [List.append_cancel_left_eq] at h
    obtain ⟨d, ds, hd⟩ := List.exists_cons_of_ne_nil hpct.1
    rcases hdash with rfl | rfl
    · have hend : ∀ x ∈ pc.head?, isDigit x = false := by
        rcases hpc with rfl | rfl
        · intro x hx
          cases hx
        · exact head_not_digit (by decide)
      have hp := (run_unique hpct.2 hpct'.2 (head_not_digit (by decide)) hend h).1
      exact Prod.ext hl.symm hp.symm
    · rw [hd] at h
      have hdash := (List.cons.inj h).1
      have hdigit := hpct.2 d (hd ▸ List.mem_cons_self)
      rw [hdash] at hdigit
      exact absurd hdigit (by decide)

/-- It reads no move of the other word. -/
theorem moveName_whole_other {kind word word' : String} {lb pct : Text} (hlb : IsDigits lb)
    (hword : word ∈ ["gt", "lt"]) (hword' : word' ∈ ["gt", "lt"]) (hne : word ≠ word') :
    (Signals.moveName (kind ++ "_") ("_" ++ word')).whole (moveText kind lb word pct) = none := by
  cases hw : (Signals.moveName (kind ++ "_") ("_" ++ word')).whole (moveText kind lb word pct) with
  | none => rfl
  | some c =>
    exfalso
    obtain ⟨b, dash, pc, hlb', -, hb, -, -, h⟩ := reads_moveName (reads_of_whole hw)
    unfold moveText at h
    rw [String.toList_append, String.toList_append, List.append_assoc, List.append_cancel_left_eq] at h
    have hrest : ∀ x ∈ (b ++ (("_".toList ++ word'.toList) ++ (dash ++ (c.2 ++ pc)))).head?,
        isDigit x = false := by
      rcases hb with rfl | rfl
      · exact head_not_digit (by decide)
      · exact head_not_digit (by decide)
    obtain ⟨-, h⟩ := run_unique hlb.2 hlb'.2 (head_not_digit (by decide)) hrest (List.cons.inj h).2
    rcases hb with rfl | rfl
    · exact absurd (List.cons.inj h).1 (by decide)
    have h := (List.cons.inj (List.cons.inj h).2).2
    rcases List.mem_pair.mp hword with rfl | rfl <;> rcases List.mem_pair.mp hword' with rfl | rfl
    · exact hne rfl
    · exact absurd (List.cons.inj h).1 (by decide)
    · exact absurd (List.cons.inj h).1 (by decide)
    · exact hne rfl

/-! ## Averages, structure and bands -/

/-- The parser reads `sma_abv_n` and `ema_abv_n` with the number of the mint. -/
theorem aboveName_whole {kind : String} {n : Text} (hn : IsDigits n) :
    (Signals.aboveName kind).whole ((kind ++ "_abv").toList ++ '_' :: n) = some n := by
  have hopt : ∀ {o : Option String} {u v : Text}, Reads (opt (oneOf ["_abv", "_above"])) u o v →
      ∃ d : Text, (d = [] ∨ d = "_abv".toList ∨ d = "_above".toList) ∧ u = d ++ v := by
    intro o u v hr
    rcases reads_opt.mp hr with ⟨w, _, hr⟩ | ⟨_, hr⟩
    · obtain ⟨hw, hr⟩ := reads_oneOf.mp hr
      rcases List.mem_pair.mp hw with rfl | rfl
      · exact ⟨_, Or.inr (Or.inl rfl), hr⟩
      · exact ⟨_, Or.inr (Or.inr rfl), hr⟩
    · exact ⟨[], Or.inl rfl, hr⟩
  obtain ⟨d, ds, hd⟩ := List.exists_cons_of_ne_nil hn.1
  have hdigit : isDigit d = true := hn.2 d (hd ▸ List.mem_cons_self)
  refine whole_of_unique ?_ fun c hc => ?_
  · unfold Signals.aboveName
    rw [String.toList_append, List.append_assoc]
    refine reads_lit_bind.mpr ⟨_, rfl, reads_bind.mpr ⟨some "_abv", _,
      reads_opt.mpr (Or.inl ⟨_, rfl, reads_oneOf.mpr ⟨by decide, rfl⟩⟩), reads_bind.mpr ⟨some (), n,
      reads_opt.mpr (Or.inl ⟨_, rfl, reads_lit.mpr rfl⟩), reads_digits_bind.mpr ⟨n, [], hn,
      (List.append_nil n).symm, reads_bind.mpr ⟨none, [], reads_opt.mpr (Or.inr ⟨rfl, rfl⟩),
      reads_pure.mpr ⟨rfl, rfl⟩⟩⟩⟩⟩⟩
  · unfold Signals.aboveName at hc
    obtain ⟨r₀, ht, h₀⟩ := reads_lit_bind.mp hc
    obtain ⟨_, r₁, hfront, h₁⟩ := reads_bind.mp h₀
    obtain ⟨front, hfront, hr₀⟩ := hopt hfront
    obtain ⟨_, r₂, hdash, h₂⟩ := reads_bind.mp h₁
    obtain ⟨ds', r₃, hds', hr₂, h₃⟩ := reads_digits_bind.mp h₂
    obtain ⟨_, r₄, hback, h₄⟩ := reads_bind.mp h₃
    obtain ⟨back, hback, hr₃⟩ := hopt hback
    obtain ⟨hc, hend⟩ := reads_pure.mp h₄
    have hdash : r₁ = r₂ ∨ r₁ = '_' :: r₂ := by
      rcases reads_opt.mp hdash with ⟨_, _, h⟩ | ⟨_, h⟩
      · exact Or.inr (reads_lit.mp h)
      · exact Or.inl h
    rw [hend, List.append_nil] at hr₃
    rw [String.toList_append, List.append_assoc, List.append_cancel_left_eq] at ht
    obtain ⟨e, es, he⟩ := List.exists_cons_of_ne_nil hds'.1
    have hedigit : isDigit e = true := hds'.2 e (he ▸ List.mem_cons_self)
    have hne : ∀ x : Char, isDigit x = false → e ≠ x := by
      rintro x hx rfl
      rw [hedigit] at hx
      cases hx
    have hnd : ∀ x : Char, isDigit x = false → d ≠ x := by
      rintro x hx rfl
      rw [hdigit] at hx
      cases hx
    have hdash' : isDigit '_' = false := not_isDigit_of_mem (by decide)
    -- the word in front is `_abv`, and its dash is the pattern's own
    have hn' : n = ds' ++ back := by
      rw [hr₀, hd] at ht
      rw [hd]
      rcases hfront with rfl | rfl | rfl
      · rcases hdash with hdash | hdash
        · rw [hdash, hr₂, he] at ht
          exact absurd (List.cons.inj ht).1.symm (hne '_' hdash')
        · rw [hdash, hr₂, he] at ht
          exact absurd (List.cons.inj (List.cons.inj ht).2).1.symm
            (hne 'a' (not_isDigit_of_mem (by decide)))
      · have ht := (List.append_cancel_left ht : '_' :: (d :: ds) = r₁)
        rcases hdash with hdash | hdash
        · rw [hdash, hr₂, he] at ht
          exact absurd (List.cons.inj ht).1.symm (hne '_' hdash')
        · rw [hdash] at ht
          rw [(List.cons.inj ht).2, hr₂, hr₃]
      · exact absurd (List.cons.inj (List.cons.inj (List.cons.inj (List.cons.inj ht).2).2).2).1
          (by decide)
    have hback' : back = [] := by
      rcases hback with h | h | h
      · exact h
      all_goals
        have hmem : '_' ∈ n := by
          rw [hn', h]
          exact List.mem_append_right _ (by decide)
        have hbad := hn.2 '_' hmem
        rw [hdash'] at hbad
        cases hbad
    rw [hc, hn', hback', List.append_nil]

theorem sideName_whole {front : String} {sides : List String} {side : String} {n : Text}
    (hside : side ∈ sides) (hn : IsDigits n) :
    (Signals.sideName front sides).whole ((front ++ side).toList ++ '_' :: n) = some (side, n) := by
  refine whole_of_unique ?_ fun c hc => ?_
  · unfold Signals.sideName
    rw [String.toList_append, List.append_assoc]
    exact reads_lit_bind.mpr ⟨_, rfl, reads_oneOf_bind.mpr ⟨side, _, hside, rfl, reads_lit_bind.mpr
      ⟨_, rfl, reads_digits_bind.mpr ⟨n, [], hn, (List.append_nil n).symm,
        reads_pure.mpr ⟨rfl, rfl⟩⟩⟩⟩⟩
  · unfold Signals.sideName at hc
    obtain ⟨r₀, ht, h₀⟩ := reads_lit_bind.mp hc
    obtain ⟨side', r₁, _, hr₀, h₁⟩ := reads_oneOf_bind.mp h₀
    obtain ⟨r₂, hr₁, h₂⟩ := reads_lit_bind.mp h₁
    obtain ⟨n', r₃, hn', hr₂, h₃⟩ := reads_digits_bind.mp h₂
    obtain ⟨hc, hend⟩ := reads_pure.mp h₃
    rw [hend, List.append_nil] at hr₂
    rw [hr₀, hr₁, hr₂, String.toList_append, List.append_assoc, List.append_cancel_left_eq] at ht
    obtain ⟨rfl, rfl⟩ := word_digits_unique hn hn' ht
    exact hc

/-- The parser reads a band with the numbers of the mint. -/
theorem bbName_whole {t : Text} {c : String × Text × Text} (h : bandAtom.whole t = some c) :
    Signals.bbName.whole t = some c ∧ c.1 ∈ ["lower", "upper"] ∧ IsDigits c.2.1 ∧ IsDigits c.2.2 := by
  have h := reads_of_whole h
  unfold bandAtom at h
  obtain ⟨r₀, ht, h₀⟩ := reads_lit_bind.mp h
  obtain ⟨side, r₁, hside, hr₀, h₁⟩ := reads_oneOf_bind.mp h₀
  obtain ⟨r₂, hr₁, h₂⟩ := reads_lit_bind.mp h₁
  obtain ⟨p, r₃, hp, hr₂, h₃⟩ := reads_digits_bind.mp h₂
  obtain ⟨r₄, hr₃, h₄⟩ := reads_lit_bind.mp h₃
  obtain ⟨sd, r₅, hsd, hr₄, h₅⟩ := reads_digits_bind.mp h₄
  obtain ⟨rfl, hend⟩ := reads_pure.mp h₅
  rw [hend, List.append_nil] at hr₄
  refine ⟨whole_of_unique ?_ fun c hc => ?_, hside, hp, hsd⟩
  · unfold Signals.bbName
    refine reads_lit_bind.mpr ⟨r₀, ht, reads_oneOf_bind.mpr ⟨side, r₁, hside, hr₀,
      reads_lit_bind.mpr ⟨r₂, hr₁, reads_digits_bind.mpr ⟨p, r₃, hp, hr₂, reads_bind.mpr
        ⟨some (), r₄, reads_opt.mpr (Or.inl ⟨(), rfl, reads_lit.mpr hr₃⟩), reads_bind.mpr
          ⟨sd, [], reads_many.mpr ⟨hsd.2, by rw [hr₄, List.append_nil]⟩,
            reads_pure.mpr ⟨rfl, rfl⟩⟩⟩⟩⟩⟩⟩
  · unfold Signals.bbName at hc
    obtain ⟨q₀, ht', h₀⟩ := reads_lit_bind.mp hc
    obtain ⟨side', q₁, hside', hq₀, h₁⟩ := reads_oneOf_bind.mp h₀
    obtain ⟨q₂, hq₁, h₂⟩ := reads_lit_bind.mp h₁
    obtain ⟨p', q₃, hp', hq₂, h₃⟩ := reads_digits_bind.mp h₂
    obtain ⟨_, q₄, hdash, h₄⟩ := reads_bind.mp h₃
    obtain ⟨sd', q₅, hsd', h₅⟩ := reads_bind.mp h₄
    obtain ⟨hsd', hq₄⟩ := reads_many.mp hsd'
    obtain ⟨hc, hend⟩ := reads_pure.mp h₅
    rw [hend, List.append_nil] at hq₄
    rw [ht, List.append_cancel_left_eq] at ht'
    rw [hr₀, hq₀, hr₁, hq₁, hr₂, hq₂, hr₃] at ht'
    have hs : side = side' := by
      rcases List.mem_pair.mp hside with rfl | rfl <;> rcases List.mem_pair.mp hside' with rfl | rfl
      · rfl
      · exact absurd (List.cons.inj ht').1 (by decide)
      · exact absurd (List.cons.inj ht').1 (by decide)
      · rfl
    rw [hs, List.append_cancel_left_eq, List.append_cancel_left_eq] at ht'
    rcases reads_opt.mp hdash with ⟨_, _, hd⟩ | ⟨_, hd⟩
    · rw [reads_lit.mp hd] at ht'
      obtain ⟨hp, htail⟩ := run_unique hp.2 hp'.2 (head_not_digit (by decide))
        (head_not_digit (by decide)) ht'
      have hsame : r₄ = q₄ := (List.cons.inj htail).2
      rw [hr₄, hq₄] at hsame
      rw [hc, hs, hp, hsame]
    · -- without the dash every character left is a digit, and the text has a dash
      have hmem : '_' ∈ p' ++ q₃ := ht' ▸ List.mem_append_right p List.mem_cons_self
      rw [hd, hq₄] at hmem
      have hdigit : isDigit '_' = true :=
        (List.mem_append.mp hmem).elim ( hp'.2 '_') ( hsd' '_')
      exact absurd hdigit (by decide)

end PaperTrading.Mint
