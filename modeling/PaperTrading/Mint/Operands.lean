import PaperTrading.Lib.Groups
import PaperTrading.Mint.Bans
import PaperTrading.Mint.Meaning
import PaperTrading.Signals.Grouping

/-!
# The operands of a name

The mint and the parser both split a name at `&`, but trim the operands differently: the
mint strips whitespace, the parser also brackets. `operands` pairs the two texts of every
operand. An operand the mint knows has no brackets and no `|`, so the parser reads it as
one name, the atom (`parseClause_inspect`).

The atoms a name's operands are known as are gathered by indicator, family and
parameters (`groupOf`), in the order the indicators are first met (`indicators`).
-/

namespace PaperTrading.Mint

open Lib Pattern
open Signals

/-! ## What atoms are spelt with -/

/-- The characters of an atom. -/
def atomChar (c : Char) : Bool :=
  (97 ≤ c.toNat && c.toNat ≤ 122) || c = '_' || c = '<' || c = '>' || isDigit c

theorem atomChar_of_isDigit {c : Char} (h : isDigit c = true) : atomChar c = true := by
  unfold atomChar
  rw [h, Bool.or_true]

theorem spelt_digits : SpeltWith atomChar digits := .many1 fun _ => atomChar_of_isDigit

theorem spelt_pairName {front : String} (h : front.toList.all atomChar = true) :
    SpeltWith atomChar (pairName front) :=
  (SpeltWith.lit h).bind fun _ => spelt_digits.bind fun _ =>
    (SpeltWith.lit (by decide)).bind fun _ => spelt_digits.bind fun _ => .pure _

theorem spelt_wordAtom {words : List String}
    (h : (words.all fun w => w.toList.all atomChar) = true) : SpeltWith atomChar (wordAtom words) :=
  (SpeltWith.oneOf h).bind fun _ => (SpeltWith.lit (by decide)).bind fun _ =>
    spelt_digits.bind fun _ => .pure _

theorem spelt_stackName {kind : String} (h : (kind ++ "_stack").toList.all atomChar = true) :
    SpeltWith atomChar (stackName kind) := by
  refine (SpeltWith.lit h).bind fun _ => ((SpeltWith.lit (by decide)).bind fun _ =>
    .many1 fun c hc => ?_).opt
  rw [Bool.or_eq_true, decide_eq_true_eq] at hc
  rcases hc with hc | rfl
  · exact atomChar_of_isDigit hc
  · decide +kernel

theorem spelt_rsiLtName : SpeltWith atomChar rsiLtName :=
  (SpeltWith.lit (by decide)).bind fun _ => spelt_digits.bind fun _ =>
    (SpeltWith.lit (by decide)).bind fun _ =>
      (SpeltWith.lit (by decide)).opt.bind fun _ => spelt_digits.bind fun _ => .pure _

theorem spelt_rsiFullName : SpeltWith atomChar rsiFullName :=
  (SpeltWith.lit (by decide)).bind fun _ => spelt_digits.bind fun _ =>
    (SpeltWith.lit (by decide)).bind fun _ =>
      (SpeltWith.lit (by decide)).opt.bind fun _ => spelt_digits.bind fun _ =>
        ((SpeltWith.lit (by decide)).bind fun _ =>
          (SpeltWith.lit (by decide)).opt.bind fun _ => spelt_digits).opt.bind fun _ => .pure _

theorem spelt_moveAtom : SpeltWith atomChar moveAtom :=
  (SpeltWith.oneOf (by decide)).bind fun _ => (SpeltWith.lit (by decide)).bind fun _ =>
    spelt_digits.bind fun _ => (SpeltWith.lit (by decide)).bind fun _ =>
      (SpeltWith.oneOf (by decide)).bind fun _ => spelt_digits.bind fun _ =>
        (SpeltWith.lit (by decide)).bind fun _ => .pure _

theorem spelt_htfName : SpeltWith atomChar htfName :=
  (SpeltWith.oneOf (by decide)).bind fun _ => (SpeltWith.lit (by decide)).bind fun _ =>
    (SpeltWith.oneOf (by decide)).bind fun _ => (SpeltWith.lit (by decide)).bind fun _ =>
      spelt_digits.bind fun _ => .pure _

theorem spelt_bandAtom : SpeltWith atomChar bandAtom :=
  (SpeltWith.lit (by decide)).bind fun _ => (SpeltWith.oneOf (by decide)).bind fun _ =>
    (SpeltWith.lit (by decide)).bind fun _ => spelt_digits.bind fun _ =>
      (SpeltWith.lit (by decide)).bind fun _ => spelt_digits.bind fun _ => .pure _

theorem spelt_inspected {text : Text} {a : AtomParts} (h : Inspected text a) :
    ∀ c ∈ text, atomChar c = true := by
  cases h with
  | rsiFull h => exact spelt_rsiFullName.whole h
  | rsiLt _ h => exact spelt_rsiLtName.whole h
  | rsiShort _ _ h => exact (spelt_pairName (by decide)).whole h
  | move h => exact spelt_moveAtom.whole h
  | htf h => exact spelt_htfName.whole h
  | average h => exact (spelt_wordAtom (by decide)).whole h
  | smaStack h => exact (spelt_stackName (by decide)).whole h
  | emaStack h => exact (spelt_stackName (by decide)).whole h
  | level h => exact (spelt_wordAtom (by decide)).whole h
  | band h => exact spelt_bandAtom.whole h
  | volume h => exact (spelt_pairName (by decide)).whole h
  | plain _ h =>
    have hall : (PLAIN_ATOMS.all fun w => w.toList.all atomChar) = true := by decide
    have hword := List.all_eq_true.mp (List.all_eq_true.mp hall _ h)
    rwa [String.toList_ofList] at hword

/-- No separator, bracket or whitespace is in an atom. -/
theorem atomChar_false {c : Char} (h : c ∈ ['&', '|', '(', ')', ' ']) : atomChar c = false := by
  have hall : (['&', '|', '(', ')', ' '].all fun c => !atomChar c) = true := by decide
  simpa using List.all_eq_true.mp hall c h

/-! ## Operands -/

/-- The operands of `&`, each as the mint trims it and as the parser does. -/
def operands (x : Text) : List (Text × Text) :=
  if '&' ∈ strip x then ((strip x).splitOn '&').map fun r => (strip r, stripOf isBracket r)
  else [(strip x, strip x)]

theorem conjuncts_operands (x : Text) : conjuncts x = (operands x).map Prod.snd := by
  unfold operands
  split
  next h =>
    rw [conjuncts_of_mem h, List.map_map]
    rfl
  next h => rw [conjuncts_of_not_mem h, List.map_singleton]

/-- Whitespace around a text is whitespace around its first and last part. -/
theorem map_strip_splitOn {sep : Char} (hsep : isSpace sep = false) (x : Text) :
    ((strip x).splitOn sep).map strip = (x.splitOn sep).map strip := by
  obtain ⟨front, back, hx, hfront, hback⟩ := exists_stripOf isSpace x
  have hno : ∀ junk : Text, (∀ c ∈ junk, isSpace c = true) → junk.splitOn sep = [junk] := by
    intro junk hjunk
    refine List.splitOn_eq_singleton fun hin => ?_
    cases hsep.symm.trans (hjunk sep hin)
  conv_rhs => rw [hx, splitOn_append, splitOn_append, hno front hfront, hno back hback]
  have hright := map_glue_right (f := strip) (stripOf_append_right hback)
    (@glue_ne_nil _ [front] _ (List.splitOn_ne_nil sep (strip x)))
  have hleft := map_glue_left (f := strip) (stripOf_append_left hfront)
    (List.splitOn_ne_nil sep (strip x))
  exact (hright.trans hleft).symm

theorem atomsOf_operands (x : Text) :
    atomsOf x = ((operands x).map Prod.fst).filter (· ≠ []) := by
  unfold atomsOf
  rw [← map_strip_splitOn (by decide)]
  unfold operands
  split
  next _ =>
    rw [List.map_map]
    rfl
  next h => rw [List.splitOn_eq_singleton h, List.map_singleton, List.map_singleton, strip_strip]

/-- The brackets the parser strips are around the atom, or there are none. -/
theorem strip_operand {x : Text} {o : Text × Text} (ho : o ∈ operands x)
    (h : ∀ c ∈ o.1, isBracket c = false) : strip o.2 = o.1 := by
  unfold operands at ho
  split at ho
  next _ =>
    obtain ⟨r, -, rfl⟩ := List.mem_map.mp ho
    have hblank : ∀ c ∈ r, isBracket c = true → isSpace c = true := by
      intro c hc hbracket
      obtain ⟨front, back, hr, hfront, hback⟩ := exists_stripOf isSpace r
      rw [hr, List.mem_append, List.mem_append] at hc
      rcases hc with (hc | hc) | hc
      · exact hfront c hc
      · cases hbracket.symm.trans (h c hc)
      · exact hback c hc
    obtain ⟨front, back, hr, hfront, hback⟩ := exists_stripOf isBracket r
    have hin : ∀ c, c ∈ front ∨ c ∈ back → c ∈ r := by
      rintro c (hc | hc)
      · rw [hr]
        simp [hc]
      · rw [hr]
        simp [hc]
    show stripOf isSpace (stripOf isBracket r) = stripOf isSpace r
    conv_rhs => rw [hr]
    rw [stripOf_append_right fun c hc => hblank c (hin c (.inr hc)) (hback c hc),
      stripOf_append_left fun c hc => hblank c (hin c (.inl hc)) (hfront c hc)]
  next _ =>
    rw [List.mem_singleton.mp ho, strip_strip]

theorem strip_token {x : Text} {o : Text × Text} (ho : o ∈ operands x) : strip o.1 = o.1 := by
  unfold operands at ho
  split at ho
  next _ =>
    obtain ⟨r, -, rfl⟩ := List.mem_map.mp ho
    exact strip_strip r
  next _ => rw [List.mem_singleton.mp ho, strip_strip]

theorem isBracket_of_atomChar {c : Char} (h : atomChar c = true) : isBracket c = false := by
  by_contra hb
  have hmem : c ∈ ['&', '|', '(', ')', ' '] := by
    unfold isBracket at hb
    rw [Bool.not_eq_false, Bool.or_eq_true, Bool.or_eq_true, decide_eq_true_eq, decide_eq_true_eq,
      decide_eq_true_eq] at hb
    rcases hb with (rfl | rfl) | rfl <;> simp
  cases h.symm.trans (atomChar_false hmem)

/-- An operand the mint knows is one name to the parser. -/
theorem parseClause_inspect {x : Text} {o : Text × Text} {a : AtomParts} (ho : o ∈ operands x)
    (h : inspectAtom o.1 = some a) (sqrt : ℚ → ℚ) :
    parseClause sqrt o.2 = (parseName o.1 >>= fun c => pure (c.eval sqrt)) := by
  have hchars := spelt_inspected (inspected h)
  rw [strip_token ho] at hchars
  have htext : strip o.2 = o.1 := strip_operand ho fun c hc => isBracket_of_atomChar (hchars c hc)
  have hno : ∀ sep ∈ ['&', '|', '(', ')', ' '], sep ∉ strip o.2 := by
    intro sep hsep hin
    rw [htext] at hin
    cases (hchars sep hin).symm.trans (atomChar_false hsep)
  have hamp := hno '&' (by decide)
  rw [← parseStrategy_clause sqrt hamp, parseStrategy_operand sqrt hamp (hno '|' (by decide))]
  unfold parseOperand
  rw [htext]

/-- The predicate of an operand the mint knows. -/
theorem clause_inspect {x : Text} {o : Text × Text} {a : AtomParts} {sqrt : ℚ → ℚ} {p : Predicate}
    (ho : o ∈ operands x) (h : inspectAtom o.1 = some a) (hp : parseClause sqrt o.2 = .ok p) :
    p = (if a.misworded then Condition.never else a.condition).eval sqrt := by
  rw [parseClause_inspect ho h] at hp
  obtain ⟨c, hc, hp⟩ := except_bind_ok hp
  have hcond := parseName_inspect h (by rwa [strip_token ho])
  rw [← hcond]
  exact (Except.ok.inj hp).symm

/-- The predicates of a name of known atoms. -/
theorem mapM_conjuncts {x : Text} {cs : List Condition} (sqrt : ℚ → ℚ)
    (hknown : ((operands x).all fun o => (inspectAtom o.1).isSome) = true)
    (h : ((operands x).mapM fun o => parseName o.1) = .ok cs) :
    (conjuncts x).mapM (parseClause sqrt) = .ok (cs.map (Condition.eval sqrt)) := by
  have hparse : ∀ o ∈ operands x,
      parseClause sqrt o.2 = (parseName o.1 >>= fun c => pure (c.eval sqrt)) := by
    intro o ho
    obtain ⟨a, ha⟩ := Option.isSome_iff_exists.mp (List.all_eq_true.mp hknown o ho)
    exact parseClause_inspect ho ha sqrt
  rw [conjuncts_operands, List.mapM_map]
  show (operands x).mapM (fun o => parseClause sqrt o.2) = _
  rw [mapM_congr hparse]
  generalize operands x = os at h
  induction os generalizing cs with
  | nil =>
    cases h
    rfl
  | cons o os ih =>
    rw [List.mapM_cons] at h
    obtain ⟨c, hc, h⟩ := except_bind_ok h
    obtain ⟨rest, hrest, h⟩ := except_bind_ok h
    cases h
    rw [List.mapM_cons, ih hrest, hc]
    rfl

/-! ## Indicators -/

/-- The atoms of a name that the mint knows. -/
def known (x : Text) : List AtomParts := (atomsOf x).filterMap inspectAtom

/-- The atoms of a name it does not know. -/
def unknown (x : Text) : List Text := (atomsOf x).filter fun tok => (inspectAtom tok).isNone

/-- The indicators of a name, each where it was first met. -/
def indicators (x : Text) : List (String × String × List ℕ) := firstSeen ((known x).map AtomParts.key)

/-- The atoms of one indicator. -/
def groupOf (x : Text) (key : String × String × List ℕ) : List AtomParts :=
  (known x).filter fun a => a.key = key

theorem grouped_eq (x : Text) : (grouped (known x)).entries.map Prod.snd =
    (indicators x).map (groupOf x) := by
  have hentries : (groupedBy AtomParts.key (known x)).entries = _ := entries_groupedBy (known x)
  show (groupedBy AtomParts.key (known x)).entries.map Prod.snd = _
  rw [hentries, List.map_map]
  rfl

/-- The first indicator with a reason decides. -/
theorem redundantBoundReason_eq (x : Text) :
    redundantBoundReason x = (indicators x).findSome? fun k => groupBoundReason (groupOf x k) := by
  show ((grouped (known x)).entries.map Prod.snd).findSome? groupBoundReason = _
  rw [grouped_eq, List.findSome?_map]
  rfl

theorem canonicalAtoms_eq (x : Text) : canonicalAtoms x =
    sortedTexts ((indicators x).flatMap (fun k => strictRaw (groupOf x k)) ++ unknown x) := by
  show sortedTexts (((grouped (known x)).entries.map Prod.snd).flatMap strictRaw ++ unknown x) = _
  rw [grouped_eq, List.flatMap_map]

theorem inspectAtom_nil : inspectAtom [] = none := rfl

theorem known_operands (x : Text) : known x = (operands x).filterMap fun o => inspectAtom o.1 := by
  unfold known
  rw [atomsOf_operands]
  induction operands x with
  | nil => rfl
  | cons o os ih =>
    rw [List.map_cons]
    by_cases hnil : o.1 = []
    · rw [List.filter_cons_of_neg (by simp [hnil]), ih, List.filterMap_cons_none (by rw [hnil]; rfl)]
    · rw [List.filter_cons_of_pos (by simp [hnil]), List.filterMap_cons, List.filterMap_cons, ih]

theorem mem_known {x : Text} {a : AtomParts} :
    a ∈ known x ↔ ∃ o ∈ operands x, inspectAtom o.1 = some a := by
  rw [known_operands, List.mem_filterMap]

theorem mem_groupOf {x : Text} {key : String × String × List ℕ} {a : AtomParts} :
    a ∈ groupOf x key ↔ a ∈ known x ∧ a.key = key := by
  unfold groupOf
  rw [List.mem_filter, decide_eq_true_eq]

theorem mem_indicators {x : Text} {key : String × String × List ℕ} :
    key ∈ indicators x ↔ ∃ a, a ∈ groupOf x key := by
  unfold indicators
  rw [mem_firstSeen, List.mem_map]
  simp only [mem_groupOf]

end PaperTrading.Mint
