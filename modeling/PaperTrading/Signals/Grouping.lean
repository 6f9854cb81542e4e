import PaperTrading.Lib.Text
import PaperTrading.Signals.FastNames
import PaperTrading.Signals.Parse

/-!
# Brackets in a strategy text

A tree of `and` and `or` over names can be given to `parse_strategy` as nested dicts, or as
a text in brackets. The text is split at every `&` and then at every `|`, whatever brackets
they stand in, and the brackets are stripped off the parts: the names are read in the order
they stand, with each `|` before each `&` (`parseStrategy_text`).

A multi-timeframe wrapper, which is refused alone, loses its closing bracket next to an
operator and is then a name nobody knows (`Wrapper.stripped`).
-/

namespace PaperTrading.Signals

open Lib

/-! ## Trees -/

/-- A tree of `and` and `or` over names. -/
inductive Grouped where
  | name (t : Text)
  | both (a b : Grouped)
  | either (a b : Grouped)
deriving DecidableEq, Repr

namespace Grouped

/-- As nested dicts. -/
def spec : Grouped → Spec
  | .name t => .text t
  | .both a b => .both a.spec b.spec
  | .either a b => .either a.spec b.spec

/-- In brackets, with `gap` blanks around each operator. -/
def text (gap : ℕ) : Grouped → Text
  | .name t => t
  | .both a b => ['('] ++ (a.text gap ++ (List.replicate gap ' ' ++ '&' :: List.replicate gap ' ') ++
      b.text gap) ++ [')']
  | .either a b => ['('] ++ (a.text gap ++ ((List.replicate gap ' ' ++ '|' :: List.replicate gap ' ') ++
      b.text gap)) ++ [')']

def names : Grouped → List Text
  | .name t => [t]
  | .both a b => a.names ++ b.names
  | .either a b => a.names ++ b.names

/-- The names in the order they stand, split at the `and`s only. -/
def clauses : Grouped → List (List Text)
  | .name t => [[t]]
  | .both a b => a.clauses ++ b.clauses
  | .either a b => glue a.clauses b.clauses

theorem clauses_ne_nil (g : Grouped) : g.clauses ≠ [] := by
  induction g with
  | name t => exact List.cons_ne_nil _ _
  | both a b iha _ => exact List.append_ne_nil_of_left_ne_nil iha _
  | either a b _ ihb => exact glue_ne_nil ihb

theorem flatten_clauses (g : Grouped) : g.clauses.flatten = g.names := by
  induction g with
  | name t => rfl
  | both a b iha ihb => rw [clauses, List.flatten_append, iha, ihb, names]
  | either a b iha ihb =>
    rw [clauses, flatten_glue a.clauses_ne_nil b.clauses_ne_nil, iha, ihb, names]

theorem mem_clauses {g : Grouped} {t : Text} : (∃ ws ∈ g.clauses, t ∈ ws) ↔ t ∈ g.names := by
  rw [← flatten_clauses, List.mem_flatten]

end Grouped

/-! ## Texts as clauses of names -/

/-- Brackets and blanks, which the parts of a text are stripped of. -/
def isBracket (c : Char) : Bool := c = '(' || c = ')' || c = ' '

section
variable {sep : Char} {junk : Text}

theorem not_mem_junk (hsep : isBracket sep = false) (h : ∀ c ∈ junk, isBracket c = true) :
    sep ∉ junk := by
  intro hin
  cases hsep.symm.trans (h sep hin)

theorem splitParts_junk_left (hsep : isBracket sep = false) (h : ∀ c ∈ junk, isBracket c = true)
    (u : Text) : splitParts sep (junk ++ u) = splitParts sep u := by
  unfold splitParts
  rw [splitOn_append, List.splitOn_eq_singleton (not_mem_junk hsep h)]
  exact map_glue_left (stripOf_append_left h) (List.splitOn_ne_nil sep u)

theorem splitParts_junk_right (hsep : isBracket sep = false) (h : ∀ c ∈ junk, isBracket c = true)
    (u : Text) : splitParts sep (u ++ junk) = splitParts sep u := by
  unfold splitParts
  rw [splitOn_append, List.splitOn_eq_singleton (not_mem_junk hsep h)]
  exact map_glue_right (stripOf_append_right h) (List.splitOn_ne_nil sep u)

theorem splitParts_sep (hsep : isBracket sep = false) (h : ∀ c ∈ junk, isBracket c = true)
    (u v : Text) :
    splitParts sep (u ++ ((junk ++ sep :: junk) ++ v)) = splitParts sep u ++ splitParts sep v := by
  have hcut : u ++ ((junk ++ sep :: junk) ++ v) = (u ++ junk) ++ sep :: (junk ++ v) := by simp
  rw [← splitParts_junk_right hsep h u, ← splitParts_junk_left hsep h v, hcut]
  unfold splitParts
  rw [List.splitOn_append_cons_self, List.map_append]

/-- Brackets around a text do not change its parts. -/
theorem splitParts_stripped (hsep : isBracket sep = false) (t : Text) :
    splitParts sep (stripOf isBracket t) = splitParts sep t := by
  obtain ⟨front, back, ht, hfront, hback⟩ := exists_stripOf isBracket t
  conv_rhs => rw [ht]
  rw [splitParts_junk_right hsep hback, splitParts_junk_left hsep hfront]

end

/-- A text split at each `&` and then at each `|`. -/
def clausesOf (x : Text) : List (List Text) := (x.splitOn '&').map (splitParts '|')

section
variable {junk : Text}

theorem clausesOf_junk_left (h : ∀ c ∈ junk, isBracket c = true) (x : Text) :
    clausesOf (junk ++ x) = clausesOf x := by
  unfold clausesOf
  rw [splitOn_append, List.splitOn_eq_singleton (not_mem_junk (by decide) h)]
  exact map_glue_left (splitParts_junk_left (by decide) h) (List.splitOn_ne_nil '&' x)

theorem clausesOf_junk_right (h : ∀ c ∈ junk, isBracket c = true) (x : Text) :
    clausesOf (x ++ junk) = clausesOf x := by
  unfold clausesOf
  rw [splitOn_append, List.splitOn_eq_singleton (not_mem_junk (by decide) h)]
  exact map_glue_right (splitParts_junk_right (by decide) h) (List.splitOn_ne_nil '&' x)

theorem clausesOf_and (h : ∀ c ∈ junk, isBracket c = true) (x y : Text) :
    clausesOf (x ++ (junk ++ '&' :: junk) ++ y) = clausesOf x ++ clausesOf y := by
  have hcut : x ++ (junk ++ '&' :: junk) ++ y = (x ++ junk) ++ '&' :: (junk ++ y) := by simp
  rw [← clausesOf_junk_right h x, ← clausesOf_junk_left h y, hcut]
  unfold clausesOf
  rw [List.splitOn_append_cons_self, List.map_append]

theorem clausesOf_or (h : ∀ c ∈ junk, isBracket c = true) (x y : Text) :
    clausesOf (x ++ ((junk ++ '|' :: junk) ++ y)) = glue (clausesOf x) (clausesOf y) := by
  have hseam : '&' ∉ junk ++ '|' :: junk := by
    rw [List.mem_append, List.mem_cons]
    rintro (hin | hin | hin)
    · exact not_mem_junk (by decide) h hin
    · cases hin
    · exact not_mem_junk (by decide) h hin
  unfold clausesOf
  rw [splitOn_append, splitOn_append, List.splitOn_eq_singleton hseam]
  exact map_glue_seam (splitParts_sep (by decide) h) (List.splitOn_ne_nil '&' x)
    (List.splitOn_ne_nil '&' y)

end

/-- The names of the text of a tree, without the brackets at their ends. -/
theorem clausesOf_text (gap : ℕ) {g : Grouped} (h : ∀ t ∈ g.names, '&' ∉ t ∧ '|' ∉ t) :
    clausesOf (g.text gap) = g.clauses.map (List.map (stripOf isBracket)) := by
  have hblanks : ∀ c ∈ List.replicate gap ' ', isBracket c = true := by
    intro c hc
    rw [List.eq_of_mem_replicate hc]
    decide
  have hopen : ∀ c ∈ ['('], isBracket c = true := List.forall_mem_singleton.mpr (by decide)
  have hclose : ∀ c ∈ [')'], isBracket c = true := List.forall_mem_singleton.mpr (by decide)
  induction g with
  | name t =>
    obtain ⟨hamp, hbar⟩ := h t (List.mem_singleton_self t)
    unfold clausesOf splitParts
    rw [Grouped.text, List.splitOn_eq_singleton hamp, List.map_singleton,
      List.splitOn_eq_singleton hbar]
    rfl
  | both a b iha ihb =>
    rw [Grouped.text, clausesOf_junk_right hclose, clausesOf_junk_left hopen, clausesOf_and hblanks,
      iha fun t ht => h t (List.mem_append_left _ ht),
      ihb fun t ht => h t (List.mem_append_right _ ht), Grouped.clauses, List.map_append]
  | either a b iha ihb =>
    rw [Grouped.text, clausesOf_junk_right hclose, clausesOf_junk_left hopen, clausesOf_or hblanks,
      iha fun t ht => h t (List.mem_append_left _ ht),
      ihb fun t ht => h t (List.mem_append_right _ ht), Grouped.clauses,
      map_glue _ a.clauses_ne_nil b.clauses_ne_nil]

/-! ## What the parser makes of the clauses -/

/-- The whitespace of the text is blanks. -/
def BlanksOnly (x : Text) : Prop := ∀ c ∈ x, isSpace c = true → c = ' '

theorem blanksOnly_of_all {x : Text} (h : (x.all fun c => !isSpace c || c = ' ') = true) :
    BlanksOnly x := by
  intro c hc hspace
  have hone := List.all_eq_true.mp h c hc
  rw [hspace, Bool.not_true, Bool.false_or] at hone
  exact of_decide_eq_true hone

section
variable {sqrt : ℚ → ℚ} {x : Text}

/-- An `any` of the names of each clause, and an `all` of those. -/
def parseWords (sqrt : ℚ → ℚ) (cs : List (List Text)) : Except String Predicate := do
  let clauses ← cs.mapM fun ws => do
    let preds ← ws.mapM (parseOperand sqrt)
    pure (anyPreds preds)
  pure (allPreds clauses)

theorem strip_stripOf (h : BlanksOnly x) : strip (stripOf isBracket x) = stripOf isBracket x := by
  have hkept : stripOf isBracket (stripOf isBracket x) = stripOf isBracket x := stripOf_stripOf _ x
  have hno : ∀ c ∈ stripOf isBracket x, isBracket c = false → isSpace c = false := by
    intro c hc hbracket
    by_contra hspace
    rw [h c (stripOf_subset _ _ hc) (by simpa using hspace)] at hbracket
    cases hbracket
  refine stripOf_eq_self (fun c hc => ?_) fun c hc => ?_
  · exact hno c (List.mem_of_mem_head? hc) (head_of_stripOf hkept hc)
  · exact hno c (List.mem_of_mem_getLast? hc) (last_of_stripOf hkept hc)

/-- The operands of a part of the text, which was stripped. -/
theorem disjuncts_stripped (hamp : '&' ∉ x) (h : BlanksOnly x) :
    disjuncts (stripOf isBracket x) = splitParts '|' x := by
  have hamp' : '&' ∉ strip (stripOf isBracket x) := by
    rw [strip_stripOf h]
    exact fun hin => hamp (stripOf_subset _ _ hin)
  by_cases hbar : '|' ∈ strip (stripOf isBracket x)
  · rw [disjuncts_of_mem hamp' hbar, strip_stripOf h, splitParts_stripped (by decide)]
  · rw [disjuncts_of_not_mem hamp' hbar, ← splitParts_stripped (by decide) x]
    rw [strip_stripOf h] at hbar ⊢
    unfold splitParts
    rw [List.splitOn_eq_singleton hbar, List.map_singleton]
    exact congrArg (fun u => [u]) (stripOf_stripOf isBracket x).symm

/-- A text with an operator is read clause by clause. -/
theorem parseStrategy_words (hstrip : strip x = x) (h : BlanksOnly x) (hsep : '&' ∈ x ∨ '|' ∈ x) :
    parseStrategy sqrt x = parseWords sqrt (clausesOf x) := by
  rw [parseStrategy_clauses]
  unfold parseWords clausesOf
  by_cases hamp : '&' ∈ x
  · rw [conjuncts_of_mem (by rwa [hstrip]), hstrip]
    unfold splitParts
    rw [List.mapM_map, List.mapM_map]
    congr 1
    refine mapM_congr fun piece hpiece => ?_
    have hpiece' : '&' ∉ piece := fun hin => (mem_splitOn hpiece hin).2 rfl
    have hblanks : BlanksOnly piece := fun c hc => h c (mem_splitOn hpiece hc).1
    show parseClause sqrt (stripOf isBracket piece) = _
    unfold parseClause
    rw [disjuncts_stripped hpiece' hblanks]
    rfl
  · have hbar : '|' ∈ x := hsep.resolve_left hamp
    rw [conjuncts_of_not_mem (by rwa [hstrip]), hstrip, List.splitOn_eq_singleton hamp,
      List.map_singleton]
    unfold parseClause
    simp only [List.mapM_cons, List.mapM_nil]
    rw [disjuncts_of_mem (by rwa [hstrip]) (by rwa [hstrip]), hstrip]

end

/-! ## Names -/

/-- A multi-timeframe wrapper such as `daily(…)`. -/
def Wrapper (t : Text) : Prop := ∃ x, mtfRule t = some x

/-- A name: no operator, no space but blanks inside, and no bracket but a wrapper's. -/
structure IsName (t : Text) : Prop where
  operators : '&' ∉ t ∧ '|' ∉ t
  trimmed : strip t = t
  blanks : BlanksOnly t
  brackets : ('(' ∉ t ∧ ')' ∉ t) ∨ Wrapper t

def MTF_OPENINGS : List Text :=
  [['d', 'a', 'i'], ['h', '1', '('], ['m', '5', '('], ['1', 'd', '('], ['4', 'h', '('], ['1', '5', 'm']]

theorem mtf_family : ∀ o ∈ MTF_OPENINGS,
    (NAME_OPENINGS.filter fun r => o ∈ r.2).map Prod.fst = [mtfRule] := by
  intro o ho
  simp only [MTF_OPENINGS, List.mem_cons, List.not_mem_nil, or_false] at ho
  rcases ho with rfl | rfl | rfl | rfl | rfl | rfl <;> rfl

section
variable {sqrt : ℚ → ℚ} {t : Text}

theorem Wrapper.opening (h : Wrapper t) : t.take 3 ∈ MTF_OPENINGS := by
  obtain ⟨x, hx⟩ := h
  exact name_openings t (mtfRule, MTF_OPENINGS) (by simp [NAME_OPENINGS, MTF_OPENINGS]) x hx

/-- A wrapper ends in its bracket. -/
theorem Wrapper.getLast (h : Wrapper t) : t.getLast? = some ')' := by
  obtain ⟨x, hx⟩ := h
  obtain ⟨m, hm, -⟩ := Option.map_eq_some_iff.mp hx
  have hends : Pattern.EndsWith ")" mtfName :=
    .bind (Pattern.oneOf_leavesRest _) fun tf => .bind (Pattern.lit_leavesRest "(") fun _ =>
      .bind (Pattern.many_leavesRest _) fun _ => Pattern.lit_endsWith ")" tf
  obtain ⟨front, rfl⟩ := hends.suffix hm
  exact List.getLast?_concat

/-- Alone a wrapper is refused. -/
theorem Wrapper.refused (h : Wrapper t) (hname : IsName t) :
    ∃ e, parseStrategy sqrt t = .error e := by
  obtain ⟨x, hx⟩ := h
  have hparse : parseName t = x := parseName_of_rule mtfRule MTF_OPENINGS [] []
    (by simp [NAME_OPENINGS, MTF_OPENINGS]) mtf_family (by simp) hx
  obtain ⟨e, rfl⟩ : ∃ e, x = .error e := by
    obtain ⟨m, -, rfl⟩ := Option.map_eq_some_iff.mp hx
    exact ⟨_, rfl⟩
  rw [parseStrategy_operand sqrt (by rw [hname.trimmed]; exact hname.operators.1)
    (by rw [hname.trimmed]; exact hname.operators.2)]
  unfold parseOperand
  rw [hname.trimmed, hparse]
  exact ⟨e, rfl⟩

/-- Without its last bracket it is a name nobody knows. -/
theorem Wrapper.stripped (h : Wrapper t) : parseName (stripOf isBracket t) = .ok .never := by
  obtain ⟨u, hu⟩ : ∃ u, stripOf isBracket t = u := ⟨_, rfl⟩
  have hpre : u <+: t := by
    have hfront : t.dropWhile isBracket = t := by
      have hopen := h.opening
      rw [List.dropWhile_eq_self_iff]
      intro hlen hbracket
      obtain ⟨c, t, rfl⟩ := List.exists_cons_of_length_pos hlen
      have hbracket : isBracket c = true := hbracket
      simp only [MTF_OPENINGS, List.take_succ_cons, List.mem_cons, List.cons.injEq,
        List.not_mem_nil, or_false] at hopen
      rcases hopen with ⟨rfl, -⟩ | ⟨rfl, -⟩ | ⟨rfl, -⟩ | ⟨rfl, -⟩ | ⟨rfl, -⟩ | ⟨rfl, -⟩ <;>
        exact absurd hbracket (by decide)
    rw [← hu]
    unfold stripOf
    rw [hfront]
    exact List.rdropWhile_prefix _ _
  have hnone : mtfRule u = none := by
    by_contra hsome
    have hlast := Wrapper.getLast (Option.ne_none_iff_exists'.mp hsome)
    rw [← hu] at hlast
    exact absurd (last_of_stripOf (stripOf_stripOf isBracket t) hlast) (by decide)
  rw [hu, parseName_opening rfl]
  by_cases hlen : 3 ≤ u.length
  · have htake : u.take 3 = t.take 3 := by
      obtain ⟨rest, rfl⟩ := hpre
      exact (List.take_append_of_le_length hlen).symm
    rw [htake, mtf_family _ h.opening, firstRule_cons, hnone]
    rfl
  · have hfamily : NAME_OPENINGS.filter (fun r => u.take 3 ∈ r.2) = [] := by
      rw [List.filter_eq_nil_iff]
      intro r hr hin
      have hthree : ∀ os ∈ NAME_OPENINGS.map Prod.snd, ∀ o ∈ os, o.length = 3 := by decide
      have := hthree r.2 (List.mem_map_of_mem hr) _ (of_decide_eq_true hin)
      rw [List.length_take] at this
      omega
    rw [hfamily]
    rfl

theorem IsName.parseOperand_eq (h : IsName t) : parseOperand sqrt t = parseStrategy sqrt t :=
  (parseStrategy_operand sqrt (by rw [h.trimmed]; exact h.operators.1)
    (by rw [h.trimmed]; exact h.operators.2)).symm

/-- A name without brackets loses nothing. -/
theorem IsName.stripped (h : IsName t) (hno : ¬ Wrapper t) : stripOf isBracket t = t := by
  obtain ⟨hopen, hclose⟩ := h.brackets.resolve_right hno
  have hkept : ∀ c ∈ t, isSpace c = false → isBracket c = false := by
    intro c hc hspace
    unfold isBracket
    rw [Bool.or_eq_false_iff, Bool.or_eq_false_iff]
    refine ⟨⟨decide_eq_false fun heq => hopen (heq ▸ hc),
      decide_eq_false fun heq => hclose (heq ▸ hc)⟩, decide_eq_false fun heq => ?_⟩
    rw [heq] at hspace
    cases hspace
  exact stripOf_eq_self
    (fun c hc => hkept c (List.mem_of_mem_head? hc) (head_of_stripOf h.trimmed hc))
    fun c hc => hkept c (List.mem_of_mem_getLast? hc) (last_of_stripOf h.trimmed hc)

end

/-! ## The text of a tree -/

section
variable {sqrt : ℚ → ℚ} {gap : ℕ}

theorem blanksOnly_text {g : Grouped} (h : ∀ t ∈ g.names, IsName t) : BlanksOnly (g.text gap) := by
  have hgap : BlanksOnly (List.replicate gap ' ') := fun c hc _ => List.eq_of_mem_replicate hc
  have happend : ∀ {x y : Text}, BlanksOnly x → BlanksOnly y → BlanksOnly (x ++ y) :=
    fun hx hy c hc => (List.mem_append.mp hc).elim (hx c) (hy c)
  have hsingle : ∀ {d : Char}, isSpace d = false → BlanksOnly [d] := by
    intro d hd c hc hspace
    rw [List.mem_singleton.mp hc, hd] at hspace
    cases hspace
  have hseam : ∀ {d : Char}, isSpace d = false →
      BlanksOnly (List.replicate gap ' ' ++ d :: List.replicate gap ' ') :=
    fun hd => happend hgap (happend (hsingle hd) hgap)
  induction g with
  | name t => exact (h t (List.mem_singleton_self t)).blanks
  | both a b iha ihb =>
    have iha := iha fun t ht => h t (List.mem_append_left _ ht)
    have ihb := ihb fun t ht => h t (List.mem_append_right _ ht)
    exact happend (happend (hsingle (by decide)) (happend (happend iha (hseam (by decide))) ihb))
      (hsingle (by decide))
  | either a b iha ihb =>
    have iha := iha fun t ht => h t (List.mem_append_left _ ht)
    have ihb := ihb fun t ht => h t (List.mem_append_right _ ht)
    exact happend (happend (hsingle (by decide)) (happend iha (happend (hseam (by decide)) ihb)))
      (hsingle (by decide))

theorem strip_bracketed (x : Text) : strip (['('] ++ x ++ [')']) = ['('] ++ x ++ [')'] := by
  refine stripOf_eq_self (fun c hc => ?_) fun c hc => ?_
  · cases hc
    decide
  · rw [List.getLast?_concat] at hc
    cases hc
    decide

/-- The text of a tree with an operator is read as clauses of names. -/
theorem parseStrategy_text {g : Grouped} (h : ∀ t ∈ g.names, IsName t)
    (hop : ∀ t, g ≠ .name t) :
    parseStrategy sqrt (g.text gap) =
      parseWords sqrt (g.clauses.map (List.map (stripOf isBracket))) := by
  rw [← clausesOf_text gap fun t ht => (h t ht).operators]
  cases g with
  | name t => exact absurd rfl (hop t)
  | both a b => exact parseStrategy_words (strip_bracketed _) (blanksOnly_text h) (.inl (by simp [Grouped.text]))
  | either a b => exact parseStrategy_words (strip_bracketed _) (blanksOnly_text h) (.inr (by simp [Grouped.text]))

/-! ## What is refused, and what is true -/

def Refused (sqrt : ℚ → ℚ) (t : Text) : Prop := ∃ e, parseStrategy sqrt t = .error e

/-- The predicate of a name, if it has one. -/
def truthOf (sqrt : ℚ → ℚ) (t : Text) : Predicate :=
  match parseStrategy sqrt t with
  | .ok p => p
  | .error _ => Condition.eval sqrt .never

/-- The truth of the tree, node by node. -/
def Grouped.truth (v : Text → Predicate) : Grouped → Predicate
  | .name t => v t
  | .both a b => allPreds [a.truth v, b.truth v]
  | .either a b => anyPreds [a.truth v, b.truth v]

/-- The truth of the names in the order they stand, with each `|` before each `&`. -/
def Grouped.flatTruth (v : Text → Predicate) (g : Grouped) : Predicate :=
  allPreds (g.clauses.map fun ws => anyPreds (ws.map v))

theorem parseStrategy_of_not_refused {t : Text} (h : ¬ Refused sqrt t) :
    parseStrategy sqrt t = .ok (truthOf sqrt t) := by
  unfold truthOf
  cases hparse : parseStrategy sqrt t with
  | ok p => rfl
  | error e => exact absurd ⟨e, hparse⟩ h

/-- What a name next to an operator is read as. -/
theorem IsName.operand {t : Text} (h : IsName t) (sqrt : ℚ → ℚ) :
    (∃ e, parseOperand sqrt (stripOf isBracket t) = .error e) ↔ ¬ Wrapper t ∧ Refused sqrt t := by
  by_cases hw : Wrapper t
  · unfold parseOperand
    rw [strip_stripOf h.blanks, hw.stripped]
    constructor
    · rintro ⟨e, he⟩
      cases he
    · rintro ⟨hno, -⟩
      exact absurd hw hno
  · rw [h.stripped hw, h.parseOperand_eq]
    exact ⟨fun herr => ⟨hw, herr⟩, fun herr => herr.2⟩

theorem refused_text {g : Grouped} (h : ∀ t ∈ g.names, IsName t) (hop : ∀ t, g ≠ .name t) :
    (∃ e, parseStrategy sqrt (g.text gap) = .error e) ↔
      ∃ t ∈ g.names, ¬ Wrapper t ∧ Refused sqrt t := by
  have hmap : ∀ {α β : Type} {x : Except String α} {f : α → β},
      (∃ e, (x >>= fun a => pure (f a)) = .error e) ↔ ∃ e, x = .error e := by
    intro α β x f
    cases x with
    | error e => exact ⟨fun _ => ⟨e, rfl⟩, fun _ => ⟨e, rfl⟩⟩
    | ok a => exact ⟨fun ⟨e, he⟩ => (by cases he), fun ⟨e, he⟩ => (by cases he)⟩
  rw [parseStrategy_text h hop]
  unfold parseWords
  rw [hmap, List.mapM_map, mapM_error_iff]
  simp only [Function.comp_apply, hmap, List.mapM_map, mapM_error_iff]
  constructor
  · rintro ⟨ws, hws, t, ht, herr⟩
    have hin := Grouped.mem_clauses.mp ⟨ws, hws, ht⟩
    exact ⟨t, hin, ((h t hin).operand sqrt).mp herr⟩
  · rintro ⟨t, hin, herr⟩
    obtain ⟨ws, hws, ht⟩ := Grouped.mem_clauses.mpr hin
    exact ⟨ws, hws, t, ht, ((h t hin).operand sqrt).mpr herr⟩

theorem parseStrategy_text_ok {g : Grouped} (h : ∀ t ∈ g.names, IsName t) (hop : ∀ t, g ≠ .name t)
    (hok : ∀ t ∈ g.names, ¬ Refused sqrt t) :
    parseStrategy sqrt (g.text gap) = .ok (g.flatTruth (truthOf sqrt)) := by
  rw [parseStrategy_text h hop]
  unfold parseWords
  rw [List.mapM_map, mapM_of_ok (g := fun ws => anyPreds (ws.map (truthOf sqrt)))]
  · rfl
  · intro ws hws
    rw [Function.comp_apply, List.mapM_map, mapM_of_ok (g := truthOf sqrt)]
    · rfl
    · intro t ht
      have hin := Grouped.mem_clauses.mp ⟨ws, hws, ht⟩
      have hno : ¬ Wrapper t := fun hw => hok t hin (hw.refused (h t hin))
      rw [Function.comp_apply, (h t hin).stripped hno, (h t hin).parseOperand_eq]
      exact parseStrategy_of_not_refused (hok t hin)

theorem parseSpec_ok {g : Grouped} (hok : ∀ t ∈ g.names, ¬ Refused sqrt t) :
    parseSpec sqrt g.spec = .ok (g.truth (truthOf sqrt)) := by
  induction g with
  | name t => exact parseStrategy_of_not_refused (hok t (List.mem_singleton_self t))
  | both a b iha ihb =>
    rw [Grouped.spec, parseSpec, iha fun t ht => hok t (List.mem_append_left _ ht),
      ihb fun t ht => hok t (List.mem_append_right _ ht)]
    rfl
  | either a b iha ihb =>
    rw [Grouped.spec, parseSpec, iha fun t ht => hok t (List.mem_append_left _ ht),
      ihb fun t ht => hok t (List.mem_append_right _ ht)]
    rfl

end

end PaperTrading.Signals
