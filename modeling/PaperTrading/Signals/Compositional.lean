import PaperTrading.Signals.Grouping

/-!
# Texts and dicts of one strategy

`parse_strategy_compositional` says for which trees of `and` and `or` the text in brackets
comes to the same as the nested dicts: `compositional_iff` tree by tree, and by shape, since
an `and` under an `or` is read wrongly for some names (`exists_apart`) and no other tree is
(`Layered.flatTruth_eq`).
-/

namespace PaperTrading.Signals

open Lib

/-! ## Which trees come to the same -/

/-- The text gives the predicate of the dicts at every bar of every series, and is refused
when one of the names is refused alone. -/
structure Compositional (sqrt : ℚ → ℚ) (gap : ℕ) (g : Grouped) : Prop where
  agree : ∀ p q, parseStrategy sqrt (g.text gap) = .ok p → parseSpec sqrt g.spec = .ok q →
    ∀ (s : Ohlc) (i : ℕ), i < s.closes.length → p s i = q s i
  refused : (∃ e, parseStrategy sqrt (g.text gap) = .error e) ↔ ∃ t ∈ g.names, Refused sqrt t

/-- Reading each `|` before each `&` makes no difference to the tree. -/
def ReadsAlike (sqrt : ℚ → ℚ) (g : Grouped) : Prop :=
  ∀ (s : Ohlc) (i : ℕ), i < s.closes.length →
    g.flatTruth (truthOf sqrt) s i = g.truth (truthOf sqrt) s i

namespace Grouped

/-- No `and` in the tree. -/
def OrsOnly : Grouped → Prop
  | .name _ => True
  | .both _ _ => False
  | .either a b => a.OrsOnly ∧ b.OrsOnly

/-- No `and` under an `or`. -/
def Layered : Grouped → Prop
  | .name _ => True
  | .both a b => a.Layered ∧ b.Layered
  | .either a b => a.OrsOnly ∧ b.OrsOnly

/-- The same tree over other names. -/
inductive SameShape : Grouped → Grouped → Prop
  | name (t u : Text) : SameShape (.name t) (.name u)
  | both {a b c d : Grouped} : SameShape a c → SameShape b d → SameShape (.both a b) (.both c d)
  | either {a b c d : Grouped} :
    SameShape a c → SameShape b d → SameShape (.either a b) (.either c d)

end Grouped

section
variable {sqrt : ℚ → ℚ} {gap : ℕ}

theorem compositional_iff {g : Grouped} (h : ∀ t ∈ g.names, IsName t) :
    Compositional sqrt gap g ↔ (∃ t, g = .name t) ∨
      (∃ t ∈ g.names, ¬ Wrapper t ∧ Refused sqrt t) ∨
      ((∀ t ∈ g.names, ¬ Refused sqrt t) ∧ ReadsAlike sqrt g) := by
  by_cases hname : ∃ t, g = .name t
  · refine ⟨fun _ => .inl hname, fun _ => ?_⟩
    obtain ⟨t, rfl⟩ := hname
    refine ⟨fun p q hp hq s i _ => ?_, ?_⟩
    · rw [show p = q from Except.ok.inj (hp.symm.trans hq)]
    · show Refused sqrt t ↔ _
      rw [Grouped.names]
      simp
  · have hop : ∀ t, g ≠ .name t := fun t heq => hname ⟨t, heq⟩
    constructor
    · intro hcomp
      by_cases hall : ∀ t ∈ g.names, ¬ Refused sqrt t
      · exact .inr (.inr ⟨hall, hcomp.agree _ _ (parseStrategy_text_ok h hop hall)
          (parseSpec_ok hall)⟩)
      · push Not at hall
        exact .inr (.inl ((refused_text h hop).mp (hcomp.refused.mpr hall)))
    · rintro (hname' | hrefused | ⟨hall, halike⟩)
      · exact absurd hname' hname
      · have herr : ∃ e, parseStrategy sqrt (g.text gap) = .error e :=
          (refused_text h hop).mpr hrefused
        refine ⟨fun p q hp => ?_, fun _ => ?_, fun _ => herr⟩
        · obtain ⟨e, he⟩ := herr
          cases hp.symm.trans he
        · obtain ⟨t, ht, -, hr⟩ := hrefused
          exact ⟨t, ht, hr⟩
      · refine ⟨fun p q hp hq => ?_, fun herr => ?_, fun hrefused => ?_⟩
        · obtain rfl := Except.ok.inj ((parseStrategy_text_ok h hop hall).symm.trans hp)
          obtain rfl := Except.ok.inj ((parseSpec_ok hall).symm.trans hq)
          exact halike
        · obtain ⟨e, he⟩ := herr
          cases (parseStrategy_text_ok h hop hall).symm.trans he
        · obtain ⟨t, ht, hr⟩ := hrefused
          exact absurd hr (hall t ht)

end

/-! ## Trees with no `and` under an `or` -/

section
variable {v : Text → Predicate}

theorem allPreds_append (ps qs : List Predicate) :
    allPreds (ps ++ qs) = allPreds [allPreds ps, allPreds qs] := by
  funext s i
  unfold allPreds
  rw [List.map_append]
  exact stopAt_append_pair _

theorem anyPreds_append (ps qs : List Predicate) :
    anyPreds (ps ++ qs) = anyPreds [anyPreds ps, anyPreds qs] := by
  funext s i
  unfold anyPreds
  rw [List.map_append]
  exact stopAt_append_pair _

namespace Grouped

theorem OrsOnly.flat {g : Grouped} (h : g.OrsOnly) :
    g.clauses = [g.names] ∧ g.truth v = anyPreds (g.names.map v) := by
  induction g with
  | name t => exact ⟨rfl, (anyPreds_singleton (v t)).symm⟩
  | both a b => cases h
  | either a b iha ihb =>
    obtain ⟨ha, hta⟩ := iha h.1
    obtain ⟨hb, htb⟩ := ihb h.2
    constructor
    · rw [clauses, ha, hb]
      exact glue_concat [] a.names b.names []
    · rw [truth, hta, htb, names, List.map_append, anyPreds_append]

theorem Layered.flatTruth_eq {g : Grouped} (h : g.Layered) : g.flatTruth v = g.truth v := by
  induction g with
  | name t =>
    show allPreds [anyPreds [v t]] = v t
    rw [allPreds_singleton, anyPreds_singleton]
  | both a b iha ihb =>
    rw [truth, ← iha h.1, ← ihb h.2]
    unfold flatTruth
    rw [clauses, List.map_append, allPreds_append]
  | either a b =>
    have hflat := OrsOnly.flat (g := .either a b) (v := v) h
    unfold flatTruth
    rw [hflat.2, hflat.1, List.map_singleton, allPreds_singleton]

/-! ## Trees with an `and` under an `or` -/

/-- The truth of the tree where its names are true or false. -/
def holds (f : Text → Bool) : Grouped → Bool
  | .name t => f t
  | .both a b => a.holds f && b.holds f
  | .either a b => a.holds f || b.holds f

section
variable {f : Text → Bool} {s : Ohlc} {i : ℕ}

theorem truth_holds {g : Grouped} (hv : ∀ t ∈ g.names, v t s i = .ok (f t)) :
    g.truth v s i = .ok (g.holds f) := by
  induction g with
  | name t => exact hv t (List.mem_singleton_self t)
  | both a b iha ihb =>
    have iha := iha fun t ht => hv t (List.mem_append_left _ ht)
    have ihb := ihb fun t ht => hv t (List.mem_append_right _ ht)
    show stopAt false [a.truth v s i, b.truth v s i] = _
    rw [iha, ihb, holds]
    cases a.holds f <;> cases b.holds f <;> rfl
  | either a b iha ihb =>
    have iha := iha fun t ht => hv t (List.mem_append_left _ ht)
    have ihb := ihb fun t ht => hv t (List.mem_append_right _ ht)
    show stopAt true [a.truth v s i, b.truth v s i] = _
    rw [iha, ihb, holds]
    cases a.holds f <;> cases b.holds f <;> rfl

/-- A clause with no true name makes the flat reading false. -/
theorem flatTruth_false {g : Grouped} (hv : ∀ t ∈ g.names, v t s i = .ok (f t))
    (h : ∃ ws ∈ g.clauses, ∀ t ∈ ws, f t = false) : g.flatTruth v s i = .ok false := by
  have hany : ∀ ws ∈ g.clauses, anyPreds (ws.map v) s i = .ok (decide (true ∈ ws.map f)) := by
    intro ws hws
    have hok : (ws.map v).map (fun p => p s i) = (ws.map f).map Except.ok := by
      rw [List.map_map, List.map_map]
      exact List.map_congr_left fun t ht => hv t (mem_clauses.mp ⟨ws, hws, ht⟩)
    unfold anyPreds anyOf
    rw [hok, stopAt_map_ok]
    by_cases hin : true ∈ ws.map f <;> simp [hin]
  have hall : (g.clauses.map fun ws => anyPreds (ws.map v)).map (fun p => p s i) =
      (g.clauses.map fun ws => decide (true ∈ ws.map f)).map Except.ok := by
    rw [List.map_map, List.map_map]
    exact List.map_congr_left hany
  obtain ⟨ws, hws, hno⟩ := h
  have hfalse : false ∈ g.clauses.map fun ws => decide (true ∈ ws.map f) := by
    refine List.mem_map.mpr ⟨ws, hws, decide_eq_false fun hin => ?_⟩
    obtain ⟨t, ht, htrue⟩ := List.mem_map.mp hin
    cases (hno t ht).symm.trans htrue
  unfold flatTruth allPreds allOf
  rw [hall, stopAt_map_ok, if_pos hfalse]

end

/-- The tree with one name in every place. -/
def fill (t : Text) : Grouped → Grouped
  | .name _ => .name t
  | .both a b => .both (a.fill t) (b.fill t)
  | .either a b => .either (a.fill t) (b.fill t)

theorem sameShape_fill (t : Text) (g : Grouped) : SameShape g (g.fill t) := by
  induction g with
  | name u => exact .name u t
  | both a b iha ihb => exact .both iha ihb
  | either a b iha ihb => exact .either iha ihb

theorem names_fill (t : Text) (g : Grouped) : ∀ u ∈ (g.fill t).names, u = t := by
  induction g with
  | name u => exact fun u hu => List.mem_singleton.mp hu
  | both a b iha ihb => exact fun u hu => (List.mem_append.mp hu).elim (iha u) (ihb u)
  | either a b iha ihb => exact fun u hu => (List.mem_append.mp hu).elim (iha u) (ihb u)

theorem holds_fill (f : Text → Bool) (t : Text) (g : Grouped) : (g.fill t).holds f = f t := by
  induction g with
  | name u => rfl
  | both a b iha ihb => rw [fill, holds, iha, ihb, Bool.and_self]
  | either a b iha ihb => rw [fill, holds, iha, ihb, Bool.or_self]

/-- A tree with an `and` has two clauses, however its names are called. -/
theorem two_clauses_fill {g : Grouped} (h : ¬ g.OrsOnly) (t : Text) :
    2 ≤ (g.fill t).clauses.length := by
  have hpos : ∀ g : Grouped, 1 ≤ g.clauses.length := fun g =>
    List.length_pos_of_ne_nil g.clauses_ne_nil
  induction g with
  | name u => exact absurd trivial h
  | both a b =>
    rw [fill, clauses, List.length_append]
    have ha := hpos (a.fill t)
    have hb := hpos (b.fill t)
    omega
  | either a b iha ihb =>
    have hglue := length_glue (a.fill t).clauses_ne_nil (b.fill t).clauses_ne_nil
    have ha := hpos (a.fill t)
    have hb := hpos (b.fill t)
    rw [fill, clauses]
    by_cases hors : a.OrsOnly
    · have := ihb fun hb => h ⟨hors, hb⟩
      omega
    · have := iha hors
      omega

/-- **An `and` under an `or`.** Some names make the tree true and a clause of it false. -/
theorem exists_apart {g : Grouped} (h : ¬ g.Layered) (f : Text → Bool) (yes no : Text)
    (hyes : f yes = true) (hno : f no = false) :
    ∃ k, SameShape g k ∧ (∀ t ∈ k.names, t = yes ∨ t = no) ∧ k.holds f = true ∧
      ∃ ws ∈ k.clauses, ∀ t ∈ ws, f t = false := by
  have hfalse : ∀ (g : Grouped), ∀ ws ∈ (g.fill no).clauses, ∀ t ∈ ws, f t = false := by
    intro g ws hws t ht
    rw [names_fill no g t (mem_clauses.mp ⟨ws, hws, ht⟩), hno]
  have hnames : ∀ {a b : Grouped}, (∀ t ∈ a.names, t = yes ∨ t = no) →
      (∀ t ∈ b.names, t = yes ∨ t = no) → ∀ t ∈ a.names ++ b.names, t = yes ∨ t = no :=
    fun ha hb t ht => (List.mem_append.mp ht).elim (ha t) (hb t)
  induction g with
  | name t => exact absurd trivial h
  | both a b iha ihb =>
    by_cases ha : a.Layered
    · obtain ⟨k, hshape, hk, hholds, ws, hws, hall⟩ := ihb fun hb => h ⟨ha, hb⟩
      refine ⟨.both (a.fill yes) k, .both (sameShape_fill yes a) hshape,
        hnames (fun t ht => .inl (names_fill yes a t ht)) hk, ?_, ws, List.mem_append_right _ hws, hall⟩
      rw [holds, holds_fill, hyes, hholds]
      rfl
    · obtain ⟨k, hshape, hk, hholds, ws, hws, hall⟩ := iha ha
      refine ⟨.both k (b.fill yes), .both hshape (sameShape_fill yes b),
        hnames hk (fun t ht => .inl (names_fill yes b t ht)), ?_, ws, List.mem_append_left _ hws, hall⟩
      rw [holds, holds_fill, hyes, hholds]
      rfl
  | either a b =>
    by_cases ha : a.OrsOnly
    · -- the `and` stands on the right: its last clause has none of the left names
      have hb : ¬ b.OrsOnly := fun hb => h ⟨ha, hb⟩
      refine ⟨.either (a.fill yes) (b.fill no), .either (sameShape_fill yes a) (sameShape_fill no b),
        hnames (fun t ht => .inl (names_fill yes a t ht)) (fun t ht => .inr (names_fill no b t ht)),
        ?_, ?_⟩
      · rw [holds, holds_fill, hyes, Bool.true_or]
      · have hlen := two_clauses_fill hb no
        obtain ⟨us, u, hus⟩ := (List.eq_nil_or_concat _).resolve_left (a.fill yes).clauses_ne_nil
        cases hclauses : (b.fill no).clauses with
        | nil => exact absurd hclauses (clauses_ne_nil _)
        | cons w ws =>
          cases ws with
          | nil =>
            rw [hclauses] at hlen
            exact absurd hlen (by simp)
          | cons w' ws =>
            refine ⟨w', ?_, hfalse b w' (by rw [hclauses]; simp)⟩
            rw [clauses, hus, hclauses, List.concat_eq_append, glue_concat]
            simp
    · -- it stands on the left: its first clause has none of the right names
      refine ⟨.either (a.fill no) (b.fill yes), .either (sameShape_fill no a) (sameShape_fill yes b),
        hnames (fun t ht => .inr (names_fill no a t ht)) (fun t ht => .inl (names_fill yes b t ht)),
        ?_, ?_⟩
      · rw [holds, holds_fill, holds_fill, hyes, Bool.or_true]
      · have hlen := two_clauses_fill ha no
        obtain ⟨us, u, hus⟩ := (List.eq_nil_or_concat _).resolve_left (a.fill no).clauses_ne_nil
        obtain ⟨w, ws, hb⟩ := List.exists_cons_of_ne_nil (b.fill yes).clauses_ne_nil
        cases us with
        | nil =>
          rw [hus] at hlen
          exact absurd hlen (by simp)
        | cons u' us =>
          refine ⟨u', ?_, hfalse a u' (by rw [hus]; simp)⟩
          rw [clauses, hus, hb, List.concat_eq_append, glue_concat]
          simp

end Grouped

end

/-! ## A true name and a false one -/

/-- `mom_1b_gt_1` -/
def RISE : Text := ['m', 'o', 'm', '_', '1', 'b', '_', 'g', 't', '_', '1']

/-- `dip_1b_lt_1` -/
def FALL : Text := ['d', 'i', 'p', '_', '1', 'b', '_', 'l', 't', '_', '1']

/-- The close doubles. -/
def upSeries : Ohlc where
  closes := [2, 4]
  highs := [2, 4]
  lows := [2, 4]
  highs_length := rfl
  lows_length := rfl

theorem isName_rise : IsName RISE where
  operators := by decide
  trimmed := by decide
  blanks := blanksOnly_of_all (by decide)
  brackets := .inl (by decide)

theorem isName_fall : IsName FALL where
  operators := by decide
  trimmed := by decide
  blanks := blanksOnly_of_all (by decide)
  brackets := .inl (by decide)

section
variable (sqrt : ℚ → ℚ)

/-- The two conditions, of which the first holds on the rise. -/
theorem rise_fall_names :
    (parseName (strip RISE) = .ok (.atom (.momGt 1 (1 / 100))) ∧
      parseName (strip FALL) = .ok (.atom (.momLt 1 (-(1 / 100))))) ∧
    evalMomGt upSeries.closes 1 (1 / 100) 1 = .ok true ∧
      evalMomLt upSeries.closes 1 (-(1 / 100)) 1 = .ok false := by
  decide +kernel

theorem parse_rise :
    parseStrategy sqrt RISE = .ok (Condition.eval sqrt (.atom (.momGt 1 (1 / 100)))) := by
  rw [← isName_rise.parseOperand_eq, parseOperand, rise_fall_names.1.1]
  rfl

theorem parse_fall :
    parseStrategy sqrt FALL = .ok (Condition.eval sqrt (.atom (.momLt 1 (-(1 / 100))))) := by
  rw [← isName_fall.parseOperand_eq, parseOperand, rise_fall_names.1.2]
  rfl

theorem rise_or_fall {t : Text} (h : t = RISE ∨ t = FALL) : IsName t ∧ ¬ Refused sqrt t ∧
    truthOf sqrt t upSeries 1 = .ok (decide (t = RISE)) := by
  rcases h with rfl | rfl
  · refine ⟨isName_rise, fun ⟨e, he⟩ => ?_, ?_⟩
    · cases he.symm.trans (parse_rise sqrt)
    · unfold truthOf
      rw [parse_rise, decide_eq_true rfl]
      exact rise_fall_names.2.1
  · refine ⟨isName_fall, fun ⟨e, he⟩ => ?_, ?_⟩
    · cases he.symm.trans (parse_fall sqrt)
    · unfold truthOf
      rw [parse_fall, decide_eq_false (by decide)]
      exact rise_fall_names.2.2

/-- A tree of these two names, true on the rise, with a clause of false names. -/
theorem not_compositional_of {gap : ℕ} {k : Grouped} (hk : ∀ t ∈ k.names, t = RISE ∨ t = FALL)
    (hholds : k.holds (fun t => decide (t = RISE)) = true)
    (hclause : ∃ ws ∈ k.clauses, ∀ t ∈ ws, decide (t = RISE) = false) :
    ¬ Compositional sqrt gap k := by
  have hv : ∀ t ∈ k.names, truthOf sqrt t upSeries 1 = .ok (decide (t = RISE)) :=
    fun t ht => (rise_or_fall sqrt (hk t ht)).2.2
  have hflat := Grouped.flatTruth_false hv hclause
  have htrue := Grouped.truth_holds hv
  rw [compositional_iff fun t ht => (rise_or_fall sqrt (hk t ht)).1]
  rintro (⟨t, rfl⟩ | ⟨t, ht, -, hrefused⟩ | ⟨-, halike⟩)
  · obtain ⟨ws, hws, hfalse⟩ := hclause
    rw [Grouped.clauses, List.mem_singleton] at hws
    subst hws
    cases (hfalse t (List.mem_singleton_self t)).symm.trans hholds
  · exact (rise_or_fall sqrt (hk t ht)).2.1 hrefused
  · have hsame := halike upSeries 1 (by decide)
    rw [hflat, htrue, hholds] at hsame
    cases hsame

/-- **When brackets are read.** The text of a tree comes to the same as its dicts if and
only if the tree is a single name, or a name other than a wrapper is refused, or no name is
refused and reading each `|` before each `&` makes no difference. With no `and` under an
`or` it makes none; in any other shape it does for some names. -/
theorem parse_strategy_compositional (gap : ℕ) {g : Grouped} (h : ∀ t ∈ g.names, IsName t) :
    (Compositional sqrt gap g ↔ (∃ t, g = .name t) ∨
      (∃ t ∈ g.names, ¬ Wrapper t ∧ Refused sqrt t) ∨
      ((∀ t ∈ g.names, ¬ Refused sqrt t) ∧ ReadsAlike sqrt g)) ∧
    (g.Layered → ReadsAlike sqrt g) ∧
    (¬ g.Layered → ∃ k, Grouped.SameShape g k ∧ (∀ t ∈ k.names, IsName t) ∧
      ¬ Compositional sqrt gap k) := by
  refine ⟨compositional_iff h, fun hlayered s i _ => ?_, fun hlayered => ?_⟩
  · rw [hlayered.flatTruth_eq]
  · obtain ⟨k, hshape, hk, hholds, hclause⟩ := Grouped.exists_apart hlayered
      (fun t => decide (t = RISE)) RISE FALL (by decide) (by decide)
    exact ⟨k, hshape, fun t ht => (rise_or_fall sqrt (hk t ht)).1,
      not_compositional_of sqrt hk hholds hclause⟩

end

/-- `((dip_1b_lt_1&mom_1b_gt_1)|mom_1b_gt_1)` -/
def andUnderOr : Grouped := .either (.both (.name FALL) (.name RISE)) (.name RISE)

/-- `h1(sma50)` -/
def HOURLY : Text := ['h', '1', '(', 's', 'm', 'a', '5', '0', ')']

/-- `(h1(sma50)&mom_1b_gt_1)` -/
def wrapperAndRise : Grouped := .both (.name HOURLY) (.name RISE)

theorem wrapper_hourly : Wrapper HOURLY := Option.ne_none_iff_exists'.mp (by decide +kernel)

theorem isName_hourly : IsName HOURLY where
  operators := by decide
  trimmed := by decide
  blanks := blanksOnly_of_all (by decide)
  brackets := .inr wrapper_hourly

/-- The text of the first is false where its dicts are true, and the text of the second is
not refused. -/
theorem brackets_ignored :
    ¬ Compositional id 0 andUnderOr ∧ ¬ Compositional id 0 wrapperAndRise := by
  constructor
  · exact not_compositional_of id (by decide) (by decide) (by decide)
  · have hnames : ∀ t ∈ wrapperAndRise.names, IsName t := by
      intro t ht
      rcases List.mem_pair.mp ht with rfl | rfl
      · exact isName_hourly
      · exact isName_rise
    rw [compositional_iff hnames]
    rintro (⟨t, ht⟩ | ⟨t, ht, hno, hrefused⟩ | ⟨hall, -⟩)
    · cases ht
    · rcases List.mem_pair.mp ht with rfl | rfl
      · exact hno wrapper_hourly
      · exact (rise_or_fall id (.inl rfl)).2.1 hrefused
    · exact hall _ List.mem_cons_self (wrapper_hourly.refused isName_hourly)

/-- `((dip_1b_lt_1|mom_1b_gt_1)&mom_1b_gt_1)` is read as it is grouped. -/
theorem parse_strategy_compositional_layered :
    Compositional id 0 (.both (.either (.name FALL) (.name RISE)) (.name RISE)) := by
  have hnames : ∀ t ∈ (Grouped.both (.either (.name FALL) (.name RISE)) (.name RISE)).names,
      t = RISE ∨ t = FALL := by decide
  obtain ⟨hiff, halike, -⟩ :=
    parse_strategy_compositional id 0 fun t ht => (rise_or_fall id (hnames t ht)).1
  exact hiff.mpr (.inr (.inr ⟨fun t ht => (rise_or_fall id (hnames t ht)).2.1,
    halike ⟨⟨trivial, trivial⟩, trivial⟩⟩))

end PaperTrading.Signals
