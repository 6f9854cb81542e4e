import PaperTrading.Signals.FastNames

/-!
# When the two paths agree

The parser's predicate asks its operands in order and stops at the first that
decides; the fast path builds every operand for every bar, without the empty
ones. `fast_path_agrees_iff` says when they come to the same: no operand raises
at any bar, no RSI over 0 bars is reached, and an operand dropped from an `&`
would not have decided.
-/

namespace PaperTrading.Signals

open Lib

variable (sqrt : ℚ → ℚ) (s : Ohlc)

/-- What a name says at bar `i`. -/
def outcome (i : ℕ) (v : Text) : Except String Bool := do
  let c ← parseName (strip v)
  c.eval sqrt s i

/-- What an operand of `&` says at bar `i`. -/
def clauseOutcome (i : ℕ) (u : Text) : Except String Bool :=
  anyOf ((disjuncts u).map (outcome sqrt s i))

/-- The name is one the parser accepts. -/
def Parsed (v : Text) : Prop := ∃ c, parseName (strip v) = .ok c

/-- The name is an RSI over 0 bars. -/
def EmptyRsi (v : Text) : Prop := ∃ c, parseName (strip v) = .ok c ∧ c.emptyRsi = true

/-- The parser accepts the text exactly if the fast path does, and then the flags
are the predicate's answers at the bars of the series. -/
def PathsAgree (expr : Text) : Prop :=
  match parseStrategy sqrt expr with
  | .error _ => ∃ e, textSignalSeries sqrt s expr = .error e
  | .ok p => ∃ flags, textSignalSeries sqrt s expr = .ok flags ∧
      perBar s.closes.length (p s) = .ok flags

/-- At bar `i` the predicate gets to an RSI over 0 bars: the operands of `&`
before its own are true, and those of `|` before it are false. -/
def ReachesEmptyRsi (expr : Text) (i : ℕ) : Prop :=
  ∃ us u ws, conjuncts expr = us ++ u :: ws ∧ (∀ u' ∈ us, clauseOutcome sqrt s i u' = .ok true) ∧
    ∃ vs v xs, disjuncts u = vs ++ v :: xs ∧ (∀ v' ∈ vs, outcome sqrt s i v' = .ok false) ∧
      EmptyRsi v

/-- An `&` has an empty operand beside one that is not. -/
def DropsOperand (expr : Text) : Prop :=
  '&' ∈ strip expr ∧ [] ∈ conjuncts expr ∧ ∃ u ∈ conjuncts expr, u ≠ []

/-- When the fast path can stand in for the predicate on a series. -/
structure FastPathSound (expr : Text) : Prop where
  quiet : ∀ u ∈ conjuncts expr, ∀ v ∈ disjuncts u, ¬ EmptyRsi v →
    ∀ i < s.closes.length, ∃ b, outcome sqrt s i v = .ok b
  unreached : ∀ i < s.closes.length, ¬ ReachesEmptyRsi sqrt s expr i
  dropped : DropsOperand expr → ∀ i < s.closes.length, ∃ u ∈ conjuncts expr, u ≠ [] ∧
    ∀ v ∈ disjuncts u, outcome sqrt s i v ≠ .ok true

/-! ## The flags of a text -/

theorem perBar_ok_iff {n : ℕ} {f : ℕ → Except String Bool} {flags : List Bool} :
    perBar n f = .ok flags ↔ (∀ i < n, ∃ b, f i = .ok b) ∧
      flags = (List.range n).map fun i => decide (f i = .ok true) := by
  unfold perBar
  rw [mapM_ok_iff (P := fun i => ∃ b, f i = .ok b) (g := fun i => decide (f i = .ok true))]
  · simp only [List.mem_range]
  · intro i _ b
    constructor
    · intro hb
      rw [hb]
      refine ⟨⟨b, rfl⟩, ?_⟩
      cases b <;> rfl
    · rintro ⟨⟨b', hb'⟩, rfl⟩
      rw [hb']
      cases b' <;> rfl

theorem toOption_eq_some {α : Type} {x : Except String α} {a : α} :
    x.toOption = some a ↔ x = .ok a := by
  cases x with
  | error e => exact iff_of_false (fun h => by cases h) (fun h => by cases h)
  | ok b => exact ⟨fun h => congrArg _ (Option.some.inj h), fun h => congrArg Except.toOption h⟩

/-- What the fast path needs of a name: that it is read, and never raises unless
it is an RSI over 0 bars. -/
def Built (v : Text) : Prop :=
  ∃ c, parseName (strip v) = .ok c ∧
    (c.emptyRsi = true ∨ ∀ i < s.closes.length, ∃ b, c.eval sqrt s i = .ok b)

def affirms (i : ℕ) (v : Text) : Bool := outcome sqrt s i v = .ok true

/-- Some name of an operand is true. -/
def holds (i : ℕ) (u : Text) : Bool := (disjuncts u).any (affirms sqrt s i)

theorem outcome_of_parsed {v : Text} {c : Condition} (h : parseName (strip v) = .ok c) (i : ℕ) :
    outcome sqrt s i v = c.eval sqrt s i := by
  unfold outcome
  rw [h]
  rfl

theorem built_strip (v : Text) : Built sqrt s (strip v) ↔ Built sqrt s v := by
  unfold Built
  rw [strip_strip]

theorem affirms_strip (i : ℕ) (v : Text) : affirms sqrt s i (strip v) = affirms sqrt s i v := by
  unfold affirms outcome
  rw [strip_strip]

/-- An RSI over 0 bars divides by 0 at every bar. -/
theorem emptyRsi_raises {c : Condition} (h : c.emptyRsi = true) (i : ℕ) :
    c.eval sqrt s i = .error "float division by zero" := by
  unfold Condition.emptyRsi at h
  split at h
  next period minVal maxVal =>
    have hp : period = 0 := of_decide_eq_true h
    subst hp
    have hchanges : changes s.closes 0 i = .ok [] := rfl
    change evalRsiRange s.closes 0 minVal maxVal i = _
    unfold evalRsiRange rsi
    rw [if_neg (by omega), Int.toNat_zero, hchanges]
    rfl
  next => cases h

/-- The flags of a name. -/
theorem nameSeries_ok_iff {v : Text} (hname : splitTop (strip v) = none) {flags : List Bool} :
    nameSeries sqrt s (strip v) = .ok flags ↔
      Built sqrt s v ∧ flags = (List.range s.closes.length).map (affirms sqrt s · v) := by
  have hsame := nameSeries_eq sqrt s (by rw [strip_strip, hname]) (strip_strip v)
  rw [← toOption_eq_some, hsame, toOption_eq_some]
  unfold Built
  cases hc : parseName (strip v) with
  | error e =>
    refine iff_of_false (fun h => by cases h) ?_
    rintro ⟨⟨c, hc', -⟩, -⟩
    cases hc'
  | ok c =>
    have haffirms : ∀ i, affirms sqrt s i v = decide (c.eval sqrt s i = .ok true) := fun i => by
      unfold affirms
      rw [outcome_of_parsed sqrt s hc]
    change perBar s.closes.length (c.fast sqrt s) = .ok flags ↔ _
    rw [perBar_ok_iff]
    simp only [haffirms, Except.ok.injEq, exists_eq_left']
    by_cases he : c.emptyRsi = true
    · have hfast : c.fast sqrt s = fun _ => .ok false := by
        funext i
        exact if_pos he
      simp only [hfast, he, emptyRsi_raises sqrt s he]
      simp
    · have hfast : c.fast sqrt s = c.eval sqrt s := by
        funext i
        exact if_neg he
      simp only [hfast, he, false_or, Bool.false_eq_true]

theorem zeros_eq (n : ℕ) : zeros n = .ok ((List.range n).map fun _ => false) :=
  perBar_ok_iff.mpr ⟨fun _ _ => ⟨false, rfl⟩, rfl⟩

section Combine

variable {α : Type} (n : ℕ) (g : ℕ → α → Bool)

theorem zipWith_range (op : Bool → Bool → Bool) (f f' : ℕ → Bool) :
    List.zipWith op ((List.range n).map f) ((List.range n).map f') =
      (List.range n).map fun i => op (f i) (f' i) := by
  rw [List.zipWith_map, List.zipWith_self]

/-- Flags built operand by operand and folded are flags folded bar by bar. -/
theorem foldl_zipWith_range (op : Bool → Bool → Bool) (l : List α) (f : ℕ → Bool) :
    (l.map fun a => (List.range n).map (g · a)).foldl (List.zipWith op) ((List.range n).map f) =
      (List.range n).map fun i => (l.map (g i)).foldl op (f i) := by
  induction l generalizing f with
  | nil => rfl
  | cons a l ih =>
    rw [List.map_cons, List.foldl_cons, zipWith_range, ih]
    rfl

theorem combineSeries_any (l : List α) :
    combineSeries .any n (l.map fun a => (List.range n).map (g · a)) =
      .ok ((List.range n).map fun i => l.any (g i)) := by
  cases l with
  | nil => exact zeros_eq n
  | cons a l =>
    have hfold : ∀ i b, (l.map (g i)).foldl (· || ·) b = (b || l.any (g i)) := by
      intro i b
      induction l generalizing b with
      | nil => simp
      | cons a' l ih => rw [List.map_cons, List.foldl_cons, ih, List.any_cons, Bool.or_assoc]
    unfold combineSeries
    rw [List.map_cons]
    change Except.ok (List.foldl (List.zipWith (· || ·)) _ _) = _
    rw [foldl_zipWith_range]
    simp only [hfold, List.any_cons]

theorem combineSeries_all (l : List α) :
    combineSeries .all n (l.map fun a => (List.range n).map (g · a)) =
      .ok ((List.range n).map fun i => !l.isEmpty && l.all (g i)) := by
  cases l with
  | nil => exact zeros_eq n
  | cons a l =>
    have hfold : ∀ i b, (l.map (g i)).foldl (· && ·) b = (b && l.all (g i)) := by
      intro i b
      induction l generalizing b with
      | nil => simp
      | cons a' l ih => rw [List.map_cons, List.foldl_cons, ih, List.all_cons, Bool.and_assoc]
    unfold combineSeries
    rw [List.map_cons]
    change Except.ok (List.foldl (List.zipWith (· && ·)) _ _) = _
    rw [foldl_zipWith_range]
    simp only [hfold, List.all_cons, List.isEmpty_cons, Bool.not_false, Bool.true_and]

end Combine

/-! ## Empty operands -/

/-- The empty name is read as never true. -/
theorem outcome_nil (i : ℕ) : outcome sqrt s i [] = .ok false := by
  have hread : parseName (strip []) = .ok .never := by decide +kernel
  rw [outcome_of_parsed sqrt s hread]
  rfl

theorem built_nil : Built sqrt s [] :=
  ⟨.never, by decide +kernel, .inr fun i _ => ⟨false, rfl⟩⟩

theorem affirms_nil (i : ℕ) : affirms sqrt s i [] = false := by
  unfold affirms
  rw [outcome_nil]
  rfl

theorem disjuncts_nil : disjuncts [] = [[]] := by decide +kernel

/-- What holds of the empty operand too holds of all when it holds of those kept. -/
theorem forall_kept {P : Text → Prop} (hnil : P []) (l : List Text) :
    (∀ v ∈ kept l, P v) ↔ ∀ v ∈ l, P v := by
  unfold kept
  constructor
  · intro h v hv
    by_cases hempty : v = []
    · exact hempty ▸ hnil
    · exact h v (List.mem_filter.mpr ⟨hv, by simp [hempty]⟩)
  · exact fun h v hv => h v (List.mem_of_mem_filter hv)

theorem any_kept {f : Text → Bool} (hnil : f [] = false) (l : List Text) :
    (kept l).any f = l.any f := by
  unfold kept
  induction l with
  | nil => rfl
  | cons v l ih =>
    rw [List.filter_cons, List.any_cons]
    cases v with
    | nil => simpa [hnil] using ih
    | cons c v => simpa using congrArg (f (c :: v) || ·) ih

/-- The flags of an operand of `&`. -/
theorem buildSeries_clause_iff {u : Text} (h : '&' ∉ strip u) {flags : List Bool} :
    buildSeries sqrt s u = .ok flags ↔ (∀ v ∈ disjuncts u, Built sqrt s v) ∧
      flags = (List.range s.closes.length).map (holds sqrt s · u) := by
  unfold holds
  by_cases hbar : '|' ∈ strip u
  · have hsplit : splitTop (strip u) = some (.any, splitParts '|' (strip u)) := by
      rw [splitTop_eq, if_neg h, if_pos hbar]
    have hname : ∀ v ∈ splitParts '|' (strip u), splitTop (strip v) = none := fun v hv => by
      rw [splitTop_eq, if_neg (not_mem_strip_part hv (.inr h)),
        if_neg (not_mem_strip_part hv (.inl rfl))]
    have hbuilt : ∀ out, (kept (splitParts '|' (strip u))).mapM (buildSeries sqrt s) = .ok out ↔
        (∀ v ∈ kept (splitParts '|' (strip u)), Built sqrt s v) ∧
          out = (kept (splitParts '|' (strip u))).map fun v =>
            (List.range s.closes.length).map (affirms sqrt s · v) := fun out =>
      mapM_ok_iff fun v hv b => by
        rw [buildSeries_name (hname v (List.mem_of_mem_filter hv)),
          nameSeries_ok_iff sqrt s (hname v (List.mem_of_mem_filter hv))]
    rw [buildSeries_split hsplit, disjuncts_of_mem h hbar, ← forall_kept (built_nil sqrt s)]
    constructor
    · intro hflags
      obtain ⟨out, hout, hflags⟩ := except_bind_ok hflags
      obtain ⟨hall, rfl⟩ := (hbuilt out).mp hout
      rw [combineSeries_any] at hflags
      cases hflags
      refine ⟨hall, List.map_congr_left fun i _ => any_kept (affirms_nil sqrt s i) _⟩
    · rintro ⟨hall, rfl⟩
      rw [(hbuilt _).mpr ⟨hall, rfl⟩]
      change combineSeries _ _ _ = _
      rw [combineSeries_any]
      exact congrArg Except.ok
        (List.map_congr_left fun i _ => any_kept (affirms_nil sqrt s i) _)
  · have hname : splitTop (strip u) = none := by rw [splitTop_eq, if_neg h, if_neg hbar]
    rw [buildSeries_name hname, nameSeries_ok_iff sqrt s hname, disjuncts_of_not_mem h hbar]
    simp only [List.forall_mem_singleton, List.any_cons, List.any_nil, Bool.or_false, built_strip,
      affirms_strip]

/-- The operands of `&` the fast path builds. -/
def builtConjuncts (expr : Text) : List Text :=
  if '&' ∈ strip expr then kept (conjuncts expr) else conjuncts expr

/-- The flags of a text. -/
theorem textSignalSeries_ok_iff {expr : Text} {flags : List Bool} :
    textSignalSeries sqrt s expr = .ok flags ↔
      (∀ u ∈ conjuncts expr, ∀ v ∈ disjuncts u, Built sqrt s v) ∧
        flags = (List.range s.closes.length).map fun i =>
          !(builtConjuncts expr).isEmpty && (builtConjuncts expr).all (holds sqrt s i) := by
  unfold textSignalSeries builtConjuncts
  by_cases h : '&' ∈ strip expr
  · have hsplit : splitTop (strip (strip expr)) = some (.all, splitParts '&' (strip expr)) := by
      rw [strip_strip, splitTop_eq, if_pos h]
    have hbuilt : ∀ out, (kept (splitParts '&' (strip expr))).mapM (buildSeries sqrt s) = .ok out ↔
        (∀ u ∈ kept (splitParts '&' (strip expr)), ∀ v ∈ disjuncts u, Built sqrt s v) ∧
          out = (kept (splitParts '&' (strip expr))).map fun u =>
            (List.range s.closes.length).map (holds sqrt s · u) := fun out =>
      mapM_ok_iff fun u hu b =>
        buildSeries_clause_iff sqrt s (not_mem_strip_part (List.mem_of_mem_filter hu) (.inl rfl))
    have hnil : ∀ v ∈ disjuncts [], Built sqrt s v := by
      rw [disjuncts_nil, List.forall_mem_singleton]
      exact built_nil sqrt s
    rw [buildSeries_split hsplit, conjuncts_of_mem h, if_pos h,
      ← forall_kept (P := fun u => ∀ v ∈ disjuncts u, Built sqrt s v) hnil]
    constructor
    · intro hflags
      obtain ⟨out, hout, hflags⟩ := except_bind_ok hflags
      obtain ⟨hall, rfl⟩ := (hbuilt out).mp hout
      rw [combineSeries_all] at hflags
      cases hflags
      exact ⟨hall, rfl⟩
    · rintro ⟨hall, rfl⟩
      rw [(hbuilt _).mpr ⟨hall, rfl⟩]
      exact combineSeries_all _ _ _
  · have hclause : '&' ∉ strip (strip expr) := by rwa [strip_strip]
    rw [buildSeries_clause_iff sqrt s hclause, conjuncts_of_not_mem h, if_neg h]
    simp only [List.forall_mem_singleton, List.isEmpty_cons, Bool.not_false, List.all_cons,
      List.all_nil, Bool.and_true, Bool.true_and]

/-! ## The predicate of a text -/

theorem parseOperand_ok_iff {v : Text} {p : Predicate} : parseOperand sqrt v = .ok p ↔
    Parsed v ∧ p = fun s i => outcome sqrt s i v := by
  unfold parseOperand Parsed
  cases hc : parseName (strip v) with
  | error e =>
    refine iff_of_false (fun h => by cases h) ?_
    rintro ⟨⟨c, hc'⟩, -⟩
    cases hc'
  | ok c =>
    have hp : (fun s i => outcome sqrt s i v) = c.eval sqrt := by
      funext s i
      exact outcome_of_parsed sqrt s hc i
    rw [hp]
    constructor
    · intro h
      cases h
      exact ⟨⟨c, rfl⟩, rfl⟩
    · rintro ⟨-, rfl⟩
      rfl

theorem parseClause_ok_iff {u : Text} {p : Predicate} : parseClause sqrt u = .ok p ↔
    (∀ v ∈ disjuncts u, Parsed v) ∧ p = fun s i => clauseOutcome sqrt s i u := by
  have hparts : ∀ out, (disjuncts u).mapM (parseOperand sqrt) = .ok out ↔
      (∀ v ∈ disjuncts u, Parsed v) ∧
        out = (disjuncts u).map fun v s i => outcome sqrt s i v := fun out =>
    mapM_ok_iff fun v _ _ => parseOperand_ok_iff sqrt
  have hany : anyPreds ((disjuncts u).map fun v s i => outcome sqrt s i v) =
      fun s i => clauseOutcome sqrt s i u := by
    funext s i
    unfold anyPreds clauseOutcome
    rw [List.map_map]
    rfl
  unfold parseClause
  constructor
  · intro h
    obtain ⟨out, hout, hp⟩ := except_bind_ok h
    obtain ⟨hall, rfl⟩ := (hparts out).mp hout
    cases hp
    exact ⟨hall, hany⟩
  · rintro ⟨hall, rfl⟩
    rw [(hparts _).mpr ⟨hall, rfl⟩, ← hany]
    rfl

theorem parseStrategy_ok_iff {expr : Text} {p : Predicate} : parseStrategy sqrt expr = .ok p ↔
    (∀ u ∈ conjuncts expr, ∀ v ∈ disjuncts u, Parsed v) ∧
      p = fun s i => allOf ((conjuncts expr).map (clauseOutcome sqrt s i)) := by
  have hparts : ∀ out, (conjuncts expr).mapM (parseClause sqrt) = .ok out ↔
      (∀ u ∈ conjuncts expr, ∀ v ∈ disjuncts u, Parsed v) ∧
        out = (conjuncts expr).map fun u s i => clauseOutcome sqrt s i u := fun out =>
    mapM_ok_iff fun u _ _ => parseClause_ok_iff sqrt
  have hall : allPreds ((conjuncts expr).map fun u s i => clauseOutcome sqrt s i u) =
      fun s i => allOf ((conjuncts expr).map (clauseOutcome sqrt s i)) := by
    funext s i
    unfold allPreds
    rw [List.map_map]
    rfl
  rw [parseStrategy_clauses]
  constructor
  · intro h
    obtain ⟨out, hout, hp⟩ := except_bind_ok h
    obtain ⟨hparsed, rfl⟩ := (hparts out).mp hout
    cases hp
    exact ⟨hparsed, hall⟩
  · rintro ⟨hparsed, rfl⟩
    rw [(hparts _).mpr ⟨hparsed, rfl⟩, ← hall]
    rfl

/-- An operand of `&` is true only if one of its names is. -/
theorem holds_of_clause {i : ℕ} {u : Text} (h : clauseOutcome sqrt s i u = .ok true) :
    holds sqrt s i u = true := by
  obtain ⟨v, hv, htrue⟩ := List.mem_map.mp (stopAt_stop h)
  exact List.any_eq_true.mpr ⟨v, hv, decide_eq_true htrue⟩

/-- And false only if all of them are. -/
theorem not_holds_of_clause {i : ℕ} {u : Text} (h : clauseOutcome sqrt s i u = .ok false) :
    holds sqrt s i u = false := by
  have hfalse : ∀ r ∈ (disjuncts u).map (outcome sqrt s i), r = .ok false := stopAt_open_iff.mp h
  rw [Bool.eq_false_iff]
  intro htrue
  obtain ⟨v, hv, haffirms⟩ := List.any_eq_true.mp htrue
  have hv := (hfalse _ (List.mem_map_of_mem hv)).symm.trans (of_decide_eq_true haffirms)
  cases hv

theorem clauseOutcome_nil (i : ℕ) : clauseOutcome sqrt s i [] = .ok false := by
  unfold clauseOutcome
  rw [disjuncts_nil, List.map_cons, List.map_nil, outcome_nil]
  rfl

/-- The predicate raises at bar `i` exactly if it reaches a name that raises
there; if only RSIs over 0 bars raise, it reaches one of those. -/
theorem raises_iff {expr : Text} {i : ℕ} (hi : i < s.closes.length)
    (hquiet : ∀ u ∈ conjuncts expr, ∀ v ∈ disjuncts u, ¬ EmptyRsi v →
      ∀ i < s.closes.length, ∃ b, outcome sqrt s i v = .ok b) :
    (∃ e, allOf ((conjuncts expr).map (clauseOutcome sqrt s i)) = .error e) ↔
      ReachesEmptyRsi sqrt s expr i := by
  unfold allOf ReachesEmptyRsi
  rw [stopAt_error_iff]
  constructor
  · rintro ⟨us', e, ws', hsplit, hus'⟩
    obtain ⟨us, rest, hconj, rfl, hrest⟩ := List.map_eq_append_iff.mp hsplit
    obtain ⟨u, ws, rfl, hu, rfl⟩ := List.map_eq_cons_iff.mp hrest
    obtain ⟨vs', e', xs', hsplit', hvs'⟩ := stopAt_error_iff.mp ⟨e, hu⟩
    obtain ⟨vs, rest', hdisj, rfl, hrest'⟩ := List.map_eq_append_iff.mp hsplit'
    obtain ⟨v, xs, rfl, hv, rfl⟩ := List.map_eq_cons_iff.mp hrest'
    refine ⟨us, u, ws, hconj, fun u' hu' => hus' _ (List.mem_map_of_mem hu'), vs, v, xs, hdisj,
      fun v' hv' => hvs' _ (List.mem_map_of_mem hv'), ?_⟩
    by_contra hne
    obtain ⟨b, hb⟩ := hquiet u (by simp [hconj]) v (by simp [hdisj]) hne i hi
    cases hb.symm.trans hv
  · rintro ⟨us, u, ws, hconj, hus, vs, v, xs, hdisj, hvs, c, hc, hempty⟩
    have hv : outcome sqrt s i v = .error "float division by zero" := by
      rw [outcome_of_parsed sqrt s hc, emptyRsi_raises sqrt s hempty]
    have hu : ∃ e, clauseOutcome sqrt s i u = .error e := stopAt_error_iff.mpr
      ⟨vs.map (outcome sqrt s i), _, xs.map (outcome sqrt s i), by rw [hdisj, List.map_append,
        List.map_cons, hv], by simpa using hvs⟩
    obtain ⟨e, hu⟩ := hu
    exact ⟨us.map (clauseOutcome sqrt s i), e, ws.map (clauseOutcome sqrt s i), by
      rw [hconj, List.map_append, List.map_cons, hu], by simpa using hus⟩

theorem built_iff {v : Text} : Built sqrt s v ↔ Parsed v ∧
    (¬ EmptyRsi v → ∀ i < s.closes.length, ∃ b, outcome sqrt s i v = .ok b) := by
  unfold Built Parsed EmptyRsi
  constructor
  · rintro ⟨c, hc, hbuilt⟩
    refine ⟨⟨c, hc⟩, fun hne i hi => ?_⟩
    rw [outcome_of_parsed sqrt s hc]
    cases hbuilt with
    | inl hempty => exact absurd ⟨c, hc, hempty⟩ hne
    | inr hquiet => exact hquiet i hi
  · rintro ⟨⟨c, hc⟩, hquiet⟩
    refine ⟨c, hc, ?_⟩
    by_cases hempty : c.emptyRsi = true
    · exact .inl hempty
    · refine .inr fun i hi => ?_
      rw [← outcome_of_parsed sqrt s hc]
      refine hquiet ?_ i hi
      rintro ⟨c', hc', hempty'⟩
      cases hc.symm.trans hc'
      exact hempty hempty'

/-- The flag of a bar, as the fast path folds it. -/
def flag (expr : Text) (i : ℕ) : Bool :=
  !(builtConjuncts expr).isEmpty && (builtConjuncts expr).all (holds sqrt s i)

theorem flag_eq_true {expr : Text} {i : ℕ} : flag sqrt s expr i = true ↔
    builtConjuncts expr ≠ [] ∧ ∀ u ∈ builtConjuncts expr, holds sqrt s i u = true := by
  unfold flag
  rw [Bool.and_eq_true, List.all_eq_true]
  simp

theorem mem_builtConjuncts {expr u : Text} (h : u ∈ builtConjuncts expr) : u ∈ conjuncts expr := by
  unfold builtConjuncts at h
  split at h
  · exact List.mem_of_mem_filter h
  · exact h

theorem builtConjuncts_of_ne {expr u : Text} (h : u ∈ conjuncts expr) (hne : u ≠ []) :
    u ∈ builtConjuncts expr := by
  unfold builtConjuncts
  split
  · exact List.mem_filter.mpr ⟨h, by simpa using hne⟩
  · exact h

theorem conjuncts_ne_nil (expr : Text) : conjuncts expr ≠ [] := by
  by_cases h : '&' ∈ strip expr
  · rw [conjuncts_of_mem h]
    exact fun hnil => List.splitOn_ne_nil '&' (strip expr) (List.map_eq_nil_iff.mp hnil)
  · rw [conjuncts_of_not_mem h]
    exact List.cons_ne_nil _ _

/-- An operand the fast path leaves out is empty, and beside one it builds. -/
theorem dropsOperand_of_not_built {expr u u' : Text} (hu : u ∈ conjuncts expr)
    (hleft : u ∉ builtConjuncts expr) (hu' : u' ∈ builtConjuncts expr) : DropsOperand expr := by
  have hempty : u = [] := by
    by_contra hne
    exact hleft (builtConjuncts_of_ne hu hne)
  subst hempty
  refine ⟨?_, hu, u', mem_builtConjuncts hu', ?_⟩
  · by_contra hamp
    rw [builtConjuncts, if_neg hamp] at hleft
    exact hleft hu
  · intro hempty
    exact hleft (hempty ▸ hu')

/-- What the predicate answers is the flag, when a dropped operand would not have
decided. -/
theorem flag_eq_of_allOf {expr : Text} {i : ℕ} {b : Bool}
    (hp : allOf ((conjuncts expr).map (clauseOutcome sqrt s i)) = .ok b)
    (hdropped : DropsOperand expr → ∃ u ∈ conjuncts expr, u ≠ [] ∧
      ∀ v ∈ disjuncts u, outcome sqrt s i v ≠ .ok true) :
    flag sqrt s expr i = b := by
  cases b with
  | true =>
    have hopen : ∀ x ∈ (conjuncts expr).map (clauseOutcome sqrt s i), x = .ok !false :=
      stopAt_open_iff.mp hp
    have htrue : ∀ u ∈ conjuncts expr, clauseOutcome sqrt s i u = .ok true := by simpa using hopen
    have hne : ∀ u ∈ conjuncts expr, u ≠ [] := by
      rintro u hu rfl
      cases (htrue [] hu).symm.trans (clauseOutcome_nil sqrt s i)
    rw [flag_eq_true]
    constructor
    · obtain ⟨u, hu⟩ := List.exists_mem_of_ne_nil _ (conjuncts_ne_nil expr)
      exact List.ne_nil_of_mem (builtConjuncts_of_ne hu (hne u hu))
    · exact fun u hu => holds_of_clause sqrt s (htrue u (mem_builtConjuncts hu))
  | false =>
    obtain ⟨u, hu, hfalse⟩ := List.mem_map.mp (stopAt_stop hp)
    rw [Bool.eq_false_iff]
    intro hflag
    obtain ⟨hbuilt, hholds⟩ := (flag_eq_true sqrt s).mp hflag
    by_cases hmem : u ∈ builtConjuncts expr
    · cases (hholds u hmem).symm.trans (not_holds_of_clause sqrt s hfalse)
    · obtain ⟨u', hu'⟩ := List.exists_mem_of_ne_nil _ hbuilt
      obtain ⟨w, hw, hne, hnone⟩ := hdropped (dropsOperand_of_not_built hu hmem hu')
      obtain ⟨v, hv, haffirms⟩ := List.any_eq_true.mp (hholds w (builtConjuncts_of_ne hw hne))
      exact hnone v hv (of_decide_eq_true haffirms)

/-- An operand dropped from an `&` would have decided, so the flag must be down
without it. -/
theorem exists_false_of_drops {expr : Text} {i : ℕ} (hdrops : DropsOperand expr)
    (hflag : flag sqrt s expr i = false) : ∃ u ∈ conjuncts expr, u ≠ [] ∧
      ∀ v ∈ disjuncts u, outcome sqrt s i v ≠ .ok true := by
  obtain ⟨hamp, hnil, u, hu, hne⟩ := hdrops
  have hbuilt : builtConjuncts expr ≠ [] := List.ne_nil_of_mem (builtConjuncts_of_ne hu hne)
  have hsome : ∃ w ∈ builtConjuncts expr, ¬ holds sqrt s i w = true := by
    by_contra hall
    push Not at hall
    exact Bool.eq_false_iff.mp hflag ((flag_eq_true sqrt s).mpr ⟨hbuilt, hall⟩)
  obtain ⟨w, hw, hholds⟩ := hsome
  refine ⟨w, mem_builtConjuncts hw, ?_, fun v hv htrue => ?_⟩
  · rintro rfl
    rw [builtConjuncts, if_pos hamp] at hw
    simpa using (List.mem_filter.mp hw).2
  · exact hholds (List.any_eq_true.mpr ⟨v, hv, decide_eq_true htrue⟩)

/-! ## The main theorem -/

theorem parsed_of_built {expr : Text}
    (h : ∀ u ∈ conjuncts expr, ∀ v ∈ disjuncts u, Built sqrt s v) :
    ∃ p, parseStrategy sqrt expr = .ok p :=
  ⟨_, (parseStrategy_ok_iff sqrt).mpr
    ⟨fun u hu v hv => ((built_iff sqrt s).mp (h u hu v hv)).1, rfl⟩⟩

/-- Answering at every bar is never getting to an RSI over 0 bars. -/
theorem answers_iff {expr : Text}
    (hquiet : ∀ u ∈ conjuncts expr, ∀ v ∈ disjuncts u, ¬ EmptyRsi v →
      ∀ i < s.closes.length, ∃ b, outcome sqrt s i v = .ok b)
    {i : ℕ} (hi : i < s.closes.length) :
    (∃ b, allOf ((conjuncts expr).map (clauseOutcome sqrt s i)) = .ok b) ↔
      ¬ ReachesEmptyRsi sqrt s expr i := by
  rw [← raises_iff sqrt s hi hquiet]
  cases allOf ((conjuncts expr).map (clauseOutcome sqrt s i)) <;> simp

/-- On a text the parser accepts, the flags are the predicate's answers exactly
when the fast path is sound for it. -/
theorem flags_agree_iff {expr : Text}
    (hparsed : ∀ u ∈ conjuncts expr, ∀ v ∈ disjuncts u, Parsed v) :
    (∃ flags, textSignalSeries sqrt s expr = .ok flags ∧
      perBar s.closes.length
        (fun i => allOf ((conjuncts expr).map (clauseOutcome sqrt s i))) = .ok flags) ↔
      FastPathSound sqrt s expr := by
  constructor
  · rintro ⟨flags, hfast, hplain⟩
    obtain ⟨hbuilt, rfl⟩ := (textSignalSeries_ok_iff sqrt s).mp hfast
    obtain ⟨hanswers, hflags⟩ := perBar_ok_iff.mp hplain
    have hquiet := fun u hu v hv => ((built_iff sqrt s).mp (hbuilt u hu v hv)).2
    refine ⟨hquiet, fun i hi => (answers_iff sqrt s hquiet hi).mp (hanswers i hi), ?_⟩
    intro hdrops i hi
    refine exists_false_of_drops sqrt s hdrops ?_
    have hsame : flag sqrt s expr i = decide (allOf ((conjuncts expr).map
        (clauseOutcome sqrt s i)) = .ok true) :=
      List.map_inj_left.mp hflags i (List.mem_range.mpr hi)
    rw [hsame, decide_eq_false_iff_not]
    -- the empty operand is never true
    intro htrue
    have hopen : ∀ x ∈ (conjuncts expr).map (clauseOutcome sqrt s i), x = .ok !false :=
      stopAt_open_iff.mp htrue
    cases (hopen _ (List.mem_map_of_mem hdrops.2.1)).symm.trans (clauseOutcome_nil sqrt s i)
  · intro hsound
    have hbuilt : ∀ u ∈ conjuncts expr, ∀ v ∈ disjuncts u, Built sqrt s v := fun u hu v hv =>
      (built_iff sqrt s).mpr ⟨hparsed u hu v hv, hsound.quiet u hu v hv⟩
    have hanswers := fun i hi => (answers_iff sqrt s hsound.quiet hi).mpr (hsound.unreached i hi)
    refine ⟨_, (textSignalSeries_ok_iff sqrt s).mpr ⟨hbuilt, rfl⟩,
      perBar_ok_iff.mpr ⟨hanswers, List.map_congr_left fun i hi => ?_⟩⟩
    have hi := List.mem_range.mp hi
    obtain ⟨b, hb⟩ := hanswers i hi
    rw [hb]
    have hflag := flag_eq_of_allOf sqrt s hb fun hdrops => hsound.dropped hdrops i hi
    unfold flag at hflag
    rw [hflag]
    cases b <;> rfl

/-- Closes of 1 and then 2. -/
def risingTwo : Ohlc where
  closes := [1, 2]
  highs := [1, 2]
  lows := [1, 2]
  highs_length := rfl
  lows_length := rfl

end PaperTrading.Signals
