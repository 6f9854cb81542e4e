import PaperTrading.Mint.Neighbours

/-!
# Atoms and their numbers

`inspect_atom` reads an atom with its numbers written anew as the same atom with these
numbers (`Fits`): so moving one number of an atom changes that number and nothing else
(`moveTo_read`), and two moves that read alike are one (`moveTo_unique`). The only forms
of `_replace_atom` that `inspect_atom` does not know are RSI bounds the parser refuses.
-/

namespace PaperTrading.Mint

open Lib Pattern
open Signals (digits htfName stackName rsiFullName rsiLtName pairName)

/-! ## Trimmed texts -/

theorem not_isSpace_of_isDigit {c : Char} (h : isDigit c = true) : isSpace c = false := by
  unfold isDigit zeroOf at h
  rw [List.find?_isSome] at h
  obtain ⟨z, hz, hc⟩ := h
  rw [Bool.and_eq_true, decide_eq_true_eq, decide_eq_true_eq] at hc
  -- no digits are near a blank
  have hclear : (DECIMAL_ZEROS.all fun z => (32 < z && z + 10 ≤ 0x85) || (0xA0 < z && z + 10 ≤ 0x1680) ||
      (0x1680 < z && z + 10 ≤ 0x2000) || 0x3000 < z) = true := by decide
  have hzero := List.all_eq_true.mp hclear z hz
  simp only [Bool.or_eq_true, Bool.and_eq_true, decide_eq_true_eq] at hzero
  unfold isSpace
  simp only [Bool.or_eq_false_iff, Bool.and_eq_false_iff, decide_eq_false_iff_not]
  omega

theorem not_isSpace_of_atomChar {c : Char} (h : atomChar c = true) : isSpace c = false := by
  unfold atomChar at h
  simp only [Bool.or_eq_true, Bool.and_eq_true, decide_eq_true_eq] at h
  rcases h with (((hletter | rfl) | rfl) | rfl) | hdigit
  · unfold isSpace
    simp only [Bool.or_eq_false_iff, Bool.and_eq_false_iff, decide_eq_false_iff_not]
    omega
  · decide
  · decide
  · decide
  · exact not_isSpace_of_isDigit hdigit

theorem strip_of_spelt {t : Text} (h : ∀ c ∈ t, atomChar c = true) : strip t = t :=
  stripOf_eq_self (fun c hc => not_isSpace_of_atomChar (h c (List.mem_of_mem_head? hc)))
    fun c hc => not_isSpace_of_atomChar (h c (List.mem_of_mem_getLast? hc))

/-! ## Reading an atom -/

/-- The forms of `inspect_atom`, with what a text they match opens with. -/
def inspectOpenings (text : Text) : List ((Text → Option (Option AtomParts)) × List Text) :=
  [(rule rsiFullName fun c => some (.mk "rsi" "" [natOf c.1]
      ((.gt, natOf c.2.1) :: c.2.2.toList.map fun hi => (.lt, natOf hi)) true text), [['r', 's']]),
    (rule rsiLtName fun c => some (.mk "rsi" "" [natOf c.1] [(.lt, natOf c.2)] true text),
      [['r', 's']]),
    (rule (pairName "rsi_") fun c => some (.mk "rsi" "" [natOf c.1] [(.gt, natOf c.2)] true text),
      [['r', 's']]),
    (rule moveAtom fun c => some (.mk c.1 "" [natOf c.2.1] [(.gt, natOf c.2.2.2)] true text),
      [['m', 'o'], ['d', 'i']]),
    (rule htfName fun c => some (.mk (c.1 ++ "_" ++ c.2.1 ++ "_abv") "" [natOf c.2.2] [] true text),
      [['h', '4'], ['h', '1']]),
    (rule (wordAtom MA_WORDS) fun c => some (.mk c.1 "" [natOf c.2] [] true text),
      [['s', 'm'], ['e', 'm']]),
    (rule (stackName "sma") fun c => some (.mk "sma_stack" "" (stackPeriods c) [] true text),
      [['s', 'm']]),
    (rule (stackName "ema") fun c => some (.mk "ema_stack" "" (stackPeriods c) [] true text),
      [['e', 'm']]),
    (rule (wordAtom STRUCTURE_WORDS) fun c => some (.mk c.1 "" [natOf c.2] [] true text),
      [['d', 'o'], ['n', 'e'], ['d', 'b']]),
    (rule bandAtom fun c => some (.mk "bb" c.1 [natOf c.2.1, natOf c.2.2] [] true text),
      [['b', 'b']]),
    (rule (pairName "vol_lowsm_") fun c => some
      (.mk "vol_lowsm" "" [natOf c.1, natOf c.2] [] true text), [['v', 'o']])]

theorem lit_bind_startsWith {α : Type} (w : String) (f : Unit → Pattern α) :
    StartsWith [w] (lit w >>= f) := (lit_startsWith w).bind f

theorem oneOf_bind_startsWith {α : Type} (ws : List String) (f : String → Pattern α) :
    StartsWith ws (oneOf ws >>= f) := (oneOf_startsWith ws).bind f

theorem inspect_openings (text t : Text) :
    ∀ r ∈ inspectOpenings text, ∀ x, r.1 t = some x → t.take 2 ∈ r.2 := by
  have opens : ∀ {α β : Type} {p : Pattern α} {build : α → β} {ws : List String} {os : List Text},
      StartsWith ws p → ((∀ w ∈ ws, 2 ≤ w.toList.length) ∧ ∀ w ∈ ws, w.toList.take 2 ∈ os) →
      ∀ b, rule p build t = some b → t.take 2 ∈ os := by
    intro α β p build ws os hp hos b hb
    obtain ⟨w, hw, heq⟩ := List.mem_map.mp (rule_opening hp hos.1 hb)
    exact heq ▸ hos.2 w hw
  unfold inspectOpenings
  simp only [List.forall_mem_cons]
  refine ⟨opens (lit_bind_startsWith "rsi_" _) (by decide),
    opens (lit_bind_startsWith "rsi_" _) (by decide),
    opens (lit_bind_startsWith "rsi_" _) (by decide),
    opens (oneOf_bind_startsWith ["mom", "dip"] _) (by decide),
    opens (oneOf_bind_startsWith ["h4", "h1"] _) (by decide),
    opens (oneOf_bind_startsWith MA_WORDS _) (by decide),
    opens (lit_bind_startsWith "sma_stack" _) (by decide),
    opens (lit_bind_startsWith "ema_stack" _) (by decide),
    opens (oneOf_bind_startsWith STRUCTURE_WORDS _) (by decide),
    opens (lit_bind_startsWith "bb_" _) (by decide),
    opens (lit_bind_startsWith "vol_lowsm_" _) (by decide), ?_⟩
  intro r hr
  cases hr

/-- A text is read by the first of the forms that open like it. -/
theorem inspectAtom_of_rule {t : Text} {x : Option AtomParts} (hspelt : ∀ c ∈ t, atomChar c = true)
    (r : Text → Option (Option AtomParts)) (os : List Text)
    (before : List (Text → Option (Option AtomParts))) (hmem : (r, os) ∈ inspectOpenings t)
    (hforms : ∀ o ∈ os, ∃ after,
      ((inspectOpenings t).filter fun r => o ∈ r.2).map Prod.fst = before ++ r :: after)
    (hbefore : ∀ r' ∈ before, r' t = none) (h : r t = some x) : inspectAtom t = x := by
  have hopen := inspect_openings t t _ hmem x h
  have hne : t ≠ [] := by
    rintro rfl
    have hno : ∀ r ∈ inspectOpenings [], ([] : Text) ∉ r.2 := by simp [inspectOpenings]
    exact hno _ hmem hopen
  unfold inspectAtom
  dsimp only
  rw [strip_of_spelt hspelt, if_neg hne]
  show firstRule ((inspectOpenings t).map Prod.fst) _ t = x
  obtain ⟨after, hafter⟩ := hforms _ hopen
  rw [firstRule_openings (inspect_openings t t), hafter]
  exact firstRule_append hbefore h

section Reading

variable {t : Text}

theorem inspect_move {c : String × Text × String × Text} (h : moveAtom.whole t = some c) :
    inspectAtom t = some (.mk c.1 "" [natOf c.2.1] [(.gt, natOf c.2.2.2)] true t) :=
  inspectAtom_of_rule (spelt_moveAtom.whole h) _ [['m', 'o'], ['d', 'i']] []
    (by simp [inspectOpenings])
    (List.forall_mem_cons.mpr ⟨⟨_, rfl⟩, List.forall_mem_singleton.mpr ⟨_, rfl⟩⟩) (by simp)
    (rule_eq_some.mpr ⟨c, h, rfl⟩)

theorem inspect_htf {c : String × String × Text} (h : htfName.whole t = some c) :
    inspectAtom t = some (.mk (c.1 ++ "_" ++ c.2.1 ++ "_abv") "" [natOf c.2.2] [] true t) :=
  inspectAtom_of_rule (spelt_htfName.whole h) _ [['h', '4'], ['h', '1']] []
    (by simp [inspectOpenings])
    (List.forall_mem_cons.mpr ⟨⟨_, rfl⟩, List.forall_mem_singleton.mpr ⟨_, rfl⟩⟩) (by simp)
    (rule_eq_some.mpr ⟨c, h, rfl⟩)

theorem inspect_average {c : String × Text} (h : (wordAtom MA_WORDS).whole t = some c) :
    inspectAtom t = some (.mk c.1 "" [natOf c.2] [] true t) :=
  inspectAtom_of_rule ((spelt_wordAtom (by decide)).whole h) _ [['s', 'm'], ['e', 'm']] []
    (by simp [inspectOpenings])
    (List.forall_mem_cons.mpr ⟨⟨_, rfl⟩, List.forall_mem_singleton.mpr ⟨_, rfl⟩⟩) (by simp)
    (rule_eq_some.mpr ⟨c, h, rfl⟩)

theorem inspect_level {c : String × Text} (h : (wordAtom STRUCTURE_WORDS).whole t = some c) :
    inspectAtom t = some (.mk c.1 "" [natOf c.2] [] true t) :=
  inspectAtom_of_rule ((spelt_wordAtom (by decide)).whole h) _ [['d', 'o'], ['n', 'e'], ['d', 'b']] []
    (by simp [inspectOpenings])
    (List.forall_mem_cons.mpr ⟨⟨_, rfl⟩, List.forall_mem_cons.mpr ⟨⟨_, rfl⟩,
      List.forall_mem_singleton.mpr ⟨_, rfl⟩⟩⟩) (by simp) (rule_eq_some.mpr ⟨c, h, rfl⟩)

/-- A stack is no average. -/
theorem average_miss {kind : String} {c : Option Text} (hkind : kind ∈ ["sma", "ema"])
    (h : (stackName kind).whole t = some c) : (wordAtom MA_WORDS).whole t = none := by
  have htake := (lit_bind_startsWith (kind ++ "_stack") _).take_mem (n := 5) (fun w hw => ?_) h
  · cases hw : (wordAtom MA_WORDS).whole t with
    | none => rfl
    | some c' =>
      have htake' := (oneOf_bind_startsWith MA_WORDS _).take_mem (n := 5) (by decide) hw
      rcases List.mem_pair.mp hkind with rfl | rfl
      · rw [List.mem_singleton.mp htake] at htake'
        exact absurd htake' (by decide)
      · rw [List.mem_singleton.mp htake] at htake'
        exact absurd htake' (by decide)
  · rw [List.mem_singleton.mp hw]
    rcases List.mem_pair.mp hkind with rfl | rfl
    · decide
    · decide

theorem inspect_smaStack {c : Option Text} (h : (stackName "sma").whole t = some c) :
    inspectAtom t = some (.mk "sma_stack" "" (stackPeriods c) [] true t) :=
  inspectAtom_of_rule ((spelt_stackName (by decide)).whole h) _ [['s', 'm']]
    [rule (wordAtom MA_WORDS) fun c => some (.mk c.1 "" [natOf c.2] [] true t)]
    (by simp [inspectOpenings]) (List.forall_mem_singleton.mpr ⟨_, rfl⟩)
    (List.forall_mem_singleton.mpr (rule_eq_none.mpr (average_miss (by decide) h)))
    (rule_eq_some.mpr ⟨c, h, rfl⟩)

theorem inspect_emaStack {c : Option Text} (h : (stackName "ema").whole t = some c) :
    inspectAtom t = some (.mk "ema_stack" "" (stackPeriods c) [] true t) :=
  inspectAtom_of_rule ((spelt_stackName (by decide)).whole h) _ [['e', 'm']]
    [rule (wordAtom MA_WORDS) fun c => some (.mk c.1 "" [natOf c.2] [] true t)]
    (by simp [inspectOpenings]) (List.forall_mem_singleton.mpr ⟨_, rfl⟩)
    (List.forall_mem_singleton.mpr (rule_eq_none.mpr (average_miss (by decide) h)))
    (rule_eq_some.mpr ⟨c, h, rfl⟩)

theorem inspect_rsiFull {c : Text × Text × Option Text} (h : rsiFullName.whole t = some c) :
    inspectAtom t = some (.mk "rsi" "" [natOf c.1]
      ((.gt, natOf c.2.1) :: c.2.2.toList.map fun hi => (.lt, natOf hi)) true t) :=
  inspectAtom_of_rule (spelt_rsiFullName.whole h) _ [['r', 's']] [] (by simp [inspectOpenings])
    (List.forall_mem_singleton.mpr ⟨_, rfl⟩) (by simp) (rule_eq_some.mpr ⟨c, h, rfl⟩)

theorem inspect_rsiLt {c : Text × Text} (hfull : rsiFullName.whole t = none)
    (h : rsiLtName.whole t = some c) :
    inspectAtom t = some (.mk "rsi" "" [natOf c.1] [(.lt, natOf c.2)] true t) :=
  inspectAtom_of_rule (spelt_rsiLtName.whole h) _ [['r', 's']]
    [rule rsiFullName fun c => some (.mk "rsi" "" [natOf c.1]
      ((.gt, natOf c.2.1) :: c.2.2.toList.map fun hi => (.lt, natOf hi)) true t)]
    (by simp [inspectOpenings]) (List.forall_mem_singleton.mpr ⟨_, rfl⟩)
    (List.forall_mem_singleton.mpr (rule_eq_none.mpr hfull)) (rule_eq_some.mpr ⟨c, h, rfl⟩)

end Reading

/-! ## The texts of the forms -/

theorem reads_htfName {t : Text} {c : String × String × Text} :
    Reads htfName t c [] ↔ c.1 ∈ ["h4", "h1"] ∧ c.2.1 ∈ ["ema", "sma"] ∧ IsDigits c.2.2 ∧
      t = c.1.toList ++ '_' :: (c.2.1.toList ++ ("_abv_".toList ++ c.2.2)) := by
  unfold htfName
  simp only [reads_oneOf_bind, reads_lit_bind, reads_digits_bind, reads_pure]
  constructor
  · rintro ⟨tf, _, htf, rfl, _, rfl, kind, _, hkind, rfl, _, rfl, n, _, hn, rfl, rfl, rfl⟩
    exact ⟨htf, hkind, hn, by rw [List.append_nil]; rfl⟩
  · rintro ⟨htf, hkind, hn, rfl⟩
    exact ⟨c.1, _, htf, rfl, _, rfl, c.2.1, _, hkind, rfl, _, rfl, c.2.2, [], hn,
      (List.append_nil _).symm, rfl, rfl⟩

/-- Words of one length come off a text in one way. -/
theorem words_unique {ws : List String} {n : ℕ} (hws : ∀ w ∈ ws, w.toList.length = n)
    {w w' : String} {u u' : Text} (hw : w ∈ ws) (hw' : w' ∈ ws)
    (h : w.toList ++ u = w'.toList ++ u') : w = w' ∧ u = u' := by
  obtain ⟨hword, hrest⟩ := List.append_inj h ((hws w hw).trans (hws w' hw').symm)
  exact ⟨String.toList_injective hword, hrest⟩

theorem htfName_iff {t : Text} {c : String × String × Text} :
    htfName.whole t = some c ↔ c.1 ∈ ["h4", "h1"] ∧ c.2.1 ∈ ["ema", "sma"] ∧ IsDigits c.2.2 ∧
      t = c.1.toList ++ '_' :: (c.2.1.toList ++ ("_abv_".toList ++ c.2.2)) := by
  rw [← reads_htfName]
  refine whole_iff fun a b ha hb => ?_
  obtain ⟨htf, hkind, _, rfl⟩ := reads_htfName.mp ha
  obtain ⟨htf', hkind', _, h⟩ := reads_htfName.mp hb
  obtain ⟨h1, h⟩ := words_unique (n := 2) (by decide) htf htf' h
  obtain ⟨h2, h⟩ := words_unique (n := 3) (by decide) hkind hkind' (List.cons.inj h).2
  exact Prod.ext h1 (Prod.ext h2 (List.append_cancel_left h))

/-- The characters of a list of periods. -/
def PeriodChars (ds : Text) : Prop := ds ≠ [] ∧ ∀ c ∈ ds, (isDigit c || c = '_') = true

theorem stackName_whole {kind : String} {ds : Text} (h : PeriodChars ds) :
    (stackName kind).whole ((kind ++ "_stack").toList ++ '_' :: ds) = some (some ds) := by
  refine whole_of_unique ?_ fun c hc => ?_
  · unfold stackName
    exact reads_lit_bind.mpr ⟨_, rfl, reads_opt.mpr (Or.inl ⟨ds, rfl, reads_lit_bind.mpr
      ⟨ds, rfl, reads_many1.mpr ⟨h.1, h.2, (List.append_nil ds).symm⟩⟩⟩)⟩
  · unfold stackName at hc
    obtain ⟨r₀, ht, h₀⟩ := reads_lit_bind.mp hc
    rw [List.append_cancel_left_eq] at ht
    rcases reads_opt.mp h₀ with ⟨ds', rfl, h₁⟩ | ⟨_, h₁⟩
    · obtain ⟨r₁, hr₀, h₂⟩ := reads_lit_bind.mp h₁
      obtain ⟨-, -, hr₁⟩ := reads_many1.mp h₂
      rw [hr₀, hr₁, List.append_nil] at ht
      rw [(List.cons.inj ht).2]
      rfl
    · rw [h₁] at ht
      cases ht

theorem stackAtom_text {t : Text} {c : String × Text} (h : stackAtom.whole t = some c) :
    c.1 ∈ ["sma_stack", "ema_stack"] ∧ PeriodChars c.2 ∧ t = c.1.toList ++ '_' :: c.2 := by
  have h := reads_of_whole h
  unfold stackAtom at h
  obtain ⟨kind, r₀, hkind, ht, h₀⟩ := reads_oneOf_bind.mp h
  obtain ⟨r₁, hr₀, h₁⟩ := reads_lit_bind.mp h₀
  obtain ⟨ds, r₂, hds, h₂⟩ := reads_bind.mp h₁
  obtain ⟨hne, hall, hr₁⟩ := reads_many1.mp hds
  obtain ⟨hc, hend⟩ := reads_pure.mp h₂
  rw [hc]
  refine ⟨hkind, ⟨hne, hall⟩, ?_⟩
  rw [ht, hr₀, hr₁, hend, List.append_nil]
  rfl

theorem not_isDigit_dash : isDigit '_' = false := not_isDigit_of_mem (by decide)

/-- Runs of digits joined by dashes, and taken apart. -/
theorem splitOn_periods {ts : List Text} (hne : ts ≠ []) (h : ∀ t ∈ ts, IsDigits t) :
    (List.intercalate ['_'] ts).splitOn '_' = ts := by
  refine List.splitOn_intercalate '_' (fun t ht hin => ?_) hne
  have hdigit := (h t ht).2 '_' hin
  rw [not_isDigit_dash] at hdigit
  cases hdigit

theorem periodChars_intercalate {ts : List Text} (hne : ts ≠ []) (h : ∀ t ∈ ts, IsDigits t) :
    PeriodChars (List.intercalate ['_'] ts) := by
  constructor
  · intro hnil
    have hsplit := splitOn_periods hne h
    rw [hnil] at hsplit
    have hmem : ([] : Text) ∈ ts := by
      rw [← hsplit]
      exact List.mem_singleton_self _
    exact (h [] hmem).1 rfl
  · clear hne
    induction ts with
    | nil =>
      intro c hc
      cases hc
    | cons t ts ih =>
      have ht : ∀ c ∈ t, (isDigit c || c = '_') = true := fun c hc => by
        rw [(h t List.mem_cons_self).2 c hc]
        rfl
      cases ts with
      | nil =>
        intro c hc
        rw [List.intercalate_singleton] at hc
        exact ht c hc
      | cons u ts =>
        intro c hc
        rw [List.intercalate_cons_cons, List.append_assoc] at hc
        rcases List.mem_append.mp hc with hc | hc
        · exact ht c hc
        · rcases List.mem_cons.mp hc with rfl | hc
          · decide
          · exact ih (fun t ht => h t (List.mem_cons_of_mem _ ht)) c hc

theorem stackPeriods_intercalate {ts : List Text} (hne : ts ≠ []) (h : ∀ t ∈ ts, IsDigits t) :
    stackPeriods (some (List.intercalate ['_'] ts)) = ts.map natOf := by
  show (((List.intercalate ['_'] ts).splitOn '_').filter (· ≠ [])).map natOf = _
  rw [splitOn_periods hne h, List.filter_eq_self.mpr fun t ht => decide_eq_true (h t ht).1]

/-! ## RSI bounds -/

/-- What follows the first bound of an RSI atom. -/
def secondText (second : Option (String × Text)) : Text :=
  second.elim [] fun s => '_' :: (s.1.toList ++ s.2)

theorem rsiSides_text {t : Text} {c : Text × String × Text × Option (String × Text)}
    (h : rsiSides.whole t = some c) : IsDigits c.1 ∧ c.2.1 ∈ ["<", ">"] ∧ IsDigits c.2.2.1 ∧
      (∀ s ∈ c.2.2.2, s.1 ∈ ["<", ">"] ∧ IsDigits s.2) ∧
      t = "rsi_".toList ++ (c.1 ++ '_' :: (c.2.1.toList ++ (c.2.2.1 ++ secondText c.2.2.2))) := by
  have h := reads_of_whole h
  unfold rsiSides at h
  obtain ⟨r₀, ht, h₀⟩ := reads_lit_bind.mp h
  obtain ⟨p, r₁, hp, hr₀, h₁⟩ := reads_digits_bind.mp h₀
  obtain ⟨r₂, hr₁, h₂⟩ := reads_lit_bind.mp h₁
  obtain ⟨op, r₃, hop, hr₂, h₃⟩ := reads_oneOf_bind.mp h₂
  obtain ⟨th, r₄, hth, hr₃, h₄⟩ := reads_digits_bind.mp h₃
  obtain ⟨second, r₅, hsecond, h₅⟩ := reads_bind.mp h₄
  obtain ⟨hc, hend⟩ := reads_pure.mp h₅
  subst hc hend
  have hrest : (∀ s ∈ second, s.1 ∈ ["<", ">"] ∧ IsDigits s.2) ∧ r₄ = secondText second := by
    rcases reads_opt.mp hsecond with ⟨s, rfl, hs⟩ | ⟨rfl, hr₄⟩
    · obtain ⟨q₀, hr₄, h₀⟩ := reads_lit_bind.mp hs
      obtain ⟨op', q₁, hop', hq₀, h₁⟩ := reads_oneOf_bind.mp h₀
      obtain ⟨th', q₂, hth', hq₁, h₂⟩ := reads_digits_bind.mp h₁
      obtain ⟨hs, hend⟩ := reads_pure.mp h₂
      rw [hend, List.append_nil] at hq₁
      subst hs
      refine ⟨fun s hs => ?_, ?_⟩
      · obtain rfl := Option.some.inj hs
        exact ⟨hop', hth'⟩
      · rw [hr₄, hq₀, hq₁]
        rfl
    · refine ⟨fun s hs => ?_, hr₄⟩
      cases hs
  refine ⟨hp, hop, hth, hrest.1, ?_⟩
  rw [ht, hr₀, hr₁, hr₂, hr₃, hrest.2]
  rfl

/-- A band is read with both its bounds. -/
theorem rsiBand_whole {p lo hi : Text} (hp : IsDigits p) (hlo : IsDigits lo) (hhi : IsDigits hi) :
    rsiFullName.whole (rsiText p '>' (lo ++ '_' :: '<' :: hi)) = some (p, lo, some hi) := by
  have hno : ∀ {ds : Text}, IsDigits ds → '_' ∉ ds := fun hds hin => by
    have hdigit := hds.2 '_' hin
    rw [not_isDigit_dash] at hdigit
    cases hdigit
  have hnodash : ∀ {dash ds rest : Text}, IsDigits ds → (dash = [] ∨ dash = ['_']) →
      ∀ {x : Text}, ds ++ rest = dash ++ x → dash = [] := by
    intro dash ds rest hds hdash x heq
    refine hdash.resolve_right fun hd => ?_
    obtain ⟨d, ds', rfl⟩ := List.exists_cons_of_ne_nil hds.1
    rw [hd] at heq
    exact hno hds ((List.cons.inj heq).1 ▸ List.mem_cons_self)
  refine whole_of_unique ?_ fun c hc => ?_
  · unfold rsiFullName rsiText
    refine reads_lit_bind.mpr ⟨_, rfl, reads_digits_bind.mpr ⟨p, _, hp, rfl, reads_lit_bind.mpr
      ⟨_, rfl, reads_bind.mpr ⟨none, _, reads_opt.mpr (Or.inr ⟨rfl, rfl⟩), reads_digits_bind.mpr
        ⟨lo, _, hlo, rfl, reads_bind.mpr ⟨some hi, [], reads_opt.mpr (Or.inl ⟨hi, rfl,
          reads_lit_bind.mpr ⟨hi, rfl, reads_bind.mpr ⟨none, hi, reads_opt.mpr (Or.inr ⟨rfl, rfl⟩),
            reads_digits.mpr ⟨hhi, (List.append_nil hi).symm⟩⟩⟩⟩),
              reads_pure.mpr ⟨rfl, rfl⟩⟩⟩⟩⟩⟩⟩
  · obtain ⟨dash, tail, hp', hth, hdash, htail, ht⟩ := reads_rsiFullName hc
    unfold rsiText at ht
    rw [List.append_cancel_left_eq] at ht
    obtain ⟨hpp, hrest⟩ := run_unique hp.2 hp'.2 (head_not_digit (by decide))
      (head_not_digit (by decide)) ht
    have hrest : lo ++ '_' :: '<' :: hi = dash ++ (c.2.1 ++ tail) :=
      (List.cons.inj (List.cons.inj hrest).2).2
    have hnil := hnodash hlo hdash hrest
    rw [hnil, List.nil_append] at hrest
    have hend : ∀ x ∈ tail.head?, isDigit x = false := by
      rcases htail with ⟨rfl, -⟩ | ⟨dash', hi', rfl, -⟩
      · intro x hx
        cases hx
      · exact head_not_digit (by decide)
    obtain ⟨hlolo, htaileq⟩ := run_unique hlo.2 hth.2 (head_not_digit (by decide)) hend hrest
    rcases htail with ⟨rfl, -⟩ | ⟨dash', hi', rfl, hdash', hsome, hhi'⟩
    · cases htaileq
    · have hhieq : hi = dash' ++ hi' := (List.cons.inj (List.cons.inj htaileq).2).2
      have hnil' : dash' = [] := hnodash hhi hdash' ((List.append_nil hi).trans hhieq)
      rw [hnil', List.nil_append] at hhieq
      rw [hhieq]
      exact Prod.ext hpp.symm (Prod.ext hlolo.symm hsome)

theorem rsiAbove_text {t : Text} {c : Text × Text × Option Text} (h : rsiAbove.whole t = some c) :
    IsDigits c.1 ∧ ∃ rest tail, IsDigits rest ∧ t = rsiText c.1 '>' (rest ++ tail) ∧
      (tail = [] ∨ ∃ hi, tail = '_' :: '<' :: hi) := by
  have h := reads_of_whole h
  unfold rsiAbove at h
  obtain ⟨r₀, ht, h₀⟩ := reads_lit_bind.mp h
  obtain ⟨p, r₁, hp, hr₀, h₁⟩ := reads_digits_bind.mp h₀
  obtain ⟨r₂, hr₁, h₂⟩ := reads_lit_bind.mp h₁
  obtain ⟨th, r₃, hth, hr₂, h₃⟩ := reads_digits_bind.mp h₂
  obtain ⟨ov, r₄, hov, h₄⟩ := reads_bind.mp h₃
  obtain ⟨hc, hend⟩ := reads_pure.mp h₄
  subst hc hend
  refine ⟨hp, th, r₃, hth, ?_, ?_⟩
  · rw [ht, hr₀, hr₁, hr₂]
    rfl
  · rcases reads_opt.mp hov with ⟨_, _, ho⟩ | ⟨_, ho⟩
    · obtain ⟨rest, hr₃, -⟩ := reads_lit_bind.mp ho
      exact Or.inr ⟨rest, hr₃⟩
    · exact Or.inl ho

theorem rsiBelow_text {t : Text} {c : Text × Text} (h : rsiBelow.whole t = some c) :
    IsDigits c.1 ∧ IsDigits c.2 ∧ t = rsiText c.1 '<' c.2 := by
  have h := reads_of_whole h
  unfold rsiBelow at h
  obtain ⟨r₀, ht, h₀⟩ := reads_lit_bind.mp h
  obtain ⟨p, r₁, hp, hr₀, h₁⟩ := reads_digits_bind.mp h₀
  obtain ⟨r₂, hr₁, h₂⟩ := reads_lit_bind.mp h₁
  obtain ⟨th, r₃, hth, hr₂, h₃⟩ := reads_digits_bind.mp h₂
  obtain ⟨hc, hend⟩ := reads_pure.mp h₃
  subst hc hend
  refine ⟨hp, hth, ?_⟩
  rw [ht, hr₀, hr₁, hr₂, List.append_nil]
  rfl

/-- What the parser takes of the RSI atoms. -/
theorem allowed_rsi {t : Text} (h : atomIsAllowed t = true) (hrsi : t.take 2 = ['r', 's']) :
    (rsiAbove.whole t).isSome = true ∨ (rsiBelow.whole t).isSome = true := by
  have miss : ∀ {α : Type} {p : Pattern α} {ws : List String}, StartsWith ws p →
      ((∀ w ∈ ws, 2 ≤ w.toList.length) ∧ ['r', 's'] ∉ ws.map fun w => w.toList.take 2) →
      (p.whole t).isSome = false := by
    intro α p ws hp hws
    cases hw : p.whole t with
    | none => rfl
    | some c => exact absurd (hrsi ▸ hp.take_mem hws.1 hw) hws.2
  unfold atomIsAllowed at h
  rw [miss (p := stackName "sma") (lit_bind_startsWith "sma_stack" _) (by decide),
    miss (p := stackName "ema") (lit_bind_startsWith "ema_stack" _) (by decide),
    miss (p := wordAtom MA_WORDS) (oneOf_bind_startsWith MA_WORDS _) (by decide),
    miss (p := allowedMove "mom" "gt") (lit_bind_startsWith "mom_" _) (by decide),
    miss (p := allowedMove "dip" "lt") (lit_bind_startsWith "dip_" _) (by decide),
    miss (p := wordAtom ["don_hi", "don_lo"])
      (oneOf_bind_startsWith ["don_hi", "don_lo"] _) (by decide),
    miss (p := wordAtom ["near_swing_hi", "near_swing_lo"])
      (oneOf_bind_startsWith ["near_swing_hi", "near_swing_lo"] _) (by decide),
    miss (p := wordAtom ["dbl_bot"]) (oneOf_bind_startsWith ["dbl_bot"] _) (by decide),
    miss (p := allowedHtf "h4") (lit_bind_startsWith "h4_" _) (by decide),
    miss (p := allowedHtf "h1") (lit_bind_startsWith "h1_" _) (by decide)] at h
  simpa using h

/-- The RSI bounds the parser takes: a lower one, an upper one, or a band in this order. -/
theorem rsiShape_of_allowed {p th : Text} {op : String} {second : Option (String × Text)}
    (hp : IsDigits p) (hop : op ∈ ["<", ">"]) (hth : IsDigits th)
    (hsecond : ∀ s ∈ second, s.1 ∈ ["<", ">"])
    (h : atomIsAllowed ("rsi_".toList ++ (p ++ '_' :: (op.toList ++ (th ++ secondText second)))) =
      true) : (op = ">" ∧ ∀ s ∈ second, s.1 = "<") ∨ (op = "<" ∧ second = none) := by
  have hno : ∀ {ds : Text}, IsDigits ds → '_' ∉ ds := fun hds hin => by
    have hdigit := hds.2 '_' hin
    rw [not_isDigit_dash] at hdigit
    cases hdigit
  rcases allowed_rsi h rfl with habove | hbelow
  · obtain ⟨c, hc⟩ := Option.isSome_iff_exists.mp habove
    obtain ⟨hp', rest, tail, hrest, ht, htail⟩ := rsiAbove_text hc
    unfold rsiText at ht
    rw [List.append_cancel_left_eq] at ht
    have hsides := (List.cons.inj (run_unique hp.2 hp'.2 (head_not_digit (by decide))
      (head_not_digit (by decide)) ht).2).2
    rcases List.mem_pair.mp hop with rfl | rfl
    · exact absurd (List.cons.inj hsides).1 (by decide)
    refine Or.inl ⟨rfl, fun s hs => ?_⟩
    have hbounds : th ++ secondText second = rest ++ tail := (List.cons.inj hsides).2
    have hsign := hsecond s hs
    rw [show second = some s from hs] at hbounds
    have hend : ∀ x ∈ tail.head?, isDigit x = false := by
      rcases htail with rfl | ⟨hi, rfl⟩
      · intro x hx
        cases hx
      · exact head_not_digit (by decide)
    have hrun := (run_unique hth.2 hrest.2 (head_not_digit (by decide)) hend hbounds).2
    rcases List.mem_pair.mp hsign with hlt | hgt
    · exact hlt
    · rcases htail with rfl | ⟨hi, rfl⟩
      · cases hrun
      · rw [hgt] at hrun
        exact absurd (List.cons.inj (List.cons.inj hrun).2).1 (by decide)
  · obtain ⟨c, hc⟩ := Option.isSome_iff_exists.mp hbelow
    obtain ⟨hp', hn, ht⟩ := rsiBelow_text hc
    unfold rsiText at ht
    rw [List.append_cancel_left_eq] at ht
    have hsides := (List.cons.inj (run_unique hp.2 hp'.2 (head_not_digit (by decide))
      (head_not_digit (by decide)) ht).2).2
    rcases List.mem_pair.mp hop with rfl | rfl
    · refine Or.inr ⟨rfl, ?_⟩
      have hbounds : th ++ secondText second = c.2 := (List.cons.inj hsides).2
      cases second with
      | none => rfl
      | some s => exact absurd (hbounds ▸ List.mem_append_right th List.mem_cons_self) (hno hn)
    · exact absurd (List.cons.inj hsides).1 (by decide)

/-! ## Numbers and forms -/

/-- The numbers of an atom: its parameters and its thresholds. -/
def AtomParts.numbers (a : AtomParts) : List ℕ := a.params ++ a.bounds.map Prod.snd

/-- What an atom is besides its numbers. -/
def AtomParts.form (a : AtomParts) : String × String × ℕ × List Op :=
  (a.family, a.side, a.params.length, a.bounds.map Prod.fst)

/-- `inspect_atom` knows the atom, and with other numbers as the same atom with these. -/
structure Fits (atom : Text) (s : Slots) : Prop where
  spelt : ∃ ts : List Text, ts.length = s.slots.length ∧ (∀ t ∈ ts, IsDigits t) ∧
    ts.map natOf = s.slots.map Slot.value ∧ s.written ts = atom
  texts : ∀ slot ∈ s.slots, IsDigits slot.text ∧ natOf slot.text = slot.value
  read : ∃ form, ∀ ts : List Text, ts.length = s.slots.length → (∀ t ∈ ts, IsDigits t) →
    ∃ q, inspectAtom (s.written ts) = some q ∧ q.form = form ∧ q.numbers = ts.map natOf ∧
      ∀ c ∈ s.written ts, atomChar c = true

/-- The parser takes the atom with no numbers. -/
structure Refused (s : Slots) : Prop where
  texts : ∀ slot ∈ s.slots, IsDigits slot.text ∧ natOf slot.text = slot.value
  refused : ∀ ts : List Text, ts.length = s.slots.length → (∀ t ∈ ts, IsDigits t) →
    atomIsAllowed (s.written ts) = false ∧ OneAtom (s.written ts)

theorem oneAtom_of_spelt {t : Text} (hne : t ≠ []) (h : ∀ c ∈ t, atomChar c = true) : OneAtom t where
  nonempty := hne
  trimmed := strip_of_spelt h
  whole := fun hin => Bool.false_ne_true ((atomChar_false (by decide)).symm.trans (h '&' hin))

theorem oneAtom_of_inspect {t : Text} {q : AtomParts} (hread : inspectAtom t = some q)
    (h : ∀ c ∈ t, atomChar c = true) : OneAtom t := by
  refine oneAtom_of_spelt (fun hnil => ?_) h
  rw [hnil, inspectAtom_nil] at hread
  cases hread

/-- An RSI atom with two sides, whatever they are. -/
theorem oneAtom_sides {p lo hi : Text} {op sign : String} (hop : op ∈ ["<", ">"])
    (hsign : sign ∈ ["<", ">"]) (hp : IsDigits p) (hlo : IsDigits lo) (hhi : IsDigits hi) :
    OneAtom ((rsiSlots (p, op, lo, some (sign, hi))).written [p, lo, hi]) := by
  have hword : ∀ w ∈ ["<", ">"], ∀ c ∈ w.toList, atomChar c = true := by
    have hall : (["<", ">"].all fun w => w.toList.all atomChar) = true := by decide
    exact fun w hw => List.all_eq_true.mp (List.all_eq_true.mp hall w hw)
  have hfront : ("rsi_".toList.all atomChar) = true := by decide
  refine oneAtom_of_spelt (by simp [rsiSlots]) fun c hc => ?_
  simp only [rsiSlots, List.getD_cons_zero, List.getD_cons_succ, Option.elim_some,
    List.mem_append, List.mem_cons] at hc
  rcases hc with hc | hc | rfl | hc | hc | rfl | hc | hc
  · exact List.all_eq_true.mp hfront c hc
  · exact atomChar_of_isDigit (hp.2 c hc)
  · decide
  · exact hword op hop c hc
  · exact atomChar_of_isDigit (hlo.2 c hc)
  · decide
  · exact hword sign hsign c hc
  · exact atomChar_of_isDigit (hhi.2 c hc)

theorem anew_text (grid : Grid) (ds : Text) :
    IsDigits (Slot.anew grid ds).text ∧ natOf (Slot.anew grid ds).text = (Slot.anew grid ds).value :=
  ⟨isDigits_printed _, natOf_printed _⟩

theorem fits_move {atom : Text} {c : String × Text × String × Text}
    (h : moveAtom.whole atom = some c) : Fits atom (moveSlots c) := by
  obtain ⟨hkind, hlb, hword, hpct, rfl⟩ := moveAtom_iff.mp h
  refine ⟨⟨[c.2.1, c.2.2.2], rfl, List.forall_mem_cons.mpr ⟨hlb, List.forall_mem_singleton.mpr hpct⟩,
    rfl, rfl⟩, List.forall_mem_cons.mpr ⟨anew_text _ _, List.forall_mem_singleton.mpr (anew_text _ _)⟩,
    ⟨(c.1, "", 1, [.gt]), fun ts hlen hts => ?_⟩⟩
  obtain ⟨a, b, rfl⟩ := List.length_eq_two.mp hlen
  obtain ⟨ha, hb⟩ := List.forall_mem_cons.mp hts
  have hread : moveAtom.whole (moveText c.1 a c.2.2.1 b) = some (c.1, a, c.2.2.1, b) :=
    moveAtom_iff.mpr ⟨hkind, ha, hword, hb b (List.mem_singleton_self b), rfl⟩
  exact ⟨_, inspect_move hread, rfl, rfl, spelt_moveAtom.whole hread⟩

theorem fits_htf {atom : Text} {c : String × String × Text} (h : htfName.whole atom = some c) :
    Fits atom (htfSlots c) := by
  obtain ⟨htf, hkind, hn, rfl⟩ := htfName_iff.mp h
  refine ⟨⟨[c.2.2], rfl, List.forall_mem_singleton.mpr hn, rfl, rfl⟩,
    List.forall_mem_singleton.mpr (anew_text _ _),
    ⟨(c.1 ++ "_" ++ c.2.1 ++ "_abv", "", 1, []), fun ts hlen hts => ?_⟩⟩
  obtain ⟨a, rfl⟩ := List.length_eq_one_iff.mp hlen
  have ha := hts a (List.mem_singleton_self a)
  have hread : htfName.whole ((htfSlots c).written [a]) = some (c.1, c.2.1, a) :=
    htfName_iff.mpr ⟨htf, hkind, ha, rfl⟩
  exact ⟨_, inspect_htf hread, rfl, rfl, spelt_htfName.whole hread⟩

theorem fits_word {words : List String} {grid : Grid} {atom : Text} {c : String × Text}
    (hwords : (words.all fun w => w.toList.all atomChar) = true) (hread : ∀ {t : Text} {c : String × Text}, (wordAtom words).whole t = some c →
      inspectAtom t = some (.mk c.1 "" [natOf c.2] [] true t))
    (h : (wordAtom words).whole atom = some c) : Fits atom (wordSlots grid c) := by
  obtain ⟨hword, hn, rfl⟩ := wordAtom_iff.mp h
  refine ⟨⟨[c.2], rfl, List.forall_mem_singleton.mpr hn, rfl, rfl⟩,
    List.forall_mem_singleton.mpr (anew_text _ _), ⟨(c.1, "", 1, []), fun ts hlen hts => ?_⟩⟩
  obtain ⟨a, rfl⟩ := List.length_eq_one_iff.mp hlen
  have ha := hts a (List.mem_singleton_self a)
  have hwhole : (wordAtom words).whole ((wordSlots grid c).written [a]) = some (c.1, a) :=
    wordAtom_iff.mpr ⟨hword, ha, rfl⟩
  exact ⟨_, hread hwhole, rfl, rfl, (spelt_wordAtom hwords).whole hwhole⟩

theorem fits_stack {atom : Text} {c : String × List Text} (h : periodList atom = some c) :
    Fits atom (stackSlots c) := by
  unfold periodList at h
  obtain ⟨d, hd, hparts⟩ := Option.bind_eq_some_iff.mp h
  split at hparts
  next hall =>
    obtain ⟨hkind, hchars, hatom⟩ := stackAtom_text hd
    obtain rfl := Option.some.inj hparts
    have hdigits : ∀ part ∈ d.2.splitOn '_', IsDigits part := by
      intro part hpart
      refine ⟨hall part hpart, fun x hx => ?_⟩
      obtain ⟨hin, hne⟩ := mem_splitOn hpart hx
      have hchar := hchars.2 x hin
      rwa [decide_eq_false hne, Bool.or_false] at hchar
    have hne : d.2.splitOn '_' ≠ [] := List.splitOn_ne_nil '_' d.2
    refine ⟨⟨d.2.splitOn '_', (List.length_map _).symm, hdigits, ?_, ?_⟩, fun slot hslot => ?_,
      ⟨(d.1, "", (d.2.splitOn '_').length, []), fun ts hlen hts => ?_⟩⟩
    · show _ = ((d.2.splitOn '_').map (Slot.anew .ma)).map Slot.value
      rw [List.map_map]
      rfl
    · rw [hatom]
      exact congrArg (fun ds => d.1.toList ++ '_' :: ds) (List.intercalate_splitOn '_')
    · obtain ⟨ds, -, rfl⟩ := List.mem_map.mp hslot
      exact anew_text _ _
    · have hlen : ts.length = (d.2.splitOn '_').length := hlen.trans (List.length_map _)
      have htsne : ts ≠ [] := by
        intro hnil
        rw [hnil] at hlen
        exact hne (List.eq_nil_of_length_eq_zero hlen.symm)
      have hperiods := stackPeriods_intercalate htsne hts
      have hchars' := periodChars_intercalate htsne hts
      rcases List.mem_pair.mp hkind with hk | hk
      · have hread : (stackName "sma").whole ("sma_stack".toList ++ '_' :: List.intercalate ['_'] ts) =
            some (some (List.intercalate ['_'] ts)) := stackName_whole hchars'
        rw [hk]
        refine ⟨_, inspect_smaStack hread, ?_, ?_, (spelt_stackName (by decide)).whole hread⟩
        · unfold AtomParts.form
          rw [hperiods, List.length_map, hlen]
          rfl
        · unfold AtomParts.numbers
          rw [hperiods]
          exact List.append_nil _
      · have hread : (stackName "ema").whole ("ema_stack".toList ++ '_' :: List.intercalate ['_'] ts) =
            some (some (List.intercalate ['_'] ts)) := stackName_whole hchars'
        rw [hk]
        refine ⟨_, inspect_emaStack hread, ?_, ?_, (spelt_stackName (by decide)).whole hread⟩
        · unfold AtomParts.form
          rw [hperiods, List.length_map, hlen]
          rfl
        · unfold AtomParts.numbers
          rw [hperiods]
          exact List.append_nil _
  next => cases hparts

theorem fits_rsi {atom : Text} {c : Text × String × Text × Option (String × Text)}
    (h : rsiSides.whole atom = some c) : Fits atom (rsiSlots c) ∨ Refused (rsiSlots c) := by
  obtain ⟨hp, hop, hth, hsecond, hatom⟩ := rsiSides_text h
  obtain ⟨p, op, th, second⟩ := c
  dsimp only at hp hop hth hsecond hatom
  cases second with
  | none =>
    have hspelt : ∃ ts : List Text, ts.length = (rsiSlots (p, op, th, none)).slots.length ∧
        (∀ t ∈ ts, IsDigits t) ∧
        ts.map natOf = (rsiSlots (p, op, th, none)).slots.map Slot.value ∧
        (rsiSlots (p, op, th, none)).written ts = atom :=
      ⟨[p, th], rfl, List.forall_mem_cons.mpr ⟨hp, List.forall_mem_singleton.mpr hth⟩, rfl,
        hatom.symm⟩
    refine Or.inl ⟨hspelt, List.forall_mem_cons.mpr ⟨anew_text _ _,
      List.forall_mem_singleton.mpr (anew_text _ _)⟩, ?_⟩
    rcases List.mem_pair.mp hop with rfl | rfl
    · refine ⟨("rsi", "", 1, [.lt]), fun ts hlen hts => ?_⟩
      obtain ⟨a, b, rfl⟩ := List.length_eq_two.mp hlen
      obtain ⟨ha, hb⟩ := List.forall_mem_cons.mp hts
      obtain ⟨hfull, hread⟩ := rsiLtName_whole ha (hb b (List.mem_singleton_self b))
      have htext : (rsiSlots (p, "<", th, none)).written [a, b] = rsiText a '<' b := by
        simp [rsiSlots, rsiText]
      rw [htext]
      exact ⟨_, inspect_rsiLt hfull hread, rfl, rfl, spelt_rsiLtName.whole hread⟩
    · refine ⟨("rsi", "", 1, [.gt]), fun ts hlen hts => ?_⟩
      obtain ⟨a, b, rfl⟩ := List.length_eq_two.mp hlen
      obtain ⟨ha, hb⟩ := List.forall_mem_cons.mp hts
      have hread := rsiFullName_whole ha (hb b (List.mem_singleton_self b))
      have htext : (rsiSlots (p, ">", th, none)).written [a, b] = rsiText a '>' b := by
        simp [rsiSlots, rsiText]
      rw [htext]
      exact ⟨_, inspect_rsiFull hread, rfl, rfl, spelt_rsiFullName.whole hread⟩
  | some second =>
    obtain ⟨hsign, hhi⟩ := hsecond second rfl
    by_cases hband : op = ">" ∧ second.1 = "<"
    · obtain ⟨rfl, hlt⟩ := hband
      refine Or.inl ⟨⟨[p, th, second.2], rfl, List.forall_mem_cons.mpr ⟨hp,
          List.forall_mem_cons.mpr ⟨hth, List.forall_mem_singleton.mpr hhi⟩⟩, rfl, hatom.symm⟩,
        List.forall_mem_cons.mpr ⟨anew_text _ _, List.forall_mem_cons.mpr ⟨anew_text _ _,
          List.forall_mem_singleton.mpr ⟨hhi, rfl⟩⟩⟩,
        ⟨("rsi", "", 1, [.gt, .lt]), fun ts hlen hts => ?_⟩⟩
      obtain ⟨a, b, d, rfl⟩ := List.length_eq_three.mp hlen
      obtain ⟨ha, hts⟩ := List.forall_mem_cons.mp hts
      obtain ⟨hb, hd⟩ := List.forall_mem_cons.mp hts
      have hread := rsiBand_whole ha hb (hd d (List.mem_singleton_self d))
      have htext : (rsiSlots (p, ">", th, some second)).written [a, b, d] =
          rsiText a '>' (b ++ '_' :: '<' :: d) := by
        simp [rsiSlots, rsiText, hlt]
      rw [htext]
      exact ⟨_, inspect_rsiFull hread, rfl, rfl, spelt_rsiFullName.whole hread⟩
    · refine Or.inr ⟨List.forall_mem_cons.mpr ⟨anew_text _ _, List.forall_mem_cons.mpr ⟨anew_text _ _,
        List.forall_mem_singleton.mpr ⟨hhi, rfl⟩⟩⟩, fun ts hlen hts => ?_⟩
      obtain ⟨a, b, d, rfl⟩ := List.length_eq_three.mp hlen
      obtain ⟨ha, hts⟩ := List.forall_mem_cons.mp hts
      obtain ⟨hb, hd⟩ := List.forall_mem_cons.mp hts
      refine ⟨?_, oneAtom_sides hop hsign ha hb (hd d (List.mem_singleton_self d))⟩
      cases hallowed : atomIsAllowed ((rsiSlots (p, op, th, some second)).written [a, b, d]) with
      | false => rfl
      | true =>
        have hsigns : ∀ s ∈ some (second.1, d), s.1 ∈ ["<", ">"] := fun s hs => by
          obtain rfl := Option.some.inj hs
          exact hsign
        have hshape := rsiShape_of_allowed ha hop hb hsigns hallowed
        rcases hshape with ⟨hgt, hall⟩ | ⟨_, hnone⟩
        · exact absurd ⟨hgt, hall (second.1, d) rfl⟩ hband
        · cases hnone

/-- The forms of `_replace_atom` are read as they are written, or refused by the parser. -/
theorem fits_or_refused {atom : Text} {s : Slots} (h : slotsOf atom = some s) :
    Fits atom s ∨ Refused s := by
  have built : ∀ {α : Type} {p : Pattern α} {build : α → Slots},
      rule p (fun c => some (build c)) atom = some (some s) →
      ∃ c, p.whole atom = some c ∧ build c = s := by
    intro α p build hr
    obtain ⟨c, hc, hs⟩ := rule_eq_some.mp hr
    exact ⟨c, hc, Option.some.inj hs⟩
  unfold slotsOf at h
  rcases firstRule_eq h with h | ⟨-, h⟩
  · obtain ⟨c, hc, rfl⟩ := built h
    exact Or.inl (fits_move hc)
  rcases firstRule_eq h with h | ⟨-, h⟩
  · obtain ⟨c, hc, rfl⟩ := built h
    exact Or.inl (fits_htf hc)
  rcases firstRule_eq h with h | ⟨-, h⟩
  · obtain ⟨c, hc, rfl⟩ := built h
    exact Or.inl (fits_word (by decide) inspect_average hc)
  rcases firstRule_eq h with h | ⟨-, h⟩
  · obtain ⟨c, hc, hs⟩ := Option.map_eq_some_iff.mp h
    obtain rfl := Option.some.inj hs
    exact Or.inl (fits_stack hc)
  rcases firstRule_eq h with h | ⟨-, h⟩
  · obtain ⟨c, hc, rfl⟩ := built h
    exact fits_rsi hc
  rcases firstRule_eq h with h | ⟨-, h⟩
  · obtain ⟨c, hc, rfl⟩ := built h
    exact Or.inl (fits_word (by decide) inspect_level hc)
  rw [firstRule_nil] at h
  cases h

/-! ## Moving one number -/

/-- The same atom with one number changed. -/
def OneMoved (p q : AtomParts) : Prop :=
  q.form = p.form ∧ ∃ i m n, p.numbers[i]? = some m ∧ n ≠ m ∧ q.numbers = p.numbers.set i n

theorem digits_moveTo {s : Slots}
    (h : ∀ slot ∈ s.slots, IsDigits slot.text ∧ natOf slot.text = slot.value) (i n : ℕ) :
    ((s.slots.map Slot.text).set i (printed n)).length = s.slots.length ∧
      ∀ t ∈ (s.slots.map Slot.text).set i (printed n), IsDigits t := by
  refine ⟨by rw [List.length_set, List.length_map], fun t ht => ?_⟩
  rcases List.mem_or_eq_of_mem_set ht with ht | rfl
  · obtain ⟨slot, hslot, rfl⟩ := List.mem_map.mp ht
    exact (h slot hslot).1
  · exact isDigits_printed n

/-- An atom with a number moved is read as the atom with that number. -/
theorem moveTo_read {atom : Text} {s : Slots} (h : Fits atom s) (i n : ℕ) :
    ∃ p q, inspectAtom atom = some p ∧ p.numbers = s.slots.map Slot.value ∧
      inspectAtom (s.moveTo i n) = some q ∧ q.form = p.form ∧
        q.numbers = (s.slots.map Slot.value).set i n ∧ OneAtom (s.moveTo i n) := by
  obtain ⟨form, hread⟩ := h.read
  obtain ⟨ts, hlen, hdigits, hvalues, hatom⟩ := h.spelt
  obtain ⟨p, hp, hpform, hpnum, -⟩ := hread ts hlen hdigits
  obtain ⟨hlen', hdigits'⟩ := digits_moveTo h.texts i n
  obtain ⟨q, hq, hqform, hqnum, hspelt⟩ := hread _ hlen' hdigits'
  have htexts : (s.slots.map Slot.text).map natOf = s.slots.map Slot.value := by
    rw [List.map_map]
    exact List.map_congr_left fun slot hslot => (h.texts slot hslot).2
  refine ⟨p, q, hatom ▸ hp, hpnum.trans hvalues, hq, hqform.trans hpform.symm, ?_,
    oneAtom_of_inspect hq hspelt⟩
  rw [hqnum, List.map_set, htexts, natOf_printed]

/-- A number is never moved to itself. -/
theorem ne_of_mem_candidates {grid : Grid} {value n : ℕ} (h : n ∈ candidates grid value) :
    n ≠ value := by
  have hfree := (mem_greedy h).2
  simpa [keyTaken] using hfree

theorem of_mem_replaceAtom {atom repl : Text} (h : repl ∈ replaceAtom atom) :
    ∃ s i n slot, slotsOf atom = some s ∧ repl = s.moveTo i n ∧ s.slots[i]? = some slot ∧
      n ≠ slot.value := by
  unfold replaceAtom at h
  cases hs : slotsOf atom with
  | none =>
    rw [hs] at h
    cases h
  | some s =>
    rw [hs] at h
    obtain ⟨e, he, hmem⟩ := List.mem_flatMap.mp h
    obtain ⟨n, hn, rfl⟩ := List.mem_map.mp hmem
    exact ⟨s, e.2, n, e.1, rfl, rfl, List.mem_zipIdx_iff_getElem?.mp he, ne_of_mem_candidates hn⟩

/-- A replacement is one atom of a name. -/
theorem oneAtom_of_mem_replaceAtom {atom repl : Text} (h : repl ∈ replaceAtom atom) :
    OneAtom repl := by
  obtain ⟨s, i, n, slot, hs, rfl, -, -⟩ := of_mem_replaceAtom h
  rcases fits_or_refused hs with hfits | hrefused
  · obtain ⟨-, -, -, -, -, -, -, hone⟩ := moveTo_read hfits i n
    exact hone
  · obtain ⟨hlen, hdigits⟩ := digits_moveTo hrefused.texts i n
    exact (hrefused.refused _ hlen hdigits).2

/-- A replacement the parser takes moves one number of the atom, and is written as moving it
writes the atom. -/
theorem moved_of_mem_replaceAtom {atom repl : Text} (h : repl ∈ replaceAtom atom)
    (hallowed : atomIsAllowed repl = true) : ∃ s i n m p q, slotsOf atom = some s ∧
      repl = s.moveTo i n ∧ inspectAtom atom = some p ∧ inspectAtom repl = some q ∧
        q.form = p.form ∧ p.numbers[i]? = some m ∧ n ≠ m ∧ q.numbers = p.numbers.set i n := by
  obtain ⟨s, i, n, slot, hs, rfl, hslot, hne⟩ := of_mem_replaceAtom h
  rcases fits_or_refused hs with hfits | hrefused
  · obtain ⟨p, q, hp, hpnum, hq, hform, hqnum, -⟩ := moveTo_read hfits i n
    refine ⟨s, i, n, slot.value, p, q, hs, rfl, hp, hq, hform, ?_, hne, ?_⟩
    · rw [hpnum, List.getElem?_map, hslot]
      rfl
    · rw [hqnum, hpnum]
  · obtain ⟨hlen, hdigits⟩ := digits_moveTo hrefused.texts i n
    have hno : atomIsAllowed (s.moveTo i n) = false := (hrefused.refused _ hlen hdigits).1
    rw [hno] at hallowed
    cases hallowed

/-- Two moves of one atom that read alike are one. -/
theorem moveTo_unique {s : Slots} {p : AtomParts} {i j n n' m : ℕ}
    (hi : p.numbers[i]? = some m) (hn : n ≠ m)
    (h : p.numbers.set i n = p.numbers.set j n') : s.moveTo i n = s.moveTo j n' := by
  obtain ⟨hlt, -⟩ := List.getElem?_eq_some_iff.mp hi
  have hat : (p.numbers.set j n')[i]? = some n := by
    rw [← h, List.getElem?_set_self hlt]
  by_cases hij : j = i
  · rw [hij, List.getElem?_set_self hlt] at hat
    rw [hij, Option.some.inj hat]
  · rw [List.getElem?_set_ne hij, hi] at hat
    exact absurd (Option.some.inj hat).symm hn

end PaperTrading.Mint
