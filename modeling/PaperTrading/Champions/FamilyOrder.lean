import PaperTrading.Champions.FamilyPlan
import PaperTrading.Lib.Text
import Mathlib.Data.List.Forall2

/-!
# What the order of the atoms does to a family

`same_family` sorts the atoms of both names as texts and compares them in this order. Two
names whose atoms can be matched (`Matched`) need not match in the sorted order
(`LinesUp`): `95` stands behind `130`.

`same_family_order` says that for names of lower-case atoms this is all there is: the
family rule is reflexive, symmetric and blind to the order of atoms, and it finds the
matched names exactly when they line up.
-/

namespace PaperTrading.Champions

/-! ## Atoms -/

/-- `[a.strip() for a in name.split("&") if a.strip()]` -/
def atomsOf (name : String) : List (List Char) :=
  ((name.toList.splitOn '&').map strip).filter (· ≠ [])

def atomTemplate (atom : List Char) : List Char :=
  (timeframeHead atom).1 ++ (scanNumbers none none (timeframeHead atom).2).2

def atomParams (atom : List Char) : List (ℕ × Bool) :=
  (scanNumbers none none (timeframeHead atom).2).1

/-- Equal thresholds, or periods within the tolerance. -/
def Near (p q : ℕ × Bool) : Prop := p.2 = q.2 ∧ sameParam FAMILY_PARAM_TOL p q = true

/-- The same template, equal thresholds and near periods. -/
structure AtomMatch (a b : List Char) : Prop where
  template : atomTemplate a = atomTemplate b
  params : List.Forall₂ Near (atomParams a) (atomParams b)

/-- The atoms of the two names can be matched one to one. -/
def Matched (a b : String) : Prop :=
  ∃ partners, partners.Perm (atomsOf b) ∧ List.Forall₂ AtomMatch (atomsOf a) partners

/-- In the sorted order every atom stands beside one that it matches. -/
def LinesUp (a b : String) : Prop := List.Forall₂ AtomMatch (sortedAtoms a) (sortedAtoms b)

/-- The same atoms in another order. -/
def SameAtoms (a b : String) : Prop := (a.toList.splitOn '&').Perm (b.toList.splitOn '&')

/-- A name with atoms, none with the capital letter that stands for a number. -/
structure Plain (name : String) : Prop where
  atoms : atomsOf name ≠ []
  lower : ∀ a ∈ atomsOf name, 'N' ∉ a

/-- What the order of atoms must not change. -/
structure OrderFree (a b : String) : Prop where
  matched : Matched a b → sameFamily a b = true
  refl : sameFamily a a = true
  symm : sameFamily a b = sameFamily b a
  permute : ∀ a' b', SameAtoms a a' → SameAtoms b b' → sameFamily a' b' = sameFamily a b

theorem sortedAtoms_eq (name : String) :
    sortedAtoms name = (atomsOf name).insertionSort fun a b => ¬ b < a := rfl

theorem familySignature_eq (name : String) : familySignature name =
    if strip name.toList = [] then none
    else some (['&'].intercalate ((sortedAtoms name).map atomTemplate),
      (sortedAtoms name).flatMap atomParams) := by
  unfold familySignature
  simp only [List.map_map, List.flatMap_map]
  rfl

/-- Sorting forgets the order. -/
theorem sortedAtoms_perm {a b : String} (h : (atomsOf a).Perm (atomsOf b)) :
    sortedAtoms a = sortedAtoms b := by
  have : Std.Total (fun a b : List Char => ¬ b < a) := ⟨fun a b => List.le_total a b⟩
  have : IsTrans (List Char) (fun a b => ¬ b < a) := ⟨fun a b c => List.le_trans⟩
  have : Std.Antisymm (fun a b : List Char => ¬ b < a) := ⟨fun a b => List.le_antisymm⟩
  rw [sortedAtoms_eq, sortedAtoms_eq]
  have hperm := ((List.perm_insertionSort (fun a b : List Char => ¬ b < a) _).trans h).trans
    (List.perm_insertionSort (fun a b : List Char => ¬ b < a) _).symm
  exact hperm.eq_of_pairwise' (List.pairwise_insertionSort _ _) (List.pairwise_insertionSort _ _)

theorem mem_sortedAtoms {name : String} {atom : List Char} :
    atom ∈ sortedAtoms name ↔ atom ∈ atomsOf name := List.mem_insertionSort _

theorem SameAtoms.atoms {a b : String} (h : SameAtoms a b) : (atomsOf a).Perm (atomsOf b) :=
  (h.map strip).filter _

theorem SameAtoms.plain {a b : String} (h : SameAtoms a b) (ha : Plain a) : Plain b := by
  refine ⟨fun hnil => ha.atoms ?_, fun atom hatom => ha.lower atom (h.atoms.mem_iff.mpr hatom)⟩
  have hperm := h.atoms
  rw [hnil] at hperm
  exact List.perm_nil.mp hperm

/-! ## Templates -/

theorem strip_subset (t : List Char) : strip t ⊆ t := by
  intro c hc
  unfold strip at hc
  rw [List.mem_reverse] at hc
  have hrev := List.dropWhile_subset _ hc
  rw [List.mem_reverse] at hrev
  exact List.dropWhile_subset _ hrev

theorem amp_not_mem {name : String} {atom : List Char} (h : atom ∈ atomsOf name) : '&' ∉ atom := by
  obtain ⟨piece, hpiece, rfl⟩ := List.mem_map.mp (List.mem_filter.mp h).1
  exact fun hamp => (Lib.mem_splitOn hpiece (strip_subset piece hamp)).2 rfl

/-- What a body is turned into has no digit, and no character but `N` is new. -/
theorem mem_shape {before : Option Char} {number : Option (ℕ × Bool)} {cs : List Char} {c : Char}
    (h : c ∈ (scanNumbers before number cs).2) : c = 'N' ∨ c ∈ cs ∧ c.isDigit = false := by
  induction cs generalizing before number with
  | nil =>
    cases number with
    | none => cases h
    | some p => exact Or.inl (List.mem_singleton.mp h)
  | cons d cs ih =>
    rw [scanNumbers] at h
    split at h
    next =>
      rcases ih h with hN | ⟨hmem, hdigit⟩
      · exact Or.inl hN
      · exact Or.inr ⟨List.mem_cons_of_mem _ hmem, hdigit⟩
    next hd =>
      have hrest : c = 'N' ∨ c = d ∨ c ∈ (scanNumbers (some d) none cs).2 := by
        cases number with
        | none => exact Or.inr (List.mem_cons.mp h)
        | some p => exact List.mem_cons.mp h |>.imp_right List.mem_cons.mp
      rcases hrest with hN | rfl | hmem
      · exact Or.inl hN
      · exact Or.inr ⟨List.mem_cons_self, by simpa using hd⟩
      · rcases ih hmem with hN | ⟨hmem, hdigit⟩
        · exact Or.inl hN
        · exact Or.inr ⟨List.mem_cons_of_mem _ hmem, hdigit⟩

/-! ## The timeframe in front -/

theorem timeframeHead_form {digits : List Char} (hne : digits ≠ []) (hall : ∀ d ∈ digits, d.isDigit)
    (body : List Char) :
    timeframeHead ('h' :: digits ++ '_' :: body) = ('h' :: digits ++ ['_'], body) := by
  have htake : (digits ++ '_' :: body).takeWhile (·.isDigit) = digits := by
    rw [List.takeWhile_append_of_pos hall, List.takeWhile_cons_of_neg (by decide), List.append_nil]
  have hdrop : (digits ++ '_' :: body).dropWhile (·.isDigit) = '_' :: body := by
    rw [List.dropWhile_append_of_pos hall, List.dropWhile_cons_of_neg (by decide)]
  simp only [timeframeHead, List.cons_append, htake, hdrop]
  cases digits with
  | nil => exact absurd rfl hne
  | cons d digits => rfl

theorem timeframeHead_cases (atom : List Char) :
    (∃ digits body, digits ≠ [] ∧ (∀ d ∈ digits, d.isDigit) ∧ atom = 'h' :: digits ++ '_' :: body) ∨
      timeframeHead atom = ([], atom) := by
  unfold timeframeHead
  split
  next rest =>
    dsimp only
    split
    next d digits body hdigits hbody =>
      refine Or.inl ⟨d :: digits, body, List.cons_ne_nil _ _, ?_, ?_⟩
      · rw [← hdigits]
        exact fun d hd => List.mem_takeWhile_imp hd
      · rw [← hdigits, ← hbody, List.cons_append, List.takeWhile_append_dropWhile]
    next => exact Or.inr rfl
  next => exact Or.inr rfl

theorem timeframeHead_shape {shape : List Char} (h : ∀ c ∈ shape, c.isDigit = false) :
    timeframeHead shape = ([], shape) := by
  rcases timeframeHead_cases shape with ⟨digits, body, hne, hall, rfl⟩ | hhead
  · obtain ⟨d, hd⟩ := List.exists_mem_of_ne_nil _ hne
    have hdigit := hall d hd
    rw [h d (List.mem_cons_of_mem _ (List.mem_append_left _ hd))] at hdigit
    cases hdigit
  · exact hhead

/-- The timeframe of an atom is that of its template. -/
theorem timeframeHead_template (atom : List Char) : timeframeHead (atomTemplate atom) =
    ((timeframeHead atom).1, (scanNumbers none none (timeframeHead atom).2).2) := by
  have hshape : ∀ body, ∀ c ∈ (scanNumbers none none body).2, c.isDigit = false := by
    intro body c hc
    rcases mem_shape hc with rfl | ⟨-, hdigit⟩
    · decide
    · exact hdigit
  unfold atomTemplate
  rcases timeframeHead_cases atom with ⟨digits, body, hne, hall, rfl⟩ | hhead
  · rw [timeframeHead_form hne hall]
    dsimp only
    rw [List.append_assoc, List.singleton_append, timeframeHead_form hne hall]
  · rw [hhead]
    exact timeframeHead_shape (hshape atom)

theorem body_subset (atom : List Char) : (timeframeHead atom).2 ⊆ atom := by
  rcases timeframeHead_cases atom with ⟨digits, body, hne, hall, rfl⟩ | hhead
  · rw [timeframeHead_form hne hall]
    exact fun c hc => List.mem_append_right _ (List.mem_cons_of_mem _ hc)
  · rw [hhead]
    exact fun c hc => hc

theorem head_subset (atom : List Char) : (timeframeHead atom).1 ⊆ atom := by
  rcases timeframeHead_cases atom with ⟨digits, body, hne, hall, rfl⟩ | hhead
  · rw [timeframeHead_form hne hall]
    intro c hc
    rcases List.mem_append.mp hc with hc | hc
    · exact List.mem_append_left _ hc
    · exact List.mem_append_right _ (List.mem_singleton.mp hc ▸ List.mem_cons_self)
  · rw [hhead]
    exact fun c hc => absurd hc List.not_mem_nil

theorem amp_not_mem_template {atom : List Char} (h : '&' ∉ atom) : '&' ∉ atomTemplate atom := by
  intro hmem
  rcases List.mem_append.mp hmem with hmem | hmem
  · exact h (head_subset atom hmem)
  · rcases mem_shape hmem with hN | ⟨hmem, -⟩
    · cases hN
    · exact h (body_subset atom hmem)

/-! ## Marks -/

/-- The `exact` marks of a body, read off what it is turned into. -/
def marksOf : Option Char → List Char → List Bool
  | _, [] => []
  | before, c :: shape =>
    if c = 'N' then (beforeExact before || ['p', 'c'].isPrefixOf shape) :: marksOf (some c) shape
    else marksOf (some c) shape

/-- Inside a number: its own mark and those behind it. -/
def marksFrom (before : Option Char) : Option (ℕ × Bool) → List Char → List Bool
  | none, shape => marksOf before shape
  | some p, shape => (p.2 || ['p', 'c'].isPrefixOf shape.tail) :: marksOf (some 'N') shape.tail

/-- A number being read becomes an `N` in front. -/
theorem shape_number (before : Option Char) (p : ℕ × Bool) (cs : List Char) :
    (scanNumbers before (some p) cs).2 = 'N' :: (scanNumbers before (some p) cs).2.tail := by
  induction cs generalizing before p with
  | nil => rfl
  | cons c cs ih =>
    rw [scanNumbers]
    split
    next => exact ih _ _
    next => rfl

/-- A `pc` behind a number stays where it is. -/
theorem pc_scan (before : Option Char) (c : Char) (cs : List Char) :
    ['p', 'c'].isPrefixOf (c :: (scanNumbers before none cs).2) =
      ['p', 'c'].isPrefixOf (c :: cs) := by
  cases cs with
  | nil => rfl
  | cons d cs =>
    rw [scanNumbers]
    split
    next hd =>
      have hne : d ≠ 'c' := fun h => by rw [h] at hd; exact absurd hd (by decide)
      rw [shape_number]
      simp [List.isPrefixOf, hne.symm]
    next => simp [List.isPrefixOf]

theorem marks_scan {cs : List Char} (hcs : 'N' ∉ cs) (before : Option Char)
    (number : Option (ℕ × Bool)) : (scanNumbers before number cs).1.map Prod.snd =
      marksFrom before number (scanNumbers before number cs).2 := by
  induction cs generalizing before number with
  | nil =>
    cases number with
    | none => rfl
    | some p => simp [scanNumbers, marksFrom, marksOf]
  | cons c cs ih =>
    have hrest : 'N' ∉ cs := fun h => hcs (List.mem_cons_of_mem _ h)
    have hc : c ≠ 'N' := fun h => hcs (h ▸ List.mem_cons_self)
    rw [scanNumbers]
    split
    next hd =>
      rw [ih hrest, shape_number]
      cases number with
      | none => rfl
      | some p => rfl
    next =>
      have hbehind := ih hrest (some c) none
      cases number with
      | none =>
        show (scanNumbers (some c) none cs).1.map Prod.snd = marksOf before (c :: _)
        rw [marksOf, if_neg hc, hbehind]
        rfl
      | some p =>
        show (p.2 || ['p', 'c'].isPrefixOf (c :: cs)) ::
            (scanNumbers (some c) none cs).1.map Prod.snd =
          (p.2 || ['p', 'c'].isPrefixOf (c :: (scanNumbers (some c) none cs).2)) ::
            marksOf (some 'N') (c :: (scanNumbers (some c) none cs).2)
        rw [pc_scan, marksOf, if_neg hc, hbehind]
        rfl

/-- The template of an atom says which of its numbers are thresholds. -/
theorem marks_template {atom : List Char} (h : 'N' ∉ atom) :
    (atomParams atom).map Prod.snd = marksOf none (timeframeHead (atomTemplate atom)).2 := by
  rw [timeframeHead_template]
  exact marks_scan (fun hmem => h (body_subset atom hmem)) none none

theorem marks_eq {a b : List Char} (ha : 'N' ∉ a) (hb : 'N' ∉ b)
    (h : atomTemplate a = atomTemplate b) :
    (atomParams a).map Prod.snd = (atomParams b).map Prod.snd := by
  rw [marks_template ha, marks_template hb, h]

/-! ## Matches -/

theorem sameParam_refl (p : ℕ × Bool) : sameParam FAMILY_PARAM_TOL p p = true := by
  unfold sameParam
  split
  next => exact decide_eq_true rfl
  next =>
    rw [sub_self, abs_zero]
    refine decide_eq_true (not_lt.mpr (mul_nonneg ?_ Rat.natCast_nonneg))
    decide +kernel

theorem sameParam_comm {p q : ℕ × Bool} (h : p.2 = q.2) :
    sameParam FAMILY_PARAM_TOL p q = sameParam FAMILY_PARAM_TOL q p := by
  unfold sameParam
  rw [h, abs_sub_comm, max_comm, Bool.decide_congr eq_comm]

theorem Near.symm {p q : ℕ × Bool} (h : Near p q) : Near q p :=
  ⟨h.1.symm, (sameParam_comm h.1).symm.trans h.2⟩

theorem AtomMatch.refl (a : List Char) : AtomMatch a a :=
  ⟨rfl, List.forall₂_same.mpr fun p _ => ⟨rfl, sameParam_refl p⟩⟩

theorem AtomMatch.symm {a b : List Char} (h : AtomMatch a b) : AtomMatch b a :=
  ⟨h.template.symm, h.params.flip.imp fun _ _ => Near.symm⟩

theorem LinesUp.refl (a : String) : LinesUp a a := List.forall₂_same.mpr fun a _ => AtomMatch.refl a

theorem LinesUp.symm {a b : String} (h : LinesUp a b) : LinesUp b a :=
  h.flip.imp fun _ _ => AtomMatch.symm

theorem forall₂_templates {as bs : List (List Char)} (h : List.Forall₂ AtomMatch as bs) :
    as.map atomTemplate = bs.map atomTemplate := by
  induction h with
  | nil => rfl
  | cons hm _ ih => rw [List.map_cons, List.map_cons, hm.template, ih]

/-- Numbers with the same marks are near when they are compared so. -/
theorem forall₂_near {ps qs : List (ℕ × Bool)} (h : ps.map Prod.snd = qs.map Prod.snd) :
    List.Forall₂ Near ps qs ↔
      ((ps.zip qs).all fun p => sameParam FAMILY_PARAM_TOL p.1 p.2) = true := by
  induction ps generalizing qs with
  | nil =>
    cases qs with
    | nil => exact iff_of_true List.Forall₂.nil rfl
    | cons q qs => cases h
  | cons p ps ih =>
    cases qs with
    | nil => cases h
    | cons q qs =>
      obtain ⟨hmark, hrest⟩ := List.cons.inj h
      rw [List.forall₂_cons, List.zip_cons_cons, List.all_cons, Bool.and_eq_true, ih hrest]
      exact and_congr_left fun _ => and_iff_right hmark

/-- Atoms with the same templates match when all their numbers are compared at once. -/
theorem forall₂_atomMatch {as bs : List (List Char)} (ha : ∀ a ∈ as, 'N' ∉ a)
    (hb : ∀ b ∈ bs, 'N' ∉ b) (h : as.map atomTemplate = bs.map atomTemplate) :
    (as.flatMap atomParams).length = (bs.flatMap atomParams).length ∧
    (List.Forall₂ AtomMatch as bs ↔ (((as.flatMap atomParams).zip (bs.flatMap atomParams)).all
      fun p => sameParam FAMILY_PARAM_TOL p.1 p.2) = true) := by
  induction as generalizing bs with
  | nil =>
    cases bs with
    | nil => exact ⟨rfl, iff_of_true List.Forall₂.nil rfl⟩
    | cons b bs => cases h
  | cons a as ih =>
    cases bs with
    | nil => cases h
    | cons b bs =>
      obtain ⟨htemplate, hrest⟩ := List.cons.inj h
      have hmarks := marks_eq (ha a List.mem_cons_self) (hb b List.mem_cons_self) htemplate
      have hlen : (atomParams a).length = (atomParams b).length := by
        rw [← List.length_map Prod.snd, hmarks, List.length_map]
      obtain ⟨hlens, hiff⟩ := ih (fun a ha' => ha a (List.mem_cons_of_mem _ ha'))
        (fun b hb' => hb b (List.mem_cons_of_mem _ hb')) hrest
      rw [List.flatMap_cons, List.flatMap_cons]
      refine ⟨by rw [List.length_append, List.length_append, hlen, hlens], ?_⟩
      rw [List.forall₂_cons, List.zip_append hlen, List.all_append, Bool.and_eq_true, hiff,
        ← forall₂_near hmarks]
      exact and_congr_left fun _ => ⟨fun hm => hm.params, fun hp => ⟨htemplate, hp⟩⟩

/-! ## The family rule -/

theorem strip_eq_nil {t : List Char} (h : strip t = []) : ∀ c ∈ t, c.isWhitespace := by
  unfold strip at h
  rw [List.reverse_eq_nil_iff, List.dropWhile_eq_nil_iff] at h
  intro c hc
  rw [← List.takeWhile_append_dropWhile (p := (·.isWhitespace)) (l := t), List.mem_append] at hc
  rcases hc with hc | hc
  · exact List.mem_takeWhile_imp hc
  · exact h c (List.mem_reverse.mpr hc)

theorem strip_of_whitespace {t : List Char} (h : ∀ c ∈ t, c.isWhitespace) : strip t = [] := by
  unfold strip
  rw [List.dropWhile_eq_nil_iff.mpr h]
  rfl

theorem Plain.strip_ne {name : String} (h : Plain name) : strip name.toList ≠ [] := by
  intro hnil
  refine h.atoms (List.filter_eq_nil_iff.mpr fun atom hatom => ?_)
  obtain ⟨piece, hpiece, rfl⟩ := List.mem_map.mp hatom
  have hblank : strip piece = [] := strip_of_whitespace fun c hc =>
    strip_eq_nil hnil c (Lib.mem_splitOn hpiece hc).1
  rw [hblank]
  decide

theorem Plain.sorted_ne {name : String} (h : Plain name) :
    (sortedAtoms name).map atomTemplate ≠ [] := by
  obtain ⟨atom, hatom⟩ := List.exists_mem_of_ne_nil _ h.atoms
  exact List.ne_nil_of_mem (List.mem_map_of_mem (mem_sortedAtoms.mpr hatom))

/-- The joined templates are equal when the templates are. -/
theorem join_templates {a b : String} (ha : Plain a) (hb : Plain b) :
    ['&'].intercalate ((sortedAtoms a).map atomTemplate) =
        ['&'].intercalate ((sortedAtoms b).map atomTemplate) ↔
      (sortedAtoms a).map atomTemplate = (sortedAtoms b).map atomTemplate := by
  have hamp : ∀ name, ∀ t ∈ (sortedAtoms name).map atomTemplate, '&' ∉ t := by
    intro name t ht
    obtain ⟨atom, hatom, rfl⟩ := List.mem_map.mp ht
    exact amp_not_mem_template (amp_not_mem (mem_sortedAtoms.mp hatom))
  constructor
  · intro h
    rw [← List.splitOn_intercalate '&' (hamp a) ha.sorted_ne, h,
      List.splitOn_intercalate '&' (hamp b) hb.sorted_ne]
  · intro h
    rw [h]

/-- Two names are of one family when their sorted atoms line up. -/
theorem sameFamily_iff {a b : String} (ha : Plain a) (hb : Plain b) :
    sameFamily a b = true ↔ LinesUp a b := by
  by_cases hab : a = b
  · subst hab
    unfold sameFamily
    rw [beq_self_eq_true, Bool.true_or]
    exact iff_of_true rfl (LinesUp.refl a)
  · have hlower : ∀ {name}, Plain name → ∀ atom ∈ sortedAtoms name, 'N' ∉ atom :=
      fun h atom hatom => h.lower atom (mem_sortedAtoms.mp hatom)
    unfold sameFamily
    rw [beq_false_of_ne hab, Bool.false_or, familySignature_eq, familySignature_eq,
      if_neg ha.strip_ne, if_neg hb.strip_ne]
    show ((_ == _) && (_ == _) && _) = true ↔ _
    rw [Bool.and_eq_true, Bool.and_eq_true, beq_iff_eq, beq_iff_eq, join_templates ha hb, and_assoc]
    unfold LinesUp
    constructor
    · rintro ⟨htemplates, -, hall⟩
      exact (forall₂_atomMatch (hlower ha) (hlower hb) htemplates).2.mpr hall
    · intro h
      have htemplates := forall₂_templates h
      obtain ⟨hlen, hiff⟩ := forall₂_atomMatch (hlower ha) (hlower hb) htemplates
      exact ⟨htemplates, hlen, hiff.mp h⟩

/-! ## Order -/

theorem SameAtoms.sorted {a b : String} (h : SameAtoms a b) : sortedAtoms a = sortedAtoms b :=
  sortedAtoms_perm h.atoms

theorem sameFamily_permute {a b a' b' : String} (ha : Plain a) (hb : Plain b) (haa : SameAtoms a a')
    (hbb : SameAtoms b b') : sameFamily a' b' = sameFamily a b := by
  rw [Bool.eq_iff_iff, sameFamily_iff (haa.plain ha) (hbb.plain hb), sameFamily_iff ha hb]
  unfold LinesUp
  rw [haa.sorted, hbb.sorted]

theorem sameFamily_comm {a b : String} (ha : Plain a) (hb : Plain b) :
    sameFamily a b = sameFamily b a := by
  rw [Bool.eq_iff_iff, sameFamily_iff ha hb, sameFamily_iff hb ha]
  exact ⟨LinesUp.symm, LinesUp.symm⟩

/-- Lists with the same images are related when equal images are. -/
theorem forall₂_of_map_eq {α β : Type} {R : α → α → Prop} {f : α → β} {as bs : List α}
    (h : as.map f = bs.map f) (hR : ∀ a ∈ as, ∀ b ∈ bs, f a = f b → R a b) :
    List.Forall₂ R as bs := by
  induction as generalizing bs with
  | nil =>
    cases bs with
    | nil => exact List.Forall₂.nil
    | cons b bs => cases h
  | cons a as ih =>
    cases bs with
    | nil => cases h
    | cons b bs =>
      obtain ⟨hhead, htail⟩ := List.cons.inj h
      refine List.Forall₂.cons (hR a List.mem_cons_self b List.mem_cons_self hhead) (ih htail ?_)
      exact fun a ha b hb => hR a (List.mem_cons_of_mem _ ha) b (List.mem_cons_of_mem _ hb)

theorem Matched.partner {a b : String} (h : Matched a b) {atom : List Char}
    (hatom : atom ∈ sortedAtoms a) : ∃ partner ∈ sortedAtoms b, AtomMatch atom partner := by
  obtain ⟨partners, hperm, hmatch⟩ := h
  obtain ⟨k, hk⟩ := List.mem_iff_getElem?.mp (mem_sortedAtoms.mp hatom)
  have hlen : partners.length = (atomsOf a).length := hmatch.length_eq.symm
  obtain ⟨hlt, rfl⟩ := List.getElem?_eq_some_iff.mp hk
  refine ⟨partners[k], mem_sortedAtoms.mpr (hperm.mem_iff.mp (List.getElem_mem _)), ?_⟩
  exact (List.forall₂_iff_get.mp hmatch).2 k hlt (hlen ▸ hlt)

/-- Matched names line up when no template occurs twice and both sort theirs alike. -/
theorem Matched.linesUp {a b : String} (h : Matched a b)
    (halike : (sortedAtoms a).map atomTemplate = (sortedAtoms b).map atomTemplate)
    (honce : ((sortedAtoms b).map atomTemplate).Nodup) : LinesUp a b := by
  refine forall₂_of_map_eq halike fun atom hatom other hother htemplate => ?_
  obtain ⟨partner, hpartner, hmatch⟩ := h.partner hatom
  rw [← List.inj_on_of_nodup_map honce hpartner hother (hmatch.template.symm.trans htemplate)]
  exact hmatch

end PaperTrading.Champions
