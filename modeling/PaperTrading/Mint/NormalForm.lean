import Mathlib.Data.List.Nodup
import PaperTrading.Mint.Strict

/-!
# The canonical name as a normal form

The atoms of a canonical name are the atoms kept of each indicator and the operands the
mint does not know, sorted (`canonicalAtoms_kept`); read again they are the same, so the
canonical name of a canonical name is itself. Two names have one canonical name when the
same atoms are kept of them and the same operands left as they are (`canonicalName_eq_iff`).

An atom is kept as it is spelt, and an operand the mint does not know as often as it is
there. So names that differ in the order, the number or the spelling of their atoms have one
canonical name only if the same spellings decide in both and each operand that is not known
is there as often (`canonicalName_normal`).
-/

namespace PaperTrading.Mint

open Lib Pattern
open Signals

/-! ## Joined atoms -/

/-- A text that is one atom of a joined name: trimmed, not empty, without a separator. -/
structure OneAtom (t : Text) : Prop where
  nonempty : t ≠ []
  trimmed : strip t = t
  whole : '&' ∉ t

theorem atomsOf_joined {texts : List Text} (h : ∀ t ∈ texts, OneAtom t) :
    atomsOf (joined texts) = texts := by
  by_cases hnil : texts = []
  · rw [hnil]
    rfl
  · unfold atomsOf joined
    rw [List.splitOn_intercalate '&' (fun t ht => (h t ht).whole) hnil]
    have hstrip : texts.map strip = texts := by
      conv_rhs => rw [← List.map_id texts]
      exact List.map_congr_left fun t ht => (h t ht).trimmed
    rw [hstrip]
    exact List.filter_eq_self.mpr fun t ht => decide_eq_true (h t ht).nonempty

/-- Sorting forgets the order. -/
theorem sortedTexts_perm {ts us : List Text} (h : ts.Perm us) : sortedTexts ts = sortedTexts us := by
  have : Std.Total (fun a b : Text => ¬ b < a) := ⟨fun a b => List.le_total a b⟩
  have : IsTrans Text (fun a b => ¬ b < a) := ⟨fun a b c => List.le_trans⟩
  have : Std.Antisymm (fun a b : Text => ¬ b < a) := ⟨fun a b => List.le_antisymm⟩
  have hperm := ((List.perm_insertionSort (fun a b : Text => ¬ b < a) ts).trans h).trans
    (List.perm_insertionSort (fun a b : Text => ¬ b < a) us).symm
  unfold sortedTexts
  exact hperm.eq_of_pairwise' (List.pairwise_insertionSort _ _) (List.pairwise_insertionSort _ _)

/-! ## What is kept -/

/-- The atoms kept of a name. -/
def kept (x : Text) : List AtomParts := (indicators x).flatMap fun key => strictAtoms (groupOf x key)

theorem canonicalAtoms_kept (x : Text) :
    canonicalAtoms x = sortedTexts ((kept x).map AtomParts.raw ++ unknown x) := by
  rw [canonicalAtoms_eq]
  unfold kept
  rw [List.map_flatMap]
  simp only [strictRaw_eq (oneIndicator_groupOf x _)]

theorem known_of_mem_strictAtoms {x : Text} {key : String × String × List ℕ} {a : AtomParts}
    (ha : a ∈ strictAtoms (groupOf x key)) : inspectAtom a.raw = some a ∧ a.key = key :=
  strictAtoms_known (oneIndicator_groupOf x key) ha

theorem mem_kept {x : Text} {a : AtomParts} : a ∈ kept x ↔ a ∈ strictAtoms (groupOf x a.key) := by
  unfold kept
  rw [List.mem_flatMap]
  constructor
  · rintro ⟨key, -, ha⟩
    rwa [(known_of_mem_strictAtoms ha).2]
  · intro ha
    refine ⟨a.key, mem_indicators.mpr ?_, ha⟩
    rcases mem_strictAtoms ha with hin | ⟨sample, hin, -⟩
    · exact ⟨a, hin⟩
    · exact ⟨sample, hin⟩

theorem nodup_strictAtoms (group : List AtomParts) : (strictAtoms group).Nodup := by
  unfold strictAtoms
  split
  next => exact List.nodup_singleton _
  next =>
    cases group with
    | nil => exact List.nodup_nil
    | cons sample rest =>
      refine List.Nodup.map_on (fun b _ b' _ heq => ?_) (nodup_ends _ _)
      have hbounds := congrArg AtomParts.bounds heq
      rw [bounds_chosen, bounds_chosen] at hbounds
      exact (List.cons.inj hbounds).1

theorem nodup_kept (x : Text) : (kept x).Nodup := by
  unfold kept
  refine List.nodup_flatMap.mpr ⟨fun key _ => nodup_strictAtoms _, ?_⟩
  refine (nodup_firstSeen _).imp fun {key key'} hne => List.disjoint_left.mpr fun a ha ha' => hne ?_
  rw [← (known_of_mem_strictAtoms ha).2, (known_of_mem_strictAtoms ha').2]

theorem kept_perm_iff {x y : Text} : (kept x).Perm (kept y) ↔ ∀ a, a ∈ kept x ↔ a ∈ kept y :=
  List.perm_ext_iff_of_nodup (nodup_kept x) (nodup_kept y)

theorem inspect_kept {x : Text} {a : AtomParts} (ha : a ∈ kept x) : inspectAtom a.raw = some a :=
  (known_of_mem_strictAtoms (mem_kept.mp ha)).1

theorem oneAtom_of_mem_atomsOf {x tok : Text} (h : tok ∈ atomsOf x) : OneAtom tok := by
  have hne := ne_nil_of_mem_atomsOf h
  unfold atomsOf at h
  obtain ⟨r, hr, rfl⟩ := List.mem_map.mp (List.mem_filter.mp h).1
  exact ⟨hne, strip_strip r, fun hin => (mem_splitOn hr (strip_subset r hin)).2 rfl⟩

theorem oneAtom_kept {x : Text} {a : AtomParts} (ha : a ∈ kept x) : OneAtom a.raw := by
  have hread := inspect_kept ha
  have hinspected := inspected hread
  have hraw : strip a.raw = a.raw := (raw_inspected hinspected).symm
  refine ⟨inspectAtom_raw hread, hraw, fun hin => ?_⟩
  rw [← hraw] at hin
  cases (spelt_inspected hinspected '&' hin).symm.trans (atomChar_false (by decide))

theorem mem_canonicalAtoms_iff {x t : Text} :
    t ∈ canonicalAtoms x ↔ (∃ a ∈ kept x, a.raw = t) ∨ t ∈ unknown x := by
  rw [canonicalAtoms_kept, mem_sortedTexts, List.mem_append, List.mem_map]

theorem oneAtom_canonicalAtoms {x t : Text} (ht : t ∈ canonicalAtoms x) : OneAtom t := by
  rcases mem_canonicalAtoms_iff.mp ht with ⟨a, ha, rfl⟩ | ht
  · exact oneAtom_kept ha
  · exact oneAtom_of_mem_atomsOf (List.mem_filter.mp ht).1

theorem atomsOf_canonical (x : Text) :
    (atomsOf (canonicalName x)).Perm ((kept x).map AtomParts.raw ++ unknown x) := by
  unfold canonicalName
  rw [atomsOf_joined fun t ht => oneAtom_canonicalAtoms ht, canonicalAtoms_kept]
  exact List.perm_insertionSort _ _

/-- The atoms a canonical name has are those kept of the name. -/
theorem known_canonical (x : Text) : (known (canonicalName x)).Perm (kept x) := by
  refine ((atomsOf_canonical x).filterMap inspectAtom).trans (List.Perm.of_eq ?_)
  have hkept : ((kept x).map AtomParts.raw).filterMap inspectAtom = kept x := by
    rw [List.filterMap_map]
    exact (List.filterMap_congr fun a ha => inspect_kept ha).trans List.filterMap_some
  have hunknown : (unknown x).filterMap inspectAtom = [] :=
    List.filterMap_eq_nil_iff.mpr fun t ht => Option.isNone_iff_eq_none.mp (List.mem_filter.mp ht).2
  rw [List.filterMap_append, hkept, hunknown, List.append_nil]

theorem unknown_canonical (x : Text) : (unknown (canonicalName x)).Perm (unknown x) := by
  refine ((atomsOf_canonical x).filter _).trans (List.Perm.of_eq ?_)
  have hkept : ((kept x).map AtomParts.raw).filter (fun tok => (inspectAtom tok).isNone) = [] := by
    refine List.filter_eq_nil_iff.mpr fun t ht => ?_
    obtain ⟨a, ha, rfl⟩ := List.mem_map.mp ht
    rw [inspect_kept ha]
    exact Bool.false_ne_true
  rw [List.filter_append, hkept, List.nil_append]
  exact List.filter_eq_self.mpr fun t ht => (List.mem_filter.mp ht).2

/-- Two names have one canonical name when the same is kept of them. -/
theorem canonicalName_eq_iff {x y : Text} : canonicalName x = canonicalName y ↔
    (kept x).Perm (kept y) ∧ (unknown x).Perm (unknown y) := by
  constructor
  · intro heq
    refine ⟨(known_canonical x).symm.trans ?_, (unknown_canonical x).symm.trans ?_⟩
    · rw [heq]
      exact known_canonical y
    · rw [heq]
      exact unknown_canonical y
  · rintro ⟨hkept, hunknown⟩
    unfold canonicalName
    rw [canonicalAtoms_kept, canonicalAtoms_kept,
      sortedTexts_perm ((hkept.map AtomParts.raw).append hunknown)]

/-- The atoms kept of one indicator. -/
theorem kept_filter (x : Text) (key : String × String × List ℕ) :
    ((kept x).filter fun a => a.key = key).Perm (strictAtoms (groupOf x key)) := by
  refine (List.perm_ext_iff_of_nodup ((nodup_kept x).filter _) (nodup_strictAtoms _)).mpr fun b => ?_
  rw [List.mem_filter, decide_eq_true_eq]
  constructor
  · rintro ⟨hb, hkey⟩
    rw [← hkey]
    exact mem_kept.mp hb
  · intro hb
    have hkey := (known_of_mem_strictAtoms hb).2
    exact ⟨mem_kept.mpr (by rwa [hkey]), hkey⟩

/-- A canonical name is its own canonical name. -/
theorem canonicalName_canonical (x : Text) : canonicalName (canonicalName x) = canonicalName x := by
  refine canonicalName_eq_iff.mpr ⟨kept_perm_iff.mpr fun a => ?_, unknown_canonical x⟩
  have hgroup : (groupOf (canonicalName x) a.key).Perm (strictAtoms (groupOf x a.key)) :=
    ((known_canonical x).filter _).trans (kept_filter x a.key)
  rw [mem_kept, mem_kept, strictAtoms_perm hgroup]

/-! ## Spellings -/

/-- What an atom is read as, whatever its spelling: a stack without periods has those it
stands for. -/
def AtomParts.reading (a : AtomParts) : String × String × List ℕ × List (Op × ℕ) :=
  (a.family, a.side,
    if (a.family = "sma_stack" ∨ a.family = "ema_stack") ∧ a.params = [] then [7, 25, 50] else a.params,
    a.bounds)

/-- Names with the same atoms, in any order, number and spelling. -/
def Variant (x y : Text) : Prop :=
  ∀ r, r ∈ (known x).map AtomParts.reading ↔ r ∈ (known y).map AtomParts.reading

/-- An atom of a name that decides how its indicator is written: the first of the indicator
with its bounds, and these are the strictest, or one of them where no atom has them all. -/
structure Deciding (x : Text) (a : AtomParts) : Prop where
  first : (groupOf x a.key).find? (fun b => b.bounds = a.bounds) = some a
  strictest : a.bounds = wanted (groupOf x a.key) ∨
    (∀ b ∈ groupOf x a.key, b.bounds ≠ wanted (groupOf x a.key)) ∧
      ∃ b ∈ wanted (groupOf x a.key), a.bounds = [b]

/-- The atoms written of a group that are its own. -/
theorem mem_strictAtoms_iff {group : List AtomParts} {a : AtomParts} :
    a ∈ strictAtoms group ∧ a ∈ group ↔ group.find? (fun b => b.bounds = a.bounds) = some a ∧
      (a.bounds = wanted group ∨
        (∀ b ∈ group, b.bounds ≠ wanted group) ∧ ∃ b ∈ wanted group, a.bounds = [b]) := by
  unfold strictAtoms
  constructor
  · rintro ⟨hwritten, hin⟩
    split at hwritten
    next a' hfind =>
      obtain rfl := List.mem_singleton.mp hwritten
      have hall : a.bounds = wanted group := by simpa using List.find?_some hfind
      rw [← hall] at hfind
      exact ⟨hfind, Or.inl hall⟩
    next hmiss =>
      have hnone : ∀ b ∈ group, b.bounds ≠ wanted group := fun b hb => by
        simpa using List.find?_eq_none.mp hmiss b hb
      cases group with
      | nil => cases hin
      | cons sample rest =>
        obtain ⟨b, hb, rfl⟩ := List.mem_map.mp hwritten
        have hbounds : (chosen sample (sample :: rest) b).bounds = [b] := bounds_chosen sample b
        refine ⟨?_, Or.inr ⟨hnone, b, hb, hbounds⟩⟩
        rw [hbounds]
        cases hfind : (sample :: rest).find? fun a => a.bounds = [b] with
        | none =>
          have hno := List.find?_eq_none.mp hfind _ hin
          exact absurd (decide_eq_true hbounds) hno
        | some a =>
          unfold chosen
          rw [hfind]
          rfl
  · rintro ⟨hfirst, hstrictest⟩
    refine ⟨?_, List.mem_of_find?_eq_some hfirst⟩
    rcases hstrictest with hall | ⟨hnone, b, hb, hone⟩
    · rw [hall] at hfirst
      rw [hfirst]
      exact List.mem_singleton_self a
    · rw [List.find?_eq_none.mpr fun b hb => by simpa using hnone b hb]
      cases group with
      | nil => cases hfirst
      | cons sample rest =>
        refine List.mem_map.mpr ⟨b, hb, ?_⟩
        rw [hone] at hfirst
        unfold chosen
        rw [hfirst]
        rfl

theorem deciding_iff {x : Text} {a : AtomParts} :
    Deciding x a ↔ a ∈ kept x ∧ a ∈ groupOf x a.key := by
  rw [mem_kept, mem_strictAtoms_iff]
  exact ⟨fun h => ⟨h.first, h.strictest⟩, fun h => ⟨h.1, h.2⟩⟩

/-- The family, the side and the bounds of an atom are read, and, but for a stack, its
parameters. -/
theorem reading_inj {a b : AtomParts} (h : a.reading = b.reading)
    (hstack : a.family ≠ "sma_stack" ∧ a.family ≠ "ema_stack") : a.key = b.key ∧ a.bounds = b.bounds := by
  unfold AtomParts.reading at h
  obtain ⟨hfamily, h⟩ := Prod.mk.inj h
  obtain ⟨hside, h⟩ := Prod.mk.inj h
  obtain ⟨hparams, hbounds⟩ := Prod.mk.inj h
  rw [if_neg (fun hor => hor.1.elim hstack.1 hstack.2),
    if_neg (fun hor => hor.1.elim (hfamily ▸ hstack.1) (hfamily ▸ hstack.2))] at hparams
  unfold AtomParts.key
  exact ⟨by rw [hfamily, hside, hparams], hbounds⟩

/-- Of an indicator that has bounds, variants have atoms with the same bounds. -/
theorem Variant.bounds {x y : Text} (h : Variant x y) {a : AtomParts} (ha : a ∈ known x)
    (hb : a.bounds ≠ []) : ∃ b ∈ groupOf y a.key, b.bounds = a.bounds := by
  obtain ⟨b, hmem, hread⟩ := List.mem_map.mp ((h a.reading).mp (List.mem_map_of_mem ha))
  obtain ⟨o, -, ho⟩ := mem_known.mp ha
  have hstack : a.family ≠ "sma_stack" ∧ a.family ≠ "ema_stack" := by
    have hfamily := (bounds_ne_nil_iff ho).mp hb
    simp only [List.mem_cons, List.not_mem_nil, or_false] at hfamily
    rcases hfamily with hf | hf | hf <;> simp [hf]
  obtain ⟨hkey, hbounds⟩ := reading_inj hread.symm hstack
  exact ⟨b, mem_groupOf.mpr ⟨hmem, hkey.symm⟩, hbounds.symm⟩

/-- Of the atoms kept of both of two variants, the same decide. -/
theorem Variant.deciding {x y : Text} (h : Variant x y) {a : AtomParts} (ha : Deciding x a)
    (hkept : a ∈ kept y) : Deciding y a := by
  obtain ⟨-, hin⟩ := deciding_iff.mp ha
  refine deciding_iff.mpr ⟨hkept, ?_⟩
  rcases mem_strictAtoms (mem_kept.mp hkept) with hin' | ⟨sample, -, b, -, hprinted, hno⟩
  · exact hin'
  · -- a bound printed in one name is printed in the other
    have hbounds : a.bounds = [b] := by
      rw [hprinted]
      rfl
    obtain ⟨a', ha', hsame⟩ := h.bounds (mem_groupOf.mp hin).1 (by simp [hbounds])
    exact absurd (hsame.trans hbounds) (hno a' ha').2

theorem Variant.sameWanted {x y : Text} (h : Variant x y) (hback : Variant y x)
    (key : String × String × List ℕ) : wanted (groupOf y key) = wanted (groupOf x key) := by
  have hsub : ∀ {u v : Text}, Variant u v → ∀ b, (∃ a ∈ groupOf u key, b ∈ a.bounds) →
      ∃ a ∈ groupOf v key, b ∈ a.bounds := by
    rintro u v huv b ⟨a, ha, hb⟩
    obtain ⟨hknown, rfl⟩ := mem_groupOf.mp ha
    obtain ⟨a', ha', hsame⟩ := huv.bounds hknown (List.ne_nil_of_mem hb)
    exact ⟨a', ha', hsame ▸ hb⟩
  exact wanted_congr fun b => ⟨hsub hback b, hsub h b⟩

theorem Variant.symm {x y : Text} (h : Variant x y) : Variant y x := fun r => (h r).symm

/-- What is kept of a name is kept of a variant in which the same atoms decide. -/
theorem Variant.keeps {x y : Text} (h : Variant x y) (hdecide : ∀ a, Deciding x a → Deciding y a)
    {a : AtomParts} (ha : a ∈ kept x) : a ∈ kept y := by
  rcases mem_strictAtoms (mem_kept.mp ha) with hin | ⟨sample, hsample, b, hb, hprinted, hno⟩
  · exact (deciding_iff.mp (hdecide a (deciding_iff.mpr ⟨ha, hin⟩))).1
  · -- the bound is wanted of the variant too, and no atom of it has it alone
    have hgroup := oneIndicator_groupOf x a.key
    obtain ⟨p, hp⟩ := rsi_of_missing hgroup hb fun a' ha' => (hno a' ha').2
    have hwanted := h.sameWanted h.symm a.key
    have hback : ∀ a' ∈ groupOf y a.key, a'.bounds ≠ [] → ∃ a'' ∈ groupOf x a.key,
        a''.bounds = a'.bounds := by
      intro a' ha' hne
      obtain ⟨hknown, hkey⟩ := mem_groupOf.mp ha'
      rw [← hkey]
      exact h.symm.bounds hknown hne
    have hmiss : (groupOf y a.key).find? (fun a' => a'.bounds = wanted (groupOf y a.key)) = none := by
      refine List.find?_eq_none.mpr fun a' ha' heq => ?_
      have heq := (of_decide_eq_true heq).trans hwanted
      obtain ⟨a'', ha'', hsame⟩ := hback a' ha' (by rw [heq]; exact List.ne_nil_of_mem hb)
      exact (hno a'' ha'').1 (hsame.trans heq)
    have hmiss' : (groupOf y a.key).find? (fun a' => a'.bounds = [b]) = none := by
      refine List.find?_eq_none.mpr fun a' ha' heq => ?_
      have heq : a'.bounds = [b] := of_decide_eq_true heq
      obtain ⟨a'', ha'', hsame⟩ := hback a' ha' (by simp [heq])
      exact (hno a'' ha'').2 (hsame.trans heq)
    rw [← hwanted] at hb
    rw [mem_kept]
    unfold strictAtoms
    rw [hmiss]
    have hgroup' := oneIndicator_groupOf y a.key
    generalize groupOf y a.key = group at hb hmiss' hgroup'
    cases group with
    | nil => cases hb
    | cons sample' rest =>
      refine List.mem_map.mpr ⟨b, hb, ?_⟩
      unfold chosen
      rw [hmiss', Option.getD_none, hprinted,
        strictAtom_rsi ((hgroup' sample' List.mem_cons_self).2.trans hp),
        strictAtom_rsi ((hgroup sample hsample).2.trans hp)]

theorem variant_of_readings {x y : Text}
    (h : (known x).map AtomParts.reading ⊆ (known y).map AtomParts.reading)
    (h' : (known y).map AtomParts.reading ⊆ (known x).map AtomParts.reading) : Variant x y :=
  fun _ => ⟨fun hr => h hr, fun hr => h' hr⟩

end PaperTrading.Mint
