import PaperTrading.Mint.Slots

/-!
# Neighbours and canonical names

A neighbour is the name with one number of one of its atoms changed (`Replaced`), and one
the mint takes. The canonical name cannot tell it from the name, though, where the number is
the end of a band that another atom of the indicator makes superfluous: `rsi_14_>45_<80` and
`rsi_14_>40_<80` are the same beside `rsi_14_>50` (`bands_shared_alias`).

Where no band shares its indicator, no neighbour has the name's canonical name; and where the
name has no atom twice, no two neighbours have the same one (`neighborNames_apart`).
-/

namespace PaperTrading.Mint

open Lib
open Signals (parseStrategy)

/-! ## Groups of a changed name -/

/-- The atom is one of an indicator. -/
def hasKey (key : String × String × List ℕ) (tok : Text) : Bool :=
  (inspectAtom tok).any fun a => a.key = key

theorem hasKey_eq {tok : Text} {a : AtomParts} (h : inspectAtom tok = some a)
    (key : String × String × List ℕ) : hasKey key tok = decide (a.key = key) := by
  unfold hasKey
  rw [h]
  rfl

theorem length_groupOf (x : Text) (key : String × String × List ℕ) :
    (groupOf x key).length = (atomsOf x).countP (hasKey key) := by
  unfold groupOf known
  rw [← List.countP_eq_length_filter, List.countP_filterMap]
  refine List.countP_congr fun tok _ => ?_
  unfold hasKey
  cases inspectAtom tok <;> simp

/-- A name with an atom in the place of another, and one number of the atom changed. -/
structure Replaced (x y : Text) (i : ℕ) (tok repl : Text) (p q : AtomParts) : Prop where
  here : (atomsOf x)[i]? = some tok
  atoms : atomsOf y = (atomsOf x).set i repl
  old : inspectAtom tok = some p
  new : inspectAtom repl = some q
  moved : OneMoved p q

section
variable {x y : Text} {i : ℕ} {tok repl : Text} {p q : AtomParts}

theorem OneMoved.ne (h : OneMoved p q) : q ≠ p := by
  obtain ⟨-, j, m, n, hj, hne, hnum⟩ := h
  rintro rfl
  obtain ⟨hlt, -⟩ := List.getElem?_eq_some_iff.mp hj
  rw [hnum, List.getElem?_set_self hlt] at hj
  exact hne (Option.some.inj hj)

theorem OneMoved.bounds_length (h : OneMoved p q) : q.bounds.length = p.bounds.length := by
  have hops : q.bounds.map Prod.fst = p.bounds.map Prod.fst := congrArg (fun f => f.2.2.2) h.1
  have hlen := congrArg List.length hops
  rwa [List.length_map, List.length_map] at hlen

/-- The atom's own text is what a name is made of. -/
theorem raw_of_mem {a : AtomParts} (ht : tok ∈ atomsOf x) (h : inspectAtom tok = some a) :
    a.raw = tok :=
  (raw_inspected (inspected h)).trans (oneAtom_of_mem_atomsOf ht).trimmed

theorem mem_atomsOf_of_known {a : AtomParts} (ht : tok ∈ atomsOf y) (h : inspectAtom tok = some a)
    (hin : a ∈ known x) : tok ∈ atomsOf x := by
  obtain ⟨t, ht', hread⟩ := List.mem_filterMap.mp hin
  rwa [← raw_of_mem ht h, raw_of_mem ht' hread]

theorem mem_groupOf_of_mem {a : AtomParts} (ht : tok ∈ atomsOf x) (h : inspectAtom tok = some a) :
    a ∈ groupOf x a.key :=
  mem_groupOf.mpr ⟨List.mem_filterMap.mpr ⟨tok, ht, h⟩, rfl⟩

namespace Replaced

variable (h : Replaced x y i tok repl p q)
include h

theorem lt : i < (atomsOf x).length := (List.getElem?_eq_some_iff.mp h.here).1

theorem mem_old : tok ∈ atomsOf x := List.mem_of_getElem? h.here

theorem mem_new : repl ∈ atomsOf y := by
  rw [h.atoms]
  exact List.mem_of_getElem? (List.getElem?_set_self h.lt)

/-- The name lost an atom of one indicator and got one of another. -/
theorem length_groupOf (key : String × String × List ℕ) :
    (groupOf y key).length + (if p.key = key then 1 else 0) =
      (groupOf x key).length + if q.key = key then 1 else 0 := by
  obtain ⟨hlt, hget⟩ := List.getElem?_eq_some_iff.mp h.here
  have hcount := List.countP_set (p := hasKey key) (a := repl) hlt
  rw [hget, hasKey_eq h.old, hasKey_eq h.new, ← h.atoms] at hcount
  rw [Mint.length_groupOf, Mint.length_groupOf, hcount]
  simp only [decide_eq_true_eq]
  by_cases hp : p.key = key
  · have hpos : 0 < (atomsOf x).countP (hasKey key) :=
      List.countP_pos_iff.mpr ⟨tok, h.mem_old, by rw [hasKey_eq h.old]; exact decide_eq_true hp⟩
    rw [if_pos hp]
    omega
  · rw [if_neg hp]
    omega

/-- A plain group is plain with the atom changed, unless it got one more. -/
theorem plain {key : String × String × List ℕ} (hplain : Plain (groupOf x key))
    (hkey : q.key = key → p.key = key) : Plain (groupOf y key) := by
  rcases hplain with hshort | hone
  · have hlen := h.length_groupOf key
    refine Or.inl ?_
    by_cases hq : q.key = key
    · rw [if_pos hq, if_pos (hkey hq)] at hlen
      omega
    · rw [if_neg hq] at hlen
      omega
  · refine Or.inr fun a ha => ?_
    obtain ⟨hin, hk⟩ := mem_groupOf.mp ha
    obtain ⟨t, ht, hread⟩ := List.mem_filterMap.mp hin
    rw [h.atoms] at ht
    rcases List.mem_or_eq_of_mem_set ht with ht | rfl
    · exact hone a (mem_groupOf.mpr ⟨List.mem_filterMap.mpr ⟨t, ht, hread⟩, hk⟩)
    · obtain rfl := Option.some.inj (h.new.symm.trans hread)
      rw [h.moved.bounds_length]
      exact hone p (mem_groupOf.mpr ⟨List.mem_filterMap.mpr ⟨tok, h.mem_old, h.old⟩, hkey hk⟩)

end Replaced

/-! ## Repeated atoms -/

/-- A name the guard of bounds lets pass has no known atom twice. -/
theorem nodup_known (h : redundantBoundReason y = none) : (known y).Nodup := by
  refine List.nodup_iff_count_le_one.mpr fun a => ?_
  have hgroup : (groupOf y a.key).Nodup := by
    refine List.nodup_iff_getElem?_ne_getElem?.mpr fun i j hij hj heq => ?_
    have hget := List.getElem?_eq_getElem hj
    exact absurd ((unimplied_groupOf h a.key).once (heq.trans hget) hget) (by omega)
  have hcount : (groupOf y a.key).count a = (known y).count a :=
    List.count_filter (decide_eq_true rfl)
  rw [← hcount]
  exact List.nodup_iff_count_le_one.mp hgroup a

/-- The atom that came is not one the name has. -/
theorem Replaced.fresh (h : Replaced x y i tok repl p q) (hguard : redundantBoundReason y = none) :
    repl ∉ atomsOf x := by
  intro hin
  obtain ⟨j, hj⟩ := List.mem_iff_getElem?.mp hin
  by_cases hij : j = i
  · rw [hij, h.here] at hj
    obtain rfl := Option.some.inj hj
    exact h.moved.ne (Option.some.inj (h.new.symm.trans h.old))
  · -- it would be in the changed name twice
    have hpair := List.pairwise_filterMap.mp (nodup_known hguard)
    have hlt := h.lt
    obtain ⟨hjlt, -⟩ := List.getElem?_eq_some_iff.mp hj
    have hi : (atomsOf y)[i]? = some repl := by rw [h.atoms, List.getElem?_set_self hlt]
    have hj : (atomsOf y)[j]? = some repl := by
      rw [h.atoms, List.getElem?_set_ne (fun heq => hij heq.symm), hj]
    obtain ⟨hilt, hi⟩ := List.getElem?_eq_some_iff.mp hi
    obtain ⟨hjlt', hj⟩ := List.getElem?_eq_some_iff.mp hj
    rw [List.pairwise_iff_getElem] at hpair
    rcases Nat.lt_or_gt_of_ne hij with hlt | hgt
    · exact hpair j i hjlt' hilt hlt q (hj ▸ h.new) q (hi ▸ h.new) rfl
    · exact hpair i j hilt hjlt' hgt q (hi ▸ h.new) q (hj ▸ h.new) rfl

/-! ## Bands alone -/

/-- No band of the name shares its indicator with another atom. -/
def BandsAlone (name : Text) : Prop :=
  ∀ a ∈ known name, a.bounds.length = 2 → (groupOf name a.key).length = 1

instance (name : Text) : Decidable (BandsAlone name) :=
  inferInstanceAs (Decidable (∀ a ∈ known name, _))

theorem BandsAlone.plain (h : BandsAlone x) (key : String × String × List ℕ) :
    Plain (groupOf x key) := by
  by_cases hone : ∀ a ∈ groupOf x key, a.bounds.length ≤ 1
  · exact Or.inr hone
  · push Not at hone
    obtain ⟨a, ha, hlen⟩ := hone
    obtain ⟨hin, rfl⟩ := mem_groupOf.mp ha
    obtain ⟨t, -, hread⟩ := List.mem_filterMap.mp hin
    obtain ⟨lo, hi, hends⟩ := bounds_ends hread
    have htwo : a.bounds.length ≤ 2 := by
      rw [hends]
      unfold ends
      cases lo <;> cases hi <;> simp
    exact Or.inl (h a hin (by omega)).le

/-! ## The name itself -/

/-- Where the bands are alone the changed name has not the name's canonical name. -/
theorem Replaced.not_alias (h : Replaced x y i tok repl p q) (hguard : redundantBoundReason y = none)
    (hbands : BandsAlone x) : canonicalName y ≠ canonicalName x := by
  intro heq
  have hle := length_groupOf_le heq hguard q.key
  have hlen := h.length_groupOf q.key
  rw [if_pos rfl] at hlen
  have hkey : p.key = q.key := by
    by_contra hne
    rw [if_neg hne] at hlen
    omega
  have hplain := hbands.plain q.key
  have hin := mem_groupOf_of_alias heq hguard (h.plain hplain fun _ => hkey) hplain
    (mem_groupOf_of_mem h.mem_new h.new)
  exact h.fresh hguard (mem_atomsOf_of_known h.mem_new h.new (mem_groupOf.mp hin).1)

/-! ## Two changed names -/

section
variable {z : Text} {j : ℕ} {tok' repl' : Text} {p' q' : AtomParts}

/-- A number whose change gives another indicator is a parameter. -/
theorem params_of_key {k n : ℕ} (hform : q.form = p.form) (hnum : q.numbers = p.numbers.set k n)
    (hkey : q.key ≠ p.key) : q.numbers = q.params ++ p.bounds.map Prod.snd := by
  have hlen : q.params.length = p.params.length := congrArg (fun f => f.2.2.1) hform
  by_cases hk : k < p.params.length
  · unfold AtomParts.numbers at hnum
    rw [List.set_append_left k n hk] at hnum
    have hbounds := (List.append_inj hnum (hlen.trans (List.length_set).symm)).2
    unfold AtomParts.numbers
    rw [hbounds]
  · unfold AtomParts.numbers at hnum
    rw [List.set_append_right k n (not_lt.mp hk)] at hnum
    have hparams := (List.append_inj hnum hlen).1
    have hfamily : q.family = p.family := congrArg Prod.fst hform
    have hside : q.side = p.side := congrArg (fun f => f.2.1) hform
    refine absurd ?_ hkey
    unfold AtomParts.key
    rw [hfamily, hside, hparams]

/-- Two changes of one atom with one canonical name are the same. -/
theorem Replaced.same_atom (h : Replaced x y i tok repl p q) (h' : Replaced x z i tok repl' p q')
    (hguard : redundantBoundReason y = none)
    (heq : canonicalName y = canonicalName z) (hbands : BandsAlone x) {s : Slots} {k k' n n' m : ℕ}
    (hrepl : repl = s.moveTo k n) (hrepl' : repl' = s.moveTo k' n') (hform : q.form = p.form)
    (hform' : q'.form = p.form) (hm : p.numbers[k]? = some m) (hne : n ≠ m)
    (hnum : q.numbers = p.numbers.set k n) (hnum' : q'.numbers = p.numbers.set k' n') :
    repl = repl' := by
  have hkeys : q'.key = q.key := by
    have hlen := h.length_groupOf q.key
    have hlen' := h'.length_groupOf q.key
    have hle := length_groupOf_le heq hguard q.key
    by_contra hno
    rw [if_pos rfl] at hlen
    rw [if_neg hno] at hlen'
    omega
  by_cases hkey : q.key = p.key
  · -- the indicator is the old one: the atom is kept in both
    have hplain := h.plain (hbands.plain q.key) fun _ => hkey.symm
    have hplain' := h'.plain (hbands.plain q.key) fun _ => hkey.symm
    have hin := mem_groupOf_of_alias heq hguard hplain hplain' (mem_groupOf_of_mem h.mem_new h.new)
    have hmem := mem_atomsOf_of_known h.mem_new h.new (mem_groupOf.mp hin).1
    rw [h'.atoms] at hmem
    exact (List.mem_or_eq_of_mem_set hmem).resolve_left (h.fresh hguard)
  · -- the indicator says which number was changed, and to what
    have hparams : q'.params = q.params := congrArg (fun key => key.2.2) hkeys
    have hread := params_of_key hform hnum hkey
    have hread' := params_of_key hform' hnum' (hkeys ▸ hkey)
    have hsame : p.numbers.set k n = p.numbers.set k' n' := by
      rw [← hnum, ← hnum', hread, hread', hparams]
    rw [hrepl, hrepl', moveTo_unique hm hne hsame]

/-- Changes of two atoms of a name without repeated atoms have two canonical names. -/
theorem Replaced.not_alias_of_ne (h : Replaced x y i tok repl p q)
    (h' : Replaced x z j tok' repl' p' q') (hguard : redundantBoundReason y = none)
    (hguard' : redundantBoundReason z = none) (hbands : BandsAlone x) (hnodup : (atomsOf x).Nodup)
    (hij : i ≠ j) : canonicalName y ≠ canonicalName z := by
  intro heq
  have hlen := h.length_groupOf p.key
  have hlen' := h'.length_groupOf p.key
  have hle := length_groupOf_le heq hguard p.key
  have hge := length_groupOf_le heq.symm hguard' p.key
  -- the other change brings no atom to the indicator
  have hkey : q'.key = p.key → p'.key = p.key := by
    intro hq
    by_contra hp
    rw [if_pos rfl] at hlen
    rw [if_pos hq, if_neg hp] at hlen'
    split at hlen <;> omega
  have hplain := h.plain (hbands.plain p.key) fun _ => rfl
  have hplain' := h'.plain (hbands.plain p.key) hkey
  have hstays : tok ∈ atomsOf z := by
    rw [h'.atoms]
    refine List.mem_of_getElem? (i := i) ?_
    rw [List.getElem?_set_ne (fun he => hij he.symm), h.here]
  have hin := mem_groupOf_of_alias heq.symm hguard' hplain' hplain (mem_groupOf_of_mem hstays h.old)
  have hmem := mem_atomsOf_of_known hstays h.old (mem_groupOf.mp hin).1
  obtain ⟨k, hk⟩ := List.mem_iff_getElem?.mp hmem
  rw [h.atoms] at hk
  by_cases hki : k = i
  · rw [hki, List.getElem?_set_self h.lt] at hk
    obtain rfl := Option.some.inj hk
    exact h.moved.ne (Option.some.inj (h.new.symm.trans h.old))
  · rw [List.getElem?_set_ne (fun he => hki he.symm)] at hk
    have hlt := h.lt
    obtain ⟨hklt, hk⟩ := List.getElem?_eq_some_iff.mp hk
    obtain ⟨hilt, hi⟩ := List.getElem?_eq_some_iff.mp h.here
    exact hki ((hnodup.getElem_inj_iff).mp (hk.trans hi.symm))

end

end

/-! ## Neighbours -/

section
variable {ctx : MintContext} {sqrt : ℚ → ℚ} {name candidate : Text}

/-- A name proposed is the name with a replacement in the place of an atom. -/
theorem of_mem_neighborNames (h : candidate ∈ neighborNames ctx sqrt name) :
    acceptable ctx sqrt candidate = true ∧ candidate ≠ name ∧ ∃ i tok repl,
      (atomsOf name)[i]? = some tok ∧ repl ∈ replaceAtom tok ∧
        candidate = joined ((atomsOf name).set i repl) := by
  unfold neighborNames at h
  obtain ⟨hskip, hfree⟩ := mem_greedy h
  obtain ⟨e, he, hmem⟩ := List.mem_flatMap.mp ((greedy_sublist _ _).mem h)
  obtain ⟨repl, hrepl, rfl⟩ := List.mem_map.mp hmem
  refine ⟨by simpa using hskip, by simpa [keyTaken] using hfree, e.2, e.1, repl,
    List.mem_zipIdx_iff_getElem?.mp he, hrepl, rfl⟩

theorem atomsOf_replaced {i : ℕ} {tok repl : Text} (hrepl : repl ∈ replaceAtom tok) :
    atomsOf (joined ((atomsOf name).set i repl)) = (atomsOf name).set i repl := by
  refine atomsOf_joined fun t ht => ?_
  rcases List.mem_or_eq_of_mem_set ht with ht | rfl
  · exact oneAtom_of_mem_atomsOf ht
  · exact oneAtom_of_mem_replaceAtom hrepl

/-- What the mint says of a neighbour. -/
theorem acceptable_iff : acceptable ctx sqrt candidate = true ↔
    nameHasMomGtAndDip candidate = false ∧
      lookbackTooExpensive candidate ctx.structureLookbackMax = false ∧
      mintBlockReason ctx candidate [] = none ∧ nameIsParseable candidate = true ∧
      (parseStrategy sqrt candidate).isOk = true := by
  unfold acceptable
  simp only [Bool.and_eq_true, Bool.not_eq_true', Option.isNone_iff_eq_none, and_assoc]

theorem guard_of_acceptable (h : acceptable ctx sqrt candidate = true) :
    redundantBoundReason candidate = none := by
  obtain ⟨-, -, hblock, -, -⟩ := acceptable_iff.mp h
  unfold mintBlockReason at hblock
  simp only [Option.or_eq_none_iff] at hblock
  exact hblock.1.1.2

/-- A neighbour is the name with one number of one atom moved. -/
theorem replaced_of_acceptable {i : ℕ} {tok repl : Text} (htok : (atomsOf name)[i]? = some tok)
    (hrepl : repl ∈ replaceAtom tok)
    (h : acceptable ctx sqrt (joined ((atomsOf name).set i repl)) = true) :
    ∃ s k n m p q, slotsOf tok = some s ∧ repl = s.moveTo k n ∧ q.form = p.form ∧
      p.numbers[k]? = some m ∧ n ≠ m ∧ q.numbers = p.numbers.set k n ∧
      Replaced name (joined ((atomsOf name).set i repl)) i tok repl p q := by
  obtain ⟨-, -, -, hparse, -⟩ := acceptable_iff.mp h
  have hatoms : atomsOf (joined ((atomsOf name).set i repl)) = (atomsOf name).set i repl :=
    atomsOf_replaced hrepl
  have hallowed : atomIsAllowed repl = true := by
    unfold nameIsParseable at hparse
    simp only [Bool.and_eq_true] at hparse
    refine List.all_eq_true.mp hparse.2 repl ?_
    rw [hatoms]
    exact List.mem_of_getElem? (List.getElem?_set_self (List.getElem?_eq_some_iff.mp htok).1)
  obtain ⟨s, k, n, m, p, q, hs, hmove, hp, hq, hform, hm, hne, hnum⟩ :=
    moved_of_mem_replaceAtom hrepl hallowed
  exact ⟨s, k, n, m, p, q, hs, hmove, hform, hm, hne, hnum,
    htok, hatoms, hp, hq, hform, k, m, n, hm, hne, hnum⟩

/-- Two neighbours with one canonical name are one. -/
theorem neighbour_unique {candidate' : Text} (hbands : BandsAlone name)
    (hnodup : (atomsOf name).Nodup) (h : candidate ∈ neighborNames ctx sqrt name)
    (h' : candidate' ∈ neighborNames ctx sqrt name)
    (heq : canonicalName candidate = canonicalName candidate') : candidate = candidate' := by
  obtain ⟨hok, -, i, tok, repl, htok, hrepl, rfl⟩ := of_mem_neighborNames h
  obtain ⟨hok', -, j, tok', repl', htok', hrepl', rfl⟩ := of_mem_neighborNames h'
  obtain ⟨s, k, n, m, p, q, hs, hmove, hform, hm, hne, hnum, hrep⟩ :=
    replaced_of_acceptable htok hrepl hok
  obtain ⟨s', k', n', m', p', q', hs', hmove', hform', -, -, hnum', hrep'⟩ :=
    replaced_of_acceptable htok' hrepl' hok'
  have hguard := guard_of_acceptable hok
  have hguard' := guard_of_acceptable hok'
  by_cases hij : i = j
  · subst hij
    obtain rfl := Option.some.inj (htok.symm.trans htok')
    obtain rfl := Option.some.inj (hs.symm.trans hs')
    obtain rfl := Option.some.inj (hrep.old.symm.trans hrep'.old)
    rw [hrep.same_atom hrep' hguard heq hbands hmove hmove' hform hform' hm hne hnum hnum']
  · exact absurd heq (hrep.not_alias_of_ne hrep' hguard hguard' hbands hnodup hij)

end

section
variable (ctx : MintContext) (sqrt : ℚ → ℚ) (name : Text)

/-- Every neighbour is a name the parser and the mint take, the name with one number of one
atom changed, and no neighbour is there twice. Where the bands are alone, none has the name's
canonical name, and without repeated atoms no two have the same one. -/
theorem neighborNames_apart :
    (∀ candidate ∈ neighborNames ctx sqrt name,
      ((parseStrategy sqrt candidate).isOk = true ∧ nameIsParseable candidate = true ∧
        nameHasMomGtAndDip candidate = false ∧
        lookbackTooExpensive candidate ctx.structureLookbackMax = false ∧
        mintBlockReason ctx candidate [] = none) ∧
      (∃ i tok repl p q, Replaced name candidate i tok repl p q) ∧ candidate ≠ name ∧
      (BandsAlone name → canonicalName candidate ≠ canonicalName name)) ∧
    (neighborNames ctx sqrt name).Nodup ∧
    (BandsAlone name → (atomsOf name).Nodup →
      ((neighborNames ctx sqrt name).map canonicalName).Nodup) := by
  have hnodup : (neighborNames ctx sqrt name).Nodup := greedy_nodup (fun _ => rfl) _ _
  refine ⟨fun candidate h => ?_, hnodup, fun hbands hatoms => ?_⟩
  · obtain ⟨hok, hne, i, tok, repl, htok, hrepl, rfl⟩ := of_mem_neighborNames h
    obtain ⟨hmove, hlook, hblock, hparse, hstrategy⟩ := acceptable_iff.mp hok
    obtain ⟨s, k, n, m, p, q, -, -, -, -, -, -, hrep⟩ := replaced_of_acceptable htok hrepl hok
    refine ⟨⟨hstrategy, hparse, hmove, hlook, hblock⟩, ⟨i, tok, repl, p, q, hrep⟩, hne, ?_⟩
    exact hrep.not_alias (guard_of_acceptable hok)
  · refine List.Nodup.map_on (fun c hc c' hc' heq => ?_) hnodup
    exact neighbour_unique hbands hatoms hc hc' heq

end

/-- A band alone: its neighbours, with the period or an end moved, are told apart. -/
theorem neighborNames_apart_band :
    ((neighborNames ⟨fun _ => none, 96⟩ id "rsi_14_>45_<80&sma_abv_50".toList).map
      canonicalName).Nodup :=
  (neighborNames_apart ⟨fun _ => none, 96⟩ id "rsi_14_>45_<80&sma_abv_50".toList).2.2
    (by decide +kernel) (by decide)

/-- Beside `rsi_14_>50` the lower end of the band `rsi_14_>45_<80` is superfluous: the two
neighbours that move it have the name's canonical name, and so the same. -/
theorem bands_shared_alias :
    nameIsParseable "rsi_14_>45_<80&rsi_14_>50".toList = true ∧
      mintBlockReason ⟨fun _ => none, 96⟩ "rsi_14_>45_<80&rsi_14_>50".toList [] = none ∧
      "rsi_14_>40_<80&rsi_14_>50".toList ∈
        neighborNames ⟨fun _ => none, 96⟩ id "rsi_14_>45_<80&rsi_14_>50".toList ∧
      "rsi_14_>35_<80&rsi_14_>50".toList ∈
        neighborNames ⟨fun _ => none, 96⟩ id "rsi_14_>45_<80&rsi_14_>50".toList ∧
      canonicalName "rsi_14_>40_<80&rsi_14_>50".toList =
        canonicalName "rsi_14_>45_<80&rsi_14_>50".toList ∧
      canonicalName "rsi_14_>35_<80&rsi_14_>50".toList =
        canonicalName "rsi_14_>45_<80&rsi_14_>50".toList := by
  refine ⟨by decide, by decide +kernel, by decide +kernel, by decide +kernel, by decide, by decide⟩

end PaperTrading.Mint
