import Mathlib.Data.Finset.Card
import PaperTrading.Mint.BoundGuards
import PaperTrading.Mint.NormalForm

/-!
# What is kept of a group no guard refuses

The canonical name keeps of each indicator its strictest bounds. Of a group the guard of
bounds lets pass as many atoms are kept as it has (`length_strictAtoms`): each of them has a
bound of its own, one the others do not imply. But they need not be the same atoms: a band
that shares its indicator is taken apart. Of a plain group, one atom or atoms of at most one
bound, the atoms themselves are kept (`mem_strictAtoms_plain`) and no others are
(`of_mem_strictAtoms`).

So of two names of one canonical name the one the guard lets pass has no larger groups
(`length_groupOf_le`), and in plain groups the atoms of the other (`mem_groupOf_of_alias`).
-/

namespace PaperTrading.Mint

open Lib

variable {group : List AtomParts} {key : String × String × List ℕ}

/-- The guard of bounds has nothing against a group. -/
def Unimplied (group : List AtomParts) : Prop :=
  ∀ i < group.length, group.length = 1 ∨
    mergedInterval (group.eraseIdx i) ≠ mergedInterval group

theorem unimplied_of_none (h : groupBoundReason group = none) : Unimplied group := by
  intro i hi
  unfold groupBoundReason at h
  split at h
  next hnil =>
    rw [hnil] at hi
    cases hi
  next =>
    split at h
    next => cases h
    next =>
      split at h
      next hone => exact Or.inl hone
      next =>
        split at h
        next => cases h
        next =>
          split at h
          next => cases h
          next hno =>
            refine Or.inr fun heq => hno ?_
            exact List.any_eq_true.mpr ⟨i, List.mem_range.mpr hi, decide_eq_true heq⟩

theorem unimplied_groupOf {x : Text} (h : redundantBoundReason x = none)
    (key : String × String × List ℕ) : Unimplied (groupOf x key) := by
  rw [redundantBoundReason_eq, List.findSome?_eq_none_iff] at h
  by_cases hin : key ∈ indicators x
  · exact unimplied_of_none (h key hin)
  · intro i hi
    have hnil : groupOf x key = [] := by
      by_contra hne
      exact hin (mem_indicators.mpr (List.exists_mem_of_ne_nil _ hne))
    rw [hnil] at hi
    cases hi

/-! ## A bound of its own -/

/-- Where each bound of an atom has one as tight among the others, the atom does not narrow
the interval. -/
theorem merged_eraseIdx {i : ℕ} {a : AtomParts} (hi : group[i]? = some a)
    (h : ∀ b ∈ a.bounds, ∃ a' ∈ group.eraseIdx i, ∃ b' ∈ a'.bounds, Tighter b' b) :
    mergedInterval (group.eraseIdx i) = mergedInterval group := by
  have hsub : ∀ {a'}, a' ∈ group.eraseIdx i → a' ∈ group := List.mem_of_mem_eraseIdx
  have hsplit : ∀ {a'}, a' ∈ group → a' = a ∨ a' ∈ group.eraseIdx i := by
    intro a' ha'
    obtain ⟨j, hj⟩ := List.mem_iff_getElem?.mp ha'
    by_cases hij : j = i
    · rw [hij, hi] at hj
      exact Or.inl (Option.some.inj hj).symm
    · exact Or.inr (List.mem_eraseIdx_iff_getElem?.mpr ⟨j, hij, hj⟩)
  -- a bound of the group is one of the others, or no tighter than one of them
  have hother : ∀ {op n}, (∃ a' ∈ group, (op, n) ∈ a'.bounds) →
      ∃ a' ∈ group.eraseIdx i, ∃ m, (op, m) ∈ a'.bounds ∧ Tighter (op, m) (op, n) := by
    rintro op n ⟨a', ha', hb⟩
    rcases hsplit ha' with rfl | hin
    · obtain ⟨a'', ha'', b', hb', htight⟩ := h _ hb
      have hop : b'.1 = op := htight.1
      exact ⟨a'', ha'', b'.2, hop ▸ hb', hop ▸ htight⟩
    · exact ⟨a', hin, n, hb, Tighter.refl _⟩
  have hmax : (boundsOf .gt (group.eraseIdx i)).max? = (boundsOf .gt group).max? := by
    refine Option.ext fun n => ?_
    rw [max_boundsOf, max_boundsOf]
    constructor
    · rintro ⟨⟨a', ha', hb⟩, hle⟩
      refine ⟨⟨a', hsub ha', hb⟩, fun a'' ha'' m hm => ?_⟩
      obtain ⟨a₀, ha₀, m', hm', htight⟩ := hother ⟨a'', ha'', hm⟩
      exact le_trans htight.2 (hle a₀ ha₀ m' hm')
    · rintro ⟨hex, hle⟩
      obtain ⟨a₀, ha₀, m, hm, htight⟩ := hother hex
      have heq : m = n := le_antisymm (hle a₀ (hsub ha₀) m hm) htight.2
      exact ⟨⟨a₀, ha₀, heq ▸ hm⟩, fun a'' ha'' m' hm' => hle a'' (hsub ha'') m' hm'⟩
  have hmin : (boundsOf .lt (group.eraseIdx i)).min? = (boundsOf .lt group).min? := by
    refine Option.ext fun n => ?_
    rw [min_boundsOf, min_boundsOf]
    constructor
    · rintro ⟨⟨a', ha', hb⟩, hle⟩
      refine ⟨⟨a', hsub ha', hb⟩, fun a'' ha'' m hm => ?_⟩
      obtain ⟨a₀, ha₀, m', hm', htight⟩ := hother ⟨a'', ha'', hm⟩
      exact le_trans (hle a₀ ha₀ m' hm') htight.2
    · rintro ⟨hex, hle⟩
      obtain ⟨a₀, ha₀, m, hm, htight⟩ := hother hex
      have heq : m = n := le_antisymm htight.2 (hle a₀ (hsub ha₀) m hm)
      exact ⟨⟨a₀, ha₀, heq ▸ hm⟩, fun a'' ha'' m' hm' => hle a'' (hsub ha'') m' hm'⟩
  unfold mergedInterval
  rw [hmax, hmin]

/-- A bound of an atom that no other atom of the group has one as tight as. -/
def OwnBound (group : List AtomParts) (i : ℕ) (b : Op × ℕ) : Prop :=
  (∃ a, group[i]? = some a ∧ b ∈ a.bounds) ∧
    ∀ a' ∈ group.eraseIdx i, ∀ b' ∈ a'.bounds, ¬ Tighter b' b

theorem ownBound_of_unimplied (h : Unimplied group) (htwo : group.length ≠ 1) {i : ℕ}
    (hi : i < group.length) : ∃ b, OwnBound group i b := by
  have hget : group[i]? = some group[i] := List.getElem?_eq_getElem hi
  by_contra hno
  refine ((h i hi).resolve_left htwo) (merged_eraseIdx hget fun b hb => ?_)
  by_contra hall
  refine hno ⟨b, ⟨_, hget, hb⟩, fun a' ha' b' hb' htight => hall ⟨a', ha', b', hb', htight⟩⟩

/-- An atom with a bound of another atom's own is that atom. -/
theorem OwnBound.index {i j : ℕ} {b : Op × ℕ} {a : AtomParts} (h : OwnBound group i b)
    (ha : group[j]? = some a) (hb : b ∈ a.bounds) : j = i := by
  by_contra hne
  exact h.2 a (List.mem_eraseIdx_iff_getElem?.mpr ⟨j, hne, ha⟩) b hb (Tighter.refl b)

/-- An atom has one bound in each direction. -/
theorem bound_unique {tok : Text} {a : AtomParts} (h : inspectAtom tok = some a)
    {b b' : Op × ℕ} (hb : b ∈ a.bounds) (hb' : b' ∈ a.bounds) (hop : b'.1 = b.1) : b' = b := by
  obtain ⟨lo, hi, hends⟩ := bounds_ends h
  rw [hends, mem_ends] at hb hb'
  rcases hb with ⟨hgt, hlo⟩ | ⟨hlt, hhi⟩
  · rcases hb' with ⟨hgt', hlo'⟩ | ⟨hlt', _⟩
    · exact Prod.ext hop (Option.some.inj (hlo'.symm.trans hlo))
    · rw [hlt', hgt] at hop
      cases hop
  · rcases hb' with ⟨hgt', _⟩ | ⟨hlt', hhi'⟩
    · rw [hgt', hlt] at hop
      cases hop
    · exact Prod.ext hop (Option.some.inj (hhi'.symm.trans hhi))

/-- A bound of an atom's own is an end of the interval. -/
theorem OwnBound.mem_wanted (hgroup : OneIndicator group key) {i : ℕ} {b : Op × ℕ}
    (h : OwnBound group i b) : b ∈ wanted group := by
  obtain ⟨⟨a, ha, hb⟩, hown⟩ := h
  obtain ⟨b', hb', htight⟩ := exists_wanted (List.mem_of_getElem? ha) hb
  obtain ⟨a', ha', hin⟩ := of_mem_wanted hb'
  obtain ⟨j, hj⟩ := List.mem_iff_getElem?.mp ha'
  by_cases hij : j = i
  · rw [hij, ha] at hj
    obtain rfl := Option.some.inj hj
    obtain ⟨⟨tok, htok⟩, -⟩ := hgroup a ha'
    rwa [← bound_unique htok hb hin htight.1]
  · exact absurd htight (hown a' (List.mem_eraseIdx_iff_getElem?.mpr ⟨j, hij, hj⟩) b' hin)

/-! ## As many as there are -/

theorem wanted_singleton {tok : Text} {a : AtomParts} (h : inspectAtom tok = some a) :
    wanted [a] = a.bounds := by
  obtain ⟨lo, hi, hends⟩ := bounds_ends h
  rw [wanted_ends, hends]
  unfold boundsOf
  rw [List.flatMap_singleton, hends]
  cases lo <;> cases hi <;> rfl

theorem strictAtoms_singleton {tok : Text} {a : AtomParts} (h : inspectAtom tok = some a) :
    strictAtoms [a] = [a] := by
  unfold strictAtoms
  rw [List.find?_cons_of_pos (by rw [wanted_singleton h]; exact decide_eq_true rfl)]

theorem length_wanted_le (group : List AtomParts) : (wanted group).length ≤ 2 := by
  rw [wanted_ends]
  unfold ends
  cases (boundsOf .gt group).max? <;> cases (boundsOf .lt group).min? <;> simp

/-- Where no atom has all the bounds wanted, each of these is written on its own. -/
theorem length_strictAtoms_of_none (hne : group ≠ [])
    (hnone : ∀ a ∈ group, a.bounds ≠ wanted group) :
    (strictAtoms group).length = (wanted group).length := by
  unfold strictAtoms
  rw [List.find?_eq_none.mpr fun a ha => by simpa using hnone a ha]
  cases group with
  | nil => exact absurd rfl hne
  | cons sample rest => exact List.length_map _

/-- No more atoms are kept of a group than it has. -/
theorem length_strictAtoms_le (hgroup : OneIndicator group key) :
    (strictAtoms group).length ≤ group.length := by
  by_cases hne : group = []
  · rw [hne]
    exact le_rfl
  have hpos := List.length_pos_of_ne_nil hne
  by_cases hall : ∃ a ∈ group, a.bounds = wanted group
  · obtain ⟨a, ha, hbounds⟩ := hall
    unfold strictAtoms
    cases hfind : group.find? fun a => a.bounds = wanted group with
    | some a' => exact hpos
    | none => exact absurd (decide_eq_true hbounds) (List.find?_eq_none.mp hfind a ha)
  · have hnone : ∀ a ∈ group, a.bounds ≠ wanted group := fun a ha heq => hall ⟨a, ha, heq⟩
    rw [length_strictAtoms_of_none hne hnone]
    have htwo := length_wanted_le group
    by_contra hlt
    -- one atom has the bounds wanted of it
    obtain ⟨a, rfl⟩ := List.length_eq_one_iff.mp (show group.length = 1 by omega)
    obtain ⟨⟨tok, htok⟩, -⟩ := hgroup a List.mem_cons_self
    exact hnone a List.mem_cons_self (wanted_singleton htok).symm

/-- As many atoms are kept of a group the guard lets pass as it has. -/
theorem length_strictAtoms (hgroup : OneIndicator group key) (h : Unimplied group) :
    (strictAtoms group).length = group.length := by
  refine le_antisymm (length_strictAtoms_le hgroup) ?_
  by_cases hne : group = []
  · rw [hne]
    exact Nat.zero_le _
  by_cases hone : group.length = 1
  · obtain ⟨a, rfl⟩ := List.length_eq_one_iff.mp hone
    obtain ⟨⟨tok, htok⟩, -⟩ := hgroup a List.mem_cons_self
    rw [strictAtoms_singleton htok]
  have hnonempty : Nonempty (Op × ℕ) := ⟨(.gt, 0)⟩
  choose! own hown using fun i (hi : i < group.length) => ownBound_of_unimplied h hone hi
  have hinj : ∀ i < group.length, ∀ j < group.length, own i = own j → i = j := by
    intro i hi j hj heq
    obtain ⟨a, ha, hb⟩ := (hown i hi).1
    exact (hown j hj).index ha (heq ▸ hb)
  have hcard : (Finset.range group.length).card ≤ (wanted group).toFinset.card := by
    refine Finset.card_le_card_of_injOn own (fun i hi => ?_) fun i hi j hj heq => ?_
    · exact List.mem_toFinset.mpr ((hown i (Finset.mem_range.mp hi)).mem_wanted hgroup)
    · exact hinj i (Finset.mem_range.mp hi) j (Finset.mem_range.mp hj) heq
  rw [Finset.card_range] at hcard
  have hwanted := hcard.trans (List.toFinset_card_le (wanted group))
  -- an atom with all the bounds would have those of another
  have hnone : ∀ a ∈ group, a.bounds ≠ wanted group := by
    intro a ha heq
    obtain ⟨j, hj⟩ := List.mem_iff_getElem?.mp ha
    have hpos := List.length_pos_of_ne_nil hne
    have hother : ∃ i < group.length, i ≠ j := by
      by_cases hzero : j = 0
      · exact ⟨1, by omega, by omega⟩
      · exact ⟨0, hpos, fun h => hzero h.symm⟩
    obtain ⟨i, hi, hij⟩ := hother
    have hmem : own i ∈ a.bounds := heq ▸ (hown i hi).mem_wanted hgroup
    exact hij ((hown i hi).index hj hmem).symm
  rw [length_strictAtoms_of_none hne hnone]
  exact hwanted

/-! ## Plain groups -/

/-- One atom, or atoms of at most one bound. -/
def Plain (group : List AtomParts) : Prop :=
  group.length ≤ 1 ∨ ∀ a ∈ group, a.bounds.length ≤ 1

/-- What is kept of a plain group is its own. -/
theorem of_mem_strictAtoms (hgroup : OneIndicator group key) (hplain : Plain group)
    {a : AtomParts} (ha : a ∈ strictAtoms group) : a ∈ group := by
  rcases mem_strictAtoms ha with hin | ⟨sample, hsample, b, hb, -, hno⟩
  · exact hin
  · obtain ⟨a', ha', hmem⟩ := of_mem_wanted hb
    rcases hplain with hshort | hone
    · obtain ⟨c, rfl⟩ := List.length_eq_one_iff.mp
        (show group.length = 1 from le_antisymm hshort (List.length_pos_of_mem ha'))
      obtain ⟨⟨tok, htok⟩, -⟩ := hgroup c List.mem_cons_self
      exact absurd (wanted_singleton htok).symm (hno c List.mem_cons_self).1
    · obtain ⟨c, hc⟩ := List.length_eq_one_iff.mp
        (le_antisymm (hone a' ha') (List.length_pos_of_mem hmem))
      rw [hc, List.mem_singleton] at hmem
      rw [← hmem] at hc
      exact absurd hc (hno a' ha').2

/-- An atom of a plain group the guard lets pass is kept. -/
theorem mem_strictAtoms_plain (hgroup : OneIndicator group key) (h : Unimplied group)
    (hplain : Plain group) {a : AtomParts} (ha : a ∈ group) : a ∈ strictAtoms group := by
  by_cases hone : group.length = 1
  · obtain ⟨c, rfl⟩ := List.length_eq_one_iff.mp hone
    obtain ⟨⟨tok, htok⟩, -⟩ := hgroup c List.mem_cons_self
    rwa [strictAtoms_singleton htok]
  have hpos := List.length_pos_of_mem ha
  obtain ⟨i, hi⟩ := List.mem_iff_getElem?.mp ha
  obtain ⟨hlt, -⟩ := List.getElem?_eq_some_iff.mp hi
  obtain ⟨b, hown⟩ := ownBound_of_unimplied h hone hlt
  have hwanted := hown.mem_wanted hgroup
  have hbounds : a.bounds = [b] := by
    obtain ⟨⟨a', ha', hb⟩, -⟩ := hown
    obtain rfl := Option.some.inj (hi.symm.trans ha')
    obtain ⟨c, hc⟩ := List.length_eq_one_iff.mp (le_antisymm
      (hplain.resolve_left (by omega) a ha) (List.length_pos_of_mem hb))
    rw [hc, List.mem_singleton] at hb
    rw [hc, hb]
  -- no other atom has the bound
  have honly : ∀ a' ∈ group, b ∈ a'.bounds → a' = a := by
    intro a' ha' hb
    obtain ⟨j, hj⟩ := List.mem_iff_getElem?.mp ha'
    rw [hown.index hj hb, hi] at hj
    exact (Option.some.inj hj).symm
  unfold strictAtoms
  split
  next a' hfind =>
    have hall : a'.bounds = wanted group := by simpa using List.find?_some hfind
    rw [honly a' (List.mem_of_find?_eq_some hfind) (hall ▸ hwanted)]
    exact List.mem_singleton_self a
  next =>
    cases group with
    | nil => cases ha
    | cons sample rest =>
      refine List.mem_map.mpr ⟨b, hwanted, ?_⟩
      unfold chosen
      cases hfind : (sample :: rest).find? fun a => a.bounds = [b] with
      | none => exact absurd (decide_eq_true hbounds) (List.find?_eq_none.mp hfind a ha)
      | some a' =>
        have hsame : a'.bounds = [b] := by simpa using List.find?_some hfind
        exact honly a' (List.mem_of_find?_eq_some hfind) (hsame ▸ List.mem_singleton_self b)

/-- An atom the guard lets pass is in its group once. -/
theorem Unimplied.once (h : Unimplied group) {i j : ℕ} {a : AtomParts}
    (hi : group[i]? = some a) (hj : group[j]? = some a) : i = j := by
  by_contra hne
  obtain ⟨hlt, -⟩ := List.getElem?_eq_some_iff.mp hi
  obtain ⟨hlt', -⟩ := List.getElem?_eq_some_iff.mp hj
  refine (h i hlt).elim (fun hone => by omega) fun hno => hno (merged_eraseIdx hi ?_)
  intro b hb
  exact ⟨a, List.mem_eraseIdx_iff_getElem?.mpr ⟨j, fun h => hne h.symm, hj⟩, b, hb, Tighter.refl b⟩

/-! ## Names of one canonical name -/

variable {x y : Text}

/-- Of every indicator the same is kept. -/
theorem strictAtoms_of_alias (h : canonicalName x = canonicalName y)
    (key : String × String × List ℕ) :
    (strictAtoms (groupOf x key)).Perm (strictAtoms (groupOf y key)) :=
  ((kept_filter x key).symm.trans ((canonicalName_eq_iff.mp h).1.filter _)).trans
    (kept_filter y key)

/-- A name the guard lets pass has no larger group than one with its canonical name. -/
theorem length_groupOf_le (h : canonicalName x = canonicalName y)
    (hx : redundantBoundReason x = none) (key : String × String × List ℕ) :
    (groupOf x key).length ≤ (groupOf y key).length := by
  rw [← length_strictAtoms (oneIndicator_groupOf x key) (unimplied_groupOf hx key),
    (strictAtoms_of_alias h key).length_eq]
  exact length_strictAtoms_le (oneIndicator_groupOf y key)

/-- An atom of a plain group is one of the other name's, where its group is plain too. -/
theorem mem_groupOf_of_alias (h : canonicalName x = canonicalName y)
    (hx : redundantBoundReason x = none) {key : String × String × List ℕ}
    (hplain : Plain (groupOf x key)) (hplain' : Plain (groupOf y key)) {a : AtomParts}
    (ha : a ∈ groupOf x key) : a ∈ groupOf y key := by
  have hkept := mem_strictAtoms_plain (oneIndicator_groupOf x key) (unimplied_groupOf hx key)
    hplain ha
  exact of_mem_strictAtoms (oneIndicator_groupOf y key) hplain'
    ((strictAtoms_of_alias h key).mem_iff.mp hkept)

end PaperTrading.Mint
