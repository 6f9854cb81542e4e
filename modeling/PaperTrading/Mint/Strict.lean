import Mathlib.Data.List.Find
import PaperTrading.Mint.Bounds

/-!
# The strictest atoms of a group

`_strict_raw` writes the atoms of one indicator as the first atom with the strictest bounds
of the group, or as one atom a bound, printed anew where no atom has the bound alone.
`strictAtoms` are the atoms these texts are read as (`strictRaw_eq`, `strictAtoms_known`).
Their bounds are the bounds wanted of the group and no others (`strictAtoms_wanted`), so
writing them again changes nothing (`strictAtoms_perm`).
-/

namespace PaperTrading.Mint

open Lib Pattern
open Signals

/-! ## Printed bounds -/

theorem isDigits_printed (n : ℕ) : IsDigits (printed n) := ⟨Nat.toDigits_ne_nil, isDigit_toDigits⟩

theorem natOf_printed (n : ℕ) : natOf (printed n) = n := foldl_toDigits n

/-- The text of an RSI atom with one bound. -/
def rsiText (p : Text) (sign : Char) (n : Text) : Text := "rsi_".toList ++ (p ++ '_' :: sign :: n)

theorem reads_rsiFullName {t : Text} {c : Text × Text × Option Text}
    (h : Reads rsiFullName t c []) : ∃ dash tail : Text, IsDigits c.1 ∧ IsDigits c.2.1 ∧
      (dash = [] ∨ dash = ['_']) ∧ ((tail = [] ∧ c.2.2 = none) ∨
        ∃ dash' hi : Text, tail = '_' :: '<' :: (dash' ++ hi) ∧ (dash' = [] ∨ dash' = ['_']) ∧
          c.2.2 = some hi ∧ IsDigits hi) ∧
          t = rsiText c.1 '>' (dash ++ (c.2.1 ++ tail)) := by
  have hopt : ∀ {o : Option Unit} {u v : Text}, Reads (opt (lit "_")) u o v →
      ∃ dash : Text, (dash = [] ∨ dash = ['_']) ∧ u = dash ++ v := by
    intro o u v hr
    rcases reads_opt.mp hr with ⟨_, _, hd⟩ | ⟨_, hd⟩
    · exact ⟨['_'], Or.inr rfl, reads_lit.mp hd⟩
    · exact ⟨[], Or.inl rfl, hd⟩
  unfold rsiFullName at h
  obtain ⟨r₀, ht, h₀⟩ := reads_lit_bind.mp h
  obtain ⟨p, r₁, hp, hr₀, h₁⟩ := reads_digits_bind.mp h₀
  obtain ⟨r₂, hr₁, h₂⟩ := reads_lit_bind.mp h₁
  obtain ⟨_, r₃, hdash, h₃⟩ := reads_bind.mp h₂
  obtain ⟨th, r₄, hth, hr₃, h₄⟩ := reads_digits_bind.mp h₃
  obtain ⟨ov, r₅, hov, h₅⟩ := reads_bind.mp h₄
  obtain ⟨hc, hend⟩ := reads_pure.mp h₅
  subst hc hend
  obtain ⟨dash, hdash, hr₂⟩ := hopt hdash
  refine ⟨dash, r₄, hp, hth, hdash, ?_, ?_⟩
  · rcases reads_opt.mp hov with ⟨hi, hsome, ho⟩ | ⟨ho, hr₄⟩
    · obtain ⟨rest, hr₄, ho⟩ := reads_lit_bind.mp ho
      obtain ⟨_, rest', hdash', ho⟩ := reads_bind.mp ho
      obtain ⟨dash', hdash', hrest⟩ := hopt hdash'
      obtain ⟨hhi, hrest'⟩ := reads_digits.mp ho
      rw [List.append_nil] at hrest'
      rw [hrest, hrest'] at hr₄
      exact Or.inr ⟨dash', hi, hr₄, hdash', hsome, hhi⟩
    · exact Or.inl ⟨hr₄, ho⟩
  · rw [ht, hr₀, hr₁, hr₂, hr₃]
    rfl

theorem rsiFullName_whole {p n : Text} (hp : IsDigits p) (hn : IsDigits n) :
    rsiFullName.whole (rsiText p '>' n) = some (p, n, none) := by
  refine whole_of_unique ?_ fun c hc => ?_
  · unfold rsiFullName rsiText
    refine reads_lit_bind.mpr ⟨_, rfl, reads_digits_bind.mpr ⟨p, _, hp, rfl, reads_lit_bind.mpr
      ⟨n, rfl, reads_bind.mpr ⟨none, n, reads_opt.mpr (Or.inr ⟨rfl, rfl⟩), reads_digits_bind.mpr
        ⟨n, [], hn, (List.append_nil n).symm, reads_bind.mpr ⟨none, [], reads_opt.mpr
          (Or.inr ⟨rfl, rfl⟩), reads_pure.mpr ⟨rfl, rfl⟩⟩⟩⟩⟩⟩⟩
  · obtain ⟨dash, tail, hp', hth, hdash, htail, ht⟩ := reads_rsiFullName hc
    unfold rsiText at ht
    rw [List.append_cancel_left_eq] at ht
    obtain ⟨hpp, hrest⟩ := run_unique hp.2 hp'.2 (head_not_digit (by decide))
      (head_not_digit (by decide)) ht
    have hrest : n = dash ++ (c.2.1 ++ tail) := (List.cons.inj (List.cons.inj hrest).2).2
    have hno : '_' ∉ n := fun hin => by
      have hdigit := hn.2 '_' hin
      rw [not_isDigit_of_mem (by decide)] at hdigit
      cases hdigit
    have hdash : dash = [] := hdash.resolve_right fun hd => hno (by simp [hrest, hd])
    rcases htail with ⟨htail, hov⟩ | ⟨_, _, htail, -⟩
    · rw [hdash, htail, List.append_nil, List.nil_append] at hrest
      exact Prod.ext hpp.symm (Prod.ext hrest.symm hov)
    · exact absurd (by simp [hrest, htail]) hno

theorem rsiLtName_whole {p n : Text} (hp : IsDigits p) (hn : IsDigits n) :
    rsiFullName.whole (rsiText p '<' n) = none ∧ rsiLtName.whole (rsiText p '<' n) = some (p, n) := by
  constructor
  · cases hw : rsiFullName.whole (rsiText p '<' n) with
    | none => rfl
    | some c =>
      obtain ⟨dash, tail, hp', -, -, -, ht⟩ := reads_rsiFullName (reads_of_whole hw)
      unfold rsiText at ht
      rw [List.append_cancel_left_eq] at ht
      have hrest := (run_unique hp.2 hp'.2 (head_not_digit (by decide))
        (head_not_digit (by decide)) ht).2
      exact absurd (List.cons.inj (List.cons.inj hrest).2).1 (by decide)
  · refine whole_of_unique ?_ fun c hc => ?_
    · unfold rsiLtName rsiText
      refine reads_lit_bind.mpr ⟨_, rfl, reads_digits_bind.mpr ⟨p, _, hp, rfl, reads_lit_bind.mpr
        ⟨n, rfl, reads_bind.mpr ⟨none, n, reads_opt.mpr (Or.inr ⟨rfl, rfl⟩), reads_digits_bind.mpr
          ⟨n, [], hn, (List.append_nil n).symm, reads_pure.mpr ⟨rfl, rfl⟩⟩⟩⟩⟩⟩
    · unfold rsiLtName at hc
      obtain ⟨r₀, ht, h₀⟩ := reads_lit_bind.mp hc
      obtain ⟨p', r₁, hp', hr₀, h₁⟩ := reads_digits_bind.mp h₀
      obtain ⟨r₂, hr₁, h₂⟩ := reads_lit_bind.mp h₁
      obtain ⟨_, r₃, hdash, h₃⟩ := reads_bind.mp h₂
      obtain ⟨n', r₄, hn', hr₃, h₄⟩ := reads_digits_bind.mp h₃
      obtain ⟨hc, hend⟩ := reads_pure.mp h₄
      rw [hend, List.append_nil] at hr₃
      unfold rsiText at ht
      rw [List.append_cancel_left_eq, hr₀] at ht
      obtain ⟨hpp, hrest⟩ := run_unique hp.2 hp'.2 (head_not_digit (by decide))
        (by rw [hr₁]; exact head_not_digit (by decide)) ht
      rw [hr₁] at hrest
      have hrest : n = r₂ := (List.cons.inj (List.cons.inj hrest).2).2
      rcases reads_opt.mp hdash with ⟨_, _, hd⟩ | ⟨_, hd⟩
      · have hdigit := hn.2 '_' (by rw [hrest, reads_lit.mp hd]; exact List.mem_cons_self)
        rw [not_isDigit_of_mem (by decide)] at hdigit
        cases hdigit
      · rw [hc, hpp, hrest, hd, hr₃]

theorem not_isSpace_printed {n : ℕ} {c : Char} (h : c ∈ printed n) : isSpace c = false := by
  have hrange : 48 ≤ c.toNat ∧ c.toNat ≤ 57 :=
    Char.isDigit_iff_toNat.mp (Nat.isDigit_of_mem_toDigits (by decide) (by decide) h)
  unfold isSpace
  simp only [Bool.or_eq_false_iff, Bool.and_eq_false_iff, decide_eq_false_iff_not]
  omega

theorem strip_rsiText {sign : Char} (p n : ℕ) :
    strip (rsiText (printed p) sign (printed n)) = rsiText (printed p) sign (printed n) := by
  refine stripOf_eq_self (fun c hc => ?_) fun c hc => ?_
  · obtain rfl : 'r' = c := Option.some.inj hc
    decide
  · have hne : printed n ≠ [] := (isDigits_printed n).1
    have hlast : (rsiText (printed p) sign (printed n)).getLast? = (printed n).getLast? := by
      unfold rsiText
      rw [List.getLast?_append_of_ne_nil _ (by simp), List.getLast?_append_of_ne_nil _ (by simp),
        List.getLast?_cons_of_ne_nil (List.cons_ne_nil _ _), List.getLast?_cons_of_ne_nil hne]
    rw [hlast] at hc
    exact not_isSpace_printed (List.mem_of_mem_getLast? hc)

/-- The atom of a printed bound. -/
theorem inspectAtom_rsiText (p n : ℕ) (op : Op) :
    inspectAtom (rsiText (printed p) (if op = .gt then '>' else '<') (printed n)) =
      some (.mk "rsi" "" [p] [(op, n)] true
        (rsiText (printed p) (if op = .gt then '>' else '<') (printed n))) := by
  have hne : ∀ sign, rsiText (printed p) sign (printed n) ≠ [] := fun sign => by simp [rsiText]
  unfold inspectAtom
  dsimp only
  rw [strip_rsiText, if_neg (hne _)]
  cases op with
  | gt =>
    have hread := rsiFullName_whole (isDigits_printed p) (isDigits_printed n)
    rw [if_pos rfl, firstRule_cons, rule_eq_some.mpr ⟨_, hread, rfl⟩, Option.getD_some, natOf_printed,
      natOf_printed]
    rfl
  | lt =>
    obtain ⟨hfull, hread⟩ := rsiLtName_whole (isDigits_printed p) (isDigits_printed n)
    rw [if_neg (by decide), firstRule_cons, rule_eq_none.mpr hfull, Option.getD_none, firstRule_cons,
      rule_eq_some.mpr ⟨_, hread, rfl⟩, Option.getD_some, natOf_printed, natOf_printed]

/-! ## The ends of a range -/

/-- A lower bound and an upper one, each if there is one. -/
def ends (lo hi : Option ℕ) : List (Op × ℕ) := (lo.map (Op.gt, ·)).toList ++ (hi.map (Op.lt, ·)).toList

theorem mem_ends {lo hi : Option ℕ} {b : Op × ℕ} :
    b ∈ ends lo hi ↔ (b.1 = .gt ∧ lo = some b.2) ∨ (b.1 = .lt ∧ hi = some b.2) := by
  obtain ⟨op, n⟩ := b
  cases lo <;> cases hi <;> cases op <;> simp [ends, eq_comm]

theorem ends_ext {lo lo' hi hi' : Option ℕ} (h : ∀ b, b ∈ ends lo hi ↔ b ∈ ends lo' hi') :
    ends lo hi = ends lo' hi' := by
  have hlo : lo = lo' := by
    refine Option.ext fun n => ?_
    have hn := h (.gt, n)
    rw [mem_ends, mem_ends] at hn
    simpa using hn
  have hhi : hi = hi' := by
    refine Option.ext fun n => ?_
    have hn := h (.lt, n)
    rw [mem_ends, mem_ends] at hn
    simpa using hn
  rw [hlo, hhi]

theorem nodup_ends (lo hi : Option ℕ) : (ends lo hi).Nodup := by
  cases lo <;> cases hi <;> simp [ends]

/-- The bounds of an atom are in this order. -/
theorem bounds_ends {tok : Text} {a : AtomParts} (h : inspectAtom tok = some a) :
    ∃ lo hi, a.bounds = ends lo hi := by
  cases inspected h with
  | @rsiFull c _ => exact ⟨some (natOf c.2.1), c.2.2.map natOf, by cases c.2.2 <;> rfl⟩
  | @rsiLt c _ _ => exact ⟨none, some (natOf c.2), rfl⟩
  | @rsiShort c _ _ _ => exact ⟨some (natOf c.2), none, rfl⟩
  | @move c _ => exact ⟨some (natOf c.2.2.2), none, rfl⟩
  | htf _ | average _ | smaStack _ | emaStack _ | level _ | band _ | volume _ | plain _ _ =>
    exact ⟨none, none, rfl⟩

theorem wanted_ends (group : List AtomParts) :
    wanted group = ends (boundsOf .gt group).max? (boundsOf .lt group).min? := rfl

/-- Groups with the same bounds have the same bounds wanted. -/
theorem wanted_congr {group others : List AtomParts}
    (h : ∀ b, (∃ a ∈ others, b ∈ a.bounds) ↔ ∃ a ∈ group, b ∈ a.bounds) :
    wanted others = wanted group := by
  have hmem : ∀ op n, n ∈ boundsOf op others ↔ n ∈ boundsOf op group := by
    intro op n
    rw [mem_boundsOf, mem_boundsOf, h]
  have hmax : (boundsOf .gt others).max? = (boundsOf .gt group).max? := by
    refine Option.ext fun n => ?_
    rw [List.max?_eq_some_iff, List.max?_eq_some_iff]
    simp only [hmem]
  have hmin : (boundsOf .lt others).min? = (boundsOf .lt group).min? := by
    refine Option.ext fun n => ?_
    rw [List.min?_eq_some_iff, List.min?_eq_some_iff]
    simp only [hmem]
  unfold wanted
  rw [hmax, hmin]

/-- The bounds wanted of atoms whose bounds are those wanted of a group. -/
theorem wanted_eq_of_mem {group others : List AtomParts}
    (h : ∀ b, b ∈ wanted group ↔ ∃ a ∈ others, b ∈ a.bounds) : wanted others = wanted group := by
  have hmem : ∀ op n, n ∈ boundsOf op others ↔ (op, n) ∈ wanted group := by
    intro op n
    rw [mem_boundsOf, h]
  rw [wanted_ends others, wanted_ends group]
  congr 1
  · refine Option.ext fun n => ?_
    have hn : ∀ m, m ∈ boundsOf .gt others ↔ (boundsOf .gt group).max? = some m := by
      intro m
      rw [hmem, wanted_ends, mem_ends]
      simp
    rw [List.max?_eq_some_iff, hn]
    refine ⟨fun hm => hm.1, fun hm => ⟨hm, fun m hm' => ?_⟩⟩
    exact (Option.some.inj ((hn m).mp hm' |>.symm.trans hm)).le
  · refine Option.ext fun n => ?_
    have hn : ∀ m, m ∈ boundsOf .lt others ↔ (boundsOf .lt group).min? = some m := by
      intro m
      rw [hmem, wanted_ends, mem_ends]
      simp
    rw [List.min?_eq_some_iff, hn]
    refine ⟨fun hm => hm.1, fun hm => ⟨hm, fun m hm' => ?_⟩⟩
    exact (Option.some.inj (hm.symm.trans ((hn m).mp hm'))).le

/-! ## The atoms written -/

/-- The atom of a bound no atom of the group has alone. -/
def strictAtom (sample : AtomParts) (bound : Op × ℕ) : AtomParts where
  family := sample.family
  side := sample.side
  params := sample.params
  bounds := [bound]
  parserSupported := true
  raw := strictText sample bound

/-- The atom written for a bound. -/
def chosen (sample : AtomParts) (group : List AtomParts) (b : Op × ℕ) : AtomParts :=
  (group.find? fun a => a.bounds = [b]).getD (strictAtom sample b)

/-- The atoms of the texts `strictRaw` writes. -/
def strictAtoms (group : List AtomParts) : List AtomParts :=
  match group.find? fun a => a.bounds = wanted group with
  | some a => [a]
  | none =>
    match group with
    | [] => []
    | sample :: rest => (wanted (sample :: rest)).map (chosen sample (sample :: rest))

variable {group : List AtomParts} {key : String × String × List ℕ}

/-- An atom has the bounds wanted when it lists them. -/
theorem bounds_eq_wanted {tok : Text} {a : AtomParts} (h : inspectAtom tok = some a) :
    ((∀ b ∈ a.bounds, b ∈ wanted group) ∧ ∀ b ∈ wanted group, b ∈ a.bounds) ↔
      a.bounds = wanted group := by
  constructor
  · rintro ⟨hsub, hsup⟩
    obtain ⟨lo, hi, hends⟩ := bounds_ends h
    rw [hends] at hsub hsup ⊢
    rw [wanted_ends] at hsub hsup ⊢
    exact ends_ext fun b => ⟨hsub b, hsup b⟩
  · intro heq
    rw [heq]
    exact ⟨fun _ => id, fun _ => id⟩

theorem wanted_nil (h : ∀ a ∈ group, a.bounds = []) : wanted group = [] := by
  by_contra hne
  obtain ⟨b, hb⟩ := List.exists_mem_of_ne_nil _ hne
  obtain ⟨a, ha, hin⟩ := of_mem_wanted hb
  rw [h a ha] at hin
  cases hin

theorem strictRaw_eq (h : OneIndicator group key) :
    strictRaw group = (strictAtoms group).map AtomParts.raw := by
  cases group with
  | nil => rfl
  | cons sample rest =>
    have hfind : ((sample :: rest).find? fun a =>
        (∀ b ∈ a.bounds, b ∈ wanted (sample :: rest)) ∧ ∀ b ∈ wanted (sample :: rest), b ∈ a.bounds) =
          (sample :: rest).find? fun a => a.bounds = wanted (sample :: rest) := by
      refine List.find?_congr fun a ha => ?_
      obtain ⟨⟨tok, htok⟩, -⟩ := h a ha
      exact decide_eq_decide.mpr (bounds_eq_wanted htok)
    unfold strictRaw strictAtoms
    dsimp only
    rw [hfind]
    split
    next hnone =>
      -- the first atom has the bounds wanted, none
      have hsample : sample.bounds = wanted (sample :: rest) := by
        rw [wanted_nil hnone]
        exact hnone sample List.mem_cons_self
      rw [List.find?_cons_of_pos (by rw [hsample]; exact decide_eq_true rfl)]
      rfl
    next =>
      cases (sample :: rest).find? fun a => a.bounds = wanted (sample :: rest) with
      | some a => rfl
      | none =>
        show List.map _ _ = List.map _ (List.map _ _)
        rw [List.map_map]
        refine List.map_congr_left fun b _ => ?_
        show _ = (chosen sample (sample :: rest) b).raw
        unfold chosen
        cases (sample :: rest).find? fun a => a.bounds = [b] with
        | some a => rfl
        | none => rfl

/-- The atoms written are atoms of the group, or bounds of an RSI printed anew. -/
theorem mem_strictAtoms {a : AtomParts} (ha : a ∈ strictAtoms group) : a ∈ group ∨
    ∃ sample ∈ group, ∃ b ∈ wanted group, a = strictAtom sample b ∧
      ∀ a' ∈ group, a'.bounds ≠ wanted group ∧ a'.bounds ≠ [b] := by
  unfold strictAtoms at ha
  split at ha
  next a' hfind =>
    rw [List.mem_singleton.mp ha]
    exact Or.inl (List.mem_of_find?_eq_some hfind)
  next hnone =>
    cases group with
    | nil => cases ha
    | cons sample rest =>
      obtain ⟨b, hb, rfl⟩ := List.mem_map.mp ha
      unfold chosen
      cases hfind : (sample :: rest).find? fun a => a.bounds = [b] with
      | some a' => exact Or.inl (List.mem_of_find?_eq_some hfind)
      | none =>
        refine Or.inr ⟨sample, List.mem_cons_self, b, hb, rfl, fun a' ha' => ⟨fun heq => ?_, fun heq => ?_⟩⟩
        · have hno := List.find?_eq_none.mp hnone a' ha'
          exact hno (decide_eq_true heq)
        · have hno := List.find?_eq_none.mp hfind a' ha'
          exact hno (decide_eq_true heq)

/-- Only the atoms of an RSI can lack a bound alone. -/
theorem rsi_of_missing (h : OneIndicator group key) {b : Op × ℕ} (hb : b ∈ wanted group)
    (hno : ∀ a ∈ group, a.bounds ≠ [b]) : ∃ p, key = ("rsi", "", [p]) := by
  obtain ⟨a, ha, hin⟩ := of_mem_wanted hb
  obtain ⟨⟨tok, htok⟩, hkey⟩ := h a ha
  have hne := hno a ha
  rw [← hkey]
  cases inspected htok with
  | rsiFull _ => exact ⟨_, rfl⟩
  | rsiLt _ _ => exact ⟨_, rfl⟩
  | rsiShort _ _ _ => exact ⟨_, rfl⟩
  | move _ => exact absurd (congrArg (· :: []) (List.mem_singleton.mp hin).symm) hne
  | htf _ | average _ | smaStack _ | emaStack _ | level _ | band _ | volume _ | plain _ _ => cases hin

theorem strictAtom_rsi {sample : AtomParts} {p : ℕ} (h : sample.key = ("rsi", "", [p])) (b : Op × ℕ) :
    strictAtom sample b = .mk "rsi" "" [p] [b] true
      (rsiText (printed p) (if b.1 = .gt then '>' else '<') (printed b.2)) := by
  obtain ⟨family, side, params, bounds, supported, raw⟩ := sample
  obtain ⟨rfl, hrest⟩ := Prod.mk.inj h
  obtain ⟨rfl, rfl⟩ := Prod.mk.inj hrest
  rfl

theorem bounds_chosen (sample : AtomParts) (b : Op × ℕ) : (chosen sample group b).bounds = [b] := by
  unfold chosen
  cases hfind : group.find? fun a => a.bounds = [b] with
  | some a =>
    have hbounds := List.find?_some hfind
    exact of_decide_eq_true hbounds
  | none => rfl

/-- The bounds of the atoms written are the bounds wanted. -/
theorem strictAtoms_bounds (b : Op × ℕ) :
    b ∈ wanted group ↔ ∃ a ∈ strictAtoms group, b ∈ a.bounds := by
  unfold strictAtoms
  split
  next a hfind =>
    have hbounds : a.bounds = wanted group := by simpa using List.find?_some hfind
    rw [← hbounds]
    exact ⟨fun hb => ⟨a, List.mem_cons_self, hb⟩, fun ⟨a', ha', hb⟩ => List.mem_singleton.mp ha' ▸ hb⟩
  next =>
    cases group with
    | nil =>
      constructor
      · intro hb
        cases hb
      · rintro ⟨_, ha, _⟩
        cases ha
    | cons sample rest =>
      constructor
      · intro hb
        refine ⟨_, List.mem_map_of_mem hb, ?_⟩
        rw [bounds_chosen]
        exact List.mem_cons_self
      · rintro ⟨a, ha, hb⟩
        obtain ⟨b', hb', rfl⟩ := List.mem_map.mp ha
        rw [bounds_chosen] at hb
        rwa [List.mem_singleton.mp hb]

theorem raw_inspected {text : Text} {a : AtomParts} (h : Inspected text a) : a.raw = text := by
  cases h <;> rfl

theorem inspect_raw {tok : Text} {a : AtomParts} (h : inspectAtom tok = some a) :
    inspectAtom a.raw = some a := by
  have hstrip : inspectAtom (strip tok) = inspectAtom tok := by
    unfold inspectAtom
    rw [strip_strip]
  rw [raw_inspected (inspected h), hstrip, h]

/-- Every atom written is read as it is. -/
theorem strictAtoms_known (h : OneIndicator group key) {a : AtomParts} (ha : a ∈ strictAtoms group) :
    inspectAtom a.raw = some a ∧ a.key = key := by
  rcases mem_strictAtoms ha with ha | ⟨sample, hsample, b, hb, rfl, hno⟩
  · obtain ⟨⟨tok, htok⟩, hkey⟩ := h a ha
    exact ⟨inspect_raw htok, hkey⟩
  · obtain ⟨p, hp⟩ := rsi_of_missing h hb fun a' ha' => (hno a' ha').2
    have hkey : sample.key = ("rsi", "", [p]) := (h sample hsample).2.trans hp
    rw [strictAtom_rsi hkey]
    exact ⟨inspectAtom_rsiText p b.2 b.1, hp.symm⟩

/-- The atoms written are written the same again, in any order. -/
theorem strictAtoms_perm {others : List AtomParts} (h : others.Perm (strictAtoms group)) :
    strictAtoms others = strictAtoms group := by
  have hwanted : wanted others = wanted group := by
    refine wanted_eq_of_mem fun b => ?_
    rw [strictAtoms_bounds]
    simp only [h.mem_iff]
  unfold strictAtoms at h
  conv_rhs => unfold strictAtoms
  split at h
  next a hfind =>
    have hbounds : a.bounds = wanted group := by simpa using List.find?_some hfind
    have hone : others = [a] := List.perm_singleton.mp h
    rw [hone] at hwanted ⊢
    unfold strictAtoms
    rw [List.find?_cons_of_pos (by rw [hbounds, hwanted]; exact decide_eq_true rfl)]
  next hnone =>
    cases group with
    | nil =>
      rw [List.perm_nil.mp h]
      rfl
    | cons sample rest =>
      dsimp only at h ⊢
      have hmem : ∀ a ∈ others, ∃ b ∈ wanted (sample :: rest),
          chosen sample (sample :: rest) b = a ∧ a.bounds = [b] := by
        intro a ha
        obtain ⟨b, hb, rfl⟩ := List.mem_map.mp (h.mem_iff.mp ha)
        exact ⟨b, hb, rfl, bounds_chosen sample b⟩
      unfold strictAtoms
      rw [hwanted]
      split
      next a hfind =>
        -- one bound is wanted, and the atom has it
        obtain ⟨b, -, ha, hb⟩ := hmem a (List.mem_of_find?_eq_some hfind)
        have hbounds : a.bounds = wanted (sample :: rest) := by simpa using List.find?_some hfind
        rw [← hbounds, hb, List.map_singleton, ha]
      next =>
        cases others with
        | nil => exact (List.nil_perm.mp h).symm
        | cons sample' rest' =>
          dsimp only
          rw [hwanted]
          refine List.map_congr_left fun b hb => ?_
          have hin : chosen sample (sample :: rest) b ∈ sample' :: rest' :=
            h.mem_iff.mpr (List.mem_map_of_mem hb)
          show ((sample' :: rest').find? fun a => a.bounds = [b]).getD _ = _
          cases hfind : (sample' :: rest').find? fun a => a.bounds = [b] with
          | none =>
            have hno := List.find?_eq_none.mp hfind _ hin
            exact absurd (decide_eq_true (bounds_chosen sample b)) hno
          | some a =>
            obtain ⟨b', -, ha, hb'⟩ := hmem a (List.mem_of_find?_eq_some hfind)
            have hbounds : a.bounds = [b] := by simpa using List.find?_some hfind
            have heq : b' = b := by simpa using hb'.symm.trans hbounds
            rw [Option.getD_some, ← ha, heq]

end PaperTrading.Mint
