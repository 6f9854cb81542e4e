import Mathlib.Data.Nat.Digits.Defs
import PaperTrading.Mint.BoundGuards
import PaperTrading.Mint.NormalForm

/-!
# What a canonical name trades

The atoms written of an indicator hold exactly where all its atoms hold (`kept_hold`), so
the canonical name is true where what the operands of the name stand for is (`meant_iff`).
The name itself is true there unless it has an operand that is never true and that the
canonical name drops: a blank one, or a momentum atom with the words of a dip
(`source_iff_meant`).

`canonicalName_preserves` puts the two together, at every bar at which both names have a
value; where every operand has one, both names do.
-/

namespace PaperTrading.Mint

open Lib Pattern
open Signals

/-! ## Numbers printed anew -/

/-- A number the parser reads. -/
def Short (n : ℕ) : Prop := (printed n).length ≤ MAX_STR_DIGITS

theorem digitValue_lt {c : Char} (h : isDigit c = true) : digitValue c < 10 := by
  unfold isDigit at h
  obtain ⟨z, hz⟩ := Option.isSome_iff_exists.mp h
  have hrange := List.find?_some hz
  rw [Bool.and_eq_true, decide_eq_true_eq, decide_eq_true_eq] at hrange
  unfold digitValue
  rw [hz, Option.getD_some]
  omega

theorem natOf_lt {ds : Text} (h : ∀ c ∈ ds, isDigit c = true) : natOf ds < 10 ^ ds.length := by
  unfold natOf
  induction ds using List.reverseRecOn with
  | nil => decide
  | append_singleton ds c ih =>
    have hc : digitValue c < 10 := digitValue_lt (h c (by simp))
    have ih := ih fun d hd => h d (List.mem_append_left _ hd)
    rw [List.foldl_append, List.length_append, List.length_singleton, pow_succ]
    show 10 * _ + digitValue c < _
    omega

theorem short_of_intOf {ds : Text} {n : ℕ} (h : IsDigits ds) (hn : intOf ds = .ok n) :
    Short (natOf ds) := by
  have hlen : ds.length ≤ MAX_STR_DIGITS := by
    unfold intOf at hn
    rw [if_neg h.1] at hn
    split at hn
    next => cases hn
    next hle => exact not_lt.mp hle
  exact (Nat.toDigits_length 10 _ _ (List.length_pos_iff.mpr h.1) (natOf_lt h.2)).trans hlen

theorem intOf_printed {n : ℕ} (h : Short n) : intOf (printed n) = .ok n := intOf_toDigits h

theorem digits_pairName {front : String} {t : Text} {c : Text × Text}
    (h : (pairName front).whole t = some c) : IsDigits c.1 ∧ IsDigits c.2 := by
  have hreads := reads_of_whole h
  unfold pairName at hreads
  obtain ⟨_, _, h₀⟩ := reads_lit_bind.mp hreads
  obtain ⟨a, _, ha, _, h₁⟩ := reads_digits_bind.mp h₀
  obtain ⟨_, _, h₂⟩ := reads_lit_bind.mp h₁
  obtain ⟨b, _, hb, _, h₃⟩ := reads_digits_bind.mp h₂
  obtain ⟨rfl, -⟩ := reads_pure.mp h₃
  exact ⟨ha, hb⟩

theorem digits_rsiLtName {t : Text} {c : Text × Text} (h : rsiLtName.whole t = some c) :
    IsDigits c.1 ∧ IsDigits c.2 := by
  have hreads := reads_of_whole h
  unfold rsiLtName at hreads
  obtain ⟨_, _, h₀⟩ := reads_lit_bind.mp hreads
  obtain ⟨a, _, ha, _, h₁⟩ := reads_digits_bind.mp h₀
  obtain ⟨_, _, h₂⟩ := reads_lit_bind.mp h₁
  obtain ⟨_, _, _, h₃⟩ := reads_bind.mp h₂
  obtain ⟨b, _, hb, _, h₄⟩ := reads_digits_bind.mp h₃
  obtain ⟨rfl, -⟩ := reads_pure.mp h₄
  exact ⟨ha, hb⟩

/-- The numbers of an RSI atom the parser takes. -/
theorem rsi_short {tok : Text} {a : AtomParts} {c : Condition} (h : inspectAtom tok = some a)
    (hf : a.family = "rsi") (hc : parseName (strip tok) = .ok c) :
    (∀ p ∈ a.params, Short p) ∧ ∀ b ∈ a.bounds, Short b.2 := by
  have hne : a.bounds ≠ [] := (bounds_ne_nil_iff h).mpr (by simp [hf])
  cases inspected h with
  | @rsiFull m hm =>
    obtain ⟨_, _, hp, hth, -, htail, -⟩ := reads_rsiFullName (reads_of_whole hm)
    rw [parseName_rsiFull hm] at hc
    obtain ⟨p, hintp, hc⟩ := except_bind_ok hc
    obtain ⟨th, hintth, hc⟩ := except_bind_ok hc
    obtain ⟨ov, hov, -⟩ := except_bind_ok hc
    refine ⟨List.forall_mem_singleton.mpr (short_of_intOf hp hintp),
      List.forall_mem_cons.mpr ⟨short_of_intOf hth hintth, fun b hb => ?_⟩⟩
    obtain ⟨hi, hhi, rfl⟩ := List.mem_map.mp hb
    have hhi : m.2.2 = some hi := Option.mem_toList.mp hhi
    rw [hhi] at hov
    rcases htail with ⟨-, hnone⟩ | ⟨_, hi', -, -, hsome, hdigits⟩
    · cases hhi.symm.trans hnone
    · obtain rfl : hi' = hi := Option.some.inj (hsome.symm.trans hhi)
      exact short_of_intOf hdigits hov
  | rsiLt hfull hm =>
    obtain ⟨hp, hth⟩ := digits_rsiLtName hm
    rw [parseName_rsiLt hfull hm] at hc
    obtain ⟨p, hintp, hc⟩ := except_bind_ok hc
    obtain ⟨th, hintth, -⟩ := except_bind_ok hc
    exact ⟨List.forall_mem_singleton.mpr (short_of_intOf hp hintp),
      List.forall_mem_singleton.mpr (short_of_intOf hth hintth)⟩
  | rsiShort hfull hlt hm =>
    obtain ⟨hp, hth⟩ := digits_pairName hm
    rw [parseName_rsiShort hfull hlt hm] at hc
    obtain ⟨p, hintp, hc⟩ := except_bind_ok hc
    obtain ⟨th, hintth, -⟩ := except_bind_ok hc
    exact ⟨List.forall_mem_singleton.mpr (short_of_intOf hp hintp),
      List.forall_mem_singleton.mpr (short_of_intOf hth hintth)⟩
  | move hm =>
    rcases List.mem_pair.mp (moveAtom_iff.mp hm).1 with hk | hk
    · exact absurd (hk.symm.trans hf) (by decide)
    · exact absurd (hk.symm.trans hf) (by decide)
  | htf _ | average _ | smaStack _ | emaStack _ | level _ | band _ | volume _ | plain _ _ =>
    exact absurd rfl hne

/-- The parser takes a bound printed anew. -/
theorem parseName_rsiText {p n : ℕ} (hp : Short p) (hn : Short n) (op : Op) :
    ∃ c, parseName (rsiText (printed p) (if op = .gt then '>' else '<') (printed n)) = .ok c := by
  cases op with
  | gt =>
    rw [if_pos rfl, parseName_rsiFull (rsiFullName_whole (isDigits_printed p) (isDigits_printed n))]
    show ∃ c, (intOf (printed p) >>= fun p' => intOf (printed n) >>= fun n' =>
      overOf none >>= fun ov => _) = _
    rw [intOf_printed hp, intOf_printed hn]
    exact ⟨_, rfl⟩
  | lt =>
    obtain ⟨hfull, hlt⟩ := rsiLtName_whole (isDigits_printed p) (isDigits_printed n)
    rw [if_neg (by decide), parseName_rsiLt hfull hlt]
    show ∃ c, (intOf (printed p) >>= fun p' => intOf (printed n) >>= fun n' => _) = _
    rw [intOf_printed hp, intOf_printed hn]
    exact ⟨_, rfl⟩

/-! ## Strategies by their operands -/

section Strategies

variable {sqrt : ℚ → ℚ} {s : Ohlc} {i : ℕ} {x : Text} {p : Predicate}

/-- The value of an operand at a bar. -/
def Gives (sqrt : ℚ → ℚ) (s : Ohlc) (i : ℕ) (t : Text) (b : Bool) : Prop :=
  ∃ q, parseClause sqrt t = .ok q ∧ q s i = .ok b

/-- A strategy is accepted when its operands are. -/
theorem accepted_iff : (∃ p, parseStrategy sqrt x = .ok p) ↔
    ∀ o ∈ operands x, ∃ q, parseClause sqrt o.2 = .ok q := by
  have hoperand : ∀ o ∈ operands x, o.2 ∈ conjuncts x := by
    intro o ho
    rw [conjuncts_operands]
    exact List.mem_map_of_mem ho
  rw [parseStrategy_clauses]
  constructor
  · rintro ⟨p, hp⟩ o ho
    obtain ⟨preds, hpreds, -⟩ := except_bind_ok hp
    exact mapM_ok hpreds o.2 (hoperand o ho)
  · intro hall
    cases hpreds : (conjuncts x).mapM (parseClause sqrt) with
    | ok preds => exact ⟨_, rfl⟩
    | error e =>
      obtain ⟨t, ht, e, he⟩ := mapM_error_iff.mp ⟨e, hpreds⟩
      rw [conjuncts_operands] at ht
      obtain ⟨o, ho, rfl⟩ := List.mem_map.mp ht
      obtain ⟨q, hq⟩ := hall o ho
      cases hq.symm.trans he

theorem strategy_true_iff (h : parseStrategy sqrt x = .ok p) :
    p s i = .ok true ↔ ∀ o ∈ operands x, Gives sqrt s i o.2 true := by
  rw [parseStrategy_clauses] at h
  obtain ⟨preds, hpreds, h⟩ := except_bind_ok h
  rw [← Except.ok.inj h, allPreds_true_iff]
  constructor
  · intro hall o ho
    obtain ⟨k, hk⟩ := List.getElem?_of_mem ho
    obtain ⟨q, hq, hparse⟩ := pred_of hpreds hk
    exact ⟨q, hparse, hall q (List.mem_of_getElem? hq)⟩
  · intro hall q hq
    obtain ⟨k, hk⟩ := List.getElem?_of_mem hq
    obtain ⟨o, -, ho, hparse⟩ := pred_at hpreds hk
    obtain ⟨q', hparse', htrue⟩ := hall o ho
    rwa [Except.ok.inj (hparse.symm.trans hparse')]

/-- Where every operand has a value, so has the strategy. -/
theorem strategy_valued (h : parseStrategy sqrt x = .ok p)
    (hall : ∀ o ∈ operands x, ∃ b, Gives sqrt s i o.2 b) : ∃ b, p s i = .ok b := by
  rw [parseStrategy_clauses] at h
  obtain ⟨preds, hpreds, h⟩ := except_bind_ok h
  rw [← Except.ok.inj h]
  refine allPreds_valued fun q hq => ?_
  obtain ⟨k, hk⟩ := List.getElem?_of_mem hq
  obtain ⟨o, -, ho, hparse⟩ := pred_at hpreds hk
  obtain ⟨b, q', hparse', hval⟩ := hall o ho
  exact ⟨b, by rw [Except.ok.inj (hparse.symm.trans hparse'), hval]⟩

end Strategies

/-! ## The operands of a canonical name -/

theorem ends_of_stripped {drop : Char → Bool} {t : Text} (h : stripOf drop t = t) :
    (∀ c, t.head? = some c → drop c = false) ∧ ∀ c, t.getLast? = some c → drop c = false := by
  have hfront : t.dropWhile drop = t := by
    have hsuffix : t.dropWhile drop <:+ t := List.dropWhile_suffix drop
    refine hsuffix.eq_of_length_le ?_
    conv_lhs => rw [← h]
    exact (List.rdropWhile_prefix drop _).length_le
  refine ⟨fun c hc => ?_, fun c hc => ?_⟩
  · cases t with
    | nil => cases hc
    | cons d t =>
      obtain rfl : d = c := Option.some.inj hc
      by_contra hd
      rw [Bool.not_eq_false] at hd
      rw [List.dropWhile_cons_of_pos hd] at hfront
      have hlen := (List.dropWhile_suffix drop (l := t)).length_le
      rw [hfront, List.length_cons] at hlen
      omega
  · unfold stripOf at h
    rw [hfront, List.rdropWhile_eq_self_iff] at h
    have hne : t ≠ [] := by
      rintro rfl
      cases hc
    rw [List.getLast?_eq_some_getLast hne] at hc
    rw [← Option.some.inj hc]
    exact Bool.eq_false_iff.mpr (h hne)

theorem strip_joined {texts : List Text} (h : ∀ t ∈ texts, OneAtom t) :
    strip (joined texts) = joined texts := by
  have hends : (∀ c, (joined texts).head? = some c → isSpace c = false) ∧
      ∀ c, (joined texts).getLast? = some c → isSpace c = false := by
    induction texts with
    | nil => exact ⟨fun c hc => (nomatch hc), fun c hc => (nomatch hc)⟩
    | cons t rest ih =>
      have hone := h t List.mem_cons_self
      obtain ⟨hhead, hlast⟩ := ends_of_stripped hone.trimmed
      cases rest with
      | nil =>
        have hsingle : joined [t] = t := List.intercalate_singleton
        rw [hsingle]
        exact ⟨hhead, hlast⟩
      | cons u rest =>
        obtain ⟨-, hrest⟩ := ih fun v hv => h v (List.mem_cons_of_mem _ hv)
        have hjoined : joined (t :: u :: rest) = t ++ '&' :: joined (u :: rest) := by
          unfold joined
          rw [List.intercalate_cons_of_ne_nil (List.cons_ne_nil _ _), List.append_assoc]
          rfl
        have hne : joined (u :: rest) ≠ [] := joined_ne_nil (List.cons_ne_nil _ _) fun v hv =>
          (h v (List.mem_cons_of_mem _ hv)).nonempty
        rw [hjoined]
        refine ⟨fun c hc => hhead c ?_, fun c hc => hrest c ?_⟩
        · rwa [List.head?_append_of_ne_nil _ hone.nonempty] at hc
        · rwa [List.getLast?_append_of_ne_nil _ (List.cons_ne_nil _ _),
            List.getLast?_cons_of_ne_nil hne] at hc
  exact stripOf_eq_self hends.1 hends.2

/-- The operands of joined atoms are the atoms. -/
theorem operands_joined {texts : List Text} (h : ∀ t ∈ texts, OneAtom t) (hne : texts ≠ []) :
    operands (joined texts) =
      texts.map fun t => (t, if texts.length = 1 then t else stripOf isBracket t) := by
  have hsplit : (joined texts).splitOn '&' = texts :=
    List.splitOn_intercalate '&' (fun t ht => (h t ht).whole) hne
  unfold operands
  rw [strip_joined h]
  cases texts with
  | nil => exact absurd rfl hne
  | cons t rest =>
    cases rest with
    | nil =>
      have hsingle : joined [t] = t := List.intercalate_singleton
      rw [hsingle, if_neg (h t List.mem_cons_self).whole]
      rfl
    | cons u rest =>
      have hamp : '&' ∈ joined (t :: u :: rest) := by
        by_contra hno
        rw [List.splitOn_eq_singleton hno] at hsplit
        cases congrArg List.length hsplit
      rw [if_pos hamp, hsplit]
      refine List.map_congr_left fun v hv => ?_
      rw [(h v hv).trimmed, if_neg (by simp)]

theorem operands_canonical {x : Text} (h : atomsOf x ≠ []) : operands (canonicalName x) =
    (canonicalAtoms x).map fun t =>
      (t, if (canonicalAtoms x).length = 1 then t else stripOf isBracket t) :=
  operands_joined (fun _ ht => oneAtom_canonicalAtoms ht) (canonicalAtoms_ne_nil h)

theorem strictAtoms_ne_nil {group : List AtomParts} {key : String × String × List ℕ}
    (h : OneIndicator group key) (hne : group ≠ []) : strictAtoms group ≠ [] := by
  intro hnil
  have hraw : ∀ a ∈ group, a.raw ≠ [] := by
    intro a ha
    obtain ⟨⟨tok, htok⟩, -⟩ := h a ha
    exact inspectAtom_raw htok
  refine (strictRaw_spec hne hraw).1 ?_
  rw [strictRaw_eq h, hnil]
  rfl

/-- Something is kept of each indicator. -/
theorem exists_kept {x : Text} {a : AtomParts} (ha : a ∈ known x) : ∃ b ∈ kept x, b.key = a.key := by
  have hin : a ∈ groupOf x a.key := mem_groupOf.mpr ⟨ha, rfl⟩
  obtain ⟨b, hb⟩ := List.exists_mem_of_ne_nil _
    (strictAtoms_ne_nil (oneIndicator_groupOf x a.key) (List.ne_nil_of_mem hin))
  have hkey := (known_of_mem_strictAtoms hb).2
  exact ⟨b, mem_kept.mpr (by rwa [hkey]), hkey⟩

/-- The canonical name is one operand that is not known when the name has no other atom. -/
theorem canonicalAtoms_single {x tok : Text} (h : tok ∈ unknown x) :
    (canonicalAtoms x).length = 1 ↔ atomsOf x = [tok] := by
  have hlen : (canonicalAtoms x).length = (kept x).length + (unknown x).length := by
    rw [canonicalAtoms_kept, sortedTexts, List.length_insertionSort, List.length_append,
      List.length_map]
  have hnone : ∀ t ∈ unknown x, inspectAtom t = none := fun t ht =>
    Option.isNone_iff_eq_none.mp (List.mem_filter.mp ht).2
  rw [hlen]
  constructor
  · intro hone
    have hpos : 0 < (unknown x).length := List.length_pos_of_mem h
    have hkept : kept x = [] := List.length_eq_zero_iff.mp (by omega)
    have hall : atomsOf x = unknown x := by
      refine (List.filter_eq_self.mpr fun t ht => ?_).symm
      cases hread : inspectAtom t with
      | none => rfl
      | some a =>
        obtain ⟨b, hb, -⟩ := exists_kept (List.mem_filterMap.mpr ⟨t, ht, hread⟩)
        rw [hkept] at hb
        cases hb
    obtain ⟨u, hu⟩ := List.length_eq_one_iff.mp (show (unknown x).length = 1 by omega)
    rw [hu] at h
    rw [hall, hu, List.mem_singleton.mp h]
  · intro hone
    have hknown : known x = [] := by
      unfold known
      rw [hone, List.filterMap_cons_none (hnone tok h)]
      rfl
    have hkept : kept x = [] := by
      unfold kept indicators
      rw [hknown]
      rfl
    have hunknown : unknown x = [tok] := by
      unfold unknown
      rw [hone, List.filter_cons_of_pos (by rw [hnone tok h]; rfl)]
      rfl
    rw [hkept, hunknown]
    rfl

/-- An operand that is not known, as the parser reads it in the canonical name. -/
def keptText (x tok : Text) : Text := if atomsOf x = [tok] then tok else stripOf isBracket tok

theorem mem_operands_canonical {x : Text} (hne : atomsOf x ≠ []) {o : Text × Text}
    (ho : o ∈ operands (canonicalName x)) :
    (∃ a ∈ kept x, inspectAtom o.1 = some a ∧ a.raw = o.1) ∨
      (o.1 ∈ unknown x ∧ o.2 = keptText x o.1) := by
  rw [operands_canonical hne] at ho
  obtain ⟨t, ht, rfl⟩ := List.mem_map.mp ho
  rcases mem_canonicalAtoms_iff.mp ht with ⟨a, ha, rfl⟩ | ht
  · exact Or.inl ⟨a, ha, inspect_kept ha, rfl⟩
  · refine Or.inr ⟨ht, ?_⟩
    unfold keptText
    simp only [canonicalAtoms_single ht]

theorem kept_mem_operands {x : Text} {a : AtomParts} (ha : a ∈ kept x) (hne : atomsOf x ≠ []) :
    ∃ o ∈ operands (canonicalName x), o.1 = a.raw := by
  rw [operands_canonical hne]
  exact ⟨_, List.mem_map_of_mem (mem_canonicalAtoms_iff.mpr (Or.inl ⟨a, ha, rfl⟩)), rfl⟩

theorem unknown_mem_operands {x tok : Text} (h : tok ∈ unknown x) :
    (tok, keptText x tok) ∈ operands (canonicalName x) := by
  have hne : atomsOf x ≠ [] := List.ne_nil_of_mem (List.mem_filter.mp h).1
  rw [operands_canonical hne]
  refine List.mem_map.mpr ⟨tok, mem_canonicalAtoms_iff.mpr (Or.inr h), ?_⟩
  unfold keptText
  simp only [canonicalAtoms_single h]

/-- An operand is blank, known or not known. -/
theorem operand_cases {x : Text} {o : Text × Text} (ho : o ∈ operands x) :
    o.1 = [] ∨ (∃ a ∈ known x, inspectAtom o.1 = some a) ∨ o.1 ∈ unknown x := by
  by_cases hnil : o.1 = []
  · exact Or.inl hnil
  · refine Or.inr ?_
    cases hread : inspectAtom o.1 with
    | some a => exact Or.inl ⟨a, mem_known.mpr ⟨o, ho, hread⟩, rfl⟩
    | none =>
      refine Or.inr (List.mem_filter.mpr ⟨?_, by rw [hread]; rfl⟩)
      rw [atomsOf_operands]
      exact List.mem_filter.mpr ⟨List.mem_map_of_mem ho, decide_eq_true hnil⟩

theorem operand_of_unknown {x tok : Text} (h : tok ∈ unknown x) : ∃ o ∈ operands x, o.1 = tok := by
  have hatom := (List.mem_filter.mp h).1
  rw [atomsOf_operands] at hatom
  exact List.mem_map.mp (List.mem_filter.mp hatom).1

/-! ## What is accepted -/

section Kept

variable {sqrt : ℚ → ℚ} {s : Ohlc} {i : ℕ} {x : Text}

/-- Every operand that is not known is read the same once it is trimmed. -/
def SameTrim (sqrt : ℚ → ℚ) (x : Text) : Prop :=
  ∀ o ∈ operands x, o.1 ∈ unknown x → parseClause sqrt (keptText x o.1) = parseClause sqrt o.2

theorem parseClause_blank {t : Text} (h : strip t = []) :
    parseClause sqrt t = .ok (anyPreds [Condition.never.eval sqrt]) := by
  rw [← parseClause_strip, h]
  rfl

theorem parse_known (hok : ∃ p, parseStrategy sqrt x = .ok p) {a : AtomParts} (ha : a ∈ known x) :
    ∃ c, parseName a.raw = .ok c := by
  obtain ⟨o, ho, hread⟩ := mem_known.mp ha
  obtain ⟨q, hq⟩ := accepted_iff.mp hok o ho
  rw [parseClause_inspect ho hread] at hq
  obtain ⟨c, hc, -⟩ := except_bind_ok hq
  exact ⟨c, by rw [raw_inspected (inspected hread), strip_token ho, hc]⟩

/-- The parser takes what is kept of a strategy it takes. -/
theorem parse_kept (hok : ∃ p, parseStrategy sqrt x = .ok p) {a : AtomParts} (ha : a ∈ kept x) :
    ∃ c, parseName a.raw = .ok c := by
  rcases mem_strictAtoms (mem_kept.mp ha) with hin | ⟨sample, hsample, b, hb, hprinted, hno⟩
  · exact parse_known hok (mem_groupOf.mp hin).1
  · have hgroup := oneIndicator_groupOf x a.key
    obtain ⟨p, hp⟩ := rsi_of_missing hgroup hb fun a' ha' => (hno a' ha').2
    obtain ⟨a', ha', hin⟩ := of_mem_wanted hb
    obtain ⟨⟨tok, htok⟩, hkey⟩ := hgroup a' ha'
    obtain ⟨c, hc⟩ := parse_known hok (mem_groupOf.mp ha').1
    have hkey' : a'.key = ("rsi", "", [p]) := hkey.trans hp
    obtain ⟨hfamily, hrest⟩ := Prod.mk.inj hkey'
    rw [raw_inspected (inspected htok)] at hc
    obtain ⟨hparams, hbounds⟩ := rsi_short htok hfamily hc
    have hparams : Short p := hparams p (by rw [(Prod.mk.inj hrest).2]; exact List.mem_cons_self)
    rw [hprinted, strictAtom_rsi ((hgroup sample hsample).2.trans hp)]
    exact parseName_rsiText hparams (hbounds b hin) b.1

theorem canonicalName_blank (h : atomsOf x = []) : canonicalName x = [] := by
  have hknown : known x = [] := by
    unfold known
    rw [h]
    rfl
  have hatoms : canonicalAtoms x = [] := by
    rw [canonicalAtoms_kept]
    unfold kept indicators unknown
    rw [hknown, h]
    rfl
  unfold canonicalName
  rw [hatoms]
  rfl

theorem canonical_accepted (hok : ∃ p, parseStrategy sqrt x = .ok p) (htrim : SameTrim sqrt x) :
    ∃ q, parseStrategy sqrt (canonicalName x) = .ok q := by
  refine accepted_iff.mpr fun o ho => ?_
  by_cases hne : atomsOf x = []
  · rw [canonicalName_blank hne] at ho
    obtain rfl : o = ([], []) := List.mem_singleton.mp ho
    exact ⟨_, parseClause_blank rfl⟩
  · rcases mem_operands_canonical hne ho with ⟨a, ha, hread, hraw⟩ | ⟨hin, htext⟩
    · obtain ⟨c, hc⟩ := parse_kept hok ha
      rw [parseClause_inspect ho hread, ← hraw, hc]
      exact ⟨_, rfl⟩
    · obtain ⟨o', ho', hfst⟩ := operand_of_unknown hin
      have hsame := htrim o' ho' (by rwa [hfst])
      rw [htext, ← hfst, hsame]
      exact accepted_iff.mp hok o' ho'

/-! ## What is true -/

/-- The value of an operand the mint knows. -/
theorem gives_inspect {y : Text} {o : Text × Text} {a : AtomParts} (ho : o ∈ operands y)
    (ha : inspectAtom o.1 = some a) (hok : ∃ c, parseName o.1 = .ok c) (b : Bool) : Gives sqrt s i o.2 b ↔
      (if a.misworded then Condition.never else a.condition).eval sqrt s i = .ok b := by
  obtain ⟨c, hc⟩ := hok
  have hparse : parseClause sqrt o.2 = .ok (c.eval sqrt) := by
    rw [parseClause_inspect ho ha, hc]
    rfl
  rw [← clause_inspect ho ha hparse]
  constructor
  · rintro ⟨q, hq, hval⟩
    rwa [Except.ok.inj (hparse.symm.trans hq)]
  · exact fun h => ⟨_, hparse, h⟩

/-- It is true when the operand is well worded and its condition holds. -/
theorem gives_known {y : Text} {o : Text × Text} {a : AtomParts} (ho : o ∈ operands y)
    (ha : inspectAtom o.1 = some a) (hok : ∃ c, parseName o.1 = .ok c) : Gives sqrt s i o.2 true ↔
      a.misworded = false ∧ a.condition.eval sqrt s i = .ok true := by
  rw [gives_inspect ho ha hok]
  cases a.misworded with
  | false => exact ⟨fun h => ⟨rfl, h⟩, fun h => h.2⟩
  | true =>
    refine ⟨fun h => ?_, fun h => ?_⟩
    · cases h
    · cases h.1

/-- The atoms written of a group hold where the group's do. -/
theorem strictAtoms_hold {group : List AtomParts} {key : String × String × List ℕ}
    (h : OneIndicator group key) (hne : group ≠ []) :
    (∀ a ∈ strictAtoms group, a.condition.eval sqrt s i = .ok true) ↔
      ∀ a ∈ group, a.condition.eval sqrt s i = .ok true := by
  have hstrict : OneIndicator (strictAtoms group) key := fun a ha =>
    ⟨⟨a.raw, (strictAtoms_known h ha).1⟩, (strictAtoms_known h ha).2⟩
  constructor
  · intro hall a ha
    refine implied hstrict (h a ha).1 (h a ha).2 (strictAtoms_ne_nil h hne) (fun b hb => ?_) hall
    obtain ⟨b', hb', htighter⟩ := exists_wanted ha hb
    obtain ⟨a', ha', hin⟩ := (strictAtoms_bounds b').mp hb'
    exact ⟨a', ha', b', hin, htighter⟩
  · intro hall a ha
    refine implied h (hstrict a ha).1 (hstrict a ha).2 hne (fun b hb => ?_) hall
    obtain ⟨a', ha', hin⟩ := of_mem_wanted ((strictAtoms_bounds b).mpr ⟨a, ha, hb⟩)
    exact ⟨a', ha', b, hin, .refl b⟩

theorem kept_hold : (∀ a ∈ kept x, a.condition.eval sqrt s i = .ok true) ↔
    ∀ a ∈ known x, a.condition.eval sqrt s i = .ok true := by
  have hgroup : ∀ key, groupOf x key ≠ [] → ((∀ a ∈ strictAtoms (groupOf x key),
      a.condition.eval sqrt s i = .ok true) ↔ ∀ a ∈ groupOf x key, a.condition.eval sqrt s i = .ok true) :=
    fun key hne => strictAtoms_hold (oneIndicator_groupOf x key) hne
  constructor
  · intro hall a ha
    have hin : a ∈ groupOf x a.key := mem_groupOf.mpr ⟨ha, rfl⟩
    refine (hgroup a.key (List.ne_nil_of_mem hin)).mp (fun b hb => hall b (mem_kept.mpr ?_)) a hin
    rwa [(known_of_mem_strictAtoms hb).2]
  · intro hall a ha
    have hin := mem_kept.mp ha
    refine (hgroup a.key fun hnil => ?_).mpr (fun b hb => hall b (mem_groupOf.mp hb).1) a hin
    rw [hnil] at hin
    cases hin

theorem kept_worded : (∀ a ∈ kept x, a.misworded = false) ↔ ∀ a, Deciding x a → a.misworded = false := by
  constructor
  · exact fun hall a ha => hall a (deciding_iff.mp ha).1
  · intro hall a ha
    rcases mem_strictAtoms (mem_kept.mp ha) with hin | ⟨sample, hsample, b, hb, hprinted, hno⟩
    · exact hall a (deciding_iff.mpr ⟨ha, hin⟩)
    · have hgroup := oneIndicator_groupOf x a.key
      obtain ⟨p, hp⟩ := rsi_of_missing hgroup hb fun a' ha' => (hno a' ha').2
      rw [hprinted, strictAtom_rsi ((hgroup sample hsample).2.trans hp)]
      rfl

/-- A strategy is true where its operands are: none of them is blank, those that are known
are well worded and hold, and the others are true. -/
theorem source_true_iff {p : Predicate} (hp : parseStrategy sqrt x = .ok p) :
    p s i = .ok true ↔ (∀ o ∈ operands x, o.1 ≠ []) ∧
      (∀ a ∈ known x, a.misworded = false ∧ a.condition.eval sqrt s i = .ok true) ∧
        ∀ o ∈ operands x, o.1 ∈ unknown x → Gives sqrt s i o.2 true := by
  have hknown : ∀ o ∈ operands x, ∀ a, inspectAtom o.1 = some a → (Gives sqrt s i o.2 true ↔
      a.misworded = false ∧ a.condition.eval sqrt s i = .ok true) := by
    intro o ho a ha
    refine gives_known ho ha ?_
    obtain ⟨c, hc⟩ := parse_known ⟨p, hp⟩ (mem_known.mpr ⟨o, ho, ha⟩)
    rw [raw_inspected (inspected ha), strip_token ho] at hc
    exact ⟨c, hc⟩
  rw [strategy_true_iff hp]
  constructor
  · intro hall
    refine ⟨fun o ho hnil => ?_, fun a ha => ?_, fun o ho _ => hall o ho⟩
    · -- a blank operand is never true
      have hstrip : strip o.2 = [] := (strip_operand ho (by simp [hnil])).trans hnil
      obtain ⟨q, hq, hval⟩ := hall o ho
      rw [parseClause_blank hstrip] at hq
      rw [← Except.ok.inj hq] at hval
      cases hval
    · obtain ⟨o, ho, hread⟩ := mem_known.mp ha
      exact (hknown o ho a hread).mp (hall o ho)
  · rintro ⟨hblank, hhold, hothers⟩ o ho
    rcases operand_cases ho with hnil | ⟨a, ha, hread⟩ | hin
    · exact absurd hnil (hblank o ho)
    · exact (hknown o ho a hread).mpr (hhold a ha)
    · exact hothers o ho hin

/-- The canonical name is true where what is kept of the name is. -/
theorem canonical_true_iff (hok : ∃ p, parseStrategy sqrt x = .ok p) (htrim : SameTrim sqrt x)
    (hne : atomsOf x ≠ []) {q : Predicate} (hq : parseStrategy sqrt (canonicalName x) = .ok q) :
    q s i = .ok true ↔
      (∀ a ∈ kept x, a.misworded = false ∧ a.condition.eval sqrt s i = .ok true) ∧
        ∀ o ∈ operands x, o.1 ∈ unknown x → Gives sqrt s i o.2 true := by
  have hsame : ∀ o ∈ operands x, o.1 ∈ unknown x → ∀ b,
      Gives sqrt s i (keptText x o.1) b ↔ Gives sqrt s i o.2 b := by
    intro o ho hin b
    unfold Gives
    rw [htrim o ho hin]
  have hknown : ∀ o ∈ operands (canonicalName x), ∀ a ∈ kept x, a.raw = o.1 →
      (Gives sqrt s i o.2 true ↔ a.misworded = false ∧ a.condition.eval sqrt s i = .ok true) := by
    intro o ho a ha hraw
    exact gives_known ho (hraw ▸ inspect_kept ha) (hraw ▸ parse_kept hok ha)
  rw [strategy_true_iff hq]
  constructor
  · intro hall
    refine ⟨fun a ha => ?_, fun o ho hin => ?_⟩
    · obtain ⟨o, ho, hfst⟩ := kept_mem_operands ha hne
      exact (hknown o ho a ha hfst.symm).mp (hall o ho)
    · exact (hsame o ho hin true).mp (hall _ (unknown_mem_operands hin))
  · rintro ⟨hkept, hothers⟩ o ho
    rcases mem_operands_canonical hne ho with ⟨a, ha, -, hraw⟩ | ⟨hin, htext⟩
    · exact (hknown o ho a ha hraw).mpr (hkept a ha)
    · obtain ⟨o', ho', hfst⟩ := operand_of_unknown hin
      rw [← hfst] at hin
      rw [htext, ← hfst]
      exact (hsame o' ho' hin true).mpr (hothers o' ho' hin)

/-- An operand of the name that the canonical name drops is never true: it is blank, or an
atom worded as the parser does not read it. -/
def Lost (x : Text) : Prop := (∃ o ∈ operands x, o.1 = []) ∨ ∃ a ∈ known x, a.misworded = true

/-- What the operands of a name stand for is true at a bar: there are some, the atoms that
decide their indicators are well worded, all conditions hold, and the operands that are not
known are true. -/
structure Meant (sqrt : ℚ → ℚ) (x : Text) (s : Ohlc) (i : ℕ) : Prop where
  some : atomsOf x ≠ []
  worded : ∀ a, Deciding x a → a.misworded = false
  holds : ∀ a ∈ known x, a.condition.eval sqrt s i = .ok true
  others : ∀ o ∈ operands x, o.1 ∈ unknown x → Gives sqrt s i o.2 true

theorem meant_iff (hok : ∃ p, parseStrategy sqrt x = .ok p) (htrim : SameTrim sqrt x)
    {q : Predicate} (hq : parseStrategy sqrt (canonicalName x) = .ok q) :
    q s i = .ok true ↔ Meant sqrt x s i := by
  by_cases hne : atomsOf x = []
  · rw [canonicalName_blank hne] at hq
    have hno : ¬ q s i = .ok true := fun htrue =>
      ((source_true_iff hq).mp htrue).1 ([], []) List.mem_cons_self rfl
    exact iff_of_false hno fun h => h.some hne
  · rw [canonical_true_iff hok htrim hne hq]
    constructor
    · rintro ⟨hkept, hothers⟩
      exact ⟨hne, kept_worded.mp fun a ha => (hkept a ha).1, kept_hold.mp fun a ha => (hkept a ha).2,
        hothers⟩
    · intro h
      exact ⟨fun a ha => ⟨kept_worded.mpr h.worded a ha, kept_hold.mpr h.holds a ha⟩, h.others⟩

/-- Where a strategy is true, so is what its operands stand for, and no operand is lost. -/
theorem source_iff_meant {p : Predicate} (hp : parseStrategy sqrt x = .ok p) :
    p s i = .ok true ↔ Meant sqrt x s i ∧ ¬ Lost x := by
  have hoperand : ∃ o, o ∈ operands x := by
    unfold operands
    split
    next => exact List.exists_mem_of_ne_nil _ fun hnil => List.splitOn_ne_nil _ _ (List.map_eq_nil_iff.mp hnil)
    next => exact ⟨_, List.mem_cons_self⟩
  rw [source_true_iff hp]
  constructor
  · rintro ⟨hblank, hhold, hothers⟩
    refine ⟨⟨?_, fun a ha => ?_, fun a ha => (hhold a ha).2, hothers⟩, ?_⟩
    · obtain ⟨o, ho⟩ := hoperand
      have hatom : o.1 ∈ atomsOf x := by
        rw [atomsOf_operands]
        exact List.mem_filter.mpr ⟨List.mem_map_of_mem ho, decide_eq_true (hblank o ho)⟩
      exact List.ne_nil_of_mem hatom
    · exact (hhold a (mem_groupOf.mp (deciding_iff.mp ha).2).1).1
    · rintro (⟨o, ho, hnil⟩ | ⟨a, ha, hword⟩)
      · exact hblank o ho hnil
      · cases hword.symm.trans (hhold a ha).1
  · rintro ⟨hmeant, hlost⟩
    refine ⟨fun o ho hnil => hlost (Or.inl ⟨o, ho, hnil⟩), fun a ha => ⟨?_, hmeant.holds a ha⟩,
      hmeant.others⟩
    exact Bool.eq_false_iff.mpr fun hword => hlost (Or.inr ⟨a, ha, hword⟩)

/-! ## Where there is a value -/

/-- Every operand of a name has a value at the bar. -/
def Settled (sqrt : ℚ → ℚ) (x : Text) (s : Ohlc) (i : ℕ) : Prop :=
  ∀ o ∈ operands x, ∃ b, Gives sqrt s i o.2 b

/-- Atoms with bounds of one indicator have a value together. -/
theorem valued_of_key {tok tok' : Text} {a a' : AtomParts} (ha : inspectAtom tok = some a)
    (ha' : inspectAtom tok' = some a') (hkey : a.key = a'.key) (hb : a.bounds ≠ [])
    (hval : ∃ b, a'.condition.eval sqrt s i = .ok b) : ∃ b, a.condition.eval sqrt s i = .ok b := by
  unfold AtomParts.key at hkey
  obtain ⟨hfamily, hrest⟩ := Prod.mk.inj hkey
  have hb' : a'.bounds ≠ [] := by
    rw [bounds_ne_nil_iff ha', ← hfamily, ← bounds_ne_nil_iff ha]
    exact hb
  obtain ⟨b, hval⟩ := hval
  rw [eval_bounded ha' hb', ← hfamily, ← (Prod.mk.inj hrest).2] at hval
  obtain ⟨r, hr, -⟩ := except_bind_ok hval
  rw [eval_bounded ha hb, hr]
  exact ⟨_, rfl⟩

theorem settled_canonical (hok : ∃ p, parseStrategy sqrt x = .ok p) (htrim : SameTrim sqrt x)
    (h : Settled sqrt x s i) : Settled sqrt (canonicalName x) s i := by
  intro o ho
  by_cases hne : atomsOf x = []
  · rw [canonicalName_blank hne] at ho
    obtain rfl : o = ([], []) := List.mem_singleton.mp ho
    exact ⟨false, _, parseClause_blank rfl, rfl⟩
  · have hname : ∀ o' ∈ operands x, ∀ a, inspectAtom o'.1 = some a → ∃ c, parseName o'.1 = .ok c := by
      intro o' ho' a ha
      have hc := parse_known hok (mem_known.mpr ⟨o', ho', ha⟩)
      rwa [raw_inspected (inspected ha), strip_token ho'] at hc
    rcases mem_operands_canonical hne ho with ⟨a, ha, hread, hraw⟩ | ⟨hin, htext⟩
    · simp only [gives_inspect ho hread (hraw ▸ parse_kept hok ha)]
      rcases mem_strictAtoms (mem_kept.mp ha) with hin | ⟨sample, hsample, b, hb, hprinted, hno⟩
      · obtain ⟨o', ho', hread'⟩ := mem_known.mp (mem_groupOf.mp hin).1
        obtain ⟨b, hval⟩ := h o' ho'
        exact ⟨b, (gives_inspect ho' hread' (hname o' ho' a hread') b).mp hval⟩
      · -- another bound of the RSI has a value, so the one printed has
        have hgroup := oneIndicator_groupOf x a.key
        obtain ⟨p, hp⟩ := rsi_of_missing hgroup hb fun a' ha' => (hno a' ha').2
        have hword : ∀ a' : AtomParts, a'.key = ("rsi", "", [p]) → a'.misworded = false := by
          intro a' hkey
          obtain ⟨hfamily, -⟩ := Prod.mk.inj hkey
          unfold AtomParts.misworded
          rw [hfamily]
          rfl
        obtain ⟨o', ho', hread'⟩ := mem_known.mp (mem_groupOf.mp hsample).1
        obtain ⟨b', hval⟩ := h o' ho'
        rw [gives_inspect ho' hread' (hname o' ho' sample hread'),
          hword sample ((hgroup sample hsample).2.trans hp)] at hval
        rw [hword a hp]
        refine valued_of_key hread hread' (hgroup sample hsample).2.symm ?_ ⟨b', hval⟩
        rw [hprinted]
        exact List.cons_ne_nil _ _
    · obtain ⟨o', ho', hfst⟩ := operand_of_unknown hin
      obtain ⟨b, q, hq, hval⟩ := h o' ho'
      refine ⟨b, q, ?_, hval⟩
      rw [htext, ← hfst, htrim o' ho' (by rwa [hfst]), hq]

theorem eq_iff_of_true {v w : Bool} {P Q : Prop} (hv : v = true ↔ P) (hw : w = true ↔ Q) :
    v = w ↔ (P ↔ Q) := by
  rw [Bool.eq_iff_iff, hv, hw]

theorem and_not_iff_self {P Q : Prop} : (P ∧ ¬ Q ↔ P) ↔ ¬ (Q ∧ P) := by
  tauto

end Kept

/-! ## Names that do not trade as written -/

theorem parse_of_conditions {x : Text} {cs : List Condition} (sqrt : ℚ → ℚ)
    (hknown : ((operands x).all fun o => (inspectAtom o.1).isSome) = true)
    (h : ((operands x).mapM fun o => parseName o.1) = .ok cs) :
    parseStrategy sqrt x = .ok (allPreds (cs.map (Condition.eval sqrt))) := by
  rw [parseStrategy_clauses, mapM_conjuncts sqrt hknown h]
  rfl

/-- Two bounds of one RSI. -/
def TWO_BOUNDS : Text := "rsi_14_>45&rsi_14_>50".toList

theorem parse_twoBounds : parseStrategy id TWO_BOUNDS = .ok
    (allPreds ([.atom (.rsiRange 14 45 100), .atom (.rsiRange 14 50 100)].map (Condition.eval id))) :=
  parse_of_conditions id (by decide) (by decide)

/-- The second atom has the words of a dip, and is never true. -/
def WRONG_WORD : Text := "mom_1b_gt4pc&mom_1b_lt2pc".toList

/-- The second operand is blank, and never true. -/
def TRAILING : Text := "mom_1b_gt4pc&".toList

/-- The first operand is false where the second divides by zero. -/
def DIVIDING : Text := "sma_abv_2&mom_1b_gt1pc".toList

end PaperTrading.Mint
