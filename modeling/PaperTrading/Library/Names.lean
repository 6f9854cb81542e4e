import PaperTrading.Lib.Dict
import PaperTrading.Lib.Fallible
import PaperTrading.Lib.Text

/-!
# The names of library configurations

`library/catalog.py`: a configuration is a strategy of the catalog with a value for each
of its parameters. `variantName` writes it as `lib.<key>`, with the values behind another
dot unless they are the declared ones, and `parseVariant` reads such a name.

`variant_codec` says that every configuration whose values can be printed comes back, and
that a name is read only if it is the one that is written, except for a key with nothing
behind its dot (`bare_dot_accepted`).
-/

namespace PaperTrading.Library

open PaperTrading.Lib

/-- `NAME_PREFIX` -/
def NAME_PREFIX : Text := "lib.".toList

structure Param where
  name : Text
  center : ℕ
  neighbours : List ℕ
deriving DecidableEq

/-- A strategy of the catalog, as far as its names go. -/
structure CatalogStrategy where
  key : Text
  params : List Param
  distinct : (params.map Param.name).Nodup
deriving DecidableEq

/-- `LIBRARY`. The module raises when a key is there twice; no key has a dot. -/
structure Catalog where
  strategies : List CatalogStrategy
  keys_nodup : (strategies.map CatalogStrategy.key).Nodup
  keys_plain : ∀ s ∈ strategies, '.' ∉ s.key

abbrev Params := Dict Text ℕ

/-- Why a name cannot be written or read. All but the last are `ValueError`. -/
inductive NameError where
  | notLibraryName
  | unknownKey (key : Text)
  | badParameters
  | nonCanonical
  /-- `int` of a text that is no number, or of one with too many digits -/
  | noInt (message : String)
  /-- `str` of a number with too many digits -/
  | tooManyDigits
  | keyError (name : Text)
deriving DecidableEq

/-- `str(n)` -/
def strOf (n : ℕ) : Except NameError Text :=
  if MAX_STR_DIGITS < (Nat.toDigits 10 n).length then .error .tooManyDigits
  else .ok (Nat.toDigits 10 n)

/-- `int(part)` -/
def intOfPart (part : Text) : Except NameError ℕ :=
  if part.all isDigit then (intOf part).mapError .noInt
  else .error (.noInt "invalid literal for int() with base 10")

theorem zip_keys_front {α β : Type} (l : List α) (m : List β) : (l.zip m).map Prod.fst <+: l := by
  induction l generalizing m with
  | nil => exact List.nil_prefix
  | cons a l ih =>
    cases m with
    | nil => exact List.nil_prefix
    | cons b m => exact (List.prefix_cons_inj a).mpr (ih m)

namespace CatalogStrategy
variable (s : CatalogStrategy)

/-- `{p.name: v for p, v in zip(params, vals)}` -/
def assign (vals : List ℕ) : Params where
  entries := (s.params.map Param.name).zip vals
  nodup := (zip_keys_front _ vals).sublist.nodup s.distinct

def centers : List ℕ := s.params.map Param.center

/-- `LibraryStrategy.center` -/
def center : Params := s.assign s.centers

/-- `params[p.name]` of every parameter. -/
def values (p : Params) : Except NameError (List ℕ) :=
  s.params.mapM fun q => (p.get? q.name).elim (.error (.keyError q.name)) .ok

/-- `variant_name` -/
def variantName (p : Params) : Except NameError Text := do
  let vals ← s.values p
  if vals = s.centers then return NAME_PREFIX ++ s.key
  let strs ← vals.mapM strOf
  return NAME_PREFIX ++ s.key ++ '.' :: List.intercalate ['_'] strs

/-- The parameters behind the dot of a name. -/
def parseValues (name values : Text) : Except NameError Params :=
  let parts := values.splitOn '_'
  if parts.length ≠ s.params.length ∨ ¬ parts.all isDigits then .error .badParameters
  else do
    let vals ← parts.mapM intOfPart
    let again ← s.variantName (s.assign vals)
    if again = name then return s.assign vals else throw .nonCanonical

end CatalogStrategy

namespace Catalog
variable (lib : Catalog)

/-- `strategy_by_key` -/
def strategyByKey (key : Text) : Except NameError CatalogStrategy :=
  (lib.strategies.find? fun s => s.key = key).elim (.error (.unknownKey key)) .ok

/-- `parse_variant` -/
def parseVariant (name : Text) : Except NameError (CatalogStrategy × Params) :=
  if ¬ NAME_PREFIX.isPrefixOf name then .error .notLibraryName
  else do
    let body := name.drop NAME_PREFIX.length
    let s ← lib.strategyByKey (body.takeWhile (· ≠ '.'))
    let values := (body.dropWhile (· ≠ '.')).drop 1
    if values = [] then return (s, s.center) else return (s, ← s.parseValues name values)

end Catalog

/-! ## Assignments -/

/-- Two dictionaries that are equal, whatever the order of their keys. -/
def Same (p q : Params) : Prop := ∀ name, p.get? name = q.get? name

/-- The value a parameter has in `p`. -/
def valueOf (p : Params) (q : Param) : ℕ := (p.get? q.name).getD 0

namespace CatalogStrategy
variable {s : CatalogStrategy} {p : Params}

/-- `p` gives each parameter of the strategy a value, and nothing else. -/
def Assigns (s : CatalogStrategy) (p : Params) : Prop :=
  ∀ name, name ∈ p.keys ↔ name ∈ s.params.map Param.name

/-- The values are the declared ones, or each can be printed. -/
def Printable (s : CatalogStrategy) (p : Params) : Prop :=
  s.params.map (valueOf p) = s.centers ∨
    ∀ q ∈ s.params, (Nat.toDigits 10 (valueOf p q)).length ≤ MAX_STR_DIGITS

theorem values_ok (h : s.Assigns p) : s.values p = .ok (s.params.map (valueOf p)) := by
  refine (mapM_ok_iff (P := fun _ => True) fun q hq vals => ?_).mpr ⟨fun _ _ => trivial, rfl⟩
  obtain ⟨v, hv⟩ := Dict.mem_keys.mp ((h q.name).mpr (List.mem_map_of_mem hq))
  unfold valueOf
  rw [hv, true_and]
  exact ⟨fun h => (Except.ok.inj h).symm, fun h => congrArg Except.ok h.symm⟩

theorem variantName_congr {q : Params} (h : Same p q) : s.variantName p = s.variantName q := by
  have hvalues : s.values p = s.values q := mapM_congr fun r _ => by rw [h r.name]
  unfold variantName
  rw [hvalues]

/-- The values of `p`, assigned again. -/
theorem same_assign (h : s.Assigns p) : Same (s.assign (s.params.map (valueOf p))) p := by
  have hentries : (s.assign (s.params.map (valueOf p))).entries =
      s.params.map fun q => (q.name, valueOf p q) := List.zip_map' ..
  intro name
  cases hp : p.get? name with
  | none =>
    rw [Dict.get?_eq_none] at hp ⊢
    unfold Dict.keys
    rw [hentries, List.map_map]
    exact fun hmem => hp ((h name).mpr hmem)
  | some v =>
    obtain ⟨q, hq, rfl⟩ := List.mem_map.mp ((h name).mp (Dict.mem_keys.mpr ⟨v, hp⟩))
    rw [Dict.get?_eq_some, hentries]
    refine List.mem_map.mpr ⟨q, hq, ?_⟩
    unfold valueOf
    rw [hp]
    rfl

/-! ## Writing a name -/

theorem strOf_ok {n : ℕ} {t : Text} :
    strOf n = .ok t ↔ (Nat.toDigits 10 n).length ≤ MAX_STR_DIGITS ∧ t = Nat.toDigits 10 n := by
  unfold strOf
  split
  next h => exact iff_of_false (fun h => by cases h) fun hok => absurd hok.1 (Nat.not_le.mpr h)
  next h =>
    rw [and_iff_right (Nat.not_lt.mp h)]
    exact ⟨fun h => (Except.ok.inj h).symm, fun h => congrArg Except.ok h.symm⟩

theorem mapM_strOf {vals : List ℕ} {strs : List Text} : vals.mapM strOf = .ok strs ↔
    (∀ n ∈ vals, (Nat.toDigits 10 n).length ≤ MAX_STR_DIGITS) ∧ strs = vals.map (Nat.toDigits 10) :=
  mapM_ok_iff fun _ _ _ => strOf_ok

/-- A name has the strategy's key alone, or the printed values behind it. -/
theorem variantName_ok (h : s.Assigns p) {name : Text} : s.variantName p = .ok name ↔
    s.params.map (valueOf p) = s.centers ∧ name = NAME_PREFIX ++ s.key ∨
    s.params.map (valueOf p) ≠ s.centers ∧
      (∀ q ∈ s.params, (Nat.toDigits 10 (valueOf p q)).length ≤ MAX_STR_DIGITS) ∧
      name = NAME_PREFIX ++ s.key ++
        '.' :: List.intercalate ['_'] ((s.params.map (valueOf p)).map (Nat.toDigits 10)) := by
  unfold variantName
  rw [values_ok h]
  show (if s.params.map (valueOf p) = s.centers then _ else _) = _ ↔ _
  split
  next heq =>
    constructor
    · exact fun h => Or.inl ⟨heq, (Except.ok.inj h).symm⟩
    · rintro (⟨-, rfl⟩ | ⟨hne, -⟩)
      · rfl
      · exact absurd heq hne
  next hne =>
    constructor
    · intro hok
      obtain ⟨strs, hstrs, hname⟩ := except_bind_ok hok
      obtain ⟨hlen, rfl⟩ := mapM_strOf.mp hstrs
      refine Or.inr ⟨hne, fun q hq => hlen _ (List.mem_map_of_mem hq), ?_⟩
      exact (Except.ok.inj hname).symm
    · rintro (⟨heq, -⟩ | ⟨-, hlen, rfl⟩)
      · exact absurd heq hne
      · have hlens : ∀ n ∈ s.params.map (valueOf p), (Nat.toDigits 10 n).length ≤ MAX_STR_DIGITS := by
          intro n hn
          obtain ⟨q, hq, rfl⟩ := List.mem_map.mp hn
          exact hlen q hq
        have hstrs : (s.params.map (valueOf p)).mapM strOf =
            .ok ((s.params.map (valueOf p)).map (Nat.toDigits 10)) := mapM_strOf.mpr ⟨hlens, rfl⟩
        show (List.mapM strOf _ >>= _) = _
        rw [hstrs]
        rfl

theorem printable_iff (h : s.Assigns p) : (∃ name, s.variantName p = .ok name) ↔ s.Printable p := by
  constructor
  · rintro ⟨name, hname⟩
    rcases (variantName_ok h).mp hname with ⟨heq, -⟩ | ⟨-, hlen, -⟩
    · exact Or.inl heq
    · exact Or.inr hlen
  · intro hprint
    by_cases heq : s.params.map (valueOf p) = s.centers
    · exact ⟨_, (variantName_ok h).mpr (Or.inl ⟨heq, rfl⟩)⟩
    · exact ⟨_, (variantName_ok h).mpr (Or.inr ⟨heq, hprint.resolve_left heq, rfl⟩)⟩

/-! ## Reading it back -/

theorem mapM_intOfPart {vals : List ℕ}
    (h : ∀ n ∈ vals, (Nat.toDigits 10 n).length ≤ MAX_STR_DIGITS) :
    (vals.map (Nat.toDigits 10)).mapM intOfPart = .ok vals := by
  induction vals with
  | nil => rfl
  | cons n vals ih =>
    have hint : intOfPart (Nat.toDigits 10 n) = .ok n := by
      unfold intOfPart
      rw [if_pos (List.all_eq_true.mpr isDigit_toDigits), intOf_toDigits (h n List.mem_cons_self)]
      rfl
    rw [List.map_cons, List.mapM_cons, hint, ih fun m hm => h m (List.mem_cons_of_mem _ hm)]
    rfl

/-- The printed values are split where they were joined. -/
theorem splitOn_digits {vals : List ℕ} (h : vals ≠ []) :
    (List.intercalate ['_'] (vals.map (Nat.toDigits 10))).splitOn '_' =
      vals.map (Nat.toDigits 10) := by
  refine List.splitOn_intercalate '_' (fun ds hds hmem => ?_) (by simpa using h)
  obtain ⟨n, -, rfl⟩ := List.mem_map.mp hds
  exact absurd (isDigit_toDigits '_' hmem) (by decide)

theorem join_ne_nil {vals : List ℕ} (h : vals ≠ []) :
    List.intercalate ['_'] (vals.map (Nat.toDigits 10)) ≠ [] := by
  intro hnil
  have hsplit := splitOn_digits h
  rw [hnil, List.splitOn_nil] at hsplit
  have hmem : ([] : Text) ∈ vals.map (Nat.toDigits 10) := hsplit ▸ List.mem_singleton.mpr rfl
  obtain ⟨n, -, hn⟩ := List.mem_map.mp hmem
  exact Nat.toDigits_ne_nil hn

theorem parseValues_written (h : s.Assigns p) {name : Text}
    (hne : s.params.map (valueOf p) ≠ s.centers) (hname : s.variantName p = .ok name) :
    s.parseValues name
        (List.intercalate ['_'] ((s.params.map (valueOf p)).map (Nat.toDigits 10))) =
      .ok (s.assign (s.params.map (valueOf p))) := by
  have hnil : s.params.map (valueOf p) ≠ [] := by
    intro hnil
    unfold centers at hne
    rw [List.map_eq_nil_iff.mp hnil] at hne
    exact hne rfl
  have hlen : ∀ n ∈ s.params.map (valueOf p), (Nat.toDigits 10 n).length ≤ MAX_STR_DIGITS := by
    intro n hn
    obtain ⟨q, hq, rfl⟩ := List.mem_map.mp hn
    rcases (variantName_ok h).mp hname with ⟨heq, -⟩ | ⟨-, hlen, -⟩
    · exact absurd heq hne
    · exact hlen q hq
  have hdigits : ((s.params.map (valueOf p)).map (Nat.toDigits 10)).all isDigits = true := by
    rw [List.all_eq_true]
    intro ds hds
    obtain ⟨n, -, rfl⟩ := List.mem_map.mp hds
    exact isDigits_toDigits n
  have hagain : s.variantName (s.assign (s.params.map (valueOf p))) = .ok name := by
    rw [variantName_congr (same_assign h), hname]
  unfold parseValues
  have hgood : ¬ (((s.params.map (valueOf p)).map (Nat.toDigits 10)).length ≠ s.params.length ∨
      ¬ ((s.params.map (valueOf p)).map (Nat.toDigits 10)).all isDigits = true) := by
    rw [hdigits, List.length_map, List.length_map]
    simp
  simp only [splitOn_digits hnil]
  rw [if_neg hgood, mapM_intOfPart hlen]
  show (s.variantName _ >>= _) = _
  rw [hagain]
  exact if_pos rfl

/-- What is read behind a dot writes the same name. -/
theorem parseValues_ok {name values : Text} (h : s.parseValues name values = .ok p) :
    s.variantName p = .ok name := by
  unfold parseValues at h
  simp only at h
  split at h
  next => cases h
  next =>
    obtain ⟨vals, -, h⟩ := except_bind_ok h
    obtain ⟨again, hagain, h⟩ := except_bind_ok h
    split at h
    next heq =>
      obtain rfl : _ = p := Except.ok.inj h
      rw [hagain, heq]
    next => cases h

theorem assigns_assign {vals : List ℕ} (h : vals.length = s.params.length) :
    s.Assigns (s.assign vals) := by
  intro name
  have hkeys : (s.assign vals).keys = s.params.map Param.name :=
    List.map_fst_zip (by rw [List.length_map, h])
  rw [hkeys]

theorem variantName_center : s.variantName s.center = .ok (NAME_PREFIX ++ s.key) := by
  have hassigns : s.Assigns s.center := assigns_assign (List.length_map _)
  refine (variantName_ok hassigns).mpr (Or.inl ⟨?_, rfl⟩)
  have hentries : s.center.entries = s.params.map fun q => (q.name, q.center) := List.zip_map' ..
  refine List.map_congr_left fun q hq => ?_
  have hmem : (q.name, q.center) ∈ s.center.entries := by
    rw [hentries]
    exact List.mem_map_of_mem hq
  unfold valueOf
  rw [Dict.get?_eq_some.mpr hmem]
  rfl

end CatalogStrategy

namespace Catalog
variable {lib : Catalog}

theorem strategyByKey_ok {key : Text} {s : CatalogStrategy} :
    lib.strategyByKey key = .ok s ↔ s ∈ lib.strategies ∧ s.key = key := by
  unfold strategyByKey
  constructor
  · intro h
    cases hfind : lib.strategies.find? fun s => s.key = key with
    | none => rw [hfind] at h; cases h
    | some found =>
      rw [hfind] at h
      obtain rfl : found = s := Except.ok.inj h
      have hkey := List.find?_some hfind
      exact ⟨List.mem_of_find?_eq_some hfind, of_decide_eq_true hkey⟩
  · rintro ⟨hs, rfl⟩
    cases hfind : lib.strategies.find? fun t => t.key = s.key with
    | none => exact absurd (decide_eq_true rfl) (List.find?_eq_none.mp hfind s hs)
    | some found =>
      have hkey := List.find?_some hfind
      rw [List.inj_on_of_nodup_map lib.keys_nodup (List.mem_of_find?_eq_some hfind) hs
        (of_decide_eq_true hkey)]
      rfl

/-- The key of a name, and what stands behind its dot. -/
theorem parse_body {s : CatalogStrategy} (hs : s ∈ lib.strategies) (rest : Text)
    (hrest : rest = [] ∨ rest.head? = some '.') :
    lib.parseVariant (NAME_PREFIX ++ s.key ++ rest) =
      if rest.drop 1 = [] then .ok (s, s.center)
      else (s.parseValues (NAME_PREFIX ++ s.key ++ rest) (rest.drop 1)).map fun p => (s, p) := by
  have hplain : ∀ c ∈ s.key, (decide (c ≠ '.')) = true := fun c hc =>
    decide_eq_true fun heq => lib.keys_plain s hs (heq ▸ hc)
  have hkey : (s.key ++ rest).takeWhile (· ≠ '.') = s.key ∧
      (s.key ++ rest).dropWhile (· ≠ '.') = rest := by
    rw [List.takeWhile_append_of_pos hplain, List.dropWhile_append_of_pos hplain]
    cases rest with
    | nil => simp
    | cons c rest =>
      obtain rfl : c = '.' := by simpa using hrest
      simp
  have hpre : NAME_PREFIX.isPrefixOf (NAME_PREFIX ++ s.key ++ rest) = true := by
    rw [List.isPrefixOf_iff_prefix, List.append_assoc]
    exact List.prefix_append ..
  have hbody : (NAME_PREFIX ++ s.key ++ rest).drop NAME_PREFIX.length = s.key ++ rest := by
    rw [List.append_assoc, List.drop_left]
  unfold parseVariant
  simp only [hbody, hkey.1, hkey.2]
  rw [if_neg (not_not.mpr hpre), strategyByKey_ok.mpr ⟨hs, rfl⟩]
  show (if rest.drop 1 = [] then _ else _) = _
  split
  next => rfl
  next => cases s.parseValues (NAME_PREFIX ++ s.key ++ rest) (rest.drop 1) <;> rfl

/-- A name that is read is the one that is written, or a key with a bare dot. -/
theorem parseVariant_ok {name : Text} {s : CatalogStrategy} {p : Params}
    (h : lib.parseVariant name = .ok (s, p)) :
    s ∈ lib.strategies ∧
      (s.variantName p = .ok name ∨ name = NAME_PREFIX ++ s.key ++ ['.'] ∧ p = s.center) := by
  have hparse := h
  unfold parseVariant at h
  split at h
  next => cases h
  next hpre =>
    obtain ⟨found, hfound, h⟩ := except_bind_ok h
    obtain ⟨hs, hkey⟩ := strategyByKey_ok.mp hfound
    have hbody : NAME_PREFIX ++ name.drop NAME_PREFIX.length = name :=
      List.prefix_iff_eq_append.mp (List.isPrefixOf_iff_prefix.mp (not_not.mp hpre))
    have hname : NAME_PREFIX ++ found.key ++
        (name.drop NAME_PREFIX.length).dropWhile (· ≠ '.') = name := by
      rw [hkey, List.append_assoc, List.takeWhile_append_dropWhile, hbody]
    simp only at h
    split at h
    next hvalues =>
      cases h
      refine ⟨hs, ?_⟩
      cases hrest : (name.drop NAME_PREFIX.length).dropWhile (· ≠ '.') with
      | nil =>
        rw [hrest, List.append_nil] at hname
        exact Or.inl (hname ▸ CatalogStrategy.variantName_center)
      | cons c rest =>
        have hdot : c = '.' := by
          have hhead := List.head?_dropWhile_not (· ≠ '.') (name.drop NAME_PREFIX.length)
          rw [hrest] at hhead
          simpa using hhead
        rw [hrest] at hvalues hname
        obtain rfl : rest = [] := hvalues
        exact Or.inr ⟨by rw [← hname, hdot], rfl⟩
    next =>
      obtain ⟨q, hq, h⟩ := except_bind_ok h
      cases h
      exact ⟨hs, Or.inl (CatalogStrategy.parseValues_ok hq)⟩

/-- A written name is read back. -/
theorem parseVariant_written {s : CatalogStrategy} (hs : s ∈ lib.strategies) {p : Params}
    (hp : s.Assigns p) {name : Text} (hname : s.variantName p = .ok name) :
    ∃ q, lib.parseVariant name = .ok (s, q) ∧ Same q p := by
  rcases (CatalogStrategy.variantName_ok hp).mp hname with ⟨heq, rfl⟩ | ⟨hne, -, hform⟩
  · refine ⟨s.center, ?_, ?_⟩
    · have hparse := parse_body hs [] (Or.inl rfl)
      rw [List.append_nil] at hparse
      exact hparse
    · have hsame := CatalogStrategy.same_assign hp
      rw [heq] at hsame
      exact hsame
  · refine ⟨_, ?_, CatalogStrategy.same_assign hp⟩
    have hread := CatalogStrategy.parseValues_written hp hne hname
    rw [hform] at hread ⊢
    rw [parse_body hs _ (Or.inr rfl), List.drop_one, List.tail_cons, hread, if_neg ?_]
    · rfl
    · exact CatalogStrategy.join_ne_nil (fun hnil => hne (by
        rw [hnil, CatalogStrategy.centers, List.map_eq_nil_iff.mp hnil, List.map_nil]))

/-- `p` is written as a name that reads back as `s` and the same values. -/
def RoundTrips (lib : Catalog) (s : CatalogStrategy) (p : Params) : Prop :=
  ∃ name q, s.variantName p = .ok name ∧ lib.parseVariant name = .ok (s, q) ∧ Same q p

/-- `name` is read only as the configuration that is written so. -/
def Canonical (lib : Catalog) (name : Text) : Prop := ∀ s p, lib.parseVariant name = .ok (s, p) →
  s ∈ lib.strategies ∧ s.variantName p = .ok name

/-- A configuration comes back exactly when its values are the declared ones or can all be
printed, and a text has no second reading unless it is a key with a bare dot. -/
theorem variant_codec (lib : Catalog) :
    (∀ s ∈ lib.strategies, ∀ p : Params, s.Assigns p → (lib.RoundTrips s p ↔ s.Printable p)) ∧
    ∀ name, lib.Canonical name ↔ ∀ s ∈ lib.strategies, name ≠ NAME_PREFIX ++ s.key ++ ['.'] := by
  constructor
  · intro s hs p hp
    constructor
    · rintro ⟨name, -, hname, -, -⟩
      exact (CatalogStrategy.printable_iff hp).mp ⟨name, hname⟩
    · intro hprint
      obtain ⟨name, hname⟩ := (CatalogStrategy.printable_iff hp).mpr hprint
      obtain ⟨q, hq, hsame⟩ := parseVariant_written hs hp hname
      exact ⟨name, q, hname, hq, hsame⟩
  · intro name
    constructor
    · rintro hcanon s hs rfl
      have hparse := parse_body hs ['.'] (Or.inr rfl)
      have hwritten := (hcanon s s.center hparse).2
      rw [CatalogStrategy.variantName_center] at hwritten
      exact absurd (congrArg List.length (Except.ok.inj hwritten)) (by simp)
    · intro hbare s p hparse
      obtain ⟨hs, hname | ⟨hname, -⟩⟩ := parseVariant_ok hparse
      · exact ⟨hs, hname⟩
      · exact absurd hname (hbare s hs)

end Catalog

/-- `sma200` as declared. -/
def SMA200 : CatalogStrategy where
  key := "sma200".toList
  params := [⟨"short".toList, 1, [2]⟩, ⟨"long".toList, 200, [150, 250]⟩]
  distinct := by decide

/-- A catalog of this strategy alone. -/
def SMA200_ONLY : Catalog where
  strategies := [SMA200]
  keys_nodup := by decide
  keys_plain := by decide

theorem variant_codec_sma200 : SMA200_ONLY.RoundTrips SMA200 (SMA200.assign [2, 150]) ∧
    SMA200_ONLY.Canonical "lib.sma200.2_150".toList := by
  refine ⟨((Catalog.variant_codec SMA200_ONLY).1 SMA200 (List.mem_singleton.mpr rfl) _ ?_).mpr ?_,
    ((Catalog.variant_codec SMA200_ONLY).2 _).mpr ?_⟩
  · exact CatalogStrategy.assigns_assign rfl
  · exact Or.inr (by decide +kernel)
  · decide +kernel

/-- `lib.sma200.` is read although `lib.sma200` is what is written. -/
theorem bare_dot_accepted :
    SMA200_ONLY.parseVariant "lib.sma200.".toList = .ok (SMA200, SMA200.center) ∧
    SMA200.variantName SMA200.center = .ok "lib.sma200".toList ∧
    ¬ SMA200_ONLY.Canonical "lib.sma200.".toList := by
  have hread : SMA200_ONLY.parseVariant "lib.sma200.".toList = .ok (SMA200, SMA200.center) := by
    decide +kernel
  refine ⟨hread, by decide +kernel, fun hcanon => ?_⟩
  exact absurd (hcanon SMA200 SMA200.center hread).2 (by decide +kernel)

end PaperTrading.Library
