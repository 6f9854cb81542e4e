import Mathlib.Data.List.Basic
import Mathlib.Data.List.DropRight

/-!
# Texts

The string operations of a language whose strings are lists of code points:
stripping both ends, splitting at a separator, and decimal digits of any script.
`mem_splitOn` and `strip_subset` say what is left in a part.
-/

namespace PaperTrading.Lib

abbrev Text := List Char

instance Text.lawfulBEq : LawfulBEq Text := List.instLawfulBEq

/-- `str.isspace` of one character. -/
def isSpace (c : Char) : Bool :=
  let n := c.toNat
  (9 ≤ n && n ≤ 13) || (28 ≤ n && n ≤ 32) || n = 0x85 || n = 0xA0 || n = 0x1680 ||
    (0x2000 ≤ n && n ≤ 0x200A) || n = 0x2028 || n = 0x2029 || n = 0x202F || n = 0x205F || n = 0x3000

/-- Strips the characters of a class off both ends. -/
def stripOf (drop : Char → Bool) (t : Text) : Text := (t.dropWhile drop).rdropWhile drop

/-- `t.strip()`. -/
def strip (t : Text) : Text := stripOf isSpace t

/-- The zeros of the scripts that have decimal digits; each is followed by its nine
other digits. -/
def DECIMAL_ZEROS : List ℕ :=
  [0x30, 0x660, 0x6F0, 0x7C0, 0x966, 0x9E6, 0xA66, 0xAE6, 0xB66, 0xBE6, 0xC66, 0xCE6, 0xD66, 0xDE6,
    0xE50, 0xED0, 0xF20, 0x1040, 0x1090, 0x17E0, 0x1810, 0x1946, 0x19D0, 0x1A80, 0x1A90, 0x1B50,
    0x1BB0, 0x1C40, 0x1C50, 0xA620, 0xA8D0, 0xA900, 0xA9D0, 0xA9F0, 0xAA50, 0xABF0, 0xFF10, 0x104A0,
    0x10D30, 0x11066, 0x110F0, 0x11136, 0x111D0, 0x112F0, 0x11450, 0x114D0, 0x11650, 0x116C0, 0x11730,
    0x118E0, 0x11950, 0x11C50, 0x11D50, 0x11DA0, 0x11F50, 0x16A60, 0x16AC0, 0x16B50, 0x1D7CE, 0x1D7D8,
    0x1D7E2, 0x1D7EC, 0x1D7F6, 0x1E140, 0x1E2F0, 0x1E4F0, 0x1E950, 0x1FBF0]

/-- The digits `c` is counted in from. -/
def zeroOf (c : Char) : Option ℕ := DECIMAL_ZEROS.find? fun z => z ≤ c.toNat && c.toNat < z + 10

/-- `\d`. -/
def isDigit (c : Char) : Bool := (zeroOf c).isSome

def digitValue (c : Char) : ℕ := c.toNat - (zeroOf c).getD c.toNat

def MAX_STR_DIGITS : ℕ := 4300

/-- `int(ds)` of a text of digits. -/
def intOf (ds : Text) : Except String ℕ :=
  if ds = [] then .error "invalid literal for int() with base 10: ''"
  else if MAX_STR_DIGITS < ds.length then
    .error ("Exceeds the limit (4300 digits) for integer string conversion: value has " ++
      toString ds.length ++ " digits; use sys.set_int_max_str_digits() to increase the limit")
  else .ok (ds.foldl (fun n c => 10 * n + digitValue c) 0)

/-- Ranges of the digits that are no decimal digits, such as superscripts. -/
def OTHER_DIGITS : List (ℕ × ℕ) :=
  [(0xB2, 0xB3), (0xB9, 0xB9), (0x1369, 0x1371), (0x19DA, 0x19DA), (0x2070, 0x2070), (0x2074, 0x2079),
    (0x2080, 0x2089), (0x2460, 0x2468), (0x2474, 0x247C), (0x2488, 0x2490), (0x24EA, 0x24EA),
    (0x24F5, 0x24FD), (0x24FF, 0x24FF), (0x2776, 0x277E), (0x2780, 0x2788), (0x278A, 0x2792),
    (0x10A40, 0x10A43), (0x10E60, 0x10E68), (0x11052, 0x1105A), (0x1F100, 0x1F10A)]

/-- `t.isdigit()`. -/
def isDigits (t : Text) : Bool :=
  t ≠ [] && t.all fun c => isDigit c || OTHER_DIGITS.any fun r => r.1 ≤ c.toNat && c.toNat ≤ r.2

/-! ## Decimal numbers -/

theorem isDigit_of_ascii {c : Char} (h : c.isDigit = true) :
    isDigit c = true ∧ digitValue c = c.toNat - 48 := by
  have hc : zeroOf c = some 0x30 := by
    have hrange : 48 ≤ c.toNat ∧ c.toNat ≤ 57 := Char.isDigit_iff_toNat.mp h
    unfold zeroOf DECIMAL_ZEROS
    rw [List.find?_cons_of_pos]
    simp only [Bool.and_eq_true, decide_eq_true_eq]
    omega
  unfold isDigit digitValue
  rw [hc]
  exact ⟨rfl, rfl⟩

/-- The digits `str(n)` prints come to `n`. -/
theorem foldl_toDigits (n : ℕ) :
    (Nat.toDigits 10 n).foldl (fun n c => 10 * n + digitValue c) 0 = n := by
  have hfold : ∀ (ds : Text) (start : ℕ), (∀ c ∈ ds, c.isDigit = true) →
      ds.foldl (fun n c => 10 * n + digitValue c) start = Nat.ofDigitChars 10 ds start := by
    intro ds
    induction ds with
    | nil => intros; rfl
    | cons c ds ih =>
      intro start hds
      rw [List.foldl_cons, ih _ fun d hd => hds d (List.mem_cons_of_mem _ hd),
        (isDigit_of_ascii (hds c List.mem_cons_self)).2]
      rfl
  rw [hfold _ _ fun c hc => Nat.isDigit_of_mem_toDigits (by decide) (by decide) hc,
    Nat.ofDigitChars_ten_toDigits]

/-- The digits `str(n)` prints are digits, and `int` reads them back. -/
theorem intOf_toDigits {n : ℕ} (h : (Nat.toDigits 10 n).length ≤ MAX_STR_DIGITS) :
    intOf (Nat.toDigits 10 n) = .ok n := by
  unfold intOf
  rw [if_neg Nat.toDigits_ne_nil, if_neg (Nat.not_lt.mpr h), foldl_toDigits]

theorem isDigit_toDigits {n : ℕ} : ∀ c ∈ Nat.toDigits 10 n, isDigit c = true := fun _ hc =>
  (isDigit_of_ascii (Nat.isDigit_of_mem_toDigits (by decide) (by decide) hc)).1

theorem isDigits_toDigits (n : ℕ) : isDigits (Nat.toDigits 10 n) = true := by
  unfold isDigits
  rw [Bool.and_eq_true, decide_eq_true_eq, List.all_eq_true]
  refine ⟨Nat.toDigits_ne_nil, fun c hc => ?_⟩
  rw [isDigit_toDigits c hc, Bool.true_or]

/-! ## What is left -/

theorem stripOf_subset (drop : Char → Bool) (t : Text) : stripOf drop t ⊆ t :=
  fun _ h => List.dropWhile_subset _ ((List.rdropWhile_prefix drop _).subset h)

theorem strip_subset (t : Text) : strip t ⊆ t := stripOf_subset isSpace t

theorem stripOf_stripOf (drop : Char → Bool) (t : Text) :
    stripOf drop (stripOf drop t) = stripOf drop t := by
  have hfront : (stripOf drop t).dropWhile drop = stripOf drop t := by
    rw [List.dropWhile_eq_self_iff]
    intro hlen
    have hpre : stripOf drop t <+: t.dropWhile drop := List.rdropWhile_prefix drop _
    have hlen' : 0 < (t.dropWhile drop).length := hlen.trans_le hpre.length_le
    rw [hpre.getElem hlen]
    exact List.dropWhile_get_zero_not drop t hlen'
  unfold stripOf at hfront ⊢
  rw [hfront, List.rdropWhile_idempotent]

@[simp] theorem strip_strip (t : Text) : strip (strip t) = strip t := stripOf_stripOf isSpace t

/-- A part of a split holds characters of the text, and never the separator. -/
theorem mem_splitOn {sep : Char} {t part : Text} (h : part ∈ t.splitOn sep) {c : Char}
    (hc : c ∈ part) : c ∈ t ∧ c ≠ sep := by
  unfold List.splitOn at h
  induction t generalizing part c with
  | nil =>
    rw [List.splitOnP_nil, List.mem_singleton] at h
    rw [h] at hc
    cases hc
  | cons x t ih =>
    rw [List.splitOnP_cons_eq_if_modifyHead] at h
    split at h
    next _ =>
      rcases List.mem_cons.mp h with rfl | h
      · cases hc
      · exact ⟨List.mem_cons_of_mem _ (ih h hc).1, (ih h hc).2⟩
    next hx =>
      cases hsplit : t.splitOnP (· == sep) with
      | nil => exact absurd hsplit (List.splitOnP_ne_nil _ t)
      | cons first rest =>
        rw [hsplit] at h ih
        rcases List.mem_cons.mp h with rfl | h
        · rcases List.mem_cons.mp hc with rfl | hc
          · exact ⟨List.mem_cons_self, by simpa using hx⟩
          · have hin := ih List.mem_cons_self hc
            exact ⟨List.mem_cons_of_mem _ hin.1, hin.2⟩
        · have hin := ih (List.mem_cons_of_mem _ h) hc
          exact ⟨List.mem_cons_of_mem _ hin.1, hin.2⟩

end PaperTrading.Lib

/-!
## Splits of a text put together

Two texts behind each other split into the pieces of both, the last piece of the first
and the first piece of the second run together (`splitOn_append`). With characters at the
seam that every piece is stripped of, it does not matter on which side they stand, and they
may be left out at the ends.
-/

namespace PaperTrading.Lib

section
variable {α β : Type*}

/-- One list of pieces behind another: the two pieces at the seam are one. -/
def glue (us vs : List (List α)) : List (List α) :=
  us.dropLast ++ vs.modifyHead (us.getLast?.getD [] ++ ·)

theorem glue_concat (us : List (List α)) (u v : List α) (vs : List (List α)) :
    glue (us ++ [u]) (v :: vs) = us ++ (u ++ v) :: vs := by
  unfold glue
  rw [List.dropLast_concat, List.getLast?_concat, Option.getD_some, List.modifyHead_cons]

theorem glue_ne_nil {us vs : List (List α)} (hvs : vs ≠ []) : glue us vs ≠ [] := by
  unfold glue
  rw [Ne, List.append_eq_nil_iff, List.modifyHead_eq_nil_iff]
  exact fun h => hvs h.2

theorem length_glue {us vs : List (List α)} (hus : us ≠ []) (hvs : vs ≠ []) :
    (glue us vs).length + 1 = us.length + vs.length := by
  obtain ⟨us, u, rfl⟩ := (List.eq_nil_or_concat us).resolve_left hus
  obtain ⟨v, vs, rfl⟩ := List.exists_cons_of_ne_nil hvs
  rw [List.concat_eq_append, glue_concat]
  simp
  omega

theorem flatten_glue {us vs : List (List α)} (hus : us ≠ []) (hvs : vs ≠ []) :
    (glue us vs).flatten = us.flatten ++ vs.flatten := by
  obtain ⟨us, u, rfl⟩ := (List.eq_nil_or_concat us).resolve_left hus
  obtain ⟨v, vs, rfl⟩ := List.exists_cons_of_ne_nil hvs
  rw [List.concat_eq_append, glue_concat]
  simp

theorem map_glue (g : α → β) {us vs : List (List α)} (hus : us ≠ []) (hvs : vs ≠ []) :
    (glue us vs).map (List.map g) = glue (us.map (List.map g)) (vs.map (List.map g)) := by
  obtain ⟨us, u, rfl⟩ := (List.eq_nil_or_concat us).resolve_left hus
  obtain ⟨v, vs, rfl⟩ := List.exists_cons_of_ne_nil hvs
  rw [List.concat_eq_append, glue_concat, List.map_append, List.map_append, List.map_cons,
    List.map_singleton, List.map_cons, List.map_append, glue_concat]

theorem splitOn_append [BEq α] (sep : α) (x y : List α) :
    (x ++ y).splitOn sep = glue (x.splitOn sep) (y.splitOn sep) := by
  obtain ⟨v, vs, hy⟩ := List.exists_cons_of_ne_nil (List.splitOn_ne_nil sep y)
  induction x with
  | nil =>
    rw [List.nil_append, List.splitOn_nil, hy]
    exact (glue_concat [] [] v vs).symm
  | cons c x ih =>
    obtain ⟨us, u, hx⟩ := (List.eq_nil_or_concat (x.splitOn sep)).resolve_left
      (List.splitOn_ne_nil sep x)
    rw [List.concat_eq_append] at hx
    rw [hx, hy, glue_concat] at ih
    rw [List.cons_append, List.splitOn_cons_eq_if_modifyHead, List.splitOn_cons_eq_if_modifyHead, ih,
      hx, hy]
    split
    · exact (glue_concat ([] :: us) u v vs).symm
    · cases us with
      | nil => exact (glue_concat [] (c :: u) v vs).symm
      | cons u' us => exact (glue_concat ((c :: u') :: us) u v vs).symm

section
variable {f : List α → β}

/-- What a reading of the pieces does not see in front. -/
theorem map_glue_left {front : List α} (hf : ∀ u, f (front ++ u) = f u) {vs : List (List α)}
    (hvs : vs ≠ []) : (glue [front] vs).map f = vs.map f := by
  obtain ⟨v, vs, rfl⟩ := List.exists_cons_of_ne_nil hvs
  have hglue : glue [front] (v :: vs) = (front ++ v) :: vs := glue_concat [] front v vs
  rw [hglue, List.map_cons, List.map_cons, hf]

/-- What a reading of the pieces does not see behind. -/
theorem map_glue_right {back : List α} (hf : ∀ u, f (u ++ back) = f u) {us : List (List α)}
    (hus : us ≠ []) : (glue us [back]).map f = us.map f := by
  obtain ⟨us, u, rfl⟩ := (List.eq_nil_or_concat us).resolve_left hus
  rw [List.concat_eq_append, glue_concat, List.map_append, List.map_append, List.map_cons, hf]
  rfl

end

/-- A reading of the pieces that splits them at the seam. -/
theorem map_glue_seam {f : List α → List (List β)} {seam : List α}
    (hf : ∀ u v, f (u ++ (seam ++ v)) = f u ++ f v) {us vs : List (List α)} (hus : us ≠ [])
    (hvs : vs ≠ []) :
    (glue us (glue [seam] vs)).map f = glue (us.map f) (vs.map f) := by
  obtain ⟨us, u, rfl⟩ := (List.eq_nil_or_concat us).resolve_left hus
  obtain ⟨v, vs, rfl⟩ := List.exists_cons_of_ne_nil hvs
  have hglue : glue [seam] (v :: vs) = (seam ++ v) :: vs := glue_concat [] seam v vs
  rw [List.concat_eq_append, hglue, glue_concat, List.map_append, List.map_append, List.map_cons,
    List.map_singleton, List.map_cons, hf, glue_concat]

end

/-! ### Stripped pieces -/

section
variable {drop : Char → Bool}

theorem stripOf_append_left {front : Text} (h : ∀ c ∈ front, drop c = true) (u : Text) :
    stripOf drop (front ++ u) = stripOf drop u := by
  unfold stripOf
  rw [List.dropWhile_append_of_pos h]

theorem stripOf_append_right {back : Text} (h : ∀ c ∈ back, drop c = true) (u : Text) :
    stripOf drop (u ++ back) = stripOf drop u := by
  unfold stripOf
  induction back using List.reverseRecOn with
  | nil => rw [List.append_nil]
  | append_singleton back c ih =>
    have hc : drop c = true := h c (by simp)
    have ih := ih fun d hd => h d (List.mem_append_left _ hd)
    rw [← ih, ← List.append_assoc, @List.dropWhile_append _ _ (u ++ back)]
    split
    next hnil =>
      rw [List.isEmpty_iff.mp hnil, List.dropWhile_cons_of_pos hc]
      rfl
    next => rw [List.rdropWhile_concat_pos _ _ _ hc]

/-- A text and what is stripped off it. -/
theorem exists_stripOf (drop : Char → Bool) (t : Text) :
    ∃ front back, t = front ++ stripOf drop t ++ back ∧ (∀ c ∈ front, drop c = true) ∧
      ∀ c ∈ back, drop c = true := by
  refine ⟨t.takeWhile drop, (t.dropWhile drop).rtakeWhile drop, ?_, fun c hc => ?_, fun c hc => ?_⟩
  · unfold stripOf
    rw [List.append_assoc, List.rdropWhile_append_rtakeWhile, List.takeWhile_append_dropWhile]
  · exact List.mem_takeWhile_imp hc
  · exact List.mem_rtakeWhile_imp hc

/-- Nothing is stripped off a text with no such characters at its ends. -/
theorem stripOf_eq_self {t : Text} (hfront : ∀ c, t.head? = some c → drop c = false)
    (hback : ∀ c, t.getLast? = some c → drop c = false) : stripOf drop t = t := by
  unfold stripOf
  cases t with
  | nil => rfl
  | cons c t =>
    rw [List.dropWhile_cons_of_neg (by rw [hfront c rfl]; exact Bool.false_ne_true),
      List.rdropWhile_eq_self_iff]
    intro hne
    rw [hback _ (List.getLast?_eq_some_getLast hne)]
    exact Bool.false_ne_true

theorem head_of_stripOf {t : Text} (h : stripOf drop t = t) {c : Char} (hc : t.head? = some c) :
    drop c = false := by
  obtain ⟨u, rfl⟩ : ∃ u, t = c :: u := by
    cases t with
    | nil => cases hc
    | cons d u => exact ⟨u, by rw [Option.some.inj hc]⟩
  by_contra hdrop
  have hlen := congrArg List.length h
  have hle : (stripOf drop (c :: u)).length ≤ u.length := by
    unfold stripOf
    rw [List.dropWhile_cons_of_pos (by simpa using hdrop)]
    exact (List.rdropWhile_prefix drop _).length_le.trans (List.dropWhile_suffix drop).length_le
  rw [hlen, List.length_cons] at hle
  exact absurd hle (Nat.not_succ_le_self _)

theorem last_of_stripOf {t : Text} (h : stripOf drop t = t) {c : Char} (hc : t.getLast? = some c) :
    drop c = false := by
  by_contra hdrop
  obtain ⟨u, rfl⟩ : ∃ u, t = u ++ [c] := by
    rcases List.eq_nil_or_concat t with rfl | ⟨u, d, rfl⟩
    · cases hc
    · rw [List.concat_eq_append, List.getLast?_concat] at hc
      exact ⟨u, by rw [List.concat_eq_append, Option.some.inj hc]⟩
  have hlen := congrArg List.length h
  rw [stripOf_append_right (by simpa using hdrop)] at hlen
  have hle : (stripOf drop u).length ≤ u.length :=
    (List.rdropWhile_prefix drop _).length_le.trans (List.dropWhile_suffix drop).length_le
  simp at hlen
  omega

end

end PaperTrading.Lib
