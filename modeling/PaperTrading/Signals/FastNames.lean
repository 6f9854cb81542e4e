import PaperTrading.Signals.FastPath

/-!
# Names on the two paths

The fast path tries its patterns in another order than the parser and knows fewer
of them. What a name may open with tells the families of names apart
(`NAME_OPENINGS`), so a name that a pattern of the fast path matches is read by
the same pattern of the parser.

`nameSeries_eq`: the flags of a name are those of the condition the parser reads,
with an RSI over 0 bars off.
-/

namespace PaperTrading.Signals

open Lib Pattern

/-! ## Openings -/

/-- The parser's patterns with the three characters a text they match opens with. -/
def NAME_OPENINGS : List (NameRule × List Text) :=
  [(smaStackRule, [['s', 'm', 'a']]), (emaStackRule, [['e', 'm', 'a']]),
    (smaAboveRule, [['s', 'm', 'a']]), (emaAboveRule, [['e', 'm', 'a']]),
    (rsiFullRule, [['r', 's', 'i']]), (rsiLtRule, [['r', 's', 'i']]),
    (rsiShortRule, [['r', 's', 'i']]), (rsiMomentumRule, [['r', 's', 'i']]),
    (robustOpenRule, [['r', 'o', 'b']]), (momRule, [['m', 'o', 'm']]),
    (dipRule, [['d', 'i', 'p']]), (volRule, [['v', 'o', 'l']]), (mfiRule, [['m', 'f', 'i']]),
    (bbRule, [['b', 'b', '_']]),
    (mtfRule, [['d', 'a', 'i'], ['h', '1', '('], ['m', '5', '('], ['1', 'd', '('], ['4', 'h', '('],
      ['1', '5', 'm']]),
    (donRule, [['d', 'o', 'n']]), (nearSwingRule, [['n', 'e', 'a']]), (dblRule, [['d', 'b', 'l']]),
    (wtCrossUpOsRule, [['w', 't', '_']]), (wtBelowOsRule, [['w', 't', '_']]),
    (wtCrossDownObRule, [['w', 't', '_']]), (htfRule, [['h', '4', '_'], ['h', '1', '_']]),
    (smaRsiRule, [['s', 'm', 'a']]), (smaMomRule, [['s', 'm', 'a']])]

theorem opening_of {α β : Type} {p : Pattern α} {build : α → β} {ws : List String} {os : List Text}
    {t : Text} (hp : StartsWith ws p)
    (hos : (∀ w ∈ ws, 3 ≤ w.toList.length) ∧ (ws.map fun w => w.toList.take 3) = os) :
    ∀ b, rule p build t = some b → t.take 3 ∈ os := fun _ h =>
  hos.2 ▸ rule_opening hp hos.1 h

theorem name_openings (t : Text) : ∀ r ∈ NAME_OPENINGS, ∀ x, r.1 t = some x → t.take 3 ∈ r.2 := by
  simp only [NAME_OPENINGS, List.forall_mem_cons]
  have lit_bind : ∀ {α : Type} (w : String) (f : Unit → Pattern α), StartsWith [w] (lit w >>= f) :=
    fun w f => (lit_startsWith w).bind f
  refine ⟨opening_of (lit_bind "sma_stack" _) (by decide),
    opening_of (lit_bind "ema_stack" _) (by decide),
    opening_of (lit_bind "sma" _) (by decide),
    opening_of (lit_bind "ema" _) (by decide),
    opening_of (lit_bind "rsi_" _) (by decide),
    opening_of (lit_bind "rsi_" _) (by decide),
    opening_of (lit_bind "rsi_" _) (by decide),
    opening_of (lit_startsWith "rsi_momentum") (by decide),
    opening_of (lit_startsWith "robust_open") (by decide),
    opening_of (lit_bind "mom_" _) (by decide),
    opening_of (lit_bind "dip_" _) (by decide),
    opening_of (lit_bind "vol_lowsm_" _) (by decide),
    opening_of (lit_bind "mfi_" _) (by decide),
    opening_of (lit_bind "bb_" _) (by decide),
    opening_of (oneOf_lit_startsWith ["daily", "h1", "m5", "1d", "4h", "15m"] "(" _)
      (by decide),
    opening_of (lit_bind "don_" _) (by decide),
    opening_of (lit_bind "near_swing_" _) (by decide),
    opening_of (lit_bind "dbl_" _) (by decide),
    opening_of (lit_startsWith "wt_cross_up_os") (by decide),
    opening_of (lit_startsWith "wt_below_os") (by decide),
    opening_of (lit_startsWith "wt_cross_down_ob") (by decide),
    opening_of (oneOf_lit_startsWith ["h4", "h1"] "_" _) (by decide),
    opening_of (lit_bind "sma" _) (by decide),
    opening_of (lit_bind "sma" _) (by decide), ?_⟩
  intro r hr
  cases hr

/-- A text is read by the first of the patterns that open like it. -/
theorem parseName_opening {t o : Text} (ho : t.take 3 = o) : parseName t =
    firstRule ((NAME_OPENINGS.filter fun r => o ∈ r.2).map Prod.fst) (.ok .never) t := by
  subst ho
  exact firstRule_openings (name_openings t) (.ok .never)

/-- The pattern that reads `t` is the first of its family that matches. -/
theorem parseName_of_rule {t : Text} {x : Except String Condition} (r : NameRule) (os : List Text)
    (before after : List NameRule) (hmem : (r, os) ∈ NAME_OPENINGS)
    (hfamily : ∀ o ∈ os,
      (NAME_OPENINGS.filter fun r => o ∈ r.2).map Prod.fst = before ++ r :: after)
    (hbefore : ∀ r' ∈ before, r' t = none) (h : r t = some x) : parseName t = x := by
  rw [parseName_opening rfl, hfamily _ (name_openings t _ hmem x h)]
  exact firstRule_append hbefore h

/-! ## RSI over no bars -/

/-- An RSI whose window holds no change. -/
def Condition.emptyRsi : Condition → Bool
  | .atom (.rsiRange period _ _) => period = 0
  | _ => false

/-- The condition as the fast path has it. -/
def Condition.fast (sqrt : ℚ → ℚ) (c : Condition) : Predicate := fun s i =>
  if c.emptyRsi then .ok false else c.eval sqrt s i

/-- What is read is not an RSI over no bars. -/
def NotEmptyRsi (x : Except String Condition) : Prop := ∀ c, x = .ok c → c.emptyRsi = false

theorem NotEmptyRsi.bind {α : Type} {x : Except String α} {f : α → Except String Condition}
    (h : ∀ a, NotEmptyRsi (f a)) : NotEmptyRsi (x >>= f) := by
  intro c hc
  obtain ⟨a, -, ha⟩ := except_bind_ok hc
  exact h a c ha

theorem NotEmptyRsi.pure {c : Condition} (h : c.emptyRsi = false) :
    NotEmptyRsi (Pure.pure c) := by
  intro c' hc
  cases hc
  exact h

theorem NotEmptyRsi.error (e : String) : NotEmptyRsi (.error e) := fun _ h => by cases h

/-- Only the three RSI patterns read an RSI with a period of its own. -/
theorem parseName_notEmptyRsi {t : Text} (hfull : rsiFullRule t = none)
    (hlt : rsiLtRule t = none) (hshort : rsiShortRule t = none) : NotEmptyRsi (parseName t) := by
  refine firstRule_forall ?_ (.pure rfl)
  simp only [NAME_RULES, List.forall_mem_cons]
  refine ⟨rule_forall fun m => .bind fun _ => .pure rfl, rule_forall fun m => .bind fun _ => .pure rfl,
    rule_forall fun m => .bind fun _ => .pure rfl, rule_forall fun m => .bind fun _ => .pure rfl,
    fun x hx => ?_, fun x hx => ?_, fun x hx => ?_,
    rule_forall fun m => .pure rfl, rule_forall fun m => .pure rfl,
    rule_forall fun m => .bind fun _ => .bind fun _ => .pure rfl,
    rule_forall fun m => .bind fun _ => .bind fun _ => .pure rfl,
    rule_forall fun m => .bind fun _ => .bind fun _ => .pure rfl,
    rule_forall fun m => .error _, rule_forall fun m => .bind fun _ => .pure ?_,
    rule_forall fun m => .error _, rule_forall fun m => .bind fun _ => .pure ?_,
    rule_forall fun m => .bind fun _ => .pure ?_, rule_forall fun m => .bind fun _ => .pure ?_,
    rule_forall fun m => .pure rfl, rule_forall fun m => .pure rfl, rule_forall fun m => .pure rfl,
    rule_forall fun m => .bind fun _ => .pure ?_,
    rule_forall fun m => .bind fun _ => .bind fun _ => .pure rfl,
    rule_forall fun m => .bind fun _ => .bind fun _ => .bind fun _ => .pure rfl, ?_⟩
  · cases hfull.symm.trans hx
  · cases hlt.symm.trans hx
  · cases hshort.symm.trans hx
  · split <;> rfl
  · split <;> rfl
  · split <;> rfl
  · split <;> rfl
  · split <;> rfl
  · intro r hr
    cases hr

/-! ## Pattern by pattern -/

/-- The flags of what the parser reads. -/
def conditionSeries (sqrt : ℚ → ℚ) (s : Ohlc) (c : Condition) : Except String (List Bool) :=
  perBar s.closes.length (c.fast sqrt s)

/-- Both fail, or both give the same flags. -/
def SameFlags (sqrt : ℚ → ℚ) (s : Ohlc) (t : Text) (x : Except String (List Bool)) : Prop :=
  x.toOption = (parseName t >>= conditionSeries sqrt s).toOption

section Hits

variable {sqrt : ℚ → ℚ} {s : Ohlc} {t : Text}

/-- A pattern of both paths, whose captures build the same flags. -/
theorem hit_of {α : Type} {p : Pattern α} {fast : α → Except String (List Bool)}
    {name : α → Except String Condition} (hname : ∀ x, rule p name t = some x → parseName t = x)
    (hsame : ∀ m, p.whole t = some m →
      (fast m).toOption = (name m >>= conditionSeries sqrt s).toOption) :
    ∀ x, rule p fast t = some x → SameFlags sqrt s t x := by
  intro x hx
  obtain ⟨m, hm, rfl⟩ := Option.map_eq_some_iff.mp hx
  unfold SameFlags
  rw [hname (name m) (Option.map_eq_some_iff.mpr ⟨m, hm, rfl⟩)]
  exact hsame m hm

/-- The side captured is one of the pattern's. -/
theorem sideName_side {front : String} {sides : List String} {m : String × Text}
    (h : (sideName front sides).whole t = some m) : m.1 ∈ sides := by
  obtain ⟨way, hway, rfl⟩ := Option.map_eq_some_iff.mp h
  have hin := List.mem_of_find?_eq_some hway
  obtain ⟨w1, -, hin⟩ := List.mem_flatMap.mp hin
  obtain ⟨w2, hside, hin⟩ := List.mem_flatMap.mp hin
  obtain ⟨w3, -, hin⟩ := List.mem_flatMap.mp hin
  obtain ⟨w4, -, hin⟩ := List.mem_flatMap.mp hin
  rw [List.mem_singleton.mp hin]
  obtain ⟨w, hw, hside⟩ := List.mem_flatMap.mp hside
  obtain ⟨w5, -, rfl⟩ := List.mem_map.mp hside
  exact hw

theorem nearSwingFast_hit : ∀ x, nearSwingFast s t = some x → SameFlags sqrt s t x := by
  refine hit_of (fun _ => parseName_of_rule nearSwingRule [['n', 'e', 'a']] [] []
    (by simp [NAME_OPENINGS]) (List.forall_mem_singleton.mpr rfl) (by simp)) fun m _ => ?_
  cases intOf m.2 with
  | error e => rfl
  | ok k =>
    have hflags := congrArg Except.toOption (nearSwingSignal_eq s k (m.1 = "hi"))
    by_cases hside : m.1 = "hi"
    · simp only [hside] at hflags ⊢
      exact hflags
    · simp only [hside] at hflags ⊢
      exact hflags

theorem dblFast_hit : ∀ x, dblFast s t = some x → SameFlags sqrt s t x := by
  refine hit_of (fun _ => parseName_of_rule dblRule [['d', 'b', 'l']] [] []
    (by simp [NAME_OPENINGS]) (List.forall_mem_singleton.mpr rfl) (by simp)) fun m hm => ?_
  cases intOf m.2 with
  | error e => rfl
  | ok k =>
    rcases List.mem_pair.mp (sideName_side hm) with hside | hside
    · simp only [hside]
      exact congrArg Except.toOption (dblSignal_eq s k false)
    · simp only [hside]
      exact congrArg Except.toOption (dblSignal_eq s k true)

theorem donFast_hit : ∀ x, donFast s t = some x → SameFlags sqrt s t x := by
  refine hit_of (fun _ => parseName_of_rule donRule [['d', 'o', 'n']] [] []
    (by simp [NAME_OPENINGS]) (List.forall_mem_singleton.mpr rfl) (by simp)) fun m _ => ?_
  cases intOf m.2 with
  | error e => rfl
  | ok n =>
    have hflags := congrArg Except.toOption (donSignal_eq s n (m.1 = "hi"))
    by_cases hside : m.1 = "hi"
    · simp only [hside] at hflags ⊢
      exact hflags
    · simp only [hside] at hflags ⊢
      exact hflags

theorem smaStackFast_hit : ∀ x, smaStackFast s t = some x → SameFlags sqrt s t x := by
  refine hit_of (fun _ => parseName_of_rule smaStackRule [['s', 'm', 'a']] []
    [smaAboveRule, smaRsiRule, smaMomRule] (by simp [NAME_OPENINGS])
    (List.forall_mem_singleton.mpr rfl) (by simp)) fun m _ => ?_
  cases periodsOf m with
  | error e => rfl
  | ok periods =>
    exact congrArg Except.toOption (stackSignalOf_eq smaArray_item s.closes periods)

theorem emaStackFast_hit : ∀ x, emaStackFast s t = some x → SameFlags sqrt s t x := by
  refine hit_of (fun _ => parseName_of_rule emaStackRule [['e', 'm', 'a']] [] [emaAboveRule]
    (by simp [NAME_OPENINGS]) (List.forall_mem_singleton.mpr rfl) (by simp)) fun m _ => ?_
  cases periodsOf m with
  | error e => rfl
  | ok periods =>
    exact congrArg Except.toOption (stackSignalOf_eq emaArray_item s.closes periods)

theorem smaAboveFast_hit (hstack : smaStackRule t = none) :
    ∀ x, smaAboveFast s t = some x → SameFlags sqrt s t x := by
  intro x hx
  unfold smaAboveFast at hx
  split at hx
  · cases hx
  · refine hit_of (fun _ => parseName_of_rule smaAboveRule [['s', 'm', 'a']] [smaStackRule]
      [smaRsiRule, smaMomRule] (by simp [NAME_OPENINGS]) (List.forall_mem_singleton.mpr rfl)
      (List.forall_mem_singleton.mpr hstack)) (fun m _ => ?_) x hx
    cases intOf m with
    | error e => rfl
    | ok period => exact congrArg Except.toOption (compareMa_above smaArray_item s.closes period)

theorem emaAboveFast_hit (hstack : emaStackRule t = none) :
    ∀ x, emaAboveFast s t = some x → SameFlags sqrt s t x := by
  intro x hx
  unfold emaAboveFast at hx
  split at hx
  · cases hx
  · refine hit_of (fun _ => parseName_of_rule emaAboveRule [['e', 'm', 'a']] [emaStackRule] []
      (by simp [NAME_OPENINGS]) (List.forall_mem_singleton.mpr rfl)
      (List.forall_mem_singleton.mpr hstack)) (fun m _ => ?_) x hx
    cases intOf m with
    | error e => rfl
    | ok period => exact congrArg Except.toOption (compareMa_above emaArray_item s.closes period)

theorem momFast_hit : ∀ x, momFast s t = some x → SameFlags sqrt s t x := by
  refine hit_of (fun _ => parseName_of_rule momRule [['m', 'o', 'm']] [] []
    (by simp [NAME_OPENINGS]) (List.forall_mem_singleton.mpr rfl) (by simp)) fun m _ => ?_
  -- The two paths convert the numbers in opposite orders.
  cases intOf m.1 with
  | error e => cases intOf m.2 <;> rfl
  | ok lb =>
    cases intOf m.2 with
    | error e => rfl
    | ok val => exact congrArg Except.toOption (momSignal_eq s.closes lb (momThr val) true)

theorem dipFast_hit : ∀ x, dipFast s t = some x → SameFlags sqrt s t x := by
  refine hit_of (fun _ => parseName_of_rule dipRule [['d', 'i', 'p']] [] []
    (by simp [NAME_OPENINGS]) (List.forall_mem_singleton.mpr rfl) (by simp)) fun m _ => ?_
  cases intOf m.1 with
  | error e => cases intOf m.2 <;> rfl
  | ok lb =>
    cases intOf m.2 with
    | error e => rfl
    | ok val => exact congrArg Except.toOption (momSignal_eq s.closes lb (dipThr val) false)

theorem htfFast_hit : ∀ x, htfFast s t = some x → SameFlags sqrt s t x := by
  refine hit_of (fun _ => parseName_of_rule htfRule [['h', '4', '_'], ['h', '1', '_']] [] []
    (by simp [NAME_OPENINGS]) (List.forall_mem_cons.mpr ⟨rfl, List.forall_mem_singleton.mpr rfl⟩)
    (by simp)) fun m _ => ?_
  cases intOf m.2.2 with
  | error e => rfl
  | ok period =>
    by_cases hkind : m.2.1 = "sma"
    · simp only [hkind]
      exact congrArg Except.toOption
        (htfSignalOf_eq smaArray_item s.closes (timeframeOf m.1).bars period)
    · simp only [hkind]
      exact congrArg Except.toOption
        (htfSignalOf_eq emaArray_item s.closes (timeframeOf m.1).bars period)

/-- The one pattern whose flags are not the condition's: over no bars the flags
are off and the condition raises. -/
theorem rsiSignal_fast (sqrt : ℚ → ℚ) (s : Ohlc) (period : ℕ) (minVal maxVal : ℚ) :
    rsiSignal s.closes period minVal maxVal =
      conditionSeries sqrt s (.atom (.rsiRange period minVal maxVal)) := by
  by_cases hp : period = 0
  · subst hp
    rfl
  · have hpos : (0 : ℤ) < period := by omega
    have hne : ((period : ℤ) = 0) = False := by simpa using hp
    rw [rsiSignal_eq s.closes minVal maxVal hpos]
    refine perBar_congr fun i _ => ?_
    unfold Condition.fast Condition.emptyRsi
    simp only [hne, decide_false, Bool.false_eq_true, if_false]
    rfl

theorem rsiFullFast_hit : ∀ x, rsiFullFast s t = some x → SameFlags sqrt s t x := by
  refine hit_of (fun _ => parseName_of_rule rsiFullRule [['r', 's', 'i']] []
    [rsiLtRule, rsiShortRule, rsiMomentumRule] (by simp [NAME_OPENINGS])
    (List.forall_mem_singleton.mpr rfl) (by simp)) fun m _ => ?_
  cases intOf m.1 with
  | error e => cases overOf m.2.2 <;> rfl
  | ok p =>
    cases intOf m.2.1 with
    | error e => cases overOf m.2.2 <;> rfl
    | ok th =>
      cases overOf m.2.2 with
      | error e => rfl
      | ok ov => exact congrArg Except.toOption (rsiSignal_fast sqrt s p th ov)

theorem rsiLtFast_hit (hfull : rsiFullRule t = none) :
    ∀ x, rsiLtFast s t = some x → SameFlags sqrt s t x := by
  refine hit_of (fun _ => parseName_of_rule rsiLtRule [['r', 's', 'i']] [rsiFullRule]
    [rsiShortRule, rsiMomentumRule] (by simp [NAME_OPENINGS])
    (List.forall_mem_singleton.mpr rfl) (List.forall_mem_singleton.mpr hfull)) fun m _ => ?_
  cases intOf m.1 with
  | error e => rfl
  | ok p =>
    cases intOf m.2 with
    | error e => rfl
    | ok th => exact congrArg Except.toOption (rsiSignal_fast sqrt s p (-1) th)

theorem rsiShortFast_hit (hfull : rsiFullRule t = none) (hlt : rsiLtRule t = none) :
    ∀ x, rsiShortFast s t = some x → SameFlags sqrt s t x := by
  refine hit_of (fun _ => parseName_of_rule rsiShortRule [['r', 's', 'i']]
    [rsiFullRule, rsiLtRule] [rsiMomentumRule] (by simp [NAME_OPENINGS])
    (List.forall_mem_singleton.mpr rfl)
    (List.forall_mem_cons.mpr ⟨hfull, List.forall_mem_singleton.mpr hlt⟩)) fun m _ => ?_
  cases intOf m.1 with
  | error e => rfl
  | ok p =>
    cases intOf m.2 with
    | error e => rfl
    | ok th => exact congrArg Except.toOption (rsiSignal_fast sqrt s p th 100)

end Hits

/-- Where no pattern of the fast path matches, the parser's condition is asked at
every bar. -/
theorem textFallback_eq (sqrt : ℚ → ℚ) (s : Ohlc) {t : Text} (hname : splitTop (strip t) = none)
    (hstrip : strip t = t) (h : NotEmptyRsi (parseName t)) : SameFlags sqrt s t (textFallback sqrt s t) := by
  unfold SameFlags textFallback
  rw [parseStrategy_name hname, hstrip]
  cases hc : parseName t with
  | error e => rfl
  | ok c =>
    have hfast : c.fast sqrt s = c.eval sqrt s := by
      funext i
      exact if_neg (by simp [h c hc])
    change (perBar s.closes.length (c.eval sqrt s)).toOption =
      (perBar s.closes.length (c.fast sqrt s)).toOption
    rw [hfast]

/-- The flags of a name are those of the condition the parser reads. -/
theorem nameSeries_eq (sqrt : ℚ → ℚ) (s : Ohlc) {t : Text} (hname : splitTop (strip t) = none)
    (hstrip : strip t = t) : SameFlags sqrt s t (nameSeries sqrt s t) := by
  have missed {α β γ : Type} {p : Pattern α} {f : α → β} {g : α → γ} (h : rule p f t = none) :
      rule p g t = none := Option.map_eq_none_iff.mpr (Option.map_eq_none_iff.mp h)
  refine firstRule_cases nearSwingFast_hit fun _ => firstRule_cases dblFast_hit fun _ =>
    firstRule_cases donFast_hit fun _ => firstRule_cases smaStackFast_hit fun hsma =>
    firstRule_cases emaStackFast_hit fun hema =>
    firstRule_cases (smaAboveFast_hit (missed hsma)) fun _ =>
    firstRule_cases (emaAboveFast_hit (missed hema)) fun _ => firstRule_cases momFast_hit fun _ =>
    firstRule_cases dipFast_hit fun _ => firstRule_cases htfFast_hit fun _ =>
    firstRule_cases rsiFullFast_hit fun hfull =>
    firstRule_cases (rsiLtFast_hit (missed hfull)) fun hlt =>
    firstRule_cases (rsiShortFast_hit (missed hfull) (missed hlt)) fun hshort => ?_
  exact textFallback_eq sqrt s hname hstrip
    (parseName_notEmptyRsi (missed hfull) (missed hlt) (missed hshort))

end PaperTrading.Signals
