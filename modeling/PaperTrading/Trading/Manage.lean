import PaperTrading.Trading.Loop

/-!
# What one exit pass closes

`manageOpenPositions` means to close the lots whose own stop or target the
price has crossed. Each close goes through a sell by ticker, so which lot
leaves depends on the lots in front of it, and the equity after each close
raises when a lot left open has the price `None`.

The pass on the list of lots alone is `manageBook`. `manage_closes_crossed_iff`
says exactly when the pass closes the crossed lots and no other: no crossed lot
stands behind an uncrossed lot of its ticker (`CrossedFirst`), and with two or
more crossed lots no open lot is priced `None`.

Two rules carry facts about the whole loop through a pass. `manageLot_cases`
lists what one turn can do in any book. `manage_rule` is for a pass that goes
right: every turn then either leaves the loop alone or closes exactly the lot
it looks at.
-/

namespace PaperTrading.Trading

open Broker Risk Calibration PaperTrading.Lib

/-- The price has crossed the lot's stop or target. -/
def crossed (px : PriceMap) (lot : OpenPosition) : Bool := (crossing px lot).isSome

/-- The lot's ticker is in the price dict with the value `None`. -/
def Unpriced (px : PriceMap) (lot : OpenPosition) : Prop := px lot.ticker = some none

instance (px : PriceMap) (lot : OpenPosition) : Decidable (Unpriced px lot) :=
  inferInstanceAs (Decidable (px lot.ticker = some none))

/-- No crossed lot stands behind an uncrossed lot of its ticker. -/
def CrossedFirst (px : PriceMap) (lots : List OpenPosition) : Prop :=
  lots.Pairwise fun a b => a.ticker = b.ticker → crossed px b → crossed px a

instance (px : PriceMap) (lots : List OpenPosition) : Decidable (CrossedFirst px lots) :=
  inferInstanceAs (Decidable (lots.Pairwise _))

/-- The crossed lots, in the order the pass visits them. -/
def crossedLots (px : PriceMap) (lots : List OpenPosition) : List OpenPosition :=
  lots.filter (crossed px)

/-- The lots the pass is meant to leave. -/
def uncrossedLots (px : PriceMap) (lots : List OpenPosition) : List OpenPosition :=
  lots.filter fun lot => !crossed px lot

/-- A crossing is at the ticker's price. -/
theorem crossing_get {px : PriceMap} {lot : OpenPosition} {cur : ℚ} {why : ExitReason}
    (h : crossing px lot = some (cur, why)) : px.get lot.ticker = some cur := by
  unfold crossing at h
  cases hg : px.get lot.ticker with
  | none => rw [hg] at h; cases h
  | some v =>
    rw [hg] at h
    dsimp only at h
    split at h
    · cases h; rfl
    split at h
    · cases h; rfl
    · cases h

theorem crossed_priced {px : PriceMap} {lot : OpenPosition} (h : crossed px lot = true) :
    ¬ Unpriced px lot := by
  intro hu
  obtain ⟨⟨cur, why⟩, hc⟩ := Option.isSome_iff_exists.mp h
  have hget := crossing_get hc
  unfold PriceMap.get at hget
  rw [show px lot.ticker = some none from hu] at hget
  cases hget

theorem markValue_ok_iff {px : PriceMap} {lot : OpenPosition} :
    (∃ v, PaperBroker.markValue px lot = .ok v) ↔ ¬ Unpriced px lot := by
  unfold PaperBroker.markValue Unpriced
  rcases px lot.ticker with _ | _ | v <;> simp

/-- The equity of a book raises exactly when one of its lots is unpriced. -/
theorem positionValue_ok_iff {px : PriceMap} {lots : List OpenPosition} :
    (∃ v, PaperBroker.positionValue px lots = .ok v) ↔ ∀ lot ∈ lots, ¬ Unpriced px lot := by
  induction lots with
  | nil => simp [PaperBroker.positionValue]
  | cons p ps ih =>
    rw [List.forall_mem_cons, ← ih, ← markValue_ok_iff]
    conv_lhs => unfold PaperBroker.positionValue
    cases PaperBroker.markValue px p with
    | error e => simp
    | ok v =>
      simp only
      cases PaperBroker.positionValue px ps <;> simp

theorem equity_ok_iff {px : PriceMap} {b : PaperBroker} :
    (∃ v, b.equity px = .ok v) ↔ ∀ lot ∈ b.lots, ¬ Unpriced px lot := by
  rw [← positionValue_ok_iff]
  unfold PaperBroker.equity
  cases PaperBroker.positionValue px b.lots <;> simp

/-! ## The pass on the book -/

/-- One turn of the pass on the list of lots. -/
def manageBook (px : PriceMap) (lots : List OpenPosition) (lot : OpenPosition) :
    Ran PyError (List OpenPosition) :=
  if crossed px lot then
    match sellBook lots lot with
    | .error e => .raise e lots
    | .ok lots' =>
      match PaperBroker.positionValue px lots' with
      | .error e => .raise e lots'
      | .ok _ => .ok lots'
  else .ok lots

/-- One turn seen on the lots alone. -/
theorem manageLot_book (px : PriceMap) (loop : TradingLoop) (lot : OpenPosition) :
    (loop.manageLot px lot).map (·.broker.lots) = manageBook px loop.broker.lots lot := by
  unfold TradingLoop.manageLot manageBook crossed
  cases crossing px lot with
  | none => rfl
  | some c =>
    obtain ⟨cur, why⟩ := c
    simp only [Option.isSome_some, if_true, PaperBroker.closeLot_eq]
    cases hs : sellBook loop.broker.lots lot with
    | error e => rfl
    | ok lots' =>
      simp only [Except.map]
      unfold PaperBroker.equity
      simp only [TradingLoop.settle, PaperBroker.closedTo_lots]
      cases PaperBroker.positionValue px lots' <;> rfl

/-- The pass seen on the lots alone. -/
theorem manageOpenPositions_book (loop : TradingLoop) (px : PriceMap) :
    (loop.manageOpenPositions px).state.broker.lots =
      (Ran.loop (manageBook px) loop.broker.lots loop.broker.lots).state := by
  have h := Ran.loop_proj (fun l : TradingLoop => l.broker.lots) (manageLot_book px)
    loop.broker.lots loop
  exact congrArg Ran.state h

theorem manageBook_uncrossed {px : PriceMap} {lots : List OpenPosition} {lot : OpenPosition}
    (h : crossed px lot = false) : manageBook px lots lot = .ok lots := by
  unfold manageBook
  rw [h]
  rfl

/-- A turn on a crossed lot that is the first of its ticker closes it; the
turn then raises if a lot that is left is unpriced. -/
theorem manageBook_first {px : PriceMap} {kept rest : List OpenPosition} {lot : OpenPosition}
    (h : crossed px lot = true) (hkept : ∀ p ∈ kept, p.ticker ≠ lot.ticker) :
    (manageBook px (kept ++ lot :: rest) lot).state = kept ++ rest ∧
    ((manageBook px (kept ++ lot :: rest) lot).Returns ↔
      ∀ p ∈ kept ++ rest, ¬ Unpriced px p) := by
  have hsell : sellBook (kept ++ lot :: rest) lot = .ok (kept ++ rest) := by
    rw [sellBook_first (firstOf_append hkept)]
    rw [List.erase_append_right _ fun hm => hkept lot hm rfl, List.erase_cons_head]
  unfold manageBook
  simp only [h, if_true, hsell]
  rw [← positionValue_ok_iff]
  cases PaperBroker.positionValue px (kept ++ rest) <;> simp

/-- A turn on a crossed lot: the sell is refused, or it leaves the lots
`lots'` and the equity after it may raise. -/
theorem manageBook_crossed {px : PriceMap} {lot : OpenPosition} (lots : List OpenPosition)
    (h : crossed px lot = true) :
    (∃ e, manageBook px lots lot = .raise e lots) ∨
    ∃ lots', sellBook lots lot = .ok lots' ∧
      ((∃ e, manageBook px lots lot = .raise e lots') ∨ manageBook px lots lot = .ok lots') := by
  unfold manageBook
  simp only [h, if_true]
  cases hs : sellBook lots lot with
  | error e => exact Or.inl ⟨e, rfl⟩
  | ok lots' =>
    refine Or.inr ⟨lots', rfl, ?_⟩
    simp only
    cases PaperBroker.positionValue px lots' with
    | error e => exact Or.inl ⟨e, rfl⟩
    | ok v => exact Or.inr rfl

theorem crossedLots_cons_true {px : PriceMap} {lot : OpenPosition} (rest : List OpenPosition)
    (h : crossed px lot = true) :
    crossedLots px (lot :: rest) = lot :: crossedLots px rest :=
  List.filter_cons_of_pos h

theorem crossedLots_cons_false {px : PriceMap} {lot : OpenPosition} (rest : List OpenPosition)
    (h : crossed px lot = false) : crossedLots px (lot :: rest) = crossedLots px rest :=
  List.filter_cons_of_neg (by rw [h]; exact Bool.false_ne_true)

/-- The turns on `rest` take at most one lot each from the book. -/
theorem manageBook_length (px : PriceMap) (rest : List OpenPosition) :
    ∀ lots : List OpenPosition, lots.length ≤
      (Ran.loop (manageBook px) lots rest).state.length + (crossedLots px rest).length := by
  induction rest with
  | nil => intro lots; exact Nat.le_add_right _ _
  | cons lot rest ih =>
    intro lots
    rw [Ran.loop_cons]
    cases hc : crossed px lot with
    | false =>
      rw [manageBook_uncrossed hc, Ran.ok_andThen, crossedLots_cons_false rest hc]
      exact ih lots
    | true =>
      rw [crossedLots_cons_true rest hc, List.length_cons]
      rcases manageBook_crossed lots hc with ⟨e, hm⟩ | ⟨lots', hs, ⟨e, hm⟩ | hm⟩
      · rw [hm, Ran.raise_andThen, Ran.raise_state]
        omega
      · have := sellBook_length hs
        rw [hm, Ran.raise_andThen, Ran.raise_state]
        omega
      · have := sellBook_length hs
        have := ih lots'
        rw [hm, Ran.ok_andThen]
        omega

/-- If the turns on `rest` took one lot each, they only took lots away. -/
theorem manageBook_count (px : PriceMap) (rest : List OpenPosition) :
    ∀ lots : List OpenPosition,
      (Ran.loop (manageBook px) lots rest).state.length + (crossedLots px rest).length =
        lots.length →
      ∀ lot, (Ran.loop (manageBook px) lots rest).state.count lot ≤ lots.count lot := by
  induction rest with
  | nil => intro lots _ lot; exact Nat.le_refl _
  | cons x rest ih =>
    intro lots heq lot
    rw [Ran.loop_cons] at heq ⊢
    cases hc : crossed px x with
    | false =>
      rw [crossedLots_cons_false rest hc] at heq
      rw [manageBook_uncrossed hc, Ran.ok_andThen] at heq ⊢
      exact ih lots heq lot
    | true =>
      rw [crossedLots_cons_true rest hc, List.length_cons] at heq
      have herase : ∀ lots', sellBook lots x = .ok lots' → lots'.length < lots.length →
          lots'.count lot ≤ lots.count lot := by
        intro lots' hs hlt
        obtain ⟨target, -, rfl⟩ := sellBook_erase hs hlt
        exact List.Sublist.count_le _ List.erase_sublist
      rcases manageBook_crossed lots hc with ⟨e, hm⟩ | ⟨lots', hs, ⟨e, hm⟩ | hm⟩
      · rw [hm]
        exact Nat.le_refl _
      · rw [hm, Ran.raise_andThen, Ran.raise_state] at heq ⊢
        exact herase lots' hs (by omega)
      · rw [hm, Ran.ok_andThen] at heq ⊢
        have hlen := manageBook_length px rest lots'
        have hsell := sellBook_length hs
        exact le_trans (ih lots' (by omega) lot) (herase lots' hs (by omega))

/-- An exit pass leaves a sublist of the ids it found. -/
theorem manageOpenPositions_ids (loop : TradingLoop) (px : PriceMap) :
    ((loop.manageOpenPositions px).state.broker.lots.map (·.lotId)).Sublist
      (loop.broker.lots.map (·.lotId)) := by
  rw [manageOpenPositions_book]
  refine Ran.loop_inv (P := fun lots : List OpenPosition =>
    (lots.map (·.lotId)).Sublist (loop.broker.lots.map (·.lotId))) ?_ _ _ (List.Sublist.refl _)
  intro lots x hlots
  cases hc : crossed px x with
  | false =>
    rw [manageBook_uncrossed hc]
    exact hlots
  | true =>
    rcases manageBook_crossed lots hc with ⟨e, hm⟩ | ⟨lots', hs, ⟨e, hm⟩ | hm⟩
    · rw [hm]; exact hlots
    · rw [hm]; exact (sellBook_ids hs).trans hlots
    · rw [hm]; exact (sellBook_ids hs).trans hlots

/-! ## When the pass is right -/

theorem uncrossedLots_of_none {px : PriceMap} {lots : List OpenPosition}
    (h : ∀ lot ∈ lots, crossed px lot = false) : uncrossedLots px lots = lots := by
  unfold uncrossedLots
  rw [List.filter_eq_self]
  intro lot hlot
  rw [h lot hlot]
  rfl

theorem length_uncrossed_add_crossed (px : PriceMap) (lots : List OpenPosition) :
    (uncrossedLots px lots).length + (crossedLots px lots).length = lots.length := by
  unfold uncrossedLots crossedLots
  induction lots with
  | nil => rfl
  | cons lot lots ih =>
    cases h : crossed px lot <;> simp [h] <;> omega

/-- A pass that sells in front of a kept lot of the same ticker goes wrong:
it either takes fewer lots than it crossed or it took an uncrossed one. -/
theorem manageBook_wrong {px : PriceMap} {kept rest : List OpenPosition} {lot p : OpenPosition}
    (hkept : ∀ p ∈ kept, crossed px p = false) (hc : crossed px lot = true)
    (hp : p ∈ kept) (hticker : p.ticker = lot.ticker) :
    (Ran.loop (manageBook px) (kept ++ lot :: rest) (lot :: rest)).state ≠
      kept ++ uncrossedLots px rest := by
  intro hfinal
  -- The sell is served from a lot `target` that the pass had kept.
  obtain ⟨target, htarget⟩ := firstOf_isSome hp
  rw [hticker] at htarget
  have hfirst : firstOf (kept ++ lot :: rest) lot.ticker = some target := by
    unfold firstOf at htarget ⊢
    rw [List.find?_append, htarget, Option.some_or]
  have hmem := (firstOf_some htarget).2
  have hne : target ≠ lot := by
    rintro rfl
    rw [hkept target hmem] at hc
    cases hc
  -- The result has as many lots as if every crossed lot had been taken.
  have hlen : (kept ++ uncrossedLots px rest).length + (crossedLots px (lot :: rest)).length =
      (kept ++ lot :: rest).length := by
    rw [crossedLots_cons_true rest hc]
    have := length_uncrossed_add_crossed px rest
    simp only [List.length_append, List.length_cons]
    omega
  have hcountTarget : (kept ++ uncrossedLots px rest).count target =
      (kept ++ lot :: rest).count target := by
    have hrest : (uncrossedLots px rest).count target = rest.count target :=
      List.count_filter (by simp [hkept target hmem])
    rw [List.count_append, List.count_append, List.count_cons_of_ne hne.symm, hrest]
  rw [Ran.loop_cons] at hfinal
  rcases manageBook_crossed (kept ++ lot :: rest) hc with ⟨e, hm⟩ | ⟨lots', hs, hm⟩
  · rw [hm, Ran.raise_andThen, Ran.raise_state] at hfinal
    rw [← hfinal, crossedLots_cons_true rest hc, List.length_cons] at hlen
    omega
  · -- Afterwards the book holds at most what the sell left of `target`.
    have hcount : (kept ++ uncrossedLots px rest).count target ≤ lots'.count target ∧
        lots'.length < (kept ++ lot :: rest).length := by
      rw [crossedLots_cons_true rest hc, List.length_cons] at hlen
      rcases hm with ⟨e, hm⟩ | hm
      · rw [hm, Ran.raise_andThen, Ran.raise_state] at hfinal
        rw [hfinal]
        exact ⟨Nat.le_refl _, by omega⟩
      · rw [hm, Ran.ok_andThen] at hfinal
        have hl := manageBook_length px rest lots'
        have hsell := sellBook_length hs
        rw [hfinal] at hl
        have := manageBook_count px rest lots' (by rw [hfinal]; omega) target
        rw [hfinal] at this
        exact ⟨this, by omega⟩
    obtain ⟨target', hf', rfl⟩ := sellBook_erase hs hcount.2
    obtain rfl : target' = target := Option.some.inj (hf'.symm.trans hfirst)
    have hpos : 0 < (kept ++ lot :: rest).count target' :=
      List.count_pos_iff.mpr (List.mem_append_left _ hmem)
    have := hcount.1
    rw [List.count_erase_self, hcountTarget] at this
    omega

/-- An uncrossed lot joins those that no crossed lot of its ticker may follow. -/
theorem crossedFirst_uncrossed {px : PriceMap} {lot : OpenPosition} {kept rest : List OpenPosition}
    (hc : crossed px lot = false) :
    ((∀ b ∈ rest, crossed px b = true → ∀ p ∈ kept ++ [lot], p.ticker ≠ b.ticker) ∧
      CrossedFirst px rest) ↔
    (∀ b ∈ lot :: rest, crossed px b = true → ∀ p ∈ kept, p.ticker ≠ b.ticker) ∧
      CrossedFirst px (lot :: rest) := by
  unfold CrossedFirst
  rw [List.pairwise_cons, List.forall_mem_cons]
  constructor
  · rintro ⟨hfront, hpair⟩
    refine ⟨⟨fun h => absurd h (by simp [hc]), fun b hb hcb p hp =>
      hfront b hb hcb p (List.mem_append_left _ hp)⟩, ?_, hpair⟩
    intro b hb heq hcb
    exact absurd heq (hfront b hb hcb lot (by simp))
  · rintro ⟨⟨-, hfront⟩, hlot, hpair⟩
    refine ⟨?_, hpair⟩
    intro b hb hcb p hp
    rcases List.mem_append.mp hp with h | h
    · exact hfront b hb hcb p h
    · obtain rfl := List.mem_singleton.mp h
      intro heq
      have := hlot b hb heq hcb
      rw [hc] at this
      cases this

/-- A crossed lot in front of the others asks nothing of them. -/
theorem crossedFirst_crossed {px : PriceMap} {lot : OpenPosition} {rest : List OpenPosition}
    (hc : crossed px lot = true) : CrossedFirst px (lot :: rest) ↔ CrossedFirst px rest := by
  unfold CrossedFirst
  rw [List.pairwise_cons]
  exact ⟨fun h => h.2, fun h => ⟨fun _ _ _ _ => hc, h⟩⟩

theorem crossedLots_eq_nil {px : PriceMap} {rest : List OpenPosition} :
    crossedLots px rest = [] ↔ ∀ b ∈ rest, crossed px b = false := by
  unfold crossedLots
  simp only [List.filter_eq_nil_iff, Bool.not_eq_true]

/-- No lot is left out just when none is crossed. -/
theorem eq_uncrossedLots_iff {px : PriceMap} {rest : List OpenPosition} :
    rest = uncrossedLots px rest ↔ crossedLots px rest = [] := by
  constructor
  · intro h
    have := length_uncrossed_add_crossed px rest
    rw [← h] at this
    exact List.length_eq_zero_iff.mp (by omega)
  · intro h
    exact (uncrossedLots_of_none (crossedLots_eq_nil.mp h)).symm

/-- The turn of a crossed lot that is first of its ticker raises when an open lot
is priced `None`, and then the pass ends without it. -/
theorem manageBook_stops {px : PriceMap} {kept rest : List OpenPosition} {lot : OpenPosition}
    (hc : crossed px lot = true) (hfront : ∀ p ∈ kept, p.ticker ≠ lot.ticker)
    (hraise : ¬ ∀ p ∈ kept ++ rest, ¬ Unpriced px p) :
    (Ran.loop (manageBook px) (kept ++ lot :: rest) (lot :: rest)).state = kept ++ rest := by
  obtain ⟨hstate, hret⟩ := @manageBook_first px kept rest lot hc hfront
  rw [Ran.loop_cons]
  rcases Ran.andThen_cases (manageBook px (kept ++ lot :: rest) lot)
    (fun s => Ran.loop (manageBook px) s rest) with ⟨-, h⟩ | ⟨h, -⟩
  · rw [h, hstate]
  · exact absurd (hret.mp h) hraise

/-- The pass from the middle: the lots `kept` were visited and stay, `rest`
is still to come. -/
theorem manageBook_rest_iff (px : PriceMap) (rest : List OpenPosition) :
    ∀ kept : List OpenPosition, (∀ p ∈ kept, crossed px p = false) →
      ((Ran.loop (manageBook px) (kept ++ rest) rest).state = kept ++ uncrossedLots px rest ↔
        (∀ lot ∈ rest, crossed px lot = true → ∀ p ∈ kept, p.ticker ≠ lot.ticker) ∧
        CrossedFirst px rest ∧
        ((crossedLots px rest).length ≤ 1 ∨ ∀ lot ∈ kept ++ rest, ¬ Unpriced px lot)) := by
  induction rest with
  | nil =>
    intro kept _
    simp [uncrossedLots, crossedLots, CrossedFirst]
  | cons lot rest ih =>
    intro kept hkept
    cases hc : crossed px lot with
    | false =>
      have hkept' : ∀ p ∈ kept ++ [lot], crossed px p = false := by
        intro p hp
        rcases List.mem_append.mp hp with h | h
        · exact hkept p h
        · rw [List.mem_singleton.mp h]; exact hc
      have happ : kept ++ lot :: rest = (kept ++ [lot]) ++ rest := by simp
      have hgoal : kept ++ uncrossedLots px (lot :: rest) =
          (kept ++ [lot]) ++ uncrossedLots px rest := by simp [uncrossedLots, hc]
      rw [Ran.loop_cons, manageBook_uncrossed hc, Ran.ok_andThen, hgoal, happ, ih _ hkept',
        crossedLots_cons_false rest hc, ← and_assoc, ← and_assoc, crossedFirst_uncrossed hc]
    | true =>
      have hrest : uncrossedLots px (lot :: rest) = uncrossedLots px rest := by
        simp [uncrossedLots, hc]
      rw [hrest, crossedLots_cons_true rest hc, List.length_cons]
      by_cases hfront : ∀ p ∈ kept, p.ticker ≠ lot.ticker
      · obtain ⟨hstate, hret⟩ := @manageBook_first px kept rest lot hc hfront
        have hpriced : (∀ p ∈ kept ++ lot :: rest, ¬ Unpriced px p) ↔
            ∀ p ∈ kept ++ rest, ¬ Unpriced px p := by
          simp only [List.forall_mem_append, List.forall_mem_cons]
          exact ⟨fun h => ⟨h.1, h.2.2⟩, fun h => ⟨h.1, crossed_priced hc, h.2⟩⟩
        rw [crossedFirst_crossed hc, hpriced, List.forall_mem_cons]
        by_cases hok : ∀ p ∈ kept ++ rest, ¬ Unpriced px p
        · rw [Ran.loop_cons_returns (hret.mpr hok), hstate, ih kept hkept]
          exact ⟨fun h => ⟨⟨fun _ => hfront, h.1⟩, h.2.1, Or.inr hok⟩,
            fun h => ⟨h.1.2, h.2.1, Or.inr hok⟩⟩
        · -- The equity raises here, so this must have been the last crossed lot.
          rw [manageBook_stops hc hfront hok, List.append_cancel_left_eq, eq_uncrossedLots_iff]
          constructor
          · intro hnone
            have hno : ∀ b ∈ rest, ¬ crossed px b = true := by
              simpa using crossedLots_eq_nil.mp hnone
            refine ⟨⟨fun _ => hfront, fun b hb hcb => absurd hcb (hno b hb)⟩, ?_,
              Or.inl (by rw [hnone]; exact Nat.le_refl _)⟩
            exact List.pairwise_of_forall_mem_list fun a _ b hb _ hcb => absurd hcb (hno b hb)
          · rintro ⟨-, -, h | h⟩
            · exact List.length_eq_zero_iff.mp (by omega)
            · exact absurd h hok
      · obtain ⟨p, hp, hticker⟩ : ∃ p ∈ kept, p.ticker = lot.ticker := by
          simpa using hfront
        constructor
        · intro h
          exact absurd h (manageBook_wrong hkept hc hp hticker)
        · rintro ⟨h, -, -⟩
          exact absurd hticker (h lot (List.mem_cons_self) hc p hp)

/-- **What a pass closes.** Every `close_lot` of an open lot closes that lot
alone exactly when it is the first of its ticker, and one pass leaves exactly
the uncrossed lots when no crossed lot stands behind an uncrossed one of its
ticker and, with several crossed lots, no open lot is priced `None`. -/
theorem manage_closes_crossed_iff (loop : TradingLoop) (px : PriceMap) :
    (∀ lot ∈ loop.broker.lots, ∀ p : ℚ,
      loop.broker.ClosesExactly lot p ↔ firstOf loop.broker.lots lot.ticker = some lot) ∧
    ((loop.manageOpenPositions px).state.broker.lots = uncrossedLots px loop.broker.lots ↔
      CrossedFirst px loop.broker.lots ∧
      ((crossedLots px loop.broker.lots).length ≤ 1 ∨
        ∀ lot ∈ loop.broker.lots, ¬ Unpriced px lot)) := by
  refine ⟨fun lot hlot p => PaperBroker.closeLot_exact_iff p hlot, ?_⟩
  have h := manageBook_rest_iff px loop.broker.lots [] (by simp)
  simp only [List.nil_append, List.not_mem_nil, false_imp_iff, implies_true, true_and] at h
  rw [manageOpenPositions_book]
  exact h

/-- Two lots of one ticker; the second was bought higher and has the higher
stop. -/
def pyramid : PaperBroker :=
  { cash := 1000
    lots := [{ lotId := 1, ticker := "BTC/USDT", quantity := 2, entryPrice := 100
               stopLoss := 96, entryFee := 0 },
             { lotId := 2, ticker := "BTC/USDT", quantity := 1, entryPrice := 104
               stopLoss := 100, entryFee := 0 }]
    nextLot := 3 }

/-- At 99 only the second lot's stop is crossed, and `close_lot` of it shrinks
the first lot instead. -/
theorem pyramid_wrong_lot :
    ∃ lot ∈ pyramid.lots, ¬ pyramid.ClosesExactly lot 99 ∧
      ∀ (risk : RiskManager) (calib : CalibrationStore) (store : TradeStore),
        ((TradingLoop.mk pyramid risk calib store []).manageOpenPositions
          fun _ => some (some 99)).state.broker.lots ≠
        uncrossedLots (fun _ => some (some 99)) pyramid.lots := by
  refine ⟨pyramid.lots[1], List.getElem_mem _, ?_, ?_⟩
  · rw [PaperBroker.closeLot_exact_iff _ (List.getElem_mem _)]
    decide +kernel
  · intro risk calib store
    rw [manageOpenPositions_book]
    show (Ran.loop (manageBook _) pyramid.lots pyramid.lots).state ≠ _
    decide +kernel

/-! ## Rules for the whole loop -/

/-- What one turn can do, in any book: nothing, or one close through
`close_lot` followed by `settle` and at most one line of history. -/
theorem manageLot_cases (px : PriceMap) (loop : TradingLoop) (lot : OpenPosition) :
    (loop.manageLot px lot).state = loop ∨
    ∃ cur why broker fill history, crossing px lot = some (cur, why) ∧
      loop.broker.closeLot lot cur = .ok (broker, fill) ∧
      (loop.manageLot px lot).state =
        { { loop with broker := broker }.settle lot fill why with history := history } := by
  unfold TradingLoop.manageLot
  cases hc : crossing px lot with
  | none => exact Or.inl rfl
  | some c =>
    obtain ⟨cur, why⟩ := c
    simp only
    cases hs : loop.broker.closeLot lot cur with
    | error e => exact Or.inl rfl
    | ok r =>
      obtain ⟨broker, fill⟩ := r
      refine Or.inr ⟨cur, why, broker, fill, ?_⟩
      simp only
      cases ({ loop with broker := broker }.settle lot fill why).broker.equity px with
      | error e => exact ⟨_, trivial, hs, rfl⟩
      | ok v => exact ⟨_, trivial, hs, rfl⟩

/-- The turn of a crossed lot that is first of its ticker, when the rest of the
book is priced: its close, settled, with a line of history. -/
theorem manageLot_closes {px : PriceMap} {loop : TradingLoop} {kept rest : List OpenPosition}
    {lot : OpenPosition} {cur : ℚ} {why : ExitReason} (hc : crossing px lot = some (cur, why))
    (hlots : loop.broker.lots = kept ++ lot :: rest) (hkept : ∀ p ∈ kept, p.ticker ≠ lot.ticker)
    (hpriced : ∀ p ∈ kept ++ rest, ¬ Unpriced px p) :
    ∃ equity, loop.manageLot px lot =
      .ok { { loop with broker := loop.broker.closedTo lot cur (kept ++ rest) }.settle lot
        (loop.broker.closeFill lot cur) why with
          history := loop.history ++ [closedResult lot cur why equity] } := by
  have hbook : loop.broker.lots.erase lot = kept ++ rest := by
    rw [hlots, List.erase_append_right _ fun hm => hkept lot hm rfl, List.erase_cons_head]
  have hsell : loop.broker.closeLot lot cur =
      .ok (loop.broker.closedTo lot cur (kept ++ rest), loop.broker.closeFill lot cur) := by
    rw [PaperBroker.closeLot_first cur (by rw [hlots]; exact firstOf_append hkept), hbook]
  obtain ⟨equity, hequity⟩ := (@equity_ok_iff px
    (loop.broker.closedTo lot cur (kept ++ rest))).mpr hpriced
  refine ⟨equity, ?_⟩
  unfold TradingLoop.manageLot
  simp only [hc, hsell, TradingLoop.settle, hequity]

/-- A pass in which no equity raises and no crossed lot stands behind an
uncrossed one of its ticker returns, leaves the uncrossed lots, and is a row of
exact closes: a fact `P` about the loop and the lots still to come holds at
the end if turns on uncrossed lots and exact closes keep it. -/
theorem manage_rule {px : PriceMap} {P : TradingLoop → List OpenPosition → Prop}
    (hkeep : ∀ loop lot rest, P loop (lot :: rest) → crossing px lot = none → P loop rest)
    (hclose : ∀ (loop : TradingLoop) kept lot rest cur why history, P loop (lot :: rest) →
      crossing px lot = some (cur, why) → loop.broker.lots = kept ++ lot :: rest →
      P { { loop with broker := loop.broker.closedTo lot cur (kept ++ rest) }.settle lot
          (loop.broker.closeFill lot cur) why with history := history } rest)
    (loop : TradingLoop) (hfirst : CrossedFirst px loop.broker.lots)
    (hpriced : crossedLots px loop.broker.lots = [] ∨
      ∀ lot ∈ loop.broker.lots, ¬ Unpriced px lot)
    (hP : P loop loop.broker.lots) :
    (loop.manageOpenPositions px).Returns ∧
    (loop.manageOpenPositions px).state.broker.lots = uncrossedLots px loop.broker.lots ∧
    P (loop.manageOpenPositions px).state [] := by
  -- From the middle of the pass: `kept` was visited, `rest` is to come.
  suffices h : ∀ (rest kept : List OpenPosition) (loop : TradingLoop),
      loop.broker.lots = kept ++ rest →
      (∀ lot ∈ rest, crossed px lot = true → ∀ p ∈ kept, p.ticker ≠ lot.ticker) →
      CrossedFirst px rest →
      (crossedLots px rest = [] ∨ ∀ lot ∈ kept ++ rest, ¬ Unpriced px lot) → P loop rest →
      (Ran.loop (TradingLoop.manageLot px) loop rest).Returns ∧
      (Ran.loop (TradingLoop.manageLot px) loop rest).state.broker.lots =
        kept ++ uncrossedLots px rest ∧
      P (Ran.loop (TradingLoop.manageLot px) loop rest).state [] by
    exact h loop.broker.lots [] loop rfl (by simp) hfirst (by simpa using hpriced) hP
  intro rest
  induction rest with
  | nil => intro kept loop hlots _ _ _ hP; exact ⟨rfl, hlots, hP⟩
  | cons lot rest ih =>
    intro kept loop hlots hfront hpair hpriced hP
    cases hc : crossing px lot with
    | none =>
      have hno : crossed px lot = false := by simp [crossed, hc]
      have hturn : loop.manageLot px lot = .ok loop := by
        unfold TradingLoop.manageLot
        rw [hc]
      obtain ⟨hfront', hpair'⟩ := (crossedFirst_uncrossed hno).mpr ⟨hfront, hpair⟩
      rw [crossedLots_cons_false rest hno] at hpriced
      have hih := ih (kept ++ [lot]) loop (by rw [hlots]; simp) hfront' hpair'
        (by simpa using hpriced) (hkeep loop lot rest hP hc)
      rw [Ran.loop_cons, hturn, Ran.ok_andThen]
      have hun : kept ++ uncrossedLots px (lot :: rest) =
          (kept ++ [lot]) ++ uncrossedLots px rest := by simp [uncrossedLots, hno]
      rw [hun]
      exact hih
    | some c =>
      obtain ⟨cur, why⟩ := c
      have hyes : crossed px lot = true := by simp [crossed, hc]
      have hall : ∀ p ∈ kept ++ lot :: rest, ¬ Unpriced px p := by
        rcases hpriced with h | h
        · rw [crossedLots_cons_true rest hyes] at h
          cases h
        · exact h
      have hleft : ∀ p ∈ kept ++ rest, ¬ Unpriced px p := fun p hp =>
        hall p (by simp only [List.mem_append, List.mem_cons] at hp ⊢; tauto)
      rw [List.forall_mem_cons] at hfront
      obtain ⟨equity, hturn⟩ := manageLot_closes hc hlots (hfront.1 hyes) hleft
      have hun : uncrossedLots px (lot :: rest) = uncrossedLots px rest := by
        simp [uncrossedLots, hyes]
      rw [Ran.loop_cons, hturn, Ran.ok_andThen, hun]
      exact ih kept _ rfl hfront.2 ((crossedFirst_crossed hyes).mp hpair) (Or.inr hleft)
        (hclose loop kept lot rest cur why _ hP hc hlots)

/-- A pass over a book with no crossed lot leaves the loop as it was. -/
theorem manage_uncrossed {px : PriceMap} {loop : TradingLoop}
    (h : crossedLots px loop.broker.lots = []) :
    (loop.manageOpenPositions px).Returns ∧ (loop.manageOpenPositions px).state = loop := by
  have hno : ∀ b ∈ loop.broker.lots, ¬ crossed px b = true := List.filter_eq_nil_iff.mp h
  obtain ⟨hret, -, hstate, -⟩ := manage_rule
    (P := fun l rest => l = loop ∧ crossedLots px rest = [])
    (fun l lot rest hP hc => ⟨hP.1, by
      rw [← hP.2]
      exact (crossedLots_cons_false rest (by simp [crossed, hc])).symm⟩)
    (by
      intro l kept lot rest cur why history hP hc _
      have hnil := hP.2
      rw [crossedLots_cons_true rest (by simp [crossed, hc])] at hnil
      cases hnil)
    loop (List.pairwise_of_forall_mem_list fun _ _ b hb _ hcb => absurd hcb (hno b hb))
    (Or.inl h) ⟨rfl, h⟩
  exact ⟨hret, hstate⟩

/-- The first crossed lot's sell is refused, before anything was sold. -/
def RefusedAtOnce (px : PriceMap) (lots : List OpenPosition) : Prop :=
  ∃ lot e, (crossedLots px lots).head? = some lot ∧ sellBook lots lot = .error e

/-- A pass whose first sell is refused raises and leaves the loop as it was. -/
theorem manage_refused {px : PriceMap} {loop : TradingLoop}
    (h : RefusedAtOnce px loop.broker.lots) :
    ¬ (loop.manageOpenPositions px).Returns ∧ (loop.manageOpenPositions px).state = loop := by
  obtain ⟨lot, e, hhead, hsell⟩ := h
  have hrest : ∀ rest : List OpenPosition, (crossedLots px rest).head? = some lot →
      Ran.loop (TradingLoop.manageLot px) loop rest = .raise e loop := by
    intro rest
    induction rest with
    | nil => intro h; cases h
    | cons x rest ih =>
      intro h
      cases hc : crossing px x with
      | none =>
        have hturn : loop.manageLot px x = .ok loop := by
          unfold TradingLoop.manageLot
          rw [hc]
        rw [crossedLots_cons_false rest (by simp [crossed, hc])] at h
        rw [Ran.loop_cons, hturn, Ran.ok_andThen]
        exact ih h
      | some c =>
        obtain ⟨cur, why⟩ := c
        rw [crossedLots_cons_true rest (by simp [crossed, hc]), List.head?_cons] at h
        obtain rfl := Option.some.inj h
        have hturn : loop.manageLot px x = .raise e loop := by
          unfold TradingLoop.manageLot
          rw [hc]
          simp only [PaperBroker.closeLot_eq, hsell, Except.map]
        rw [Ran.loop_cons, hturn, Ran.raise_andThen]
  unfold TradingLoop.manageOpenPositions
  rw [hrest _ hhead]
  exact ⟨Ran.raise_returns e loop, rfl⟩

end PaperTrading.Trading
