import Mathlib.Tactic.Linarith
import PaperTrading.Broker.Paper

/-!
# What a sell does to the book

`closeLot` sells by ticker, so the lot it hits is the first one of that
ticker. `sellBook` is what it does to the list of lots (the price only moves
cash), and the two facts everything else rests on are `sellBook_first`, the
sell of a lot that is the first of its ticker closes that lot, and
`sellBook_cases`, any other sell is refused, erases the first lot of the
ticker, or shrinks it in place.

`closeLot_exact_iff` says when `closeLot` keeps its promise to close one
specific lot: exactly when that lot is the first of its ticker.
-/

namespace PaperTrading.Broker

/-- The first lot of ticker `t`, the one a sell is served from. -/
def firstOf (lots : List OpenPosition) (t : Ticker) : Option OpenPosition :=
  lots.find? fun p => p.ticker = t

/-- The list of lots `closeLot` leaves. -/
def sellBook (lots : List OpenPosition) (lot : OpenPosition) :
    Except PyError (List OpenPosition) :=
  match firstOf lots lot.ticker with
  | none => .error (.noOpenPosition lot.ticker)
  | some target =>
    if lot.quantity > target.quantity + DUST then
      .error (.oversell lot.quantity target.quantity lot.ticker)
    else .ok (sellFrom lots target lot.quantity)

theorem DUST_nonneg : (0 : ℚ) ≤ DUST := by decide +kernel

/-! ## The first lot of a ticker -/

theorem firstOf_append {pre post : List OpenPosition} {lot : OpenPosition}
    (hpre : ∀ p ∈ pre, p.ticker ≠ lot.ticker) :
    firstOf (pre ++ lot :: post) lot.ticker = some lot := by
  unfold firstOf
  rw [List.find?_append, List.find?_eq_none.mpr (by simpa using hpre)]
  simp

theorem firstOf_some {lots : List OpenPosition} {t : Ticker} {target : OpenPosition}
    (h : firstOf lots t = some target) : target.ticker = t ∧ target ∈ lots := by
  refine ⟨?_, List.mem_of_find?_eq_some h⟩
  simpa using List.find?_some h

theorem firstOf_isSome {lots : List OpenPosition} {lot : OpenPosition} (h : lot ∈ lots) :
    ∃ target, firstOf lots lot.ticker = some target := by
  cases hf : firstOf lots lot.ticker with
  | some target => exact ⟨target, rfl⟩
  | none =>
    have := List.find?_eq_none.mp hf lot h
    simp at this

/-! ## Selling -/

theorem sellFrom_self (lots : List OpenPosition) (lot : OpenPosition) :
    sellFrom lots lot lot.quantity = lots.erase lot := by
  unfold sellFrom
  rw [sub_self, if_pos DUST_nonneg]

/-- Selling a lot that is the first of its ticker closes that lot. -/
theorem sellBook_first {lots : List OpenPosition} {lot : OpenPosition}
    (h : firstOf lots lot.ticker = some lot) : sellBook lots lot = .ok (lots.erase lot) := by
  have hle : ¬ lot.quantity > lot.quantity + DUST := by
    have := DUST_nonneg
    intro hlt
    linarith
  unfold sellBook
  simp only [h, if_neg hle, sellFrom_self]

/-- A sell is refused, or erases the first lot of the ticker, or keeps the
number of lots. -/
theorem sellBook_cases (lots : List OpenPosition) (lot : OpenPosition) :
    (∃ e, sellBook lots lot = .error e) ∨
    (∃ target, firstOf lots lot.ticker = some target ∧
      sellBook lots lot = .ok (lots.erase target)) ∨
    (∃ lots', sellBook lots lot = .ok lots' ∧ lots'.length = lots.length) := by
  cases hf : firstOf lots lot.ticker with
  | none => exact Or.inl ⟨.noOpenPosition lot.ticker, by unfold sellBook; rw [hf]⟩
  | some target =>
    by_cases hq : lot.quantity > target.quantity + DUST
    · refine Or.inl ⟨.oversell lot.quantity target.quantity lot.ticker, ?_⟩
      unfold sellBook
      simp only [hf, if_pos hq]
    · have hs : sellBook lots lot = .ok (sellFrom lots target lot.quantity) := by
        unfold sellBook
        simp only [hf, if_neg hq]
      by_cases hd : target.quantity - lot.quantity ≤ DUST
      · refine Or.inr (Or.inl ⟨target, rfl, ?_⟩)
        rw [hs]
        unfold sellFrom
        rw [if_pos hd]
      · refine Or.inr (Or.inr ⟨_, hs, ?_⟩)
        unfold sellFrom
        rw [if_neg hd, List.length_replace]

/-- A sell never makes the book longer, and never shorter by more than one. -/
theorem sellBook_length {lots lots' : List OpenPosition} {lot : OpenPosition}
    (h : sellBook lots lot = .ok lots') :
    lots'.length ≤ lots.length ∧ lots.length ≤ lots'.length + 1 := by
  rcases sellBook_cases lots lot with ⟨e, he⟩ | ⟨target, hf, he⟩ | ⟨lots'', he, hl⟩
  · rw [he] at h; cases h
  · rw [he] at h
    cases h
    rw [List.length_erase_of_mem (firstOf_some hf).2]
    omega
  · rw [he] at h
    cases h
    omega

/-- A sell that makes the book shorter erased the first lot of the ticker. -/
theorem sellBook_erase {lots lots' : List OpenPosition} {lot : OpenPosition}
    (h : sellBook lots lot = .ok lots') (hlt : lots'.length < lots.length) :
    ∃ target, firstOf lots lot.ticker = some target ∧ lots' = lots.erase target := by
  rcases sellBook_cases lots lot with ⟨e, he⟩ | ⟨target, hf, he⟩ | ⟨lots'', he, hl⟩
  · rw [he] at h; cases h
  · rw [he] at h
    cases h
    exact ⟨target, hf, rfl⟩
  · rw [he] at h
    cases h
    omega

/-- A sell leaves a sublist of the ids: it erases a lot or rewrites its
quantity in place. -/
theorem sellBook_ids {lots lots' : List OpenPosition} {lot : OpenPosition}
    (h : sellBook lots lot = .ok lots') :
    (lots'.map (·.lotId)).Sublist (lots.map (·.lotId)) := by
  unfold sellBook at h
  cases hf : firstOf lots lot.ticker with
  | none => rw [hf] at h; cases h
  | some target =>
    rw [hf] at h
    dsimp only at h
    split at h
    · cases h
    · cases h
      obtain ⟨pre, post, hnot, hlots, -⟩ := List.exists_erase_eq (firstOf_some hf).2
      unfold sellFrom
      split
      · exact List.erase_sublist.map _
      · rw [hlots, List.replace_append_right hnot, List.replace_cons_self]
        simp

/-! ## Closing one lot -/

namespace PaperBroker

/-- The fill of a close of `lot` at market price `p`. -/
def closeFill (b : PaperBroker) (lot : OpenPosition) (p : ℚ) : Fill :=
  b.fillFor { ticker := lot.ticker, side := .sell, quantity := lot.quantity, price := p } p

/-- What a close of `lot` at market price `p` adds to cash. -/
def closeProceeds (b : PaperBroker) (lot : OpenPosition) (p : ℚ) : ℚ :=
  lot.quantity * b.fillPrice .sell p - (b.closeFill lot p).fee

/-- The broker after a close that left the lots `lots'`. -/
def closedTo (b : PaperBroker) (lot : OpenPosition) (p : ℚ) (lots' : List OpenPosition) :
    PaperBroker :=
  { b with
    cash := b.cash + b.closeProceeds lot p
    lots := lots'
    fills := b.fills ++ [b.closeFill lot p] }

@[simp] theorem closedTo_lots (b : PaperBroker) (lot : OpenPosition) (p : ℚ)
    (lots' : List OpenPosition) : (b.closedTo lot p lots').lots = lots' := rfl

/-- `closeLot` is `sellBook` on the lots; the rest of the broker only moves by
the fill. -/
theorem closeLot_eq (b : PaperBroker) (lot : OpenPosition) (p : ℚ) :
    b.closeLot lot p = (sellBook b.lots lot).map fun lots' =>
      (b.closedTo lot p lots', b.closeFill lot p) := by
  unfold closeLot placeOrder sellBook firstOf
  simp only [Option.getD_some]
  cases b.lots.find? fun q => decide (q.ticker = lot.ticker) with
  | none => rfl
  | some target =>
    by_cases hq : lot.quantity > target.quantity + DUST
    · simp only [if_pos hq, Except.map]
    · simp only [if_neg hq, Except.map, closedTo, closeProceeds, closeFill, fillFor]

theorem closeLot_first {b : PaperBroker} {lot : OpenPosition} (p : ℚ)
    (h : firstOf b.lots lot.ticker = some lot) :
    b.closeLot lot p = .ok (b.closedTo lot p (b.lots.erase lot), b.closeFill lot p) := by
  rw [closeLot_eq, sellBook_first h]
  rfl

/-- `close_lot(lot, p)` closes `lot` and nothing else: it returns, the other
lots stay as they were, and cash grows by quantity times fill price less the
fee. -/
def ClosesExactly (b : PaperBroker) (lot : OpenPosition) (p : ℚ) : Prop :=
  ∃ b' fill, b.closeLot lot p = .ok (b', fill) ∧ b'.lots = b.lots.erase lot ∧
    fill.price = b.fillPrice .sell p ∧ b'.cash = b.cash + (lot.quantity * fill.price - fill.fee)

/-- The close of an open lot is exact only if the lot is the first of its
ticker: any other sell leaves the lot in the book. -/
theorem closeLot_exact_iff {b : PaperBroker} {lot : OpenPosition} (p : ℚ)
    (hlot : lot ∈ b.lots) : b.ClosesExactly lot p ↔ firstOf b.lots lot.ticker = some lot := by
  constructor
  · rintro ⟨b', fill, hclose, hlots, -, -⟩
    rw [closeLot_eq] at hclose
    cases hs : sellBook b.lots lot with
    | error e => rw [hs] at hclose; cases hclose
    | ok lots' =>
      rw [hs] at hclose
      have hb' : lots' = b'.lots := by
        have := congrArg (fun r => r.map fun x : PaperBroker × Fill => x.1.lots) hclose
        simpa [Except.map] using this
      have hlen : lots'.length < b.lots.length := by
        rw [hb', hlots, List.length_erase_of_mem hlot]
        have := List.length_pos_of_mem hlot
        omega
      obtain ⟨target, hf, he⟩ := sellBook_erase hs hlen
      rcases eq_or_ne target lot with rfl | hne
      · exact hf
      · have hcount : (b.lots.erase target).count lot = (b.lots.erase lot).count lot := by
          rw [← he, hb', hlots]
        rw [List.count_erase_of_ne hne.symm, List.count_erase_self] at hcount
        have := List.count_pos_iff.mpr hlot
        omega
  · intro h
    exact ⟨_, _, closeLot_first p h, rfl, rfl, rfl⟩

end PaperBroker

end PaperTrading.Broker
