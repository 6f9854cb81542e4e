import PaperTrading.Backtest.Conservation
import Mathlib.Order.Bounds.Basic
import Mathlib.Tactic.Positivity

/-!
# The backtest never borrows

With positive prices, and a fee and a slippage below one, cash is not negative
after any exit or entry: an exit only brings cash in (`closeLot_solvent`), and an
entry is cut to what the cash pays for at the slipped price and the fee
(`entryAt_spec`, `openLot_solvent`). `Extremes` follows the two reported extremes
through the entries.
-/

namespace PaperTrading.Backtest

open Risk Signals

/-- The cost settings and the start the claim of no borrowing is about. -/
structure Setting.Admitted (s : Setting) : Prop where
  fee_nonneg : 0 ≤ s.takerFee
  fee_lt_one : s.takerFee < 1
  slippage_nonneg : 0 ≤ s.slippage
  slippage_lt_one : s.slippage < 1
  rr_nonneg : 0 ≤ s.rr
  cash_nonneg : 0 ≤ s.startCash

/-- Positive prices, each close between its low and its high. -/
def Priced (o : Ohlc) : Prop :=
  ∀ i < o.closes.length, 0 < lowAt o i ∧ lowAt o i ≤ closeAt o i ∧ closeAt o i ≤ highAt o i

theorem Priced.close_pos {o : Ohlc} (h : Priced o) {i : ℕ} (hi : i < o.closes.length) :
    0 < closeAt o i := (h i hi).1.trans_le (h i hi).2.1

/-- A lot with a stop below its entry. -/
structure Lot.Sound (lot : Lot) : Prop where
  qty_pos : 0 < lot.qty
  stop_pos : 0 < lot.stop
  stop_lt : lot.stop < lot.entry

/-- The account owes nothing and its lots are in order. -/
structure Solvent (b : Book) : Prop where
  cash : 0 ≤ b.cash
  notional : ∀ px, notionalAt b.lots px ≤ b.markEquity px
  few : b.lots.length ≤ MAX_LOTS_PER_SYMBOL
  sound : ∀ lot ∈ b.lots, lot.Sound

theorem solvent_of {b : Book} (hcash : 0 ≤ b.cash) (hfew : b.lots.length ≤ MAX_LOTS_PER_SYMBOL)
    (hsound : ∀ lot ∈ b.lots, lot.Sound) : Solvent b :=
  ⟨hcash, fun _ => le_add_of_nonneg_left hcash, hfew, hsound⟩

/-! ## Exits -/

section
variable {s : Setting} {o : Ohlc}

theorem Lot.Sound.target_pos {lot : Lot} (h : lot.Sound) (hs : s.Admitted) :
    0 < lot.target s.rr := by
  have hrisk : 0 ≤ s.rr * (lot.entry - lot.stop) :=
    mul_nonneg hs.rr_nonneg (sub_nonneg.mpr h.stop_lt.le)
  have hentry : 0 < lot.entry := h.stop_pos.trans h.stop_lt
  unfold Lot.target
  linarith

/-- An exit price is not negative. -/
theorem exitOf_nonneg {low high : ℚ} {lot : Lot} {exitPx : ℚ} {hit : Hit} (hs : s.Admitted)
    (hlot : lot.Sound) (h : exitOf s low high lot = some (exitPx, hit)) : 0 ≤ exitPx := by
  have hslip : 0 ≤ 1 - s.slippage := sub_nonneg.mpr hs.slippage_lt_one.le
  have hstop := mul_nonneg hlot.stop_pos.le hslip
  have htarget := mul_nonneg (hlot.target_pos hs).le hslip
  unfold exitOf at h
  split at h
  · cases h
    exact hstop
  · split at h
    · cases h
      exact hstop
    · split at h
      · cases h
        exact htarget
      · cases h

/-- A close brings cash in. -/
theorem closeLot_cash {b : Book} {lot : Lot} {exitPx : ℚ} (hs : s.Admitted) (hcash : 0 ≤ b.cash)
    (hlot : lot.Sound) (hexit : 0 ≤ exitPx) (hit : Hit) (i : ℕ) :
    0 ≤ (b.closeLot s lot exitPx hit i).cash := by
  have hkept : 0 ≤ 1 - s.takerFee := sub_nonneg.mpr hs.fee_lt_one.le
  have hproceeds : 0 ≤ exitPx * lot.qty * (1 - s.takerFee) :=
    mul_nonneg (mul_nonneg hexit hlot.qty_pos.le) hkept
  show 0 ≤ b.cash + (exitPx * lot.qty - exitPx * lot.qty * s.takerFee)
  linarith

theorem exitPass_cash {low high : ℚ} {i : ℕ} (hs : s.Admitted) (lots : List Lot) :
    ∀ {p : ExitPass}, (∀ lot ∈ lots, lot.Sound) → 0 ≤ p.book.cash →
      0 ≤ (lots.foldl (ExitPass.step s low high i) p).book.cash := by
  induction lots with
  | nil => exact fun _ h => h
  | cons lot lots ih =>
    intro p hsound hcash
    rw [List.foldl_cons]
    apply ih fun l hl => hsound l (List.mem_cons_of_mem _ hl)
    unfold ExitPass.step
    cases hexit : exitOf s low high lot with
    | none => exact hcash
    | some e =>
      have hlot := hsound lot List.mem_cons_self
      exact closeLot_cash hs hcash hlot (exitOf_nonneg hs hlot hexit) e.2 i

/-- The lots an exit pass leaves are among those it found. -/
theorem exitPass_sublist {low high : ℚ} {i : ℕ} (lots : List Lot) :
    ∀ {p : ExitPass}, (lots.foldl (ExitPass.step s low high i) p).stillOpen.Sublist
      (p.stillOpen ++ lots) := by
  induction lots with
  | nil =>
    intro p
    rw [List.append_nil]
    exact List.Sublist.refl _
  | cons lot lots ih =>
    intro p
    rw [List.foldl_cons]
    refine ih.trans ?_
    unfold ExitPass.step
    cases exitOf s low high lot with
    | none =>
      dsimp only
      rw [List.append_assoc]
      exact List.Sublist.refl _
    | some e => exact (List.sublist_cons_self lot lots).append_left p.stillOpen

theorem exitLots_solvent {b : Book} {low high : ℚ} {i : ℕ} (hs : s.Admitted) (h : Solvent b) :
    Solvent (b.exitLots s low high i).1 := by
  have hsub : (b.exitLots s low high i).1.lots.Sublist b.lots := exitPass_sublist b.lots
  exact solvent_of (exitPass_cash hs b.lots h.sound h.cash) (hsub.length_le.trans h.few)
    fun lot hlot => h.sound lot (hsub.subset hlot)

theorem beforeEntry_solvent {b : Book} {tradeStart i : ℕ} (hs : s.Admitted) (h : Solvent b) :
    Solvent (b.beforeEntry s o tradeStart i) := by
  have hexit : Solvent (b.exitLots s (lowAt o i) (highAt o i) i).1 := exitLots_solvent hs h
  obtain ⟨hsame, hlots⟩ := markBar_same (b.exitLots s (lowAt o i) (highAt o i) i).1 s
    (closeAt o i) i tradeStart
  unfold Book.beforeEntry
  exact solvent_of (by rw [hsame.cash]; exact hexit.cash) (by rw [hlots]; exact hexit.few)
    (by rw [hlots]; exact hexit.sound)

/-! ## Entries -/

/-- What an entry is made with. -/
structure EntryOk (b : Book) (s : Setting) (cur stop qty : ℚ) : Prop where
  room : b.lots.length < MAX_LOTS_PER_SYMBOL
  stop_pos : 0 < stop
  stop_lt : stop < cur
  qty_pos : 0 < qty
  affordable : qty * cur * s.costMult ≤ b.cash

theorem costMult_ge_one (hs : s.Admitted) : 1 ≤ s.costMult := by
  have hfee := hs.fee_nonneg
  have hslip := hs.slippage_nonneg
  have hprod := mul_nonneg hslip hfee
  unfold Setting.costMult
  linarith

theorem entryAt_spec {b : Book} {take : ℕ → Bool} {exited : Bool} {i : ℕ} {stop qty : ℚ}
    (hs : s.Admitted) (h : b.entryAt s o take exited i = some (stop, qty)) :
    EntryOk b s (closeAt o i) stop qty := by
  unfold Book.entryAt at h
  dsimp only at h
  split_ifs at h with _ _ hfew _ _ hno
  cases h
  have hallows := hno
  rw [Bool.or_eq_true, not_or, Bool.not_eq_true', Bool.not_eq_false, decide_eq_true_eq,
    not_le] at hallows
  obtain ⟨happroved, hqty⟩ := hallows
  have hsize := RiskManager.sizePosition_size_le happroved
  have hallowed := (RiskManager.sizePosition_approved_iff ..).mp happroved |>.2
  have hcur : 0 < closeAt o i := hallowed.stop_pos.trans hallowed.stop_lt
  have hmult : max 1 s.costMult = s.costMult := max_eq_right (costMult_ge_one hs)
  have hunit : 0 < closeAt o i * s.costMult :=
    mul_pos hcur (zero_lt_one.trans_le (costMult_ge_one hs))
  have hmax : RiskManager.maxSize (b.markEquity (closeAt o i)) (closeAt o i) b.cash s.costMult =
      b.cash / (closeAt o i * s.costMult) := by
    unfold RiskManager.maxSize MAX_NOTIONAL_FRAC
    dsimp only
    rw [hmult, if_pos hunit, sub_self, mul_zero, sub_zero]
  rw [hmax, le_div_iff₀ hunit, ← mul_assoc] at hsize
  exact ⟨not_le.mp hfew, hallowed.stop_pos, hallowed.stop_lt, hqty, hsize⟩

/-- What an entry costs, the fee included. -/
theorem openLot_cash (b : Book) (cur stop qty : ℚ) (i : ℕ) :
    (b.openLot s cur stop qty i).cash = b.cash - qty * cur * s.costMult := by
  show b.cash - (cur * (1 + s.slippage) * qty + cur * (1 + s.slippage) * qty * s.takerFee) = _
  unfold Setting.costMult
  ring

theorem openLot_solvent {b : Book} {cur stop qty : ℚ} (hs : s.Admitted) (h : Solvent b)
    (hok : EntryOk b s cur stop qty) (i : ℕ) : Solvent (b.openLot s cur stop qty i) := by
  have hcur : 0 < cur := hok.stop_pos.trans hok.stop_lt
  have hfill : cur ≤ cur * (1 + s.slippage) :=
    le_mul_of_one_le_right hcur.le (by linarith [hs.slippage_nonneg])
  have hlots : (b.openLot s cur stop qty i).lots = b.lots ++
      [{ qty := qty, entry := cur * (1 + s.slippage), stop := stop, opened := i }] := rfl
  refine solvent_of ?_ ?_ ?_
  · rw [openLot_cash]
    exact sub_nonneg.mpr hok.affordable
  · rw [hlots, List.length_append]
    exact hok.room
  · rw [hlots]
    intro lot hlot
    rcases List.mem_append.mp hlot with hold | hnew
    · exact h.sound lot hold
    · obtain rfl := List.mem_singleton.mp hnew
      exact ⟨hok.qty_pos, hok.stop_pos, hok.stop_lt.trans_le hfill⟩

/-! ## The run -/

theorem barStep_solvent {b : Book} {take : ℕ → Bool} {tradeStart i : ℕ} (hs : s.Admitted)
    (h : Solvent b) : Solvent (barStep s o take tradeStart b i) := by
  have hmarked : Solvent (b.beforeEntry s o tradeStart i) := beforeEntry_solvent hs h
  unfold barStep
  dsimp only
  split
  · exact hmarked
  next hentry => exact openLot_solvent hs hmarked (entryAt_spec hs hentry) i

theorem barsFrom_solvent (hs : s.Admitted) (take : ℕ → Bool) (k : ℕ) :
    Solvent (barsFrom s o take k) := by
  induction k with
  | zero => exact solvent_of hs.cash_nonneg (Nat.zero_le _) nofun
  | succ k ih =>
    unfold barsFrom at ih ⊢
    rw [List.range'_concat, List.foldl_append]
    exact barStep_solvent hs ih

theorem closeWindow_cash {b : Book} {last : ℕ} (hs : s.Admitted) (h : Solvent b)
    (hclose : 0 < closeAt o last) : 0 ≤ (b.closeWindow s o last).cash := by
  have hexit : 0 ≤ closeAt o last * (1 - s.slippage) :=
    mul_nonneg hclose.le (sub_nonneg.mpr hs.slippage_lt_one.le)
  have hall : ∀ (lots : List Lot) {b : Book}, (∀ lot ∈ lots, lot.Sound) → 0 ≤ b.cash →
      0 ≤ (lots.foldl (fun b lot =>
        b.closeLot s lot (closeAt o last * (1 - s.slippage)) .eod last) b).cash := by
    intro lots
    induction lots with
    | nil => exact fun _ h => h
    | cons lot lots ih =>
      intro b hsound hcash
      rw [List.foldl_cons]
      exact ih (fun l hl => hsound l (List.mem_cons_of_mem _ hl))
        (closeLot_cash hs hcash (hsound lot List.mem_cons_self) hexit .eod last)
  exact hall b.lots h.sound h.cash

theorem endBar_le (s : Setting) (o : Ohlc) : s.endBar o ≤ o.closes.length := by
  unfold Setting.endBar
  split
  · exact le_refl _
  · omega

theorem closedBook_cash (hs : s.Admitted) (ho : Priced o) (take : ℕ → Bool)
    (h : ¬ s.endBar o ≤ s.tradeStart) : 0 ≤ (closedBook s o take).cash := by
  have hlast : s.endBar o - 1 < o.closes.length := by
    have := endBar_le s o
    omega
  exact closeWindow_cash hs (barsFrom_solvent hs take _) (ho.close_pos hlast)

end

/-! ## The extremes -/

/-- The cash and the marked lots right after each entry. -/
def entryPoints (log : List Event) : List (ℚ × ℚ) :=
  log.filterMap fun e => match e with
    | .opened _ cash notional => some (cash, notional)
    | .closed _ _ _ _ => none

@[simp] theorem entryPoints_opened (log : List Event) (lot : Lot) (cash notional : ℚ) :
    entryPoints (log ++ [.opened lot cash notional]) = entryPoints log ++ [(cash, notional)] := by
  simp [entryPoints]

@[simp] theorem entryPoints_closed (log : List Event) (lot : Lot) (exitPx : ℚ) (hit : Hit)
    (i : ℕ) : entryPoints (log ++ [.closed lot exitPx hit i]) = entryPoints log := by
  simp [entryPoints]

/-- The part of the equity that is in lots at an entry point. -/
def notionalFrac (p : ℚ × ℚ) : ℚ := p.2 / (p.1 + p.2)

/-- The two numbers are the extremes over the entry points. -/
structure AtExtremes (points : List (ℚ × ℚ)) (minCash maxNotionalFrac : ℚ) : Prop where
  least : IsLeast {c | ∃ p ∈ points, c = p.1} minCash
  greatest : IsGreatest {f | ∃ p ∈ points, f = notionalFrac p} maxNotionalFrac

/-- A book that has bought nothing. -/
structure Untouched (s : Setting) (b : Book) : Prop where
  points : entryPoints b.log = []
  lots : b.lots = []
  cash : b.cash = s.startCash
  minCash : b.minCash = s.startCash
  maxNotionalFrac : b.maxNotionalFrac = 0

/-- The extremes of a book are those of its entries, as soon as there is one. -/
def Extremes (s : Setting) (b : Book) : Prop :=
  Untouched s b ∨ AtExtremes (entryPoints b.log) b.minCash b.maxNotionalFrac

theorem values_concat (points : List (ℚ × ℚ)) (p : ℚ × ℚ) (f : ℚ × ℚ → ℚ) :
    {c | ∃ q ∈ points ++ [p], c = f q} = insert (f p) {c | ∃ q ∈ points, c = f q} := by
  ext c
  simp only [List.mem_append, List.mem_singleton, Set.mem_ofPred_eq, Set.mem_insert_iff]
  constructor
  · rintro ⟨q, hq | rfl, rfl⟩
    · exact Or.inr ⟨q, hq, rfl⟩
    · exact Or.inl rfl
  · rintro (rfl | ⟨q, hq, rfl⟩)
    · exact ⟨p, Or.inr rfl, rfl⟩
    · exact ⟨q, Or.inl hq, rfl⟩

/-- One more entry point moves both extremes to it where it is beyond them. -/
theorem AtExtremes.concat {points : List (ℚ × ℚ)} {m f : ℚ} (h : AtExtremes points m f)
    (p : ℚ × ℚ) : AtExtremes (points ++ [p]) (min m p.1) (max f (notionalFrac p)) where
  least := by
    rw [values_concat points p Prod.fst, min_comm]
    exact h.least.insert p.1
  greatest := by
    rw [values_concat points p notionalFrac, max_comm]
    exact h.greatest.insert (notionalFrac p)

/-- The first entry point is both extremes. -/
theorem AtExtremes.first (p : ℚ × ℚ) : AtExtremes [p] p.1 (notionalFrac p) where
  least := ⟨⟨p, List.mem_singleton_self p, rfl⟩, by
    rintro c ⟨q, hq, rfl⟩
    rw [List.mem_singleton.mp hq]⟩
  greatest := ⟨⟨p, List.mem_singleton_self p, rfl⟩, by
    rintro c ⟨q, hq, rfl⟩
    rw [List.mem_singleton.mp hq]⟩

/-- What the extremes are read from. -/
structure SameEntries (b b' : Book) : Prop where
  points : entryPoints b'.log = entryPoints b.log
  minCash : b'.minCash = b.minCash
  maxNotionalFrac : b'.maxNotionalFrac = b.maxNotionalFrac

theorem SameEntries.trans {b b' b'' : Book} (h : SameEntries b b') (h' : SameEntries b' b'') :
    SameEntries b b'' :=
  ⟨h'.points.trans h.points, h'.minCash.trans h.minCash,
    h'.maxNotionalFrac.trans h.maxNotionalFrac⟩

section
variable {s : Setting} {o : Ohlc}

theorem closeLot_sameEntries (b : Book) (lot : Lot) (exitPx : ℚ) (hit : Hit) (i : ℕ) :
    SameEntries b (b.closeLot s lot exitPx hit i) :=
  ⟨by rw [closeLot_log, entryPoints_closed], rfl, rfl⟩

theorem exitPass_sameEntries {low high : ℚ} {i : ℕ} (lots : List Lot) :
    ∀ p : ExitPass, SameEntries p.book (lots.foldl (ExitPass.step s low high i) p).book := by
  induction lots with
  | nil => exact fun _ => ⟨rfl, rfl, rfl⟩
  | cons lot lots ih =>
    intro p
    rw [List.foldl_cons]
    refine SameEntries.trans ?_ (ih _)
    unfold ExitPass.step
    cases exitOf s low high lot with
    | none => exact ⟨rfl, rfl, rfl⟩
    | some e => exact closeLot_sameEntries p.book lot e.1 e.2 i

theorem markBar_sameEntries (b : Book) (cur : ℚ) (i tradeStart : ℕ) :
    SameEntries b (b.markBar s cur i tradeStart) := by
  unfold Book.markBar
  dsimp only
  split <;> exact ⟨rfl, rfl, rfl⟩

theorem beforeEntry_sameEntries (b : Book) (tradeStart i : ℕ) :
    SameEntries b (b.beforeEntry s o tradeStart i) := by
  have hpass : SameEntries b
      (b.lots.foldl (ExitPass.step s (lowAt o i) (highAt o i) i) { book := b }).book :=
    exitPass_sameEntries b.lots { book := b }
  have hexit : SameEntries b (b.exitLots s (lowAt o i) (highAt o i) i).1 :=
    ⟨hpass.points, hpass.minCash, hpass.maxNotionalFrac⟩
  exact hexit.trans (markBar_sameEntries ..)

theorem closeWindow_sameEntries (b : Book) (last : ℕ) :
    SameEntries b (b.closeWindow s o last) := by
  have hall : ∀ (lots : List Lot) (b : Book), SameEntries b (lots.foldl (fun b lot =>
      b.closeLot s lot (closeAt o last * (1 - s.slippage)) .eod last) b) := by
    intro lots
    induction lots with
    | nil => exact fun _ => ⟨rfl, rfl, rfl⟩
    | cons lot lots ih =>
      intro b
      rw [List.foldl_cons]
      exact (closeLot_sameEntries ..).trans (ih _)
  obtain ⟨hpoints, hmin, hmax⟩ := hall b.lots b
  exact ⟨hpoints, hmin, hmax⟩

/-- With nothing bought there is nothing to sell. -/
theorem Untouched.beforeEntry {b : Book} (h : Untouched s b) (tradeStart i : ℕ) :
    Untouched s (b.beforeEntry s o tradeStart i) := by
  have hexit : b.exitLots s (lowAt o i) (highAt o i) i = ({ b with lots := [] }, false) := by
    unfold Book.exitLots
    rw [h.lots]
    rfl
  obtain ⟨hsame, hlots⟩ := markBar_same (b.exitLots s (lowAt o i) (highAt o i) i).1 s
    (closeAt o i) i tradeStart
  obtain ⟨hpoints, hmin, hmax⟩ := beforeEntry_sameEntries (s := s) (o := o) b tradeStart i
  refine ⟨hpoints.trans h.points, ?_, ?_, hmin.trans h.minCash, hmax.trans h.maxNotionalFrac⟩
  · unfold Book.beforeEntry
    rw [hlots, hexit]
  · unfold Book.beforeEntry
    rw [hsame.cash, hexit]
    exact h.cash

theorem Extremes.beforeEntry {b : Book} (h : Extremes s b) (tradeStart i : ℕ) :
    Extremes s (b.beforeEntry s o tradeStart i) := by
  rcases h with huntouched | hat
  · exact Or.inl (huntouched.beforeEntry tradeStart i)
  · obtain ⟨hpoints, hmin, hmax⟩ := beforeEntry_sameEntries (s := s) (o := o) b tradeStart i
    refine Or.inr ?_
    rw [hpoints, hmin, hmax]
    exact hat

/-- An entry that leaves equity is compared with both extremes; the first is
below the starting cash and above no notional at all. -/
theorem Extremes.openLot {b : Book} {cur stop qty : ℚ} (hs : s.Admitted) (h : Extremes s b)
    (hb : Solvent b) (hok : EntryOk b s cur stop qty) (i : ℕ) :
    Extremes s (b.openLot s cur stop qty i) := by
  have hcur : 0 < cur := hok.stop_pos.trans hok.stop_lt
  have hcash : 0 ≤ (b.openLot s cur stop qty i).cash := (openLot_solvent hs hb hok i).cash
  have hlots : (b.openLot s cur stop qty i).lots = b.lots ++
      [{ qty := qty, entry := cur * (1 + s.slippage), stop := stop, opened := i }] := rfl
  have hheld : 0 ≤ notionalAt b.lots cur := by
    refine List.sum_nonneg fun x hx => ?_
    obtain ⟨lot, hlot, rfl⟩ := List.mem_map.mp hx
    exact mul_nonneg (hb.sound lot hlot).qty_pos.le hcur.le
  have hnotional : 0 < notionalAt (b.openLot s cur stop qty i).lots cur := by
    unfold notionalAt at hheld ⊢
    rw [hlots, List.map_append, List.sum_append, List.map_singleton, List.sum_singleton]
    exact add_pos_of_nonneg_of_pos hheld (mul_pos hok.qty_pos hcur)
  have heq : 0 < (b.openLot s cur stop qty i).cash +
      notionalAt (b.openLot s cur stop qty i).lots cur := add_pos_of_nonneg_of_pos hcash hnotional
  have hfrac : 0 < notionalFrac ((b.openLot s cur stop qty i).cash,
      notionalAt (b.openLot s cur stop qty i).lots cur) := div_pos hnotional heq
  have hpoints : entryPoints (b.openLot s cur stop qty i).log = entryPoints b.log ++
      [((b.openLot s cur stop qty i).cash, notionalAt (b.openLot s cur stop qty i).lots cur)] :=
    entryPoints_opened ..
  have hmin : (b.openLot s cur stop qty i).minCash =
      min b.minCash (b.openLot s cur stop qty i).cash := rfl
  have hmax : (b.openLot s cur stop qty i).maxNotionalFrac = max b.maxNotionalFrac
      (notionalFrac ((b.openLot s cur stop qty i).cash,
        notionalAt (b.openLot s cur stop qty i).lots cur)) := if_pos heq
  refine Or.inr ?_
  rw [hpoints, hmin, hmax]
  rcases h with huntouched | hat
  · have hspent : (b.openLot s cur stop qty i).cash ≤ b.minCash := by
      rw [openLot_cash, huntouched.minCash, huntouched.cash]
      have hcost : 0 ≤ qty * cur * s.costMult :=
        mul_nonneg (mul_nonneg hok.qty_pos.le hcur.le) (zero_le_one.trans (costMult_ge_one hs))
      linarith
    rw [huntouched.points, List.nil_append, min_eq_right hspent, huntouched.maxNotionalFrac,
      max_eq_right hfrac.le]
    exact AtExtremes.first _
  · exact hat.concat _

theorem extremes_barsFrom (hs : s.Admitted) (take : ℕ → Bool) (k : ℕ) :
    Extremes s (barsFrom s o take k) := by
  induction k with
  | zero => exact Or.inl ⟨rfl, rfl, rfl, rfl, rfl⟩
  | succ k ih =>
    have hsolvent : Solvent (barsFrom s o take k) := barsFrom_solvent hs take k
    unfold barsFrom at ih hsolvent ⊢
    rw [List.range'_concat, List.foldl_append]
    set b := (List.range' s.tradeStart k).foldl (barStep s o take s.tradeStart) (Book.init s)
    rw [List.foldl_cons, List.foldl_nil]
    unfold barStep
    dsimp only
    split
    · exact ih.beforeEntry _ _
    next hentry =>
      exact (ih.beforeEntry _ _).openLot hs (beforeEntry_solvent hs hsolvent)
        (entryAt_spec hs hentry) _

/-- Once a lot was bought, the extremes of the closed window are those of the
entries. -/
theorem extremes_closedBook (hs : s.Admitted) (take : ℕ → Bool)
    (h : entryPoints (closedBook s o take).log ≠ []) :
    AtExtremes (entryPoints (closedBook s o take).log) (closedBook s o take).minCash
      (closedBook s o take).maxNotionalFrac := by
  obtain ⟨hpoints, hmin, hmax⟩ := closeWindow_sameEntries (s := s) (o := o)
    (barsFrom s o take (s.endBar o - s.tradeStart)) (s.endBar o - 1)
  have hclosed : entryPoints (closedBook s o take).log =
      entryPoints (barsFrom s o take (s.endBar o - s.tradeStart)).log := hpoints
  have hclosedMin : (closedBook s o take).minCash =
      (barsFrom s o take (s.endBar o - s.tradeStart)).minCash := hmin
  have hclosedMax : (closedBook s o take).maxNotionalFrac =
      (barsFrom s o take (s.endBar o - s.tradeStart)).maxNotionalFrac := hmax
  rw [hclosed] at h ⊢
  rw [hclosedMin, hclosedMax]
  rcases extremes_barsFrom (o := o) hs take (s.endBar o - s.tradeStart) with huntouched | hat
  · exact absurd huntouched.points h
  · exact hat

end

/-! ## The backtest -/

/-- Cash never goes below zero. After every scored bar, and before the entry of
every bar, the lots are worth at most the equity at any price, are at most three
and have their stops below their entries; what the backtest ends with is not
negative; and once a lot was bought the two extremes it reports are those of the
points right after the entries. -/
theorem backtest_never_borrows {s : Setting} (hs : s.Admitted) {o : Ohlc} (ho : Priced o)
    (take : ℕ → Bool) :
    (∀ k, Solvent (barsFrom s o take k)) ∧
    (∀ k, Solvent ((barsFrom s o take k).beforeEntry s o s.tradeStart (s.tradeStart + k))) ∧
    0 ≤ (backtest s o take).finalEquity ∧
    (entryPoints (logOf s o take) ≠ [] →
      AtExtremes (entryPoints (logOf s o take)) (backtest s o take).minCash
        (backtest s o take).maxNotionalFrac) := by
  refine ⟨barsFrom_solvent hs take, fun k => beforeEntry_solvent hs (barsFrom_solvent hs take k),
    ?_, ?_⟩
  · unfold backtest
    split
    · exact hs.cash_nonneg
    next h => exact closedBook_cash hs ho take h
  · unfold logOf backtest
    split
    · exact fun h => absurd rfl h
    · exact extremes_closedBook hs take

/-- Twenty-four bars at 100, a rise and a fall through the stops. -/
def riseAndFall : Ohlc :=
  { closes := List.replicate 24 100 ++ [101, 80]
    highs := List.replicate 24 100 ++ [101, 101]
    lows := List.replicate 24 100 ++ [100, 80]
    highs_length := rfl
    lows_length := rfl }

/-- Two lots are bought there. -/
theorem backtest_never_borrows_riseAndFall :
    (entryPoints (logOf { longStack := 7 } riseAndFall fun _ => true)).length = 2 ∧
    (∀ k, Solvent (barsFrom { longStack := 7 } riseAndFall (fun _ => true) k)) ∧
    0 ≤ (backtest { longStack := 7 } riseAndFall fun _ => true).finalEquity ∧
    AtExtremes (entryPoints (logOf { longStack := 7 } riseAndFall fun _ => true))
      (backtest { longStack := 7 } riseAndFall fun _ => true).minCash
      (backtest { longStack := 7 } riseAndFall fun _ => true).maxNotionalFrac := by
  have hs : Setting.Admitted { longStack := 7 } :=
    ⟨by decide +kernel, by decide +kernel, by decide +kernel, by decide +kernel,
      by decide +kernel, by decide +kernel⟩
  have ho : Priced riseAndFall := by
    unfold Priced
    decide +kernel
  have htwo : (entryPoints (logOf { longStack := 7 } riseAndFall fun _ => true)).length = 2 := by
    decide +kernel
  obtain ⟨hsolvent, -, hfinal, hextremes⟩ := backtest_never_borrows hs ho fun _ => true
  refine ⟨htwo, hsolvent, hfinal, hextremes fun h => ?_⟩
  rw [h] at htwo
  exact absurd htwo (by decide)

end PaperTrading.Backtest
