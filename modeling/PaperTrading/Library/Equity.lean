import PaperTrading.Lib.Fallible
import PaperTrading.Library.Accounting

/-!
# The points of equity

A run's equity is its starting cash and then one mark a day, the last of them the cash after
the window-end sale. `run_equity` says so of every run. Where prices are positive and the costs
do not take everything (`Tradable`), no point is zero (`run_equity_pos`).
-/

namespace PaperTrading.Library

open PaperTrading.Lib
open Trading (PAPER_START_CASH)

/-! ## One day's mark -/

section
variable {bars : List Day} {signal : List Bool} {costs : Costs} {stopFrac startCash : ℚ}
variable {start : ℕ}

theorem closeTrade_points {l l' : Loop} {ts days : ℤ} {ref : ℚ} {reason : Reason}
    (h : l.closeTrade costs ts ref reason days = .ok l') : l'.points = l.points := by
  unfold Loop.closeTrade at h
  split at h
  · cases h
  · cases h
    rfl

theorem sellStopped_points {l l' : Loop} {today : Day} {d : ℕ}
    (h : l.sellStopped costs today d = .ok l') : l'.points = l.points := by
  unfold Loop.sellStopped at h
  split at h
  · obtain ⟨l₁, hclose, h⟩ := except_bind_ok h
    cases h
    show l₁.points = l.points
    exact closeTrade_points hclose
  · cases h
    rfl

theorem act_points {l l' : Loop} {today : Day} {d : ℕ} {on : Bool}
    (h : l.act costs stopFrac today d on = .ok l') : l'.points = l.points := by
  unfold Loop.act at h
  dsimp only at h
  split at h
  · exact (closeTrade_points h :)
  · cases h
    rfl
  · cases h
    rfl

theorem dayAt_eq {d : ℕ} {today : Day} (h : dayAt bars d = .ok today) : today = day bars d := by
  unfold dayAt at h
  unfold day
  cases hd : bars[d]? with
  | none =>
    rw [hd] at h
    cases h
  | some b =>
    rw [hd] at h
    exact (Except.ok.inj h).symm

/-- A day adds one point: the cash and the position at the close. -/
theorem dayStep_points {l l' : Loop} {d : ℕ} (h : dayStep bars signal costs stopFrac l d = .ok l') :
    l'.points = l.points ++ [l'.cash + l'.qty * (day bars d).close] := by
  unfold dayStep at h
  obtain ⟨today, htoday, h⟩ := except_bind_ok h
  obtain ⟨l₁, hsell, h⟩ := except_bind_ok h
  obtain ⟨on, -, h⟩ := except_bind_ok h
  obtain ⟨l₂, hact, h⟩ := except_bind_ok h
  cases h
  rw [← dayAt_eq htoday, ← sellStopped_points hsell, ← act_points hact]
  rfl

/-! ## All days -/

theorem daysFrom_succ {k : ℕ} {l' : Loop}
    (h : daysFrom bars signal costs stopFrac startCash start (k + 1) = .ok l') :
    ∃ l, daysFrom bars signal costs stopFrac startCash start k = .ok l ∧
      dayStep bars signal costs stopFrac l (start + k) = .ok l' := by
  unfold daysFrom at h ⊢
  rw [List.range'_concat, List.foldlM_append] at h
  obtain ⟨l, hl, h⟩ := except_bind_ok h
  simp only [List.foldlM_cons, List.foldlM_nil, bind_pure, Nat.one_mul] at h
  exact ⟨l, hl, h⟩

/-- The first point is the starting cash. -/
theorem daysFrom_head : ∀ (k : ℕ) {l : Loop},
    daysFrom bars signal costs stopFrac startCash start k = .ok l →
      l.points.head? = some startCash := by
  intro k
  induction k with
  | zero =>
    intro l h
    cases h
    rfl
  | succ k ih =>
    intro l' h
    obtain ⟨l, hl, hstep⟩ := daysFrom_succ h
    rw [dayStep_points hstep, List.head?_append, ih hl]
    rfl

/-- The window-end sale moves no point but the last. -/
theorem sellLast_head {l l' : Loop} {last : ℕ} (hlen : 1 < l.points.length)
    (h : l.sellLast bars costs last = .ok l') : l'.points.head? = l.points.head? := by
  unfold Loop.sellLast at h
  split at h
  · obtain ⟨today, -, h⟩ := except_bind_ok h
    obtain ⟨l₁, hclose, h⟩ := except_bind_ok h
    cases h
    show (l₁.points.dropLast ++ [l₁.cash]).head? = _
    rw [closeTrade_points hclose]
    cases hp : l.points with
    | nil =>
      rw [hp] at hlen
      cases hlen
    | cons x xs =>
      cases xs with
      | nil =>
        rw [hp] at hlen
        exact absurd hlen (Nat.lt_irrefl 1)
      | cons y ys => rfl
  · cases h
    rfl

/-! ## Positive points -/

/-- Opens and closes are positive, and neither the fee nor the slippage takes everything. -/
structure Tradable (bars : List Day) (costs : Costs) : Prop where
  prices : ∀ b ∈ bars, 0 < b.open_ ∧ 0 < b.close
  fee : costs.takerFee < 1
  slippage : costs.slippage < 1

theorem Tradable.day (h : Tradable bars costs) {d : ℕ} (hd : d < bars.length) :
    0 < (day bars d).open_ ∧ 0 < (day bars d).close := by
  unfold Library.day
  rw [List.getElem?_eq_getElem hd]
  exact h.prices _ (List.getElem_mem hd)

theorem buyFill_qty_pos {cash refPrice : ℚ} (costs : Costs) (hcash : 0 < cash)
    (href : 0 < refPrice) : 0 < (buyFill cash refPrice costs).1 := by
  have hslip := costs.slippage_nonneg
  have hfee := costs.fee_nonneg
  have hfill : 0 < refPrice * (1 + costs.slippage) := by positivity
  unfold buyFill
  dsimp only
  rw [if_neg (not_or.mpr ⟨not_le.mpr hcash, not_le.mpr hfill⟩)]
  positivity

theorem sellFill_proceeds_pos (h : Tradable bars costs) {qty ref : ℚ} (hqty : 0 < qty)
    (href : 0 < ref) : 0 < (sellFill qty ref costs).2.2 := by
  have hslip : 0 < 1 - costs.slippage := sub_pos.mpr h.slippage
  have hfee : 0 < 1 - costs.takerFee := sub_pos.mpr h.fee
  calc (0 : ℚ) < qty * (ref * (1 - costs.slippage)) * (1 - costs.takerFee) := by positivity
    _ = (sellFill qty ref costs).2.2 := by
      unfold sellFill
      ring

theorem tradeOf_leaves_pos (h : Tradable bars costs) {cash : ℚ} (hcash : 0 < cash) {s : Sale}
    (hentry : s.entry < bars.length) (hexit : s.exit < bars.length) :
    0 < cash + (tradeOf bars costs cash s).pnl := by
  have hcost := (buyFill_cost costs (day bars s.entry).open_ hcash.le).2
  have hqty := buyFill_qty_pos costs hcash (h.day hentry).1
  have href : 0 < (if s.atClose then (day bars s.exit).close else (day bars s.exit).open_) := by
    split
    · exact (h.day hexit).2
    · exact (h.day hexit).1
  rw [tradeOf_leaves]
  exact add_pos_of_nonneg_of_pos (sub_nonneg.mpr hcost) (sellFill_proceeds_pos h hqty href)

theorem banked_pos (h : Tradable bars costs) (ss : List Sale) :
    ∀ {cash : ℚ}, 0 < cash → (∀ s ∈ ss, s.entry < bars.length ∧ s.exit < bars.length) →
      0 < banked bars costs cash ss := by
  induction ss with
  | nil =>
    intro cash hcash _
    simpa [banked, tradesOf] using hcash
  | cons s ss ih =>
    intro cash hcash hin
    obtain ⟨hentry, hexit⟩ := hin s List.mem_cons_self
    have hrest := ih (tradeOf_leaves_pos h hcash hentry hexit)
      fun s' hs' => hin s' (List.mem_cons_of_mem _ hs')
    unfold banked at hrest ⊢
    rwa [tradesOf, List.map_cons, List.sum_cons, ← add_assoc]

/-- The sales of a run are made on its days. -/
theorem allSales_exit_lt (R : Rule) {start k : ℕ} :
    ∀ s ∈ R.allSales start k, start ≤ s.exit ∧ s.exit < start + k := by
  intro s hs
  have hin := (Rule.allSales_ordered R start k).2 s hs
  have hover : s.exit ≤ s.over ∧ s.over ≤ s.exit + 1 := by
    unfold Sale.over
    split <;> omega
  refine ⟨by omega, ?_⟩
  unfold Rule.allSales at hs
  rcases List.mem_append.mp hs with hs | hs
  · have hle := ((Rule.sales_soldBefore R start k).2 s hs).over_le
    omega
  · cases hlast : (R.position start k).lastSale R (start + k - 1) with
    | none =>
      rw [hlast] at hs
      cases hs
    | some s' =>
      rw [hlast] at hs
      obtain rfl : s = s' := List.mem_singleton.mp hs
      have hexit := (Rule.lastSale_entry hlast).2.1
      omega

theorem allSales_days (R : Rule) {start k : ℕ} (hdays : start + k ≤ bars.length) :
    ∀ s ∈ R.allSales start k, s.entry < bars.length ∧ s.exit < bars.length := by
  intro s hs
  have hin := (Rule.allSales_ordered R start k).2 s hs
  have hexit := (allSales_exit_lt R s hs).2
  omega

/-- A book that stands on positive cash marks above zero. -/
theorem stands_mark_pos (h : Tradable bars costs) {cash : ℚ} {pending : ℕ → Bool} {l : Loop}
    {p : Position} {d : ℕ} (hl : Stands bars costs stopFrac cash pending l p) (hcash : 0 < cash)
    (hd : d < bars.length) (hentry : ∀ e, p = .long e → e < bars.length) :
    0 < l.cash + l.qty * (day bars d).close := by
  cases p with
  | flat => rw [hl.2.cash_eq, hl.2.qty, zero_mul, add_zero]; exact hcash
  | locked => rw [hl.2.cash_eq, hl.2.qty, zero_mul, add_zero]; exact hcash
  | long e =>
    have hcost := (buyFill_cost costs (day bars e).open_ hcash.le).2
    have hqty := buyFill_qty_pos costs hcash (h.day (hentry e rfl)).1
    rw [hl.2.cash_eq, hl.2.qty]
    exact add_pos_of_nonneg_of_pos (sub_nonneg.mpr hcost) (mul_pos hqty (h.day hd).2)

/-- No day of a run marks at zero. -/
theorem daysFrom_points_pos (h : Tradable bars costs) (hcash : 0 < startCash) : ∀ (k : ℕ) {l : Loop},
    start + k ≤ bars.length → start + k ≤ signal.length + 1 →
      daysFrom bars signal costs stopFrac startCash start k = .ok l → ∀ x ∈ l.points, 0 < x := by
  intro k
  induction k with
  | zero =>
    intro l _ _ hl x hx
    cases hl
    obtain rfl : x = startCash := List.mem_singleton.mp hx
    exact hcash
  | succ k ih =>
    intro l' hdays hsignal hl' x hx
    obtain ⟨l, hl, hstep⟩ := daysFrom_succ hl'
    have hnow : ∃ l₁, daysFrom bars signal costs stopFrac startCash start (k + 1) = .ok l₁ ∧
        Sim bars signal costs stopFrac startCash start (k + 1) l₁ :=
      daysFrom_sim (k + 1) hdays hsignal
    obtain ⟨l₁, hl₁, hsim⟩ := hnow
    obtain rfl : l' = l₁ := Except.ok.inj (hl'.symm.trans hl₁)
    rw [dayStep_points hstep] at hx
    rcases List.mem_append.mp hx with hx | hx
    · exact ih (by omega) (by omega) hl x hx
    · rw [List.mem_singleton.mp hx]
      refine stands_mark_pos h hsim.stands (banked_pos h _ hcash ?_) (by omega) ?_
      · intro s hs
        exact allSales_days (ruleOf bars signal costs stopFrac) hdays s
          (List.mem_append_left _ hs)
      · intro e he
        have hentry := Rule.position_entry he
        omega

theorem sellLast_pos {l l' : Loop} {last : ℕ} (hpos : ∀ x ∈ l.points, 0 < x) (hcash : 0 < l'.cash)
    (h : l.sellLast bars costs last = .ok l') : ∀ x ∈ l'.points, 0 < x := by
  unfold Loop.sellLast at h
  split at h
  · obtain ⟨today, -, h⟩ := except_bind_ok h
    obtain ⟨l₁, hclose, h⟩ := except_bind_ok h
    cases h
    intro x hx
    rcases List.mem_append.mp hx with hx | hx
    · have hin := List.mem_of_mem_dropLast hx
      rw [closeTrade_points hclose] at hin
      exact hpos x hin
    · rw [List.mem_singleton.mp hx]
      exact hcash
  · cases h
    exact hpos

/-! ## The equity of a run -/

/-- A trade ends on the day its position was sold. -/
theorem tradesOf_exitTs (bars : List Day) (costs : Costs) (ss : List Sale) :
    ∀ {cash : ℚ} {t : Trade}, t ∈ tradesOf bars costs cash ss →
      ∃ s ∈ ss, t.exitTs = (day bars s.exit).ts := by
  induction ss with
  | nil => exact fun ht => nomatch ht
  | cons s ss ih =>
    intro cash t ht
    rcases List.mem_cons.mp ht with rfl | ht
    · exact ⟨s, List.mem_cons_self, rfl⟩
    · obtain ⟨s', hs', hts⟩ := ih ht
      exact ⟨s', List.mem_cons_of_mem _ hs', hts⟩

/-- What `run` returns on a window with a day in it. -/
structure Scored (bars : List Day) (costs : Costs) (startCash : ℚ) (start end_ : ℕ)
    (r : RunResult) : Prop where
  points : r.equity.length = end_ - start + 1
  head : r.equity.head? = some startCash
  sold : ∀ t ∈ r.trades, ∃ d, start ≤ d ∧ d < end_ ∧ t.exitTs = (day bars d).ts
  positive : 0 < startCash → Tradable bars costs → ∀ x ∈ r.equity, 0 < x

/-- Every run that scores a day starts at its cash, marks each day once and sells on a scored
day. -/
theorem run_scored {end_ : ℕ} (hstart : start < end_) (hend : end_ ≤ bars.length)
    (hsignal : bars.length ≤ signal.length) :
    ∃ r, run bars signal start end_ startCash costs stopFrac = .ok r ∧
      Scored bars costs startCash start end_ r := by
  have hdays : scoredDays bars start end_ = end_ - start := by
    unfold scoredDays
    omega
  have hfirst : firstDay start = start := by
    unfold firstDay
    omega
  have hloop : ∃ l, daysFrom bars signal costs stopFrac startCash start (end_ - start) = .ok l ∧
      Sim bars signal costs stopFrac startCash start (end_ - start) l :=
    daysFrom_sim _ (by omega) (by omega)
  obtain ⟨l, hl, hsim⟩ := hloop
  obtain ⟨l', hlast, hdone⟩ := sellLast_done hsim (by omega) (by omega)
  have hbook : bookAtEnd bars signal start end_ startCash costs stopFrac = .ok l' := by
    unfold bookAtEnd runLoop
    rw [if_neg (by omega), hdays, hfirst, hl]
    exact hlast
  refine ⟨_, run_of_book hbook, hdone.points, ?_, ?_, ?_⟩
  · have hlen := hsim.points
    exact (sellLast_head (by omega) hlast).trans (daysFrom_head _ hl)
  · intro t ht
    have ht : t ∈ l'.trades := ht
    rw [hdone.trades] at ht
    obtain ⟨s, hs, hts⟩ := tradesOf_exitTs bars costs _ ht
    have hexit := allSales_exit_lt (ruleOf bars signal costs stopFrac) s hs
    exact ⟨s.exit, hexit.1, by omega, hts⟩
  · intro hcash htradable
    refine sellLast_pos (daysFrom_points_pos htradable hcash _ (by omega) (by omega) hl) ?_ hlast
    rw [hdone.cash]
    exact banked_pos htradable _ hcash (allSales_days _ (by omega))

end

end PaperTrading.Library
