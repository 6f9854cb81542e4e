import Mathlib.Algebra.Order.BigOperators.Group.List
import PaperTrading.Fund.Construction
import PaperTrading.Fund.Execution

/-!
# A cycle of the fund

`run_cycle` of `pipeline/run_cycle.py`: the marks, the sleeves of the strategies, the netted
targets, the limits, the orders and their fills. The book and the broker are those of the
simulated broker, in exact arithmetic; what the data client returns and what the models predict
are parameters.

`run_cycle_conserves` says of every cycle that returns that the value of the book is what it was,
that the book is the targets' and inside the limits, and that an unlevered fund that starts with
cash never runs out of it. A fund that starts in debt may still be in debt between two sells
(`in_debt`).
-/

namespace PaperTrading.Fund

open PaperTrading.Lib

/-! ## The mandate -/

structure ModelSpec where
  name : Text
  weight : ℚ
  weight_pos : 0 < weight

structure BlendPolicy where
  grossTarget : ℚ
  marketNeutral : Bool
  gross_pos : 0 < grossTarget

structure StrategySpec where
  name : Text
  weight : ℚ
  models : List ModelSpec
  blend : BlendPolicy
  weight_pos : 0 < weight
  models_ne : models ≠ []

/-- `model_weights` -/
def StrategySpec.modelWeights (s : StrategySpec) : Dict Text ℚ :=
  s.models.foldl (fun d m => d.set m.name m.weight) Dict.empty

structure FundSpec where
  name : Text
  strategies : List StrategySpec
  risk : RiskLimits
  strategies_ne : strategies ≠ []
  names_nodup : (strategies.map StrategySpec.name).Nodup

/-- `predict` of a model: its signal on a ticker as of a day. -/
abbrev AlphaModel := Text → Text → Signal

/-- A mandate and the models of each of its strategies. -/
structure LivingFund where
  spec : FundSpec
  staff : Text → List AlphaModel

/-- `ticker.strip().upper()`, of a ticker in ASCII. -/
def normalized (ticker : Text) : Text := (strip ticker).map Char.toUpper

/-- `normalize_universe` -/
def normalizeUniverse (tickers : List Text) : Except CycleError (List Text) :=
  let names := tickers.foldl (fun names t =>
    if normalized t ≠ [] ∧ normalized t ∉ names then names ++ [normalized t] else names) []
  if names = [] then .error .emptyUniverse else .ok names

/-! ## Marks -/

structure PriceBar where
  time : Text
  close : ℚ

structure TickerSkip where
  ticker : Text
  reason : Text

/-- `max(bars, key=lambda p: p.time)` as it goes. -/
def laterBar (best : Option PriceBar) (p : PriceBar) : Option PriceBar :=
  match best with
  | none => some p
  | some b => if b.time < p.time then some p else some b

/-- The last close on the day or before. -/
def lastClose (asOf : Text) (bars : List PriceBar) : Option ℚ :=
  ((bars.filter fun p => ¬ asOf < p.time.take 10).foldl laterBar none).map PriceBar.close

/-- A turn of the loop of `_mark_prices`. -/
def markOne (asOf : Text) (held : Dict Text ℤ) (prices : Text → List PriceBar)
    (acc : Dict Text ℚ × List TickerSkip) (ticker : Text) :
    Except CycleError (Dict Text ℚ × List TickerSkip) :=
  match lastClose asOf (prices ticker) with
  | some close => .ok (acc.1.set ticker close, acc.2)
  | none =>
    if (held.get? ticker).isSome then .error (.unpriced ticker)
    else .ok (acc.1, acc.2 ++ [⟨ticker, "no close within 7 days of ".toList ++ asOf⟩])

/-- `_mark_prices` -/
def markPrices (tickers : List Text) (asOf : Text) (held : Dict Text ℤ)
    (prices : Text → List PriceBar) : Except CycleError (Dict Text ℚ × List TickerSkip) :=
  tickers.foldlM (markOne asOf held prices) (Dict.empty, [])

/-! ## Sleeves -/

structure StrategyRecord where
  name : Text
  slice : ℚ
  signals : List Signal
  convictions : Dict Text ℚ
  weights : Dict Text ℚ

/-- `netted[ticker] += slice_ * weight` over the weights of a sleeve. -/
def addSleeve (slice : ℚ) (netted weights : Dict Text ℚ) : Except CycleError (Dict Text ℚ) :=
  weights.entries.foldlM (fun netted e =>
    match netted.get? e.1 with
    | none => .error (.keyError e.1)
    | some w => .ok (netted.set e.1 (w + slice * e.2))) netted

/-- A turn of the loop over the strategies. -/
def runStrategy (fund : LivingFund) (asOf : Text) (tradeable : List Text)
    (acc : List StrategyRecord × Dict Text ℚ) (strategy : StrategySpec) :
    Except CycleError (List StrategyRecord × Dict Text ℚ) := do
  let signals := tradeable.flatMap fun t => (fund.staff strategy.name).map fun m => m t asOf
  let blend ← (blendSignals signals strategy.modelWeights strategy.blend.grossTarget
    strategy.blend.marketNeutral).mapError .keyError
  let slice := strategy.weight / (fund.spec.strategies.map StrategySpec.weight).sum
  let netted ← addSleeve slice acc.2 blend.weights
  return (acc.1 ++ [⟨strategy.name, slice, signals, blend.convictions, blend.weights⟩], netted)

/-! ## The cycle -/

structure CycleRecord where
  fund : Text
  asOf : Text
  spec : FundSpec
  tickers : List Text
  marks : Dict Text ℚ
  skipped : List TickerSkip
  strategies : List StrategyRecord
  targetWeights : Dict Text ℚ
  clamps : List ClampEvent
  finalWeights : Dict Text ℚ
  equityBefore : ℚ
  cashBefore : ℚ
  orders : List Order
  fills : List Fill
  positions : Dict Text ℤ
  cash : ℚ
  nav : ℚ

/-- `run_cycle` with a `SimBroker`: the record and the broker after it. -/
def runCycle (fund : LivingFund) (asOf : Text) (broker : SimBroker) (prices : Text → List PriceBar)
    (tickers : List Text) : Except CycleError (CycleRecord × SimBroker) := do
  let names ← normalizeUniverse tickers
  let held := broker.positions
  let marked ← markPrices (sortedSet (names ++ held.keys)) asOf held prices
  let equityBefore := broker.value marked.1
  if equityBefore ≤ 0 then throw (.noEquity equityBefore)
  else do
    let tradeable := (names.filter fun t => (marked.1.get? t).isSome)
    let flat := tradeable.foldl (fun d t => d.set t 0) Dict.empty
    let netted ← fund.spec.strategies.foldlM (runStrategy fund asOf tradeable) ([], flat)
    let risk := applyLimits netted.2 fund.spec.risk
    let orders ← buildOrders risk.weights held marked.1 equityBefore
    let placed ← broker.placeAll orders
    return ({
      fund := fund.spec.name
      asOf := asOf
      spec := fund.spec
      tickers := names
      marks := marked.1
      skipped := marked.2
      strategies := netted.1
      targetWeights := netted.2
      clamps := risk.clamps
      finalWeights := risk.weights
      equityBefore := equityBefore
      cashBefore := broker.cash
      orders := orders
      fills := placed.2
      positions := placed.1.positions
      cash := placed.1.cash
      nav := placed.1.value marked.1 }, placed.1)

/-! ## The book after the orders -/

section
variable {weights marks : Dict Text ℚ} {equity : ℚ} {broker after : SimBroker}
variable {orders : List Order} {fills : List Fill}

/-- What a book of one name is worth of its target. -/
theorem target_value (weights : Dict Text ℚ) {t : Text} (hmark : SimBroker.markOf marks t ≠ 0) (hequity : 0 < equity) :
    |(targetOf weights marks equity t : ℚ) * SimBroker.markOf marks t| ≤
        |weightIn weights t| * equity ∧
      0 ≤ (targetOf weights marks equity t : ℚ) * SimBroker.markOf marks t * weightIn weights t := by
  have hworth : weightIn weights t * equity / SimBroker.markOf marks t *
      SimBroker.markOf marks t = weightIn weights t * equity := div_mul_cancel₀ _ hmark
  obtain ⟨hsize, hsign⟩ :=
    truncate_toward_zero (weightIn weights t * equity / SimBroker.markOf marks t)
  unfold targetOf targetShares
  refine ⟨?_, ?_⟩
  · rw [abs_mul]
    calc _ ≤ |weightIn weights t * equity / SimBroker.markOf marks t| * |SimBroker.markOf marks t| :=
          mul_le_mul_of_nonneg_right hsize (abs_nonneg _)
      _ = |weightIn weights t| * equity := by
          rw [← abs_mul, hworth, abs_mul, abs_of_pos hequity]
  · -- the weight has the sign of the quotient times the mark
    have hscaled := mul_nonneg hsign (mul_self_nonneg (SimBroker.markOf marks t))
    have hweight : 0 ≤ (truncate (weightIn weights t * equity / SimBroker.markOf marks t) : ℚ) *
        SimBroker.markOf marks t * weightIn weights t * equity := by
      calc (0 : ℚ) ≤ _ := hscaled
        _ = (truncate (weightIn weights t * equity / SimBroker.markOf marks t) : ℚ) *
            SimBroker.markOf marks t * (weightIn weights t * equity / SimBroker.markOf marks t *
              SimBroker.markOf marks t) := by ring
        _ = _ := by rw [hworth]; ring
    exact nonneg_of_mul_nonneg_left hweight hequity

section
variable (hplan : Rebalances weights marks broker.positions equity orders)
variable (hplaced : broker.placeAll orders = .ok (after, fills))
include hplan hplaced

/-- Every name is at its target and no other is held. -/
theorem shares_after (t : Text) : after.sharesOf t =
    if t ∈ tradedNames weights broker.positions then targetOf weights marks equity t else 0 := by
  rw [(SimBroker.placeAll_ok hplaced).2.2 t, hplan.moved, SimBroker.positions_getD]
  split
  · ring
  next hnot =>
    have hzero : broker.sharesOf t = 0 := by
      by_contra hne
      exact hnot (mem_tradedNames.mpr (Or.inr (SimBroker.mem_positions_keys.mpr hne)))
    rw [hzero, add_zero]

theorem held_after {t : Text} (h : after.sharesOf t ≠ 0) :
    t ∈ tradedNames weights broker.positions := by
  by_contra hnot
  rw [shares_after hplan hplaced, if_neg hnot] at h
  exact h rfl

/-- A sum over the positions afterwards is one over the targets. -/
theorem sum_after (f : Text → ℤ → ℚ) (hf : ∀ t, f t 0 = 0) :
    (after.positions.entries.map fun e => f e.1 e.2).sum =
      ((tradedNames weights broker.positions).map fun t =>
        f t (targetOf weights marks equity t)).sum := by
  rw [SimBroker.sum_positions (nodup_tradedNames _ _) (fun t => held_after hplan hplaced) f hf]
  refine congrArg List.sum (List.map_congr_left fun t ht => ?_)
  rw [shares_after hplan hplaced, if_pos ht]

/-- The fills are worth what they cost. -/
theorem value_after : after.value marks = broker.value marks := by
  have hheld : ∀ t, broker.sharesOf t ≠ 0 → t ∈ tradedNames weights broker.positions := fun t ht =>
    mem_tradedNames.mpr (Or.inr (SimBroker.mem_positions_keys.mpr ht))
  have hmoved : ((tradedNames weights broker.positions).map fun t =>
      (targetOf weights marks equity t : ℚ) * SimBroker.markOf marks t).sum =
      costOf orders + ((tradedNames weights broker.positions).map fun t =>
        (broker.sharesOf t : ℚ) * SimBroker.markOf marks t).sum := by
    rw [hplan.cost, ← List.sum_map_add]
    refine congrArg List.sum (List.map_congr_left fun t _ => ?_)
    rw [SimBroker.positions_getD]
    push_cast
    ring
  unfold SimBroker.value
  rw [sum_after hplan hplaced (fun t s => (s : ℚ) * SimBroker.markOf marks t) (by simp),
    SimBroker.sum_positions (nodup_tradedNames _ _) hheld
      (fun t s => (s : ℚ) * SimBroker.markOf marks t) (by simp),
    (SimBroker.placeAll_ok hplaced).2.1, hmoved]
  ring

/-- The positions together are at most the gross weight of the equity. -/
theorem gross_after (hequity : 0 < equity) :
    (after.positions.entries.map fun e => |(e.2 : ℚ) * SimBroker.markOf marks e.1|).sum ≤
      grossOf weights * equity := by
  have hgross : grossOf weights =
      ((tradedNames weights broker.positions).map fun t => |weightIn weights t|).sum := by
    unfold grossOf Dict.values
    rw [List.map_map]
    exact Dict.sum_entries weights (nodup_tradedNames _ _)
      (fun t ht => mem_tradedNames.mpr (Or.inl ht)) (fun _ w => |w|) 0 fun _ => abs_zero
  rw [sum_after hplan hplaced (fun t s => |(s : ℚ) * SimBroker.markOf marks t|) (by simp), hgross,
    ← List.sum_map_mul_right]
  exact List.sum_le_sum fun t ht => (target_value weights (hplan.mark_ne t ht) hequity).1

theorem position_after (hequity : 0 < equity) {t : Text} {s : ℤ}
    (hs : after.positions.get? t = some s) : ∃ mark, marks.get? t = some mark ∧
      |(s : ℚ) * mark| ≤ |weightIn weights t| * equity ∧ 0 ≤ (s : ℚ) * mark * weightIn weights t := by
  have hheld := held_after hplan hplaced
    (SimBroker.mem_positions_keys.mp (Dict.mem_keys_of_get? hs))
  obtain ⟨mark, hmark⟩ := Option.isSome_iff_exists.mp (hplan.marked t hheld)
  have hs' : s = targetOf weights marks equity t := by
    rw [SimBroker.get?_positions] at hs
    split at hs
    · cases hs
    · rw [← Option.some.inj hs, shares_after hplan hplaced, if_pos hheld]
  have hvalue := target_value weights (hplan.mark_ne t hheld) hequity
  have hof : SimBroker.markOf marks t = mark := by
    unfold SimBroker.markOf
    rw [hmark]
    rfl
  rw [hof] at hvalue
  exact ⟨mark, hmark, hs' ▸ hvalue⟩

/-- A name without a target is closed. -/
theorem closed_after {t : Text} (ht : weights.get? t = none) : after.positions.get? t = none := by
  have hzero : after.sharesOf t = 0 := by
    rw [shares_after hplan hplaced]
    split
    · unfold targetOf targetShares weightIn
      rw [ht, Option.getD_none, zero_mul, zero_div]
      rfl
    · rfl
  rw [SimBroker.get?_positions, if_pos hzero]

/-- Inside an unlevered gross limit there is cash left. -/
theorem cash_after (hequity : broker.value marks = equity) (hpos : 0 < equity)
    (hgross : grossOf weights ≤ 1) : 0 ≤ after.cash := by
  have hvalue := value_after hplan hplaced
  have hle := gross_after hplan hplaced hpos
  have hsum : (after.positions.entries.map fun e => (e.2 : ℚ) * SimBroker.markOf marks e.1).sum ≤
      (after.positions.entries.map fun e => |(e.2 : ℚ) * SimBroker.markOf marks e.1|).sum :=
    List.sum_le_sum fun e _ => le_abs_self _
  have hunlevered : grossOf weights * equity ≤ equity := mul_le_of_le_one_left hpos.le hgross
  unfold SimBroker.value at hvalue hequity
  linarith

end

end

/-! ## The cash between the orders -/

/-- Amounts that are not positive and then amounts that are not negative never add up to more on
the way than at the start or at the end. -/
theorem sum_take_le (xs ys : List ℚ) (hxs : ∀ x ∈ xs, x ≤ 0) (hys : ∀ y ∈ ys, 0 ≤ y) (k : ℕ) :
    ((xs ++ ys).take k).sum ≤ 0 ∨ ((xs ++ ys).take k).sum ≤ (xs ++ ys).sum := by
  rcases Nat.le_total k xs.length with hk | hk
  · left
    rw [List.take_append_of_le_length hk]
    have hle : ((xs.take k).map id).sum ≤ ((xs.take k).map fun _ => (0 : ℚ)).sum :=
      List.sum_le_sum fun x hx => hxs x (List.mem_of_mem_take hx)
    simpa using hle
  · right
    rw [List.take_append, List.take_of_length_le hk, List.sum_append, List.sum_append]
    have hrest : 0 ≤ (ys.drop (k - xs.length)).sum :=
      List.sum_nonneg fun y hy => hys y (List.mem_of_mem_drop hy)
    have hsplit := List.sum_take_add_sum_drop ys (k - xs.length)
    linarith

section
variable {broker after : SimBroker} {orders : List Order} {fills : List Fill}

/-- What the first orders leave. -/
theorem cash_take (hplaced : broker.placeAll orders = .ok (after, fills)) (k : ℕ) :
    ∃ p, broker.placeAll (orders.take k) = .ok p ∧
      p.1.cash = broker.cash - costOf (orders.take k) := by
  obtain ⟨p, hp⟩ := SimBroker.placeAll_take hplaced k
  exact ⟨p, hp, (SimBroker.placeAll_ok hp).2.1⟩

/-- On the way there is never less cash than at the start or at the end. -/
theorem cash_between {weights marks : Dict Text ℚ} {equity : ℚ}
    (hplan : Rebalances weights marks broker.positions equity orders)
    (hplaced : broker.placeAll orders = .ok (after, fills)) (k : ℕ) :
    ∃ p, broker.placeAll (orders.take k) = .ok p ∧ min broker.cash after.cash ≤ p.1.cash := by
  obtain ⟨p, hp, hcash⟩ := cash_take hplaced k
  obtain ⟨hprices, hend, -⟩ := SimBroker.placeAll_ok hplaced
  obtain ⟨sells, buys, rfl, hsells, hbuys⟩ := hplan.sellsFirst
  have hcosts := sum_take_le (sells.map fun o => (o.signed : ℚ) * o.price)
    (buys.map fun o => (o.signed : ℚ) * o.price) ?_ ?_ k
  · rw [← List.map_append, ← List.map_take] at hcosts
    refine ⟨p, hp, ?_⟩
    rw [hcash, hend]
    rcases hcosts with hle | hle
    · exact (min_le_left _ _).trans (by unfold costOf; linarith)
    · exact (min_le_right _ _).trans (sub_le_sub_left hle _)
  · intro x hx
    obtain ⟨o, ho, rfl⟩ := List.mem_map.mp hx
    exact mul_nonpos_of_nonpos_of_nonneg (Int.cast_nonpos.mpr (hsells o ho))
      (hprices o (List.mem_append_left _ ho)).le
  · intro x hx
    obtain ⟨o, ho, rfl⟩ := List.mem_map.mp hx
    exact mul_nonneg (Int.cast_nonneg (hbuys o ho)) (hprices o (List.mem_append_right _ ho)).le

/-- Once no sell is left, there is never less cash than at the end. -/
theorem cash_after_sells (hplaced : broker.placeAll orders = .ok (after, fills)) {k : ℕ}
    (hrest : ∀ o ∈ orders.drop k, 0 ≤ o.signed) :
    ∃ p, broker.placeAll (orders.take k) = .ok p ∧ after.cash ≤ p.1.cash := by
  obtain ⟨p, hp, hcash⟩ := cash_take hplaced k
  obtain ⟨hprices, hend, -⟩ := SimBroker.placeAll_ok hplaced
  have hbuys : 0 ≤ costOf (orders.drop k) := by
    refine List.sum_nonneg fun x hx => ?_
    obtain ⟨o, ho, rfl⟩ := List.mem_map.mp hx
    exact mul_nonneg (Int.cast_nonneg (hrest o ho)) (hprices o (List.mem_of_mem_drop ho)).le
  have hsplit := costOf_append (orders.take k) (orders.drop k)
  rw [List.take_append_drop] at hsplit
  refine ⟨p, hp, ?_⟩
  rw [hcash, hend, hsplit]
  linarith

end

/-! ## The claim -/

/-- The value of a position at its mark. -/
def CycleRecord.positionValue (r : CycleRecord) (t : Text) (s : ℤ) : ℚ :=
  s * SimBroker.markOf r.marks t

/-- What holds of a cycle of a fund that takes one broker to another. -/
structure Conserves (fund : LivingFund) (broker after : SimBroker) (r : CycleRecord) : Prop where
  before : r.equityBefore = broker.value r.marks ∧ r.cashBefore = broker.cash
  book : r.positions = after.positions ∧ r.nav = after.value r.marks
  nav : r.nav = r.equityBefore
  /-- a name without a target is closed -/
  closed : ∀ t, r.finalWeights.get? t = none → r.positions.get? t = none
  /-- a position is marked, and of no more than its weight, on the weight's side -/
  sized : ∀ t s, r.positions.get? t = some s → (r.marks.get? t).isSome ∧
    |r.positionValue t s| ≤ |weightIn r.finalWeights t| * r.equityBefore ∧
    0 ≤ r.positionValue t s * weightIn r.finalWeights t
  within : Within fund.spec.risk r.finalWeights
  position : ∀ t s, r.positions.get? t = some s →
    |r.positionValue t s| ≤ fund.spec.risk.maxPositionPct * r.nav
  gross : (r.positions.entries.map fun e => |r.positionValue e.1 e.2|).sum ≤
    fund.spec.risk.maxGrossExposure * r.nav
  settled : applyLimits r.finalWeights fund.spec.risk = ⟨r.finalWeights, []⟩
  /-- unlevered and not in debt, there is cash after every order -/
  solvent : fund.spec.risk.maxGrossExposure ≤ 1 → 0 ≤ r.cashBefore → ∀ k,
    ∃ p, broker.placeAll (r.orders.take k) = .ok p ∧ 0 ≤ p.1.cash
  /-- unlevered, there is cash once no sell is left, in debt before or not -/
  settledCash : fund.spec.risk.maxGrossExposure ≤ 1 → ∀ k, (∀ o ∈ r.orders.drop k, 0 ≤ o.signed) →
    ∃ p, broker.placeAll (r.orders.take k) = .ok p ∧ 0 ≤ p.1.cash

/-- Every cycle that returns. -/
theorem run_cycle_conserves (fund : LivingFund) (asOf : Text) (broker after : SimBroker)
    (prices : Text → List PriceBar) (tickers : List Text) (r : CycleRecord)
    (h : runCycle fund asOf broker prices tickers = .ok (r, after)) :
    Conserves fund broker after r := by
  unfold runCycle at h
  obtain ⟨names, -, h⟩ := except_bind_ok h
  dsimp only at h
  obtain ⟨marked, -, h⟩ := except_bind_ok h
  split at h
  · cases h
  next hpositive =>
    obtain ⟨netted, -, h⟩ := except_bind_ok h
    obtain ⟨orders, horders, h⟩ := except_bind_ok h
    obtain ⟨placed, hplaced, h⟩ := except_bind_ok h
    obtain ⟨hr, hafter⟩ := Prod.mk.inj (Except.ok.inj h)
    have hequity : 0 < broker.value marked.1 := not_le.mp hpositive
    have hplan := buildOrders_ok horders
    have hwithin := applyLimits_within netted.2 fund.spec.risk
    have hnav : placed.1.value marked.1 = broker.value marked.1 := value_after hplan hplaced
    have hcash : fund.spec.risk.maxGrossExposure ≤ 1 → 0 ≤ placed.1.cash := fun hunlevered =>
      cash_after hplan hplaced rfl hequity (hwithin.gross.trans hunlevered)
    have hsized : ∀ t s, placed.1.positions.get? t = some s →
        (marked.1.get? t).isSome ∧
        |(s : ℚ) * SimBroker.markOf marked.1 t| ≤
          |weightIn (applyLimits netted.2 fund.spec.risk).weights t| * broker.value marked.1 ∧
        0 ≤ (s : ℚ) * SimBroker.markOf marked.1 t *
          weightIn (applyLimits netted.2 fund.spec.risk).weights t := by
      intro t s hs
      obtain ⟨mark, hmark, hvalue⟩ := position_after hplan hplaced hequity hs
      unfold SimBroker.markOf
      rw [hmark]
      exact ⟨rfl, hvalue⟩
    rw [← hr, ← hafter]
    refine ⟨⟨rfl, rfl⟩, ⟨rfl, rfl⟩, hnav, fun t => closed_after hplan hplaced, hsized, hwithin, ?_, ?_,
      applyLimits_idem _ _, ?_, ?_⟩
    · intro t s hs
      show |(s : ℚ) * SimBroker.markOf marked.1 t| ≤
        fund.spec.risk.maxPositionPct * placed.1.value marked.1
      rw [hnav]
      exact (hsized t s hs).2.1.trans
        (mul_le_mul_of_nonneg_right (hwithin.abs_weightIn_le t) hequity.le)
    · show (placed.1.positions.entries.map fun e => |(e.2 : ℚ) * SimBroker.markOf marked.1 e.1|).sum
        ≤ fund.spec.risk.maxGrossExposure * placed.1.value marked.1
      rw [hnav]
      exact (gross_after hplan hplaced hequity).trans
        (mul_le_mul_of_nonneg_right hwithin.gross hequity.le)
    · intro hunlevered hstart k
      obtain ⟨p, hp, hle⟩ := cash_between hplan hplaced k
      exact ⟨p, hp, (le_min hstart (hcash hunlevered)).trans hle⟩
    · intro hunlevered k hrest
      obtain ⟨p, hp, hle⟩ := cash_after_sells hplaced hrest
      exact ⟨p, hp, (hcash hunlevered).trans hle⟩

/-! ## A fund in debt -/

/-- One strategy of one model that has no view, unlevered. -/
def idleSpec : FundSpec where
  name := "idle".toList
  strategies := [{ name := "pod".toList, weight := 1
                   models := [⟨"pead".toList, 1, by decide⟩]
                   blend := ⟨1, false, by decide⟩
                   weight_pos := by decide
                   models_ne := by decide }]
  risk := ⟨1, 1, by decide, by decide⟩
  strategies_ne := by decide
  names_nodup := by decide

def idleFund : LivingFund where
  spec := idleSpec
  staff _ := [fun ticker asOf => ⟨"pead".toList, ticker, asOf, 0, none, Dict.empty⟩]

/-- A hundred in debt, holding 60 of the one name and 140 of the other. -/
def debtBroker : SimBroker where
  cash := -100
  shares := (Dict.empty.set "AAA".toList 6).set "BBB".toList 14

def tenDollars (_ : Text) : List PriceBar := [⟨"2026-01-02".toList, 10⟩]

/-- Both names are sold, and after the first sell 40 of the debt are left. -/
theorem debt_runs : (runCycle idleFund "2026-01-02".toList debtBroker tenDollars
    ["AAA".toList]).toOption.map (fun p =>
      (p.1.finalWeights.values, (debtBroker.placeAll (p.1.orders.take 1)).toOption.map
        fun q => q.1.cash)) = some ([0], some (-40)) := by
  decide +kernel

theorem debt_returns : ∃ p : CycleRecord × SimBroker,
    runCycle idleFund "2026-01-02".toList debtBroker tenDollars ["AAA".toList] = .ok p ∧
      p.1.finalWeights.values = [0] ∧
      (debtBroker.placeAll (p.1.orders.take 1)).toOption.map (fun q => q.1.cash) = some (-40) := by
  have hruns := debt_runs
  cases hrun : runCycle idleFund "2026-01-02".toList debtBroker tenDollars ["AAA".toList] with
  | error e =>
    rw [hrun] at hruns
    cases hruns
  | ok p =>
    rw [hrun] at hruns
    obtain ⟨hweights, hcash⟩ := Prod.mk.inj (Option.some.inj hruns)
    exact ⟨p, rfl, hweights, hcash⟩

theorem run_cycle_conserves_debt : ∃ r after, Conserves idleFund debtBroker after r := by
  obtain ⟨p, hp, -⟩ := debt_returns
  exact ⟨p.1, p.2, run_cycle_conserves idleFund "2026-01-02".toList debtBroker p.2 tenDollars
    ["AAA".toList] p.1 hp⟩

/-- A long-only fund in debt is still in debt after its first sell. -/
theorem in_debt : ¬ ∀ (fund : LivingFund) (asOf : Text) (broker after : SimBroker)
    (prices : Text → List PriceBar) (tickers : List Text) (r : CycleRecord),
    runCycle fund asOf broker prices tickers = .ok (r, after) →
    (∀ w ∈ r.finalWeights.values, 0 ≤ w) → fund.spec.risk.maxGrossExposure ≤ 1 →
    ∀ k, 0 < k → ∃ p, broker.placeAll (r.orders.take k) = .ok p ∧ 0 ≤ p.1.cash := by
  intro h
  obtain ⟨p, hp, hweights, hcash⟩ := debt_returns
  obtain ⟨q, hq, hpos⟩ := h idleFund "2026-01-02".toList debtBroker p.2 tenDollars ["AAA".toList]
    p.1 hp (by rw [hweights]; decide) (le_refl 1) 1 one_pos
  rw [hq] at hcash
  rw [show q.1.cash = -40 from Option.some.inj hcash] at hpos
  exact absurd hpos (by decide)

end PaperTrading.Fund
