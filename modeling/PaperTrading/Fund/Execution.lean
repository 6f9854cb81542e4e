import PaperTrading.Fund.Limits
import PaperTrading.Lib.Fallible

/-!
# Execution

`build_orders` of `pipeline/execution.py` and the `SimBroker` that fills its orders at their
price. The orders take every name to the whole number of shares its weight pays for, sells before
buys. A fill moves cash by what its shares are worth, so a book's value at the marks stays what
it was.
-/

namespace PaperTrading.Fund

open PaperTrading.Lib

/-- What a cycle can raise. -/
inductive CycleError where
  | emptyUniverse
  /-- a held position has no price -/
  | unpriced (ticker : Text)
  /-- the equity is not positive -/
  | noEquity (equity : ℚ)
  | keyError (key : Text)
  | zeroDivision
  /-- an order at a price that is not positive -/
  | unpricedOrder (ticker : Text) (price : ℚ)
deriving DecidableEq

inductive Side where
  | buy
  | sell
deriving DecidableEq

/-- An instruction to trade. -/
structure Order where
  ticker : Text
  side : Side
  quantity : ℕ
  price : ℚ
  quantity_pos : 0 < quantity
deriving DecidableEq

/-- An executed order. -/
structure Fill where
  ticker : Text
  side : Side
  quantity : ℕ
  price : ℚ
deriving DecidableEq

/-! ## The broker -/

/-- Signed share counts and a cash balance. -/
structure SimBroker where
  cash : ℚ
  shares : Dict Text ℤ
deriving DecidableEq

namespace SimBroker

/-- `positions`: the names of which there are shares. -/
def positions (b : SimBroker) : Dict Text ℤ :=
  b.shares.filterMap fun _ s => if s ≠ 0 then some s else none

/-- `self._shares.get(ticker, 0)` -/
def sharesOf (b : SimBroker) (t : Text) : ℤ := (b.shares.get? t).getD 0

/-- The shares after an order, an entry of none removed. -/
def settled (shares : Dict Text ℤ) (t : Text) : Dict Text ℤ :=
  if shares.get? t = some 0 then shares.erase t else shares

/-- `place_order` -/
def placeOrder (b : SimBroker) (o : Order) : Except CycleError (SimBroker × Fill) :=
  if o.price ≤ 0 then .error (.unpricedOrder o.ticker o.price)
  else
    let b' : SimBroker :=
      match o.side with
      | .buy => { cash := b.cash - o.quantity * o.price
                  shares := b.shares.set o.ticker (b.sharesOf o.ticker + o.quantity) }
      | .sell => { cash := b.cash + o.quantity * o.price
                   shares := b.shares.set o.ticker (b.sharesOf o.ticker - o.quantity) }
    .ok ({ b' with shares := settled b'.shares o.ticker },
      ⟨o.ticker, o.side, o.quantity, o.price⟩)

/-- `[broker.place_order(o) for o in orders]` -/
def placeAll (b : SimBroker) : List Order → Except CycleError (SimBroker × List Fill)
  | [] => .ok (b, [])
  | o :: orders => do
    let placed ← b.placeOrder o
    let rest ← placed.1.placeAll orders
    return (rest.1, placed.2 :: rest.2)

end SimBroker

/-! ## The orders -/

/-- `int(q)`: towards zero. -/
def truncate (q : ℚ) : ℤ := q.num.tdiv q.den

/-- What the weight of a name pays for. -/
def targetShares (weights : Dict Text ℚ) (equity : ℚ) (t : Text) (mark : ℚ) : ℤ :=
  truncate (weightIn weights t * equity / mark)

/-- The order that moves a name by `delta` shares, if it is moved. -/
def orderBy (t : Text) (delta : ℤ) (mark : ℚ) : Option Order :=
  if h : delta = 0 then none
  else some {
    ticker := t
    side := if 0 < delta then .buy else .sell
    quantity := delta.natAbs
    price := mark
    quantity_pos := Int.natAbs_pos.mpr h }

/-- A turn of the loop of `build_orders`. -/
def orderFor (weights : Dict Text ℚ) (positions : Dict Text ℤ) (marks : Dict Text ℚ) (equity : ℚ)
    (t : Text) : Except CycleError (Option Order) :=
  match marks.get? t with
  | none => .error (.keyError t)
  | some mark =>
    if mark = 0 then .error .zeroDivision
    else .ok (orderBy t
      (targetShares weights equity t mark - (positions.get? t).getD 0) mark)

/-- The names of the targets and of the book. -/
def tradedNames (weights : Dict Text ℚ) (positions : Dict Text ℤ) : List Text :=
  sortedSet (weights.keys ++ positions.keys)

theorem nodup_tradedNames (weights : Dict Text ℚ) (positions : Dict Text ℤ) :
    (tradedNames weights positions).Nodup := nodup_sortedSet _

theorem mem_tradedNames {weights : Dict Text ℚ} {positions : Dict Text ℤ} {t : Text} :
    t ∈ tradedNames weights positions ↔ t ∈ weights.keys ∨ t ∈ positions.keys :=
  mem_sortedSet.trans List.mem_append

/-- `build_orders` -/
def buildOrders (weights : Dict Text ℚ) (positions : Dict Text ℤ) (marks : Dict Text ℚ)
    (equity : ℚ) : Except CycleError (List Order) := do
  let orders ← (tradedNames weights positions).mapM (orderFor weights positions marks equity)
  let orders := orders.filterMap id
  return orders.filter (·.side = .sell) ++ orders.filter (·.side = .buy)

/-! ## Truncation -/

theorem truncate_neg (q : ℚ) : truncate (-q) = -truncate q := by
  unfold truncate
  rw [Rat.neg_num, Rat.neg_den, Int.neg_tdiv]

theorem truncate_of_nonneg {q : ℚ} (h : 0 ≤ q) : 0 ≤ truncate q ∧ (truncate q : ℚ) ≤ q := by
  have hnum : 0 ≤ q.num := Rat.num_nonneg.mpr h
  have hfloor : truncate q = q.floor := by
    unfold truncate
    rw [Int.tdiv_eq_ediv_of_nonneg hnum, Rat.floor_def]
  rw [hfloor]
  exact ⟨Rat.le_floor_iff.mpr (by simpa using h), Rat.floor_le q⟩

/-- Truncation keeps the sign and does not enlarge. -/
theorem truncate_toward_zero (q : ℚ) : |(truncate q : ℚ)| ≤ |q| ∧ 0 ≤ (truncate q : ℚ) * q := by
  rcases le_total 0 q with hq | hq
  · obtain ⟨hpos, hle⟩ := truncate_of_nonneg hq
    have hpos : (0 : ℚ) ≤ truncate q := Int.cast_nonneg hpos
    rw [abs_of_nonneg hpos, abs_of_nonneg hq]
    exact ⟨hle, mul_nonneg hpos hq⟩
  · obtain ⟨hpos, hle⟩ := truncate_of_nonneg (neg_nonneg.mpr hq)
    rw [truncate_neg] at hpos hle
    push_cast at hle
    have hpos : (truncate q : ℚ) ≤ 0 := Int.cast_nonpos.mpr (by omega)
    rw [abs_of_nonpos hpos, abs_of_nonpos hq]
    exact ⟨hle, mul_nonneg_of_nonpos_of_nonpos hpos hq⟩

/-! ## What fills move -/

/-- The shares an order adds to its name. -/
def Order.signed (o : Order) : ℤ :=
  match o.side with
  | .buy => o.quantity
  | .sell => -o.quantity

/-- The shares that orders add to a name. -/
def movedBy (orders : List Order) (t : Text) : ℤ :=
  ((orders.filter fun o => o.ticker = t).map Order.signed).sum

/-- What orders cost. -/
def costOf (orders : List Order) : ℚ := (orders.map fun o => (o.signed : ℚ) * o.price).sum

namespace SimBroker
variable {b b' : SimBroker}

theorem settled_getD (shares : Dict Text ℤ) (t u : Text) :
    ((settled shares t).get? u).getD 0 = (shares.get? u).getD 0 := by
  unfold settled
  split
  next hzero =>
    rw [Dict.get?_erase]
    split
    next hu =>
      rw [hu, hzero]
      rfl
    next => rfl
  next => rfl

/-- One order. -/
theorem placeOrder_ok {o : Order} {f : Fill} (h : b.placeOrder o = .ok (b', f)) :
    0 < o.price ∧ b'.cash = b.cash - o.signed * o.price ∧
      ∀ t, b'.sharesOf t = b.sharesOf t + movedBy [o] t := by
  unfold placeOrder at h
  split at h
  · cases h
  next hprice =>
    obtain ⟨hb, -⟩ := Prod.mk.inj (Except.ok.inj h)
    have hmoved : ∀ t, movedBy [o] t = if o.ticker = t then o.signed else 0 := by
      intro t
      unfold movedBy
      by_cases ht : o.ticker = t <;> simp [ht]
    have hside : b'.cash = b.cash - o.signed * o.price ∧ b'.shares =
        settled (b.shares.set o.ticker (b.sharesOf o.ticker + o.signed)) o.ticker := by
      rw [← hb]
      unfold Order.signed
      cases o.side with
      | buy => exact ⟨by push_cast; rfl, rfl⟩
      | sell => exact ⟨by push_cast; ring, rfl⟩
    refine ⟨not_le.mp hprice, hside.1, fun t => ?_⟩
    unfold sharesOf at hside ⊢
    rw [hside.2, settled_getD, Dict.get?_set, hmoved]
    by_cases ht : t = o.ticker
    · rw [if_pos ht, if_pos ht.symm, ht]
      rfl
    · rw [if_neg ht, if_neg fun h => ht h.symm, add_zero]

theorem movedBy_cons (o : Order) (orders : List Order) (t : Text) :
    movedBy (o :: orders) t = movedBy [o] t + movedBy orders t := by
  unfold movedBy
  rw [← List.sum_append, ← List.map_append, ← List.filter_append]
  rfl

/-- All orders: the cash pays for the shares. -/
theorem placeAll_ok : ∀ {orders : List Order} {b b' : SimBroker} {fills : List Fill},
    b.placeAll orders = .ok (b', fills) → (∀ o ∈ orders, 0 < o.price) ∧
      b'.cash = b.cash - costOf orders ∧ ∀ t, b'.sharesOf t = b.sharesOf t + movedBy orders t := by
  intro orders
  induction orders with
  | nil =>
    intro b b' fills h
    cases h
    exact ⟨nofun, (sub_zero _).symm, fun t => (add_zero _).symm⟩
  | cons o orders ih =>
    intro b b' fills h
    obtain ⟨placed, hplaced, h⟩ := except_bind_ok h
    obtain ⟨rest, hrest, h⟩ := except_bind_ok h
    obtain ⟨hb, -⟩ := Prod.mk.inj (Except.ok.inj h)
    obtain ⟨hprice, hcash, hshares⟩ := placeOrder_ok hplaced
    obtain ⟨hprices, hcash', hshares'⟩ := ih hrest
    rw [← hb]
    refine ⟨?_, ?_, fun t => ?_⟩
    · intro o' ho'
      rcases List.mem_cons.mp ho' with rfl | ho'
      · exact hprice
      · exact hprices o' ho'
    · rw [hcash', hcash]
      unfold costOf
      rw [List.map_cons, List.sum_cons]
      ring
    · rw [hshares', hshares, movedBy_cons o orders]
      ring

/-- The first orders of a list that is placed are placed. -/
theorem placeAll_take : ∀ {orders : List Order} {b b' : SimBroker} {fills : List Fill},
    b.placeAll orders = .ok (b', fills) → ∀ k, ∃ p, b.placeAll (orders.take k) = .ok p := by
  intro orders
  induction orders with
  | nil =>
    intro b b' fills h k
    rw [List.take_nil]
    exact ⟨_, h⟩
  | cons o orders ih =>
    intro b b' fills h k
    cases k with
    | zero => exact ⟨_, rfl⟩
    | succ k =>
      obtain ⟨placed, hplaced, h⟩ := except_bind_ok h
      obtain ⟨rest, hrest, h⟩ := except_bind_ok h
      obtain ⟨p, hp⟩ := ih hrest k
      refine ⟨(p.1, placed.2 :: p.2), ?_⟩
      rw [List.take_succ_cons]
      unfold placeAll
      rw [hplaced]
      show (placed.1.placeAll (orders.take k) >>= _) = _
      rw [hp]
      rfl

/-! ## The value of a book -/

/-- `marks[t]`, where there is one. -/
def markOf (marks : Dict Text ℚ) (t : Text) : ℚ := (marks.get? t).getD 0

/-- `cash + sum(shares * marks[t])` -/
def value (b : SimBroker) (marks : Dict Text ℚ) : ℚ :=
  b.cash + (b.positions.entries.map fun e => e.2 * markOf marks e.1).sum

theorem get?_positions (b : SimBroker) (t : Text) :
    b.positions.get? t = if b.sharesOf t = 0 then none else some (b.sharesOf t) := by
  unfold positions sharesOf
  rw [Dict.get?_filterMap]
  cases b.shares.get? t with
  | none => rfl
  | some s => by_cases hs : s = 0 <;> simp [hs]

theorem mem_positions_keys {t : Text} : t ∈ b.positions.keys ↔ b.sharesOf t ≠ 0 := by
  rw [Dict.mem_keys, get?_positions]
  by_cases hs : b.sharesOf t = 0 <;> simp [hs]

theorem positions_getD (b : SimBroker) (t : Text) :
    (b.positions.get? t).getD 0 = b.sharesOf t := by
  rw [get?_positions]
  split
  next hzero =>
    rw [hzero]
    rfl
  next => rfl

/-- A sum over the positions is one over any names that include them. -/
theorem sum_positions {names : List Text} (hnames : names.Nodup)
    (hheld : ∀ t, b.sharesOf t ≠ 0 → t ∈ names) (f : Text → ℤ → ℚ) (hf : ∀ t, f t 0 = 0) :
    (b.positions.entries.map fun e => f e.1 e.2).sum =
      (names.map fun t => f t (b.sharesOf t)).sum := by
  rw [Dict.sum_entries b.positions hnames (fun t ht => hheld t (mem_positions_keys.mp ht)) f 0 hf]
  refine congrArg List.sum (List.map_congr_left fun t _ => ?_)
  rw [positions_getD]

end SimBroker

/-! ## What the orders move -/

theorem movedBy_append (l₁ l₂ : List Order) (t : Text) :
    movedBy (l₁ ++ l₂) t = movedBy l₁ t + movedBy l₂ t := by
  unfold movedBy
  rw [List.filter_append, List.map_append, List.sum_append]

theorem costOf_append (l₁ l₂ : List Order) : costOf (l₁ ++ l₂) = costOf l₁ + costOf l₂ := by
  unfold costOf
  rw [List.map_append, List.sum_append]

theorem movedBy_perm {l₁ l₂ : List Order} (h : l₁.Perm l₂) (t : Text) :
    movedBy l₁ t = movedBy l₂ t :=
  ((h.filter _).map _).sum_eq

theorem costOf_perm {l₁ l₂ : List Order} (h : l₁.Perm l₂) : costOf l₁ = costOf l₂ :=
  (h.map _).sum_eq

/-- An order has the side of what it moves. -/
theorem orderBy_some {t : Text} {delta : ℤ} {mark : ℚ} {o : Order}
    (h : orderBy t delta mark = some o) :
    o.ticker = t ∧ o.price = mark ∧ o.signed = delta := by
  unfold orderBy at h
  split at h
  · cases h
  · cases h
    refine ⟨rfl, rfl, ?_⟩
    unfold Order.signed
    by_cases hpos : 0 < delta
    · simp only [if_pos hpos]
      omega
    · simp only [if_neg hpos]
      omega

theorem orderBy_none {t : Text} {delta : ℤ} {mark : ℚ} (h : orderBy t delta mark = none) :
    delta = 0 := by
  unfold orderBy at h
  split at h
  next hzero => exact hzero
  next => cases h

section
variable (delta : Text → ℤ) (mark : Text → ℚ)

/-- The orders that move each name by its own number of shares. -/
def ordersOf (names : List Text) : List Order :=
  names.filterMap fun t => orderBy t (delta t) (mark t)

theorem ordersOf_cons (n : Text) (names : List Text) : ordersOf delta mark (n :: names) =
    (orderBy n (delta n) (mark n)).toList ++ ordersOf delta mark names := by
  unfold ordersOf
  rw [List.filterMap_cons]
  cases orderBy n (delta n) (mark n) <;> rfl

theorem movedBy_one (n t : Text) : movedBy (orderBy n (delta n) (mark n)).toList t =
    if n = t then delta n else 0 := by
  cases ho : orderBy n (delta n) (mark n) with
  | none =>
    rw [orderBy_none ho, ite_self]
    rfl
  | some o =>
    obtain ⟨hticker, -, hsigned⟩ := orderBy_some ho
    unfold movedBy
    by_cases ht : n = t <;> simp [hticker, hsigned, ht]

theorem costOf_one (n : Text) :
    costOf (orderBy n (delta n) (mark n)).toList = delta n * mark n := by
  cases ho : orderBy n (delta n) (mark n) with
  | none =>
    rw [orderBy_none ho, Int.cast_zero, zero_mul]
    rfl
  | some o =>
    obtain ⟨-, hprice, hsigned⟩ := orderBy_some ho
    unfold costOf
    simp [hprice, hsigned]

theorem movedBy_ordersOf {names : List Text} (hnames : names.Nodup) (t : Text) :
    movedBy (ordersOf delta mark names) t = if t ∈ names then delta t else 0 := by
  induction names with
  | nil => rfl
  | cons n names ih =>
    obtain ⟨hn, hnames⟩ := List.nodup_cons.mp hnames
    rw [ordersOf_cons, movedBy_append, movedBy_one, ih hnames]
    by_cases ht : n = t
    · rw [if_pos ht, ← ht, if_neg hn, if_pos List.mem_cons_self, add_zero]
    · rw [if_neg ht, zero_add]
      have hmem : t ∈ n :: names ↔ t ∈ names :=
        List.mem_cons.trans (or_iff_right fun h => ht h.symm)
      simp only [hmem]

theorem costOf_ordersOf (names : List Text) : costOf (ordersOf delta mark names) =
    (names.map fun t => delta t * mark t).sum := by
  induction names with
  | nil => rfl
  | cons n names ih =>
    rw [ordersOf_cons, costOf_append, costOf_one, ih, List.map_cons, List.sum_cons]

end

/-! ## The target book -/

section
variable {weights marks : Dict Text ℚ} {positions : Dict Text ℤ} {equity : ℚ}

/-- The shares of a name in the target book. -/
def targetOf (weights marks : Dict Text ℚ) (equity : ℚ) (t : Text) : ℤ :=
  targetShares weights equity t (SimBroker.markOf marks t)

theorem orderFor_ok {t : Text} {o : Option Order} :
    orderFor weights positions marks equity t = .ok o ↔
      (marks.get? t).isSome ∧ SimBroker.markOf marks t ≠ 0 ∧
        o = orderBy t (targetOf weights marks equity t - (positions.get? t).getD 0)
          (SimBroker.markOf marks t) := by
  unfold orderFor targetOf SimBroker.markOf
  cases marks.get? t with
  | none => exact iff_of_false nofun fun h => absurd h.1 nofun
  | some mark =>
    dsimp only [Option.getD_some]
    by_cases hzero : mark = 0
    · rw [if_pos hzero]
      exact iff_of_false nofun fun h => h.2.1 hzero
    · rw [if_neg hzero]
      constructor
      · intro h
        exact ⟨rfl, hzero, (Except.ok.inj h).symm⟩
      · rintro ⟨-, -, rfl⟩
        rfl

/-- What `build_orders` returns: every name has a mark, the orders move each to its target, and
sells come first. -/
structure Rebalances (weights marks : Dict Text ℚ) (positions : Dict Text ℤ) (equity : ℚ)
    (orders : List Order) : Prop where
  marked : ∀ t ∈ tradedNames weights positions, (marks.get? t).isSome
  mark_ne : ∀ t ∈ tradedNames weights positions, SimBroker.markOf marks t ≠ 0
  moved : ∀ t, movedBy orders t = if t ∈ tradedNames weights positions then
    targetOf weights marks equity t - (positions.get? t).getD 0 else 0
  cost : costOf orders = ((tradedNames weights positions).map fun t =>
    ((targetOf weights marks equity t - (positions.get? t).getD 0 : ℤ) : ℚ) *
      SimBroker.markOf marks t).sum
  sellsFirst : ∃ sells buys, orders = sells ++ buys ∧ (∀ o ∈ sells, o.signed ≤ 0) ∧
    ∀ o ∈ buys, 0 ≤ o.signed

theorem buildOrders_ok {orders : List Order}
    (h : buildOrders weights positions marks equity = .ok orders) :
    Rebalances weights marks positions equity orders := by
  unfold buildOrders at h
  obtain ⟨found, hfound, h⟩ := except_bind_ok h
  have horders := (mapM_ok_iff
    (P := fun t => (marks.get? t).isSome ∧ SimBroker.markOf marks t ≠ 0)
    (g := fun t => orderBy t (targetOf weights marks equity t - (positions.get? t).getD 0)
      (SimBroker.markOf marks t)) fun t _ o => by rw [orderFor_ok, and_assoc]).mp hfound
  obtain ⟨hmarks, rfl⟩ := horders
  have hall : ((tradedNames weights positions).map fun t =>
      orderBy t (targetOf weights marks equity t - (positions.get? t).getD 0)
        (SimBroker.markOf marks t)).filterMap id =
      ordersOf (fun t => targetOf weights marks equity t - (positions.get? t).getD 0)
        (SimBroker.markOf marks) (tradedNames weights positions) := by
    rw [List.filterMap_map]
    rfl
  dsimp only at h
  rw [hall] at h
  have hsides : ∀ l : List Order, l.filter (fun o => o.side = .buy) =
      l.filter fun o => !decide (o.side = .sell) := by
    intro l
    refine List.filter_congr fun o _ => ?_
    cases o.side <;> rfl
  have hperm := List.filter_append_perm (fun o : Order => decide (o.side = .sell))
    (ordersOf (fun t => targetOf weights marks equity t - (positions.get? t).getD 0)
      (SimBroker.markOf marks) (tradedNames weights positions))
  rw [← hsides] at hperm
  obtain rfl := Except.ok.inj h
  refine ⟨fun t ht => (hmarks t ht).1, fun t ht => (hmarks t ht).2, fun t => ?_, ?_, _, _, rfl, ?_, ?_⟩
  · rw [movedBy_perm hperm]
    exact movedBy_ordersOf _ _ (nodup_tradedNames _ _) t
  · rw [costOf_perm hperm]
    exact costOf_ordersOf _ _ _
  · intro o ho
    unfold Order.signed
    rw [of_decide_eq_true (List.mem_filter.mp ho).2]
    exact Int.neg_nonpos_of_nonneg (Int.natCast_nonneg _)
  · intro o ho
    unfold Order.signed
    rw [of_decide_eq_true (List.mem_filter.mp ho).2]
    exact Int.natCast_nonneg _

end

end PaperTrading.Fund
