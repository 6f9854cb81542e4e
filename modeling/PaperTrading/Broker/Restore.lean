import Mathlib.Data.List.Nodup
import PaperTrading.Broker.Sell
import PaperTrading.Lib.Runs

/-!
# Ids of restored lots

What a broker saves is restored as it was. A saved lot without an id gets the counter's
value at its place in the list, though, and nothing keeps that off the id of another saved
lot: `restore_ids_iff` says when the restored lots have ids of their own. Lots opened later
never share one with a restored lot: the counter stands behind all of them.
-/

namespace PaperTrading.Broker

open Lib

/-! ## Runs of a broker -/

/-- What is done with a broker. `elsewhere` is the counter moved by other brokers of the
process, which share it. -/
inductive BrokerStep where
  | order (o : Order) (marketPrice : Option ℚ)
  | close (lot : OpenPosition) (marketPrice : ℚ)
  | stops (px : PriceMap)
  | restore (st : BrokerState)
  | elsewhere (taken : ℕ)

namespace PaperBroker

/-- The broker after a step; one that raises leaves what it had written. -/
def perform (b : PaperBroker) : BrokerStep → PaperBroker
  | .order o p => (b.placeOrder o p).toOption.elim b Prod.fst
  | .close lot p => (b.closeLot lot p).toOption.elim b Prod.fst
  | .stops px => (b.checkStops px).state
  | .restore st => b.restoreState st
  | .elsewhere taken => { b with nextLot := b.nextLot + taken }

/-- The id of the lot a step opens, if it opens one. -/
def opens (b : PaperBroker) : BrokerStep → Option ℕ
  | .order o p => (b.placeOrder o p).toOption.bind fun r =>
      if r.2.side = .buy then r.1.lots.getLast?.map (·.lotId) else none
  | _ => none

theorem placeOrder_cases {b b' : PaperBroker} {o : Order} {p : Option ℚ} {fill : Fill}
    (h : b.placeOrder o p = .ok (b', fill)) :
    (fill.side = .buy ∧ b'.nextLot = b.nextLot + 1 ∧
      ∃ lot, lot.lotId = b.nextLot ∧ b'.lots = b.lots ++ [lot]) ∨
    (fill.side = .sell ∧ b'.nextLot = b.nextLot) := by
  unfold placeOrder at h
  dsimp only at h
  cases hside : o.side with
  | buy =>
    rw [hside] at h
    cases hstop : o.stopLoss with
    | none =>
      rw [hstop] at h
      cases h
    | some stop =>
      rw [hstop] at h
      cases h
      exact Or.inl ⟨hside, rfl, _, rfl, rfl⟩
  | sell =>
    rw [hside] at h
    dsimp only at h
    split at h
    next => cases h
    next =>
      split at h
      next => cases h
      next =>
        cases h
        exact Or.inr ⟨hside, rfl⟩

theorem closeLot_nextLot_eq {b b' : PaperBroker} {lot : OpenPosition} {p : ℚ} {fill : Fill}
    (h : b.closeLot lot p = .ok (b', fill)) : b'.nextLot = b.nextLot := by
  rw [closeLot_eq] at h
  cases hs : sellBook b.lots lot with
  | error e =>
    rw [hs] at h
    cases h
  | ok lots' =>
    rw [hs] at h
    cases h
    rfl

theorem checkStops_nextLot (b : PaperBroker) (px : PriceMap) :
    (b.checkStops px).state.nextLot = b.nextLot := by
  refine Ran.loop_inv (P := fun b' => b'.nextLot = b.nextLot) (fun b' lot h => ?_) b.lots b rfl
  unfold checkStop
  split
  next => exact h
  next cur _ =>
    split
    next =>
      cases hclose : b'.closeLot lot cur with
      | error e => exact h
      | ok r => exact (closeLot_nextLot_eq hclose).trans h
    next => exact h

/-- No step moves the counter back, and a lot opened has the counter's value as its id. -/
theorem perform_counter (b : PaperBroker) (step : BrokerStep) :
    b.nextLot ≤ (b.perform step).nextLot ∧ ∀ id, b.opens step = some id → id = b.nextLot := by
  cases step with
  | order o p =>
    show b.nextLot ≤ ((b.placeOrder o p).toOption.elim b Prod.fst).nextLot ∧ ∀ id,
      ((b.placeOrder o p).toOption.bind fun r =>
        if r.2.side = .buy then r.1.lots.getLast?.map (·.lotId) else none) = some id → _
    cases horder : b.placeOrder o p with
    | error e => exact ⟨le_rfl, fun id hid => by cases hid⟩
    | ok r =>
      show b.nextLot ≤ r.1.nextLot ∧ ∀ id,
        (if r.2.side = .buy then r.1.lots.getLast?.map (·.lotId) else none) = some id → _
      rcases placeOrder_cases horder with ⟨hside, hnext, lot, hlot, hlots⟩ | ⟨hside, hnext⟩
      · rw [if_pos hside, hlots, List.getLast?_append]
        refine ⟨by omega, fun id hid => ?_⟩
        exact (Option.some.inj hid).symm.trans hlot
      · rw [hside]
        exact ⟨hnext.ge, fun id hid => by cases hid⟩
  | close lot p =>
    refine ⟨?_, fun id hid => by cases hid⟩
    show b.nextLot ≤ ((b.closeLot lot p).toOption.elim b Prod.fst).nextLot
    cases hclose : b.closeLot lot p with
    | error e => exact le_rfl
    | ok r => exact (closeLot_nextLot_eq hclose).ge
  | stops px => exact ⟨(checkStops_nextLot b px).ge, fun id hid => by cases hid⟩
  | restore st =>
    refine ⟨?_, fun id hid => by cases hid⟩
    show b.nextLot ≤ b.nextLot + st.openLots.length + _
    omega
  | elsewhere taken => exact ⟨Nat.le_add_right _ _, fun id hid => by cases hid⟩

/-- Along a run every lot is opened with an id the counter had not passed. -/
theorem opens_ge {b : PaperBroker} {n : ℕ} (h : n ≤ b.nextLot) (steps : List BrokerStep) :
    Along perform (fun b step => ∀ id, b.opens step = some id → n ≤ id) b steps :=
  along_of_inv (I := fun b => n ≤ b.nextLot) (C := fun _ _ => True)
    (fun b step hn _ => ⟨fun id hid => ((perform_counter b step).2 id hid).symm ▸ hn,
      hn.trans (perform_counter b step).1⟩) steps h (along_of_forall (fun _ _ => trivial) steps)

end PaperBroker

/-! ## Restored ids -/

/-- The ids of the lots as they are restored. -/
def restoredIds (next : ℕ) (ps : List LotState) : List ℕ := (restoreLots next ps).map (·.lotId)

/-- The ids the saved lots have. -/
def savedIds (ps : List LotState) : List ℕ := ps.filterMap (·.lotId)

/-- The ids saved differ, and none of them is the one the counter gives to a lot without. -/
def IdsApart (next : ℕ) (ps : List LotState) : Prop :=
  (savedIds ps).Nodup ∧ ∀ k p, ps[k]? = some p → p.lotId = none → next + k ∉ savedIds ps

theorem getElem?_restoredIds (ps : List LotState) (next k : ℕ) :
    (restoredIds next ps)[k]? = ps[k]?.map fun p => p.lotId.getD (next + k) := by
  induction ps generalizing next k with
  | nil => rfl
  | cons p ps ih =>
    show (p.lotId.getD next :: restoredIds (next + 1) ps)[k]? = _
    cases k with
    | zero => rfl
    | succ k =>
      rw [List.getElem?_cons_succ, List.getElem?_cons_succ, ih, Nat.add_right_comm, Nat.add_assoc]

/-- The restored lots have ids of their own exactly when the saved ids differ from each other
and from those the counter gives. -/
theorem nodup_restoredIds_iff (next : ℕ) (ps : List LotState) :
    (restoredIds next ps).Nodup ↔ IdsApart next ps := by
  have hpairs : (savedIds ps).Nodup ↔ ∀ (i j : ℕ) (p q : LotState) (a : ℕ), i < j → ps[i]? = some p →
      ps[j]? = some q → p.lotId = some a → q.lotId ≠ some a := by
    unfold savedIds List.Nodup
    rw [List.pairwise_filterMap, List.pairwise_iff_getElem]
    constructor
    · intro h i j p q a hij hi hj hp hq
      obtain ⟨hilt, rfl⟩ := List.getElem?_eq_some_iff.mp hi
      obtain ⟨hjlt, rfl⟩ := List.getElem?_eq_some_iff.mp hj
      exact h i j hilt hjlt hij a hp a hq rfl
    · intro h i j hi hj hij a ha a' ha' heq
      exact h i j _ _ a hij (List.getElem?_eq_getElem hi) (List.getElem?_eq_getElem hj) ha (heq ▸ ha')
  unfold IdsApart
  rw [hpairs, List.nodup_iff_getElem?_ne_getElem?]
  constructor
  · intro h
    refine ⟨fun i j p q a hij hi hj hp hq => ?_, fun k p hk hp hin => ?_⟩
    · have hjlt : j < (restoredIds next ps).length := by
        unfold restoredIds
        rw [List.length_map, length_restoreLots]
        exact (List.getElem?_eq_some_iff.mp hj).1
      refine h i j hij hjlt ?_
      rw [getElem?_restoredIds, getElem?_restoredIds, hi, hj, Option.map_some, Option.map_some, hp, hq]
      rfl
    · obtain ⟨q, hq, hid⟩ := List.mem_filterMap.mp hin
      obtain ⟨j, hj⟩ := List.mem_iff_getElem?.mp hq
      have hsame : (restoredIds next ps)[k]? = (restoredIds next ps)[j]? := by
        rw [getElem?_restoredIds, getElem?_restoredIds, hk, hj, Option.map_some, Option.map_some, hp,
          hid]
        rfl
      have hlen : (restoredIds next ps).length = ps.length := by
        unfold restoredIds
        rw [List.length_map, length_restoreLots]
      rcases Nat.lt_trichotomy k j with hlt | rfl | hgt
      · exact h k j hlt (hlen ▸ (List.getElem?_eq_some_iff.mp hj).1) hsame
      · rw [hk] at hj
        obtain rfl := Option.some.inj hj
        rw [hp] at hid
        cases hid
      · exact h j k hgt (hlen ▸ (List.getElem?_eq_some_iff.mp hk).1) hsame.symm
  · rintro ⟨hsaved, hfresh⟩ i j hij hj hsame
    have hlen : (restoredIds next ps).length = ps.length := by
      unfold restoredIds
      rw [List.length_map, length_restoreLots]
    have hjlt : j < ps.length := hlen ▸ hj
    have hi := List.getElem?_eq_getElem (show i < ps.length by omega)
    have hj := List.getElem?_eq_getElem hjlt
    rw [getElem?_restoredIds, getElem?_restoredIds, hi, hj, Option.map_some, Option.map_some,
      Option.some.injEq] at hsame
    have hin : ∀ {k a} {p : LotState}, ps[k]? = some p → p.lotId = some a → a ∈ savedIds ps :=
      fun hk ha => List.mem_filterMap.mpr ⟨_, List.mem_of_getElem? hk, ha⟩
    cases hp : ps[i].lotId with
    | some a =>
      cases hq : ps[j].lotId with
      | some a' =>
        rw [hp, hq] at hsame
        exact hsaved i j _ _ a hij hi hj hp (hq.trans (congrArg some hsame.symm))
      | none =>
        rw [hp, hq] at hsame
        have hid : a = next + j := hsame
        exact hfresh j _ hj hq (hid ▸ hin hi hp)
    | none =>
      cases hq : ps[j].lotId with
      | some a' =>
        rw [hp, hq] at hsame
        have hid : next + i = a' := hsame
        exact hfresh i _ hi hp (hid.symm ▸ hin hj hq)
      | none =>
        rw [hp, hq] at hsame
        simp only [Option.getD_none] at hsame
        omega

/-! ## Restoring -/

theorem restoreState_toState (b saved : PaperBroker) :
    (b.restoreState saved.toState).cash = saved.cash ∧
      (b.restoreState saved.toState).lots = saved.lots := by
  refine ⟨rfl, ?_⟩
  show restoreLots b.nextLot saved.toState.openLots = saved.lots
  rw [PaperBroker.openLots_toState, restoreLots_toState]

/-- The counter stands behind every restored lot. -/
theorem restoredIds_lt (b : PaperBroker) (st : BrokerState) :
    ∀ lot ∈ (b.restoreState st).lots, lot.lotId < (b.restoreState st).nextLot := by
  intro lot hlot
  have hle : ∀ lots : List OpenPosition, lot ∈ lots → lot.lotId ≤ maxLotId lots := by
    intro lots hin
    unfold maxLotId
    induction lots with
    | nil => cases hin
    | cons p ps ih =>
      rcases List.mem_cons.mp hin with rfl | hin
      · exact le_max_left _ _
      · exact (ih hin).trans (le_max_right _ _)
  have hmax := hle _ hlot
  have hpos : 0 < st.openLots.length := by
    rw [← length_restoreLots st.openLots b.nextLot]
    exact List.length_pos_of_mem hlot
  show lot.lotId < b.nextLot + st.openLots.length + maxLotId (b.restoreState st).lots
  omega

/-- The ids of the lots of a broker differ, and no lot opened in any run from it gets one
of them. -/
def IdsUnique (b : PaperBroker) : Prop :=
  (b.lots.map (·.lotId)).Nodup ∧ ∀ steps,
    Along PaperBroker.perform (fun b' step => ∀ id, b'.opens step = some id →
      id ∉ b.lots.map (·.lotId)) b steps

/-- What any broker saved is restored with its cash and its lots in their order; and from
any saved state the lots have ids of their own, now and later, exactly when the saved ids
and those the counter gives to lots without one are apart. -/
theorem restore_ids_iff (b : PaperBroker) (st : BrokerState) :
    ((∀ saved : PaperBroker, (b.restoreState saved.toState).cash = saved.cash ∧
      (b.restoreState saved.toState).lots = saved.lots) ∧ IdsUnique (b.restoreState st)) ↔
      IdsApart b.nextLot st.openLots := by
  rw [← nodup_restoredIds_iff]
  constructor
  · rintro ⟨-, hnodup, -⟩
    exact hnodup
  · intro hnodup
    refine ⟨restoreState_toState b, hnodup, fun steps => ?_⟩
    have hafter := PaperBroker.opens_ge (le_refl (b.restoreState st).nextLot) steps
    refine along_of_inv (I := fun _ => True)
      (C := fun b' step => ∀ id, b'.opens step = some id → (b.restoreState st).nextLot ≤ id)
      (fun b' step _ hge => ⟨fun id hid hin => ?_, trivial⟩) steps trivial hafter
    obtain ⟨lot, hlot, rfl⟩ := List.mem_map.mp hin
    exact absurd (hge _ hid) (not_le.mpr (restoredIds_lt b st lot hlot))

/-- In a new process a lot saved with the id 2, and behind it one saved without: both are
restored with the id 2. -/
theorem restored_ids_collide :
    ¬ IdsUnique (PaperBroker.restoreState { cash := 0 } { lots := [
      ⟨some 2, "BTC/USDT", 1, 100, 90, none, none⟩,
      ⟨none, "BTC/USDT", 1, 100, 90, none, none⟩] }) := by
  rintro ⟨hnodup, -⟩
  exact absurd hnodup (by decide)

end PaperTrading.Broker
