import PaperTrading.Library.LiveSteps
import PaperTrading.Library.Weekly

/-!
# Live trading against the backtest

A live account run once at every daily open, with that open as the price, beside
the engine on the same bars. Both follow automata over positions (`daysFrom_sim`
and `run_liveAt`) that differ in one thing: on a close whose lookback is not warm
the live account takes no decision. `live_simulates_iff` says when that shows:
the two are seen to do the same on every day exactly when the signal of every
unwarmed close asks for no change.
-/

namespace PaperTrading.Library

open Broker Trading

/-- A fresh account run at the opens of the `n` days from `start`: its database,
and what was seen of every open. -/
def liveDays (strategy : LibraryStrategy) (bars : List Day) (now : ℕ → ℤ) (nextLot : ℕ → ℕ)
    (start : ℕ) : ℕ → Except PyError (LibraryAccount × List OpenState)
  | 0 => .ok (.fresh, [])
  | n + 1 => do
    let s ← liveDays strategy bars now nextLot start n
    let r ← runLibraryAccount strategy s.1 (bars.take (start + n))
      (some (day bars (start + n)).open_) (some (now (start + n))) (nextLot (start + n))
    return (r.1, s.2 ++ [observed r.1 r.2])

/-- What is seen of a day of the engine's loop. -/
def Loop.opened (l l' : Loop) : OpenState where
  long := l'.state.long
  lockout := l'.state.lockout
  fill := if l.trades.length < l'.trades.length then some .exit
    else if l'.trade.isSome && l.trade.isNone then some .enter else none

/-- What is seen of the first `n` days of the engine's loop. -/
def engineDays (strategy : LibraryStrategy) (bars : List Day) (start : ℕ) :
    ℕ → Except RunError (List OpenState)
  | 0 => .ok []
  | n + 1 => do
    let seen ← engineDays strategy bars start n
    let l ← daysFrom bars (strategy.signal bars) paperCosts strategy.stopFrac PAPER_START_CASH
      start n
    let l' ← daysFrom bars (strategy.signal bars) paperCosts strategy.stopFrac PAPER_START_CASH
      start (n + 1)
    return seen ++ [l.opened l']

/-- The position of the live account after its first `n` runs. -/
def livePosition (strategy : LibraryStrategy) (bars : List Day) (start : ℕ) : ℕ → Position
  | 0 => .flat
  | n + 1 => (livePosition strategy bars start n).liveNext (strategyRule strategy bars)
      (warmAt strategy bars (start + n)) (start + n)

/-- The position of the engine after the open of its first `n` days. -/
def enginePosition (strategy : LibraryStrategy) (bars : List Day) (start : ℕ) : ℕ → Position :=
  (strategyRule strategy bars).position start

/-- What is seen of a sequence of positions. -/
def seenOf (position : ℕ → Position) : ℕ → List OpenState
  | 0 => []
  | n + 1 => seenOf position n ++ [(position n).opened (position (n + 1))]

/-! ## The live account follows its automaton -/

theorem liveDays_seen {strategy : LibraryStrategy} (tape : DailyTape)
    (hsignal : NoLookAhead strategy tape.bars) {now : ℕ → ℤ}
    (hnow : ∀ d < tape.bars.length, atDailyOpen (some (now d)) = true) (nextLot : ℕ → ℕ)
    {start n : ℕ}
    (hdays : start + n ≤ tape.bars.length) :
    ∃ account, liveDays strategy tape.bars now nextLot start n =
        .ok (account, seenOf (livePosition strategy tape.bars start) n) ∧
      LiveAt tape.bars strategy.stopFrac account (livePosition strategy tape.bars start n)
        (start + n) := by
  induction n with
  | zero => exact ⟨.fresh, rfl, liveAt_fresh start⟩
  | succ n ih =>
    obtain ⟨account, hlive, hat⟩ := ih (by omega)
    have hzero : start + n = 0 → livePosition strategy tape.bars start n = .flat := by
      intro h
      obtain rfl : n = 0 := by omega
      rfl
    obtain ⟨account', result, hrun, hat', hseen⟩ := run_liveAt tape hsignal hat hzero (by omega)
      (hnow (start + n) (by omega)) (nextLot (start + n))
    refine ⟨account', ?_, hat'⟩
    unfold liveDays
    rw [hlive]
    simp only [bind, Except.bind, hrun, pure, Except.pure, hseen]
    rfl

/-! ## The engine follows the rule -/

section
variable {bars : List Day} {signal : List Bool} {costs : Costs} {stopFrac startCash : ℚ}
variable {start : ℕ}

theorem stands_lockout {cash : ℚ} {pending : ℕ → Bool} {l : Loop} {p : Position}
    (h : Stands bars costs stopFrac cash pending l p) :
    l.state.lockout = decide (p = .locked) ∧ l.trade.isSome = p.isLong := by
  cases p with
  | flat => exact ⟨by rw [h.1]; rfl, by rw [h.2.trade]; rfl⟩
  | locked => exact ⟨by rw [h.1]; rfl, by rw [h.2.trade]; rfl⟩
  | long e => exact ⟨by rw [h.1]; rfl, by rw [h.2.trade]; rfl⟩

theorem tradesOf_length (cash : ℚ) (ss : List Sale) :
    (tradesOf bars costs cash ss).length = ss.length := by
  have := congrArg List.length (tradesOf_days bars costs ss cash)
  simpa using this

/-- What is seen of a day of the loop is what is seen of the rule's open. -/
theorem opened_sim {k : ℕ} {l l' : Loop}
    (h : Sim bars signal costs stopFrac startCash start k l)
    (h' : Sim bars signal costs stopFrac startCash start (k + 1) l') :
    l.opened l' = ((ruleOf bars signal costs stopFrac).position start k).opened
      ((ruleOf bars signal costs stopFrac).position start (k + 1)) := by
  obtain ⟨-, htrade⟩ := stands_lockout h.stands
  obtain ⟨hlock', htrade'⟩ := stands_lockout h'.stands
  have hlong' := stands_long h'.stands
  have hsold : l.trades.length < l'.trades.length ↔
      (((ruleOf bars signal costs stopFrac).position start k).sale
        (ruleOf bars signal costs stopFrac) (start + k)).isSome = true := by
    rw [h.trades, h'.trades, tradesOf_length, tradesOf_length, Rule.sales, List.length_append]
    cases Position.sale _ _ _ <;> simp
  rw [Rule.sale_isSome_iff] at hsold
  have hnone : l.trade.isNone = !((ruleOf bars signal costs stopFrac).position start k).isLong := by
    rw [← htrade]
    cases l.trade <;> rfl
  unfold Loop.opened Position.opened
  rw [hlong', hlock', htrade', hnone]
  have hexit : (l.trades.length < l'.trades.length) ↔
      ((((ruleOf bars signal costs stopFrac).position start k).isLong &&
        !((ruleOf bars signal costs stopFrac).position start (k + 1)).isLong) = true) := by
    rw [hsold, Bool.and_eq_true, Bool.not_eq_true']
    exact Iff.rfl
  simp only [hexit]

end

theorem engineDays_seen {strategy : LibraryStrategy} {bars : List Day} {start n : ℕ}
    (hdays : start + n ≤ bars.length) :
    engineDays strategy bars start n = .ok (seenOf (enginePosition strategy bars start) n) := by
  induction n with
  | zero => rfl
  | succ n ih =>
    have hlen := strategy.signal_length bars
    have hbefore : ∃ l, daysFrom bars (strategy.signal bars) paperCosts strategy.stopFrac
        PAPER_START_CASH start n = .ok l ∧ Sim bars (strategy.signal bars) paperCosts
          strategy.stopFrac PAPER_START_CASH start n l := daysFrom_sim n (by omega) (by omega)
    have hafter : ∃ l, daysFrom bars (strategy.signal bars) paperCosts strategy.stopFrac
        PAPER_START_CASH start (n + 1) = .ok l ∧ Sim bars (strategy.signal bars) paperCosts
          strategy.stopFrac PAPER_START_CASH start (n + 1) l :=
      daysFrom_sim (n + 1) (by omega) (by omega)
    obtain ⟨l, hl, hsim⟩ := hbefore
    obtain ⟨l', hl', hsim'⟩ := hafter
    unfold engineDays
    rw [ih (by omega), hl, hl']
    simp only [bind, Except.bind, pure, Except.pure, opened_sim hsim hsim']
    rfl

/-! ## When the two agree -/

/-- The signal of the close before the open of day `d` asks for no change of a
position. -/
def Idles (R : Rule) (d : ℕ) (p : Position) : Prop := R.on d = decide (p ≠ .flat)

theorem skip_opened_iff {R : Rule} {d : ℕ} {p : Position} :
    p.opened (p.skip R d) = p.opened (p.next R d) ↔ Idles R d p := by
  unfold Idles
  cases p with
  | flat =>
    cases hd : R.on d <;> simp [Position.opened, Position.skip, Position.next, Position.isLong, hd]
  | locked =>
    cases hd : R.on d <;> simp [Position.opened, Position.skip, Position.next, Position.isLong, hd]
  | long e =>
    cases hd : R.on d <;> cases hb : R.breached e (d - 1) <;>
      simp [Position.opened, Position.skip, Position.next, Position.isLong, hd, hb]

theorem Idles.skip {R : Rule} {d : ℕ} {p : Position} (h : Idles R d p) :
    p.skip R d = p.next R d := by
  unfold Idles at h
  cases p with
  | flat => simp_all [Position.skip, Position.next]
  | locked => simp_all [Position.skip, Position.next]
  | long e => cases hb : R.breached e (d - 1) <;> simp_all [Position.skip, Position.next]

/-- The live account and the engine are seen to do the same for `n` days exactly
when every unwarmed close asked for no change, and then their positions are the
same. -/
theorem positions_agree_iff (strategy : LibraryStrategy) (bars : List Day) (start n : ℕ) :
    (seenOf (livePosition strategy bars start) n = seenOf (enginePosition strategy bars start) n ↔
      ∀ k < n, warmAt strategy bars (start + k) = false →
        Idles (strategyRule strategy bars) (start + k) (enginePosition strategy bars start k)) ∧
    (seenOf (livePosition strategy bars start) n = seenOf (enginePosition strategy bars start) n →
      livePosition strategy bars start n = enginePosition strategy bars start n) := by
  induction n with
  | zero => exact ⟨⟨fun _ => nofun, fun _ => rfl⟩, fun _ => rfl⟩
  | succ n ih =>
    obtain ⟨hiff, hsame⟩ := ih
    have hsplit : seenOf (livePosition strategy bars start) (n + 1) =
          seenOf (enginePosition strategy bars start) (n + 1) ↔
        seenOf (livePosition strategy bars start) n = seenOf (enginePosition strategy bars start) n ∧
        (livePosition strategy bars start n).opened (livePosition strategy bars start (n + 1)) =
          (enginePosition strategy bars start n).opened
            (enginePosition strategy bars start (n + 1)) := by
      simp only [seenOf]
      constructor
      · intro h
        obtain ⟨hinit, hlast⟩ := List.append_inj' h rfl
        exact ⟨hinit, List.singleton_inj.mp hlast⟩
      · rintro ⟨hinit, hlast⟩
        rw [hinit, hlast]
    have hmore : (∀ k < n + 1, warmAt strategy bars (start + k) = false →
          Idles (strategyRule strategy bars) (start + k) (enginePosition strategy bars start k)) ↔
        (∀ k < n, warmAt strategy bars (start + k) = false →
          Idles (strategyRule strategy bars) (start + k) (enginePosition strategy bars start k)) ∧
        (warmAt strategy bars (start + n) = false →
          Idles (strategyRule strategy bars) (start + n) (enginePosition strategy bars start n)) := by
      constructor
      · intro h
        exact ⟨fun k hk => h k (by omega), h n (by omega)⟩
      · rintro ⟨h, hn⟩ k hk
        rcases Nat.lt_or_ge k n with hlt | hge
        · exact h k hlt
        · obtain rfl : k = n := by omega
          exact hn
    -- from equal positions, one more day differs only if it is unwarmed and not idle
    have hday : livePosition strategy bars start n = enginePosition strategy bars start n →
        ((livePosition strategy bars start n).opened (livePosition strategy bars start (n + 1)) =
          (enginePosition strategy bars start n).opened
            (enginePosition strategy bars start (n + 1)) ↔
        (warmAt strategy bars (start + n) = false →
          Idles (strategyRule strategy bars) (start + n) (enginePosition strategy bars start n))) := by
      intro hpos
      show _ = Position.opened _ ((enginePosition strategy bars start n).next
        (strategyRule strategy bars) (start + n)) ↔ _
      rw [livePosition, hpos]
      unfold Position.liveNext
      cases warmAt strategy bars (start + n) with
      | true => simp
      | false =>
        simp only [Bool.false_eq_true, if_false, forall_const]
        exact skip_opened_iff
    rw [hsplit, hmore]
    refine ⟨?_, ?_⟩
    · constructor
      · rintro ⟨hinit, hlast⟩
        exact ⟨hiff.mp hinit, (hday (hsame hinit)).mp hlast⟩
      · rintro ⟨hinit, hlast⟩
        have hinit := hiff.mpr hinit
        exact ⟨hinit, (hday (hsame hinit)).mpr hlast⟩
    · rintro ⟨hinit, hlast⟩
      have hpos := hsame hinit
      have hidle := (hday hpos).mp hlast
      show _ = (enginePosition strategy bars start n).next (strategyRule strategy bars) (start + n)
      rw [livePosition, hpos]
      unfold Position.liveNext
      cases hw : warmAt strategy bars (start + n) with
      | true => rfl
      | false => exact (hidle hw).skip

/-- A live account run once at each daily open, with that open as price, is seen
to be long or flat, locked or not, and to fill on the days the engine's loop does,
for any number of days, exactly when on every close that was not warm to the run
the signal asked for no change of the engine's position: off while flat, on while
long or locked. -/
theorem live_simulates_iff (strategy : LibraryStrategy) (tape : DailyTape)
    (hsignal : NoLookAhead strategy tape.bars) (now : ℕ → ℤ)
    (hnow : ∀ d < tape.bars.length, atDailyOpen (some (now d)) = true) (nextLot : ℕ → ℕ)
    (start n : ℕ)
    (hdays : start + n ≤ tape.bars.length) :
    ∃ account seen seen',
      liveDays strategy tape.bars now nextLot start n = .ok (account, seen) ∧
      engineDays strategy tape.bars start n = .ok seen' ∧
      (seen = seen' ↔ ∀ k < n, warmAt strategy tape.bars (start + k) = false →
        onBefore (strategy.signal tape.bars) (start + k) =
          decide (enginePosition strategy tape.bars start k ≠ .flat)) := by
  obtain ⟨account, hlive, -⟩ := liveDays_seen tape hsignal hnow nextLot hdays
  exact ⟨account, _, _, hlive, engineDays_seen hdays,
    (positions_agree_iff strategy tape.bars start n).1⟩

/-! ## A tape without one Sunday -/

/-- Day numbers since 1970: two weeks and a half, one Sunday missing. -/
def gapDays : List ℤ :=
  [3, 4, 5, 6, 7, 8, 9, 10, 11, 12, 13, 14, 15, 16, 18, 19, 20, 21, 22, 23, 24, 25]

def gapTape : DailyTape where
  bars := gapDays.map fun n => ⟨n * DAY_MS, 100 + n, 100 + n, 100 + n, 100 + n⟩
  ascending := by decide +kernel
  priced := by decide +kernel

theorem gapTape_noLookAhead : NoLookAhead tsmom1w gapTape.bars := by
  unfold NoLookAhead
  decide +kernel

theorem live_simulates_iff_gap :
    ∃ account seen seen',
      liveDays tsmom1w gapTape.bars (tsAt gapTape.bars) (fun _ => 1) 8 14 = .ok (account, seen) ∧
      engineDays tsmom1w gapTape.bars 8 14 = .ok seen' ∧
      (seen = seen' ↔ ∀ k < 14, warmAt tsmom1w gapTape.bars (8 + k) = false →
        onBefore (tsmom1w.signal gapTape.bars) (8 + k) =
          decide (enginePosition tsmom1w gapTape.bars 8 k ≠ .flat)) :=
  live_simulates_iff tsmom1w gapTape gapTape_noLookAhead (tsAt gapTape.bars) (by decide +kernel)
    (fun _ => 1) 8 14 (by decide)

/-- Weekly momentum is bought after the second Sunday. Behind the missing one its
mask is off everywhere: the engine sells, as the signal says, and the live account
skips the day and keeps the position. -/
theorem live_differs_on_gap :
    NoLookAhead tsmom1w gapTape.bars ∧
    (∀ d < gapTape.bars.length, atDailyOpen (some (tsAt gapTape.bars d)) = true) ∧
    8 + 14 ≤ gapTape.bars.length ∧
    ∃ seen seen',
      (liveDays tsmom1w gapTape.bars (tsAt gapTape.bars) (fun _ => 1) 8 14).toOption.map (·.2) =
        some seen ∧
      (engineDays tsmom1w gapTape.bars 8 14).toOption = some seen' ∧
      seen'.getLast? = some { long := false, lockout := false, fill := some .exit } ∧
      seen.getLast? = some { long := true, lockout := false, fill := none } ∧ seen ≠ seen' := by
  refine ⟨gapTape_noLookAhead, by decide +kernel, by decide,
    { long := true, lockout := false, fill := some .enter } ::
      List.replicate 13 { long := true, lockout := false, fill := none },
    { long := true, lockout := false, fill := some .enter } ::
      (List.replicate 12 { long := true, lockout := false, fill := none } ++
        [{ long := false, lockout := false, fill := some .exit }]), ?_, ?_, ?_, ?_, ?_⟩
  · decide +kernel
  · decide +kernel
  · decide
  · decide
  · decide

end PaperTrading.Library
