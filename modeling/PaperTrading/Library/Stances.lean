import PaperTrading.Library.LiveSteps

/-!
# A run of any live account

`LiveSteps.lean` follows an account run at every daily open, with that open as
the price. Here a run comes at any time and at any price, after any number of
days: `Stance` is where an account stands, with the stop its lot was given, and
`run_standing` says where a run takes it. `Reached.standing`: every account that
runs can lead to stands somewhere.
-/

namespace PaperTrading.Library

open Broker Trading

/-! ## Stances -/

/-- Flat, locked out after a stop, or long with the stop of the lot. -/
inductive Stance where
  | flat
  | locked
  | long (stopLoss : ℚ)
deriving DecidableEq, Repr

/-- A completed day as the replay reads it. -/
structure Close where
  warm : Bool
  on : Bool
  day : Day
deriving DecidableEq, Repr

/-- The days' closes by their index. -/
def closeAt (bars : List Day) (signal ready : List Bool) (i : ℕ) : Close :=
  ⟨flagAt ready i, flagAt signal i, day bars i⟩

/-- `_stop_level` of a lot: a stop of zero is none. -/
def levelOf (stopLoss : ℚ) : Option ℚ := if 0 < stopLoss then some stopLoss else none

namespace Stance

def isLong : Stance → Bool
  | .long _ => true
  | _ => false

def stopLoss : Stance → Option ℚ
  | .long x => some x
  | _ => none

/-- The machine's flags, with no stop pending. -/
def machine (p : Stance) : MachineState :=
  { long := p.isLong, lockout := decide (p = .locked) }

/-- One close, decided on by a run of its own: an entry is given the stop `bought`. -/
def close (c : Close) (bought : ℚ) : Stance → Stance
  | .flat => if c.warm && c.on then .long bought else .flat
  | .locked => if c.warm && !c.on then .flat else .locked
  | .long x =>
    if c.warm && !c.on then .flat else if reaches c.day (levelOf x) then .locked else .long x

/-- One close of a replay. A lot the replay enters is held against `x`, the stop of
the lot that was on before, from the day of the signal on. -/
def replay (x : ℚ) (c : Close) : Stance → Stance
  | .flat =>
    if c.warm && c.on then (if reaches c.day (levelOf x) then .locked else .long x) else .flat
  | p => p.close c x

/-- What the net change of a replay from `p` to `q` comes to. `deferred` is whether
the account awaits its first open, `signal` what it enters on then. -/
def settled (deferred atOpen : Bool) (signal : Option Bool) (bought : ℚ) (p q : Stance) : Stance :=
  if q.isLong then
    if p.isLong then p else if deferred && !atOpen then .flat else .long bought
  else if deferred && atOpen && signal = some true && q = .flat then .long bought
  else q

end Stance

open Stance

/-! ## The replay of the pending days -/

section
variable {bars : List Day} {signal ready : List Bool}

/-- A long stance of a replay has the stop of the lot that was on before. -/
def OnStop (x : ℚ) (q : Stance) : Prop := ∀ y, q = .long y → y = x

theorem OnStop.replay {x : ℚ} {q : Stance} {c : Close} (h : OnStop x q) :
    OnStop x (q.replay x c) := by
  intro y hy
  cases q with
  | flat =>
    cases hw : c.warm <;> cases ho : c.on <;> cases hr : reaches c.day (levelOf x) <;>
      simp_all [Stance.replay]
  | locked => cases hw : c.warm <;> cases ho : c.on <;> simp_all [Stance.replay, Stance.close]
  | long z =>
    obtain rfl := h z rfl
    cases hw : c.warm <;> cases ho : c.on <;> cases hr : reaches c.day (levelOf z) <;>
      simp_all [Stance.replay, Stance.close]

theorem reaches_levelOf_zero (today : Day) : reaches today (levelOf 0) = false := rfl

theorem Stance.machine_long {q : Stance} : q.machine.long = q.isLong := rfl

theorem Stance.stopLoss_of_not_long {p : Stance} (h : p.isLong = false) :
    p.stopLoss.getD 0 = 0 := by
  cases p with
  | flat => rfl
  | locked => rfl
  | long x => cases h

/-- Without a stop there is no lock to come by. -/
theorem locked_of_replay {x : ℚ} {q : Stance} {c : Close} (hx : x = 0) (hstop : OnStop x q)
    (h : q.replay x c = .locked) : q = .locked := by
  subst hx
  cases q with
  | flat => cases hw : c.warm <;> cases ho : c.on <;> simp_all [Stance.replay, reaches_levelOf_zero]
  | locked => rfl
  | long y =>
    obtain rfl := hstop y rfl
    cases hw : c.warm <;> cases ho : c.on <;>
      simp_all [Stance.replay, Stance.close, reaches_levelOf_zero]

/-- The machine of an account whose stop is to be filled at the next open. -/
def pendingMachine : MachineState := { long := true, lockout := false, stopPending := true }

/-- One pending day, with no stop left over from the day before. A stop is filled at
once on the last day, and at the next open on the others. -/
theorem replayDay_machine_of {p q : Stance} {s : Replay} {i last : ℕ} (hm : s.machine = q.machine)
    (hstop : OnStop (p.stopLoss.getD 0) q) :
    (replayDay bars signal ready p.isLong (levelOf (p.stopLoss.getD 0)) last s i).machine =
      if i ≠ last ∧ q ≠ .locked ∧
          q.replay (p.stopLoss.getD 0) (closeAt bars signal ready i) = .locked
      then pendingMachine
      else (q.replay (p.stopLoss.getD 0) (closeAt bars signal ready i)).machine := by
  have hnever : p.isLong = false →
      reaches (closeAt bars signal ready i).day (levelOf (p.stopLoss.getD 0)) = false := by
    intro hp
    rw [stopLoss_of_not_long hp, reaches_levelOf_zero]
  obtain ⟨x, hx⟩ : ∃ x, p.stopLoss.getD 0 = x := ⟨_, rfl⟩
  rw [hx] at hnever hstop ⊢
  unfold replayDay
  rw [hm]
  change p.isLong = false → reaches (day bars i) (levelOf x) = false at hnever
  cases q with
  | flat =>
    cases hp : p.isLong <;> cases hwarm : flagAt ready i <;> cases hon : flagAt signal i <;>
      cases hreach : reaches (day bars i) (levelOf x) <;> by_cases hi : i = last <;>
      simp_all [closeAt, Stance.replay, Stance.machine, Stance.isLong, step, stopOut,
        pendingMachine]
  | locked =>
    cases hp : p.isLong <;> cases hwarm : flagAt ready i <;> cases hon : flagAt signal i <;>
      simp_all [closeAt, Stance.replay, Stance.close, Stance.machine, Stance.isLong, step]
  | long y =>
    obtain rfl := hstop y rfl
    cases hp : p.isLong <;> cases hwarm : flagAt ready i <;> cases hon : flagAt signal i <;>
      cases hreach : reaches (day bars i) (levelOf y) <;> by_cases hi : i = last <;>
      simp_all [closeAt, Stance.replay, Stance.close, Stance.machine, Stance.isLong, step, stopOut,
        pendingMachine]

/-- A stop left over is filled first. -/
theorem replayDay_pending {wasLong : Bool} {lotStop : Option ℚ} {s : Replay} {i last : ℕ}
    (hlong : wasLong = true) (hm : s.machine = pendingMachine) :
    replayDay bars signal ready wasLong lotStop last s i =
      replayDay bars signal ready wasLong lotStop last
        { s with machine := Stance.locked.machine, exitReason := some .safetyStop } i := by
  subst hlong
  unfold replayDay
  rw [hm]
  rfl

/-- The machine stands for `q`, or has still to sell at the next open. -/
def StandsFor (wasLong : Bool) (q : Stance) (m : MachineState) : Prop :=
  m = q.machine ∨ wasLong = true ∧ q = .locked ∧ m = pendingMachine

theorem replayDay_stands {p q : Stance} {s : Replay} {i last : ℕ}
    (hstands : StandsFor p.isLong q s.machine) (hstop : OnStop (p.stopLoss.getD 0) q) :
    StandsFor p.isLong (q.replay (p.stopLoss.getD 0) (closeAt bars signal ready i))
        (replayDay bars signal ready p.isLong (levelOf (p.stopLoss.getD 0)) last s i).machine ∧
      (i = last →
        (replayDay bars signal ready p.isLong (levelOf (p.stopLoss.getD 0)) last s i).machine =
          (q.replay (p.stopLoss.getD 0) (closeAt bars signal ready i)).machine) := by
  have hsettled : ∀ s' : Replay, s'.machine = q.machine →
      StandsFor p.isLong (q.replay (p.stopLoss.getD 0) (closeAt bars signal ready i))
        (replayDay bars signal ready p.isLong (levelOf (p.stopLoss.getD 0)) last s' i).machine ∧
      (i = last →
        (replayDay bars signal ready p.isLong (levelOf (p.stopLoss.getD 0)) last s' i).machine =
          (q.replay (p.stopLoss.getD 0) (closeAt bars signal ready i)).machine) := by
    intro s' hm
    rw [replayDay_machine_of hm hstop]
    by_cases hbreach : i ≠ last ∧ q ≠ .locked ∧
        q.replay (p.stopLoss.getD 0) (closeAt bars signal ready i) = .locked
    · rw [if_pos hbreach]
      have hp : p.isLong = true := by
        by_contra hp
        exact hbreach.2.1 (locked_of_replay (stopLoss_of_not_long (by simpa using hp)) hstop
          hbreach.2.2)
      exact ⟨.inr ⟨hp, hbreach.2.2, rfl⟩, fun hi => absurd hi hbreach.1⟩
    · rw [if_neg hbreach]
      exact ⟨.inl rfl, fun _ => rfl⟩
  rcases hstands with hm | ⟨hp, rfl, hm⟩
  · exact hsettled s hm
  · rw [replayDay_pending hp hm]
    exact hsettled _ rfl

variable (bars signal ready) in
theorem foldl_stands (p : Stance) (last : ℕ) (pending : List ℕ) {q : Stance} {s : Replay}
    (hstands : StandsFor p.isLong q s.machine) (hstop : OnStop (p.stopLoss.getD 0) q) :
    StandsFor p.isLong
        ((pending.map (closeAt bars signal ready)).foldl (·.replay (p.stopLoss.getD 0) ·) q)
        (pending.foldl (replayDay bars signal ready p.isLong (levelOf (p.stopLoss.getD 0)) last)
          s).machine ∧
      OnStop (p.stopLoss.getD 0)
        ((pending.map (closeAt bars signal ready)).foldl (·.replay (p.stopLoss.getD 0) ·) q) := by
  induction pending generalizing q s with
  | nil => exact ⟨hstands, hstop⟩
  | cons i pending ih => exact ih (replayDay_stands hstands hstop).1 hstop.replay

variable (bars signal ready) in
/-- The replay of the pending days, from a machine that stands for `p`: the last of
them leaves nothing pending. -/
theorem replay_machine (p : Stance) (pending : List ℕ) :
    (pending.foldl (replayDay bars signal ready p.isLong (levelOf (p.stopLoss.getD 0))
      (pending.getLast?.getD 0)) { machine := p.machine }).machine =
      ((pending.map (closeAt bars signal ready)).foldl (·.replay (p.stopLoss.getD 0) ·)
        p).machine := by
  have hstop : OnStop (p.stopLoss.getD 0) p := by
    rintro y rfl
    rfl
  rcases List.eq_nil_or_concat pending with rfl | ⟨init, last, rfl⟩
  · rfl
  · obtain ⟨hinit, hinitStop⟩ := foldl_stands bars signal ready p
      last init (q := p) (s := { machine := p.machine }) (.inl rfl) hstop
    rw [List.concat_eq_append, List.getLast?_append, List.getLast?_singleton, Option.some_or,
      List.map_append, List.foldl_append, List.foldl_append]
    exact (replayDay_stands hinit hinitStop).2 rfl

end

/-! ## The net change -/

/-- A run in progress that stands in `p`. -/
structure RunStands (r : LiveRun) (p : Stance) : Prop where
  machine : r.machine = p.machine
  books : Books r.broker p.stopLoss
  fees : r.broker.takerFee = TAKER_FEE ∧ r.broker.slippage = SLIPPAGE
  deferred : r.raw.deferEntry = true → p = .flat

theorem Books.isEmpty {b : PaperBroker} {p : Stance} (h : Books b p.stopLoss) :
    b.lots.isEmpty = !p.isLong := by
  cases p with
  | flat => rw [h.2]; rfl
  | locked => rw [h.2]; rfl
  | long x =>
    obtain ⟨-, lot, hlots, -⟩ := h
    rw [hlots]
    rfl

theorem Stance.stopLoss_none {p : Stance} (h : p.isLong = false) : p.stopLoss = none := by
  cases p with
  | flat => rfl
  | locked => rfl
  | long x => cases h

/-- A buy of a run whose books are flat, marked as entered. -/
theorem buy_stands {r : LiveRun} {price : ℚ} (stopFrac : ℚ) (condition : String)
    (hbooks : Books r.broker none)
    (hfees : r.broker.takerFee = TAKER_FEE ∧ r.broker.slippage = SLIPPAGE) (hprice : 0 < price)
    (hactions : r.actions = []) (hlong : r.machine = { long := true, lockout := false }) :
    ∃ r', r.buy price stopFrac condition = .ok r' ∧
      RunStands r'.entered (.long (boughtStop price stopFrac)) ∧
      r'.entered.raw.lastDay = r.raw.lastDay := by
  have hbuy : ∃ r' act, r.buy price stopFrac condition = .ok r' ∧
      r'.actions = r.actions ++ [act] ∧ act.action = .enter ∧ r'.machine = r.machine ∧
      r'.raw = r.raw ∧ Books r'.broker (some (boughtStop price stopFrac)) ∧
      r'.broker.takerFee = TAKER_FEE ∧ r'.broker.slippage = SLIPPAGE := buy_books hbooks hfees hprice
  obtain ⟨r', act, hok, hacts, henter, hm, hraw, hheld, hfees'⟩ := hbuy
  rw [hactions, List.nil_append] at hacts
  refine ⟨r', hok, ⟨?_, hheld, hfees', nofun⟩, ?_⟩
  · rw [entered_machine hacts henter, hm, hlong]
    rfl
  · show r'.raw.lastDay = _
    rw [hraw]

/-- The net change of a replay from `p` to `q`, traded at any price. -/
theorem trade_stands (strategy : LibraryStrategy) (condition : String) {r : LiveRun}
    {p q : Stance} {price : ℚ} (atOpen : Bool) (exitReason : Option Reason) (signal : Option Bool)
    (h : RunStands { r with machine := p.machine } p) (hmachine : r.machine = q.machine)
    (hdeferred : r.raw.deferEntry = true → q ≠ .locked)
    (hkept : p.isLong = true → q.isLong = true → q = p)
    (hactions : r.actions = []) (hprice : 0 < price) :
    ∃ r', r.trade strategy condition price p.isLong atOpen exitReason signal = .ok r' ∧
      RunStands r' (settled r.raw.deferEntry atOpen signal (boughtStop price strategy.stopFrac) p q) ∧
      r'.raw.lastDay = r.raw.lastDay ∧
      ((r.raw.deferEntry && !atOpen) = false → r'.raw.deferEntry = false) ∧
      (p.isLong = true → q.isLong = false →
        ∃ act ∈ r'.actions, act.action = .closeStop ∨ act.action = .closeSignal) := by
  have hbooks : Books r.broker p.stopLoss := h.books
  have hfees : r.broker.takerFee = TAKER_FEE ∧ r.broker.slippage = SLIPPAGE := h.fees
  have hflat : r.raw.deferEntry = true → p = .flat := h.deferred
  have hlong : r.machine.long = q.isLong := by rw [hmachine]; rfl
  unfold LiveRun.trade settled
  rw [hlong]
  cases hq : q.isLong with
  | true =>
    cases hp : p.isLong with
    | true =>
      -- it stays long
      obtain rfl := hkept hp hq
      have hdefer : r.raw.deferEntry = false := by
        by_contra hd
        rw [hflat (by simpa using hd)] at hq
        cases hq
      simp only [hdefer, Bool.not_true, Bool.and_false, Bool.false_eq_true, if_false,
        Bool.false_and, if_true]
      exact ⟨r, rfl, ⟨hmachine, hbooks, hfees, fun hd => absurd hd (by simp [hdefer])⟩, rfl,
        fun _ => hdefer, nofun⟩
    | false =>
      rw [Stance.stopLoss_none hp] at hbooks
      by_cases hwait : (r.raw.deferEntry && !atOpen) = true
      · -- a new day before the open the account awaits
        simp only [hwait, Bool.not_false, Bool.and_self, if_true, Bool.false_eq_true, if_false]
        refine ⟨_, rfl, ⟨?_, hbooks, hfees, fun _ => rfl⟩, rfl, nofun, nofun⟩
        show { r.machine with long := false } = _
        rw [hmachine]
        cases q with
        | flat => cases hq
        | locked => cases hq
        | long x => rfl
      · -- an entry
        have hentry : r.machine = { long := true, lockout := false } := by
          rw [hmachine]
          cases q with
          | flat => cases hq
          | locked => cases hq
          | long x => rfl
        have hbuy : ∃ r', r.buy price strategy.stopFrac condition = .ok r' ∧
            RunStands r'.entered (.long (boughtStop price strategy.stopFrac)) ∧
            r'.entered.raw.lastDay = r.raw.lastDay :=
          buy_stands _ _ hbooks hfees hprice hactions hentry
        obtain ⟨r', hok, hstands, hlast⟩ := hbuy
        simp only [hwait, Bool.not_false, Bool.and_self, if_true, Bool.false_eq_true, if_false, hok,
          bind, Except.bind]
        exact ⟨_, rfl, hstands, hlast, fun _ => rfl, nofun⟩
  | false =>
    cases hp : p.isLong with
    | true =>
      -- a sale
      have hdefer : r.raw.deferEntry = false := by
        by_contra hd
        rw [hflat (by simpa using hd)] at hp
        cases hp
      have hlots : r.broker.lots.isEmpty = false := by
        rw [hbooks.isEmpty, hp]
        rfl
      obtain ⟨x, rfl⟩ : ∃ x, p = .long x := by
        cases p with
        | flat => cases hp
        | locked => cases hp
        | long x => exact ⟨x, rfl⟩
      have hsell : ∃ r' act, r.sell price (exitReason.getD .signal) = .ok r' ∧
          r'.actions = r.actions ++ [act] ∧
          (act.action = .closeStop ∨ act.action = .closeSignal) ∧ r'.machine = r.machine ∧
          r'.raw = r.raw ∧ Books r'.broker none ∧
          r'.broker.takerFee = TAKER_FEE ∧ r'.broker.slippage = SLIPPAGE :=
        sell_books hbooks hfees hprice
      obtain ⟨r', act, hok, hacts, hkind, hm, hraw, hbooks', hfees'⟩ := hsell
      simp only [hdefer, hlots, Bool.not_false, Bool.and_self, Bool.not_true, if_true,
        Bool.false_eq_true, if_false, Bool.false_and, hok]
      have hdefer' : r'.raw.deferEntry = false := by rw [hraw, hdefer]
      refine ⟨r', rfl, ⟨hm.trans hmachine, ?_, hfees', ?_⟩, by rw [hraw], fun _ => hdefer',
        fun _ _ => ⟨act, ?_, hkind⟩⟩
      · rw [Stance.stopLoss_none hq]
        exact hbooks'
      · intro hd
        cases hdefer'.symm.trans hd
      · rw [hacts]
        exact List.mem_append_right _ List.mem_cons_self
    | false =>
      rw [Stance.stopLoss_none hp] at hbooks
      have hidle : Books r.broker q.stopLoss := by
        rw [Stance.stopLoss_none hq]
        exact hbooks
      by_cases hnow : (r.raw.deferEntry && atOpen) = true
      · -- the open the account awaits
        have hdefer : r.raw.deferEntry = true := (Bool.and_eq_true_iff.mp hnow).1
        have hfree : q = .flat := by
          cases q with
          | flat => rfl
          | locked => exact absurd rfl (hdeferred hdefer)
          | long x => cases hq
        subst hfree
        by_cases hsignal : signal = some true
        · obtain ⟨r', hok, hstands, hlast⟩ := buy_stands
            (r := { r with
              raw := { r.raw with deferEntry := false, awaitOpenMs := none }
              machine := { r.machine with long := true } })
            strategy.stopFrac condition hbooks hfees hprice hactions
            (by rw [hmachine]; rfl)
          have hlockout : r.machine.lockout = false := by rw [hmachine]; rfl
          simp only [hlockout] at hok
          simp only [hnow, hsignal, hlockout, hlong, hq, Bool.not_false, Bool.and_self, if_true,
            Bool.false_eq_true, if_false, Bool.false_and, decide_true, hok, bind, Except.bind]
          exact ⟨_, rfl, hstands, hlast, fun _ => rfl, nofun⟩
        · simp only [hnow, hsignal, Bool.false_eq_true, if_false, Bool.false_and, Bool.and_false,
            if_true, decide_false]
          exact ⟨_, rfl, ⟨hmachine, hbooks, hfees, nofun⟩, rfl, fun _ => rfl, nofun⟩
      · simp only [hnow, Bool.false_eq_true, if_false, Bool.false_and]
        refine ⟨r, rfl, ⟨hmachine, hidle, hfees, fun hd => ?_⟩, rfl, fun hwait => ?_, nofun⟩
        · cases q with
          | flat => rfl
          | locked => exact absurd rfl (hdeferred hd)
          | long x => cases hq
        · cases hd : r.raw.deferEntry <;> cases ho : atOpen <;> simp_all

/-! ## A run -/

/-- The saved account that stands in `p`. -/
structure Standing (account : LibraryAccount) (p : Stance) : Prop where
  machine : ∀ nextLot, (openAccount account nextLot).2 = p.machine
  books : ∀ nextLot, Books (openAccount account nextLot).1 p.stopLoss
  fees : ∀ nextLot, (openAccount account nextLot).1.takerFee = TAKER_FEE ∧
    (openAccount account nextLot).1.slippage = SLIPPAGE
  deferred : account.library.deferEntry = true → p = .flat
  fresh : account.library.lastDay = none → p = .flat ∧ account.library.deferEntry = false

theorem standing_fresh : Standing .fresh .flat where
  machine := fun _ => rfl
  books := fun _ => ⟨by show (0 : ℚ) < PAPER_START_CASH; decide +kernel, rfl⟩
  fees := fun _ => ⟨rfl, rfl⟩
  deferred := nofun
  fresh := fun _ => ⟨rfl, rfl⟩

/-- The stance the pending days lead to, before anything is traded. -/
def replayed (strategy : LibraryStrategy) (bars : List Day) (pending : List ℕ) (p : Stance) :
    Stance :=
  (pending.map (closeAt bars (strategy.signal bars) (strategy.positionReady bars))).foldl
    (·.replay (p.stopLoss.getD 0) ·) p

section
variable (strategy : LibraryStrategy) (bars : List Day) (raw : LibraryRaw) (nowMs : Option ℤ)

/-- The pending days of a run. -/
def pendingOf : List ℕ :=
  (pendingDays bars (strategy.signal bars) (strategy.positionReady bars) raw nowMs).1

/-- The blob once the pending days are marked. -/
def processedOf : LibraryRaw :=
  markProcessed bars (strategy.signal bars) (strategy.positionReady bars)
    (pendingOf strategy bars raw nowMs)
    (pendingDays bars (strategy.signal bars) (strategy.positionReady bars) raw nowMs).2

/-- Where a run takes the account. -/
def runStance (price : ℚ) (p : Stance) : Stance :=
  if bars = [] then p
  else
    settled (processedOf strategy bars raw nowMs).deferEntry (atDailyOpen nowMs)
      (signalNow bars (strategy.signal bars) (strategy.positionReady bars)
        (processedOf strategy bars raw nowMs))
      (boughtStop price strategy.stopFrac) p
      (replayed strategy bars (pendingOf strategy bars raw nowMs) p)

end

theorem Books.lotStop {b : PaperBroker} {p : Stance} (h : Books b p.stopLoss) :
    (if p.isLong then stopLevel b else none) = levelOf (p.stopLoss.getD 0) := by
  cases p with
  | flat => rfl
  | locked => rfl
  | long x =>
    obtain ⟨-, lot, hlots, hticker, -, rfl⟩ := h
    unfold stopLevel levelOf
    rw [hlots]
    by_cases hpos : 0 < lot.stopLoss
    · simp [Stance.isLong, Stance.stopLoss, hticker, hpos]
    · simp [Stance.isLong, Stance.stopLoss, hpos]

theorem onStop_self (p : Stance) : OnStop (p.stopLoss.getD 0) p := by
  rintro y rfl
  rfl

theorem foldl_onStop {x : ℚ} {q : Stance} (cs : List Close) (h : OnStop x q) :
    OnStop x (cs.foldl (·.replay x ·) q) := by
  induction cs generalizing q with
  | nil => exact h
  | cons c cs ih => exact ih h.replay

/-- Without a stop a replay locks nothing. -/
theorem foldl_not_locked {q : Stance} (cs : List Close) (hstop : OnStop 0 q) (hq : q ≠ .locked) :
    cs.foldl (·.replay 0 ·) q ≠ .locked := by
  induction cs generalizing q with
  | nil => exact hq
  | cons c cs ih => exact ih hstop.replay fun h => hq (locked_of_replay rfl hstop h)

/-- A position that is on before and after a replay is the same. -/
theorem replayed_long {strategy : LibraryStrategy} {bars : List Day} {pending : List ℕ} {p : Stance}
    (hp : p.isLong = true) (hq : (replayed strategy bars pending p).isLong = true) :
    replayed strategy bars pending p = p := by
  have hstop : OnStop (p.stopLoss.getD 0) (replayed strategy bars pending p) :=
    foldl_onStop _ (onStop_self p)
  cases hr : replayed strategy bars pending p with
  | flat => rw [hr] at hq; cases hq
  | locked => rw [hr] at hq; cases hq
  | long y =>
    cases p with
    | flat => cases hp
    | locked => cases hp
    | long x => rw [hstop y hr]; rfl

/-- An account that defers its entry stands flat. -/
theorem processedOf_deferred (strategy : LibraryStrategy) {account : LibraryAccount} {p : Stance}
    (h : Standing account p) (bars : List Day) (nowMs : Option ℤ)
    (hd : (processedOf strategy bars account.library nowMs).deferEntry = true) : p = .flat := by
  by_cases hfresh : account.library.lastDay = none
  · exact (h.fresh hfresh).1
  · obtain ⟨t, ht⟩ := Option.ne_none_iff_exists'.mp hfresh
    refine h.deferred ?_
    rw [← hd]
    unfold processedOf pendingOf pendingDays markProcessed
    simp only [ht]
    split <;> rfl

theorem processedOf_lastDay (strategy : LibraryStrategy) (bars : List Day) (raw : LibraryRaw)
    (nowMs : Option ℤ) : (processedOf strategy bars raw nowMs).lastDay ≠ none := by
  unfold processedOf pendingOf markProcessed
  cases hlast : (pendingDays bars (strategy.signal bars) (strategy.positionReady bars) raw
      nowMs).1.getLast? with
  | some last => simp
  | none =>
    rw [List.getLast?_eq_none_iff] at hlast
    revert hlast
    unfold pendingDays
    cases hd : raw.lastDay with
    | some t => simp [hd]
    | none =>
      by_cases hopen : atDailyOpen nowMs = true
      · simp [hopen]
      · simp only [hopen, Bool.false_eq_true, if_false]
        split
        · split <;> simp
        · simp

/-- The decision of a run. -/
theorem decide_stands {strategy : LibraryStrategy} {account : LibraryAccount} {p : Stance}
    (h : Standing account p) {bars : List Day} (hbars : bars ≠ []) {price : ℚ} (hprice : 0 < price)
    (nowMs : Option ℤ) (nextLot : ℕ) (condition : String) :
    ∃ r signal,
      LiveRun.decide { db := account.db, broker := (openAccount account nextLot).1
                       raw := account.library, machine := (openAccount account nextLot).2 }
        strategy condition bars price nowMs = .ok (r, signal) ∧
      RunStands r (runStance strategy bars account.library nowMs price p) ∧
      r.raw.lastDay = (processedOf strategy bars account.library nowMs).lastDay ∧
      (((processedOf strategy bars account.library nowMs).deferEntry && !atDailyOpen nowMs) = false →
        r.raw.deferEntry = false) ∧
      (p.isLong = true →
        (replayed strategy bars (pendingOf strategy bars account.library nowMs) p).isLong = false →
        ∃ act ∈ r.actions, act.action = .closeStop ∨ act.action = .closeSignal) := by
  rw [h.machine nextLot]
  have hbooks := h.books nextLot
  have hreplay := replay_machine bars (strategy.signal bars) (strategy.positionReady bars) p
    (pendingOf strategy bars account.library nowMs)
  rw [← hbooks.lotStop] at hreplay
  obtain ⟨replay, hr⟩ : ∃ replay, (pendingOf strategy bars account.library nowMs).foldl
      (replayDay bars (strategy.signal bars) (strategy.positionReady bars) p.isLong
        (if p.isLong then stopLevel (openAccount account nextLot).1 else none)
        ((pendingOf strategy bars account.library nowMs).getLast?.getD 0))
      { machine := p.machine } = replay := ⟨_, rfl⟩
  rw [hr] at hreplay
  have hflat := processedOf_deferred strategy h bars nowMs
  obtain ⟨r', hok, hstands, hlast, hdone, hsold⟩ := trade_stands strategy condition
    (atDailyOpen nowMs) replay.exitReason
    (signalNow bars (strategy.signal bars) (strategy.positionReady bars)
      (processedOf strategy bars account.library nowMs))
    (r := { db := account.db, broker := (openAccount account nextLot).1
            raw := processedOf strategy bars account.library nowMs, machine := replay.machine })
    (p := p) (q := replayed strategy bars (pendingOf strategy bars account.library nowMs) p)
    ⟨rfl, hbooks, h.fees nextLot, hflat⟩ hreplay
    (fun hd => by
      obtain rfl := hflat hd
      exact foldl_not_locked _ (onStop_self .flat) (by simp))
    replayed_long rfl hprice
  refine ⟨r', signalNow bars (strategy.signal bars) (strategy.positionReady bars)
    (processedOf strategy bars account.library nowMs), ?_, ?_, hlast, hdone, hsold⟩
  · unfold LiveRun.decide
    rw [if_neg hbars]
    unfold pendingOf at hr
    unfold processedOf pendingOf at hok
    rw [Stance.machine_long]
    simp only [hr, hok, processedOf, pendingOf]
  · unfold runStance
    rw [if_neg hbars]
    exact hstands

theorem openAccount_snd (account : LibraryAccount) (nextLot : ℕ) :
    (openAccount account nextLot).2 = { account.library.machine.getD {} with
      long := (openAccount account nextLot).1.lots.any fun lot => lot.ticker = SYMBOL } := rfl

theorem Books.held {b : PaperBroker} {p : Stance} (h : Books b p.stopLoss) :
    (b.lots.any fun lot => lot.ticker = SYMBOL) = p.isLong := by
  cases p with
  | flat => rw [h.2]; rfl
  | locked => rw [h.2]; rfl
  | long x =>
    obtain ⟨-, lot, hlots, hticker, -⟩ := h
    rw [hlots]
    simp [hticker, Stance.isLong]

/-- Saved books are restored. -/
theorem Books.restored {b : PaperBroker} {x : Option ℚ} (h : Books b x) {account : LibraryAccount}
    (hsaved : account.broker = some b.toState) (nextLot : ℕ) :
    Books (openAccount account nextLot).1 x ∧
      (openAccount account nextLot).1.takerFee = TAKER_FEE ∧
      (openAccount account nextLot).1.slippage = SLIPPAGE := by
  unfold openAccount
  rw [hsaved]
  dsimp only
  have hlots : restoreLots nextLot b.toState.openLots = b.lots := by
    rw [PaperBroker.openLots_toState, restoreLots_toState]
  refine ⟨?_, rfl, rfl⟩
  unfold PaperBroker.restoreState
  rw [hlots]
  cases x with
  | none => exact h
  | some x => exact h

/-- The end of a run saves where it stands. -/
theorem finish_standing {r : LiveRun} {p : Stance} (h : RunStands r p) (account : LibraryAccount)
    (bars : List Day) (price : ℚ) (signal : Option Bool)
    (hfresh : r.raw.lastDay = none → p = .flat ∧ r.raw.deferEntry = false) :
    ∃ account' result, r.finish account bars price signal = .ok (account', result) ∧
      Standing account' p ∧ account'.library.lastDay = r.raw.lastDay ∧
      account'.library.deferEntry = r.raw.deferEntry ∧ result.actions = r.actions := by
  obtain ⟨equity, hequity⟩ := equity_symbolPrice price r.broker
  unfold LiveRun.finish
  rw [hequity]
  refine ⟨_, _, rfl, ⟨fun nextLot => ?_, fun nextLot => (h.books.restored rfl nextLot).1,
    fun nextLot => (h.books.restored rfl nextLot).2, h.deferred, hfresh⟩, rfl, rfl, rfl⟩
  rw [openAccount_snd, (h.books.restored rfl nextLot).1.held]
  show { r.machine with long := p.isLong } = p.machine
  rw [h.machine]
  rfl

/-- **A run at any time and price.** It succeeds, and takes the account from where it
stood to `runStance`; a position the replay gave up is sold. -/
theorem run_standing (strategy : LibraryStrategy) {account : LibraryAccount} {p : Stance}
    (h : Standing account p) (bars : List Day) {price : ℚ} (hprice : 0 < price)
    (nowMs : Option ℤ) (nextLot : ℕ) :
    ∃ account' result,
      runLibraryAccount strategy account bars (some price) nowMs nextLot = .ok (account', result) ∧
      Standing account' (runStance strategy bars account.library nowMs price p) ∧
      (bars ≠ [] → account'.library.lastDay =
        (processedOf strategy bars account.library nowMs).lastDay) ∧
      (bars ≠ [] →
        ((processedOf strategy bars account.library nowMs).deferEntry && !atDailyOpen nowMs) = false →
        account'.library.deferEntry = false) ∧
      (bars ≠ [] → p.isLong = true →
        (replayed strategy bars (pendingOf strategy bars account.library nowMs) p).isLong = false →
        ∃ act ∈ result.actions, act.action = .closeStop ∨ act.action = .closeSignal) := by
  by_cases hbars : bars = []
  · subst hbars
    have hstands : RunStands { db := account.db, broker := (openAccount account nextLot).1
                               raw := account.library
                               machine := (openAccount account nextLot).2 } p :=
      ⟨h.machine nextLot, h.books nextLot, h.fees nextLot, h.deferred⟩
    obtain ⟨account', result, hfinish, hstanding, -⟩ :=
      finish_standing hstands account [] price none h.fresh
    exact ⟨account', result, (run_of_decide hprice rfl).trans hfinish, hstanding,
      fun hne => absurd rfl hne, fun hne => absurd rfl hne, fun hne => absurd rfl hne⟩
  · obtain ⟨r, signal, hdecide, hstands, hlast, hdone, hsold⟩ := decide_stands h hbars hprice nowMs nextLot
      (SYMBOL ++ "|" ++ TIMEFRAME ++ "|" ++ strategy.key)
    obtain ⟨account', result, hfinish, hstanding, hlast', hdefer', hacts⟩ :=
      finish_standing hstands account bars price signal fun hnone =>
        absurd (hlast.symm.trans hnone) (processedOf_lastDay strategy bars account.library nowMs)
    refine ⟨account', result, (run_of_decide hprice hdecide).trans hfinish, hstanding,
      fun _ => hlast'.trans hlast, fun _ hwait => hdefer'.trans (hdone hwait), fun _ hp hq => ?_⟩
    rw [hacts]
    exact hsold hp hq

/-- What runs of a strategy can make of an account: any days, any price, any time. -/
inductive Reached (strategy : LibraryStrategy) : LibraryAccount → Prop
  | fresh : Reached strategy .fresh
  | run {account account' : LibraryAccount} {bars : List Day} {price : Option ℚ}
      {nowMs : Option ℤ} {nextLot : ℕ} {result : LiveResult} : Reached strategy account →
      runLibraryAccount strategy account bars price nowMs nextLot = .ok (account', result) →
      Reached strategy account'

theorem Reached.standing {strategy : LibraryStrategy} {account : LibraryAccount}
    (h : Reached strategy account) : ∃ p, Standing account p := by
  induction h with
  | fresh => exact ⟨.flat, standing_fresh⟩
  | @run account account' bars price nowMs nextLot result _ hrun ih =>
    obtain ⟨p, hp⟩ := ih
    cases price with
    | none =>
      cases hrun
      exact ⟨p, hp⟩
    | some price =>
      by_cases hprice : price ≤ 0
      · unfold runLibraryAccount at hrun
        dsimp only at hrun
        rw [if_pos hprice] at hrun
        cases hrun
        exact ⟨p, hp⟩
      · obtain ⟨a, _, hok, hstanding, -⟩ := run_standing strategy hp bars (not_le.mp hprice) nowMs
          nextLot
        cases hok.symm.trans hrun
        exact ⟨_, hstanding⟩

end PaperTrading.Library
