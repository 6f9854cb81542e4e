import PaperTrading.Library.Stances
import PaperTrading.Library.LiveSim

/-!
# Catching up after missed days

One run of a live account decides on every day that closed since the run before
it, and trades only the net change. `catch_up_once` compares that run with a run
for each of the days. A lot whose stop was breached in the gap is sold, and the
account ends long or flat, locked or not, as it would have day by day, where a lot
bought inside the gap has no stop: it is filled at the end of the gap only, so
earlier lows do not stop it.

The comparison leaves out one case, `Reenters`: the signal goes off and comes back
on inside the gap, and the net change is none although the lot was breached.
-/

namespace PaperTrading.Library

open Broker Trading Stance

/-! ## Closes with and without the old stop -/

/-- The signal of the last warm close. -/
def lastWarm : List Close → Option Bool
  | [] => none
  | c :: cs => (lastWarm cs).or (if c.warm then some c.on else none)

/-- The signal was off on a warm close, and is on again on the last one. -/
def Reenters (cs : List Close) : Prop :=
  (∃ c ∈ cs, c.warm = true ∧ c.on = false) ∧ lastWarm cs = some true

section
variable {cs : List Close} {x : ℚ}

theorem lastWarm_eq_none : lastWarm cs = none ↔ ∀ c ∈ cs, c.warm = false := by
  induction cs with
  | nil => simp [lastWarm]
  | cons c cs ih =>
    rw [lastWarm, List.forall_mem_cons, ← ih, Option.or_eq_none_iff]
    cases c.warm <;> simp [and_comm]

/-- A last warm close that is off leaves the stance flat, whatever the stops. -/
theorem foldl_flat {f : Stance → Close → Stance}
    (hoff : ∀ q c, c.warm = true → c.on = false → f q c = .flat)
    (hcold : ∀ c, c.warm = false → f .flat c = .flat) (h : lastWarm cs = some false) (q : Stance) :
    cs.foldl f q = .flat := by
  induction cs generalizing q with
  | nil => cases h
  | cons c cs ih =>
    rw [List.foldl_cons]
    rw [lastWarm] at h
    cases hcs : lastWarm cs with
    | some b =>
      rw [hcs] at h
      exact ih (hcs.trans h) _
    | none =>
      rw [hcs, Option.none_or] at h
      have hwarm : c.warm = true := by
        by_contra hcold
        simp [hcold] at h
      rw [if_pos hwarm] at h
      rw [hoff q c hwarm (Option.some.inj h)]
      have hrest := lastWarm_eq_none.mp hcs
      clear ih hcs h
      induction cs with
      | nil => rfl
      | cons c' cs ih =>
        rw [List.foldl_cons, hcold c' (hrest c' List.mem_cons_self)]
        exact ih fun c'' hc'' => hrest c'' (List.mem_cons_of_mem _ hc'')

theorem replay_zero (q : Stance) (c : Close) : q.replay 0 c = q.close c 0 := by
  cases q <;> rfl

theorem replay_off (q : Stance) (c : Close) (hw : c.warm = true) (ho : c.on = false) :
    q.replay x c = .flat := by
  cases q <;> simp [Stance.replay, Stance.close, hw, ho]

theorem close_off (q : Stance) (c : Close) (hw : c.warm = true) (ho : c.on = false) :
    q.close c x = .flat := by
  cases q <;> simp [Stance.close, hw, ho]

theorem replay_cold (c : Close) (hw : c.warm = false) : Stance.flat.replay x c = .flat := by
  simp [Stance.replay, hw]

theorem close_cold (c : Close) (hw : c.warm = false) : Stance.flat.close c x = .flat := by
  simp [Stance.close, hw]

/-- While no warm close is off, the old lot is kept or stopped for good. -/
theorem foldl_kept (hon : ∀ c ∈ cs, c.warm = true → c.on = true) {q : Stance}
    (hq : q = .long x ∨ q = .locked) :
    cs.foldl (·.replay x ·) q = cs.foldl (·.close · 0) q ∧
      cs.foldl (·.replay x ·) q =
        if q = .long x ∧ ∀ c ∈ cs, reaches c.day (levelOf x) = false then .long x else .locked := by
  induction cs generalizing q with
  | nil => rcases hq with rfl | rfl <;> simp
  | cons c cs ih =>
    have hcs := fun c' hc' => hon c' (List.mem_cons_of_mem _ hc')
    have hnot : (c.warm && !c.on) = false := by
      cases hw : c.warm
      · rfl
      · rw [hon c List.mem_cons_self hw]
        rfl
    rw [List.foldl_cons, List.foldl_cons]
    rcases hq with rfl | rfl
    · have hsame : (Stance.long x).replay x c = (Stance.long x).close c 0 := rfl
      have hclose : (Stance.long x).replay x c =
          if reaches c.day (levelOf x) = true then .locked else .long x := by
        simp only [Stance.replay, Stance.close, hnot, Bool.false_eq_true, if_false]
      rw [← hsame, hclose]
      by_cases hreach : reaches c.day (levelOf x) = true
      · rw [if_pos hreach]
        obtain ⟨heq, hend⟩ := ih hcs (.inr rfl)
        refine ⟨heq, hend.trans ?_⟩
        simp [hreach]
      · rw [if_neg hreach]
        obtain ⟨heq, hend⟩ := ih hcs (.inl rfl)
        refine ⟨heq, hend.trans ?_⟩
        simp [hreach]
    · have hlocked : Stance.locked.replay x c = .locked := by
        simp [Stance.replay, Stance.close, hnot]
      have hlocked' : Stance.locked.close c 0 = .locked := by simp [Stance.close, hnot]
      rw [hlocked, hlocked']
      obtain ⟨heq, hend⟩ := ih hcs (.inr rfl)
      exact ⟨heq, hend.trans (by simp)⟩

/-- While no low reaches the old stop, it makes no difference. -/
theorem foldl_quiet (hquiet : ∀ c ∈ cs, reaches c.day (levelOf x) = false) {q q' : Stance}
    (hq : q = .flat ∧ q' = .flat ∨ q = .long x ∧ (q' = .long x ∨ q' = .long 0)) :
    (cs.foldl (·.replay x ·) q).machine = (cs.foldl (·.close · 0) q').machine := by
  induction cs generalizing q q' with
  | nil => rcases hq with ⟨rfl, rfl⟩ | ⟨rfl, rfl | rfl⟩ <;> rfl
  | cons c cs ih =>
    have hreach := hquiet c List.mem_cons_self
    refine ih (fun c' hc' => hquiet c' (List.mem_cons_of_mem _ hc')) ?_
    rcases hq with ⟨rfl, rfl⟩ | ⟨rfl, rfl | rfl⟩ <;> cases hw : c.warm <;> cases ho : c.on <;>
      simp [Stance.replay, Stance.close, hw, ho, hreach, reaches_levelOf_zero]

end

/-- Some low of the closes reaches the stop. -/
def StopReached (cs : List Close) (x : ℚ) : Prop := ∃ c ∈ cs, reaches c.day (levelOf x) = true

/-- Without a re-entry, either no warm close is off or the last one is. -/
theorem lastWarm_of_not_reenters {cs : List Close} (h : ¬ Reenters cs) :
    (∀ c ∈ cs, c.warm = true → c.on = true) ∨ lastWarm cs = some false := by
  by_cases hoff : ∃ c ∈ cs, c.warm = true ∧ c.on = false
  · right
    cases hl : lastWarm cs with
    | none =>
      obtain ⟨c, hc, hw, -⟩ := hoff
      cases hw.symm.trans (lastWarm_eq_none.mp hl c hc)
    | some b =>
      cases b with
      | false => rfl
      | true => exact absurd ⟨hoff, hl⟩ h
  · left
    intro c hc hw
    by_contra hno
    exact hoff ⟨c, hc, hw, by simpa using hno⟩

/-- The replay leaves the machine where closing day by day does. -/
theorem foldl_machine {cs : List Close} {p : Stance}
    (h : ∀ x, p = .long x → StopReached cs x → ¬ Reenters cs) :
    (cs.foldl (·.replay (p.stopLoss.getD 0) ·) p).machine = (cs.foldl (·.close · 0) p).machine := by
  cases p with
  | flat => simp only [Stance.stopLoss, Option.getD_none, replay_zero]
  | locked => simp only [Stance.stopLoss, Option.getD_none, replay_zero]
  | long x =>
    show (cs.foldl (·.replay x ·) (Stance.long x)).machine = _
    by_cases hreach : StopReached cs x
    · rcases lastWarm_of_not_reenters (h x rfl hreach) with hon | hlast
      · rw [(foldl_kept hon (.inl rfl)).1]
      · rw [foldl_flat replay_off replay_cold hlast, foldl_flat close_off close_cold hlast]
    · refine foldl_quiet (fun c hc => ?_) (.inr ⟨rfl, .inl rfl⟩)
      by_contra hno
      exact hreach ⟨c, hc, by simpa using hno⟩

/-- A lot whose stop is reached is given up. -/
theorem foldl_gives_up {cs : List Close} {x : ℚ} (hreach : StopReached cs x)
    (h : ¬ Reenters cs) : (cs.foldl (·.replay x ·) (Stance.long x)).isLong = false := by
  rcases lastWarm_of_not_reenters h with hon | hlast
  · obtain ⟨c, hc, hcr⟩ := hreach
    rw [(foldl_kept hon (.inl rfl)).2, if_neg]
    · rfl
    · rintro ⟨-, hall⟩
      cases hcr.symm.trans (hall c hc)
  · rw [foldl_flat replay_off replay_cold hlast]
    rfl

/-! ## A first open still awaited -/

/-- What an account that awaits its first open hears on a close: on one that is not
warm it goes by the signal it remembers. -/
def Close.heard (c : Close) (remembered : Option Bool) : Close :=
  if c.warm then c else { c with warm := true, on := decide (remembered = some true) }

/-- Closes without a stop: the last warm one decides. -/
theorem foldl_close_zero (cs : List Close) {q : Stance} (hq : q = .flat ∨ q = .long 0) :
    cs.foldl (·.close · 0) q = if (lastWarm cs).getD q.isLong = true then .long 0 else .flat := by
  induction cs generalizing q with
  | nil => rcases hq with rfl | rfl <;> rfl
  | cons c cs ih =>
    have hstep : q.close c 0 = if (if c.warm then c.on else q.isLong) = true then .long 0 else .flat := by
      rcases hq with rfl | rfl <;> cases hw : c.warm <;> cases ho : c.on <;>
        simp [Stance.close, Stance.isLong, hw, ho, reaches_levelOf_zero]
    rw [List.foldl_cons, ih (by rw [hstep]; split <;> simp), lastWarm]
    cases hcs : lastWarm cs with
    | some b => cases b <;> rfl
    | none =>
      rw [hstep]
      cases hw : c.warm <;> cases ho : c.on <;> rcases hq with rfl | rfl <;>
        simp [Stance.isLong]

/-- The stance of an account awaiting its first open, once it has heard the first
close of the gap: the last warm close of the gap decides, or what it remembers. -/
theorem foldl_heard (c : Close) (cs : List Close) (remembered : Option Bool) :
    ((c.heard remembered) :: cs).foldl (·.close · 0) Stance.flat =
      if (lastWarm (c :: cs)).or remembered = some true then .long 0 else .flat := by
  rw [foldl_close_zero _ (.inl rfl), lastWarm, lastWarm]
  unfold Close.heard
  cases hcs : lastWarm cs with
  | some b => cases b <;> rfl
  | none =>
    cases hw : c.warm with
    | true => simp [hw]
    | false => cases remembered with
      | none => simp [Stance.isLong]
      | some b => cases b <;> simp [Stance.isLong]

/-! ## The days of a gap -/

/-- The account has decided on the days before index `a`, and on none from there. -/
def DoneUpTo (account : LibraryAccount) (bars : List Day) (a : ℕ) : Prop :=
  ∃ t, account.library.lastDay = some t ∧ ∀ i < bars.length, (t < tsAt bars i ↔ a ≤ i)

/-- Day `i` as a run on the days before `d` reads it. -/
def readAt (strategy : LibraryStrategy) (bars : List Day) (d i : ℕ) : Close :=
  closeAt (bars.take d) (strategy.signal (bars.take d)) (strategy.positionReady (bars.take d)) i

/-- The days from `a` as the run on the days before `d` reads them. -/
def gap (strategy : LibraryStrategy) (bars : List Day) (a d : ℕ) : List Close :=
  (List.range' a (d - a)).map (readAt strategy bars d)

/-- Every day of the gap is warm to the run after it as to a run of its own. -/
def WarmAlike (strategy : LibraryStrategy) (bars : List Day) (a d : ℕ) : Prop :=
  ∀ i, a ≤ i → i < d →
    flagAt (strategy.positionReady (bars.take d)) i =
      flagAt (strategy.positionReady (bars.take (i + 1))) i

theorem lastWarm_map (bars : List Day) (signal ready : List Bool) (pending : List ℕ) :
    lastWarm (pending.map (closeAt bars signal ready)) =
      (pending.reverse.find? fun i => flagAt ready i).map (flagAt signal) := by
  induction pending with
  | nil => rfl
  | cons i pending ih =>
    rw [List.map_cons, lastWarm, ih, List.reverse_cons, List.find?_append, Option.map_or]
    cases hr : flagAt ready i <;> simp [closeAt, hr]

section
variable {strategy : LibraryStrategy} {bars : List Day} {raw : LibraryRaw} {t : ℤ} {a d : ℕ}

theorem pendingDays_gap (hlast : raw.lastDay = some t)
    (hdone : ∀ i < bars.length, (t < tsAt bars i ↔ a ≤ i)) (had : a ≤ d) (hd : d ≤ bars.length)
    (signal ready : List Bool) (nowMs : Option ℤ) :
    pendingDays (bars.take d) signal ready raw nowMs = (List.range' a (d - a), raw) := by
  have hlen : (bars.take d).length = d := by
    rw [List.length_take]
    omega
  unfold pendingDays
  simp only [hlast, hlen]
  have hsplit : List.range d = List.range a ++ List.range' a (d - a) := by
    simpa only [List.range_eq_range', Nat.zero_add, Nat.add_sub_of_le had] using
      (List.range'_append_1 (s := 0) (m := a) (n := d - a)).symm
  rw [hsplit, List.filter_append, List.filter_eq_nil_iff.mpr, List.filter_eq_self.mpr,
    List.nil_append]
  · intro i hi
    have hi := List.mem_range'_1.mp hi
    rw [tsAt_take (by omega), decide_eq_true_eq]
    exact (hdone i (by omega)).mpr hi.1
  · intro i hi
    have hi := List.mem_range.mp hi
    rw [tsAt_take (by omega), decide_eq_true_eq, hdone i (by omega)]
    omega

theorem getLast_range' (had : a < d) : (List.range' a (d - a)).getLast? = some (d - 1) := by
  obtain ⟨n, rfl⟩ : ∃ n, d = a + (n + 1) := ⟨d - a - 1, by omega⟩
  rw [Nat.add_sub_cancel_left, List.range'_concat, List.getLast?_append, List.getLast?_singleton,
    Option.some_or]
  congr 1
  omega

variable (strategy) in
/-- A run on the days before `d`, from an account that is done up to `a`. -/
theorem runStance_gap (hlast : raw.lastDay = some t)
    (hdone : ∀ i < bars.length, (t < tsAt bars i ↔ a ≤ i)) (had : a < d) (hd : d ≤ bars.length)
    (nowMs : Option ℤ) (price : ℚ) (p : Stance) :
    pendingOf strategy (bars.take d) raw nowMs = List.range' a (d - a) ∧
      (processedOf strategy (bars.take d) raw nowMs).lastDay = some (tsAt bars (d - 1)) ∧
      (processedOf strategy (bars.take d) raw nowMs).deferEntry = raw.deferEntry ∧
      replayed strategy (bars.take d) (List.range' a (d - a)) p =
        (gap strategy bars a d).foldl (·.replay (p.stopLoss.getD 0) ·) p ∧
      runStance strategy (bars.take d) raw nowMs price p =
        settled raw.deferEntry (atDailyOpen nowMs)
          ((lastWarm (gap strategy bars a d)).or raw.lastSignal)
          (boughtStop price strategy.stopFrac) p
          ((gap strategy bars a d).foldl (·.replay (p.stopLoss.getD 0) ·) p) := by
  have hpending : ∀ signal ready,
      pendingDays (bars.take d) signal ready raw nowMs = (List.range' a (d - a), raw) :=
    fun signal ready => pendingDays_gap hlast hdone had.le hd signal ready nowMs
  have hof : pendingOf strategy (bars.take d) raw nowMs = List.range' a (d - a) := by
    unfold pendingOf
    rw [hpending]
  have hprocessed : processedOf strategy (bars.take d) raw nowMs = { raw with
      lastDay := some (tsAt (bars.take d) (d - 1))
      lastSignal := (lastWarm (gap strategy bars a d)).or raw.lastSignal } := by
    unfold processedOf markProcessed
    rw [hof, hpending, getLast_range' had]
    dsimp only
    rw [gap, show readAt strategy bars d = closeAt (bars.take d) (strategy.signal (bars.take d))
      (strategy.positionReady (bars.take d)) from rfl, lastWarm_map]
    cases (List.range' a (d - a)).reverse.find? fun i =>
      flagAt (strategy.positionReady (bars.take d)) i <;> rfl
  have hreplayed : replayed strategy (bars.take d) (List.range' a (d - a)) p =
      (gap strategy bars a d).foldl (·.replay (p.stopLoss.getD 0) ·) p := rfl
  have hne : bars.take d ≠ [] := by
    intro hnil
    have := congrArg List.length hnil
    rw [List.length_take, List.length_nil] at this
    omega
  refine ⟨hof, ?_, by rw [hprocessed], hreplayed, ?_⟩
  · rw [hprocessed, tsAt_take (by omega)]
  · unfold runStance
    rw [if_neg hne, hprocessed, hof, hreplayed]
    congr 1
    -- what the run hears is the last warm signal, of the last day if that is warm
    unfold signalNow
    have hlen : (bars.take d).length = d := by
      rw [List.length_take]
      omega
    rw [hlen]
    split
    next hready =>
      have hlastWarm : lastWarm (gap strategy bars a d) =
          some (flagAt (strategy.signal (bars.take d)) (d - 1)) := by
        obtain ⟨n, rfl⟩ : ∃ n, d = a + (n + 1) := ⟨d - a - 1, by omega⟩
        rw [gap, show readAt strategy bars (a + (n + 1)) = closeAt (bars.take (a + (n + 1))) _ _
          from rfl, lastWarm_map, Nat.add_sub_cancel_left, List.range'_concat, List.reverse_append,
          List.reverse_singleton, List.singleton_append, List.find?_cons_of_pos]
        · rw [Option.map_some]
          congr 2
          omega
        · rw [Nat.one_mul, ← hready]
          congr 1
      rw [hlastWarm]
      rfl
    next => rfl

end

/-! ## Day by day -/

/-- One run for each of the `n` days from `a`, each on the days up to its own. -/
def dayByDay (strategy : LibraryStrategy) (bars : List Day) (prices : ℕ → ℚ)
    (now : ℕ → Option ℤ) (nextLot : ℕ → ℕ) (account : LibraryAccount) (a : ℕ) :
    ℕ → Except PyError LibraryAccount
  | 0 => .ok account
  | n + 1 => do
    let account ← dayByDay strategy bars prices now nextLot account a n
    let r ← runLibraryAccount strategy account (bars.take (a + n + 1)) (some (prices (a + n)))
      (now (a + n)) (nextLot (a + n))
    return r.1

/-- Day `i` as its own run reads it, the first with the open it awaits. -/
def ownClose (strategy : LibraryStrategy) (bars : List Day) (account : LibraryAccount) (a i : ℕ) :
    Close :=
  if i = a ∧ account.library.deferEntry = true then
    (readAt strategy bars (i + 1) i).heard account.library.lastSignal
  else readAt strategy bars (i + 1) i

theorem gap_single (strategy : LibraryStrategy) (bars : List Day) (i : ℕ) :
    gap strategy bars i (i + 1) = [readAt strategy bars (i + 1) i] := by
  unfold gap
  rw [Nat.add_sub_cancel_left]
  rfl

/-- A run of one day closes it. -/
theorem settled_single {p : Stance} {c : Close} {deferred atOpen : Bool} {remembered : Option Bool}
    {bought : ℚ} (hflat : deferred = true → p = .flat) (hopen : deferred = true → atOpen = true) :
    settled deferred atOpen ((lastWarm [c]).or remembered) bought p (p.replay (p.stopLoss.getD 0) c) =
      p.close (if deferred = true then c.heard remembered else c) bought := by
  have hwarm : lastWarm [c] = if c.warm then some c.on else none := by simp [lastWarm]
  rw [hwarm]
  cases deferred with
  | true =>
    obtain rfl := hflat rfl
    rw [hopen rfl]
    cases hw : c.warm <;> cases ho : c.on <;> rcases remembered with _ | _ | _ <;>
      simp [settled, Stance.replay, Stance.close, Close.heard, Stance.stopLoss, Stance.isLong, hw,
        ho, reaches_levelOf_zero]
  | false =>
    cases p with
    | flat =>
      cases hw : c.warm <;> cases ho : c.on <;>
        simp [settled, Stance.replay, Stance.close, Stance.stopLoss, Stance.isLong, hw, ho,
          reaches_levelOf_zero]
    | locked =>
      cases hw : c.warm <;> cases ho : c.on <;>
        simp [settled, Stance.replay, Stance.close, Stance.isLong, hw, ho]
    | long x =>
      cases hw : c.warm <;> cases ho : c.on <;> cases hr : reaches c.day (levelOf x) <;>
        simp [settled, Stance.replay, Stance.close, Stance.isLong, hw, ho, hr]

section
variable {strategy : LibraryStrategy} {bars : List Day} {prices : ℕ → ℚ} {now : ℕ → Option ℤ}
variable {account : LibraryAccount} {a : ℕ} {p : Stance}

variable (strategy prices now) in
/-- Days run one at a time are closed one at a time. -/
theorem dayByDay_standing (hstanding : Standing account p)
    (hasc : bars.Pairwise fun b b' => b.ts < b'.ts) (hdone : DoneUpTo account bars a)
    (hprices : ∀ i, 0 < prices i)
    (hopen : account.library.deferEntry = true → atDailyOpen (now a) = true) (nextLot : ℕ → ℕ)
    (n : ℕ) (hn : a + n ≤ bars.length) :
    ∃ account', dayByDay strategy bars prices now nextLot account a n = .ok account' ∧
      Standing account' ((List.range' a n).foldl (fun q i =>
        q.close (ownClose strategy bars account a i) (boughtStop (prices i) strategy.stopFrac)) p) ∧
      DoneUpTo account' bars (a + n) ∧
      (account'.library.deferEntry = true → n = 0) ∧
      (n = 0 → account' = account) := by
  induction n with
  | zero => exact ⟨account, rfl, hstanding, hdone, fun _ => rfl, fun _ => rfl⟩
  | succ n ih =>
    obtain ⟨before, hbefore, hat, ⟨t, hlast, hsplit⟩, hdefer, hzero⟩ := ih (by omega)
    have hlate : before.library.deferEntry = true → n = 0 ∧ before = account := fun hd =>
      ⟨hdefer hd, hzero (hdefer hd)⟩
    have hnow : before.library.deferEntry = true → atDailyOpen (now (a + n)) = true := by
      intro hd
      obtain ⟨rfl, rfl⟩ := hlate hd
      exact hopen hd
    obtain ⟨after, result, hrun, hstand, hday, hdone', -⟩ := run_standing strategy hat
      (bars.take (a + n + 1)) (hprices (a + n)) (now (a + n)) (nextLot (a + n))
    have hne : bars.take (a + n + 1) ≠ [] := by
      intro hnil
      have := congrArg List.length hnil
      rw [List.length_take, List.length_nil] at this
      omega
    obtain ⟨-, hprocessed, hdeferred, -, hstance⟩ := runStance_gap strategy hlast
      hsplit (Nat.lt_succ_self (a + n)) hn (now (a + n)) (prices (a + n))
      ((List.range' a n).foldl (fun q i =>
        q.close (ownClose strategy bars account a i) (boughtStop (prices i) strategy.stopFrac)) p)
    refine ⟨after, ?_, ?_, ⟨tsAt bars (a + n), ?_, fun i hi => ?_⟩, fun hd => ?_, nofun⟩
    · unfold dayByDay
      rw [hbefore]
      show (do let r ← runLibraryAccount strategy before _ _ _ _; return r.1) = _
      rw [hrun]
      rfl
    · rw [List.range'_concat, Nat.one_mul, List.foldl_append, List.foldl_cons, List.foldl_nil]
      have hclose : ownClose strategy bars account a (a + n) =
          if before.library.deferEntry = true then
            (readAt strategy bars (a + n + 1) (a + n)).heard before.library.lastSignal
          else readAt strategy bars (a + n + 1) (a + n) := by
        unfold ownClose
        by_cases hd : before.library.deferEntry = true
        · obtain ⟨rfl, rfl⟩ := hlate hd
          rw [if_pos hd, if_pos ⟨rfl, hd⟩]
        · rw [if_neg hd, if_neg]
          rintro ⟨hn0, hd'⟩
          obtain rfl := hzero (by omega)
          exact hd hd'
      rw [hclose, ← settled_single (fun hd => hat.deferred hd) hnow]
      rw [gap_single, List.foldl_cons, List.foldl_nil] at hstance
      rw [← hstance]
      exact hstand
    · rw [hday hne, hprocessed]
      rfl
    · rcases Nat.lt_or_ge (a + n) i with hlt | hge
      · exact iff_of_true (tsAt_lt hasc hlt hi) (by omega)
      · refine iff_of_false (not_lt.mpr ?_) (by omega)
        rcases Nat.eq_or_lt_of_le hge with rfl | hlt
        · exact le_rfl
        · exact (tsAt_lt hasc hlt (by omega)).le
    · have hoff := hdone' hne (by
        rw [hdeferred]
        cases hb : before.library.deferEntry with
        | false => rfl
        | true => rw [hnow hb]; rfl)
      cases hoff.symm.trans hd

end

/-! ## Once after the gap -/

/-- The lots an account holds. -/
def heldLots (account : LibraryAccount) : List OpenPosition := (openAccount account 0).1.lots

/-- The machine an account's next run starts from. -/
def machineOf (account : LibraryAccount) : MachineState := (openAccount account 0).2

/-- The low of a day from `a` to before `d` is at or through the stop of a lot. -/
def Breached (bars : List Day) (a d : ℕ) (lot : OpenPosition) : Prop :=
  0 < lot.stopLoss ∧ ∃ i, a ≤ i ∧ i < d ∧ (day bars i).low ≤ lot.stopLoss

/-- What one run after a gap owes: a breached lot is sold in it, and the account is
long or flat, locked or not, as it is `oneByOne`. -/
structure CaughtUp (bars : List Day) (a d : ℕ) (account after : LibraryAccount)
    (result : LiveResult) (oneByOne : LibraryAccount) : Prop where
  sold : ∀ lot ∈ heldLots account, Breached bars a d lot → lot ∉ heldLots after ∧
    ∃ act ∈ result.actions, act.action = .closeStop ∨ act.action = .closeSignal
  long : (machineOf after).long = (machineOf oneByOne).long
  lockout : (machineOf after).lockout = (machineOf oneByOne).lockout

/-- The strategy, with no stop on what it buys. -/
def LibraryStrategy.unstopped (s : LibraryStrategy) : LibraryStrategy := { s with stopFrac := 0 }

/-- What a gap settles to, for the machine. -/
theorem settled_machine {p q : Stance} {atOpen : Bool} {signal : Option Bool} {bought : ℚ} :
    (settled false atOpen signal bought p q).machine = q.machine := by
  cases q with
  | flat => cases p <;> simp [settled, Stance.isLong]
  | locked => cases p <;> simp [settled, Stance.isLong]
  | long y => cases p <;> simp [settled, Stance.isLong, Stance.machine]

/-- At the open it awaits, an account goes by the last warm close, or else by what it
remembers. -/
theorem settled_awaited (cs : List Close) (remembered : Option Bool) (bought : ℚ) :
    (settled true true ((lastWarm cs).or remembered) bought .flat
      (cs.foldl (·.replay (Stance.flat.stopLoss.getD 0) ·) .flat)).machine =
      (if (lastWarm cs).or remembered = some true then Stance.long 0 else .flat).machine := by
  have hreplay : cs.foldl (·.replay (Stance.flat.stopLoss.getD 0) ·) Stance.flat =
      if (lastWarm cs).getD Stance.flat.isLong = true then .long 0 else .flat := by
    rw [← foldl_close_zero cs (.inl rfl)]
    simp only [Stance.stopLoss, Option.getD_none, replay_zero]
  rw [hreplay]
  cases lastWarm cs with
  | some b => cases b <;> simp [settled, Stance.isLong, Stance.machine]
  | none =>
    rcases remembered with _ | _ | _ <;> simp [settled, Stance.isLong, Stance.machine]

section
variable {strategy : LibraryStrategy} {bars : List Day} {a d : ℕ}

/-- The day the run after the gap reads is the day its own run reads. -/
theorem readAt_own (hsignal : NoLookAhead strategy bars) (hwarm : WarmAlike strategy bars a d)
    (hd : d ≤ bars.length) {i : ℕ} (ha : a ≤ i) (hi : i < d) :
    readAt strategy bars d i = readAt strategy bars (i + 1) i := by
  have hon : ∀ m ≤ bars.length, i < m →
      flagAt (strategy.signal (bars.take m)) i = flagAt (strategy.signal bars) i := by
    intro m hm him
    rw [hsignal m hm]
    unfold flagAt
    rw [List.getElem?_take_of_lt him]
  unfold readAt closeAt
  rw [hwarm i ha hi, hon d hd hi, hon (i + 1) (by omega) (Nat.lt_succ_self i), day_take hi,
    day_take (Nat.lt_succ_self i)]

/-- The gap as the account's own runs close it, day by day. -/
theorem foldl_own (hsignal : NoLookAhead strategy bars) (hwarm : WarmAlike strategy bars a d)
    (had : a < d) (hd : d ≤ bars.length) (account : LibraryAccount) (p : Stance) :
    (List.range' a (d - a)).foldl
        (fun q i => q.close (ownClose strategy.unstopped bars account a i) 0) p =
      ((if account.library.deferEntry = true then
          (readAt strategy bars d a).heard account.library.lastSignal
        else readAt strategy bars d a) ::
          (List.range' (a + 1) (d - a - 1)).map (readAt strategy bars d)).foldl (·.close · 0) p := by
  obtain ⟨n, rfl⟩ : ∃ n, d = a + (n + 1) := ⟨d - a - 1, by omega⟩
  rw [Nat.add_sub_cancel_left, List.range'_succ, List.foldl_cons, List.foldl_cons, Nat.add_sub_cancel,
    List.foldl_map]
  have hfirst : ownClose strategy.unstopped bars account a a =
      if account.library.deferEntry = true then
        (readAt strategy bars (a + (n + 1)) a).heard account.library.lastSignal
      else readAt strategy bars (a + (n + 1)) a := by
    rw [readAt_own hsignal hwarm hd le_rfl (by omega)]
    unfold ownClose
    by_cases h : account.library.deferEntry = true
    · rw [if_pos ⟨rfl, h⟩, if_pos h]
      rfl
    · rw [if_neg (fun hc => h hc.2), if_neg h]
      rfl
  rw [hfirst]
  refine List.foldl_ext _ _ _ fun q i hi => ?_
  have hi := List.mem_range'_1.mp hi
  rw [readAt_own hsignal hwarm hd (by omega) (by omega)]
  unfold ownClose
  rw [if_neg (by omega)]
  rfl

end

section
variable {strategy : LibraryStrategy} {bars : List Day} {a d : ℕ} {account : LibraryAccount}
variable {p : Stance}

/-- The one lot of an account that stands long. -/
theorem Standing.held (h : Standing account p) {lot : OpenPosition}
    (hlot : lot ∈ heldLots account) : p = .long lot.stopLoss := by
  have hbooks := h.books 0
  cases p with
  | flat =>
    rw [heldLots, hbooks.2] at hlot
    cases hlot
  | locked =>
    rw [heldLots, hbooks.2] at hlot
    cases hlot
  | long x =>
    obtain ⟨-, lot', hlots, -, -, rfl⟩ := hbooks
    rw [heldLots, hlots] at hlot
    rw [List.mem_singleton.mp hlot]

theorem Standing.lot {x : ℚ} (h : Standing account (.long x)) :
    ∃ lot ∈ heldLots account, lot.stopLoss = x := by
  obtain ⟨-, lot, hlots, -, -, hx⟩ := h.books 0
  exact ⟨lot, by rw [heldLots, hlots]; exact List.mem_singleton_self lot, hx⟩

theorem Standing.heldLots_nil (h : Standing account p) (hp : p.isLong = false) :
    heldLots account = [] := by
  have hbooks := h.books 0
  rw [Stance.stopLoss_none hp] at hbooks
  exact hbooks.2

theorem Breached.stopReached {lot : OpenPosition} (h : Breached bars a d lot) :
    StopReached (gap strategy bars a d) lot.stopLoss := by
  obtain ⟨hpos, i, ha, hi, hlow⟩ := h
  refine ⟨readAt strategy bars d i, List.mem_map_of_mem (List.mem_range'_1.mpr ⟨ha, by omega⟩), ?_⟩
  show reaches (day (bars.take d) i) (levelOf lot.stopLoss) = true
  rw [day_take hi, levelOf, if_pos hpos]
  exact decide_eq_true hlow

theorem stopReached_breached {x : ℚ} (h : StopReached (gap strategy bars a d) x) :
    0 < x ∧ ∃ i, a ≤ i ∧ i < d ∧ (day bars i).low ≤ x := by
  obtain ⟨c, hc, hreach⟩ := h
  obtain ⟨i, hi, rfl⟩ := List.mem_map.mp hc
  have hi := List.mem_range'_1.mp hi
  have hday : (readAt strategy bars d i).day = day bars i := day_take (by omega)
  rw [hday, levelOf] at hreach
  by_cases hpos : 0 < x
  · rw [if_pos hpos] at hreach
    exact ⟨hpos, i, hi.1, by omega, of_decide_eq_true hreach⟩
  · rw [if_neg hpos] at hreach
    cases hreach

/-- **Once after a gap.** For an account any runs have led to, done up to day `a`,
one run on the days before `d` does what a run for each of the days would: a lot
breached in the gap is sold, and the account is long or flat, locked or not, as
day by day, what is bought inside the gap having no stop. The first open an account
still awaits is the time of the run, and of the first of the runs day by day. Left
out is a breached lot on whose gap the signal goes off and ends on. -/
theorem catch_up_once (strategy : LibraryStrategy) {bars : List Day}
    (hasc : bars.Pairwise fun b b' => b.ts < b'.ts) (hsignal : NoLookAhead strategy bars)
    {account : LibraryAccount} (hreached : Reached strategy account) {a d : ℕ}
    (hdone : DoneUpTo account bars a) (had : a < d) (hd : d ≤ bars.length)
    (hwarm : WarmAlike strategy bars a d)
    (hreenters : ∀ lot ∈ heldLots account, Breached bars a d lot →
      ¬ Reenters (gap strategy bars a d))
    {price : ℚ} (hprice : 0 < price) {nowMs : Option ℤ} (nextLot : ℕ)
    {prices : ℕ → ℚ} (hprices : ∀ i, 0 < prices i) {now : ℕ → Option ℤ} (nextLots : ℕ → ℕ)
    (hopen : account.library.deferEntry = true →
      atDailyOpen nowMs = true ∧ atDailyOpen (now a) = true) :
    ∃ after result oneByOne,
      runLibraryAccount strategy account (bars.take d) (some price) nowMs nextLot =
        .ok (after, result) ∧
      dayByDay strategy.unstopped bars prices now nextLots account a (d - a) = .ok oneByOne ∧
      CaughtUp bars a d account after result oneByOne := by
  obtain ⟨p, hp⟩ := hreached.standing
  obtain ⟨t, hlast, hsplit⟩ := hdone
  obtain ⟨after, result, hrun, hafter, -, -, hsold⟩ :=
    run_standing strategy hp (bars.take d) hprice nowMs nextLot
  obtain ⟨hpending, -, -, hreplayed, hstance⟩ :=
    runStance_gap strategy hlast hsplit had hd nowMs price p
  have hday : ∃ oneByOne, dayByDay strategy.unstopped bars prices now nextLots account a (d - a) =
        .ok oneByOne ∧
      Standing oneByOne ((List.range' a (d - a)).foldl
        (fun q i => q.close (ownClose strategy.unstopped bars account a i) 0) p) := by
    obtain ⟨oneByOne, hok, hstanding, -⟩ := dayByDay_standing strategy.unstopped prices now hp
      hasc ⟨t, hlast, hsplit⟩ hprices (fun h => (hopen h).2) nextLots (d - a) (by omega)
    exact ⟨oneByOne, hok, hstanding⟩
  obtain ⟨oneByOne, hok, hone⟩ := hday
  rw [foldl_own hsignal hwarm had hd] at hone
  rw [hstance] at hafter
  have hgap : gap strategy bars a d = readAt strategy bars d a ::
      (List.range' (a + 1) (d - a - 1)).map (readAt strategy bars d) := by
    obtain ⟨n, rfl⟩ : ∃ n, d = a + (n + 1) := ⟨d - a - 1, by omega⟩
    unfold gap
    rw [Nat.add_sub_cancel_left, List.range'_succ, List.map_cons, Nat.add_sub_cancel]
  have hmachine : machineOf after = machineOf oneByOne := by
    rw [machineOf, machineOf, hafter.machine, hone.machine]
    cases hdefer : account.library.deferEntry with
    | false =>
      rw [settled_machine, if_neg Bool.false_ne_true, ← hgap]
      refine foldl_machine ?_
      rintro x rfl hreach
      obtain ⟨lot, hlot, rfl⟩ := hp.lot
      exact hreenters lot hlot (stopReached_breached hreach)
    | true =>
      obtain rfl := hp.deferred hdefer
      rw [if_pos rfl, foldl_heard, ← hgap, (hopen hdefer).1]
      exact settled_awaited _ _ _
  refine ⟨after, result, oneByOne, hrun, hok, ?_, by rw [hmachine], by rw [hmachine]⟩
  intro lot hlot hbreached
  obtain rfl := hp.held hlot
  have hgone : ((gap strategy bars a d).foldl (·.replay lot.stopLoss ·)
      (Stance.long lot.stopLoss)).isLong = false :=
    foldl_gives_up hbreached.stopReached (hreenters lot hlot hbreached)
  have hne : bars.take d ≠ [] := by
    intro hnil
    have := congrArg List.length hnil
    rw [List.length_take, List.length_nil] at this
    omega
  have hdefer : account.library.deferEntry = false := by
    by_contra h
    cases hp.deferred (by simpa using h)
  constructor
  · rw [hdefer] at hafter
    rw [hafter.heldLots_nil]
    · exact List.not_mem_nil
    · show (settled false _ _ _ _ _).machine.long = false
      rw [settled_machine]
      exact hgone
  · refine hsold hne rfl ?_
    rw [hpending, hreplayed]
    exact hgone

end

/-! ## Three gaps of weekly momentum -/

theorem liveDays_reached {strategy : LibraryStrategy} {bars : List Day} {now : ℕ → ℤ}
    {nextLot : ℕ → ℕ} {start n : ℕ} {s : LibraryAccount × List OpenState}
    (h : liveDays strategy bars now nextLot start n = .ok s) : Reached strategy s.1 := by
  induction n generalizing s with
  | zero =>
    cases h
    exact .fresh
  | succ n ih =>
    unfold liveDays at h
    cases hs : liveDays strategy bars now nextLot start n with
    | error e =>
      rw [hs] at h
      cases h
    | ok s' =>
      rw [hs] at h
      simp only [bind, Except.bind] at h
      split at h
      next => cases h
      next r hrun =>
        cases h
        exact (ih hs).run hrun

/-- An account run at the opens of `n` days from `start`. -/
def accountAfter (bars : List Day) (start n : ℕ) : LibraryAccount :=
  match liveDays tsmom1w bars (tsAt bars) (fun _ => 1) start n with
  | .ok s => s.1
  | .error _ => .fresh

theorem accountAfter_reached (bars : List Day) (start n : ℕ) :
    Reached tsmom1w (accountAfter bars start n) := by
  unfold accountAfter
  split
  next s h => exact liveDays_reached h
  next => exact .fresh

/-- Days from Sunday the 3rd to `last`, flat but for the close and the low. -/
def daysTo (last : ℕ) (close low : ℤ → ℚ) : List Day :=
  (List.range' 3 (last - 2)).map fun n => ⟨n * DAY_MS, close n, close n, low n, close n⟩

/-- Bought inside the gap on the rise of the 10th, and through that stop on the 12th. -/
def dipAfterEntry : List Day := daysTo 15 (fun n => 100 + n) fun n => if n = 12 then 50 else 100

/-- Bought on the 11th; through the stop on the 14th, off on the 17th, on on the 24th. -/
def dipAndReentry : List Day :=
  daysTo 26 (fun n => if n = 17 then 105 else 100 + n) fun n => if n = 14 then 50 else 100

/-- One run on the days before `d`, and the days from `a` one by one, at the price of
100; the open of each is the day after. -/
def DiffersOnGap (bars : List Day) (account : LibraryAccount) (a d : ℕ) : Prop :=
  bars.Pairwise (fun b b' => b.ts < b'.ts) ∧ NoLookAhead tsmom1w bars ∧
    Reached tsmom1w account ∧ DoneUpTo account bars a ∧ a < d ∧ d ≤ bars.length ∧
    ∃ after result oneByOne,
      runLibraryAccount tsmom1w account (bars.take d) (some 100) (some (tsAt bars d)) 5 =
        .ok (after, result) ∧
      dayByDay tsmom1w bars (fun _ => 100) (fun i => some (tsAt bars (i + 1))) (fun _ => 5) account
        a (d - a) = .ok oneByOne ∧
      ¬ CaughtUp bars a d account after result oneByOne

/-- A gap that the one run and the runs day by day leave differently. -/
theorem differsOnGap_of {bars : List Day} {account : LibraryAccount} {a d : ℕ}
    (hasc : bars.Pairwise fun b b' => b.ts < b'.ts) (hsignal : NoLookAhead tsmom1w bars)
    (hreached : Reached tsmom1w account) (hdone : DoneUpTo account bars a) (had : a < d)
    (hd : d ≤ bars.length) (hopen : atDailyOpen (some (tsAt bars (a + 1))) = true)
    (hdiffers : ∀ after result oneByOne,
      runLibraryAccount tsmom1w account (bars.take d) (some 100) (some (tsAt bars d)) 5 =
        .ok (after, result) →
      dayByDay tsmom1w bars (fun _ => 100) (fun i => some (tsAt bars (i + 1))) (fun _ => 5) account
        a (d - a) = .ok oneByOne →
      ¬ CaughtUp bars a d account after result oneByOne) :
    DiffersOnGap bars account a d := by
  obtain ⟨p, hp⟩ := hreached.standing
  obtain ⟨after, result, hrun, -⟩ :=
    run_standing tsmom1w hp (bars.take d)
    (show (0 : ℚ) < 100 by decide +kernel) (some (tsAt bars d)) 5
  obtain ⟨oneByOne, hone, -⟩ := dayByDay_standing tsmom1w (fun _ => 100)
    (fun i => some (tsAt bars (i + 1))) hp hasc hdone (fun _ => by decide +kernel)
    (fun _ => hopen) (fun _ => 5) (d - a) (by omega)
  exact ⟨hasc, hsignal, hreached, hdone, had, hd, after, result, oneByOne, hrun, hone,
    hdiffers after result oneByOne hrun hone⟩

/-- What a computation that succeeds is seen to give. -/
theorem seen_of_ok {ε α β : Type} {x : Except ε α} {a : α} (h : x = .ok a) {f : α → β} {b : β}
    (hseen : x.toOption.map f = some b) : f a = b := by
  subst h
  exact Option.some.inj hseen

/-- **Where one run is not as good as day by day.** A lot bought inside the gap is not
stopped by a low inside it; a lot breached and bought again inside the gap is kept;
and behind a missing Sunday no day is warm any more. -/
theorem catch_up_differs :
    DiffersOnGap dipAfterEntry (accountAfter dipAfterEntry 5 2) 6 12 ∧
    DiffersOnGap dipAndReentry (accountAfter dipAndReentry 8 3) 10 22 ∧
    DiffersOnGap gapTape.bars (accountAfter gapTape.bars 5 2) 6 21 := by
  refine ⟨?_, ?_, ?_⟩
  · refine differsOnGap_of (by decide +kernel) ?_ (accountAfter_reached _ _ _)
      ⟨8 * DAY_MS, by decide +kernel, by decide +kernel⟩ (by decide) (by decide) (by decide +kernel)
      fun after result oneByOne hrun hone h => ?_
    · unfold NoLookAhead
      decide +kernel
    · have hafter : (machineOf after).long = true :=
        seen_of_ok hrun (f := fun r => (machineOf r.1).long) (by decide +kernel)
      have hone : (machineOf oneByOne).long = false :=
        seen_of_ok hone (f := fun r => (machineOf r).long) (by decide +kernel)
      cases hafter.symm.trans (h.long.trans hone)
  · refine differsOnGap_of (by decide +kernel) ?_ (accountAfter_reached _ _ _)
      ⟨12 * DAY_MS, by decide +kernel, by decide +kernel⟩ (by decide) (by decide) (by decide +kernel)
      fun after result oneByOne hrun hone h => ?_
    · unfold NoLookAhead
      decide +kernel
    · have hkept : heldLots after = heldLots (accountAfter dipAndReentry 8 3) :=
        seen_of_ok hrun (f := fun r => heldLots r.1) (by decide +kernel)
      have hbreached : ∃ lot ∈ heldLots (accountAfter dipAndReentry 8 3),
          Breached dipAndReentry 10 22 lot := by
        have hlow : ∃ lot ∈ heldLots (accountAfter dipAndReentry 8 3), 0 < lot.stopLoss ∧
            (day dipAndReentry 11).low ≤ lot.stopLoss := by decide +kernel
        obtain ⟨lot, hlot, hpos, hlow⟩ := hlow
        exact ⟨lot, hlot, hpos, 11, by decide, by decide, hlow⟩
      obtain ⟨lot, hlot, hbreached⟩ := hbreached
      exact (h.sold lot hlot hbreached).1 (hkept ▸ hlot)
  · refine differsOnGap_of (by decide +kernel) gapTape_noLookAhead (accountAfter_reached _ _ _)
      ⟨8 * DAY_MS, by decide +kernel, by decide +kernel⟩ (by decide) (by decide) (by decide +kernel)
      fun after result oneByOne hrun hone h => ?_
    have hafter : (machineOf after).long = false :=
      seen_of_ok hrun (f := fun r => (machineOf r.1).long) (by decide +kernel)
    have hone : (machineOf oneByOne).long = true :=
      seen_of_ok hone (f := fun r => (machineOf r).long) (by decide +kernel)
    cases hafter.symm.trans (h.long.trans hone)

/-- The breached lot of the 11th, over the gap up to the 15th. -/
theorem catch_up_once_dip : ∃ after result oneByOne,
    runLibraryAccount tsmom1w (accountAfter dipAndReentry 8 3) (dipAndReentry.take 13) (some 100)
      (some (tsAt dipAndReentry 13)) 5 = .ok (after, result) ∧
    dayByDay tsmom1w.unstopped dipAndReentry (fun _ => 100) (fun _ => none) (fun _ => 5)
      (accountAfter dipAndReentry 8 3) 10 3 = .ok oneByOne ∧
    CaughtUp dipAndReentry 10 13 (accountAfter dipAndReentry 8 3) after result oneByOne :=
  catch_up_once tsmom1w (by decide +kernel) (by unfold NoLookAhead; decide +kernel)
    (accountAfter_reached _ _ _) ⟨12 * DAY_MS, by decide +kernel, by decide +kernel⟩ (by decide)
    (by decide)
    (fun i _ hi => (by decide +kernel : ∀ i < 13,
      flagAt (tsmom1w.positionReady (dipAndReentry.take 13)) i =
        flagAt (tsmom1w.positionReady (dipAndReentry.take (i + 1))) i) i hi)
    (fun _ _ _ => by unfold Reenters; decide +kernel) (by decide +kernel) 5
    (fun _ => by decide +kernel) (fun _ => 5) (fun h => by revert h; decide +kernel)

end PaperTrading.Library
