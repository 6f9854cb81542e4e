import PaperTrading.Library.CatchUp

/-!
# The first entry of a library account

A new account is visited by runs at any time, at any price and with any bars. A first
visit outside the open window decides on nothing: if the latest day is warm and its signal
on, the account waits for the next open window; if not, it goes on as any other account,
which acts in the first run after a day has closed.

`fresh_book_waits` is about every sequence of visits. `intraday_first_entry` is an account
whose first visit finds the signal off, and which enters at noon of the next day.
-/

namespace PaperTrading.Library

open Broker Trading Stance

/-- One run of the account, with the bars and the price of that moment. -/
structure Visit where
  bars : List Day
  price : Option ℚ
  nowMs : Option ℤ
  nextLot : ℕ

namespace Visit

/-- The run has a price, and a completed day. -/
def Decides (v : Visit) : Prop := v.bars ≠ [] ∧ ∃ price, v.price = some price ∧ 0 < price

/-- It comes inside the daily-open window. -/
def atOpen (v : Visit) : Bool := atDailyOpen v.nowMs

def ready (strategy : LibraryStrategy) (v : Visit) (i : ℕ) : Bool :=
  flagAt (strategy.positionReady v.bars) i

def on (strategy : LibraryStrategy) (v : Visit) (i : ℕ) : Bool :=
  flagAt (strategy.signal v.bars) i

end Visit

section
variable (strategy : LibraryStrategy)

def visit (account : LibraryAccount) (v : Visit) : Except PyError LibraryAccount :=
  (runLibraryAccount strategy account v.bars v.price v.nowMs v.nextLot).map Prod.fst

/-- A new account after some visits. -/
def afterVisits (vs : List Visit) : Except PyError LibraryAccount := vs.foldlM (visit strategy) .fresh

/-- The account has held nothing so far. -/
def NeverHeld (vs : List Visit) : Prop :=
  ∀ past, past <+: vs → ∀ account, afterVisits strategy past = .ok account → heldLots account = []

/-- What the visit goes by: the signal of the latest completed day if that is warm, and the
last warm one the account knows of if it is not. -/
def heard (account : LibraryAccount) (v : Visit) : Option Bool :=
  signalNow v.bars (strategy.signal v.bars) (strategy.positionReady v.bars)
    (processedOf strategy v.bars account.library v.nowMs)

/-- An entry outside the window is for a warm day with the signal on that has completed
since the account's last processed day, and none is made while the account waits. The
signal the run goes by is on. -/
structure EntersBy (account : LibraryAccount) (v : Visit) : Prop where
  decides : v.Decides
  window : v.atOpen = true ∨ ∃ last, account.library.lastDay = some last ∧
    account.library.deferEntry = false ∧
    ∃ i < v.bars.length, last < tsAt v.bars i ∧ v.ready strategy i = true ∧ v.on strategy i = true
  signal : v.bars.Pairwise (fun b b' => b.ts < b'.ts) → heard strategy account v = some true

end

/-! ## One visit -/

section
variable {strategy : LibraryStrategy} {account : LibraryAccount} {v : Visit}

theorem visit_of_run {account' : LibraryAccount} (result : LiveResult)
    (h : runLibraryAccount strategy account v.bars v.price v.nowMs v.nextLot = .ok (account', result)) :
    visit strategy account v = .ok account' := by
  unfold visit
  rw [h]
  rfl

/-- Without a price nothing is written. -/
theorem visit_no_price (h : ∀ price, v.price = some price → price ≤ 0) :
    visit strategy account v = .ok account := by
  refine visit_of_run {} ?_
  unfold runLibraryAccount
  cases hprice : v.price with
  | none => rfl
  | some price =>
    dsimp only
    rw [if_pos (h price hprice)]

/-- The closes of the pending days. -/
def pendingCloses (strategy : LibraryStrategy) (account : LibraryAccount) (v : Visit) : List Close :=
  (pendingOf strategy v.bars account.library v.nowMs).map
    (closeAt v.bars (strategy.signal v.bars) (strategy.positionReady v.bars))

/-- From flat, the last warm pending day decides. -/
theorem replayed_flat : replayed strategy v.bars (pendingOf strategy v.bars account.library v.nowMs)
    .flat = if lastWarm (pendingCloses strategy account v) = some true then .long 0 else .flat := by
  have hfold : replayed strategy v.bars (pendingOf strategy v.bars account.library v.nowMs) .flat =
      (pendingCloses strategy account v).foldl (·.close · 0) .flat := by
    unfold replayed pendingCloses
    congr 1
    exact funext fun q => funext fun c => replay_zero q c
  rw [hfold, foldl_close_zero _ (Or.inl rfl)]
  cases lastWarm (pendingCloses strategy account v) with
  | none => rfl
  | some b => cases b <;> rfl

/-- The first visit outside the window has no day to decide on. -/
theorem pendingOf_first (hfirst : account.library.lastDay = none) (hopen : v.atOpen = false) :
    pendingOf strategy v.bars account.library v.nowMs = [] := by
  unfold Visit.atOpen at hopen
  unfold pendingOf pendingDays
  simp only [hfirst, hopen, Bool.false_eq_true, if_false]
  split
  · split <;> rfl
  · rfl

theorem pendingOf_later {last : ℤ} (hlast : account.library.lastDay = some last) :
    pendingOf strategy v.bars account.library v.nowMs =
      (List.range v.bars.length).filter fun i => last < tsAt v.bars i := by
  unfold pendingOf pendingDays
  rw [hlast]

theorem processedOf_later {last : ℤ} (hlast : account.library.lastDay = some last) :
    (processedOf strategy v.bars account.library v.nowMs).deferEntry = account.library.deferEntry := by
  unfold processedOf pendingDays markProcessed
  rw [hlast]
  dsimp only
  split <;> rfl

/-- The days of ascending bars are decided on up to the latest. -/
theorem pendingOf_concat (hasc : v.bars.Pairwise fun b b' => b.ts < b'.ts) (hbars : v.bars ≠ [])
    (h : pendingOf strategy v.bars account.library v.nowMs ≠ []) :
    ∃ front, pendingOf strategy v.bars account.library v.nowMs = front ++ [v.bars.length - 1] := by
  have hpos : 0 < v.bars.length := List.length_pos_of_ne_nil hbars
  cases hlast : account.library.lastDay with
  | none =>
    cases hopen : v.atOpen with
    | false => exact absurd (pendingOf_first hlast hopen) h
    | true =>
      refine ⟨[], ?_⟩
      unfold Visit.atOpen at hopen
      unfold pendingOf pendingDays
      simp only [hlast, hopen, if_true, List.nil_append]
  | some last =>
    rw [pendingOf_later hlast] at h ⊢
    obtain ⟨i, hi⟩ := List.exists_mem_of_ne_nil _ h
    obtain ⟨hi, hlt⟩ := List.mem_filter.mp hi
    have hi := List.mem_range.mp hi
    have hnewest : last < tsAt v.bars (v.bars.length - 1) := by
      have hlt := of_decide_eq_true hlt
      by_cases heq : i = v.bars.length - 1
      · rw [← heq]
        exact hlt
      · exact hlt.trans (tsAt_lt hasc (by omega) (by omega))
    have hrange : List.range v.bars.length = List.range (v.bars.length - 1) ++ [v.bars.length - 1] := by
      conv_lhs => rw [← Nat.succ_pred_eq_of_pos hpos]
      exact List.range_succ
    rw [hrange, List.filter_append, List.filter_singleton, decide_eq_true hnewest]
    exact ⟨_, rfl⟩

/-- A replay that ends long has heard that the signal is on. -/
theorem heard_of_long (hasc : v.bars.Pairwise fun b b' => b.ts < b'.ts) (hbars : v.bars ≠ [])
    (h : lastWarm (pendingCloses strategy account v) = some true) :
    heard strategy account v = some true := by
  have hpending : pendingOf strategy v.bars account.library v.nowMs ≠ [] := by
    intro hnil
    unfold pendingCloses at h
    rw [hnil] at h
    cases h
  obtain ⟨front, hfront⟩ := pendingOf_concat hasc hbars hpending
  unfold pendingCloses at h
  rw [lastWarm_map] at h
  unfold heard signalNow
  split
  next hready =>
    rw [hfront, List.reverse_append, List.reverse_singleton, List.singleton_append,
      List.find?_cons_of_pos hready] at h
    exact h
  next =>
    unfold processedOf markProcessed
    rw [hfront, List.getLast?_concat, ← hfront]
    dsimp only
    cases hfind : (pendingOf strategy v.bars account.library v.nowMs).reverse.find? fun i =>
        flagAt (strategy.positionReady v.bars) i with
    | none => rw [hfind] at h; cases h
    | some i => rw [hfind] at h; exact h

variable (strategy) in
/-- A visit to a flat account leaves it flat, or enters as it may. -/
theorem visit_flat (h : Standing account .flat) (v : Visit) :
    ∃ account', visit strategy account v = .ok account' ∧ (Standing account' .flat ∨
      ∃ x, Standing account' (.long x) ∧ EntersBy strategy account v) := by
  by_cases hprice : ∀ price, v.price = some price → price ≤ 0
  · exact ⟨account, visit_no_price hprice, Or.inl h⟩
  · push Not at hprice
    obtain ⟨price, hv, hpos⟩ := hprice
    obtain ⟨account', result, hrun, hstanding, -⟩ :=
      run_standing strategy h v.bars hpos v.nowMs v.nextLot
    rw [← hv] at hrun
    refine ⟨account', visit_of_run result hrun, ?_⟩
    unfold runStance at hstanding
    split at hstanding
    next => exact Or.inl hstanding
    next hbars =>
      have hdecides : v.Decides := ⟨hbars, price, hv, hpos⟩
      rw [replayed_flat] at hstanding
      split at hstanding
      next hlong =>
        by_cases hwait : ((processedOf strategy v.bars account.library v.nowMs).deferEntry &&
            !v.atOpen) = true
        · unfold Visit.atOpen at hwait
          simp only [settled, Stance.isLong, if_true, Bool.false_eq_true, if_false, hwait] at hstanding
          exact Or.inl hstanding
        · have hlongNow : settled (processedOf strategy v.bars account.library v.nowMs).deferEntry
              (atDailyOpen v.nowMs) (signalNow v.bars (strategy.signal v.bars)
                (strategy.positionReady v.bars) (processedOf strategy v.bars account.library v.nowMs))
              (boughtStop price strategy.stopFrac) .flat (.long 0) =
              .long (boughtStop price strategy.stopFrac) := by
            unfold Visit.atOpen at hwait
            simp only [settled, Stance.isLong, if_true, Bool.false_eq_true, if_false, hwait]
          rw [hlongNow] at hstanding
          refine Or.inr ⟨_, hstanding, hdecides, ?_, fun hasc => heard_of_long hasc hbars hlong⟩
          cases hopen : v.atOpen with
          | true => exact Or.inl rfl
          | false =>
            rw [hopen, Bool.not_false, Bool.and_true, Bool.not_eq_true] at hwait
            cases hlast : account.library.lastDay with
            | none =>
              unfold pendingCloses at hlong
              rw [pendingOf_first hlast hopen] at hlong
              cases hlong
            | some last =>
              rw [processedOf_later hlast] at hwait
              unfold pendingCloses at hlong
              rw [lastWarm_map, pendingOf_later hlast] at hlong
              obtain ⟨i, hfind, hon⟩ := Option.map_eq_some_iff.mp hlong
              have hready := List.find?_some hfind
              obtain ⟨hrange, hlate⟩ :=
                List.mem_filter.mp (List.mem_reverse.mp (List.mem_of_find?_eq_some hfind))
              exact Or.inr ⟨last, rfl, hwait, i, List.mem_range.mp hrange, of_decide_eq_true hlate,
                hready, hon⟩
      next =>
        by_cases henter : ((processedOf strategy v.bars account.library v.nowMs).deferEntry &&
            v.atOpen) = true ∧ heard strategy account v = some true
        · obtain ⟨hdefer, hopen⟩ := Bool.and_eq_true_iff.mp henter.1
          have hlongNow : settled (processedOf strategy v.bars account.library v.nowMs).deferEntry
              (atDailyOpen v.nowMs) (heard strategy account v)
              (boughtStop price strategy.stopFrac) .flat .flat =
              .long (boughtStop price strategy.stopFrac) := by
            unfold Visit.atOpen at hopen
            simp [settled, Stance.isLong, hdefer, hopen, henter.2]
          exact Or.inr ⟨_, hlongNow ▸ hstanding, hdecides, Or.inl hopen, fun _ => henter.2⟩
        · have hflatNow : settled (processedOf strategy v.bars account.library v.nowMs).deferEntry
              (atDailyOpen v.nowMs) (heard strategy account v)
              (boughtStop price strategy.stopFrac) .flat .flat = .flat := by
            unfold Visit.atOpen at henter
            simp only [settled, Stance.isLong, Bool.false_eq_true, if_false]
            refine if_neg fun h => henter ?_
            simp only [Bool.and_eq_true, decide_eq_true_eq] at h ⊢
            exact h.1
          exact Or.inl (hflatNow ▸ hstanding)

variable (strategy) in
/-- A visit with no price or no day changes neither the position nor the flags. -/
theorem visit_undecided {p : Stance} (h : Standing account p) (hno : ¬ v.Decides) :
    ∃ account', visit strategy account v = .ok account' ∧ Standing account' p ∧
      account'.library.lastDay = account.library.lastDay ∧
      account'.library.deferEntry = account.library.deferEntry := by
  by_cases hprice : ∀ price, v.price = some price → price ≤ 0
  · exact ⟨account, visit_no_price hprice, h, rfl, rfl⟩
  · push Not at hprice
    obtain ⟨price, hv, hpos⟩ := hprice
    have hbars : v.bars = [] := by
      by_contra hne
      exact hno ⟨hne, price, hv, hpos⟩
    have hstands : RunStands { db := account.db, broker := (openAccount account v.nextLot).1
                               raw := account.library
                               machine := (openAccount account v.nextLot).2 } p :=
      ⟨h.machine v.nextLot, h.books v.nextLot, h.fees v.nextLot, h.deferred⟩
    obtain ⟨account', result, hfinish, hstanding, hlast, hdefer, -⟩ :=
      finish_standing hstands account [] price none h.fresh
    refine ⟨account', visit_of_run result ?_, hstanding, hlast, hdefer⟩
    rw [hv, hbars]
    exact (run_of_decide hpos rfl).trans hfinish

/-- The account waits for the next open window. -/
def Waits (account : LibraryAccount) : Prop :=
  Standing account .flat ∧ account.library.deferEntry = true

/-- Outside the window nothing is bought while the entry is deferred. -/
theorem trade_deferred {r : LiveRun} (condition : String) (price : ℚ) (exitReason : Option Reason)
    (signal : Option Bool) (hdefer : r.raw.deferEntry = true) :
    r.trade strategy condition price false false exitReason signal =
      .ok { r with machine := { r.machine with long := false } } := by
  unfold LiveRun.trade
  cases hlong : r.machine.long with
  | true => simp [hdefer]
  | false =>
    have hsame : { r.machine with long := false } = r.machine := by rw [← hlong]
    simp [hsame]

theorem decide_deferred {r r' : LiveRun} {condition : String} {bars : List Day} {price : ℚ}
    {nowMs : Option ℤ} {signal : Option Bool} (hlong : r.machine.long = false) (hbars : bars ≠ [])
    (hopen : atDailyOpen nowMs = false)
    (hdefer : (processedOf strategy bars r.raw nowMs).deferEntry = true)
    (h : r.decide strategy condition bars price nowMs = .ok (r', signal)) :
    r'.raw.deferEntry = true := by
  unfold LiveRun.decide at h
  rw [if_neg hbars] at h
  dsimp only at h
  rw [hlong, hopen, trade_deferred _ _ _ _ hdefer] at h
  cases h
  exact hdefer

/-- A visit outside the window that finds the entry deferred, or defers it, leaves the
account waiting. -/
theorem visit_deferred (h : Standing account .flat) (hdecides : v.Decides)
    (hopen : v.atOpen = false)
    (hdefer : (processedOf strategy v.bars account.library v.nowMs).deferEntry = true) :
    ∃ account', visit strategy account v = .ok account' ∧ Waits account' := by
  obtain ⟨hbars, price, hv, hpos⟩ := hdecides
  obtain ⟨r, signal, hdecide, hstands, hlast, -⟩ := decide_stands h hbars hpos v.nowMs v.nextLot
    (SYMBOL ++ "|" ++ TIMEFRAME ++ "|" ++ strategy.key)
  have hkept : r.raw.deferEntry = true := decide_deferred
    (by rw [h.machine v.nextLot]; rfl) hbars hopen hdefer hdecide
  rw [hstands.deferred hkept] at hstands
  obtain ⟨account', result, hfinish, hstanding, -, hsaved, -⟩ :=
    finish_standing hstands account v.bars price signal fun hnone =>
      absurd (hlast.symm.trans hnone) (processedOf_lastDay strategy v.bars account.library v.nowMs)
  refine ⟨account', visit_of_run result ?_, hstanding, hsaved.trans hkept⟩
  rw [hv]
  exact (run_of_decide hpos hdecide).trans hfinish

variable (strategy) in
/-- A waiting account goes on waiting until a visit inside the window. -/
theorem Waits.visit (h : Waits account) (hopen : v.Decides → v.atOpen = false) :
    ∃ account', visit strategy account v = .ok account' ∧ Waits account' := by
  obtain ⟨hflat, hdefer⟩ := h
  by_cases hdecides : v.Decides
  · refine visit_deferred hflat hdecides (hopen hdecides) ?_
    cases hlast : account.library.lastDay with
    | none =>
      have := (hflat.fresh hlast).2
      cases hdefer.symm.trans this
    | some last => exact (processedOf_later hlast).trans hdefer
  · obtain ⟨account', hvisit, hflat', -, hkept⟩ := visit_undecided strategy hflat hdecides
    exact ⟨account', hvisit, hflat', hkept.trans hdefer⟩

/-- The first visit that has a day to look at, outside the window: it waits if that day is
warm and its signal on. -/
theorem processedOf_first (hfirst : account.library.lastDay = none) (hopen : v.atOpen = false)
    (hready : v.ready strategy (v.bars.length - 1) = true)
    (hon : v.on strategy (v.bars.length - 1) = true) :
    (processedOf strategy v.bars account.library v.nowMs).deferEntry = true := by
  unfold processedOf
  rw [pendingOf_first hfirst hopen]
  unfold Visit.atOpen at hopen
  unfold Visit.ready at hready
  unfold Visit.on at hon
  unfold markProcessed pendingDays
  simp only [hfirst, hopen, hready, hon, Bool.false_eq_true, if_false, if_true, List.getLast?_nil]

end

/-! ## Runs of visits -/

section
variable {strategy : LibraryStrategy}

theorem afterVisits_concat {vs : List Visit} {v : Visit} {account : LibraryAccount}
    (h : afterVisits strategy vs = .ok account) :
    afterVisits strategy (vs ++ [v]) = visit strategy account v := by
  unfold afterVisits at h ⊢
  rw [List.foldlM_append, h]
  show List.foldlM (visit strategy) account [v] = _
  rw [List.foldlM_cons]
  cases visit strategy account v <;> rfl

/-- An account that has held nothing stands flat. -/
theorem NeverHeld.flat {vs : List Visit} (h : NeverHeld strategy vs) :
    ∃ account, afterVisits strategy vs = .ok account ∧ Standing account .flat := by
  induction vs using List.reverseRecOn with
  | nil => exact ⟨.fresh, rfl, standing_fresh⟩
  | append_singleton vs v ih =>
    obtain ⟨account, hafter, hflat⟩ := ih fun past hpast =>
      h past (hpast.trans (List.prefix_append vs [v]))
    obtain ⟨account', hvisit, hstands⟩ := visit_flat strategy hflat v
    have hafter' := (afterVisits_concat hafter).trans hvisit
    rcases hstands with hflat' | ⟨x, hlong, -⟩
    · exact ⟨account', hafter', hflat'⟩
    · obtain ⟨lot, hlot, -⟩ := hlong.lot
      rw [h _ (List.prefix_refl _) account' hafter'] at hlot
      cases hlot

variable (strategy) in
/-- Visits with no price or no day leave a new account as it was. -/
theorem afterVisits_undecided {vs : List Visit} (h : ∀ v ∈ vs, ¬ v.Decides) :
    ∃ account, afterVisits strategy vs = .ok account ∧ Standing account .flat ∧
      account.library.lastDay = none := by
  induction vs using List.reverseRecOn with
  | nil => exact ⟨.fresh, rfl, standing_fresh, rfl⟩
  | append_singleton vs v ih =>
    obtain ⟨account, hafter, hflat, hlast⟩ := ih fun u hu => h u (List.mem_append_left _ hu)
    obtain ⟨account', hvisit, hflat', hlast', -⟩ :=
      visit_undecided strategy hflat (h v (by simp))
    exact ⟨account', (afterVisits_concat hafter).trans hvisit, hflat', hlast'.trans hlast⟩

variable (strategy) in
theorem Waits.visits {account : LibraryAccount} {vs : List Visit} (h : Waits account)
    (hopen : ∀ v ∈ vs, v.Decides → v.atOpen = false) :
    ∃ account', vs.foldlM (Library.visit strategy) account = .ok account' ∧ Waits account' := by
  induction vs generalizing account with
  | nil => exact ⟨account, rfl, h⟩
  | cons v vs ih =>
    obtain ⟨account', hvisit, hwaits⟩ := h.visit strategy (hopen v List.mem_cons_self)
    obtain ⟨account'', hrest, hwaits'⟩ := ih hwaits fun u hu => hopen u (List.mem_cons_of_mem _ hu)
    refine ⟨account'', ?_, hwaits'⟩
    rw [List.foldlM_cons, hvisit]
    exact hrest

variable (strategy) in
/-- **The first entry.** After any visits of a new account that left it without a position,
the next visit goes through, and enters only as `EntersBy` says. An account whose first
visit with a day to look at comes outside the window holds nothing after it; if it found
the latest day warm and on, it holds nothing until a visit inside the window. -/
theorem fresh_book_waits :
    (∀ vs v, NeverHeld strategy vs → ∃ account account',
      afterVisits strategy vs = .ok account ∧ visit strategy account v = .ok account' ∧
      (heldLots account' ≠ [] → EntersBy strategy account v)) ∧
    (∀ earlier first, (∀ v ∈ earlier, ¬ v.Decides) → first.Decides → first.atOpen = false →
      (∃ account, afterVisits strategy (earlier ++ [first]) = .ok account ∧ heldLots account = []) ∧
      (first.ready strategy (first.bars.length - 1) = true →
        first.on strategy (first.bars.length - 1) = true →
        ∀ later, (∀ v ∈ later, v.Decides → v.atOpen = false) →
          ∃ account, afterVisits strategy (earlier ++ first :: later) = .ok account ∧
            heldLots account = [])) := by
  refine ⟨fun vs v hnever => ?_, fun earlier first hearlier hdecides hopen => ⟨?_, ?_⟩⟩
  · obtain ⟨account, hafter, hflat⟩ := hnever.flat
    obtain ⟨account', hvisit, hstands⟩ := visit_flat strategy hflat v
    refine ⟨account, account', hafter, hvisit, fun hheld => ?_⟩
    rcases hstands with hflat' | ⟨x, -, henters⟩
    · exact absurd (hflat'.heldLots_nil rfl) hheld
    · exact henters
  · obtain ⟨account, hafter, hflat, hlast⟩ := afterVisits_undecided strategy hearlier
    obtain ⟨account', hvisit, hstands⟩ := visit_flat strategy hflat first
    refine ⟨account', (afterVisits_concat hafter).trans hvisit, ?_⟩
    rcases hstands with hflat' | ⟨x, -, henters⟩
    · exact hflat'.heldLots_nil rfl
    · rcases henters.window with hin | ⟨last, hsome, -⟩
      · cases hopen.symm.trans hin
      · cases hlast.symm.trans hsome
  · intro hready hon later hlater
    obtain ⟨account, hafter, hflat, hlast⟩ := afterVisits_undecided strategy hearlier
    obtain ⟨account', hvisit, hwaits⟩ :=
      visit_deferred hflat hdecides hopen (processedOf_first hlast hopen hready hon)
    obtain ⟨account'', hrest, hwaits'⟩ := hwaits.visits strategy hlater
    refine ⟨account'', ?_, hwaits'.1.heldLots_nil rfl⟩
    unfold afterVisits at hafter ⊢
    rw [List.foldlM_append, hafter]
    show List.foldlM (Library.visit strategy) account (first :: later) = _
    rw [List.foldlM_cons, hvisit]
    exact hrest

end

/-! ## Weekly momentum, visited at noon -/

/-- A run at noon of the day after the last of the bars, at the price of 100. -/
def noonVisit (bars : List Day) (last : ℤ) : Visit where
  bars := bars
  price := some 100
  nowMs := some ((last + 1) * DAY_MS + DAY_MS / 2)
  nextLot := 1

/-- A run at the daily open after the last of the bars. -/
def openVisit (bars : List Day) (last : ℤ) : Visit where
  bars := bars
  price := some 100
  nowMs := some ((last + 1) * DAY_MS)
  nextLot := 1

/-- Rising from the 3rd on: the signal is on from the 10th. -/
def risingTo (last : ℕ) : List Day := daysTo last (fun n => 100 + n) fun _ => 100

/-- Down on the 10th, up on the 17th. -/
def turningTo (last : ℕ) : List Day :=
  daysTo last (fun n => if n = 10 then 90 else if n = 17 then 120 else 100) fun _ => 80

/-- What the account holds after the visits. -/
def heldAfter (vs : List Visit) : Option (List OpenPosition) :=
  (afterVisits tsmom1w vs).toOption.map heldLots

/-- The second of two visits is seen to leave a lot. -/
theorem heldLots_ne_nil {u v : Visit} {account account' : LibraryAccount}
    (hafter : afterVisits tsmom1w [u] = .ok account)
    (hvisit : visit tsmom1w account v = .ok account')
    (hseen : (heldAfter [u, v]).map List.length = some 1) : heldLots account' ≠ [] := by
  intro hnil
  have hok := (afterVisits_concat hafter).trans hvisit
  rw [List.singleton_append] at hok
  unfold heldAfter at hseen
  rw [hok] at hseen
  have hlength : (heldLots account').length = 1 := Option.some.inj hseen
  rw [hnil] at hlength
  cases hlength

theorem neverHeld_single {v : Visit} (h : heldAfter [v] = some []) : NeverHeld tsmom1w [v] := by
  intro past hpast account hok
  rcases List.prefix_cons_iff.mp hpast with rfl | ⟨rest, rfl, hrest⟩
  · cases hok
    decide +kernel
  · rw [List.prefix_nil.mp hrest] at hok
    exact seen_of_ok hok h

/-- **An intraday first entry.** The first visit, at noon, finds the signal off. The one at
noon of the next day finds the Sunday's close on, and buys. -/
theorem intraday_first_entry :
    ¬ ∀ vs v account account', NeverHeld tsmom1w vs → afterVisits tsmom1w vs = .ok account →
      visit tsmom1w account v = .ok account' → heldLots account' ≠ [] →
      v.atOpen = true ∧ v.on tsmom1w (v.bars.length - 1) = true := by
  intro hclaim
  have hnever : NeverHeld tsmom1w [noonVisit (turningTo 16) 16] :=
    neverHeld_single (by decide +kernel)
  obtain ⟨account, hafter, hflat⟩ := hnever.flat
  obtain ⟨account', hvisit, -⟩ := visit_flat tsmom1w hflat (noonVisit (turningTo 17) 17)
  have hheld : heldLots account' ≠ [] := heldLots_ne_nil hafter hvisit (by decide +kernel)
  have hopen := (hclaim _ _ account account' hnever hafter hvisit hheld).1
  exact absurd hopen (by decide +kernel)

/-- Rising bars: the account waits at noon of the 17th and of the 18th, and the visit at the
open of the 19th enters inside the window. -/
theorem fresh_book_waits_rising :
    (∃ account account', afterVisits tsmom1w [noonVisit (risingTo 16) 16] = .ok account ∧
      visit tsmom1w account (openVisit (risingTo 18) 18) = .ok account' ∧
      heldLots account' ≠ [] ∧ EntersBy tsmom1w account (openVisit (risingTo 18) 18)) ∧
    ∃ account, afterVisits tsmom1w [noonVisit (risingTo 16) 16, noonVisit (risingTo 17) 17] =
        .ok account ∧ heldLots account = [] := by
  constructor
  · obtain ⟨account, account', hafter, hvisit, henters⟩ := (fresh_book_waits tsmom1w).1
      [noonVisit (risingTo 16) 16] (openVisit (risingTo 18) 18) (neverHeld_single (by decide +kernel))
    have hheld : heldLots account' ≠ [] := heldLots_ne_nil hafter hvisit (by decide +kernel)
    exact ⟨account, account', hafter, hvisit, hheld, henters hheld⟩
  · refine ((fresh_book_waits tsmom1w).2 [] (noonVisit (risingTo 16) 16) nofun
      ⟨by decide +kernel, 100, rfl, by decide +kernel⟩ (by decide +kernel)).2 (by decide +kernel)
      (by decide +kernel) [noonVisit (risingTo 17) 17] ?_
    intro v hv _
    rw [List.mem_singleton.mp hv]
    decide +kernel

end PaperTrading.Library
