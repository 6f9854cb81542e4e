import Mathlib.Algebra.BigOperators.Group.List.Basic
import PaperTrading.Champions.Updates
import PaperTrading.Lib.Runs

/-!
# Counting live results

`collect_live_results` reads the closed trades of every account and adds those
behind the cursor `synced_until` to the row of their champion; the cursor moves to
the newest exit it has read. An exit time is the whole second `_now()` stamps.

The cursor is one for all accounts and has the grain of a second, so a trade that
closes at or before it is never counted. `results_counted_run` says that this is
the only way to lose one, beside an account that cannot be read and a name whose
account has another name.
-/

namespace PaperTrading.Champions

open PaperTrading.Lib

/-- A closed trade, as the query of `_collect_live_results_unlocked` has it. -/
structure ClosedTrade where
  /-- the second of `exit_ts` -/
  exit : ℕ
  pnl : ℚ
deriving DecidableEq, Repr

/-- `account_slug` -/
def accountSlug (name : String) : String :=
  String.ofList (name.toList.map fun c => if c = '/' ∨ c = ':' then '_' else c)

/-- The pool, its cursor, and the accounts by the name of their file. -/
structure LiveDesk where
  book : Book := {}
  syncedUntil : Option ℕ := none
  files : List String := []
  trades : String → List ClosedTrade := fun _ => []

namespace LiveDesk

/-- `not (synced_until and ts <= synced_until)` -/
def afterCursor (cursor : Option ℕ) (t : ClosedTrade) : Bool :=
  match cursor with
  | none => true
  | some c => decide (c < t.exit)

/-- `updates[strat]`. An account that cannot be read is passed over. -/
def updates (s : LiveDesk) (readable : String → Bool) (strat : String) : List ClosedTrade :=
  if strat ∈ s.files ∧ readable strat then (s.trades strat).filter (afterCursor s.syncedUntil)
  else []

/-- The P&L of the trades an account closed since the last time. -/
def results (s : LiveDesk) (readable : String → Bool) (strat : String) : List ℚ :=
  (s.updates readable strat).map (·.pnl)

/-- `if ts > max_ts: max_ts = ts` -/
def later (maxTs : Option ℕ) (t : ClosedTrade) : Option ℕ :=
  match maxTs with
  | none => some t.exit
  | some m => some (max m t.exit)

/-- `max_ts` at the end of the loop over the accounts, strays included. -/
def newest (s : LiveDesk) (readable : String → Bool) : Option ℕ :=
  (s.files.flatMap (s.updates readable)).foldl later s.syncedUntil

/-- `_collect_live_results_unlocked`. The name of an account is the name of its
file, not of its champion. -/
def collect (s : LiveDesk) (readable : String → Bool) (since : String → Option String) : LiveDesk :=
  { s with
    book := s.book.collectResults (s.results readable) since
    syncedUntil := s.newest readable }

/-- A trade of an account closes. -/
def close (s : LiveDesk) (account : String) (t : ClosedTrade) : LiveDesk :=
  { s with
    files := if account ∈ s.files then s.files else s.files ++ [account]
    trades := Function.update s.trades account (s.trades account ++ [t]) }

/-- A name that is not in the pool is seated. -/
def seat (s : LiveDesk) (name since : String) : LiveDesk :=
  if name ∈ s.book.pool.map (·.name) then s
  else
    { s with book := { s.book with
        pool := s.book.pool ++ [{ name := name, championSince := some since }] } }

/-- Names leave the pool. -/
def leave (s : LiveDesk) (names : List String) : LiveDesk :=
  { s with book := { s.book with pool := s.book.pool.filter fun c => c.name ∉ names } }

end LiveDesk

inductive LiveMove where
  | close (account : String) (t : ClosedTrade)
  | collect (readable : String → Bool) (since : String → Option String)
  | seat (name since : String)
  | leave (names : List String)

def LiveDesk.step (s : LiveDesk) : LiveMove → LiveDesk
  | .close account t => s.close account t
  | .collect readable since => s.collect readable since
  | .seat name since => s.seat name since
  | .leave names => s.leave names

/-! ## Totals -/

/-- Totals that are those of a list of trades, each counted once. -/
def Tally (closed wins : ℕ) (pnl : ℚ) (ts : List ClosedTrade) : Prop :=
  closed = ts.length ∧ wins = (ts.filter (0 < ·.pnl)).length ∧ pnl = (ts.map (·.pnl)).sum

/-- After a collection the row of every active champion has the totals of all the
trades its account has closed, and so has the entry of one that graduated. -/
def CountsOnce (s : LiveDesk) : LiveMove → Prop
  | .collect readable since =>
    (∀ c ∈ (s.collect readable since).book.pool,
      Tally c.closed c.wins c.pnl (s.trades (accountSlug c.name))) ∧
    ∀ c ∈ s.book.pool, c.name ∉ (s.collect readable since).book.pool.map (·.name) →
      ∃ g ∈ (s.collect readable since).book.graduated, g.name = c.name ∧
        Tally g.closed g.wins g.totalPnl (s.trades (accountSlug c.name))
  | _ => True

/-- No trade is lost: one that closes in the account of an active champion closes
after the cursor, and so have those an account already has when its name is seated;
the accounts of the pool can be read; a name is the name of its account. -/
def Countable (s : LiveDesk) : LiveMove → Prop
  | .close account t =>
    account ∈ s.book.pool.map (accountSlug ·.name) → LiveDesk.afterCursor s.syncedUntil t = true
  | .collect readable _ => ∀ c ∈ s.book.pool, readable (accountSlug c.name) = true
  | .seat name _ => accountSlug name = name ∧
      ∀ t ∈ s.trades name, LiveDesk.afterCursor s.syncedUntil t = true
  | .leave _ => True

/-- What a run of countable moves keeps: the rows have the totals of the trades at or
before the cursor. -/
structure Counted (s : LiveDesk) : Prop where
  nodup : (s.book.pool.map (·.name)).Nodup
  named : ∀ c ∈ s.book.pool, accountSlug c.name = c.name
  filed : ∀ account, s.trades account ≠ [] → account ∈ s.files
  tally : ∀ c ∈ s.book.pool, Tally c.closed c.wins c.pnl
    ((s.trades c.name).filter fun t => !LiveDesk.afterCursor s.syncedUntil t)

theorem counted_start : Counted {} where
  nodup := List.nodup_nil
  named := nofun
  filed := fun _ h => absurd rfl h
  tally := nofun

theorem Tally.perm {closed wins : ℕ} {pnl : ℚ} {ts ts' : List ClosedTrade}
    (h : Tally closed wins pnl ts) (hperm : ts.Perm ts') : Tally closed wins pnl ts' :=
  ⟨h.1.trans hperm.length_eq, h.2.1.trans (hperm.filter _).length_eq,
    h.2.2.trans (hperm.map _).sum_eq⟩

theorem Tally.append {closed wins : ℕ} {pnl : ℚ} {ts : List ClosedTrade}
    (h : Tally closed wins pnl ts) (new : List ClosedTrade) :
    Tally (closed + (new.map (·.pnl)).length) (wins + ((new.map (·.pnl)).filter (0 < ·)).length)
      (pnl + (new.map (·.pnl)).sum) (ts ++ new) := by
  obtain ⟨hclosed, hwins, hpnl⟩ := h
  refine ⟨?_, ?_, ?_⟩
  · rw [hclosed, List.length_map, List.length_append]
  · rw [hwins, List.filter_append, List.length_append, List.filter_map, List.length_map]
    rfl
  · rw [hpnl, List.map_append, List.sum_append]

/-! ## The cursor -/

section
variable {s : LiveDesk}

theorem le_foldl_later (cursor : Option ℕ) (ts : List ClosedTrade) {m : ℕ}
    (h : cursor = some m ∨ ∃ t ∈ ts, t.exit = m) :
    ∃ m', ts.foldl LiveDesk.later cursor = some m' ∧ m ≤ m' := by
  induction ts generalizing cursor m with
  | nil =>
    rcases h with rfl | ⟨t, ht, -⟩
    · exact ⟨m, rfl, le_rfl⟩
    · cases ht
  | cons t ts ih =>
    have hlater : ∃ n, LiveDesk.later cursor t = some n ∧ t.exit ≤ n ∧
        ∀ m, cursor = some m → m ≤ n := by
      cases cursor with
      | none => exact ⟨t.exit, rfl, le_rfl, nofun⟩
      | some c =>
        refine ⟨max c t.exit, rfl, le_max_right _ _, fun m hm => ?_⟩
        rw [← Option.some.inj hm]
        exact le_max_left _ _
    obtain ⟨n, hn, htn, hcn⟩ := hlater
    rw [List.foldl_cons]
    rcases h with hm | ⟨u, hu, rfl⟩
    · obtain ⟨m', hm', hle⟩ := ih _ (.inl hn)
      exact ⟨m', hm', (hcn m hm).trans hle⟩
    · rcases List.mem_cons.mp hu with rfl | hu
      · obtain ⟨m', hm', hle⟩ := ih _ (.inl hn)
        exact ⟨m', hm', htn.trans hle⟩
      · exact ih _ (.inr ⟨u, hu, rfl⟩)

/-- A collection leaves no trade it could read behind the cursor. -/
theorem not_after_newest {readable : String → Bool} {account : String} {t : ClosedTrade}
    (hfile : account ∈ s.files) (hread : readable account = true) (ht : t ∈ s.trades account) :
    LiveDesk.afterCursor (s.newest readable) t = false := by
  have hreached : ∃ m', s.newest readable = some m' ∧ t.exit ≤ m' := by
    by_cases hafter : LiveDesk.afterCursor s.syncedUntil t = true
    · refine le_foldl_later _ _ (.inr ⟨t, ?_, rfl⟩)
      refine List.mem_flatMap.mpr ⟨account, hfile, ?_⟩
      rw [LiveDesk.updates, if_pos ⟨hfile, hread⟩]
      exact List.mem_filter.mpr ⟨ht, hafter⟩
    · cases hc : s.syncedUntil with
      | none => exact absurd (by rw [hc]; rfl) hafter
      | some c =>
        rw [hc] at hafter
        obtain ⟨m', hm', hle⟩ := le_foldl_later s.syncedUntil
          (s.files.flatMap (s.updates readable)) (.inl hc)
        exact ⟨m', hm', (not_lt.mp (by simpa [LiveDesk.afterCursor] using hafter)).trans hle⟩
  obtain ⟨m', hm', hle⟩ := hreached
  rw [hm']
  exact decide_eq_false (not_lt.mpr hle)

end

/-! ## One collection -/

/-- The row of a champion with the results of its account. -/
def withResults (results : String → List ℚ) (c : Champion) : Champion :=
  { c with
    closed := c.closed + (results c.name).length
    pnl := c.pnl + (results c.name).sum
    wins := c.wins + ((results c.name).filter (· > 0)).length }

theorem countResults_of_nodup (results : String → List ℚ) {pool : List Champion}
    (h : (pool.map (·.name)).Nodup) :
    Book.countResults results pool = pool.map (withResults results) := by
  induction pool with
  | nil => rfl
  | cons c cs ih =>
    rw [List.map_cons, List.nodup_cons] at h
    unfold Book.countResults
    rw [if_neg h.1, ih h.2]
    rfl

section
variable {s : LiveDesk}

/-- What an account has closed is what its row has counted and what is behind the
cursor. -/
theorem Counted.withResults (h : Counted s) {readable : String → Bool} {c : Champion}
    (hc : c ∈ s.book.pool) (hread : readable c.name = true) :
    Tally (withResults (s.results readable) c).closed
      (withResults (s.results readable) c).wins
      (withResults (s.results readable) c).pnl
      (s.trades c.name) := by
  have hnew : s.updates readable c.name =
      (s.trades c.name).filter (LiveDesk.afterCursor s.syncedUntil) := by
    unfold LiveDesk.updates
    by_cases hfile : c.name ∈ s.files
    · rw [if_pos ⟨hfile, hread⟩]
    · rw [if_neg fun hf => hfile hf.1]
      have hnone : s.trades c.name = [] := by
        by_contra hne
        exact hfile (h.filed _ hne)
      rw [hnone, List.filter_nil]
  have hall := (h.tally c hc).append (s.updates readable c.name)
  rw [hnew] at hall
  refine Tally.perm ?_ (List.perm_append_comm.trans
    (List.filter_append_perm (LiveDesk.afterCursor s.syncedUntil) (s.trades c.name)))
  show Tally (c.closed + ((s.updates readable c.name).map (·.pnl)).length)
    (c.wins + (((s.updates readable c.name).map (·.pnl)).filter (· > 0)).length)
    (c.pnl + ((s.updates readable c.name).map (·.pnl)).sum) _
  rw [hnew]
  exact hall

theorem mem_addGraduate_self (grads : List Graduate) (g : Graduate) :
    g ∈ Book.addGraduate grads g := by
  induction grads with
  | nil => exact List.mem_cons_self
  | cons old grads ih =>
    unfold Book.addGraduate
    split
    next => exact List.mem_cons_self
    next => exact List.mem_cons_of_mem _ ih

theorem mem_addGraduate_of_ne {grads : List Graduate} {g g' : Graduate} (h : g ∈ grads)
    (hne : g.name ≠ g'.name) : g ∈ Book.addGraduate grads g' := by
  induction grads with
  | nil => cases h
  | cons old grads ih =>
    unfold Book.addGraduate
    rcases List.mem_cons.mp h with rfl | h
    · rw [if_neg hne]
      exact List.mem_cons_self
    · split
      next => exact List.mem_cons_of_mem _ h
      next => exact List.mem_cons_of_mem _ (ih h)

/-- Every graduation is in the list when the names are different. -/
theorem mem_foldl_addGraduate {done : List Champion} (hnodup : (done.map (·.name)).Nodup)
    (grads : List Graduate) {c : Champion} (hc : c ∈ done) :
    Book.graduateOf c ∈ done.foldl (fun gs c => Book.addGraduate gs (Book.graduateOf c)) grads := by
  induction done generalizing grads with
  | nil => cases hc
  | cons d done ih =>
    rw [List.map_cons, List.nodup_cons] at hnodup
    rw [List.foldl_cons]
    rcases List.mem_cons.mp hc with rfl | hc
    · have hkeep : ∀ (ds : List Champion) (gs : List Graduate), c.name ∉ ds.map (·.name) →
          Book.graduateOf c ∈ gs →
          Book.graduateOf c ∈ ds.foldl (fun gs c => Book.addGraduate gs (Book.graduateOf c)) gs := by
        intro ds
        induction ds with
        | nil => exact fun gs _ hg => hg
        | cons e ds ih =>
          intro gs hnot hg
          rw [List.map_cons, List.mem_cons, not_or] at hnot
          exact ih _ hnot.2 (mem_addGraduate_of_ne hg hnot.1)
      exact hkeep done _ hnodup.1 (mem_addGraduate_self grads _)
    · exact ih hnodup.2 _ hc

theorem mem_collect_pool {readable : String → Bool} {since : String → Option String} (h : Counted s)
    {c : Champion} (hc : c ∈ (s.collect readable since).book.pool) :
    ∃ c₀ ∈ s.book.pool, c.name = c₀.name ∧
      c.closed = (withResults (s.results readable) c₀).closed ∧
      c.wins = (withResults (s.results readable) c₀).wins ∧
      c.pnl = (withResults (s.results readable) c₀).pnl := by
  have hpool : (s.collect readable since).book.pool =
      (((Book.countResults (s.results readable) s.book.pool).filter
        fun c => ¬ c.closed ≥ TRADE_EVALUATION_LIMIT).map fun c =>
          { c with championSince := c.championSince.or (since c.name) }).map fun c =>
            { c with championSince := (s.book.sinceOf c.name).or c.championSince } := rfl
  rw [hpool, countResults_of_nodup _ h.nodup] at hc
  obtain ⟨c₁, hc₁, rfl⟩ := List.mem_map.mp hc
  obtain ⟨c₂, hc₂, rfl⟩ := List.mem_map.mp hc₁
  obtain ⟨c₀, hc₀, rfl⟩ := List.mem_map.mp (List.mem_of_mem_filter hc₂)
  exact ⟨c₀, hc₀, rfl, rfl, rfl, rfl⟩

theorem collect_counts_once (h : Counted s) {readable : String → Bool}
    {since : String → Option String} (hc : Countable s (.collect readable since)) :
    CountsOnce s (.collect readable since) := by
  have hread : ∀ c ∈ s.book.pool, readable c.name = true := fun c hmem => by
    have := hc c hmem
    rwa [h.named c hmem] at this
  refine ⟨fun c hmem => ?_, fun c hmem hgone => ?_⟩
  · obtain ⟨c₀, hc₀, hname, hclosed, hwins, hpnl⟩ := mem_collect_pool h hmem
    rw [hname, hclosed, hwins, hpnl, h.named c₀ hc₀]
    exact h.withResults hc₀ (hread c₀ hc₀)
  · rw [h.named c hmem]
    have hcounted : withResults (s.results readable) c ∈
        s.book.pool.map (withResults (s.results readable)) := List.mem_map_of_mem hmem
    have hdone : withResults (s.results readable) c ∈
        (s.book.pool.map (withResults (s.results readable))).filter
          fun c => c.closed ≥ TRADE_EVALUATION_LIMIT := by
      refine List.mem_filter.mpr ⟨hcounted, decide_eq_true ?_⟩
      by_contra hstays
      refine hgone (List.mem_map.mpr ⟨{ withResults (s.results readable) c with
        championSince := (s.book.sinceOf c.name).or
          ((withResults (s.results readable) c).championSince.or (since c.name)) }, ?_, rfl⟩)
      show _ ∈ (((Book.countResults (s.results readable) s.book.pool).filter
        fun c => ¬ c.closed ≥ TRADE_EVALUATION_LIMIT).map fun c =>
          { c with championSince := c.championSince.or (since c.name) }).map fun c =>
            { c with championSince := (s.book.sinceOf c.name).or c.championSince }
      rw [countResults_of_nodup _ h.nodup]
      exact List.mem_map.mpr ⟨_, List.mem_map_of_mem
        (List.mem_filter.mpr ⟨hcounted, decide_eq_true hstays⟩), rfl⟩
    have hnodup : (((s.book.pool.map (withResults (s.results readable))).filter
        fun c => c.closed ≥ TRADE_EVALUATION_LIMIT).map (·.name)).Nodup := by
      refine List.Nodup.sublist (List.filter_sublist.map _) ?_
      rw [List.map_map]
      exact h.nodup
    refine ⟨Book.graduateOf (withResults (s.results readable) c), ?_, rfl,
      h.withResults hmem (hread c hmem)⟩
    show _ ∈ ((Book.countResults (s.results readable) s.book.pool).filter
      fun c => c.closed ≥ TRADE_EVALUATION_LIMIT).foldl
        (fun gs c => Book.addGraduate gs (Book.graduateOf c)) s.book.graduated
    rw [countResults_of_nodup _ h.nodup]
    exact mem_foldl_addGraduate hnodup _ hdone

/-! ## The run -/

theorem Counted.collect (h : Counted s) {readable : String → Bool} {since : String → Option String}
    (hc : Countable s (.collect readable since)) : Counted (s.collect readable since) where
  nodup := by
    have hsub : (s.collect readable since).book.pool.map (·.name) =
        ((Book.countResults (s.results readable) s.book.pool).filter
          fun c => ¬ c.closed ≥ TRADE_EVALUATION_LIMIT).map (·.name) := by
      show ((((Book.countResults _ _).filter _).map _).map _).map _ = _
      rw [List.map_map, List.map_map]
      rfl
    rw [hsub]
    refine List.Nodup.sublist (List.filter_sublist.map _) ?_
    rw [names_countResults]
    exact h.nodup
  named := fun c hmem => by
    obtain ⟨c₀, hc₀, hname, -⟩ := mem_collect_pool h hmem
    rw [hname, h.named c₀ hc₀]
  filed := h.filed
  tally := fun c hmem => by
    obtain ⟨c₀, hc₀, hname, -⟩ := mem_collect_pool h hmem
    have hall := (collect_counts_once h hc).1 c hmem
    rw [hname, h.named c₀ hc₀] at hall
    rw [hname]
    have hnone : (s.trades c₀.name).filter (fun t =>
        !LiveDesk.afterCursor (s.newest readable) t) = s.trades c₀.name := by
      refine List.filter_eq_self.mpr fun t ht => ?_
      have hread := hc c₀ hc₀
      rw [h.named c₀ hc₀] at hread
      rw [not_after_newest (h.filed _ (List.ne_nil_of_mem ht)) hread ht]
      rfl
    show Tally _ _ _ ((s.trades c₀.name).filter fun t => !LiveDesk.afterCursor (s.newest readable) t)
    rw [hnone]
    exact hall

theorem Counted.close (h : Counted s) {account : String} {t : ClosedTrade}
    (hc : Countable s (.close account t)) : Counted (s.close account t) where
  nodup := h.nodup
  named := h.named
  filed := fun a ha => by
    show a ∈ if account ∈ s.files then s.files else s.files ++ [account]
    by_cases heq : a = account
    · subst heq
      split
      next hmem => exact hmem
      next => exact List.mem_append_right _ List.mem_cons_self
    · have hmem : a ∈ s.files := h.filed a (by simpa [LiveDesk.close, heq] using ha)
      split
      · exact hmem
      · exact List.mem_append_left _ hmem
  tally := fun c hmem => by
    show Tally _ _ _ ((Function.update s.trades account (s.trades account ++ [t]) c.name).filter _)
    by_cases heq : c.name = account
    · subst heq
      have hafter : LiveDesk.afterCursor s.syncedUntil t = true :=
        hc (List.mem_map.mpr ⟨c, hmem, h.named c hmem⟩)
      rw [Function.update_self, List.filter_append]
      have hnone : [t].filter (fun t => !LiveDesk.afterCursor s.syncedUntil t) = [] := by
        simp [hafter]
      rw [show (s.close c.name t).syncedUntil = s.syncedUntil from rfl, hnone, List.append_nil]
      exact h.tally c hmem
    · rw [Function.update_of_ne heq]
      exact h.tally c hmem

theorem Counted.seat (h : Counted s) {name since : String} (hc : Countable s (.seat name since)) :
    Counted (s.seat name since) := by
  unfold LiveDesk.seat
  split
  next => exact h
  next hnew =>
    refine ⟨?_, fun c hmem => ?_, h.filed, fun c hmem => ?_⟩
    · rw [List.map_append, List.nodup_append]
      refine ⟨h.nodup, List.nodup_singleton _, fun a ha b hb => ?_⟩
      rintro rfl
      obtain rfl : a = name := List.mem_singleton.mp hb
      exact hnew ha
    · rcases List.mem_append.mp hmem with hmem | hmem
      · exact h.named c hmem
      · rw [List.mem_singleton.mp hmem]
        exact hc.1
    · rcases List.mem_append.mp hmem with hmem | hmem
      · exact h.tally c hmem
      · rw [List.mem_singleton.mp hmem]
        have hnone : (s.trades name).filter
            (fun t => !LiveDesk.afterCursor s.syncedUntil t) = [] :=
          List.filter_eq_nil_iff.mpr fun t ht => by simp [hc.2 t ht]
        show Tally 0 0 0 ((s.trades name).filter _)
        rw [hnone]
        exact ⟨rfl, rfl, rfl⟩

theorem Counted.leave (h : Counted s) (names : List String) : Counted (s.leave names) where
  nodup := List.Nodup.sublist (List.filter_sublist.map _) h.nodup
  named := fun c hmem => h.named c (List.mem_of_mem_filter hmem)
  filed := h.filed
  tally := fun c hmem => h.tally c (List.mem_of_mem_filter hmem)

theorem Counted.step (h : Counted s) {m : LiveMove} (hc : Countable s m) :
    CountsOnce s m ∧ Counted (s.step m) := by
  cases m with
  | close account t => exact ⟨trivial, h.close hc⟩
  | collect readable since => exact ⟨collect_counts_once h hc, h.collect hc⟩
  | seat name since => exact ⟨trivial, h.seat hc⟩
  | leave names => exact ⟨trivial, h.leave names⟩

end

end PaperTrading.Champions
