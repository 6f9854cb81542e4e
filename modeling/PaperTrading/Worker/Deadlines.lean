import PaperTrading.Worker.Scheduling
import Mathlib.Tactic.Linarith

/-!
# Evaluations that are parked

`_run_inflight` compares a name's deadline with the clock when it polls. The poll may come
late: a result is posted in between, or a claim is made, and either can block. An
evaluation that was done in time is then past its deadline all the same.

`Watched` is the loop with a record of every name's latest evaluation: when it was
submitted, and when it completes. `only_overdue_parked` says that a run parks only overdue
evaluations exactly when every poll comes before the deadlines of those that are done
(`InTime`).
-/

namespace PaperTrading.Worker

open PaperTrading.Lib

/-- An evaluation: when it was submitted, and when it completes, if it does. -/
structure Flight where
  started : ℚ
  completes : Option ℚ
deriving DecidableEq

/-- It does not complete within the timeout. -/
def Flight.Overdue (timeoutS : ℚ) (f : Flight) : Prop :=
  ∀ done, f.completes = some done → f.started + timeoutS < done

/-- What the surroundings answer, and when the evaluation completes that is submitted by
this step. -/
structure Timed (R : Type) where
  answer : Answer R
  completes : Option ℚ := none

/-- The loop, and the latest evaluation of every name. -/
structure Watched (R : Type) where
  loop : Loop R
  flights : Dict String Flight := .empty

/-- The names on their way to be parked. -/
def Pc.doomed {R : Type} : Pc R → List String
  | .finish _ stuck => stuck
  | .clearInflight stuck _ => stuck
  | .clearQueue stuck _ => stuck
  | .park stuck _ => stuck
  | _ => []

/-- The places where names are submitted. -/
def Pc.submits {R : Type} : Pc R → Bool
  | .submit _ => true
  | .resubmit _ _ _ => true
  | _ => false

theorem Pc.doomed_of_submits {R : Type} {p : Pc R} (h : p.submits = true) : p.doomed = [] := by
  cases p <;> first | rfl | cases h

namespace Watched

variable {R : Type} (cfg : Config R)

def start (names : List String) : Watched R := { loop := .start names }

/-- A submission is the name's latest evaluation. -/
def track (completes : Option ℚ) (flights : Dict String Flight) : Call R → Dict String Flight
  | .submitted name started => flights.set name ⟨started, completes⟩
  | _ => flights

def step (w : Watched R) (t : Timed R) : Watched R :=
  let next := w.loop.step cfg t.answer
  { loop := next
    flights := (next.calls.drop w.loop.calls.length).foldl (track t.completes) w.flights }

/-- The name passed to `finish` as out of time is out of time. -/
def ParksOverdue (w : Watched R) : Prop := ∀ n stuck killed, w.loop.pc = .park (n :: stuck) killed →
  ∃ f, w.flights.get? n = some f ∧ f.Overdue cfg.timeoutS

/-- A poll comes before the deadline of every evaluation in flight that completes in time. -/
def InTime (w : Watched R) (t : Timed R) : Prop := w.loop.pc = .poll → 0 < cfg.timeoutS →
  ∀ n ∈ w.loop.inflight.keys, ∀ f, w.flights.get? n = some f →
    f.Overdue cfg.timeoutS ∨ t.answer.now < f.started + cfg.timeoutS

end Watched

/-! ## Steps -/

section
variable {R : Type} {cfg : Config R}

open Watched

/-- A step submits nothing, or just one name, from where names are submitted. -/
inductive Tracks (s s' : Loop R) (completes : Option ℚ) (flights : Dict String Flight) :
    Dict String Flight → Prop where
  | same (hflight : ∀ e ∈ s'.inflight.entries, e ∈ s.inflight.entries) :
      Tracks s s' completes flights flights
  | submitted (name : String) (now : ℚ) (hpc : s'.pc = s.pc) (hsubmits : s.pc.submits = true)
      (hflight : s'.inflight = s.inflight.set name now) :
      Tracks s s' completes flights (flights.set name ⟨now, completes⟩)

theorem track_silent {f : String → Call R} (hf : ∀ completes flights n,
    track completes flights (f n) = flights) (completes : Option ℚ) (flights : Dict String Flight)
    (names : List String) : (names.map f).foldl (track completes) flights = flights := by
  induction names with
  | nil => rfl
  | cons n names ih => rw [List.map_cons, List.foldl_cons, hf, ih]

theorem move_tracks {a : Answer R} {s s' : Loop R} (hmove : Moves cfg a s s')
    (completes : Option ℚ) (flights : Dict String Flight) : ∃ new, s'.calls = s.calls ++ new ∧
      Tracks s s' completes flights (new.foldl (track completes) flights) := by
  cases hmove with
  | turned hqueue hflight hcalls hturn =>
    exact ⟨[], by rw [hcalls, List.append_nil], .same (hflight ▸ fun _ h => h)⟩
  | submitted hpc hqueue hroom hqueue' hflight hcalls hpc' =>
    refine ⟨_, hcalls, .submitted _ _ hpc' ?_ hflight⟩
    rcases hpc with hpc | ⟨_, _, hpc⟩
    · rw [hpc]; rfl
    · rw [hpc]; rfl
  | claimed hpc hreply hqueue hflight hcalls hpc' => exact ⟨_, hcalls, .same (hflight ▸ fun _ h => h)⟩
  | collected hpc hsub hstuck happart hqueue hflight hcalls hpc' =>
    refine ⟨_, hcalls, ?_⟩
    rw [track_silent fun _ _ _ => rfl]
    refine .same fun e he => ?_
    rw [hflight, dropAll_entries] at he
    exact (List.mem_filter.mp he).1
  | expired hpc hqueue hflight hcalls hpc' =>
    rw [List.append_assoc] at hcalls
    refine ⟨_, hcalls, ?_⟩
    rw [List.foldl_append, track_silent fun _ _ _ => rfl, track_silent fun _ _ _ => rfl]
    refine .same fun e he => ?_
    rw [hflight] at he
    cases he
  | finished hpc hqueue hflight hcalls hpc' => exact ⟨_, hcalls, .same (hflight ▸ fun _ h => h)⟩
  | parked hpc hqueue hflight hcalls hpc' => exact ⟨_, hcalls, .same (hflight ▸ fun _ h => h)⟩
  | requeued hpc hqueue hflight hcalls hpc' =>
    exact ⟨[], by rw [hcalls, List.append_nil], .same (hflight ▸ fun _ h => h)⟩

variable (cfg) in
theorem step_tracks (w : Watched R) (t : Timed R) :
    Tracks w.loop (w.step cfg t).loop t.completes w.flights (w.step cfg t).flights := by
  have hnew : ∀ {new}, (w.loop.step cfg t.answer).calls = w.loop.calls ++ new →
      (w.step cfg t).flights = new.foldl (track t.completes) w.flights := by
    intro new hcalls
    show ((w.loop.step cfg t.answer).calls.drop _).foldl _ _ = _
    rw [hcalls, List.drop_left]
  rcases step_moves cfg w.loop t.answer with hmove | ⟨mid, ready, stuck, hmid, hfirst, hsecond⟩
  · obtain ⟨new, hcalls, htracks⟩ := move_tracks hmove t.completes w.flights
    rw [hnew hcalls]
    exact htracks
  · obtain ⟨new, hcalls, htracks⟩ := move_tracks hfirst t.completes w.flights
    obtain ⟨more, hcalls', htracks'⟩ := move_tracks hsecond t.completes
      (new.foldl (track t.completes) w.flights)
    rw [hcalls, List.append_assoc] at hcalls'
    rw [hnew hcalls', List.foldl_append]
    -- neither of two moves is a submission: between them the loop is about to finish
    generalize new.foldl (track t.completes) w.flights = flights at htracks htracks'
    generalize more.foldl (track t.completes) flights = flights' at htracks'
    cases htracks with
    | submitted name now hpc hsubmits hflight =>
      rw [← hpc, hmid] at hsubmits
      cases hsubmits
    | same hflight =>
      cases htracks' with
      | same hflight' => exact .same fun e he => hflight e (hflight' e he)
      | submitted name now hpc hsubmits hflight' =>
        rw [hmid] at hsubmits
        cases hsubmits

variable (cfg) in
/-- The names found out of time by a poll are doomed, and no others ever are. -/
theorem step_doomed (s : Loop R) (a : Answer R) : (s.step cfg a).pc.doomed ⊆ s.pc.doomed ∨
    s.pc = .poll ∧ (s.step cfg a).pc.doomed ⊆ s.stuck cfg a := by
  have hsettle : ∀ (s : Loop R) (ready : List (String × Option R)) (stuck : List String),
      (s.settle ready stuck).pc.doomed ⊆ stuck := by
    intro s ready stuck
    unfold Loop.settle
    split
    · exact List.nil_subset _
    · exact List.Subset.refl _
    · exact List.Subset.refl _
    · exact List.nil_subset _
  have hsubmit : ∀ {s' : Loop R}, s.submitOne cfg a = some s' → s'.pc.doomed ⊆ s.pc.doomed := by
    intro s' hs'
    rw [submitOne_pc hs']
    exact List.Subset.refl _
  unfold Loop.step
  split
  next k hpc =>
    split
    next s' hs' => exact Or.inl (hsubmit hs')
    next =>
      refine Or.inl ?_
      show Pc.doomed (if _ then _ else _) ⊆ _
      split <;> exact List.nil_subset _
  next deficit k hpc => split <;> exact Or.inl (List.nil_subset _)
  next more deficit k hpc =>
    split
    next s' hs' => exact Or.inl (hsubmit hs')
    next => exact Or.inl (List.nil_subset _)
  next => exact Or.inl (List.nil_subset _)
  next => exact Or.inl (List.nil_subset _)
  next => exact Or.inl (List.nil_subset _)
  next => exact Or.inl (List.nil_subset _)
  next hpc =>
    refine Or.inr ⟨hpc, ?_⟩
    unfold Loop.poll
    split
    next => exact List.nil_subset _
    next =>
      simp only
      split
      next => exact List.nil_subset _
      next => exact hsettle _ _ _
  next stuck hpc =>
    rw [hpc]
    exact Or.inl (hsettle _ _ _)
  next r ready stuck hpc =>
    rw [hpc]
    exact Or.inl (hsettle _ _ _)
  next stuck killed hpc =>
    rw [hpc]
    exact Or.inl (List.Subset.refl _)
  next stuck killed hpc =>
    rw [hpc]
    exact Or.inl (List.Subset.refl _)
  next => exact Or.inl (List.nil_subset _)
  next n stuck killed hpc =>
    rw [hpc]
    exact Or.inl (List.subset_cons_self _ _)
  next =>
    refine Or.inl ?_
    show Pc.doomed (if _ then _ else _) ⊆ _
    split <;> exact List.nil_subset _
  next => exact Or.inl (List.nil_subset _)
  next => exact Or.inl (List.Subset.refl _)

theorem mem_stuck {s : Loop R} {a : Answer R} {n : String} : n ∈ s.stuck cfg a ↔
    0 < cfg.timeoutS ∧ ∃ started, (n, started) ∈ s.inflight.entries ∧
      cfg.timeoutS ≤ a.now - started := by
  unfold Loop.stuck
  split
  next h =>
    rw [List.mem_map, and_iff_right h]
    constructor
    · rintro ⟨e, he, rfl⟩
      obtain ⟨hmem, hlate⟩ := List.mem_filter.mp he
      exact ⟨e.2, hmem, of_decide_eq_true hlate⟩
    · rintro ⟨started, hmem, hlate⟩
      exact ⟨(n, started), List.mem_filter.mpr ⟨hmem, decide_eq_true hlate⟩, rfl⟩
  next h => exact iff_of_false List.not_mem_nil fun hn => h hn.1

/-! ## Only the overdue -/

/-- Every evaluation in flight is its name's latest, and the names on their way to be parked
are out of time. -/
structure Tracked (cfg : Config R) (w : Watched R) : Prop where
  flying : ∀ e ∈ w.loop.inflight.entries, ∃ f, w.flights.get? e.1 = some f ∧ f.started = e.2
  doomed : ∀ n ∈ w.loop.pc.doomed, ∃ f, w.flights.get? n = some f ∧ f.Overdue cfg.timeoutS

theorem step_flying {w : Watched R} {t : Timed R}
    (h : ∀ e ∈ w.loop.inflight.entries, ∃ f, w.flights.get? e.1 = some f ∧ f.started = e.2) :
    ∀ e ∈ (w.step cfg t).loop.inflight.entries,
      ∃ f, (w.step cfg t).flights.get? e.1 = some f ∧ f.started = e.2 := by
  have htracks := step_tracks cfg w t
  generalize hw : w.step cfg t = w' at htracks
  generalize hf : w'.flights = flights at htracks
  cases htracks with
  | same hflight => exact fun e he => hf ▸ h e (hflight e he)
  | submitted name now hpc hsubmits hflight =>
    intro e he
    have hget := Dict.get?_eq_some.mpr he
    rw [hflight, Dict.get?_set] at hget
    rw [Dict.get?_set]
    split at hget
    next hname =>
      rw [if_pos hname]
      exact ⟨_, rfl, Option.some.inj hget⟩
    next hname =>
      rw [if_neg hname]
      exact h e (Dict.get?_eq_some.mp hget)

theorem step_flights {w : Watched R} (t : Timed R) (h : w.loop.pc.submits = false) :
    (w.step cfg t).flights = w.flights := by
  have htracks := step_tracks cfg w t
  generalize (w.step cfg t).flights = flights at htracks ⊢
  cases htracks with
  | same => rfl
  | submitted name now hpc hsubmits =>
    rw [h] at hsubmits
    cases hsubmits

theorem Pc.submits_of_doomed {p : Pc R} {n : String} (h : n ∈ p.doomed) : p.submits = false := by
  by_contra hsubmits
  rw [Pc.doomed_of_submits (by simpa using hsubmits)] at h
  cases h

theorem step_tracked {w : Watched R} {t : Timed R} (h : Tracked cfg w) (hin : InTime cfg w t) :
    Tracked cfg (w.step cfg t) := by
  refine ⟨step_flying h.flying, fun n hn => ?_⟩
  rcases step_doomed cfg w.loop t.answer with hsub | ⟨hpc, hsub⟩
  · have hold := hsub hn
    rw [step_flights t (Pc.submits_of_doomed hold)]
    exact h.doomed n hold
  · obtain ⟨hpos, started, hmem, hlate⟩ := mem_stuck.mp (hsub hn)
    obtain ⟨f, hf, rfl⟩ := h.flying _ hmem
    rw [step_flights t (by rw [hpc]; rfl)]
    refine ⟨f, hf, (hin hpc hpos n (List.mem_map_of_mem hmem) f hf).resolve_right ?_⟩
    linarith

theorem Tracked.parks {w : Watched R} (h : Tracked cfg w) : ParksOverdue cfg w := by
  intro n stuck killed hpc
  refine h.doomed n ?_
  rw [hpc]
  exact List.mem_cons_self

/-! ## Doomed names are parked -/

/-- How many steps are left at most until a doomed name is parked. -/
def Pc.wait : Pc R → ℕ
  | .finish ready stuck => ready.length + stuck.length + 3
  | .clearInflight stuck _ => stuck.length + 2
  | .clearQueue stuck _ => stuck.length + 1
  | .park stuck _ => stuck.length
  | _ => 0

theorem settle_wait (s : Loop R) (ready : List (String × Option R)) {stuck : List String}
    (h : stuck ≠ []) : (s.settle ready stuck).pc.doomed = stuck ∧
      (s.settle ready stuck).pc.wait ≤ ready.length + stuck.length + 3 ∧
      (ready = [] → (s.settle ready stuck).pc.wait = stuck.length + 2) := by
  cases stuck with
  | nil => exact absurd rfl h
  | cons n stuck =>
    cases ready with
    | nil =>
      refine ⟨rfl, ?_, fun _ => rfl⟩
      show (n :: stuck).length + 2 ≤ _
      omega
    | cons r ready => exact ⟨rfl, le_refl _, fun h => by cases h⟩

variable (cfg) in
/-- A doomed name is parked by this step, or stays doomed and comes nearer to it. -/
theorem doomed_nearer {s : Loop R} (a : Answer R) {n : String} (h : n ∈ s.pc.doomed) :
    (∃ stuck killed, s.pc = .park (n :: stuck) killed) ∨
      n ∈ (s.step cfg a).pc.doomed ∧ (s.step cfg a).pc.wait < s.pc.wait := by
  cases hpc : s.pc with
  | finish ready stuck =>
    rw [hpc] at h
    refine Or.inr ?_
    have hne : stuck ≠ [] := List.ne_nil_of_mem h
    cases ready with
    | nil =>
      have hstep : s.step cfg a = s.settle [] stuck := by
        unfold Loop.step
        rw [hpc]
      obtain ⟨hdoomed, -, hwait⟩ := settle_wait s [] hne
      rw [hstep, hdoomed, hwait rfl]
      exact ⟨h, by show _ < 0 + stuck.length + 3; omega⟩
    | cons r ready =>
      have hstep : s.step cfg a = Loop.settle { s with
          unposted := s.unposted - 1
          calls := s.calls ++ [.finished r.1 r.2] } ready stuck := by
        unfold Loop.step
        rw [hpc]
      obtain ⟨hdoomed, hwait, -⟩ := settle_wait { s with
          unposted := s.unposted - 1
          calls := s.calls ++ [.finished r.1 r.2] } ready hne
      rw [hstep, hdoomed]
      exact ⟨h, lt_of_le_of_lt hwait (by show _ < ready.length + 1 + stuck.length + 3; omega)⟩
  | clearInflight stuck killed =>
    rw [hpc] at h
    refine Or.inr ?_
    unfold Loop.step
    rw [hpc]
    exact ⟨h, Nat.lt_succ_self _⟩
  | clearQueue stuck killed =>
    rw [hpc] at h
    refine Or.inr ?_
    unfold Loop.step
    rw [hpc]
    exact ⟨h, Nat.lt_succ_self _⟩
  | park stuck killed =>
    rw [hpc] at h
    cases stuck with
    | nil => cases h
    | cons m stuck =>
      by_cases hm : n = m
      · exact Or.inl ⟨stuck, killed, by rw [hm]⟩
      · refine Or.inr ?_
        unfold Loop.step
        rw [hpc]
        exact ⟨(List.mem_cons.mp h).resolve_left hm, Nat.lt_succ_self _⟩
  | _ =>
    rw [hpc] at h
    cases h

variable (cfg) in
theorem doomed_parked (w : Watched R) (inputs : ℕ → Timed R) {n : String} {f : Flight} :
    ∀ {k : ℕ}, n ∈ (after (Watched.step cfg) w inputs k).loop.pc.doomed →
      (after (Watched.step cfg) w inputs k).flights.get? n = some f →
      ∃ j stuck killed, (after (Watched.step cfg) w inputs j).loop.pc = .park (n :: stuck) killed ∧
        (after (Watched.step cfg) w inputs j).flights.get? n = some f := by
  intro k
  induction hwait : (after (Watched.step cfg) w inputs k).loop.pc.wait using Nat.strong_induction_on
    generalizing k with
  | _ m ih =>
    intro hdoomed hf
    rcases doomed_nearer cfg (inputs k).answer hdoomed with ⟨stuck, killed, hpc⟩ | ⟨hn, hlt⟩
    · exact ⟨k, stuck, killed, hpc, hf⟩
    · refine ih _ (hwait ▸ hlt) (k := k + 1) rfl hn ?_
      rw [after_succ, step_flights _ (Pc.submits_of_doomed hdoomed)]
      exact hf

/-- A poll that finds a name out of time dooms it. -/
theorem poll_dooms {s : Loop R} {a : Answer R} (hpc : s.pc = .poll) {n : String}
    (h : n ∈ s.stuck cfg a) : n ∈ (s.step cfg a).pc.doomed := by
  have hflying : n ∈ s.inflight.keys := (stuck_sublist cfg s a).subset h
  unfold Loop.step
  rw [hpc]
  show n ∈ (s.poll cfg a).pc.doomed
  unfold Loop.poll
  rw [if_neg (List.ne_nil_of_mem hflying)]
  simp only
  rw [if_neg fun hnone => List.ne_nil_of_mem h hnone.2, (settle_wait _ _ (List.ne_nil_of_mem h)).1]
  exact h

/-- In every run, with any delays between the polls, only overdue evaluations are parked
exactly when each poll comes before the deadline of every evaluation in flight that
completes in time. -/
theorem only_overdue_parked (cfg : Config R) (names : List String) (inputs : ℕ → Timed R) :
    (∀ k, ParksOverdue cfg (after (Watched.step cfg) (.start names) inputs k)) ↔
      ∀ k, InTime cfg (after (Watched.step cfg) (.start names) inputs k) (inputs k) := by
  have hflying : ∀ k, ∀ e ∈ (after (Watched.step cfg) (.start names) inputs k).loop.inflight.entries,
      ∃ f, (after (Watched.step cfg) (.start names) inputs k).flights.get? e.1 = some f ∧
        f.started = e.2 := by
    intro k
    induction k with
    | zero => exact fun e he => by cases he
    | succ k ih => exact step_flying ih
  constructor
  · intro hparks k hpc hpos n hn f hf
    refine or_iff_not_imp_right.mpr fun hlate => ?_
    obtain ⟨e, hmem, rfl⟩ := List.mem_map.mp hn
    obtain ⟨f', hf', hstarted⟩ := hflying k e hmem
    obtain rfl : f = f' := Option.some.inj (hf.symm.trans hf')
    have hstuck : e.1 ∈ Loop.stuck cfg (after (Watched.step cfg) (.start names) inputs k).loop
        (inputs k).answer := mem_stuck.mpr ⟨hpos, e.2, hmem, by rw [← hstarted]; linarith⟩
    obtain ⟨j, stuck, killed, hpark, hfj⟩ := doomed_parked cfg (.start names) inputs
      (k := k + 1) (poll_dooms hpc hstuck) (f := f) (by
        rw [after_succ, step_flights _ (by rw [hpc]; rfl)]
        exact hf)
    obtain ⟨g, hg, hoverdue⟩ := hparks j e.1 stuck killed hpark
    rw [hfj] at hg
    exact Option.some.inj hg ▸ hoverdue
  · intro hin k
    have htracked : Tracked cfg (after (Watched.step cfg) (.start names) inputs k) :=
      after_inv (I := Tracked cfg) (C := InTime cfg) (fun w t => step_tracked)
        ⟨fun e he => (by cases he), fun n hn => (by cases hn)⟩ hin k
    exact htracked.parks

end

/-! ## A late poll -/

/-- The names that are parked, and those that are submitted again. -/
def Pc.parking {R : Type} : Pc R → Option (List String × List String)
  | .park stuck killed => some (stuck, killed)
  | _ => none

theorem Pc.eq_park {R : Type} {p : Pc R} {stuck killed : List String}
    (h : p.parking = some (stuck, killed)) : p = .park stuck killed := by
  cases p <;> cases h
  rfl

/-- Two names on two slots. `b` is done after 5 seconds; posting the result of `a` takes from
second 1 to second 100. -/
def slowPost (k : ℕ) : Timed Unit where
  answer := {
    now := if k ≤ 5 then 0 else if k ≤ 10 then 1 else 100
    outcome := fun n => if n = "a" ∨ 11 ≤ k then some (some ()) else none }
  completes := if k = 1 then some 1 else if k = 2 then some 5 else none

/-- The timeout is 10 seconds, and `b` is parked. -/
theorem slow_post_parks :
    let w := after (Watched.step ⟨2, 10, 0, false, fun _ => ()⟩) (.start ["a", "b"]) slowPost 14
    w.loop.pc = .park ["b"] [] ∧ w.flights.get? "b" = some ⟨0, some 5⟩ ∧
      ¬ Watched.ParksOverdue ⟨2, 10, 0, false, fun _ => ()⟩ w := by
  intro w
  have hpc : w.loop.pc = .park ["b"] [] := Pc.eq_park (by decide +kernel)
  have hflight : w.flights.get? "b" = some ⟨0, some 5⟩ := by decide +kernel
  refine ⟨hpc, hflight, fun hparks => ?_⟩
  obtain ⟨f, hf, hoverdue⟩ := hparks "b" [] [] hpc
  rw [hflight] at hf
  obtain rfl := Option.some.inj hf
  exact absurd (hoverdue 5 rfl) (by decide +kernel)

end PaperTrading.Worker
