import Mathlib.Data.List.Count
import PaperTrading.Worker.InFlight

/-!
# What the in-flight scheduler does with its names

`Sound` is the invariant: every name given or claimed is finished, queued, in flight, or
on its way between the two, once. `step_moves` says what a step can change, in one or two
moves (a poll first collects and then decides what comes next), and each field of `Sound`
has a lemma over the moves. `run_inflight_spec` puts them together, and adds that the loop
comes to its end.
-/

namespace PaperTrading.Worker

open PaperTrading.Lib

/-! ## Names that are on their way -/

section
variable {R : Type}

def Next.names : Next R → List String
  | .finish ready => ready.map Prod.fst
  | _ => []

/-- The names that are neither queued nor in flight and not finished yet. -/
def Pc.names : Pc R → List String
  | .submit k => k.names
  | .refill _ k => k.names
  | .resubmit _ _ k => k.names
  | .reportInflight k => k.names
  | .reportQueue k => k.names
  | .finish ready _ => ready.map Prod.fst
  | .clearInflight stuck killed => stuck ++ killed
  | .clearQueue stuck killed => stuck ++ killed
  | .park stuck killed => stuck ++ killed
  | _ => []

/-- A name in each of these places is held. -/
def Loop.held (s : Loop R) : List String := s.queue ++ s.inflight.keys ++ s.pc.names

/-- The name that is being finished. -/
def Pc.finishing : Pc R → Option String
  | .finish (r :: _) _ => some r.1
  | .park (n :: _) _ => some n
  | _ => none

/-- The report that follows a launch, and the places from there to the next submission. -/
def Pc.launched : Pc R → Bool
  | .refill _ _ => true
  | .reportInflight _ => true
  | .reportQueue _ => true
  | .finish _ [] => true
  | .poll => true
  | .idle => true
  | .sleep => true
  | .returned => true
  | _ => false

/-- The names killed by a timeout, until they are queued again. -/
def Pc.killed : Pc R → Option (List String)
  | .clearInflight _ killed => some killed
  | .clearQueue _ killed => some killed
  | .park _ killed => some killed
  | _ => none

/-- The places where no killed name is left to submit. -/
def Pc.free : Pc R → Bool
  | .submit _ => false
  | .clearInflight _ _ => false
  | .clearQueue _ _ => false
  | .park _ _ => false
  | _ => true

theorem Pc.free_of_killed {p : Pc R} {killed : List String} (h : p.killed = some killed) :
    p.free = false := by
  cases p <;> first | rfl | cases h

end

/-! ## Moves -/

section
variable {R : Type} (cfg : Config R)

/-- No slot is idle while a name is queued. -/
def Loop.Full (s : Loop R) : Prop := s.queue = [] ∨ cfg.width ≤ s.inflight.keys.length

/-- A change of place that moves no name. -/
inductive Turn (s : Loop R) : Pc R → Prop where
  | stays {p : Pc R} (hp : p = s.pc) : Turn s p
  | launched {k : Next R} {p : Pc R} (hpc : s.pc = .submit k) (hfull : s.Full cfg)
      (hp : (∃ deficit, p = .refill deficit k) ∨ p = .reportInflight k) : Turn s p
  | relaunched {k : Next R} (hpc : (∃ deficit, s.pc = .refill deficit k) ∨
      ∃ more deficit, s.pc = .resubmit more deficit k) : Turn s (.reportInflight k)
  | reported {k : Next R} (hpc : s.pc = .reportInflight k) : Turn s (.reportQueue k)
  | toPoll (hpc : s.pc = .reportQueue .poll ∨ s.pc = .finish [] [] ∨ s.pc = .sleep) : Turn s .poll
  | toSleep (hpc : s.pc = .reportQueue .sleep ∨ s.pc = .idle) : Turn s .sleep
  | toIdle (hpc : s.pc = .poll) : Turn s .idle
  | toFinish {ready : List (String × Option R)} (hpc : s.pc = .reportQueue (.finish ready)) :
      Turn s (.finish ready [])
  | cleared {stuck killed : List String} (hpc : s.pc = .clearInflight stuck killed) :
      Turn s (.clearQueue stuck killed)
  | toPark {stuck killed : List String} (hpc : s.pc = .clearQueue stuck killed) :
      Turn s (.park stuck killed)
  | toSubmit {k : Next R} (hpc : (∃ ready, s.pc = .finish ready [] ∧ k = .finish ready) ∨
      s.pc = .idle ∧ k = .sleep) : Turn s (.submit k)
  | toReturned (hpc : s.pc = .poll) (hempty : s.inflight.keys = []) : Turn s .returned

/-- What changes in a step. -/
inductive Moves (a : Answer R) (s : Loop R) : Loop R → Prop where
  /-- no name moves -/
  | turned {s' : Loop R} (hqueue : s'.queue = s.queue) (hflight : s'.inflight = s.inflight)
      (hcalls : s'.calls = s.calls) (hturn : Turn cfg s s'.pc) : Moves a s s'
  /-- a name is submitted -/
  | submitted {s' : Loop R} {k : Next R} {name : String} {rest : List String} {now : ℚ}
      (hpc : s.pc = .submit k ∨ ∃ more deficit, s.pc = .resubmit more deficit k)
      (hqueue : s.queue = name :: rest) (hroom : s.inflight.keys.length < cfg.width)
      (hqueue' : s'.queue = rest) (hflight : s'.inflight = s.inflight.set name now)
      (hcalls : s'.calls = s.calls ++ [.submitted name now]) (hpc' : s'.pc = s.pc) : Moves a s s'
  /-- names come with a claim -/
  | claimed {s' : Loop R} {deficit : ℤ} {k : Next R} {names : List String}
      (hpc : s.pc = .refill deficit k) (hreply : names = a.reply.getD [])
      (hqueue : s'.queue = s.queue ++ names) (hflight : s'.inflight = s.inflight)
      (hcalls : s'.calls = s.calls ++ [.claimed names])
      (hpc' : s'.pc = .resubmit names.length deficit k) : Moves a s s'
  /-- results are collected, and names found out of time -/
  | collected {s' : Loop R} {ready : List (String × Option R)} {stuck : List String}
      (hpc : s.pc = .poll) (hsub : (ready.map Prod.fst).Sublist s.inflight.keys)
      (hstuck : stuck.Sublist s.inflight.keys) (happart : ∀ n ∈ stuck, n ∉ ready.map Prod.fst)
      (hqueue : s'.queue = s.queue)
      (hflight : s'.inflight = Loop.dropAll s.inflight (ready.map Prod.fst))
      (hcalls : s'.calls = s.calls ++ (ready.map Prod.fst).map .collected)
      (hpc' : s'.pc = .finish ready stuck) : Moves a s s'
  /-- the names out of time leave, and the others in flight with them -/
  | expired {s' : Loop R} {stuck : List String} (hpc : s.pc = .finish [] stuck)
      (hqueue : s'.queue = s.queue) (hflight : s'.inflight = .empty)
      (hcalls : s'.calls = s.calls ++ stuck.map .expired ++
        (s.inflight.keys.filter (· ∉ stuck)).map .killed)
      (hpc' : s'.pc = .clearInflight stuck (s.inflight.keys.filter (· ∉ stuck))) : Moves a s s'
  /-- a result is finished -/
  | finished {s' : Loop R} {r : String × Option R} {ready : List (String × Option R)}
      {stuck : List String} (hpc : s.pc = .finish (r :: ready) stuck) (hqueue : s'.queue = s.queue)
      (hflight : s'.inflight = s.inflight) (hcalls : s'.calls = s.calls ++ [.finished r.1 r.2])
      (hpc' : s'.pc = .finish ready stuck) : Moves a s s'
  /-- a name out of time is finished -/
  | parked {s' : Loop R} {n : String} {record : Option R} {stuck killed : List String}
      (hpc : s.pc = .park (n :: stuck) killed) (hqueue : s'.queue = s.queue)
      (hflight : s'.inflight = s.inflight) (hcalls : s'.calls = s.calls ++ [.finished n record])
      (hpc' : s'.pc = .park stuck killed) : Moves a s s'
  /-- the names killed are queued again, before the others -/
  | requeued {s' : Loop R} {killed : List String} (hpc : s.pc = .park [] killed)
      (hqueue : s'.queue = killed ++ s.queue) (hflight : s'.inflight = s.inflight)
      (hcalls : s'.calls = s.calls) (hpc' : s'.pc = .submit .poll) : Moves a s s'

end

section
variable {R : Type} {cfg : Config R} {s s' : Loop R} {a : Answer R}

theorem submitOne_none (h : s.submitOne cfg a = none) : s.Full cfg := by
  unfold Loop.submitOne at h
  split at h
  next hqueue => exact Or.inl hqueue
  next =>
    split at h
    next hfull => exact Or.inr hfull
    next => split at h <;> cases h

theorem submitOne_some {k : Next R}
    (hpc : s.pc = .submit k ∨ ∃ more deficit, s.pc = .resubmit more deficit k)
    (h : s.submitOne cfg a = some s') : Moves cfg a s s' := by
  unfold Loop.submitOne at h
  split at h
  next => cases h
  next name rest hqueue =>
    split at h
    next => cases h
    next hroom =>
      split at h
      next =>
        obtain rfl := Option.some.inj h
        exact .turned rfl rfl rfl (.stays rfl)
      next =>
        obtain rfl := Option.some.inj h
        exact .submitted hpc hqueue (Nat.not_le.mp hroom) rfl rfl rfl rfl

/-- From the results of a poll on: the loop turns, or drops the names in flight. -/
theorem settle_moves {ready : List (String × Option R)} {stuck : List String}
    (hpc : s.pc = .finish ready stuck) : Moves cfg a s (s.settle ready stuck) := by
  unfold Loop.settle
  split
  next r ready => exact .turned rfl rfl rfl (.toSubmit (Or.inl ⟨_, hpc, rfl⟩))
  next r ready n stuck =>
    exact .turned rfl rfl rfl (.stays hpc.symm)
  next n stuck => exact .expired hpc rfl rfl rfl rfl
  next => exact .turned rfl rfl rfl (.toPoll (Or.inr (Or.inl hpc)))

/-- What comes next does not depend on where the loop was. -/
theorem settle_pc (s : Loop R) (pc : Pc R) (ready : List (String × Option R)) (stuck : List String) :
    Loop.settle { s with pc := pc } ready stuck = s.settle ready stuck := by
  cases ready <;> cases stuck <;> rfl

/-- The results a poll finds. -/
theorem ready_sublist (s : Loop R) (a : Answer R) (stuck : List String) :
    ((s.ready a stuck).map Prod.fst).Sublist s.inflight.keys := by
  refine Dict.map_filterMap_sublist (fun e b hb => ?_) s.inflight.entries
  split at hb
  next => cases hb
  next =>
    obtain ⟨_, _, rfl⟩ := Option.map_eq_some_iff.mp hb
    rfl

theorem ready_apart (s : Loop R) (a : Answer R) {stuck : List String} {n : String} (hn : n ∈ stuck) :
    n ∉ (s.ready a stuck).map Prod.fst := by
  intro hmem
  obtain ⟨r, hr, rfl⟩ := List.mem_map.mp hmem
  obtain ⟨e, _, he⟩ := List.mem_filterMap.mp hr
  split at he
  next => cases he
  next hnot =>
    obtain ⟨_, _, rfl⟩ := Option.map_eq_some_iff.mp he
    exact hnot hn

theorem stuck_sublist (cfg : Config R) (s : Loop R) (a : Answer R) :
    (s.stuck cfg a).Sublist s.inflight.keys := by
  unfold Loop.stuck
  split
  next => exact List.filter_sublist.map _
  next => exact List.nil_sublist _

theorem dropAll_nil (d : Dict String ℚ) : Loop.dropAll d [] = d := by
  refine Dict.ext ?_
  show d.entries.filterMap _ = _
  conv_rhs => rw [← List.filterMap_some (l := d.entries)]
  refine List.filterMap_congr fun e _ => ?_
  simp

/-- A step is one move, or two: a poll or a finished result, and what comes next. -/
theorem step_moves (cfg : Config R) (s : Loop R) (a : Answer R) :
    Moves cfg a s (s.step cfg a) ∨ ∃ mid ready stuck, mid.pc = .finish ready stuck ∧
      Moves cfg a s mid ∧ Moves cfg a mid (s.step cfg a) := by
  unfold Loop.step
  split
  next k hpc =>
    split
    next s' hs' => exact Or.inl (submitOne_some (Or.inl hpc) hs')
    next hnone =>
      refine Or.inl (.turned rfl rfl rfl (.launched hpc (submitOne_none hnone) ?_))
      by_cases hdeficit : 0 < s.claimSize cfg a
      · exact Or.inl ⟨_, if_pos hdeficit⟩
      · exact Or.inr (if_neg hdeficit)
  next deficit k hpc =>
    split
    next => exact Or.inl (.turned rfl rfl rfl (.relaunched (Or.inl ⟨_, hpc⟩)))
    next hreply => exact Or.inl (.claimed hpc hreply.symm rfl rfl rfl rfl)
  next more deficit k hpc =>
    split
    next s' hs' => exact Or.inl (submitOne_some (Or.inr ⟨_, _, hpc⟩) hs')
    next => exact Or.inl (.turned rfl rfl rfl (.relaunched (Or.inr ⟨_, _, hpc⟩)))
  next k hpc => exact Or.inl (.turned rfl rfl rfl (.reported hpc))
  next hpc => exact Or.inl (.turned rfl rfl rfl (.toPoll (Or.inl hpc)))
  next hpc => exact Or.inl (.turned rfl rfl rfl (.toSleep (Or.inl hpc)))
  next hpc => exact Or.inl (.turned rfl rfl rfl (.toFinish hpc))
  next hpc =>
    unfold Loop.poll
    split
    next hempty => exact Or.inl (.turned rfl rfl rfl (.toReturned hpc hempty))
    next =>
      simp only
      split
      next hnone =>
        refine Or.inl (.turned rfl ?_ ?_ (.toIdle hpc))
        · rw [hnone.1, List.map_nil, dropAll_nil]
        · rw [hnone.1, List.map_nil, List.map_nil, List.append_nil]
      next =>
        refine Or.inr ⟨{ s with
          inflight := Loop.dropAll s.inflight ((s.ready a (s.stuck cfg a)).map Prod.fst)
          unposted := (s.ready a (s.stuck cfg a)).length
          calls := s.calls ++ ((s.ready a (s.stuck cfg a)).map Prod.fst).map .collected
          pc := .finish (s.ready a (s.stuck cfg a)) (s.stuck cfg a) }, _, _, rfl, ?_, ?_⟩
        · exact .collected hpc (ready_sublist s a _) (stuck_sublist cfg s a)
            (fun n hn => ready_apart s a hn) rfl rfl rfl rfl
        · exact settle_pc .. ▸ settle_moves rfl
  next stuck hpc => exact Or.inl (settle_moves hpc)
  next r ready stuck hpc =>
    refine Or.inr ⟨{ s with
      unposted := s.unposted - 1
      calls := s.calls ++ [.finished r.1 r.2]
      pc := .finish ready stuck }, _, _, rfl, .finished hpc rfl rfl rfl rfl, ?_⟩
    exact settle_pc .. ▸ settle_moves rfl
  next stuck killed hpc => exact Or.inl (.turned rfl rfl rfl (.cleared hpc))
  next stuck killed hpc => exact Or.inl (.turned rfl rfl rfl (.toPark hpc))
  next killed hpc => exact Or.inl (.requeued hpc rfl rfl rfl rfl)
  next n stuck killed hpc => exact Or.inl (.parked hpc rfl rfl rfl rfl)
  next hpc =>
    by_cases hclaim : 0 < s.claimSize cfg a
    · rw [if_pos hclaim]
      exact Or.inl (.turned rfl rfl rfl (.toSubmit (Or.inr ⟨hpc, rfl⟩)))
    · rw [if_neg hclaim]
      exact Or.inl (.turned rfl rfl rfl (.toSleep (Or.inr hpc)))
  next hpc => exact Or.inl (.turned rfl rfl rfl (.toPoll (Or.inr (Or.inr hpc))))
  next hpc => exact Or.inl (.turned rfl rfl rfl (.stays rfl))

end

/-! ## The invariant -/

section
variable {R : Type} (cfg : Config R) (names : List String)

/-- The names killed by a timeout and not submitted since: they come first in the queue
once they are back in it, there is room for all of them, and there are none elsewhere. -/
structure Waits (s : Loop R) : Prop where
  front : ∀ k, s.pc = .submit k → ∃ rest, s.queue = waiting s.calls ++ rest ∧
    s.inflight.keys.length + (waiting s.calls).length ≤ cfg.width
  killed : ∀ killed, s.pc.killed = some killed →
    waiting s.calls = killed ∧ s.inflight.keys = [] ∧ killed.length ≤ cfg.width
  resumed : s.pc.free = true → waiting s.calls = []

/-- Every name is in one place; the names in flight are those that run; those killed by a
timeout come first until they are submitted again. -/
structure Sound (s : Loop R) : Prop where
  distinct : (names ++ claimed s.calls).Nodup
  places : (((finished s.calls).map Prod.fst) ++ s.held).Perm (names ++ claimed s.calls)
  room : s.inflight.keys.length ≤ cfg.width
  runs : running s.calls = s.inflight.entries
  stuck : ∀ ready stuck, s.pc = .finish ready stuck → stuck.Nodup ∧ ∀ n ∈ stuck, n ∈ s.inflight.keys
  waits : Waits cfg s

/-- A claim's reply is of names not seen before, each once. -/
def NewReply (s : Loop R) (a : Answer R) : Prop :=
  ∀ deficit k, s.pc = .refill deficit k → (a.reply.getD []).Nodup ∧
    ∀ n ∈ a.reply.getD [], n ∉ names ++ claimed s.calls

end

section
variable {R : Type} {cfg : Config R} {names : List String} {s s' : Loop R} {a : Answer R}

theorem Turn.names_eq {p : Pc R} (h : Turn cfg s p) : p.names = s.pc.names := by
  cases h with
  | stays hp => rw [hp]
  | launched hpc hfull hp =>
    rcases hp with ⟨_, rfl⟩ | rfl
    · rw [hpc]; rfl
    · rw [hpc]; rfl
  | relaunched hpc =>
    rcases hpc with ⟨_, hpc⟩ | ⟨_, _, hpc⟩
    · rw [hpc]; rfl
    · rw [hpc]; rfl
  | reported hpc => rw [hpc]; rfl
  | toPoll hpc =>
    rcases hpc with hpc | hpc | hpc
    · rw [hpc]; rfl
    · rw [hpc]; rfl
    · rw [hpc]; rfl
  | toSleep hpc =>
    rcases hpc with hpc | hpc
    · rw [hpc]; rfl
    · rw [hpc]; rfl
  | toIdle hpc => rw [hpc]; rfl
  | toFinish hpc => rw [hpc]; rfl
  | cleared hpc => rw [hpc]; rfl
  | toPark hpc => rw [hpc]; rfl
  | toSubmit hpc =>
    rcases hpc with ⟨_, hpc, rfl⟩ | ⟨hpc, rfl⟩
    · rw [hpc]; rfl
    · rw [hpc]; rfl
  | toReturned hpc _ => rw [hpc]; rfl

/-- A name that is queued is not in flight. -/
theorem Sound.queued_not_flying (h : Sound cfg names s) {n : String} (hn : n ∈ s.queue) :
    n ∉ s.inflight.keys := by
  have hnodup := (h.places.nodup_iff.mpr h.distinct)
  have hheld := (List.nodup_append.mp hnodup).2.1
  have hfront := (List.nodup_append.mp hheld).1
  intro hkeys
  exact (List.nodup_append.mp hfront).2.2 n hn n hkeys rfl

theorem keys_set_new {d : Dict String ℚ} {n : String} (t : ℚ) (hn : n ∉ d.keys) :
    (d.set n t).entries = d.entries ++ [(n, t)] ∧ (d.set n t).keys = d.keys ++ [n] := by
  have hentries := Dict.entries_set_of_none (v := t) (Dict.get?_eq_none.mpr hn)
  refine ⟨hentries, ?_⟩
  unfold Dict.keys
  rw [hentries, List.map_append]
  rfl

theorem dropAll_entries (d : Dict String ℚ) (gone : List String) :
    (Loop.dropAll d gone).entries = d.entries.filter fun e => e.1 ∉ gone := by
  show d.entries.filterMap _ = _
  rw [← List.filterMap_eq_filter]
  refine List.filterMap_congr fun e _ => ?_
  by_cases he : e.1 ∈ gone
  · simp [he, Option.guard]
  · simp [he, Option.guard]

theorem dropAll_keys (d : Dict String ℚ) (gone : List String) :
    (Loop.dropAll d gone).keys = d.keys.filter (· ∉ gone) := by
  unfold Dict.keys
  rw [dropAll_entries, List.filter_map]
  rfl

/-- A part of a list of distinct names, and the rest. -/
theorem parts_perm {l part : List String} (hl : l.Nodup) (hpart : part.Nodup)
    (hsub : ∀ n ∈ part, n ∈ l) : (part ++ l.filter (· ∉ part)).Perm l := by
  refine (List.perm_ext_iff_of_nodup ?_ hl).mpr fun n => ?_
  · refine List.nodup_append.mpr ⟨hpart, hl.filter _, ?_⟩
    rintro n hn m hm rfl
    exact absurd hn (of_decide_eq_true (List.mem_filter.mp hm).2)
  · rw [List.mem_append, List.mem_filter]
    constructor
    · rintro (hn | hn)
      · exact hsub n hn
      · exact hn.1
    · intro hn
      by_cases hmem : n ∈ part
      · exact Or.inl hmem
      · exact Or.inr ⟨hn, decide_eq_true hmem⟩

/-- `places`, name by name. -/
theorem places_iff (names : List String) (s : Loop R) :
    (((finished s.calls).map Prod.fst) ++ s.held).Perm (names ++ claimed s.calls) ↔
      ∀ x, ((finished s.calls).map Prod.fst).count x +
        (s.queue.count x + s.inflight.keys.count x + s.pc.names.count x) =
          names.count x + (claimed s.calls).count x := by
  unfold Loop.held
  simp only [List.perm_iff_count, List.count_append]

theorem claimed_move (hmove : Moves cfg a s s') : claimed s'.calls = claimed s.calls ∨
    ∃ deficit k, s.pc = .refill deficit k ∧
      claimed s'.calls = claimed s.calls ++ a.reply.getD [] := by
  cases hmove with
  | turned _ _ hcalls _ => exact Or.inl (by rw [hcalls])
  | submitted _ _ _ _ _ hcalls _ =>
    rw [hcalls, claimed_append]
    exact Or.inl (List.append_nil _)
  | claimed hpc hreply _ _ hcalls _ =>
    refine Or.inr ⟨_, _, hpc, ?_⟩
    rw [hcalls, claimed_append, ← hreply]
    exact congrArg _ (List.append_nil _)
  | collected _ _ _ _ _ _ hcalls _ =>
    rw [hcalls, collected_silent.claimed_map]
    exact Or.inl rfl
  | expired _ _ _ hcalls _ =>
    rw [hcalls, killed_silent.claimed_map, expired_silent.claimed_map]
    exact Or.inl rfl
  | finished _ _ _ hcalls _ =>
    rw [hcalls, claimed_append]
    exact Or.inl (List.append_nil _)
  | parked _ _ _ hcalls _ =>
    rw [hcalls, claimed_append]
    exact Or.inl (List.append_nil _)
  | requeued _ _ _ hcalls _ => exact Or.inl (by rw [hcalls])

theorem move_distinct (h : Sound cfg names s) (hnew : NewReply names s a) (hmove : Moves cfg a s s') :
    (names ++ claimed s'.calls).Nodup := by
  rcases claimed_move hmove with hsame | ⟨deficit, k, hpc, hmore⟩
  · rw [hsame]
    exact h.distinct
  · obtain ⟨hnodup, hnew⟩ := hnew deficit k hpc
    rw [hmore, ← List.append_assoc]
    refine List.nodup_append.mpr ⟨h.distinct, hnodup, ?_⟩
    rintro x hx y hy rfl
    exact hnew x hy hx

theorem move_places (h : Sound cfg names s) (hmove : Moves cfg a s s') :
    (((finished s'.calls).map Prod.fst) ++ s'.held).Perm (names ++ claimed s'.calls) := by
  refine (places_iff names s').mpr fun x => ?_
  have hx := (places_iff names s).mp h.places x
  cases hmove with
  | turned hqueue hflight hcalls hturn => rwa [hcalls, hqueue, hflight, hturn.names_eq]
  | @submitted k name rest now _ hqueue _ hqueue' hflight hcalls hpc' =>
    have hnew := (keys_set_new now (h.queued_not_flying (hqueue ▸ List.mem_cons_self))).2
    have hfin : finished s'.calls = finished s.calls := by
      rw [hcalls, finished_append]
      exact List.append_nil _
    have hclaim : claimed s'.calls = claimed s.calls := by
      rw [hcalls, claimed_append]
      exact List.append_nil _
    rw [hqueue, List.count_cons] at hx
    rw [hfin, hclaim, hqueue', hflight, hnew, hpc', List.count_append, List.count_singleton]
    omega
  | @claimed deficit k more hpc _ hqueue hflight hcalls hpc' =>
    have hfin : finished s'.calls = finished s.calls := by
      rw [hcalls, finished_append]
      exact List.append_nil _
    have hclaim : claimed s'.calls = claimed s.calls ++ more := by
      rw [hcalls, claimed_append]
      exact congrArg _ (List.append_nil _)
    rw [hpc] at hx
    rw [hfin, hclaim, hqueue, hflight, hpc', List.count_append, List.count_append]
    simp only [Pc.names] at hx ⊢
    omega
  | @collected ready stuck hpc hsub _ _ hqueue hflight hcalls hpc' =>
    have hparts := (parts_perm s.inflight.keys_nodup (hsub.nodup s.inflight.keys_nodup)
      hsub.subset).count_eq x
    rw [hpc] at hx
    rw [hcalls, collected_silent.finished_map, collected_silent.claimed_map, hqueue, hflight,
      dropAll_keys, hpc']
    rw [List.count_append] at hparts
    simp only [Pc.names, List.count_nil] at hx ⊢
    omega
  | @expired stuck hpc hqueue hflight hcalls hpc' =>
    obtain ⟨hnodup, hsub⟩ := h.stuck _ _ hpc
    have hparts := (parts_perm s.inflight.keys_nodup hnodup hsub).count_eq x
    rw [hpc] at hx
    rw [hcalls, killed_silent.finished_map, expired_silent.finished_map, killed_silent.claimed_map,
      expired_silent.claimed_map, hqueue, hflight, hpc']
    have hnone : (Dict.empty : Dict String ℚ).keys.count x = 0 := rfl
    rw [List.count_append] at hparts
    simp only [Pc.names, List.map_nil, List.count_nil, List.count_append] at hx ⊢
    omega
  | @finished r ready stuck hpc hqueue hflight hcalls hpc' =>
    have hfin : finished s'.calls = finished s.calls ++ [r] := by rw [hcalls, finished_append]; rfl
    have hclaim : claimed s'.calls = claimed s.calls := by
      rw [hcalls, claimed_append]
      exact List.append_nil _
    rw [hpc] at hx
    rw [hfin, hclaim, hqueue, hflight, hpc', List.map_append, List.count_append]
    simp only [Pc.names, List.map_cons, List.map_nil, List.count_cons, List.count_nil] at hx ⊢
    omega
  | @parked n record stuck killed hpc hqueue hflight hcalls hpc' =>
    have hfin : finished s'.calls = finished s.calls ++ [(n, record)] := by
      rw [hcalls, finished_append]
      rfl
    have hclaim : claimed s'.calls = claimed s.calls := by
      rw [hcalls, claimed_append]
      exact List.append_nil _
    rw [hpc] at hx
    rw [hfin, hclaim, hqueue, hflight, hpc', List.map_append, List.count_append]
    simp only [Pc.names, List.cons_append, List.map_cons, List.map_nil, List.count_cons,
      List.count_nil] at hx ⊢
    omega
  | @requeued killed hpc hqueue hflight hcalls hpc' =>
    rw [hpc] at hx
    rw [hcalls, hqueue, hflight, hpc', List.count_append]
    simp only [Pc.names, Next.names, List.nil_append, List.count_nil] at hx ⊢
    omega

theorem keys_length_dropAll (d : Dict String ℚ) (gone : List String) :
    (Loop.dropAll d gone).keys.length ≤ d.keys.length := by
  rw [dropAll_keys]
  exact List.length_filter_le _ _

theorem move_room (h : Sound cfg names s) (hmove : Moves cfg a s s') :
    s'.inflight.keys.length ≤ cfg.width := by
  cases hmove with
  | turned _ hflight _ _ => exact hflight ▸ h.room
  | @submitted k name rest now _ hqueue hroom _ hflight _ _ =>
    have hnew := (keys_set_new now (h.queued_not_flying (hqueue ▸ List.mem_cons_self))).2
    rw [hflight, hnew, List.length_append]
    exact hroom
  | claimed _ _ _ hflight _ _ => exact hflight ▸ h.room
  | collected _ _ _ _ _ hflight _ _ => exact hflight ▸ (keys_length_dropAll _ _).trans h.room
  | expired _ _ hflight _ _ =>
    rw [hflight]
    exact Nat.zero_le _
  | finished _ _ hflight _ _ => exact hflight ▸ h.room
  | parked _ _ hflight _ _ => exact hflight ▸ h.room
  | requeued _ _ hflight _ _ => exact hflight ▸ h.room

theorem move_runs (h : Sound cfg names s) (hmove : Moves cfg a s s') :
    running s'.calls = s'.inflight.entries := by
  cases hmove with
  | turned _ hflight hcalls _ => rw [hcalls, hflight, h.runs]
  | @submitted k name rest now _ hqueue _ _ hflight hcalls _ =>
    have hnew := (keys_set_new now (h.queued_not_flying (hqueue ▸ List.mem_cons_self))).1
    rw [hcalls, hflight, hnew, running_append, h.runs]
    rfl
  | claimed _ _ _ hflight hcalls _ =>
    rw [hcalls, hflight, running_append, h.runs]
    rfl
  | collected _ _ _ _ _ hflight hcalls _ =>
    rw [hcalls, hflight, collected_silent.running_map, h.runs, dropAll_entries]
  | @expired stuck _ _ hflight hcalls _ =>
    rw [hcalls, hflight, killed_silent.running_map, expired_silent.running_map, h.runs,
      List.filter_filter]
    -- whatever was in flight is stuck or killed
    refine List.filter_eq_nil_iff.mpr fun e he hleft => ?_
    obtain ⟨hkilled, hstuck⟩ := (Bool.and_eq_true_iff).mp hleft
    refine of_decide_eq_true hkilled (List.mem_filter.mpr ⟨List.mem_map.mpr ⟨e, he, rfl⟩, hstuck⟩)
  | finished _ _ hflight hcalls _ =>
    rw [hcalls, hflight, running_append, h.runs]
    rfl
  | parked _ _ hflight hcalls _ =>
    rw [hcalls, hflight, running_append, h.runs]
    rfl
  | requeued _ _ hflight hcalls _ => rw [hcalls, hflight, h.runs]

theorem move_stuck (h : Sound cfg names s) (hmove : Moves cfg a s s') : ∀ ready stuck,
    s'.pc = .finish ready stuck → stuck.Nodup ∧ ∀ n ∈ stuck, n ∈ s'.inflight.keys := by
  intro ready stuck hpc
  cases hmove with
  | turned _ hflight _ hturn =>
    rw [hflight]
    generalize hp : s'.pc = p at hturn
    cases hturn with
    | stays hsame => exact h.stuck ready stuck (hsame ▸ hp ▸ hpc)
    | toFinish _ =>
      rw [hp] at hpc
      obtain ⟨-, rfl⟩ := Pc.finish.inj hpc
      exact ⟨List.nodup_nil, fun n hn => absurd hn List.not_mem_nil⟩
    | launched _ _ hpk =>
      rw [hp] at hpc
      rcases hpk with ⟨_, rfl⟩ | rfl
      · cases hpc
      · cases hpc
    | _ => rw [hp] at hpc; cases hpc
  | submitted hfrom _ _ _ _ _ hpc' =>
    rw [hpc'] at hpc
    rcases hfrom with hfrom | ⟨_, _, hfrom⟩
    · rw [hfrom] at hpc; cases hpc
    · rw [hfrom] at hpc; cases hpc
  | claimed _ _ _ _ _ hpc' => rw [hpc'] at hpc; cases hpc
  | collected _ _ hstuck happart _ hflight _ hpc' =>
    rw [hpc'] at hpc
    obtain ⟨rfl, rfl⟩ := Pc.finish.inj hpc
    refine ⟨hstuck.nodup s.inflight.keys_nodup, fun n hn => ?_⟩
    rw [hflight, dropAll_keys]
    exact List.mem_filter.mpr ⟨hstuck.subset hn, decide_eq_true (happart n hn)⟩
  | expired _ _ _ _ hpc' => rw [hpc'] at hpc; cases hpc
  | finished hfrom _ hflight _ hpc' =>
    rw [hpc'] at hpc
    obtain ⟨rfl, rfl⟩ := Pc.finish.inj hpc
    rw [hflight]
    exact h.stuck _ _ hfrom
  | parked _ _ _ _ hpc' => rw [hpc'] at hpc; cases hpc
  | requeued _ _ _ _ hpc' => rw [hpc'] at hpc; cases hpc

theorem Waits.of_none (hnone : waiting s.calls = []) (hroom : s.inflight.keys.length ≤ cfg.width)
    (hkilled : s.pc.killed = none) : Waits cfg s where
  front k _ := ⟨s.queue, by rw [hnone]; rfl, by rw [hnone]; exact hroom⟩
  killed killed h := by rw [hkilled] at h; cases h
  resumed _ := hnone

theorem Waits.of_killed {killed : List String} (hwaiting : waiting s.calls = killed)
    (hempty : s.inflight.keys = []) (hroom : killed.length ≤ cfg.width)
    (hpc : s.pc.killed = some killed) : Waits cfg s where
  front k h := by rw [h] at hpc; cases hpc
  killed killed' h := by
    rw [hpc] at h
    obtain rfl := Option.some.inj h
    exact ⟨hwaiting, hempty, hroom⟩
  resumed h := by
    rw [Pc.free_of_killed hpc] at h
    cases h

/-- Once the slots are full, or the queue is empty, everything killed runs again. -/
theorem Waits.done (h : Waits cfg s) {k : Next R} (hpc : s.pc = .submit k) (hfull : s.Full cfg) :
    waiting s.calls = [] := by
  obtain ⟨rest, hqueue, hroom⟩ := h.front k hpc
  rcases hfull with hempty | hfull
  · rw [hempty] at hqueue
    exact (List.append_eq_nil_iff.mp hqueue.symm).1
  · exact List.length_eq_zero_iff.mp (by omega)

theorem Turn.waits {p : Pc R} (h : Turn cfg s p) (hs : Waits cfg s)
    (hroom : s.inflight.keys.length ≤ cfg.width) : Waits cfg { s with pc := p } := by
  cases h with
  | stays hp => exact hp ▸ hs
  | launched hpc hfull hp =>
    have hnone := hs.done hpc hfull
    rcases hp with ⟨_, rfl⟩ | rfl
    · exact .of_none hnone hroom rfl
    · exact .of_none hnone hroom rfl
  | relaunched hpc =>
    rcases hpc with ⟨_, hpc⟩ | ⟨_, _, hpc⟩
    · exact .of_none (hs.resumed (by rw [hpc]; rfl)) hroom rfl
    · exact .of_none (hs.resumed (by rw [hpc]; rfl)) hroom rfl
  | reported hpc => exact .of_none (hs.resumed (by rw [hpc]; rfl)) hroom rfl
  | toPoll hpc =>
    rcases hpc with hpc | hpc | hpc
    · exact .of_none (hs.resumed (by rw [hpc]; rfl)) hroom rfl
    · exact .of_none (hs.resumed (by rw [hpc]; rfl)) hroom rfl
    · exact .of_none (hs.resumed (by rw [hpc]; rfl)) hroom rfl
  | toSleep hpc =>
    rcases hpc with hpc | hpc
    · exact .of_none (hs.resumed (by rw [hpc]; rfl)) hroom rfl
    · exact .of_none (hs.resumed (by rw [hpc]; rfl)) hroom rfl
  | toIdle hpc => exact .of_none (hs.resumed (by rw [hpc]; rfl)) hroom rfl
  | toFinish hpc => exact .of_none (hs.resumed (by rw [hpc]; rfl)) hroom rfl
  | cleared hpc =>
    obtain ⟨hwaiting, hempty, hlen⟩ := hs.killed _ (by rw [hpc]; rfl)
    exact .of_killed hwaiting hempty hlen rfl
  | toPark hpc =>
    obtain ⟨hwaiting, hempty, hlen⟩ := hs.killed _ (by rw [hpc]; rfl)
    exact .of_killed hwaiting hempty hlen rfl
  | toSubmit hpc =>
    rcases hpc with ⟨_, hpc, rfl⟩ | ⟨hpc, rfl⟩
    · exact .of_none (hs.resumed (by rw [hpc]; rfl)) hroom rfl
    · exact .of_none (hs.resumed (by rw [hpc]; rfl)) hroom rfl
  | toReturned hpc _ => exact .of_none (hs.resumed (by rw [hpc]; rfl)) hroom rfl

theorem move_waits (h : Sound cfg names s) (hmove : Moves cfg a s s') : Waits cfg s' := by
  have hroom := move_room h hmove
  cases hmove with
  | turned hqueue hflight hcalls hturn =>
    have hwaits := hturn.waits h.waits h.room
    refine ⟨?_, ?_, ?_⟩
    · rw [hqueue, hflight, hcalls]
      exact hwaits.front
    · rw [hflight, hcalls]
      exact hwaits.killed
    · rw [hcalls]
      exact hwaits.resumed
  | @submitted k name rest now hpc hqueue hlt hqueue' hflight hcalls hpc' =>
    have hnew := (keys_set_new now (h.queued_not_flying (hqueue ▸ List.mem_cons_self))).2
    have hwaiting : waiting s'.calls = (waiting s.calls).erase name := by
      rw [hcalls, waiting_append]
      rfl
    rcases hpc with hpc | ⟨more, deficit, hpc⟩
    · obtain ⟨tail, htail, hlen⟩ := h.waits.front k hpc
      rw [hqueue] at htail
      have hkilled : s'.pc.killed = none := by rw [hpc', hpc]; rfl
      cases hw : waiting s.calls with
      | nil =>
        rw [hw] at hwaiting
        exact .of_none hwaiting hroom hkilled
      | cons w ws =>
        -- the name submitted is the first of them
        rw [hw] at htail hlen hwaiting
        obtain ⟨rfl, rfl⟩ := List.cons.inj htail
        rw [List.erase_cons_head] at hwaiting
        refine ⟨fun k' _ => ⟨tail, ?_, ?_⟩, fun killed hk => ?_, fun hfree => ?_⟩
        · rw [hqueue', hwaiting]
          rfl
        · rw [hflight, hnew, hwaiting, List.length_append]
          rw [List.length_cons] at hlen
          simp only [List.length_singleton]
          omega
        · rw [hkilled] at hk
          cases hk
        · rw [hpc', hpc] at hfree
          cases hfree
    · have hnone := h.waits.resumed (by rw [hpc]; rfl)
      rw [hnone] at hwaiting
      exact .of_none hwaiting hroom (by rw [hpc', hpc]; rfl)
  | claimed hpc _ _ hflight hcalls hpc' =>
    have hnone := h.waits.resumed (by rw [hpc]; rfl)
    refine .of_none ?_ hroom (by rw [hpc']; rfl)
    rw [hcalls, waiting_append, hnone]
    rfl
  | collected hpc _ _ _ _ hflight hcalls hpc' =>
    have hnone := h.waits.resumed (by rw [hpc]; rfl)
    refine .of_none ?_ hroom (by rw [hpc']; rfl)
    rw [hcalls, waiting_collected, hnone]
  | expired hpc _ hflight hcalls hpc' =>
    have hnone := h.waits.resumed (by rw [hpc]; rfl)
    refine .of_killed ?_ ?_ ((List.length_filter_le _ _).trans h.room) (by rw [hpc']; rfl)
    · rw [hcalls, waiting_killed, waiting_expired, hnone, List.nil_append]
    · rw [hflight]
      rfl
  | finished hpc _ hflight hcalls hpc' =>
    have hnone := h.waits.resumed (by rw [hpc]; rfl)
    refine .of_none ?_ hroom (by rw [hpc']; rfl)
    rw [hcalls, waiting_append, hnone]
    rfl
  | parked hpc _ hflight hcalls hpc' =>
    obtain ⟨hwaiting, hempty, hlen⟩ := h.waits.killed _ (by rw [hpc]; rfl)
    refine .of_killed ?_ (by rw [hflight, hempty]) hlen (by rw [hpc']; rfl)
    rw [hcalls, waiting_append, hwaiting]
    rfl
  | requeued hpc hqueue hflight hcalls hpc' =>
    obtain ⟨hwaiting, hempty, hlen⟩ := h.waits.killed _ (by rw [hpc]; rfl)
    refine ⟨fun k _ => ⟨s.queue, ?_, ?_⟩, fun killed hk => ?_, fun hfree => ?_⟩
    · rw [hqueue, hcalls, hwaiting]
    · rw [hflight, hcalls, hempty, hwaiting]
      simpa using hlen
    · rw [hpc'] at hk
      cases hk
    · rw [hpc'] at hfree
      cases hfree

theorem move_sound (h : Sound cfg names s) (hnew : NewReply names s a) (hmove : Moves cfg a s s') :
    Sound cfg names s' where
  distinct := move_distinct h hnew hmove
  places := move_places h hmove
  room := move_room h hmove
  runs := move_runs h hmove
  stuck := move_stuck h hmove
  waits := move_waits h hmove

end

/-! ## A step -/

section
variable {R : Type} {cfg : Config R} {names : List String} {s : Loop R} {a : Answer R}

theorem step_sound (h : Sound cfg names s) (hnew : NewReply names s a) :
    Sound cfg names (s.step cfg a) := by
  rcases step_moves cfg s a with hmove | ⟨mid, ready, stuck, hpc, hfirst, hsecond⟩
  · exact move_sound h hnew hmove
  · refine move_sound (move_sound h hnew hfirst) (fun deficit k hmid => ?_) hsecond
    rw [hpc] at hmid
    cases hmid

/-- A turn of `_submit_queued` that submits stays in the launch. -/
theorem submitOne_pc {s' : Loop R} (h : s.submitOne cfg a = some s') : s'.pc = s.pc := by
  unfold Loop.submitOne at h
  split at h
  next => cases h
  next =>
    split at h
    next => cases h
    next =>
      split at h
      next => obtain rfl := Option.some.inj h; rfl
      next => obtain rfl := Option.some.inj h; rfl

theorem settle_full {ready : List (String × Option R)} {stuck : List String}
    (h : ready = [] → stuck = [] → s.Full cfg) :
    (s.settle ready stuck).pc.launched = true → (s.settle ready stuck).Full cfg := by
  unfold Loop.settle
  split
  next => intro hlaunched; cases hlaunched
  next => intro hlaunched; cases hlaunched
  next => intro hlaunched; cases hlaunched
  next => exact fun _ => h rfl rfl

/-- At the end of a launch, and from there to the next submission, the slots are full or
the queue is empty. -/
theorem step_full (h : s.pc.launched = true → s.Full cfg) :
    (s.step cfg a).pc.launched = true → (s.step cfg a).Full cfg := by
  unfold Loop.step
  split
  next k hpc =>
    split
    next s' hs' =>
      intro hlaunched
      rw [submitOne_pc hs', hpc] at hlaunched
      cases hlaunched
    next hnone =>
      have hfull : s.Full cfg := submitOne_none hnone
      exact fun _ => hfull
  next hpc =>
    split
    next => exact fun _ => h (by rw [hpc]; rfl)
    next => intro hlaunched; cases hlaunched
  next k hpc =>
    split
    next s' hs' =>
      intro hlaunched
      rw [submitOne_pc hs', hpc] at hlaunched
      cases hlaunched
    next hnone =>
      have hfull : s.Full cfg := submitOne_none hnone
      exact fun _ => hfull
  next hpc => exact fun _ => h (by rw [hpc]; rfl)
  next hpc => exact fun _ => h (by rw [hpc]; rfl)
  next hpc => exact fun _ => h (by rw [hpc]; rfl)
  next hpc => exact fun _ => h (by rw [hpc]; rfl)
  next hpc =>
    have hfull := h (by rw [hpc]; rfl)
    unfold Loop.poll
    split
    next => exact fun _ => hfull
    next =>
      simp only
      split
      next hnone =>
        intro _
        unfold Loop.Full
        simp only
        rw [hnone.1, List.map_nil, dropAll_nil]
        exact hfull
      next hsome => exact settle_full fun hready hstuck => absurd ⟨hready, hstuck⟩ hsome
  next stuck hpc =>
    refine settle_full fun _ hstuck => h ?_
    rw [hpc, hstuck]
    rfl
  next stuck hpc =>
    refine settle_full fun _ hstuck => h ?_
    rw [hpc, hstuck]
    rfl
  next => intro hlaunched; cases hlaunched
  next => intro hlaunched; cases hlaunched
  next => intro hlaunched; cases hlaunched
  next => intro hlaunched; cases hlaunched
  next hpc => exact fun _ => h (by rw [hpc]; rfl)
  next hpc => exact fun _ => h (by rw [hpc]; rfl)
  next hpc => exact fun _ => h (by rw [hpc]; rfl)

end

/-! ## The end of the loop -/

section
variable {R : Type}

/-- How many results and stuck names a launch holds back. -/
def Next.left : Next R → ℕ
  | .finish ready => ready.length
  | _ => 0

/-- How many names the last poll took that are not finished yet. -/
def Pc.taken : Pc R → ℕ
  | .submit k => k.left
  | .refill _ k => k.left
  | .resubmit _ _ k => k.left
  | .reportInflight k => k.left
  | .reportQueue k => k.left
  | .finish ready stuck => ready.length + stuck.length
  | .clearInflight stuck _ => stuck.length
  | .clearQueue stuck _ => stuck.length
  | .park stuck _ => stuck.length
  | _ => 0

/-- The names finished, and those a poll has taken to be finished. -/
def Loop.progress (s : Loop R) : ℕ := (Worker.finished s.calls).length + s.pc.taken

/-- The poll finds a result, or a name out of time. -/
def Loop.Finds (cfg : Config R) (s : Loop R) (a : Answer R) : Prop :=
  s.pc = .poll ∧ (s.ready a (s.stuck cfg a) ≠ [] ∨ s.stuck cfg a ≠ [])

/-- The steps to the next poll: launches left, steps left in this one, and names to
submit. -/
def Pc.stage : Pc R → ℕ × ℕ
  | .submit k => (k.left, 7)
  | .refill _ k => (k.left, 6)
  | .resubmit _ _ k => (k.left, 5)
  | .reportInflight k => (k.left, 4)
  | .reportQueue k => (k.left, 3)
  | .poll => (0, 0)
  | .finish ready [] => (ready.length, 2)
  | .finish ready (_ :: stuck) => (ready.length + stuck.length + 3, 2)
  | .clearInflight stuck _ => (stuck.length + 1, 4)
  | .clearQueue stuck _ => (stuck.length + 1, 3)
  | .park stuck _ => (stuck.length + 1, 2)
  | .idle => (0, 8)
  | .sleep => (0, 1)
  | .returned => (0, 0)

def Loop.rank (s : Loop R) : ℕ × ℕ × ℕ :=
  (s.pc.stage.1, s.pc.stage.2, 2 * s.queue.length + if s.pool then 0 else 1)

/-- Fewer launches left, or as many and fewer steps, or as many and fewer names. -/
def Nearer : ℕ × ℕ × ℕ → ℕ × ℕ × ℕ → Prop := Prod.Lex (· < ·) (Prod.Lex (· < ·) (· < ·))

theorem nearer_wf : WellFounded Nearer :=
  (Prod.lex Nat.lt_wfRel (Prod.lex Nat.lt_wfRel Nat.lt_wfRel)).wf

variable {cfg : Config R} {names : List String} {s s' : Loop R} {a : Answer R}

theorem submitOne_nearer (h : s.submitOne cfg a = some s') : Nearer s'.rank s.rank := by
  have hpc := submitOne_pc h
  unfold Loop.rank
  rw [hpc]
  refine Prod.Lex.right _ (Prod.Lex.right _ ?_)
  unfold Loop.submitOne at h
  split at h
  next => cases h
  next name rest hqueue =>
    split at h
    next => cases h
    next =>
      split at h
      next hpool =>
        obtain rfl := Option.some.inj h
        simp [hpool]
      next hpool =>
        obtain rfl := Option.some.inj h
        simp only [hqueue, List.length_cons]
        omega

theorem nearer_of_launches (h : s'.pc.stage.1 < s.pc.stage.1) : Nearer s'.rank s.rank :=
  Prod.Lex.left _ _ h

theorem nearer_of_steps (hsame : s'.pc.stage.1 = s.pc.stage.1) (h : s'.pc.stage.2 < s.pc.stage.2) :
    Nearer s'.rank s.rank := by
  unfold Loop.rank
  rw [hsame]
  exact Prod.Lex.right _ (Prod.Lex.left _ _ h)

theorem settle_nearer {ready : List (String × Option R)} {stuck : List String}
    (h : ∀ p, p = (s'.settle ready stuck).pc → p = .poll ∨ p.stage.1 < s.pc.stage.1) :
    ((s'.settle ready stuck).pc = .poll ∨ (s'.settle ready stuck).pc = .returned) ∨
      Nearer (s'.settle ready stuck).rank s.rank := by
  rcases h _ rfl with hpoll | hlt
  · exact Or.inl (Or.inl hpoll)
  · exact Or.inr (nearer_of_launches hlt)

/-- What the loop does until its next poll, or its return, comes to an end. -/
theorem step_nearer (hpc : ¬ (s.pc = .poll ∨ s.pc = .returned)) :
    ((s.step cfg a).pc = .poll ∨ (s.step cfg a).pc = .returned) ∨
      Nearer (s.step cfg a).rank s.rank := by
  unfold Loop.step
  split
  next k hk =>
    split
    next s' hs' => exact Or.inr (submitOne_nearer hs')
    next =>
      refine Or.inr (nearer_of_steps ?_ ?_)
      · simp only [hk]
        split <;> rfl
      · simp only [hk]
        split <;> simp [Pc.stage]
  next deficit k hk =>
    split
    next => exact Or.inr (nearer_of_steps (by simp only [hk]; rfl) (by simp [hk, Pc.stage]))
    next => exact Or.inr (nearer_of_steps (by simp only [hk]; rfl) (by simp [hk, Pc.stage]))
  next more deficit k hk =>
    split
    next s' hs' => exact Or.inr (submitOne_nearer hs')
    next => exact Or.inr (nearer_of_steps (by simp only [hk]; rfl) (by simp [hk, Pc.stage]))
  next k hk => exact Or.inr (nearer_of_steps (by simp only [hk]; rfl) (by simp [hk, Pc.stage]))
  next => exact Or.inl (Or.inl rfl)
  next hk => exact Or.inr (nearer_of_steps (by simp only [hk]; rfl) (by simp [hk, Pc.stage]))
  next hk => exact Or.inr (nearer_of_steps (by simp only [hk]; rfl) (by simp [hk, Pc.stage]))
  next hk => exact absurd (Or.inl hk) hpc
  next stuck hk =>
    refine settle_nearer fun p hp => ?_
    cases stuck with
    | nil => exact Or.inl hp
    | cons n stuck =>
      rw [hp, hk]
      refine Or.inr ?_
      simp [Loop.settle, Pc.stage]
  next r ready stuck hk =>
    refine settle_nearer fun p hp => ?_
    rw [hp, hk]
    cases ready with
    | nil =>
      cases stuck with
      | nil => exact Or.inl rfl
      | cons n stuck =>
        refine Or.inr ?_
        show stuck.length + 1 + 1 < 1 + stuck.length + 3
        omega
    | cons r' ready =>
      cases stuck with
      | nil => exact Or.inr (by simp [Loop.settle, Pc.stage, Next.left])
      | cons n stuck => exact Or.inr (by simp [Loop.settle, Pc.stage])
  next hk => exact Or.inr (nearer_of_steps (by simp only [hk]; rfl) (by simp [hk, Pc.stage]))
  next hk => exact Or.inr (nearer_of_steps (by simp only [hk]; rfl) (by simp [hk, Pc.stage]))
  next hk => exact Or.inr (nearer_of_launches (by simp [hk, Pc.stage, Next.left]))
  next hk => exact Or.inr (nearer_of_launches (by simp [hk, Pc.stage]))
  next hk =>
    refine Or.inr (nearer_of_steps ?_ ?_)
    · simp only [hk]
      split <;> rfl
    · simp only [hk]
      split <;> simp [Pc.stage]
  next => exact Or.inl (Or.inl rfl)
  next hk => exact absurd (Or.inr hk) hpc

theorem Turn.taken_eq {p : Pc R} (h : Turn cfg s p) : p.taken = s.pc.taken := by
  cases h with
  | stays hp => rw [hp]
  | launched hpc hfull hp =>
    rcases hp with ⟨_, rfl⟩ | rfl
    · rw [hpc]; rfl
    · rw [hpc]; rfl
  | relaunched hpc =>
    rcases hpc with ⟨_, hpc⟩ | ⟨_, _, hpc⟩
    · rw [hpc]; rfl
    · rw [hpc]; rfl
  | reported hpc => rw [hpc]; rfl
  | toPoll hpc =>
    rcases hpc with hpc | hpc | hpc
    · rw [hpc]; rfl
    · rw [hpc]; rfl
    · rw [hpc]; rfl
  | toSleep hpc =>
    rcases hpc with hpc | hpc
    · rw [hpc]; rfl
    · rw [hpc]; rfl
  | toIdle hpc => rw [hpc]; rfl
  | toFinish hpc => rw [hpc]; rfl
  | cleared hpc => rw [hpc]; rfl
  | toPark hpc => rw [hpc]; rfl
  | toSubmit hpc =>
    rcases hpc with ⟨_, hpc, rfl⟩ | ⟨hpc, rfl⟩
    · rw [hpc]; rfl
    · rw [hpc]; rfl
  | toReturned hpc _ => rw [hpc]; rfl

/-- A move loses no progress; one that collects makes as much as it finds. -/
theorem move_progress (hmove : Moves cfg a s s') : s.progress ≤ s'.progress := by
  unfold Loop.progress
  cases hmove with
  | turned _ _ hcalls hturn => rw [hcalls, hturn.taken_eq]
  | submitted _ _ _ _ _ hcalls hpc' =>
    rw [hcalls, hpc', finished_append]
    simp [Worker.finished]
  | claimed hpc _ _ _ hcalls hpc' =>
    rw [hcalls, hpc, hpc', finished_append, List.length_append]
    simp only [Pc.taken]
    omega
  | collected hpc _ _ _ _ _ hcalls hpc' =>
    rw [hcalls, hpc, collected_silent.finished_map]
    exact Nat.le_add_right _ _
  | expired hpc _ _ hcalls hpc' =>
    rw [hcalls, hpc, hpc', killed_silent.finished_map, expired_silent.finished_map]
    simp [Pc.taken]
  | @finished r ready stuck hpc _ _ hcalls hpc' =>
    have hfin : Worker.finished s'.calls = Worker.finished s.calls ++ [r] := by
      rw [hcalls, finished_append]
      rfl
    rw [hfin, hpc, hpc', List.length_append]
    simp only [Pc.taken, List.length_cons, List.length_nil]
    omega
  | @parked n record stuck killed hpc _ _ hcalls hpc' =>
    have hfin : Worker.finished s'.calls = Worker.finished s.calls ++ [(n, record)] := by
      rw [hcalls, finished_append]
      rfl
    rw [hfin, hpc, hpc', List.length_append]
    simp only [Pc.taken, List.length_cons, List.length_nil]
    omega
  | requeued hpc _ _ hcalls hpc' =>
    rw [hcalls, hpc, hpc']
    simp [Pc.taken, Next.left]

theorem step_progress (s : Loop R) (a : Answer R) : s.progress ≤ (s.step cfg a).progress := by
  rcases step_moves cfg s a with hmove | ⟨mid, _, _, _, hfirst, hsecond⟩
  · exact move_progress hmove
  · exact (move_progress hfirst).trans (move_progress hsecond)

theorem settle_progress (ready : List (String × Option R)) (stuck : List String) :
    (s.settle ready stuck).progress =
      (Worker.finished s.calls).length + (ready.length + stuck.length) := by
  unfold Loop.progress Loop.settle
  split
  next => rfl
  next => rfl
  next =>
    simp only
    rw [killed_silent.finished_map, expired_silent.finished_map]
    simp [Pc.taken]
  next => rfl

theorem finds_progress (h : s.Finds cfg a) : s.progress < (s.step cfg a).progress := by
  obtain ⟨hpc, hfound⟩ := h
  have hflying : s.inflight.keys ≠ [] := by
    intro hempty
    rcases hfound with hready | hstuck
    · exact hready (List.map_eq_nil_iff.mp (List.sublist_nil.mp (hempty ▸ ready_sublist s a _)))
    · exact hstuck (List.sublist_nil.mp (hempty ▸ stuck_sublist cfg s a))
  have hnot : ¬ (s.ready a (s.stuck cfg a) = [] ∧ s.stuck cfg a = []) := by
    rintro ⟨hready, hstuck⟩
    rcases hfound with h | h
    · exact h hready
    · exact h hstuck
  have hstep : (s.step cfg a).progress = (Worker.finished s.calls).length +
      ((s.ready a (s.stuck cfg a)).length + (s.stuck cfg a).length) := by
    unfold Loop.step
    rw [hpc]
    simp only
    unfold Loop.poll
    rw [if_neg hflying]
    simp only
    rw [if_neg hnot, settle_progress]
    simp only
    rw [collected_silent.finished_map]
  rw [hstep]
  unfold Loop.progress
  rw [hpc]
  simp only [Pc.taken]
  rcases hfound with hready | hstuck
  · have := List.length_pos_iff.mpr hready
    omega
  · have := List.length_pos_iff.mpr hstuck
    omega

theorem Next.left_eq (k : Next R) : k.left = k.names.length := by
  cases k with
  | poll => rfl
  | sleep => rfl
  | finish ready => exact (List.length_map _).symm

/-- Progress is bounded by the names there are. -/
theorem progress_le (h : Sound cfg names s) : s.progress ≤ (names ++ claimed s.calls).length := by
  have hlen := h.places.length_eq
  unfold Loop.held at hlen
  rw [List.length_append, List.length_map, List.length_append, List.length_append] at hlen
  unfold Loop.progress
  cases hpc : s.pc with
  | submit k => rw [hpc] at hlen; simp only [Pc.taken, Pc.names, k.left_eq] at hlen ⊢; omega
  | refill _ k => rw [hpc] at hlen; simp only [Pc.taken, Pc.names, k.left_eq] at hlen ⊢; omega
  | resubmit _ _ k => rw [hpc] at hlen; simp only [Pc.taken, Pc.names, k.left_eq] at hlen ⊢; omega
  | reportInflight k => rw [hpc] at hlen; simp only [Pc.taken, Pc.names, k.left_eq] at hlen ⊢; omega
  | reportQueue k => rw [hpc] at hlen; simp only [Pc.taken, Pc.names, k.left_eq] at hlen ⊢; omega
  | finish ready stuck =>
    -- the stuck names are still in flight
    obtain ⟨hnodup, hsub⟩ := h.stuck _ _ hpc
    have hstuck := (List.subperm_of_subset hnodup hsub).length_le
    rw [hpc] at hlen
    simp only [Pc.taken, Pc.names, List.length_map] at hlen ⊢
    omega
  | clearInflight stuck killed =>
    rw [hpc] at hlen
    simp only [Pc.taken, Pc.names, List.length_append] at hlen ⊢
    omega
  | clearQueue stuck killed =>
    rw [hpc] at hlen
    simp only [Pc.taken, Pc.names, List.length_append] at hlen ⊢
    omega
  | park stuck killed =>
    rw [hpc] at hlen
    simp only [Pc.taken, Pc.names, List.length_append] at hlen ⊢
    omega
  | poll => simp only [Pc.taken]; omega
  | idle => simp only [Pc.taken]; omega
  | sleep => simp only [Pc.taken]; omega
  | returned => simp only [Pc.taken]; omega

end

/-! ## The scheduler -/

section
variable {R : Type} (cfg : Config R) (names : List String)

/-- The loop when `names` are to be evaluated. -/
def Loop.start : Loop R := { queue := names }

/-- What holds wherever the loop is. -/
structure Scheduled (s : Loop R) : Prop where
  /-- `finish` sees no name twice -/
  once : ((finished s.calls).map Prod.fst).Nodup
  /-- and no name that was neither given nor claimed -/
  only : ∀ n ∈ (finished s.calls).map Prod.fst, n ∈ names ++ claimed s.calls
  /-- the evaluations submitted and not collected or stopped are those in flight, each
  from the time of its last submission; there are no more than slots (a result that is
  collected frees its slot before it is posted) -/
  running : running s.calls = s.inflight.entries
  room : (Worker.running s.calls).length ≤ cfg.width
  /-- no slot is idle while a name is queued, once a launch is through -/
  busy : s.pc.launched = true → s.queue = [] ∨ (Worker.running s.calls).length = cfg.width
  /-- a name killed by a sibling's timeout runs again by the next poll -/
  again : s.pc = .poll → waiting s.calls = []
  /-- and is not finished before it does -/
  spared : ∀ n ∈ s.pc.finishing, n ∉ waiting s.calls
  /-- the loop returns with nothing left, and each name has been finished -/
  done : s.pc = .returned → s.queue = [] ∧ s.inflight.keys = [] ∧
    ((finished s.calls).map Prod.fst).Perm (names ++ claimed s.calls)

end

section
variable {R : Type} {cfg : Config R} {names : List String} {s : Loop R}

theorem width_pos (cfg : Config R) : 0 < cfg.width := by
  unfold Config.width
  have := le_max_left 1 cfg.nWorkers
  omega

theorem start_sound (hnames : names.Nodup) : Sound cfg names (Loop.start (R := R) names) where
  distinct := by
    show (names ++ []).Nodup
    rwa [List.append_nil]
  places := by
    show ([] ++ (names ++ [] ++ [])).Perm (names ++ [])
    rw [List.nil_append, List.append_nil]
  room := Nat.zero_le _
  runs := rfl
  stuck ready stuck hpc := by cases hpc
  waits := by
    refine ⟨fun k _ => ⟨names, rfl, Nat.zero_le _⟩, fun killed hk => ?_, fun hfree => ?_⟩
    · cases hk
    · cases hfree

theorem Sound.scheduled (h : Sound cfg names s) (hfull : s.pc.launched = true → s.Full cfg)
    (hreturned : s.pc = .returned → s.inflight.keys = []) : Scheduled cfg names s where
  once := (List.nodup_append.mp (h.places.nodup_iff.mpr h.distinct)).1
  only n hn := h.places.subset (List.mem_append_left _ hn)
  running := h.runs
  room := by
    have hroom := h.room
    rw [h.runs]
    rwa [Dict.keys, List.length_map] at hroom
  busy hlaunched := by
    have hroom := h.room
    rcases hfull hlaunched with hempty | hwidth
    · exact Or.inl hempty
    · refine Or.inr ?_
      rw [h.runs]
      rw [Dict.keys, List.length_map] at hroom hwidth
      omega
  again hpc := h.waits.resumed (by rw [hpc]; rfl)
  spared n hn hwaiting := by
    cases hpc : s.pc with
    | finish ready stuck =>
      rw [h.waits.resumed (by rw [hpc]; rfl)] at hwaiting
      cases hwaiting
    | park stuck killed =>
      rw [(h.waits.killed killed (by rw [hpc]; rfl)).1] at hwaiting
      have hheld := (List.nodup_append.mp (h.places.nodup_iff.mpr h.distinct)).2.1
      unfold Loop.held at hheld
      have hnames := (List.nodup_append.mp hheld).2.1
      rw [hpc] at hnames hn
      cases stuck with
      | nil => cases hn
      | cons m stuck =>
        obtain rfl := Option.some.inj hn
        exact (List.nodup_append.mp hnames).2.2 m List.mem_cons_self m hwaiting rfl
    | _ => rw [hpc] at hn; cases hn
  done hpc := by
    have hflying := hreturned hpc
    have hqueue : s.queue = [] := by
      rcases hfull (by rw [hpc]; rfl) with hempty | hwidth
      · exact hempty
      · rw [hflying] at hwidth
        exact absurd hwidth (Nat.not_le.mpr (width_pos cfg))
    refine ⟨hqueue, hflying, ?_⟩
    have hplaces := h.places
    unfold Loop.held at hplaces
    rw [hqueue, hflying, hpc] at hplaces
    simpa [Pc.names] using hplaces

theorem move_returned {s' : Loop R} {a : Answer R} (h : s.pc = .returned → s.inflight.keys = [])
    (hmove : Moves cfg a s s') : s'.pc = .returned → s'.inflight.keys = [] := by
  intro hpc
  cases hmove with
  | turned _ hflight _ hturn =>
    rw [hflight]
    rw [hpc] at hturn
    cases hturn with
    | stays hp => exact h hp.symm
    | launched _ _ hp =>
      rcases hp with ⟨_, hp⟩ | hp
      · cases hp
      · cases hp
    | toReturned _ hempty => exact hempty
  | submitted hfrom _ _ _ _ _ hpc' =>
    rw [hpc'] at hpc
    rcases hfrom with hfrom | ⟨_, _, hfrom⟩
    · rw [hfrom] at hpc; cases hpc
    · rw [hfrom] at hpc; cases hpc
  | claimed _ _ _ _ _ hpc' => rw [hpc'] at hpc; cases hpc
  | collected _ _ _ _ _ _ _ hpc' => rw [hpc'] at hpc; cases hpc
  | expired _ _ _ _ hpc' => rw [hpc'] at hpc; cases hpc
  | finished _ _ _ _ hpc' => rw [hpc'] at hpc; cases hpc
  | parked _ _ _ _ hpc' => rw [hpc'] at hpc; cases hpc
  | requeued _ _ _ _ hpc' => rw [hpc'] at hpc; cases hpc

/-- The invariant, with what holds at the end of a launch and at the return. -/
structure Kept (cfg : Config R) (names : List String) (s : Loop R) : Prop where
  sound : Sound cfg names s
  full : s.pc.launched = true → s.Full cfg
  returned : s.pc = .returned → s.inflight.keys = []

theorem step_kept {a : Answer R} (h : Kept cfg names s) (hnew : NewReply names s a) :
    Kept cfg names (s.step cfg a) where
  sound := step_sound h.sound hnew
  full := step_full h.full
  returned := by
    rcases step_moves cfg s a with hmove | ⟨mid, _, _, hpc, hfirst, hsecond⟩
    · exact move_returned h.returned hmove
    · exact move_returned (move_returned h.returned hfirst) hsecond

theorem start_kept (hnames : names.Nodup) : Kept cfg names (Loop.start (R := R) names) where
  sound := start_sound hnames
  full hpc := by cases hpc
  returned hpc := by cases hpc

theorem step_returns (a : Answer R) (hpoll : s.pc = .poll) (hempty : s.inflight.keys = []) :
    (s.step cfg a).pc = .returned := by
  unfold Loop.step
  rw [hpoll]
  simp only
  unfold Loop.poll
  rw [if_pos hempty]

/-- `_run_inflight` on distinct names, with any clock, any outcomes, and replies of
distinct new names: `Scheduled` holds all along; and as long as no more than some number of
names comes with claims, and while evaluations are in flight some later poll finds a
result or a name out of time, the loop returns. -/
theorem run_inflight_spec (cfg : Config R) (names : List String) (hnames : names.Nodup)
    (answers : ℕ → Answer R)
    (hnew : ∀ n, NewReply names (after (Loop.step cfg) (.start names) answers n) (answers n)) :
    (∀ n, Scheduled cfg names (after (Loop.step cfg) (.start names) answers n)) ∧
    ((∃ bound, ∀ n, (claimed (after (Loop.step cfg) (.start names) answers n).calls).length ≤ bound) →
      (∀ n, (after (Loop.step cfg) (.start names) answers n).pc = .poll →
        (after (Loop.step cfg) (.start names) answers n).inflight.keys ≠ [] →
          ∃ m, n ≤ m ∧ (after (Loop.step cfg) (.start names) answers m).Finds cfg (answers m)) →
      ∃ n, (after (Loop.step cfg) (.start names) answers n).pc = .returned) := by
  have hkept : ∀ n, Kept cfg names (after (Loop.step cfg) (.start names) answers n) :=
    after_inv (fun s a => step_kept) (start_kept hnames) hnew
  refine ⟨fun n => (hkept n).sound.scheduled (hkept n).full (hkept n).returned, ?_⟩
  rintro ⟨bound, hbound⟩ hfinds
  refine after_stops (Loop.step cfg) (.start names) answers (fun s => s.pc = .returned)
    Loop.progress (names.length + bound) (fun n => step_progress _ _) (fun n => ?_) fun n => ?_
  · have hle := progress_le (hkept n).sound
    rw [List.length_append] at hle
    exact hle.trans (Nat.add_le_add_left (hbound n) _)
  · have hreach : ∃ m, n ≤ m ∧ ((after (Loop.step cfg) (.start names) answers m).pc = .poll ∨
        (after (Loop.step cfg) (.start names) answers m).pc = .returned) :=
      after_reaches nearer_wf Loop.rank (.start names) answers
        (fun s => s.pc = .poll ∨ s.pc = .returned) (fun s a => step_nearer) n
    obtain ⟨m, hm, hpoll | hreturned⟩ := hreach
    · by_cases hempty : (after (Loop.step cfg) (.start names) answers m).inflight.keys = []
      · refine ⟨m + 1, Nat.le_succ_of_le hm, Or.inl ?_⟩
        exact step_returns _ hpoll hempty
      · obtain ⟨j, hj, hfind⟩ := hfinds m hpoll hempty
        exact ⟨j, hm.trans hj, Or.inr (finds_progress hfind)⟩
    · exact ⟨m, hm, Or.inl hreturned⟩

/-- Two slots, three names and no claims; every evaluation fails at once. -/
theorem run_inflight_spec_three :
    let cfg : Config Unit := ⟨2, 0, 0, false, fun _ => ()⟩
    let answers : ℕ → Answer Unit := fun _ => ⟨0, 0, none, fun _ => some none⟩
    (after (Loop.step cfg) (.start ["a", "b", "c"]) answers 30).pc = .returned ∧
      Scheduled cfg ["a", "b", "c"] (after (Loop.step cfg) (.start ["a", "b", "c"]) answers 30) := by
  refine ⟨by rfl, (run_inflight_spec _ _ (by decide) _ fun n deficit k hpc => ?_).1 30⟩
  exact ⟨List.nodup_nil, fun n hn => absurd hn List.not_mem_nil⟩

end

end PaperTrading.Worker
