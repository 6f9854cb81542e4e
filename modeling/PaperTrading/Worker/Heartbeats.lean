import PaperTrading.Lib.Runs
import PaperTrading.Leases.Record
import PaperTrading.Worker.Scheduling
import PaperTrading.Worker.ResultPoster

/-!
# What a worker's heartbeats list

`run_batch` of `scripts/discovery_worker.py`, from the claimed names on: the callbacks it
gives `_run_inflight`, and the posts it leaves to the post thread. A post carries the list
of names in flight as it was when the post was queued, and reads the list of waiting names
when it is sent, which may be later, and up to three times.

The server drops the lease of a name that an old enough claim gave out and that a
heartbeat with both lists leaves out. `Listed` is what the two lists and the names out of
the queue amount to together. `heartbeats_keep` follows: a heartbeat lists every name held,
if at the time of sending each name out of the queue was in flight when the post was
queued, and each claim has been reported. `late_post_drops` is a post that is sent later.
-/

namespace PaperTrading.Worker

open PaperTrading.Lib
open Leases (Heartbeat LeaseTimes)

/-- The `queued` of a post: not there, read when the post is sent, or the list that an
earlier batch left behind. -/
inductive QueuedField where
  | absent
  | live
  | left (names : List String)
deriving DecidableEq

/-- A post that waits or is being sent, and how often it has failed. -/
structure Beat where
  status : String := "running"
  evaluating : Option (List String) := none
  queued : QueuedField := .absent
  ackName : Option String := none
  failed : ℕ := 0
deriving DecidableEq

/-- The heartbeat that is sent when `queued_names` is `queuedNames`. -/
def Beat.heartbeat (p : Beat) (queuedNames : List String) : Heartbeat where
  status := p.status
  evaluating := p.evaluating
  queued :=
    match p.queued with
    | .absent => none
    | .live => some queuedNames
    | .left names => some names

/-- The arguments of `run_batch`: those of the loop, whether the names are claimed, whether
there is a place to post to, and the records that park names too expensive to evaluate. -/
structure Setup (R : Type) where
  cfg : Config R
  claimMode : Bool := true
  ingest : Bool := true
  tooExpensive : String → Option R := fun _ => none

/-- Where `run_batch` is. -/
inductive Stage where
  /-- it sorts out the planned names that are too expensive -/
  | plan (rest cheap : List String)
  /-- in `_run_inflight` -/
  | loop
  /-- in `refill`, after some claims -/
  | ask (asks : ℕ)
  /-- one worker without a timeout: names in turn, in this process -/
  | next (rest : List String)
  | start (name : String) (rest : List String)
  | eval (name : String) (rest : List String)
  | ended

/-- The variables of `run_batch`. `unreported` are the names that came with claims since
`on_queue` was last called. -/
structure Batch (R : Type) where
  planned : List String
  /-- `evaluating_names` and `queued_names` -/
  evaluating : List String := []
  queued : List String := []
  beatSent : Bool := false
  completed : List String := []
  acked : List String := []
  runnable : List String := []
  unreported : List String := []
  loop : Loop R := .start []
  stage : Stage
  posts : List Beat := []

/-- `refill` claims this often at most. -/
def REFILL_ASKS : ℕ := 8

/-- The names in flight, those on their way, and those killed and not submitted since. -/
def Loop.out {R : Type} (s : Loop R) : List String :=
  s.inflight.keys ++ s.pc.names ++ waiting s.calls

inductive BatchEvent (R : Type) where
  /-- the eval loop goes on; `room` is whether the post queue takes a heartbeat -/
  | go (a : Answer R) (room : Bool)
  /-- a claim is answered, with `none` when it raised -/
  | claim (got : Option (List String)) (a : Answer R)
  /-- a post is sent, and accepted or not -/
  | send (i : ℕ) (accepted : Bool)

namespace Batch

variable {R : Type} (su : Setup R) (b : Batch R)

/-- `queued=_queued_now if claim_mode else None` -/
def queuedField : QueuedField := if su.claimMode then .live else .absent

/-- `finish`: a put that waits for room only delays it. -/
def finish (name : String) (record : Option R) : Batch R :=
  { b with
    completed := b.completed ++ [name]
    acked := if record.isSome ∧ ¬ su.ingest then b.acked ++ [name] else b.acked
    posts :=
      if record.isSome ∧ su.ingest then
        b.posts ++ [{
          evaluating := some b.evaluating
          queued := queuedField su
          ackName := some name }]
      else b.posts }

/-- `on_inflight`: the first names in flight are posted. -/
def onInflight (names : List String) (room : Bool) : Batch R :=
  if b.beatSent ∨ names = [] then { b with evaluating := names }
  else
    { b with
      evaluating := names
      beatSent := true
      posts :=
        if su.ingest ∧ room then
          b.posts ++ [{ evaluating := some names, queued := queuedField su }]
        else b.posts }

/-- `on_queue` -/
def onQueue (names : List String) : Batch R := { b with queued := names, unreported := [] }

/-- `refill` looks at one name of a reply. -/
def takeName (name : String) : Batch R :=
  if name ∈ b.planned then b
  else
    match su.tooExpensive name with
    | some record => ({ b with planned := b.planned ++ [name] } : Batch R).finish su name (some record)
    | none =>
      { b with
        planned := b.planned ++ [name]
        runnable := b.runnable ++ [name]
        unreported := b.unreported ++ [name] }

/-- The count of names that prod has not acknowledged. -/
def unacked : ℤ := max 0 (b.completed.length - b.acked.length)

/-- The eval loop is answered. -/
def resume (a : Answer R) : Batch R :=
  { b with loop := b.loop.step su.cfg { a with unacked := b.unacked } }

/-- One turn of the loop in `refill`: `got` is the reply to the claim for what is missing
of `deficit`. -/
def claim (deficit : ℕ) (asks : ℕ) (got : List String) (a : Answer R) : Batch R :=
  let short := got.length < deficit - b.runnable.length
  let fresh := ∃ name ∈ got, name ∉ b.planned
  let b := got.foldl (takeName su) b
  if got ≠ [] ∧ fresh ∧ ¬ short ∧ b.runnable.length < deficit ∧ asks + 1 < REFILL_ASKS then
    { b with stage := .ask (asks + 1) }
  else
    { b.resume su { a with reply := some b.runnable } with stage := .loop }

/-- The callback that `_run_inflight` is at. -/
def callback (room : Bool) : Batch R :=
  match b.loop.pc with
  | .reportInflight _ => b.onInflight su b.loop.inflight.keys room
  | .clearInflight _ _ => b.onInflight su b.loop.inflight.keys room
  | .reportQueue _ => b.onQueue b.loop.queue
  | .clearQueue _ _ => b.onQueue b.loop.queue
  | .finish (r :: _) _ => b.finish su r.1 r.2
  | .park (n :: _) _ => b.finish su n (some (su.cfg.opsFail n))
  | _ => b

/-- A step of `_run_inflight`, with the callback it is at. -/
def turn (a : Answer R) (room : Bool) : Batch R :=
  match b.loop.pc with
  | .refill _ _ => { b with stage := .ask 0, runnable := [] }
  | .returned => { b with stage := .ended }
  | _ => (b.callback su room).resume su a

/-- The eval loop goes on. -/
def go (a : Answer R) (room : Bool) : Batch R :=
  match b.stage with
  | .plan (name :: rest) cheap =>
    match su.tooExpensive name with
    | some record => { b.finish su name (some record) with stage := .plan rest cheap }
    | none => { b with stage := .plan rest (cheap ++ [name]) }
  | .plan [] cheap =>
    { b with
      queued := cheap
      loop := .start cheap
      stage :=
        if cheap = [] ∧ ¬ su.cfg.refills then .ended
        else if su.cfg.width = 1 ∧ su.cfg.timeoutS ≤ 0 then .next cheap
        else .loop }
  | .loop => b.turn su a room
  | .ask _ => b
  | .next [] => { b with stage := .ended }
  | .next (name :: rest) => { b with evaluating := [name], stage := .start name rest }
  | .start name rest => { b with queued := rest, stage := .eval name rest }
  | .eval name rest =>
    { b.finish su name ((a.outcome name).getD none) with
      evaluating := []
      stage := .next rest }
  | .ended => b

/-- An attempt to send a post. -/
def send (i : ℕ) (accepted : Bool) : Batch R :=
  match b.posts[i]? with
  | none => b
  | some p =>
    if accepted then { b with posts := b.posts.eraseIdx i, acked := b.acked ++ p.ackName.toList }
    else if p.failed + 1 < POST_ATTEMPTS then
      { b with posts := b.posts.set i { p with failed := p.failed + 1 } }
    else { b with posts := b.posts.eraseIdx i }

def step (b : Batch R) : BatchEvent R → Batch R
  | .go a room => b.go su a room
  | .claim got a =>
    match b.stage, b.loop.pc with
    | .ask asks, .refill deficit _ => b.claim su deficit.toNat asks (got.getD []) a
    | _, _ => b
  | .send i accepted => b.send i accepted

/-- The batch when its first post is queued behind those of earlier batches. -/
def start (planned : List String) (left : List Beat) : Batch R where
  planned := planned
  queued := planned
  stage := if planned = [] then .ended else .plan planned []
  posts :=
    if su.ingest then left ++ [{ status := if planned = [] then "idle" else "running" }] else left

/-- The names claimed and not finished. -/
def held : List String := b.planned.filter (· ∉ b.completed)

/-- The names that have left the queue and are not back in it, with those killed by a
timeout until they are submitted again. -/
def started : List String :=
  match b.stage with
  | .loop => b.loop.out
  | .ask _ => b.loop.out
  | .ended => b.loop.out
  | .start name _ => [name]
  | .eval name _ => [name]
  | _ => []

end Batch

/-! ## Names in the loop -/

section
variable {R : Type} {cfg : Config R} {s s' : Loop R} {a : Answer R} {n : String}

/-- The names killed by a timeout are waiting to be submitted again. -/
def Loop.KilledWait (s : Loop R) : Prop :=
  ∀ killed, s.pc.killed = some killed → ∀ n ∈ killed, n ∈ waiting s.calls

/-- The loop has finished the name. -/
def Loop.Finished (s : Loop R) (n : String) : Prop := n ∈ (finished s.calls).map Prod.fst

theorem mem_held : n ∈ s.held ↔ n ∈ s.queue ∨ n ∈ s.inflight.keys ∨ n ∈ s.pc.names := by
  unfold Loop.held
  rw [List.mem_append, List.mem_append, or_assoc]

theorem mem_out : n ∈ s.out ↔ n ∈ s.inflight.keys ∨ n ∈ s.pc.names ∨ n ∈ waiting s.calls := by
  unfold Loop.out
  rw [List.mem_append, List.mem_append, or_assoc]

theorem mem_keys_set {d : Dict String ℚ} {k : String} {t : ℚ} (h : n = k ∨ n ∈ d.keys) :
    n ∈ (d.set k t).keys := by
  rw [Dict.mem_keys]
  by_cases hk : n = k
  · exact ⟨t, by rw [Dict.get?_set, if_pos hk]⟩
  · rcases h with h | h
    · exact absurd h hk
    · obtain ⟨v, hv⟩ := Dict.mem_keys.mp h
      exact ⟨v, by rw [Dict.get?_set, if_neg hk, hv]⟩

theorem mem_part (l part : List String) (h : n ∈ l) : n ∈ part ∨ n ∈ l.filter (· ∉ part) := by
  by_cases hpart : n ∈ part
  · exact Or.inl hpart
  · exact Or.inr (List.mem_filter.mpr ⟨h, decide_eq_true hpart⟩)

theorem finished_grow (hmove : Moves cfg a s s') (h : s.Finished n) : s'.Finished n := by
  unfold Loop.Finished at h ⊢
  cases hmove with
  | turned _ _ hcalls _ => rwa [hcalls]
  | requeued _ _ _ hcalls _ => rwa [hcalls]
  | submitted _ _ _ _ _ hcalls _ =>
    rw [hcalls, finished_append, List.map_append]
    exact List.mem_append_left _ h
  | claimed _ _ _ _ hcalls _ =>
    rw [hcalls, finished_append, List.map_append]
    exact List.mem_append_left _ h
  | collected _ _ _ _ _ _ hcalls _ => rwa [hcalls, collected_silent.finished_map]
  | expired _ _ _ hcalls _ => rwa [hcalls, killed_silent.finished_map, expired_silent.finished_map]
  | finished _ _ _ hcalls _ =>
    rw [hcalls, finished_append, List.map_append]
    exact List.mem_append_left _ h
  | parked _ _ _ hcalls _ =>
    rw [hcalls, finished_append, List.map_append]
    exact List.mem_append_left _ h

/-- A name that is held stays held until it is finished. -/
theorem held_move (hmove : Moves cfg a s s') (h : n ∈ s.held) : n ∈ s'.held ∨ s'.Finished n := by
  unfold Loop.Finished
  rw [mem_held] at h
  rw [mem_held]
  cases hmove with
  | turned hqueue hflight _ hturn => rw [hqueue, hflight, hturn.names_eq]; exact Or.inl h
  | submitted _ hqueue _ hqueue' hflight _ hpc' =>
    rw [hqueue', hflight, hpc']
    rcases h with h | h | h
    · rw [hqueue] at h
      rcases List.mem_cons.mp h with rfl | h
      · exact Or.inl (Or.inr (Or.inl (mem_keys_set (Or.inl rfl))))
      · exact Or.inl (Or.inl h)
    · exact Or.inl (Or.inr (Or.inl (mem_keys_set (Or.inr h))))
    · exact Or.inl (Or.inr (Or.inr h))
  | claimed hpc _ hqueue hflight _ hpc' =>
    rw [hpc] at h
    rw [hqueue, hflight, hpc']
    rcases h with h | h | h
    · exact Or.inl (Or.inl (List.mem_append_left _ h))
    · exact Or.inl (Or.inr (Or.inl h))
    · exact Or.inl (Or.inr (Or.inr h))
  | @collected ready _ hpc _ _ _ hqueue hflight _ hpc' =>
    rw [hpc] at h
    rw [hqueue, hflight, hpc', dropAll_keys]
    rcases h with h | h | h
    · exact Or.inl (Or.inl h)
    · rcases mem_part _ (ready.map Prod.fst) h with h | h
      · exact Or.inl (Or.inr (Or.inr h))
      · exact Or.inl (Or.inr (Or.inl h))
    · cases h
  | @expired stuck hpc hqueue hflight _ hpc' =>
    rw [hpc] at h
    rw [hqueue, hflight, hpc']
    rcases h with h | h | h
    · exact Or.inl (Or.inl h)
    · exact Or.inl (Or.inr (Or.inr (List.mem_append.mpr (mem_part _ stuck h))))
    · cases h
  | @finished r ready _ hpc hqueue hflight hcalls hpc' =>
    rw [hpc] at h
    rw [hqueue, hflight, hcalls, hpc', finished_append, List.map_append]
    rcases h with h | h | h
    · exact Or.inl (Or.inl h)
    · exact Or.inl (Or.inr (Or.inl h))
    · rcases List.mem_cons.mp h with rfl | h
      · exact Or.inr (List.mem_append_right _ List.mem_cons_self)
      · exact Or.inl (Or.inr (Or.inr h))
  | @parked m record _ _ hpc hqueue hflight hcalls hpc' =>
    rw [hpc] at h
    rw [hqueue, hflight, hcalls, hpc', finished_append, List.map_append]
    rcases h with h | h | h
    · exact Or.inl (Or.inl h)
    · exact Or.inl (Or.inr (Or.inl h))
    · rcases List.mem_cons.mp h with rfl | h
      · exact Or.inr (List.mem_append_right _ List.mem_cons_self)
      · exact Or.inl (Or.inr (Or.inr h))
  | requeued hpc hqueue hflight _ _ =>
    rw [hpc] at h
    rw [hqueue, hflight]
    rcases h with h | h | h
    · exact Or.inl (Or.inl (List.mem_append_right _ h))
    · exact Or.inl (Or.inr (Or.inl h))
    · exact Or.inl (Or.inl (List.mem_append_left _ h))

/-- A name that waits stays waiting until it is submitted. -/
theorem waiting_submitted (m : String) (t : ℚ) {calls : List (Call R)} (h : n ∈ waiting calls) :
    n = m ∨ n ∈ waiting (calls ++ [.submitted m t]) := by
  rw [waiting_append]
  show n = m ∨ n ∈ (waiting calls).erase m
  by_cases hm : n = m
  · exact Or.inl hm
  · exact Or.inr ((List.mem_erase_of_ne hm).mpr h)

/-- A name out of the queue stays out until it is finished. -/
theorem out_move (hmove : Moves cfg a s s') (hkilled : s.KilledWait) (h : n ∈ s.out) :
    n ∈ s'.out ∨ s'.Finished n := by
  unfold Loop.Finished
  rw [mem_out] at h
  rw [mem_out]
  cases hmove with
  | turned _ hflight hcalls hturn => rw [hflight, hcalls, hturn.names_eq]; exact Or.inl h
  | @submitted k name _ now _ _ _ _ hflight hcalls hpc' =>
    rw [hflight, hcalls, hpc']
    rcases h with h | h | h
    · exact Or.inl (Or.inl (mem_keys_set (Or.inr h)))
    · exact Or.inl (Or.inr (Or.inl h))
    · rcases waiting_submitted name now h with rfl | h
      · exact Or.inl (Or.inl (mem_keys_set (Or.inl rfl)))
      · exact Or.inl (Or.inr (Or.inr h))
  | claimed hpc _ _ hflight hcalls hpc' =>
    rw [hpc] at h
    rw [hflight, hcalls, hpc', waiting_append]
    exact Or.inl h
  | @collected ready _ hpc _ _ _ _ hflight hcalls hpc' =>
    rw [hpc] at h
    rw [hflight, hcalls, hpc', dropAll_keys, waiting_collected]
    rcases h with h | h | h
    · rcases mem_part _ (ready.map Prod.fst) h with h | h
      · exact Or.inl (Or.inr (Or.inl h))
      · exact Or.inl (Or.inl h)
    · cases h
    · exact Or.inl (Or.inr (Or.inr h))
  | @expired stuck hpc _ hflight hcalls hpc' =>
    rw [hpc] at h
    rw [hflight, hcalls, hpc', waiting_killed, waiting_expired]
    rcases h with h | h | h
    · exact Or.inl (Or.inr (Or.inl (List.mem_append.mpr (mem_part _ stuck h))))
    · cases h
    · exact Or.inl (Or.inr (Or.inr (List.mem_append_left _ h)))
  | @finished r ready _ hpc _ hflight hcalls hpc' =>
    rw [hpc] at h
    rw [hflight, hcalls, hpc', finished_append, List.map_append, waiting_append]
    rcases h with h | h | h
    · exact Or.inl (Or.inl h)
    · rcases List.mem_cons.mp h with rfl | h
      · exact Or.inr (List.mem_append_right _ List.mem_cons_self)
      · exact Or.inl (Or.inr (Or.inl h))
    · exact Or.inl (Or.inr (Or.inr h))
  | @parked m record _ _ hpc _ hflight hcalls hpc' =>
    rw [hpc] at h
    rw [hflight, hcalls, hpc', finished_append, List.map_append, waiting_append]
    rcases h with h | h | h
    · exact Or.inl (Or.inl h)
    · rcases List.mem_cons.mp h with rfl | h
      · exact Or.inr (List.mem_append_right _ List.mem_cons_self)
      · exact Or.inl (Or.inr (Or.inl h))
    · exact Or.inl (Or.inr (Or.inr h))
  | @requeued killed hpc _ hflight hcalls _ =>
    rw [hflight, hcalls]
    rcases h with h | h | h
    · exact Or.inl (Or.inl h)
    · -- the names killed are back in the queue, and wait
      rw [hpc] at h
      exact Or.inl (Or.inr (Or.inr (hkilled killed (by rw [hpc]; rfl) n h)))
    · exact Or.inl (Or.inr (Or.inr h))

theorem Turn.killed_eq {p : Pc R} {killed : List String} (h : Turn cfg s p)
    (hk : p.killed = some killed) : s.pc.killed = some killed := by
  cases h with
  | stays hp => rwa [← hp]
  | launched _ _ hp =>
    rcases hp with ⟨_, rfl⟩ | rfl
    · cases hk
    · cases hk
  | cleared hpc => rw [hpc]; exact hk
  | toPark hpc => rw [hpc]; exact hk
  | _ => cases hk

theorem killedWait_move (hmove : Moves cfg a s s') (hkilled : s.KilledWait) : s'.KilledWait := by
  intro killed hk m hm
  cases hmove with
  | turned _ _ hcalls hturn =>
    rw [hcalls]
    exact hkilled killed (hturn.killed_eq hk) m hm
  | submitted hfrom _ _ _ _ _ hpc' =>
    rw [hpc'] at hk
    rcases hfrom with hfrom | ⟨_, _, hfrom⟩
    · rw [hfrom] at hk; cases hk
    · rw [hfrom] at hk; cases hk
  | claimed _ _ _ _ _ hpc' => rw [hpc'] at hk; cases hk
  | collected _ _ _ _ _ _ _ hpc' => rw [hpc'] at hk; cases hk
  | expired _ _ _ hcalls hpc' =>
    rw [hpc'] at hk
    obtain rfl := Option.some.inj hk
    rw [hcalls, waiting_killed]
    exact List.mem_append_right _ hm
  | finished _ _ _ _ hpc' => rw [hpc'] at hk; cases hk
  | parked hpc _ _ hcalls hpc' =>
    rw [hpc'] at hk
    rw [hcalls, waiting_append]
    exact hkilled killed (by rw [hpc]; exact hk) m hm
  | requeued _ _ _ _ hpc' => rw [hpc'] at hk; cases hk

theorem step_held (cfg : Config R) (a : Answer R) (h : n ∈ s.held) :
    n ∈ (s.step cfg a).held ∨ (s.step cfg a).Finished n := by
  rcases step_moves cfg s a with hmove | ⟨mid, _, _, _, hfirst, hsecond⟩
  · exact held_move hmove h
  · rcases held_move hfirst h with h | h
    · exact held_move hsecond h
    · exact Or.inr (finished_grow hsecond h)

theorem step_out (cfg : Config R) (a : Answer R) (hkilled : s.KilledWait) (h : n ∈ s.out) :
    n ∈ (s.step cfg a).out ∨ (s.step cfg a).Finished n := by
  rcases step_moves cfg s a with hmove | ⟨mid, _, _, _, hfirst, hsecond⟩
  · exact out_move hmove hkilled h
  · rcases out_move hfirst hkilled h with h | h
    · exact out_move hsecond (killedWait_move hfirst hkilled) h
    · exact Or.inr (finished_grow hsecond h)

theorem step_killedWait (cfg : Config R) (a : Answer R) (hkilled : s.KilledWait) :
    (s.step cfg a).KilledWait := by
  rcases step_moves cfg s a with hmove | ⟨mid, _, _, _, hfirst, hsecond⟩
  · exact killedWait_move hmove hkilled
  · exact killedWait_move hsecond (killedWait_move hfirst hkilled)

/-- What a claim's reply brings is held. -/
theorem step_refill {deficit : ℤ} {k : Next R} (cfg : Config R) (hpc : s.pc = .refill deficit k)
    (h : n ∈ a.reply.getD []) : n ∈ (s.step cfg a).held := by
  rw [mem_held]
  unfold Loop.step
  rw [hpc]
  simp only
  split
  next hreply => rw [hreply] at h; cases h
  next hreply => exact Or.inl (List.mem_append_right _ (hreply ▸ h))

theorem submitOne_finished (h : s.submitOne cfg a = some s') :
    finished s'.calls = finished s.calls := by
  unfold Loop.submitOne at h
  split at h
  next => cases h
  next =>
    split at h
    next => cases h
    next =>
      split at h
      next => obtain rfl := Option.some.inj h; rfl
      next =>
        obtain rfl := Option.some.inj h
        rw [finished_append]
        exact List.append_nil _

theorem settle_finished (ready : List (String × Option R)) (stuck : List String) :
    finished (s.settle ready stuck).calls = finished s.calls := by
  unfold Loop.settle
  split
  next => rfl
  next => rfl
  next => simp only [killed_silent.finished_map, expired_silent.finished_map]
  next => rfl

/-- A step finishes the name whose `finish` the loop is at. -/
theorem step_finished (cfg : Config R) (s : Loop R) (a : Answer R) :
    (finished (s.step cfg a).calls).map Prod.fst =
      (finished s.calls).map Prod.fst ++ s.pc.finishing.toList := by
  unfold Loop.step
  split
  next k hpc =>
    rw [hpc]
    split
    next s' hs' => rw [submitOne_finished hs']; exact (List.append_nil _).symm
    next => exact (List.append_nil _).symm
  next deficit k hpc =>
    rw [hpc]
    split
    next => exact (List.append_nil _).symm
    next => rw [finished_append, List.map_append]; rfl
  next more deficit k hpc =>
    rw [hpc]
    split
    next s' hs' => rw [submitOne_finished hs']; exact (List.append_nil _).symm
    next => exact (List.append_nil _).symm
  next k hpc => rw [hpc]; exact (List.append_nil _).symm
  next hpc => rw [hpc]; exact (List.append_nil _).symm
  next hpc => rw [hpc]; exact (List.append_nil _).symm
  next hpc => rw [hpc]; exact (List.append_nil _).symm
  next hpc =>
    rw [hpc]
    unfold Loop.poll
    split
    next => exact (List.append_nil _).symm
    next =>
      simp only
      split
      next => simp only [collected_silent.finished_map]; exact (List.append_nil _).symm
      next =>
        rw [settle_finished]
        simp only [collected_silent.finished_map]
        exact (List.append_nil _).symm
  next stuck hpc => rw [hpc, settle_finished]; exact (List.append_nil _).symm
  next r ready stuck hpc => rw [hpc, settle_finished, finished_append, List.map_append]; rfl
  next stuck killed hpc => rw [hpc]; exact (List.append_nil _).symm
  next stuck killed hpc => rw [hpc]; exact (List.append_nil _).symm
  next killed hpc => rw [hpc]; exact (List.append_nil _).symm
  next n stuck killed hpc => rw [hpc, finished_append, List.map_append]; rfl
  next hpc => rw [hpc]; exact (List.append_nil _).symm
  next hpc => rw [hpc]; exact (List.append_nil _).symm
  next hpc => rw [hpc]; exact (List.append_nil _).symm

end

/-! ## The lists of a batch -/

namespace Batch

section
variable {R : Type} {su : Setup R} {b b' : Batch R} {n : String}

/-- Where a name that is not finished waits or runs. -/
def places (b : Batch R) : List String :=
  match b.stage with
  | .plan rest cheap => rest ++ cheap
  | .loop => b.loop.held
  | .ask _ => b.loop.held ++ b.runnable
  | .next rest => rest
  | .start name rest => name :: rest
  | .eval name rest => name :: rest
  | .ended => b.planned

/-- A name claimed and not finished is in its place, and it is in the reported queue, out of
the queue, or not reported yet. -/
structure Listed (b : Batch R) : Prop where
  killed : b.loop.KilledWait
  done : ∀ n, b.loop.Finished n → n ∈ b.completed
  placed : ∀ n ∈ b.planned, n ∈ b.completed ∨ n ∈ b.places
  shown : ∀ n ∈ b.planned, n ∈ b.completed ∨ n ∈ b.queued ∨ n ∈ b.started ∨ n ∈ b.unreported

theorem places_loop (h : b.stage = .loop) : b.places = b.loop.held := by
  unfold places
  rw [h]

theorem places_ask (asks : ℕ) (h : b.stage = .ask asks) :
    b.places = b.loop.held ++ b.runnable := by
  unfold places
  rw [h]

theorem started_loop (h : b.stage = .loop) : b.started = b.loop.out := by
  unfold started
  rw [h]

theorem started_ask (asks : ℕ) (h : b.stage = .ask asks) : b.started = b.loop.out := by
  unfold started
  rw [h]

/-- What a callback of the loop changes. -/
structure Called (b b' : Batch R) : Prop where
  loop : b'.loop = b.loop
  stage : b'.stage = b.stage
  planned : b'.planned = b.planned
  completed : b'.completed = b.completed ++ b.loop.pc.finishing.toList
  lists : b'.queued = b.queued ∧ b'.unreported = b.unreported ∨ b'.queued = b.loop.queue

theorem onInflight_called (names : List String) (room : Bool) (hpc : b.loop.pc.finishing = none) :
    Called b (b.onInflight su names room) := by
  unfold onInflight
  split
  next => exact ⟨rfl, rfl, rfl, by rw [hpc]; exact (List.append_nil _).symm, Or.inl ⟨rfl, rfl⟩⟩
  next => exact ⟨rfl, rfl, rfl, by rw [hpc]; exact (List.append_nil _).symm, Or.inl ⟨rfl, rfl⟩⟩

theorem onQueue_called (hpc : b.loop.pc.finishing = none) : Called b (b.onQueue b.loop.queue) :=
  ⟨rfl, rfl, rfl, by rw [hpc]; exact (List.append_nil _).symm, Or.inr rfl⟩

theorem finish_called {name : String} {record : Option R} (hpc : b.loop.pc.finishing = some name) :
    Called b (b.finish su name record) :=
  ⟨rfl, rfl, rfl, by rw [hpc]; rfl, Or.inl ⟨rfl, rfl⟩⟩

theorem callback_called (su : Setup R) (b : Batch R) (room : Bool) :
    Called b (b.callback su room) := by
  unfold callback
  split
  next hpc => exact onInflight_called _ _ (by rw [hpc]; rfl)
  next hpc => exact onInflight_called _ _ (by rw [hpc]; rfl)
  next hpc => exact onQueue_called (by rw [hpc]; rfl)
  next hpc => exact onQueue_called (by rw [hpc]; rfl)
  next hpc => exact finish_called (by rw [hpc]; rfl)
  next hpc => exact finish_called (by rw [hpc]; rfl)
  next hfinish hpark =>
    refine ⟨rfl, rfl, rfl, ?_, Or.inl ⟨rfl, rfl⟩⟩
    have hnone : b.loop.pc.finishing = none := by
      cases hpc : b.loop.pc with
      | finish ready stuck =>
        cases ready with
        | nil => rfl
        | cons r ready => exact absurd hpc (hfinish r ready stuck)
      | park stuck killed =>
        cases stuck with
        | nil => rfl
        | cons n stuck => exact absurd hpc (hpark n stuck killed)
      | _ => rfl
    rw [hnone]
    exact (List.append_nil _).symm

/-- The loop goes on from where the two lists and the places account for each name. -/
theorem resume_listed (a : Answer R) (hstage : b.stage = .loop) (hkilled : b.loop.KilledWait)
    (hdone : ∀ n, b.loop.Finished n ∨ n ∈ b.loop.pc.finishing → n ∈ b.completed)
    (hplaced : ∀ n ∈ b.planned, n ∈ b.completed ∨ n ∈ b.loop.held ∨
      n ∈ (b.resume su a).loop.held)
    (hshown : ∀ n ∈ b.planned, n ∈ b.completed ∨ n ∈ b.queued ∨ n ∈ b.loop.out ∨
      n ∈ b.unreported) : Listed (b.resume su a) := by
  have hdone' : ∀ n, (b.resume su a).loop.Finished n → n ∈ b.completed := by
    intro n hn
    unfold Loop.Finished resume at hn
    rw [step_finished] at hn
    rcases List.mem_append.mp hn with hn | hn
    · exact hdone n (Or.inl hn)
    · exact hdone n (Or.inr (Option.mem_toList.mp hn))
  refine ⟨step_killedWait _ _ hkilled, hdone', fun n hn => ?_, fun n hn => ?_⟩
  · rw [show (b.resume su a).places = _ from places_loop hstage]
    rcases hplaced n hn with h | h | h
    · exact Or.inl h
    · rcases step_held su.cfg { a with unacked := b.unacked } h with h | h
      · exact Or.inr h
      · exact Or.inl (hdone' n h)
    · exact Or.inr h
  · rw [show (b.resume su a).started = _ from started_loop hstage]
    rcases hshown n hn with h | h | h | h
    · exact Or.inl h
    · exact Or.inr (Or.inl h)
    · rcases step_out su.cfg { a with unacked := b.unacked } hkilled h with h | h
      · exact Or.inr (Or.inr (Or.inl h))
      · exact Or.inl (hdone' n h)
    · exact Or.inr (Or.inr (Or.inr h))

theorem Listed.held_of_loop (h : Listed b) (hstage : b.stage = .loop) (hn : n ∈ b.planned) :
    n ∈ b.completed ∨ n ∈ b.loop.held := places_loop hstage ▸ h.placed n hn

theorem Listed.out_of_loop (h : Listed b) (hstage : b.stage = .loop) (hn : n ∈ b.planned) :
    n ∈ b.completed ∨ n ∈ b.queued ∨ n ∈ b.loop.out ∨ n ∈ b.unreported :=
  started_loop hstage ▸ h.shown n hn

theorem Listed.held_of_ask {asks : ℕ} (h : Listed b) (hstage : b.stage = .ask asks)
    (hn : n ∈ b.planned) : n ∈ b.completed ∨ n ∈ b.loop.held ++ b.runnable :=
  places_ask asks hstage ▸ h.placed n hn

theorem Listed.out_of_ask {asks : ℕ} (h : Listed b) (hstage : b.stage = .ask asks)
    (hn : n ∈ b.planned) :
    n ∈ b.completed ∨ n ∈ b.queued ∨ n ∈ b.loop.out ∨ n ∈ b.unreported :=
  started_ask asks hstage ▸ h.shown n hn

theorem Called.listed (h : Listed b) (hstage : b.stage = .loop) (hcalled : Called b b')
    (a : Answer R) : Listed (b'.resume su a) := by
  have hgrow : ∀ n, n ∈ b.completed → n ∈ b'.completed := by
    intro n hn
    rw [hcalled.completed]
    exact List.mem_append_left _ hn
  refine resume_listed a (hcalled.stage.trans hstage) (hcalled.loop ▸ h.killed) ?_ ?_ ?_
  · intro n hn
    rw [hcalled.loop] at hn
    rcases hn with hn | hn
    · exact hgrow n (h.done n hn)
    · rw [hcalled.completed]
      exact List.mem_append_right _ (Option.mem_toList.mpr hn)
  · intro n hn
    rw [hcalled.planned] at hn
    rw [hcalled.loop]
    rcases h.held_of_loop hstage hn with h | h
    · exact Or.inl (hgrow n h)
    · exact Or.inr (Or.inl h)
  · intro n hn
    rw [hcalled.planned] at hn
    rw [hcalled.loop]
    rcases hcalled.lists with ⟨hqueued, hunreported⟩ | hqueued
    · rw [hqueued, hunreported]
      exact (h.out_of_loop hstage hn).imp_left (hgrow n)
    · -- the queue is reported: a name is in it, or out
      rw [hqueued]
      rcases h.held_of_loop hstage hn with h | h
      · exact Or.inl (hgrow n h)
      · rcases mem_held.mp h with h | h | h
        · exact Or.inr (Or.inl h)
        · exact Or.inr (Or.inr (Or.inl (mem_out.mpr (Or.inl h))))
        · exact Or.inr (Or.inr (Or.inl (mem_out.mpr (Or.inr (Or.inl h)))))

theorem turn_listed (h : Listed b) (hstage : b.stage = .loop) (a : Answer R) (room : Bool) :
    Listed (b.turn su a room) := by
  unfold turn
  split
  next =>
    refine ⟨h.killed, h.done, fun n hn => ?_, fun n hn => ?_⟩
    · exact (h.held_of_loop hstage hn).imp_right (List.mem_append_left _)
    · exact h.out_of_loop hstage hn
  next => exact ⟨h.killed, h.done, fun n hn => Or.inr hn, fun n hn => h.out_of_loop hstage hn⟩
  next => exact (callback_called su b room).listed h hstage a

/-- In `refill`, a name of the reply is planned, and finished or runnable. -/
theorem takeName_listed (su : Setup R) {asks : ℕ} (name : String) (h : Listed b)
    (hstage : b.stage = .ask asks) :
    Listed (b.takeName su name) ∧ (b.takeName su name).stage = .ask asks ∧
      (b.takeName su name).loop = b.loop := by
  unfold takeName
  split
  next => exact ⟨h, hstage, rfl⟩
  next =>
    split
    next =>
      refine ⟨⟨h.killed, fun n hn => List.mem_append_left _ (h.done n hn), fun n hn => ?_,
        fun n hn => ?_⟩, hstage, rfl⟩
      · rw [places_ask asks]
        · rcases List.mem_append.mp hn with hn | hn
          · exact (h.held_of_ask hstage hn).imp_left (List.mem_append_left _)
          · exact Or.inl (List.mem_append_right _ hn)
        · exact hstage
      · rw [started_ask asks]
        · rcases List.mem_append.mp hn with hn | hn
          · exact (h.out_of_ask hstage hn).imp_left (List.mem_append_left _)
          · exact Or.inl (List.mem_append_right _ hn)
        · exact hstage
    next =>
      refine ⟨⟨h.killed, h.done, fun n hn => ?_, fun n hn => ?_⟩, hstage, rfl⟩
      · rw [places_ask asks]
        · rcases List.mem_append.mp hn with hn | hn
          · refine (h.held_of_ask hstage hn).imp_right fun hn => ?_
            rw [← List.append_assoc]
            exact List.mem_append_left _ hn
          · exact Or.inr (List.mem_append_right _ (List.mem_append_right _ hn))
        · exact hstage
      · rw [started_ask asks]
        · rcases List.mem_append.mp hn with hn | hn
          · rcases h.out_of_ask hstage hn with h | h | h | h
            · exact Or.inl h
            · exact Or.inr (Or.inl h)
            · exact Or.inr (Or.inr (Or.inl h))
            · exact Or.inr (Or.inr (Or.inr (List.mem_append_left _ h)))
          · exact Or.inr (Or.inr (Or.inr (List.mem_append_right _ hn)))
        · exact hstage

theorem takeNames_listed (su : Setup R) {asks : ℕ} (got : List String) (h : Listed b)
    (hstage : b.stage = .ask asks) :
    Listed (got.foldl (takeName su) b) ∧ (got.foldl (takeName su) b).stage = .ask asks ∧
      (got.foldl (takeName su) b).loop = b.loop := by
  induction got generalizing b with
  | nil => exact ⟨h, hstage, rfl⟩
  | cons name got ih =>
    obtain ⟨hlisted, hstage', hloop⟩ := takeName_listed su name h hstage
    obtain ⟨hrest, hstage'', hloop'⟩ := ih hlisted hstage'
    exact ⟨hrest, hstage'', hloop'.trans hloop⟩

theorem claim_listed {asks : ℕ} {due : ℤ} {k : Next R} (h : Listed b) (hstage : b.stage = .ask asks)
    (hpc : b.loop.pc = .refill due k) (deficit : ℕ) (got : List String) (a : Answer R) :
    Listed (b.claim su deficit asks got a) := by
  obtain ⟨hlisted, hstage', hloop⟩ := takeNames_listed su got h hstage
  unfold claim
  simp only
  generalize got.foldl (takeName su) b = c at hlisted hstage' hloop
  rw [← hloop] at hpc
  split
  next =>
    exact ⟨hlisted.killed, hlisted.done, fun n hn => hlisted.held_of_ask hstage' hn,
      fun n hn => hlisted.out_of_ask hstage' hn⟩
  next =>
    show Listed (({ c with stage := .loop } : Batch R).resume su { a with reply := some c.runnable })
    refine resume_listed _ rfl hlisted.killed ?_ (fun n hn => ?_)
      fun n hn => hlisted.out_of_ask hstage' hn
    · rintro n (hn | hn)
      · exact hlisted.done n hn
      · rw [show ({ c with stage := .loop } : Batch R).loop.pc = _ from hpc] at hn
        cases hn
    · rcases hlisted.held_of_ask hstage' hn with h | h
      · exact Or.inl h
      · rcases List.mem_append.mp h with h | h
        · exact Or.inr (Or.inl h)
        · exact Or.inr (Or.inr (step_refill _ hpc h))

theorem send_listed (h : Listed b) (i : ℕ) (accepted : Bool) : Listed (b.send i accepted) := by
  unfold send
  split
  next => exact h
  next =>
    split
    next => exact ⟨h.killed, h.done, h.placed, h.shown⟩
    next =>
      split
      next => exact ⟨h.killed, h.done, h.placed, h.shown⟩
      next => exact ⟨h.killed, h.done, h.placed, h.shown⟩

theorem Listed.rest_of_plan {rest cheap : List String} (h : Listed b)
    (hstage : b.stage = .plan rest cheap) (hn : n ∈ b.planned) :
    n ∈ b.completed ∨ n ∈ rest ++ cheap := by
  have hplaced := h.placed n hn
  unfold places at hplaced
  rwa [hstage] at hplaced

/-- Before the loop, and without it, the queue is what is reported. -/
theorem Listed.queued_of_idle (h : Listed b) (hidle : b.started = []) (hn : n ∈ b.planned) :
    n ∈ b.completed ∨ n ∈ b.queued ∨ n ∈ b.unreported := by
  rcases h.shown n hn with h | h | h | h
  · exact Or.inl h
  · exact Or.inr (Or.inl h)
  · rw [hidle] at h; cases h
  · exact Or.inr (Or.inr h)

theorem plan_listed {name : String} {rest cheap : List String} (h : Listed b)
    (hstage : b.stage = .plan (name :: rest) cheap) (a : Answer R) (room : Bool) :
    Listed (b.go su a room) := by
  have hidle : b.started = [] := by
    unfold started
    rw [hstage]
  unfold go
  rw [hstage]
  simp only
  split
  next =>
    refine ⟨h.killed, fun n hn => List.mem_append_left _ (h.done n hn), fun n hn => ?_,
      fun n hn => ?_⟩
    · rcases h.rest_of_plan hstage hn with h | h
      · exact Or.inl (List.mem_append_left _ h)
      · rcases List.mem_cons.mp h with rfl | h
        · exact Or.inl (List.mem_append_right _ List.mem_cons_self)
        · exact Or.inr h
    · rcases h.queued_of_idle hidle hn with h | h | h
      · exact Or.inl (List.mem_append_left _ h)
      · exact Or.inr (Or.inl h)
      · exact Or.inr (Or.inr (Or.inr h))
  next =>
    refine ⟨h.killed, h.done, fun n hn => ?_, fun n hn => ?_⟩
    · refine (h.rest_of_plan hstage hn).imp_right fun h => ?_
      show n ∈ rest ++ (cheap ++ [name])
      rcases List.mem_cons.mp h with rfl | h
      · exact List.mem_append_right _ (List.mem_append_right _ List.mem_cons_self)
      · rw [← List.append_assoc]
        exact List.mem_append_left _ h
    · rcases h.queued_of_idle hidle hn with h | h | h
      · exact Or.inl h
      · exact Or.inr (Or.inl h)
      · exact Or.inr (Or.inr (Or.inr h))

/-- The names that are not too expensive are queued, and the loop starts. -/
theorem planned_listed {cheap : List String} (h : Listed b) (hstage : b.stage = .plan [] cheap)
    (a : Answer R) (room : Bool) : Listed (b.go su a room) := by
  have hcheap : ∀ n ∈ b.planned, n ∈ b.completed ∨ n ∈ cheap := fun n hn =>
    h.rest_of_plan hstage hn
  unfold go
  rw [hstage]
  simp only
  refine ⟨?_, ?_, fun n hn => ?_, fun n hn => ?_⟩
  · intro killed hk
    cases hk
  · intro n hn
    cases hn
  · unfold places
    simp only
    split_ifs
    · exact Or.inr hn
    · exact hcheap n hn
    · refine (hcheap n hn).imp_right fun h => ?_
      exact mem_held.mpr (Or.inl h)
  · exact (hcheap n hn).imp_right Or.inl

theorem go_listed (h : Listed b) (a : Answer R) (room : Bool) : Listed (b.go su a room) := by
  cases hstage : b.stage with
  | plan rest cheap =>
    cases rest with
    | nil => exact planned_listed h hstage a room
    | cons name rest => exact plan_listed h hstage a room
  | loop =>
    unfold go
    rw [hstage]
    exact turn_listed h hstage a room
  | ask asks =>
    unfold go
    rw [hstage]
    exact h
  | next rest =>
    have hplaced : ∀ n ∈ b.planned, n ∈ b.completed ∨ n ∈ rest := by
      have hplaced := h.placed
      unfold places at hplaced
      rwa [hstage] at hplaced
    have hidle : b.started = [] := by
      unfold started
      rw [hstage]
    unfold go
    rw [hstage]
    cases rest with
    | nil =>
      refine ⟨h.killed, h.done, fun n hn => Or.inr hn, fun n hn => ?_⟩
      exact (hplaced n hn).imp_right fun h => absurd h List.not_mem_nil
    | cons name rest =>
      refine ⟨h.killed, h.done, hplaced, fun n hn => ?_⟩
      rcases h.queued_of_idle hidle hn with h | h | h
      · exact Or.inl h
      · exact Or.inr (Or.inl h)
      · exact Or.inr (Or.inr (Or.inr h))
  | start name rest =>
    have hplaced : ∀ n ∈ b.planned, n ∈ b.completed ∨ n ∈ name :: rest := by
      have hplaced := h.placed
      unfold places at hplaced
      rwa [hstage] at hplaced
    unfold go
    rw [hstage]
    refine ⟨h.killed, h.done, hplaced, fun n hn => ?_⟩
    refine (hplaced n hn).imp_right fun h => ?_
    rcases List.mem_cons.mp h with rfl | h
    · exact Or.inr (Or.inl List.mem_cons_self)
    · exact Or.inl h
  | eval name rest =>
    have hplaced : ∀ n ∈ b.planned, n ∈ b.completed ∨ n ∈ name :: rest := by
      have hplaced := h.placed
      unfold places at hplaced
      rwa [hstage] at hplaced
    have hshown : ∀ n ∈ b.planned, n ∈ b.completed ∨ n ∈ b.queued ∨ n ∈ [name] ∨
        n ∈ b.unreported := by
      have hshown := h.shown
      unfold started at hshown
      rwa [hstage] at hshown
    unfold go
    rw [hstage]
    refine ⟨h.killed, fun n hn => List.mem_append_left _ (h.done n hn), fun n hn => ?_,
      fun n hn => ?_⟩
    · rcases hplaced n hn with h | h
      · exact Or.inl (List.mem_append_left _ h)
      · rcases List.mem_cons.mp h with rfl | h
        · exact Or.inl (List.mem_append_right _ List.mem_cons_self)
        · exact Or.inr h
    · rcases hshown n hn with h | h | h | h
      · exact Or.inl (List.mem_append_left _ h)
      · exact Or.inr (Or.inl h)
      · obtain rfl := List.mem_singleton.mp h
        exact Or.inl (List.mem_append_right _ List.mem_cons_self)
      · exact Or.inr (Or.inr (Or.inr h))
  | ended =>
    unfold go
    rw [hstage]
    exact h

theorem step_listed (su : Setup R) (h : Listed b) (e : BatchEvent R) : Listed (b.step su e) := by
  cases e with
  | go a room => exact go_listed h a room
  | claim got a =>
    simp only [step]
    split
    next hstage hpc => exact claim_listed h hstage hpc _ _ a
    next => exact h
  | send i accepted => exact send_listed h i accepted

theorem start_listed (su : Setup R) (planned : List String) (left : List Beat) :
    Listed (Batch.start su planned left) where
  killed killed hk := by cases hk
  done n hn := by cases hn
  placed n hn := by
    unfold places Batch.start
    simp only
    split_ifs
    · exact Or.inr hn
    · exact Or.inr (List.mem_append_left _ hn)
  shown n hn := Or.inr (Or.inl hn)

end

end Batch

/-! ## Every heartbeat -/

section
variable {R : Type}

/-- A heartbeat with a `queued` list names every name held, so that no lease of one is
dropped, whenever it was claimed. -/
def KeepsHeld (b : Batch R) : BatchEvent R → Prop
  | .send i _ => ∀ p, b.posts[i]? = some p → p.queued ≠ .absent → ∀ n ∈ b.held,
      ((p.heartbeat b.queued).evaluates n ∨ (p.heartbeat b.queued).queues n) ∧
        ∀ (times : LeaseTimes) (now : ℤ),
          times.heartbeatLeaseAction now n (p.heartbeat b.queued) ≠ .drop
  | _ => True

/-- A post that was not overtaken when it is sent: it is of this batch, every claim has been
reported, and each name out of the queue was in flight when the post was queued, unless it
is in the reported queue or finished. -/
structure Current (b : Batch R) (p : Beat) : Prop where
  own : p.queued = .live
  reported : b.unreported = []
  inFlight : ∀ n ∈ b.started, n ∈ b.completed ∨ n ∈ b.queued ∨ n ∈ p.evaluating.getD []

def SentCurrent (b : Batch R) : BatchEvent R → Prop
  | .send i _ => ∀ p, b.posts[i]? = some p → p.queued ≠ .absent → Current b p
  | _ => True

theorem heartbeatLeaseAction_listed {hb : Heartbeat} {n : String} (times : LeaseTimes) (now : ℤ)
    (h : hb.evaluates n ∨ hb.queues n) : times.heartbeatLeaseAction now n hb ≠ .drop := by
  unfold LeaseTimes.heartbeatLeaseAction
  rw [if_pos ((Bool.or_eq_true _ _).mpr h)]
  intro hdrop
  cases hdrop

theorem Batch.Listed.keeps {b : Batch R} (h : b.Listed) {e : BatchEvent R} (hsent : SentCurrent b e) :
    KeepsHeld b e := by
  cases e with
  | go a room => trivial
  | claim got a => trivial
  | send i accepted =>
    intro p hp hqueued n hn
    obtain ⟨hown, hreported, hflight⟩ := hsent p hp hqueued
    obtain ⟨hplanned, hdone⟩ := List.mem_filter.mp hn
    have hnot : n ∉ b.completed := of_decide_eq_true hdone
    have hlists : n ∈ p.evaluating.getD [] ∨ n ∈ b.queued := by
      rcases h.shown n hplanned with h | h | h | h
      · exact absurd h hnot
      · exact Or.inr h
      · rcases hflight n h with h | h | h
        · exact absurd h hnot
        · exact Or.inr h
        · exact Or.inl h
      · rw [hreported] at h
        cases h
    have hnamed : (p.heartbeat b.queued).evaluates n ∨ (p.heartbeat b.queued).queues n := by
      refine hlists.imp (fun h => ?_) fun h => ?_
      · show p.evaluating.any _ = true
        cases hevaluating : p.evaluating with
        | none => rw [hevaluating] at h; cases h
        | some names => rw [hevaluating] at h; exact decide_eq_true h
      · unfold Beat.heartbeat Heartbeat.queues
        rw [hown]
        exact decide_eq_true h
    exact ⟨hnamed, fun times now => heartbeatLeaseAction_listed times now hnamed⟩

/-- In every run of a batch, with any answers of its evaluations, claims and posts in any
order, in which the heartbeats that are sent were not overtaken, each of them names every
name held. -/
theorem heartbeats_keep (su : Setup R) (planned : List String) (left : List Beat)
    (events : List (BatchEvent R))
    (hsent : Along (Batch.step su) SentCurrent (.start su planned left) events) :
    Along (Batch.step su) KeepsHeld (.start su planned left) events :=
  along_of_inv (I := Batch.Listed) (fun _ e hb hc => ⟨hb.keeps hc, Batch.step_listed su hb e⟩)
    events (Batch.start_listed su planned left) hsent

/-- Two slots: the first heartbeat is sent while both names are in flight. -/
theorem heartbeats_keep_two :
    let su : Setup Unit := ⟨⟨2, 600, 0, false, fun _ => ()⟩, true, true, fun _ => none⟩
    let events := List.replicate 9 (.go {} true) ++ [.send 1 true]
    let b := (List.replicate 9 (.go {} true)).foldl (Batch.step su) (.start su ["a", "b"] [])
    Along (Batch.step su) KeepsHeld (.start su ["a", "b"] []) events ∧
      b.held = ["a", "b"] ∧ b.posts[1]?.map (Beat.heartbeat · b.queued) =
        some { status := "running", evaluating := some ["a", "b"], queued := some [] } := by
  intro su events b
  have hpost : b.posts[1]? = some { evaluating := some ["a", "b"], queued := .live } := by
    decide +kernel
  refine ⟨heartbeats_keep su _ [] events ?_, by decide +kernel, by decide +kernel⟩
  refine (along_append _ _).mpr ⟨?_, fun p hp _ => ?_, trivial⟩
  · exact ⟨trivial, trivial, trivial, trivial, trivial, trivial, trivial, trivial, trivial, trivial⟩
  · obtain rfl := Option.some.inj (hpost.symm.trans hp)
    have hstarted : b.started = ["a", "b"] := by decide +kernel
    have hreported : b.unreported = [] := by decide +kernel
    refine ⟨rfl, hreported, fun n hn => Or.inr (Or.inr ?_)⟩
    have hflight : n ∈ b.started := hn
    rw [hstarted] at hflight
    exact hflight

/-- One slot: the heartbeat queued with `a` in flight is sent once `b` has taken its place,
and names neither in the queue nor `b`. -/
theorem late_post_drops :
    let su : Setup Unit := ⟨⟨1, 600, 0, false, fun _ => ()⟩, true, true, fun _ => none⟩
    ¬ ∀ events, Along (Batch.step su) KeepsHeld (.start su ["a", "b"] []) events := by
  intro su hkeeps
  have hrun := hkeeps (List.replicate 8 (.go {} true) ++
    .go { outcome := fun _ => some (some ()) } true :: List.replicate 4 (.go {} true) ++
      [.send 0 true] ++ [.send 0 true])
  rw [along_append] at hrun
  have hdrop := (hrun.2.1 { evaluating := some ["a"], queued := .live } (by decide +kernel)
    (by decide) "b" (by decide +kernel)).2 { claimedAt := some 0 } (180 * 1000000)
  exact hdrop (by decide +kernel)

end

end PaperTrading.Worker
