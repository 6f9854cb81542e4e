import Mathlib.Algebra.Order.Field.Rat
import PaperTrading.Lib.Dict
import PaperTrading.Lib.Runs

/-!
# The in-flight scheduler

`_run_inflight` of `scripts/discovery_worker.py`: it keeps up to `nWorkers` evaluations
going, hands each result to `finish`, and claims more names when its queue runs low. The
loop is a machine that stops wherever the code asks its surroundings for something: a
clock reading, a reply to a claim, which evaluations are ready, or just that a callback
returns. `Loop.step` goes on from there with the answer. `Loop.calls` is what it has done
so far.

`run_inflight_spec` is about every stream of answers: each name claimed or given is
finished at most once, and once when the loop returns; no more than the width is being
evaluated; names killed by a sibling's timeout are submitted again before the next poll;
and the loop returns if it keeps getting results and is not given names for ever.
-/

namespace PaperTrading.Worker

open PaperTrading.Lib

def CLAIM_EMPTY_BACKOFF_SECONDS : ℚ := 30
def CLAIM_EMPTY_BACKOFF_MAX_SECONDS : ℚ := 240

/-- `PROD_LEASES_PER_LANE` -/
def PROD_LEASES_PER_LANE : ℤ := 2

/-- The arguments of `_run_inflight` that are not callbacks. `refills` is whether there is
a `refill`; `opsFail` is the record that parks a name that ran out of time. -/
structure Config (R : Type) where
  nWorkers : ℤ
  timeoutS : ℚ
  prefetch : ℤ := 0
  refills : Bool := true
  opsFail : String → R

namespace Config

variable {R : Type} (cfg : Config R)

def width : ℕ := (max 1 cfg.nWorkers).toNat

def ahead : ℤ := max 0 cfg.prefetch

def minBatch : ℤ := max 1 (-(-(cfg.width : ℤ) / 2))

end Config

/-- What the loop goes on to after a launch: the next poll, a pause, or the results it has
collected. -/
inductive Next (R : Type) where
  | poll
  | sleep
  | finish (ready : List (String × Option R))

/-- Where the loop is. -/
inductive Pc (R : Type) where
  /-- in `_submit_queued`, at the start of `launch` -/
  | submit (k : Next R)
  /-- waits for `refill(deficit)` -/
  | refill (deficit : ℤ) (k : Next R)
  /-- in `_submit_queued` again, with `more` names claimed -/
  | resubmit (more : ℕ) (deficit : ℤ) (k : Next R)
  /-- in `_report` at the end of `launch`, at `on_inflight` and at `on_queue` -/
  | reportInflight (k : Next R)
  | reportQueue (k : Next R)
  /-- at the head of the loop -/
  | poll
  /-- at `finish` of the first result; `stuck` are the names out of time -/
  | finish (ready : List (String × Option R)) (stuck : List String)
  /-- in `_report` after a timeout: `killed` were in flight beside the names out of time -/
  | clearInflight (stuck killed : List String)
  | clearQueue (stuck killed : List String)
  /-- at `finish` of the first name out of time -/
  | park (stuck killed : List String)
  /-- nothing was ready -/
  | idle
  | sleep
  | returned

/-- What the loop has done. -/
inductive Call (R : Type) where
  | submitted (name : String) (started : ℚ)
  | claimed (names : List String)
  | collected (name : String)
  | expired (name : String)
  | killed (name : String)
  | finished (name : String) (record : Option R)

structure Backoff where
  «until» : ℚ := 0
  delay : ℚ := 0

/-- After an empty reply: each wait is twice the last. -/
def Backoff.longer (b : Backoff) (now : ℚ) : Backoff :=
  let twice := if b.delay * 2 = 0 then CLAIM_EMPTY_BACKOFF_SECONDS else b.delay * 2
  let delay := min twice CLAIM_EMPTY_BACKOFF_MAX_SECONDS
  { «until» := now + delay, delay := delay }

/-- The variables of the loop, and its calls, oldest first. -/
structure Loop (R : Type) where
  queue : List String
  inflight : Dict String ℚ := .empty
  pool : Bool := false
  backoff : Backoff := {}
  unposted : ℤ := 0
  pc : Pc R := .submit .poll
  calls : List (Call R) := []

/-- What the surroundings answer: a reading of the clock, the names not acknowledged yet,
the reply to a claim (`none` when it raised), and the evaluations that are ready, with
their records (`none` when one raised or gave none). -/
structure Answer (R : Type) where
  now : ℚ := 0
  unacked : ℤ := 0
  reply : Option (List String) := none
  outcome : String → Option (Option R) := fun _ => none

namespace Loop

variable {R : Type} (cfg : Config R) (s : Loop R) (a : Answer R)

/-- `_claim_size` -/
def claimSize : ℤ :=
  if ¬ cfg.refills ∨ cfg.width ≤ s.queue.length then 0
  else
    let flying : ℤ := s.inflight.keys.length
    let «local» := flying + s.queue.length
    let held := s.unposted + a.unacked
    let deficit := min (cfg.width + cfg.ahead - «local»)
      (PROD_LEASES_PER_LANE * cfg.width - «local» - held)
    if deficit ≤ 0 ∨ a.now < s.backoff.until then 0
    else if deficit < cfg.minBatch ∧ ¬ (flying < cfg.width ∧ s.queue = []) then 0
    else deficit

/-- One turn of `_submit_queued`: a pool, or the next name into it. `none` once the queue
is empty or the slots are taken. -/
def submitOne : Option (Loop R) :=
  match s.queue with
  | [] => none
  | name :: rest =>
    if cfg.width ≤ s.inflight.keys.length then none
    else if s.pool = false then some { s with pool := true }
    else some { s with
      queue := rest
      inflight := s.inflight.set name a.now
      calls := s.calls ++ [.submitted name a.now] }

/-- The names past their own deadline. -/
def stuck : List String :=
  if 0 < cfg.timeoutS then
    (s.inflight.entries.filter fun e => cfg.timeoutS ≤ a.now - e.2).map Prod.fst
  else []

/-- The results that are there, of names that are not stuck. -/
def ready (stuck : List String) : List (String × Option R) :=
  s.inflight.entries.filterMap fun e =>
    if e.1 ∈ stuck then none else (a.outcome e.1).map (e.1, ·)

/-- After the results of a poll: the names that ran out of time, or the next poll. -/
def settle (ready : List (String × Option R)) (stuck : List String) : Loop R :=
  match ready, stuck with
  -- fill the free slot before the result is posted
  | r :: ready, [] => { s with pc := .submit (.finish (r :: ready)) }
  | r :: ready, n :: stuck => { s with pc := .finish (r :: ready) (n :: stuck) }
  | [], n :: stuck =>
    let killed := s.inflight.keys.filter (· ∉ n :: stuck)
    { s with
      inflight := .empty
      calls := s.calls ++ (n :: stuck).map Call.expired ++ killed.map Call.killed
      pc := .clearInflight (n :: stuck) killed }
  | [], [] => { s with pc := .poll }

/-- `del inflight[name]` for each name. -/
def dropAll (d : Dict String ℚ) (names : List String) : Dict String ℚ :=
  d.filterMap fun k v => if k ∈ names then none else some v

/-- One turn of the loop's head: which names are stuck, which results are there. -/
def poll : Loop R :=
  if s.inflight.keys = [] then { s with pc := .returned }
  else
    let stuck := s.stuck cfg a
    let ready := s.ready a stuck
    let rest := { s with
      inflight := dropAll s.inflight (ready.map Prod.fst)
      unposted := ready.length
      calls := s.calls ++ (ready.map Prod.fst).map Call.collected }
    if ready = [] ∧ stuck = [] then { rest with pc := .idle } else rest.settle ready stuck

/-- The loop goes on with an answer. -/
def step : Loop R :=
  match s.pc with
  | .submit k =>
    match s.submitOne cfg a with
    | some s => s
    | none =>
      let deficit := s.claimSize cfg a
      { s with pc := if 0 < deficit then .refill deficit k else .reportInflight k }
  | .refill deficit k =>
    match a.reply.getD [] with
    | [] => { s with
        backoff := s.backoff.longer a.now
        pc := .reportInflight k }
    | name :: more => { s with
        queue := s.queue ++ name :: more
        calls := s.calls ++ [.claimed (name :: more)]
        pc := .resubmit (more.length + 1) deficit k }
  | .resubmit more deficit k =>
    match s.submitOne cfg a with
    | some s => s
    | none => { s with
        -- a short reply: prod is out of room or names
        backoff := {
          «until» := if more < deficit then a.now + CLAIM_EMPTY_BACKOFF_SECONDS else 0
          delay := 0 }
        pc := .reportInflight k }
  | .reportInflight k => { s with pc := .reportQueue k }
  | .reportQueue .poll => { s with pc := .poll }
  | .reportQueue .sleep => { s with pc := .sleep }
  | .reportQueue (.finish ready) => { s with pc := .finish ready [] }
  | .poll => s.poll cfg a
  | .finish [] stuck => s.settle [] stuck
  | .finish (r :: ready) stuck =>
    settle { s with
      unposted := s.unposted - 1
      calls := s.calls ++ [.finished r.1 r.2] } ready stuck
  | .clearInflight stuck killed => { s with pc := .clearQueue stuck killed }
  | .clearQueue stuck killed => { s with pool := false, pc := .park stuck killed }
  | .park [] killed => { s with queue := killed ++ s.queue, pc := .submit .poll }
  | .park (n :: stuck) killed => { s with
      calls := s.calls ++ [.finished n (some (cfg.opsFail n))]
      pc := .park stuck killed }
  | .idle => { s with pc := if 0 < s.claimSize cfg a then .submit .sleep else .sleep }
  | .sleep => { s with pc := .poll }
  | .returned => s

end Loop

/-! ## What the calls say -/

section
variable {R : Type}

/-- The names given to `finish`, with their records. -/
def finished (calls : List (Call R)) : List (String × Option R) :=
  calls.filterMap fun
    | .finished name record => some (name, record)
    | _ => none

/-- The names that came with claims. -/
def claimed (calls : List (Call R)) : List String :=
  calls.flatMap fun
    | .claimed names => names
    | _ => []

/-- The evaluations submitted and neither collected nor stopped. -/
def run : List (String × ℚ) → Call R → List (String × ℚ)
  | out, .submitted name started => out ++ [(name, started)]
  | out, .collected name => out.filter fun e => e.1 ≠ name
  | out, .expired name => out.filter fun e => e.1 ≠ name
  | out, .killed name => out.filter fun e => e.1 ≠ name
  | out, _ => out

def running (calls : List (Call R)) : List (String × ℚ) := calls.foldl run []

/-- The names killed and not submitted since. -/
def await : List String → Call R → List String
  | out, .killed name => out ++ [name]
  | out, .submitted name _ => out.erase name
  | out, _ => out

def waiting (calls : List (Call R)) : List String := calls.foldl await []

variable (calls : List (Call R)) (names : List String)

theorem finished_append (more : List (Call R)) :
    finished (calls ++ more) = finished calls ++ finished more := List.filterMap_append

theorem claimed_append (more : List (Call R)) :
    claimed (calls ++ more) = claimed calls ++ claimed more := List.flatMap_append

theorem running_append (more : List (Call R)) :
    running (calls ++ more) = more.foldl run (running calls) := List.foldl_append

theorem waiting_append (more : List (Call R)) :
    waiting (calls ++ more) = more.foldl await (waiting calls) := List.foldl_append

/-- A call that is made once for each of some names, and is about no results. -/
structure Silent (f : String → Call R) : Prop where
  finished : ∀ n, finished [f n] = []
  claimed : ∀ n, claimed [f n] = []
  running : ∀ out n, run out (f n) = out.filter fun e => e.1 ≠ n

theorem collected_silent : Silent (Call.collected (R := R)) :=
  ⟨fun _ => rfl, fun _ => rfl, fun _ _ => rfl⟩

theorem expired_silent : Silent (Call.expired (R := R)) :=
  ⟨fun _ => rfl, fun _ => rfl, fun _ _ => rfl⟩

theorem killed_silent : Silent (Call.killed (R := R)) :=
  ⟨fun _ => rfl, fun _ => rfl, fun _ _ => rfl⟩

section
variable {f : String → Call R} (hf : Silent f)
include hf

theorem Silent.finished_map : Worker.finished (calls ++ names.map f) = Worker.finished calls := by
  induction names generalizing calls with
  | nil => rw [List.map_nil, List.append_nil]
  | cons n names ih =>
    rw [List.map_cons, ← List.singleton_append, ← List.append_assoc, ih, finished_append,
      hf.finished, List.append_nil]

theorem Silent.claimed_map : Worker.claimed (calls ++ names.map f) = Worker.claimed calls := by
  induction names generalizing calls with
  | nil => rw [List.map_nil, List.append_nil]
  | cons n names ih =>
    rw [List.map_cons, ← List.singleton_append, ← List.append_assoc, ih, claimed_append,
      hf.claimed, List.append_nil]

theorem Silent.running_map : Worker.running (calls ++ names.map f) =
    (Worker.running calls).filter fun e => e.1 ∉ names := by
  induction names generalizing calls with
  | nil =>
    rw [List.map_nil, List.append_nil]
    exact (List.filter_eq_self.mpr fun _ _ => decide_eq_true List.not_mem_nil).symm
  | cons n names ih =>
    rw [List.map_cons, ← List.singleton_append, ← List.append_assoc, ih, running_append]
    show (run (Worker.running calls) (f n)).filter _ = _
    rw [hf.running, List.filter_filter]
    refine List.filter_congr fun e _ => ?_
    by_cases he : e.1 = n
    · simp [he]
    · simp [he]

end

theorem waiting_collected : waiting (calls ++ names.map .collected) = waiting calls := by
  induction names generalizing calls with
  | nil => rw [List.map_nil, List.append_nil]
  | cons n names ih =>
    rw [List.map_cons, ← List.singleton_append, ← List.append_assoc, ih, waiting_append]
    rfl

theorem waiting_expired : waiting (calls ++ names.map .expired) = waiting calls := by
  induction names generalizing calls with
  | nil => rw [List.map_nil, List.append_nil]
  | cons n names ih =>
    rw [List.map_cons, ← List.singleton_append, ← List.append_assoc, ih, waiting_append]
    rfl

theorem waiting_killed : waiting (calls ++ names.map .killed) = waiting calls ++ names := by
  induction names generalizing calls with
  | nil => rw [List.map_nil, List.append_nil, List.append_nil]
  | cons n names ih =>
    rw [List.map_cons, ← List.singleton_append, ← List.append_assoc, ih, waiting_append]
    show waiting calls ++ [n] ++ names = _
    rw [List.append_assoc, List.singleton_append]

end

end PaperTrading.Worker
