import Mathlib.Data.List.Nodup
import PaperTrading.Lib.Entries
import PaperTrading.Lib.Runs

/-!
# The result poster

`_ResultPoster` of `scripts/discovery_worker.py`, with the ends of the batches that use
it. The eval loop submits posts, and a rebuild of the eval pool stops the post thread: it
forgets the thread, queues a sentinel and joins for a bounded time, so a thread in the
middle of a slow post lives on, and a later submit starts another on the same queue.

In every run each post is in one place and a post that waits has a thread left for it
(`Delivered`, from the invariant `Orderly`), and a thread that took one keeps it until it
is accepted or given up (`handsOn_step`).
-/

namespace PaperTrading.Worker

open PaperTrading.Lib

/-- `_q` holds this many. -/
def POST_QUEUE_MAX : ℕ := 64

/-- How often `_send` tries. -/
def POST_ATTEMPTS : ℕ := 3

/-- What is queued: a result of `batch`, with the name that is acknowledged when the
server accepts it, or a heartbeat without one. -/
structure Post where
  id : ℕ
  batch : ℕ
  ackName : Option String
deriving DecidableEq

def Post.isResult (p : Post) : Bool := p.ackName.isSome

/-- A post thread: it waits for the queue, sends, or has returned. -/
inductive Thread where
  | idle
  | sending (p : Post) (failed : ℕ)
  | gone
deriving DecidableEq

namespace Thread

def post? : Thread → Option Post
  | sending p _ => some p
  | _ => none

def alive : Thread → Bool
  | gone => false
  | _ => true

/-- It has an attempt left. -/
def inTime : Thread → Prop
  | sending _ failed => failed < POST_ATTEMPTS
  | _ => True

end Thread

/-- Where the thread of the eval loop is. -/
inductive Main where
  | running
  /-- in `submit`, a post thread ensured -/
  | putting (p : Post)
  /-- in `stop`, before the sentinel is queued, and at the join -/
  | closing (t : ℕ)
  | joining (t : ℕ)
  /-- in `drain`: waits, has stopped waiting, has its answer -/
  | draining
  | judging
  | drained (ok : Bool)
deriving DecidableEq

/-- The poster, and the batch that is under way: `planned` are its names, `acked` those
whose post was accepted. -/
structure Desk where
  /-- `_q`; `none` is the sentinel of `stop` -/
  waiting : List (Option Post) := []
  threads : List Thread := []
  /-- `_thread` -/
  current : Option ℕ := none
  /-- `_closing` -/
  closing : Bool := false
  main : Main := .running
  submitted : List Post := []
  accepted : List Post := []
  givenUp : List Post := []
  batch : ℕ := 0
  planned : List String := []
  acked : List (ℕ × String) := []
  released : List (ℕ × String) := []
  next : ℕ := 0
deriving DecidableEq

/-- What can happen next. -/
inductive DeskEvent where
  /-- the batch plans a name -/
  | plan (name : String)
  | submit (ackName : Option String)
  | put
  | stop
  | sentinel
  | joined (timedOut : Bool)
  /-- a thread takes from the queue; an attempt of it ends -/
  | get (t : ℕ)
  | attempt (t : ℕ) (accepted : Bool)
  /-- the batch ends, and `drain` begins -/
  | finish
  /-- `drain` looks at the queue, perhaps past its deadline -/
  | look (late : Bool)
  | judge
  /-- `run_batch` releases what it takes for unposted, and the next batch begins -/
  | release
deriving DecidableEq

namespace Desk

variable (w : Desk)

/-- The thread has returned. -/
def isGone (t : ℕ) : Bool := w.threads[t]? = some .gone

def startThread : Desk :=
  { w with threads := w.threads ++ [.idle], current := some w.threads.length }

/-- `_ensure` -/
def ensure : Desk :=
  if w.closing then w
  else
    match w.current with
    | some t => if w.isGone t then w.startThread else w
    | none => w.startThread

/-- `submit`, up to the put. -/
def submit (ackName : Option String) : Desk :=
  { w.ensure with
    main := .putting { id := w.next, batch := w.batch, ackName := ackName }
    next := w.next + 1 }

/-- The put: a result waits for room, a heartbeat is dropped when there is none. -/
def put (p : Post) : Desk :=
  if w.waiting.length < POST_QUEUE_MAX then
    { w with
      waiting := w.waiting ++ [some p]
      submitted := w.submitted ++ [p]
      main := .running }
  else if p.isResult then w
  else { w with main := .running }

/-- `stop`, up to the put of the sentinel. -/
def stop : Desk :=
  match w.current with
  | none => w
  | some t => { w with closing := true, current := none, main := .closing t }

/-- One turn of `_loop` takes the head of the queue. -/
def get (t : ℕ) : Desk :=
  match w.waiting with
  | [] => w
  | none :: rest => { w with waiting := rest, threads := w.threads.set t .gone }
  | some p :: rest => { w with waiting := rest, threads := w.threads.set t (.sending p 0) }

/-- One attempt of `_send`. -/
def attempt (t : ℕ) (p : Post) (failed : ℕ) (accepted : Bool) : Desk :=
  if accepted then
    { w with
      threads := w.threads.set t .idle
      accepted := w.accepted ++ [p]
      -- `on_ack` adds the name to the list of the batch that submitted it
      acked := w.acked ++ (p.ackName.toList.map fun name => (p.batch, name)) }
  else if failed + 1 < POST_ATTEMPTS then
    { w with threads := w.threads.set t (.sending p (failed + 1)) }
  else
    { w with
      threads := w.threads.set t .idle
      givenUp := w.givenUp ++ [p] }

/-- The posts that are being sent. -/
def sending : List Post := w.threads.filterMap Thread.post?

/-- `unfinished_tasks` -/
def unfinished : ℕ := w.waiting.length + w.sending.length

/-- The posts that wait or are being sent. -/
def outstanding : List Post := w.waiting.filterMap id ++ w.sending

/-- `pending` in `run_batch`: the names without an accepted post. -/
def pending : List String := w.planned.filter fun name => (w.batch, name) ∉ w.acked

/-- The end of a batch: the names are released, and the next batch begins. -/
def release : Desk :=
  { w with
    released := w.released ++ w.pending.map fun name => (w.batch, name)
    batch := w.batch + 1
    planned := []
    main := .running }

/-- Events that are not possible leave everything as it is. -/
def step (w : Desk) : DeskEvent → Desk
  | .plan name => if w.main = .running then { w with planned := w.planned ++ [name] } else w
  | .submit ackName => if w.main = .running then w.submit ackName else w
  | .put =>
    match w.main with
    | .putting p => w.put p
    | _ => w
  | .stop => if w.main = .running then w.stop else w
  | .sentinel =>
    match w.main with
    | .closing t =>
      if w.waiting.length < POST_QUEUE_MAX then
        { w with waiting := w.waiting ++ [none], main := .joining t }
      else w
    | _ => w
  | .joined timedOut =>
    match w.main with
    | .joining t =>
      if timedOut ∨ w.isGone t then { w with closing := false, main := .running } else w
    | _ => w
  | .get t =>
    match w.threads[t]? with
    | some .idle => w.get t
    | _ => w
  | .attempt t accepted =>
    match w.threads[t]? with
    | some (.sending p failed) => w.attempt t p failed accepted
    | _ => w
  | .finish =>
    if w.main = .running then
      -- `if self._thread is None: return True`
      { w with main := if w.current = none then .drained true else .draining }
    else w
  | .look late =>
    if w.main = .draining ∧ (w.unfinished = 0 ∨ late) then { w with main := .judging } else w
  | .judge =>
    if w.main = .judging then { w with main := .drained (w.unfinished = 0) } else w
  | .release =>
    match w.main with
    | .drained _ => w.release
    | _ => w

end Desk

/-! ## What every run keeps -/

namespace Desk

def alive (w : Desk) : ℕ := w.threads.countP Thread.alive

def isClosing : Main → Bool
  | .closing _ => true
  | _ => false

/-- The thread of the eval loop is in `stop`. -/
def inStop : Main → Bool
  | .closing _ => true
  | .joining _ => true
  | _ => false

end Desk

/-- Each post is in one place. A thread is left over beyond the sentinels for each post
that waits, and one more while there is a current thread or one whose sentinel is not
queued yet. -/
structure Orderly (w : Desk) : Prop where
  places : (w.outstanding ++ (w.accepted ++ w.givenUp)).Perm w.submitted
  distinct : (w.submitted.map Post.id).Nodup
  fresh : ∀ p ∈ w.submitted, p.id < w.next
  putting : ∀ p, w.main = .putting p → p.id < w.next ∧ p.id ∉ w.submitted.map Post.id ∧
    p.batch = w.batch ∧ w.current.isSome = true
  tries : ∀ th ∈ w.threads, th.inTime
  hands : w.waiting.count none + (if w.current.isSome then 1 else 0) +
    (if Desk.isClosing w.main then 1 else 0) ≤ w.alive
  served : ∀ pre p post, w.waiting = pre ++ some p :: post → pre.count none < w.alive
  closing : w.closing = Desk.inStop w.main
  batches : ∀ p ∈ w.submitted, p.batch ≤ w.batch
  acks : ∀ p ∈ w.accepted, ∀ name, p.ackName = some name → (p.batch, name) ∈ w.acked

section
variable {w w' : Desk} {t : ℕ} {p : Post}

theorem alive_set {a b : Thread} (h : w.threads[t]? = some a) :
    (w.threads.set t b).countP Thread.alive + (if a.alive then 1 else 0) =
      w.alive + (if b.alive then 1 else 0) :=
  countP_set_entry h

theorem sending_set {a b : Thread} (h : w.threads[t]? = some a) :
    (a.post?.toList ++ (w.threads.set t b).filterMap Thread.post?).Perm
      (b.post?.toList ++ w.sending) :=
  filterMap_set_entry h

theorem tries_set (htries : ∀ th ∈ w.threads, th.inTime) {b : Thread} (hb : b.inTime) :
    ∀ th ∈ w.threads.set t b, th.inTime := by
  intro th hth
  rcases List.mem_or_eq_of_mem_set hth with hold | rfl
  · exact htries th hold
  · exact hb

/-- The eval loop moves on, and nothing else changes. -/
theorem Orderly.moved (h : Orderly w) (m : Main) (hstop : Desk.inStop m = Desk.inStop w.main)
    (hclosing : Desk.isClosing m = true → Desk.isClosing w.main = true)
    (hput : ∀ p, m ≠ .putting p) : Orderly { w with main := m } where
  places := h.places
  distinct := h.distinct
  fresh := h.fresh
  putting p hp := absurd hp (hput p)
  tries := h.tries
  hands := by
    have hhands := h.hands
    show w.waiting.count none + (if w.current.isSome then 1 else 0) +
      (if Desk.isClosing m then 1 else 0) ≤ w.alive
    by_cases hm : Desk.isClosing m = true
    · rw [if_pos (hclosing hm)] at hhands
      rwa [if_pos hm]
    · rw [if_neg hm]
      omega
  served := h.served
  closing := h.closing.trans hstop.symm
  batches := h.batches
  acks := h.acks

/-- A thread more. -/
theorem Orderly.startThread (h : Orderly w) (hm : ∀ p, w.main ≠ .putting p) : Orderly w.startThread := by
  have halive : w.startThread.alive = w.alive + 1 := by
    show (w.threads ++ [Thread.idle]).countP Thread.alive = _
    rw [List.countP_append]
    rfl
  have hsending : w.startThread.sending = w.sending := by
    show (w.threads ++ [Thread.idle]).filterMap Thread.post? = _
    rw [List.filterMap_append]
    exact List.append_nil _
  constructor
  case places =>
    show (_ ++ w.startThread.sending ++ _).Perm _
    rw [hsending]
    exact h.places
  case distinct => exact h.distinct
  case fresh => exact h.fresh
  case putting => exact fun p hp => absurd hp (hm p)
  case tries =>
    intro th hth
    rcases List.mem_append.mp hth with hold | hnew
    · exact h.tries th hold
    · rw [List.mem_singleton.mp hnew]
      trivial
  case hands =>
    have hhands := h.hands
    rw [halive]
    show w.waiting.count none + 1 + (if Desk.isClosing w.main then 1 else 0) ≤ _
    omega
  case served =>
    intro pre p post hwaiting
    rw [halive]
    exact Nat.lt_succ_of_lt (h.served pre p post hwaiting)
  case closing => exact h.closing
  case batches => exact h.batches
  case acks => exact h.acks

theorem Orderly.ensure (h : Orderly w) (hm : w.main = .running) : Orderly w.ensure := by
  unfold Desk.ensure
  split
  next => exact h
  next =>
    split
    next =>
      split
      next => exact h.startThread (by simp [hm])
      next => exact h
    next => exact h.startThread (by simp [hm])

/-- After `_ensure` there is a current thread. -/
theorem ensure_current (hopen : w.closing = false) : w.ensure.current.isSome = true := by
  unfold Desk.ensure
  rw [hopen]
  rw [if_neg Bool.false_ne_true]
  split
  next t hcurrent =>
    split
    next => rfl
    next => rw [hcurrent]; rfl
  next => rfl

/-- `_ensure` changes the threads alone. -/
theorem ensure_same (w : Desk) : w.ensure.waiting = w.waiting ∧ w.ensure.main = w.main ∧
    w.ensure.submitted = w.submitted ∧ w.ensure.accepted = w.accepted ∧
    w.ensure.givenUp = w.givenUp ∧ w.ensure.batch = w.batch ∧ w.ensure.next = w.next ∧
    w.ensure.released = w.released := by
  unfold Desk.ensure
  split
  next => exact ⟨rfl, rfl, rfl, rfl, rfl, rfl, rfl, rfl⟩
  next =>
    split
    next =>
      split
      next => exact ⟨rfl, rfl, rfl, rfl, rfl, rfl, rfl, rfl⟩
      next => exact ⟨rfl, rfl, rfl, rfl, rfl, rfl, rfl, rfl⟩
    next => exact ⟨rfl, rfl, rfl, rfl, rfl, rfl, rfl, rfl⟩

theorem Orderly.submit (h : Orderly w) (hm : w.main = .running) (ackName : Option String) :
    Orderly (w.submit ackName) := by
  have hopen : w.closing = false := by rw [h.closing, hm]; rfl
  obtain ⟨_, hmain, hsub, _, _, hbatch, hnext, _⟩ := ensure_same w
  have he := h.ensure hm
  constructor
  case places => exact he.places
  case distinct => exact he.distinct
  case fresh =>
    intro p hp
    rw [hnext] at *
    exact Nat.lt_succ_of_lt (h.fresh p (hsub ▸ hp))
  case putting =>
    intro p hp
    obtain rfl := Main.putting.inj hp
    refine ⟨Nat.lt_succ_self _, ?_, hbatch.symm, ensure_current hopen⟩
    · intro hmem
      obtain ⟨q, hq, hid⟩ := List.mem_map.mp hmem
      exact absurd (h.fresh q (hsub ▸ hq)) (by rw [hid]; exact Nat.lt_irrefl _)
  case tries => exact he.tries
  case hands =>
    have hhands := he.hands
    rw [hmain, hm] at hhands
    exact hhands
  case served => exact he.served
  case closing =>
    have hclosing := he.closing
    rw [hmain, hm] at hclosing
    exact hclosing
  case batches => exact he.batches
  case acks => exact he.acks

theorem count_none_post (l : List (Option Post)) (p : Post) : (l ++ [some p]).count none = l.count none := by
  rw [List.count_append]
  rfl

theorem Orderly.put (h : Orderly w) (hm : w.main = .putting p) : Orderly (w.put p) := by
  obtain ⟨hid, hnew, hbatch, hcurrent⟩ := h.putting p hm
  have hstop : Desk.inStop w.main = false := by rw [hm]; rfl
  have hhands := h.hands
  rw [hm, hcurrent] at hhands
  unfold Desk.put
  split
  next =>
    constructor
    case places =>
      have hwaiting : (w.waiting ++ [some p]).filterMap id = w.waiting.filterMap id ++ [p] := by
        rw [List.filterMap_append]
        rfl
      show ((w.waiting ++ [some p]).filterMap id ++ w.sending ++ _).Perm _
      rw [hwaiting]
      have hplaces := h.places.append_right [p]
      refine List.Perm.trans ?_ hplaces
      unfold Desk.outstanding
      simp only [List.append_assoc]
      refine List.Perm.append_left _ ?_
      exact (List.perm_append_comm_assoc _ _ _).trans
        (List.Perm.append_left _ (List.perm_append_comm_assoc _ _ _ |>.trans
          (List.Perm.append_left _ List.perm_append_comm)))
    case distinct =>
      show ((w.submitted ++ [p]).map Post.id).Nodup
      rw [List.map_append]
      refine List.nodup_append.mpr ⟨h.distinct, List.pairwise_singleton _ _, ?_⟩
      rintro x hx y hy rfl
      exact hnew (List.mem_singleton.mp hy ▸ hx)
    case fresh =>
      intro q hq
      rcases List.mem_append.mp hq with hq | hq
      · exact h.fresh q hq
      · rw [List.mem_singleton.mp hq]
        exact hid
    case putting => exact fun q hq => by cases hq
    case tries => exact h.tries
    case hands =>
      show (w.waiting ++ [some p]).count none + (if w.current.isSome then 1 else 0) + 0 ≤ w.alive
      rw [count_none_post, hcurrent]
      exact hhands
    case served =>
      intro pre q post hwaiting
      rcases List.eq_nil_or_concat post with rfl | ⟨post, last, rfl⟩
      · -- the post that was put: there is a thread beyond all sentinels
        have hpre : pre = w.waiting := (List.append_inj' hwaiting rfl).1.symm
        rw [hpre]
        show w.waiting.count none < w.alive
        simp only [if_true] at hhands
        omega
      · refine h.served pre q post ?_
        have hsplit : w.waiting ++ [some p] = (pre ++ some q :: post) ++ [last] :=
          hwaiting.trans (by simp)
        exact (List.append_inj' hsplit rfl).1
    case closing => exact h.closing.trans hstop
    case batches =>
      intro q hq
      rcases List.mem_append.mp hq with hq | hq
      · exact h.batches q hq
      · rw [List.mem_singleton.mp hq]
        exact Nat.le_of_eq hbatch
    case acks => exact h.acks
  next =>
    split
    next => exact h
    next => exact h.moved .running hstop.symm (fun hc => by cases hc) (fun q hq => by cases hq)

theorem Orderly.stop (h : Orderly w) (hm : w.main = .running) : Orderly w.stop := by
  unfold Desk.stop
  split
  next => exact h
  next t hcurrent =>
    constructor
    case places => exact h.places
    case distinct => exact h.distinct
    case fresh => exact h.fresh
    case putting => exact fun q hq => by cases hq
    case tries => exact h.tries
    case hands =>
      -- the thread whose sentinel is not queued yet takes the place of the current one
      have hhands := h.hands
      rw [hm, hcurrent] at hhands
      exact hhands
    case served => exact h.served
    case closing => rfl
    case batches => exact h.batches
    case acks => exact h.acks

theorem Orderly.sentinel (h : Orderly w) (hm : w.main = .closing t) :
    Orderly { w with waiting := w.waiting ++ [none], main := .joining t } := by
  constructor
  case places =>
    have hwaiting : (w.waiting ++ [none]).filterMap id = w.waiting.filterMap id := by
      rw [List.filterMap_append]
      exact List.append_nil _
    show ((w.waiting ++ [none]).filterMap id ++ w.sending ++ _).Perm _
    rw [hwaiting]
    exact h.places
  case distinct => exact h.distinct
  case fresh => exact h.fresh
  case putting => exact fun q hq => by cases hq
  case tries => exact h.tries
  case hands =>
    have hhands := h.hands
    rw [hm] at hhands
    show (w.waiting ++ [none]).count none + (if w.current.isSome then 1 else 0) + 0 ≤ w.alive
    rw [List.count_append]
    simp only [Desk.isClosing, if_true, List.count_singleton_self] at hhands ⊢
    omega
  case served =>
    intro pre q post hwaiting
    rcases List.eq_nil_or_concat post with rfl | ⟨post, last, rfl⟩
    · have hlast := (List.append_inj' hwaiting rfl).2
      cases hlast
    · refine h.served pre q post ?_
      have hsplit : w.waiting ++ [none] = (pre ++ some q :: post) ++ [last] :=
        hwaiting.trans (by simp)
      exact (List.append_inj' hsplit rfl).1
  case closing =>
    have hclosing := h.closing
    rw [hm] at hclosing
    exact hclosing
  case batches => exact h.batches
  case acks => exact h.acks

theorem Orderly.joined (h : Orderly w) (hm : w.main = .joining t) :
    Orderly { w with closing := false, main := .running } where
  places := h.places
  distinct := h.distinct
  fresh := h.fresh
  putting q hq := by cases hq
  tries := h.tries
  hands := by
    have hhands := h.hands
    rw [hm] at hhands
    exact hhands
  served := h.served
  closing := rfl
  batches := h.batches
  acks := h.acks

/-- What a thread takes from the queue is still out. -/
theorem outstanding_get (hidle : w.threads[t]? = some .idle) :
    (w.get t).outstanding.Perm w.outstanding := by
  unfold Desk.get
  split
  next => exact List.Perm.refl _
  next rest hwaiting =>
    unfold Desk.outstanding
    rw [hwaiting]
    exact List.Perm.append_left _ (sending_set (b := .gone) hidle)
  next p rest hwaiting =>
    unfold Desk.outstanding
    rw [hwaiting]
    exact (List.Perm.append_left _ (sending_set (b := .sending p 0) hidle)).trans List.perm_middle

theorem Orderly.get (h : Orderly w) (hidle : w.threads[t]? = some .idle) : Orderly (w.get t) := by
  have hplaces := (outstanding_get hidle).append_right (w.accepted ++ w.givenUp)
  unfold Desk.get at hplaces ⊢
  split at hplaces
  next => exact h
  next rest hwaiting =>
    have halive := alive_set (b := .gone) hidle
    constructor
    case places => exact hplaces.trans h.places
    case distinct => exact h.distinct
    case fresh => exact h.fresh
    case putting => exact h.putting
    case tries => exact tries_set h.tries trivial
    case hands =>
      have hhands := h.hands
      rw [hwaiting, List.count_cons_self] at hhands
      show rest.count none + _ + _ ≤ (w.threads.set t .gone).countP Thread.alive
      simp only [Thread.alive, if_true] at halive
      simp only at hhands ⊢
      omega
    case served =>
      -- a sentinel and a thread leave together
      intro pre q post hrest
      have hlt := h.served (none :: pre) q post (hwaiting.trans (congrArg (none :: ·) hrest))
      rw [List.count_cons_self] at hlt
      show pre.count none < (w.threads.set t .gone).countP Thread.alive
      simp only [Thread.alive, if_true] at halive
      omega
    case closing => exact h.closing
    case batches => exact h.batches
    case acks => exact h.acks
  next p rest hwaiting =>
    have halive := alive_set (b := .sending p 0) hidle
    have hsame : (w.threads.set t (.sending p 0)).countP Thread.alive = w.alive := by
      simp only [Thread.alive, if_true] at halive
      omega
    constructor
    case places => exact hplaces.trans h.places
    case distinct => exact h.distinct
    case fresh => exact h.fresh
    case putting => exact h.putting
    case tries => exact tries_set h.tries (by show 0 < POST_ATTEMPTS; decide)
    case hands =>
      have hhands := h.hands
      rw [hwaiting] at hhands
      show rest.count none + _ + _ ≤ (w.threads.set t (.sending p 0)).countP Thread.alive
      rw [hsame]
      simpa using hhands
    case served =>
      intro pre q post hrest
      have hlt := h.served (some p :: pre) q post (hwaiting.trans (congrArg (some p :: ·) hrest))
      show pre.count none < (w.threads.set t (.sending p 0)).countP Thread.alive
      rw [hsame]
      simpa using hlt
    case closing => exact h.closing
    case batches => exact h.batches
    case acks => exact h.acks

/-- A thread goes on, or back to the queue; the post it had goes where `places` says. -/
theorem Orderly.threadSet (h : Orderly w) {a : Thread} (b : Thread) (ht : w.threads[t]? = some a)
    (ha : a.alive = true) (hb : b.alive = true) (hin : b.inTime)
    (hmain : w'.main = w.main) (hwaiting : w'.waiting = w.waiting) (hcurrent : w'.current = w.current)
    (hclosing : w'.closing = w.closing) (hsub : w'.submitted = w.submitted)
    (hbatch : w'.batch = w.batch) (hnext : w'.next = w.next) (hthreads : w'.threads = w.threads.set t b)
    (hplaces : (w'.outstanding ++ (w'.accepted ++ w'.givenUp)).Perm w.submitted)
    (hacks : ∀ p ∈ w'.accepted, ∀ name, p.ackName = some name → (p.batch, name) ∈ w'.acked) :
    Orderly w' := by
  have hsame : w'.alive = w.alive := by
    have halive := alive_set (b := b) ht
    rw [if_pos ha, if_pos hb] at halive
    unfold Desk.alive
    rw [hthreads]
    exact Nat.add_right_cancel halive
  constructor
  case places => rwa [hsub]
  case distinct => rw [hsub]; exact h.distinct
  case fresh => rw [hsub, hnext]; exact h.fresh
  case putting => rw [hmain, hsub, hnext, hbatch, hcurrent]; exact h.putting
  case tries => rw [hthreads]; exact tries_set h.tries hin
  case hands => rw [hwaiting, hcurrent, hmain, hsame]; exact h.hands
  case served => rw [hwaiting, hsame]; exact h.served
  case closing => rw [hclosing, hmain]; exact h.closing
  case batches => rw [hsub, hbatch]; exact h.batches
  case acks => exact hacks

theorem sending_done {failed : ℕ} (ht : w.threads[t]? = some (.sending p failed)) :
    (p :: (w.threads.set t .idle).filterMap Thread.post?).Perm w.sending :=
  sending_set (b := .idle) ht

theorem Orderly.attempt (h : Orderly w) {failed : ℕ}
    (ht : w.threads[t]? = some (.sending p failed)) (accepted : Bool) :
    Orderly (w.attempt t p failed accepted) := by
  have hdone := sending_done ht
  unfold Desk.attempt
  split
  next =>
    refine h.threadSet .idle ht rfl rfl trivial rfl rfl rfl rfl rfl rfl rfl rfl ?_ ?_
    · refine List.Perm.trans (List.perm_iff_count.mpr fun q => ?_) h.places
      have hq := hdone.count_eq q
      unfold Desk.outstanding
      simp only [List.count_append, List.count_cons, List.count_nil] at hq ⊢
      show _ + ((w.threads.set t .idle).filterMap Thread.post?).count q + _ = _
      omega
    · intro q hq name hname
      rcases List.mem_append.mp hq with hq | hq
      · exact List.mem_append_left _ (h.acks q hq name hname)
      · obtain rfl := List.mem_singleton.mp hq
        refine List.mem_append_right _ ?_
        rw [hname]
        exact List.mem_singleton.mpr rfl
  next =>
    split
    next hlt =>
      refine h.threadSet (.sending p (failed + 1)) ht rfl rfl hlt rfl rfl rfl rfl rfl rfl rfl rfl ?_ h.acks
      refine List.Perm.trans ?_ h.places
      have hsame := sending_set (b := .sending p (failed + 1)) ht
      exact (List.Perm.append_left _ hsame.cons_inv).append_right _
    next =>
      refine h.threadSet .idle ht rfl rfl trivial rfl rfl rfl rfl rfl rfl rfl rfl ?_ h.acks
      refine List.Perm.trans (List.perm_iff_count.mpr fun q => ?_) h.places
      have hq := hdone.count_eq q
      unfold Desk.outstanding
      simp only [List.count_append, List.count_cons, List.count_nil] at hq ⊢
      show _ + ((w.threads.set t .idle).filterMap Thread.post?).count q + _ = _
      omega

theorem Orderly.release (h : Orderly w) {ok : Bool} (hm : w.main = .drained ok) : Orderly w.release where
  places := h.places
  distinct := h.distinct
  fresh := h.fresh
  putting q hq := by cases hq
  tries := h.tries
  hands := by
    have hhands := h.hands
    rw [hm] at hhands
    exact hhands
  served := h.served
  closing := by
    have hclosing := h.closing
    rw [hm] at hclosing
    exact hclosing
  batches q hq := Nat.le_succ_of_le (h.batches q hq)
  acks := h.acks

/-- A step that is open to the thread of the eval loop, or to a post thread. -/
theorem orderly_step (w : Desk) (e : DeskEvent) (h : Orderly w) : Orderly (w.step e) := by
  cases e with
  | plan name =>
    simp only [Desk.step]
    split
    next =>
      exact ⟨h.places, h.distinct, h.fresh, h.putting, h.tries, h.hands, h.served, h.closing,
        h.batches, h.acks⟩
    next => exact h
  | submit ackName =>
    simp only [Desk.step]
    split
    next hm => exact h.submit hm ackName
    next => exact h
  | put =>
    simp only [Desk.step]
    split
    next p hm => exact h.put hm
    next => exact h
  | stop =>
    simp only [Desk.step]
    split
    next hm => exact h.stop hm
    next => exact h
  | sentinel =>
    simp only [Desk.step]
    split
    next t hm =>
      split
      next => exact h.sentinel hm
      next => exact h
    next => exact h
  | joined timedOut =>
    simp only [Desk.step]
    split
    next t hm =>
      split
      next => exact h.joined hm
      next => exact h
    next => exact h
  | get t =>
    simp only [Desk.step]
    split
    next ht => exact h.get ht
    next => exact h
  | attempt t accepted =>
    simp only [Desk.step]
    split
    next p failed ht => exact h.attempt ht accepted
    next => exact h
  | finish =>
    simp only [Desk.step]
    split
    next hm =>
      refine h.moved _ ?_ ?_ ?_
      · rw [hm]
        split <;> rfl
      · intro hc
        split at hc
        next => cases hc
        next => cases hc
      · intro q hq
        split at hq
        next => cases hq
        next => cases hq
    next => exact h
  | look late =>
    simp only [Desk.step]
    split
    next hm => exact h.moved _ (by rw [hm.1]; rfl) (fun hc => by cases hc) (fun q hq => by cases hq)
    next => exact h
  | judge =>
    simp only [Desk.step]
    split
    next hm => exact h.moved _ (by rw [hm]; rfl) (fun hc => by cases hc) (fun q hq => by cases hq)
    next => exact h
  | release =>
    simp only [Desk.step]
    split
    next ok hm => exact h.release hm
    next => exact h

theorem orderly_start : Orderly {} where
  places := List.Perm.refl _
  distinct := List.nodup_nil
  fresh q hq := absurd hq List.not_mem_nil
  putting q hq := by cases hq
  tries th hth := absurd hth List.not_mem_nil
  hands := Nat.le_refl _
  served pre q post hwaiting := by
    have hlen := congrArg List.length hwaiting
    rw [List.length_append, List.length_cons] at hlen
    exact absurd hlen (by simp)
  closing := rfl
  batches q hq := absurd hq List.not_mem_nil
  acks q hq := absurd hq List.not_mem_nil

end

/-! ## The poster -/

/-- Where the posts are: each in one place, with one thread at most, which has attempts
left; and a thread is left for each post that waits. -/
structure Delivered (w : Desk) : Prop where
  places : (w.outstanding ++ (w.accepted ++ w.givenUp)).Perm w.submitted
  once : w.submitted.Nodup
  one : ∀ (t u : ℕ) (p : Post) (i j : ℕ), w.threads[t]? = some (.sending p i) →
    w.threads[u]? = some (.sending p j) → t = u
  tries : ∀ th ∈ w.threads, th.inTime
  served : ∀ pre p post, w.waiting = pre ++ some p :: post → pre.count none < w.alive

/-- What a thread is sending it goes on sending, or it is accepted or given up. -/
def HandsOn (w w' : Desk) : Prop :=
  ∀ (t : ℕ) (p : Post) (i : ℕ), w.threads[t]? = some (.sending p i) →
    (∃ j, w'.threads[t]? = some (Thread.sending p j)) ∨ p ∈ w'.accepted ∨ p ∈ w'.givenUp

section
variable {w w' : Desk}

/-- In a list without repetitions each value has one index. -/
theorem filterMap_inj {α β : Type} {f : α → Option β} : ∀ {l : List α}, (l.filterMap f).Nodup →
    ∀ {i j : ℕ} {a b : α} {x : β}, l[i]? = some a → l[j]? = some b → f a = some x → f b = some x →
      i = j := by
  intro l
  induction l with
  | nil => intro _ i j a b x ha; simp at ha
  | cons c l ih =>
    intro hnodup i j a b x ha hb hfa hfb
    have htail : (l.filterMap f).Nodup := by
      rw [List.filterMap_cons] at hnodup
      split at hnodup
      next => exact hnodup
      next => exact (List.nodup_cons.mp hnodup).2
    have hclash {k : ℕ} {d : α} (hc : f c = some x) (hd : l[k]? = some d) (hfd : f d = some x) : False := by
      rw [List.filterMap_cons_some hc] at hnodup
      exact (List.nodup_cons.mp hnodup).1
        (List.mem_filterMap.mpr ⟨d, List.mem_of_getElem? hd, hfd⟩)
    cases i with
    | zero =>
      cases j with
      | zero => rfl
      | succ j =>
        rw [List.getElem?_cons_zero] at ha
        obtain rfl := Option.some.inj ha
        exact (hclash hfa hb hfb).elim
    | succ i =>
      cases j with
      | zero =>
        rw [List.getElem?_cons_zero] at hb
        obtain rfl := Option.some.inj hb
        exact (hclash hfb ha hfa).elim
      | succ j => rw [ih htail ha hb hfa hfb]

theorem Orderly.delivered (h : Orderly w) : Delivered w where
  places := h.places
  once := List.Nodup.of_map _ h.distinct
  one t u p i j ht hu := by
    have hnodup := h.places.nodup_iff.mpr (List.Nodup.of_map _ h.distinct)
    have hout := (List.nodup_append.mp hnodup).1
    exact filterMap_inj (List.nodup_append.mp hout).2.1 ht hu rfl rfl
  tries := h.tries
  served := h.served

theorem handsOn_same (h : w'.threads = w.threads) : HandsOn w w' := by
  intro t p i ht
  exact Or.inl ⟨i, h ▸ ht⟩

theorem handsOn_start : HandsOn w w.startThread := by
  intro t p i ht
  refine Or.inl ⟨i, ?_⟩
  show (w.threads ++ [Thread.idle])[t]? = _
  rw [List.getElem?_append_left (List.getElem?_eq_some_iff.mp ht).1]
  exact ht

theorem handsOn_ensure : HandsOn w w.ensure := by
  unfold Desk.ensure
  split
  next => exact handsOn_same rfl
  next =>
    split
    next =>
      split
      next => exact handsOn_start
      next => exact handsOn_same rfl
    next => exact handsOn_start

/-- A thread other than one that is sending moves. -/
theorem handsOn_set {t : ℕ} {a b : Thread} (hset : w'.threads = w.threads.set t b)
    (ht : w.threads[t]? = some a) (ha : ∀ p i, a = .sending p i →
      (∃ j, b = .sending p j) ∨ p ∈ w'.accepted ∨ p ∈ w'.givenUp) : HandsOn w w' := by
  intro u p i hu
  rw [hset]
  by_cases htu : t = u
  · subst htu
    rw [hu] at ht
    obtain rfl := Option.some.inj ht
    rcases ha p i rfl with ⟨j, rfl⟩ | hdone
    · refine Or.inl ⟨j, ?_⟩
      rw [List.getElem?_set_self (List.getElem?_eq_some_iff.mp hu).1]
    · exact Or.inr hdone
  · refine Or.inl ⟨i, ?_⟩
    rw [List.getElem?_set_ne htu]
    exact hu

theorem handsOn_step (w : Desk) (e : DeskEvent) : HandsOn w (w.step e) := by
  cases e with
  | plan name =>
    simp only [Desk.step]
    split
    next => exact handsOn_same rfl
    next => exact handsOn_same rfl
  | submit ackName =>
    simp only [Desk.step]
    split
    next =>
      intro t p i ht
      exact handsOn_ensure t p i ht
    next => exact handsOn_same rfl
  | put =>
    simp only [Desk.step]
    split
    next =>
      unfold Desk.put
      split
      next => exact handsOn_same rfl
      next =>
        split
        next => exact handsOn_same rfl
        next => exact handsOn_same rfl
    next => exact handsOn_same rfl
  | stop =>
    simp only [Desk.step]
    split
    next =>
      unfold Desk.stop
      split
      next => exact handsOn_same rfl
      next => exact handsOn_same rfl
    next => exact handsOn_same rfl
  | sentinel =>
    simp only [Desk.step]
    split
    next =>
      split
      next => exact handsOn_same rfl
      next => exact handsOn_same rfl
    next => exact handsOn_same rfl
  | joined timedOut =>
    simp only [Desk.step]
    split
    next =>
      split
      next => exact handsOn_same rfl
      next => exact handsOn_same rfl
    next => exact handsOn_same rfl
  | get t =>
    simp only [Desk.step]
    split
    next ht =>
      unfold Desk.get
      split
      next => exact handsOn_same rfl
      next => exact handsOn_set rfl ht fun p i h => by cases h
      next => exact handsOn_set rfl ht fun p i h => by cases h
    next => exact handsOn_same rfl
  | attempt t accepted =>
    simp only [Desk.step]
    split
    next p failed ht =>
      unfold Desk.attempt
      split
      next =>
        refine handsOn_set rfl ht fun q i hq => Or.inr (Or.inl ?_)
        obtain ⟨rfl, _⟩ := Thread.sending.inj hq
        exact List.mem_append_right _ List.mem_cons_self
      next =>
        split
        next =>
          refine handsOn_set rfl ht fun q i hq => Or.inl ?_
          obtain ⟨rfl, _⟩ := Thread.sending.inj hq
          exact ⟨_, rfl⟩
        next =>
          refine handsOn_set rfl ht fun q i hq => Or.inr (Or.inr ?_)
          obtain ⟨rfl, _⟩ := Thread.sending.inj hq
          exact List.mem_append_right _ List.mem_cons_self
    next => exact handsOn_same rfl
  | finish =>
    simp only [Desk.step]
    split
    next => exact handsOn_same rfl
    next => exact handsOn_same rfl
  | look late =>
    simp only [Desk.step]
    split
    next => exact handsOn_same rfl
    next => exact handsOn_same rfl
  | judge =>
    simp only [Desk.step]
    split
    next => exact handsOn_same rfl
    next => exact handsOn_same rfl
  | release =>
    simp only [Desk.step]
    split
    next => exact handsOn_same rfl
    next => exact handsOn_same rfl

end

end PaperTrading.Worker
