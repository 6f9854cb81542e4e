import Mathlib.Data.List.Count
import PaperTrading.Lib.Owners
import PaperTrading.Lib.Runs

/-!
# The lock on the paper state

`paper_state_lock` of `trading/store.py`. A name has a `threading.Lock` in every process
and a file that the host lets one thread at a time `flock`; neither can be taken twice. So
each thread counts the blocks it has open on each name: the first block on a name takes the
thread lock, then the file lock, and sets the count to 1; a block inside it only counts;
and the `finally` of a block undoes what the block did, whether its body returned or raised.

`state_lock_excludes` is about every interleaving of threads of any processes, their blocks
on any names nested to any depth, bodies that raise, and attempts to take a name that fail.
At most one thread is inside a name; a thread inside a name enters it again without waiting
and never waits for it; both locks stay with it until it has left its outermost block on
the name, and it gives both back then.
-/

namespace PaperTrading.Trading

open PaperTrading.Lib

/-- An open `with paper_state_lock(name)` block. `outermost`: it is the one that took the
locks, not one that only counts. -/
structure LockBlock (ν : Type) where
  name : ν
  outermost : Bool

/-- Where a thread is in the code of the lock. -/
inductive LockPc (ν : Type) where
  /-- in the body of its innermost block, or in none -/
  | body
  /-- at `with thread_lock` -/
  | wantThreadLock (name : ν)
  /-- at `flock(fh, LOCK_EX)` -/
  | wantFileLock (name : ν)
  /-- before `depths[key] = 1` -/
  | haveBoth (name : ν)
  /-- at `flock(fh, LOCK_UN)` -/
  | dropFileLock (name : ν)
  /-- at the end of `with thread_lock` -/
  | dropThreadLock (name : ν)

/-- A thread: its own `depths` (0 where a name is missing), the blocks it is in, innermost
first, and where it is. -/
structure LockThread (ν : Type) where
  depths : ν → ℕ
  blocks : List (LockBlock ν)
  pc : LockPc ν

/-- The thread locks of each process, the locks on the files, and the threads. -/
structure LockState (τ π ν : Type) where
  threadLock : π × ν → Option τ
  fileLock : ν → Option τ
  threads : τ → LockThread ν

/-- A thread comes to a block, goes on in the code of the lock, leaves its innermost block,
by an exception or not, or is stopped by an exception while it takes a name. -/
inductive LockEvent (τ ν : Type) where
  | enter (t : τ) (name : ν)
  | advance (t : τ)
  | leave (t : τ) (raised : Bool)
  | fail (t : τ)

section
variable {τ π ν : Type}

/-- The thread is inside the name: the body of a block on it is running. -/
def LockThread.Inside (th : LockThread ν) (name : ν) : Prop := ∃ b ∈ th.blocks, b.name = name

/-- The name the thread is taking or giving back. -/
def LockPc.name? : LockPc ν → Option ν
  | .body => none
  | .wantThreadLock name => some name
  | .wantFileLock name => some name
  | .haveBoth name => some name
  | .dropFileLock name => some name
  | .dropThreadLock name => some name

/-- Between taking the file lock and giving it back, outside a block. -/
def LockPc.hasFileLock : LockPc ν → Bool
  | .haveBoth _ => true
  | .dropFileLock _ => true
  | _ => false

/-- Between taking the thread lock and giving it back, outside a block. -/
def LockPc.hasThreadLock : LockPc ν → Bool
  | .wantFileLock _ => true
  | .haveBoth _ => true
  | .dropFileLock _ => true
  | .dropThreadLock _ => true
  | _ => false

/-- The thread is at one of the two locks of the name. -/
def LockThread.Waits (th : LockThread ν) (name : ν) : Prop :=
  th.pc = .wantThreadLock name ∨ th.pc = .wantFileLock name

/-- `paper_lock_held` -/
def LockThread.paperLockHeld (th : LockThread ν) (name : ν) : Prop := 0 < th.depths name

def LockThread.start : LockThread ν := { depths := fun _ => 0, blocks := [], pc := .body }

def LockState.start : LockState τ π ν :=
  { threadLock := fun _ => none, fileLock := fun _ => none, threads := fun _ => .start }

variable [DecidableEq ν]

/-- A block on a name: one more to count, or the way to the locks. -/
def LockThread.enter (th : LockThread ν) (name : ν) : LockThread ν :=
  if 0 < th.depths name then
    { th with
      depths := Function.update th.depths name (th.depths name + 1)
      blocks := ⟨name, false⟩ :: th.blocks }
  else { th with pc := .wantThreadLock name }

/-- Both locks are taken. -/
def LockThread.begin (th : LockThread ν) (name : ν) : LockThread ν :=
  { depths := Function.update th.depths name 1
    blocks := ⟨name, true⟩ :: th.blocks
    pc := .body }

/-- The `finally` of the innermost block. -/
def LockThread.leave (th : LockThread ν) : LockThread ν :=
  match th.blocks with
  | [] => th
  | b :: bs =>
    if b.outermost then
      { depths := Function.update th.depths b.name 0, blocks := bs, pc := .dropFileLock b.name }
    else
      { th with depths := Function.update th.depths b.name (th.depths b.name - 1), blocks := bs }

variable [DecidableEq τ] [DecidableEq π]

namespace LockState

variable (proc : τ → π)

def withThread (s : LockState τ π ν) (t : τ) (th : LockThread ν) : LockState τ π ν :=
  { s with threads := Function.update s.threads t th }

/-- The thread goes on; at a lock that is taken it waits. -/
def advance (s : LockState τ π ν) (t : τ) : LockState τ π ν :=
  let th := s.threads t
  match th.pc with
  | .body => s
  | .wantThreadLock name =>
    if s.threadLock (proc t, name) = none then
      { s.withThread t { th with pc := .wantFileLock name } with
        threadLock := Function.update s.threadLock (proc t, name) (some t) }
    else s
  | .wantFileLock name =>
    if s.fileLock name = none then
      { s.withThread t { th with pc := .haveBoth name } with
        fileLock := Function.update s.fileLock name (some t) }
    else s
  | .haveBoth name => s.withThread t (th.begin name)
  | .dropFileLock name =>
    { s.withThread t { th with pc := .dropThreadLock name } with
      fileLock := Function.update s.fileLock name none }
  | .dropThreadLock name =>
    { s.withThread t { th with pc := .body } with
      threadLock := Function.update s.threadLock (proc t, name) none }

/-- An exception while the thread takes a name: what it has is given back. -/
def fail (s : LockState τ π ν) (t : τ) : LockState τ π ν :=
  let th := s.threads t
  match th.pc with
  | .wantThreadLock _ => s.withThread t { th with pc := .body }
  | .wantFileLock name => s.withThread t { th with pc := .dropThreadLock name }
  | .haveBoth name => s.withThread t { th with pc := .dropFileLock name }
  | _ => s

/-- One event. A thread in the code of the lock enters and leaves no block. -/
def step (s : LockState τ π ν) : LockEvent τ ν → LockState τ π ν
  | .enter t name =>
    match (s.threads t).pc with
    | .body => s.withThread t ((s.threads t).enter name)
    | _ => s
  | .advance t => s.advance proc t
  | .leave t _ =>
    match (s.threads t).pc with
    | .body => s.withThread t (s.threads t).leave
    | _ => s
  | .fail t => s.fail t

end LockState

/-! ## One thread -/

omit [DecidableEq τ] [DecidableEq π]

/-- A block took the locks exactly when the blocks around it are on other names. -/
def NestedBlocks : List (LockBlock ν) → Prop
  | [] => True
  | b :: bs => (b.outermost = true ↔ ∀ c ∈ bs, c.name ≠ b.name) ∧ NestedBlocks bs

/-- The number of blocks on one name. -/
def openBlocks (blocks : List (LockBlock ν)) (name : ν) : ℕ :=
  blocks.countP fun b => b.name = name

theorem openBlocks_cons (b : LockBlock ν) (bs : List (LockBlock ν)) (name : ν) :
    openBlocks (b :: bs) name = openBlocks bs name + if b.name = name then 1 else 0 := by
  unfold openBlocks
  rw [List.countP_cons]
  by_cases hb : b.name = name
  · rw [if_pos hb, if_pos (decide_eq_true hb)]
  · rw [if_neg hb, if_neg fun e => hb (of_decide_eq_true e)]

theorem openBlocks_pos {bs : List (LockBlock ν)} {name : ν} :
    0 < openBlocks bs name ↔ ∃ b ∈ bs, b.name = name := by
  unfold openBlocks
  rw [List.countP_pos_iff]
  exact exists_congr fun b => and_congr_right fun _ => decide_eq_true_iff

theorem openBlocks_eq_zero {bs : List (LockBlock ν)} {name : ν} (h : ∀ b ∈ bs, b.name ≠ name) :
    openBlocks bs name = 0 :=
  Nat.eq_zero_of_not_pos fun hpos =>
    have ⟨b, hb, hname⟩ := openBlocks_pos.mp hpos
    h b hb hname

/-- What a thread keeps: its counts are those of its open blocks, and it takes or gives back
no name it is inside. -/
structure LockThread.Ok (th : LockThread ν) : Prop where
  counted : ∀ name, th.depths name = openBlocks th.blocks name
  nested : NestedBlocks th.blocks
  apart : ∀ name, th.pc.name? = some name → ¬ th.Inside name

/-- The thread needs the lock on the name's file. -/
def LockThread.NeedsFile (th : LockThread ν) (name : ν) : Prop :=
  th.Inside name ∨ th.pc.hasFileLock = true ∧ th.pc.name? = some name

/-- The thread needs the thread lock of the name. -/
def LockThread.NeedsThread (th : LockThread ν) (name : ν) : Prop :=
  th.Inside name ∨ th.pc.hasThreadLock = true ∧ th.pc.name? = some name

namespace LockThread

variable {th : LockThread ν} {name : ν}

theorem Ok.depths_pos (h : th.Ok) : 0 < th.depths name ↔ th.Inside name := by
  rw [h.counted, openBlocks_pos]
  rfl

theorem ok_start : (start : LockThread ν).Ok where
  counted _ := rfl
  nested := trivial
  apart _ h := by cases h

omit [DecidableEq ν] in
theorem inside_cons {b : LockBlock ν} {bs : List (LockBlock ν)} {d : ν → ℕ} {pc : LockPc ν} :
    (⟨d, b :: bs, pc⟩ : LockThread ν).Inside name ↔
      b.name = name ∨ (⟨d, bs, pc⟩ : LockThread ν).Inside name :=
  List.exists_mem_cons_iff _ _ _

/-- The thread goes to another place in the code of the lock. -/
theorem Ok.goto (h : th.Ok) {pc : LockPc ν} (hpc : ∀ name, pc.name? = some name → ¬ th.Inside name) :
    ({ th with pc := pc } : LockThread ν).Ok where
  counted := h.counted
  nested := h.nested
  apart := hpc

theorem Ok.begin (h : th.Ok) (hout : ¬ th.Inside name) : (th.begin name).Ok where
  counted other := by
    show Function.update th.depths name 1 other = openBlocks (⟨name, true⟩ :: th.blocks) other
    rw [openBlocks_cons]
    by_cases ho : other = name
    · have hnone : openBlocks th.blocks name = 0 :=
        openBlocks_eq_zero fun b hb hname => hout ⟨b, hb, hname⟩
      rw [ho, Function.update_self, hnone, if_pos rfl]
    · rw [Function.update_of_ne ho, if_neg fun e => ho e.symm]
      exact h.counted other
  nested := ⟨iff_of_true rfl fun c hc e => hout ⟨c, hc, e⟩, h.nested⟩
  apart _ hpc := by cases hpc

theorem inside_begin {other : ν} : (th.begin name).Inside other ↔ name = other ∨ th.Inside other :=
  inside_cons

/-- A block on a name the thread is inside only counts. -/
theorem enter_inside (h : th.Ok) (hin : th.Inside name) :
    th.enter name =
      { th with
        depths := Function.update th.depths name (th.depths name + 1)
        blocks := ⟨name, false⟩ :: th.blocks } :=
  if_pos (h.depths_pos.mpr hin)

theorem enter_outside (h : th.Ok) (hout : ¬ th.Inside name) :
    th.enter name = { th with pc := .wantThreadLock name } :=
  if_neg fun hpos => hout (h.depths_pos.mp hpos)

theorem Ok.enter (h : th.Ok) (hpc : th.pc = .body) (name : ν) : (th.enter name).Ok := by
  by_cases hin : th.Inside name
  · rw [enter_inside h hin]
    refine ⟨fun other => ?_, ⟨?_, h.nested⟩, fun other ho => ?_⟩
    · show Function.update th.depths name (th.depths name + 1) other =
        openBlocks (⟨name, false⟩ :: th.blocks) other
      rw [openBlocks_cons]
      by_cases ho : other = name
      · rw [ho, Function.update_self, if_pos rfl, h.counted]
      · rw [Function.update_of_ne ho, if_neg fun e => ho e.symm]
        exact h.counted other
    · obtain ⟨c, hc, hname⟩ := hin
      exact iff_of_false Bool.noConfusion fun hall => hall c hc hname
    · rw [hpc] at ho
      cases ho
  · rw [enter_outside h hin]
    refine h.goto fun other ho => ?_
    cases ho
    exact hin

/-- A block inside a name leaves the thread inside the same names. -/
theorem inside_enter (h : th.Ok) {other : ν} : (th.enter name).Inside other ↔ th.Inside other := by
  by_cases hin : th.Inside name
  · rw [enter_inside h hin, inside_cons]
    refine ⟨fun h' => ?_, .inr⟩
    obtain rfl | h' := h'
    · exact hin
    · exact h'
  · rw [enter_outside h hin]
    rfl

section
variable {b : LockBlock ν} {bs : List (LockBlock ν)}

theorem leave_outermost (hb : th.blocks = b :: bs) (hout : b.outermost = true) :
    th.leave = ⟨Function.update th.depths b.name 0, bs, .dropFileLock b.name⟩ := by
  unfold leave
  rw [hb]
  exact if_pos hout

theorem leave_inner (hb : th.blocks = b :: bs) (hin : b.outermost = false) :
    th.leave = ⟨Function.update th.depths b.name (th.depths b.name - 1), bs, th.pc⟩ := by
  unfold leave
  rw [hb]
  exact if_neg (Bool.eq_false_iff.mp hin)

theorem Ok.leave (h : th.Ok) (hpc : th.pc = .body) : th.leave.Ok := by
  cases hb : th.blocks with
  | nil =>
    unfold LockThread.leave
    rw [hb]
    exact h
  | cons b bs =>
    have hnested := h.nested
    rw [hb] at hnested
    have hcount : ∀ other, th.depths other = openBlocks bs other + if b.name = other then 1 else 0 := by
      intro other
      rw [h.counted, hb, openBlocks_cons]
    cases hout : b.outermost with
    | true =>
      rw [leave_outermost hb hout]
      have hnone := hnested.1.mp hout
      refine ⟨fun other => ?_, hnested.2, fun other ho hin => ?_⟩
      · show Function.update th.depths b.name 0 other = openBlocks bs other
        by_cases ho : other = b.name
        · rw [ho, Function.update_self, openBlocks_eq_zero hnone]
        · rw [Function.update_of_ne ho, hcount, if_neg fun e => ho e.symm]
          rfl
      · cases ho
        obtain ⟨c, hc, hname⟩ := hin
        exact hnone c hc hname
    | false =>
      rw [leave_inner hb hout]
      refine ⟨fun other => ?_, hnested.2, fun other ho => ?_⟩
      · show Function.update th.depths b.name (th.depths b.name - 1) other = openBlocks bs other
        by_cases ho : other = b.name
        · rw [ho, Function.update_self, hcount, if_pos rfl]
          rfl
        · rw [Function.update_of_ne ho, hcount, if_neg fun e => ho e.symm]
          rfl
      · rw [hpc] at ho
        cases ho

/-- Leaving the outermost block on a name is what takes a thread out of it. -/
theorem inside_leave_outermost (h : th.Ok) (hb : th.blocks = b :: bs) (hout : b.outermost = true)
    {other : ν} : th.leave.Inside other ↔ th.Inside other ∧ other ≠ b.name := by
  have hnested := h.nested
  rw [hb] at hnested
  have hnone := hnested.1.mp hout
  rw [leave_outermost hb hout]
  unfold Inside
  rw [hb, List.exists_mem_cons_iff]
  refine ⟨fun hin => ⟨.inr hin, ?_⟩, fun ⟨hin, hne⟩ => hin.resolve_left fun e => hne e.symm⟩
  obtain ⟨c, hc, rfl⟩ := hin
  exact hnone c hc

theorem inside_leave_inner (h : th.Ok) (hb : th.blocks = b :: bs) (hin : b.outermost = false)
    {other : ν} : th.leave.Inside other ↔ th.Inside other := by
  have hnested := h.nested
  rw [hb] at hnested
  have hmore : ∃ c ∈ bs, c.name = b.name := by
    by_contra hnone
    have := hnested.1.mpr fun c hc e => hnone ⟨c, hc, e⟩
    rw [hin] at this
    cases this
  rw [leave_inner hb hin]
  unfold Inside
  rw [hb, List.exists_mem_cons_iff]
  refine ⟨.inr, fun h' => ?_⟩
  obtain rfl | h' := h'
  · exact hmore
  · exact h'

end

/-! ### The locks a thread needs -/

section
omit [DecidableEq ν]

@[simp] theorem inside_goto {pc : LockPc ν} :
    (⟨th.depths, th.blocks, pc⟩ : LockThread ν).Inside name ↔ th.Inside name := Iff.rfl

/-- A thread that is not inside the name is inside no other spelling of it. -/
theorem inside_iff_of_not {other : ν} (hout : ¬ th.Inside name) :
    th.Inside other ↔ (th.Inside other ∨ other = name) ∧ other ≠ name := by
  refine ⟨fun hin => ⟨.inl hin, ?_⟩, fun h => h.1.resolve_right h.2⟩
  intro e
  exact hout (e ▸ hin)

theorem needsFile_of_free (h : th.pc.hasFileLock = false) : th.NeedsFile name ↔ th.Inside name := by
  unfold NeedsFile
  rw [h]
  exact or_iff_left fun h' => Bool.false_ne_true h'.1

theorem needsThread_of_free (h : th.pc.hasThreadLock = false) :
    th.NeedsThread name ↔ th.Inside name := by
  unfold NeedsThread
  rw [h]
  exact or_iff_left fun h' => Bool.false_ne_true h'.1

theorem needsFile_at (name : ν) {other : ν} (hhas : th.pc.hasFileLock = true) (hname : th.pc.name? = some name) :
    th.NeedsFile other ↔ th.Inside other ∨ other = name := by
  unfold NeedsFile
  rw [hhas, hname, Option.some_inj, eq_comm (a := name)]
  exact or_congr_right (and_iff_right rfl)

theorem needsThread_at (name : ν) {other : ν} (hhas : th.pc.hasThreadLock = true)
    (hname : th.pc.name? = some name) : th.NeedsThread other ↔ th.Inside other ∨ other = name := by
  unfold NeedsThread
  rw [hhas, hname, Option.some_inj, eq_comm (a := name)]
  exact or_congr_right (and_iff_right rfl)

end

/-- Coming to a block takes no lock yet. -/
theorem enter_free (hpc : th.pc = .body) (name : ν) :
    (th.enter name).pc.hasFileLock = false ∧ (th.enter name).pc.hasThreadLock = false := by
  unfold enter
  by_cases h : 0 < th.depths name
  · rw [if_pos h]
    show th.pc.hasFileLock = false ∧ th.pc.hasThreadLock = false
    rw [hpc]
    exact ⟨rfl, rfl⟩
  · rw [if_neg h]
    exact ⟨rfl, rfl⟩

/-- A thread that leaves a block still needs the same locks: those of a name it is no longer
inside it is about to give back. -/
theorem needs_leave (h : th.Ok) (hpc : th.pc = .body) {other : ν} :
    (th.leave.NeedsFile other ↔ th.NeedsFile other) ∧
      (th.leave.NeedsThread other ↔ th.NeedsThread other) := by
  have hfile : th.NeedsFile other ↔ th.Inside other := needsFile_of_free (by rw [hpc]; rfl)
  have hthread : th.NeedsThread other ↔ th.Inside other := needsThread_of_free (by rw [hpc]; rfl)
  rw [hfile, hthread]
  cases hb : th.blocks with
  | nil =>
    have hsame : th.leave = th := by
      unfold LockThread.leave
      rw [hb]
    rw [hsame]
    exact ⟨hfile, hthread⟩
  | cons b bs =>
    cases hout : b.outermost with
    | true =>
      have hinside : (th.leave.Inside other ∨ other = b.name) ↔ th.Inside other := by
        rw [inside_leave_outermost h hb hout]
        refine ⟨fun h' => ?_, fun hin => ?_⟩
        · obtain h' | rfl := h'
          · exact h'.1
          · exact ⟨b, hb ▸ List.mem_cons_self, rfl⟩
        · by_cases ho : other = b.name
          · exact .inr ho
          · exact .inl ⟨hin, ho⟩
      have hpc' : th.leave.pc = .dropFileLock b.name := by rw [leave_outermost hb hout]
      rw [needsFile_at b.name (by rw [hpc']; rfl) (by rw [hpc']; rfl),
        needsThread_at b.name (by rw [hpc']; rfl) (by rw [hpc']; rfl)]
      exact ⟨hinside, hinside⟩
    | false =>
      have hpc' : th.leave.pc = .body := by
        rw [leave_inner hb hout]
        exact hpc
      rw [needsFile_of_free (by rw [hpc']; rfl), needsThread_of_free (by rw [hpc']; rfl)]
      exact ⟨inside_leave_inner h hb hout, inside_leave_inner h hb hout⟩

end LockThread

/-! ## All threads -/

namespace LockState

variable [DecidableEq τ] (proc : τ → π)

/-- Each thread keeps its counts, and each lock is with the thread that needs it. -/
structure Inv (s : LockState τ π ν) : Prop where
  threads : ∀ t, (s.threads t).Ok
  file : Owners s.fileLock fun t name => (s.threads t).NeedsFile name
  thread : Owners s.threadLock fun t key => proc t = key.1 ∧ (s.threads t).NeedsThread key.2

variable {proc} {s : LockState τ π ν} {t : τ} {th : LockThread ν}

omit [DecidableEq τ] in
theorem inv_start : (LockState.start : LockState τ π ν).Inv proc where
  threads _ := LockThread.ok_start
  file name t := by
    refine iff_of_false (Option.some_ne_none t).symm fun h => ?_
    obtain ⟨b, hb, -⟩ | h := h
    · cases hb
    · cases h.1
  thread key t := by
    refine iff_of_false (Option.some_ne_none t).symm fun h => ?_
    obtain ⟨b, hb, -⟩ | h := h.2
    · cases hb
    · cases h.1

omit [DecidableEq ν] in
/-- The needs of all threads once one of them has changed. -/
theorem needs_update {α : Type} (needs : τ → LockThread ν → α → Prop) :
    (fun u a => needs u (Function.update s.threads t th u) a) =
      Owners.withNeeds (fun u a => needs u (s.threads u) a) t (needs t th) := by
  funext u a
  unfold Owners.withNeeds
  by_cases hu : u = t
  · subst hu
    rw [Function.update_self, if_pos rfl]
  · rw [Function.update_of_ne hu, if_neg hu]

/-- One thread changes, and the locks with what it needs. -/
theorem Inv.change (hs : s.Inv proc) {fileLock : ν → Option τ} {threadLock : π × ν → Option τ}
    (hok : th.Ok)
    (hfile : Owners fileLock
      (Owners.withNeeds (fun u name => (s.threads u).NeedsFile name) t th.NeedsFile))
    (hthread : Owners threadLock
      (Owners.withNeeds (fun u key => proc u = key.1 ∧ (s.threads u).NeedsThread key.2) t
        fun key => proc t = key.1 ∧ th.NeedsThread key.2)) :
    (⟨threadLock, fileLock, Function.update s.threads t th⟩ : LockState τ π ν).Inv proc where
  threads u := by
    show (Function.update s.threads t th u).Ok
    by_cases hu : u = t
    · rw [hu, Function.update_self]
      exact hok
    · rw [Function.update_of_ne hu]
      exact hs.threads u
  file := by
    show Owners fileLock fun u name => (Function.update s.threads t th u).NeedsFile name
    rw [needs_update fun _ th name => th.NeedsFile name]
    exact hfile
  thread := by
    show Owners threadLock fun u key =>
      proc u = key.1 ∧ (Function.update s.threads t th u).NeedsThread key.2
    rw [needs_update fun u th (key : π × ν) => proc u = key.1 ∧ th.NeedsThread key.2]
    exact hthread

/-- A thread that needs the same locks as before. -/
theorem Inv.keep (hs : s.Inv proc) (hok : th.Ok)
    (hfile : ∀ name, th.NeedsFile name ↔ (s.threads t).NeedsFile name)
    (hthread : ∀ name, th.NeedsThread name ↔ (s.threads t).NeedsThread name) :
    (s.withThread t th).Inv proc :=
  hs.change hok (hs.file.keep hfile) (hs.thread.keep fun key => and_congr_right fun _ => hthread key.2)

theorem Inv.enter (hs : s.Inv proc) (hpc : (s.threads t).pc = .body) (name : ν) :
    (s.withThread t ((s.threads t).enter name)).Inv proc := by
  have hok := hs.threads t
  obtain ⟨hfile, hthread⟩ := LockThread.enter_free hpc name
  refine hs.keep (hok.enter hpc name) (fun other => ?_) fun other => ?_
  · rw [LockThread.needsFile_of_free hfile, LockThread.inside_enter hok,
      LockThread.needsFile_of_free (by rw [hpc]; rfl)]
  · rw [LockThread.needsThread_of_free hthread, LockThread.inside_enter hok,
      LockThread.needsThread_of_free (by rw [hpc]; rfl)]

theorem Inv.leave (hs : s.Inv proc) (hpc : (s.threads t).pc = .body) :
    (s.withThread t (s.threads t).leave).Inv proc :=
  hs.keep ((hs.threads t).leave hpc)
    (fun _ => (LockThread.needs_leave (hs.threads t) hpc).1)
    fun _ => (LockThread.needs_leave (hs.threads t) hpc).2

section
omit [DecidableEq ν] [DecidableEq τ]

/-- The thread lock is one of a pair of a process and a name. -/
theorem threadKey_iff {q r : ν → Prop} {name : ν} (h : ∀ other, q other ↔ r other ∨ other = name)
    (key : π × ν) :
    (proc t = key.1 ∧ q key.2) ↔ (proc t = key.1 ∧ r key.2) ∨ key = (proc t, name) := by
  rw [h, Prod.ext_iff, and_or_left, eq_comm (a := proc t)]

theorem threadKey_iff' {q r : ν → Prop} {name : ν} (h : ∀ other, q other ↔ r other ∧ other ≠ name)
    (key : π × ν) :
    (proc t = key.1 ∧ q key.2) ↔ (proc t = key.1 ∧ r key.2) ∧ key ≠ (proc t, name) := by
  rw [h, and_assoc]
  refine and_congr_right fun hproc => and_congr_right fun _ => not_congr ?_
  rw [Prod.ext_iff]
  exact (and_iff_right hproc.symm).symm

end

section
variable [DecidableEq π]

theorem Inv.advance (hs : s.Inv proc) (t : τ) : (s.advance proc t).Inv proc := by
  have hok := hs.threads t
  cases hpc : (s.threads t).pc with
  | body =>
    simp only [LockState.advance, hpc]
    exact hs
  | wantThreadLock name =>
    simp only [LockState.advance, hpc]
    have hout := hok.apart name (by rw [hpc]; rfl)
    split
    next hfree =>
      have hbefore : ∀ other, (s.threads t).NeedsThread other ↔ (s.threads t).Inside other :=
        fun _ => LockThread.needsThread_of_free (by rw [hpc]; rfl)
      refine hs.change (hok.goto fun other ho => ?_) (hs.file.keep fun other => ?_)
        (hs.thread.take hfree (threadKey_iff fun other => ?_))
      · cases ho
        exact hout
      · rw [LockThread.needsFile_of_free rfl, LockThread.needsFile_of_free (by rw [hpc]; rfl)]
        rfl
      · rw [LockThread.needsThread_at name rfl rfl, hbefore]
        rfl
    next => exact hs
  | wantFileLock name =>
    simp only [LockState.advance, hpc]
    have hout := hok.apart name (by rw [hpc]; rfl)
    split
    next hfree =>
      refine hs.change (hok.goto fun other ho => ?_) (hs.file.take hfree fun other => ?_)
        (hs.thread.keep fun key => and_congr_right fun _ => ?_)
      · cases ho
        exact hout
      · rw [LockThread.needsFile_at name rfl rfl,
          LockThread.needsFile_of_free (by rw [hpc]; rfl)]
        rfl
      · rw [LockThread.needsThread_at name rfl rfl,
          LockThread.needsThread_at name (by rw [hpc]; rfl) (by rw [hpc]; rfl)]
        rfl
    next => exact hs
  | haveBoth name =>
    simp only [LockState.advance, hpc]
    have hout := hok.apart name (by rw [hpc]; rfl)
    refine hs.keep (hok.begin hout) (fun other => ?_) fun other => ?_
    · rw [LockThread.needsFile_of_free rfl, LockThread.inside_begin,
        LockThread.needsFile_at name (by rw [hpc]; rfl) (by rw [hpc]; rfl), or_comm,
        eq_comm]
    · rw [LockThread.needsThread_of_free rfl, LockThread.inside_begin,
        LockThread.needsThread_at name (by rw [hpc]; rfl) (by rw [hpc]; rfl), or_comm,
        eq_comm]
  | dropFileLock name =>
    simp only [LockState.advance, hpc]
    have hout := hok.apart name (by rw [hpc]; rfl)
    have hbefore : ∀ other, (s.threads t).NeedsFile other ↔ (s.threads t).Inside other ∨ other = name :=
      fun _ => LockThread.needsFile_at name (by rw [hpc]; rfl) (by rw [hpc]; rfl)
    refine hs.change (hok.goto fun other ho => ?_)
      (hs.file.give ((hbefore name).mpr (.inr rfl)) fun other => ?_)
      (hs.thread.keep fun key => and_congr_right fun _ => ?_)
    · cases ho
      exact hout
    · rw [LockThread.needsFile_of_free rfl, hbefore]
      exact LockThread.inside_iff_of_not hout
    · rw [LockThread.needsThread_at name rfl rfl,
        LockThread.needsThread_at name (by rw [hpc]; rfl) (by rw [hpc]; rfl)]
      rfl
  | dropThreadLock name =>
    simp only [LockState.advance, hpc]
    have hout := hok.apart name (by rw [hpc]; rfl)
    have hbefore : ∀ other,
        (s.threads t).NeedsThread other ↔ (s.threads t).Inside other ∨ other = name :=
      fun _ => LockThread.needsThread_at name (by rw [hpc]; rfl) (by rw [hpc]; rfl)
    refine hs.change (hok.goto fun other ho => ?_) (hs.file.keep fun other => ?_)
      (hs.thread.give ⟨rfl, (hbefore name).mpr (.inr rfl)⟩ (threadKey_iff' fun other => ?_))
    · cases ho
    · rw [LockThread.needsFile_of_free rfl, LockThread.needsFile_of_free (by rw [hpc]; rfl)]
      rfl
    · rw [LockThread.needsThread_of_free rfl, hbefore]
      exact LockThread.inside_iff_of_not hout

omit [DecidableEq π] in
theorem Inv.fail (hs : s.Inv proc) (t : τ) : (s.fail t).Inv proc := by
  have hok := hs.threads t
  cases hpc : (s.threads t).pc with
  | body =>
    simp only [LockState.fail, hpc]
    exact hs
  | wantThreadLock name =>
    simp only [LockState.fail, hpc]
    refine hs.keep (hok.goto fun other ho => by cases ho) (fun other => ?_) fun other => ?_
    · rw [LockThread.needsFile_of_free rfl, LockThread.needsFile_of_free (by rw [hpc]; rfl)]
      rfl
    · rw [LockThread.needsThread_of_free rfl, LockThread.needsThread_of_free (by rw [hpc]; rfl)]
      rfl
  | wantFileLock name =>
    simp only [LockState.fail, hpc]
    refine hs.keep (hok.goto fun other ho => hok.apart other (by rw [hpc]; exact ho))
      (fun other => ?_) fun other => ?_
    · rw [LockThread.needsFile_of_free rfl, LockThread.needsFile_of_free (by rw [hpc]; rfl)]
      rfl
    · rw [LockThread.needsThread_at name rfl rfl,
        LockThread.needsThread_at name (by rw [hpc]; rfl) (by rw [hpc]; rfl)]
      rfl
  | haveBoth name =>
    simp only [LockState.fail, hpc]
    refine hs.keep (hok.goto fun other ho => hok.apart other (by rw [hpc]; exact ho))
      (fun other => ?_) fun other => ?_
    · rw [LockThread.needsFile_at name rfl rfl,
        LockThread.needsFile_at name (by rw [hpc]; rfl) (by rw [hpc]; rfl)]
      rfl
    · rw [LockThread.needsThread_at name rfl rfl,
        LockThread.needsThread_at name (by rw [hpc]; rfl) (by rw [hpc]; rfl)]
      rfl
  | dropFileLock _ =>
    simp only [LockState.fail, hpc]
    exact hs
  | dropThreadLock _ =>
    simp only [LockState.fail, hpc]
    exact hs

theorem Inv.step (hs : s.Inv proc) (e : LockEvent τ ν) : (s.step proc e).Inv proc := by
  cases e with
  | enter t name =>
    simp only [LockState.step]
    split
    next hpc => exact hs.enter hpc name
    next => exact hs
  | advance t => exact hs.advance t
  | leave t raised =>
    simp only [LockState.step]
    split
    next hpc => exact hs.leave hpc
    next => exact hs
  | fail t => exact hs.fail t

variable (proc s) in
/-- What an event does to a thread: nothing, or it goes to another place in the code of the
lock; or it comes to a block, begins one or leaves one. -/
theorem step_thread (e : LockEvent τ ν) (t : τ) :
    (∃ pc, (s.step proc e).threads t = { s.threads t with pc := pc }) ∨
    (∃ name, e = .enter t name ∧ (s.threads t).pc = .body ∧
      (s.step proc e).threads t = (s.threads t).enter name) ∨
    (∃ name, (s.step proc e).threads t = (s.threads t).begin name) ∨
    (∃ raised, e = .leave t raised ∧ (s.threads t).pc = .body ∧
      (s.step proc e).threads t = (s.threads t).leave) := by
  have hsame : ∀ {s' : LockState τ π ν}, s'.threads t = s.threads t →
      ∃ pc, s'.threads t = { s.threads t with pc := pc } :=
    fun h => ⟨(s.threads t).pc, h⟩
  have hother : ∀ {u : τ} {th : LockThread ν}, u ≠ t →
      Function.update s.threads u th t = s.threads t :=
    fun hu => Function.update_of_ne (Ne.symm hu) ..
  cases e with
  | enter u name =>
    simp only [LockState.step]
    split
    next hpc =>
      by_cases hu : u = t
      · subst hu
        exact .inr (.inl ⟨name, rfl, hpc, Function.update_self ..⟩)
      · exact .inl (hsame (hother hu))
    next => exact .inl (hsame rfl)
  | leave u raised =>
    simp only [LockState.step]
    split
    next hpc =>
      by_cases hu : u = t
      · subst hu
        exact .inr (.inr (.inr ⟨raised, rfl, hpc, Function.update_self ..⟩))
      · exact .inl (hsame (hother hu))
    next => exact .inl (hsame rfl)
  | advance u =>
    by_cases hu : u = t
    · subst hu
      cases hpc : (s.threads u).pc with
      | body =>
        simp only [LockState.step, LockState.advance, hpc]
        exact .inl (hsame rfl)
      | wantThreadLock name | wantFileLock name =>
        simp only [LockState.step, LockState.advance, hpc]
        split
        next => exact .inl ⟨_, Function.update_self ..⟩
        next => exact .inl (hsame rfl)
      | haveBoth name =>
        simp only [LockState.step, LockState.advance, hpc]
        exact .inr (.inr (.inl ⟨name, Function.update_self ..⟩))
      | dropFileLock name | dropThreadLock name =>
        simp only [LockState.step, LockState.advance, hpc]
        exact .inl ⟨_, Function.update_self ..⟩
    · refine .inl (hsame ?_)
      simp only [LockState.step, LockState.advance]
      split <;> first | rfl | exact hother hu | (split <;> first | rfl | exact hother hu)
  | fail u =>
    by_cases hu : u = t
    · subst hu
      cases hpc : (s.threads u).pc with
      | body | dropFileLock _ | dropThreadLock _ =>
        simp only [LockState.step, LockState.fail, hpc]
        exact .inl (hsame rfl)
      | wantThreadLock name | wantFileLock name | haveBoth name =>
        simp only [LockState.step, LockState.fail, hpc]
        exact .inl ⟨_, Function.update_self ..⟩
    · refine .inl (hsame ?_)
      simp only [LockState.step, LockState.fail]
      split <;> first | rfl | exact hother hu

/-- A thread that is inside a name and then is not has left its outermost block on it, and
turned to giving the name back. -/
theorem Inv.left (hs : s.Inv proc) (e : LockEvent τ ν) {t : τ} {name : ν}
    (hin : (s.threads t).Inside name) (hout : ¬ ((s.step proc e).threads t).Inside name) :
    (∃ raised, e = .leave t raised) ∧ openBlocks (s.threads t).blocks name = 1 ∧
      ((s.step proc e).threads t).pc = .dropFileLock name := by
  have hok := hs.threads t
  obtain ⟨pc, h⟩ | ⟨other, -, -, h⟩ | ⟨other, h⟩ | ⟨raised, he, hpc, h⟩ :=
    step_thread proc s e t
  · rw [h] at hout
    exact absurd hin hout
  · rw [h, LockThread.inside_enter hok] at hout
    exact absurd hin hout
  · rw [h, LockThread.inside_begin] at hout
    exact absurd (.inr hin) hout
  · rw [h] at hout ⊢
    cases hb : (s.threads t).blocks with
    | nil =>
      obtain ⟨b, hmem, -⟩ := hin
      rw [hb] at hmem
      cases hmem
    | cons b bs =>
      cases houter : b.outermost with
      | false =>
        rw [LockThread.inside_leave_inner hok hb houter] at hout
        exact absurd hin hout
      | true =>
        have hname : name = b.name := by
          by_contra hne
          exact hout ((LockThread.inside_leave_outermost hok hb houter).mpr ⟨hin, hne⟩)
        subst hname
        have hnested := hok.nested
        rw [hb] at hnested
        refine ⟨⟨raised, he⟩, ?_, by rw [LockThread.leave_outermost hb houter]⟩
        rw [openBlocks_cons, openBlocks_eq_zero (hnested.1.mp houter), if_pos rfl]

variable (proc) in
/-- What an event has to keep. After it, at most one thread is inside a name
(`alone`), `paper_lock_held` says who (`counted`), no thread waits for a name it is inside
(`no_wait`), and who is inside has both locks (`held`). A block on a name the thread is
inside begins at once (`enters`). A thread gets out of a name by leaving its outermost block
on it and in no other way (`left`), it gives the name back exactly then (`released`), and
that does not wait (`gives_file`, `gives_thread`). -/
structure Guarded (s : LockState τ π ν) (e : LockEvent τ ν) : Prop where
  alone : ∀ name t u, ((s.step proc e).threads t).Inside name →
    ((s.step proc e).threads u).Inside name → t = u
  counted : ∀ t name, ((s.step proc e).threads t).paperLockHeld name ↔
    ((s.step proc e).threads t).Inside name
  no_wait : ∀ t name, ((s.step proc e).threads t).Waits name →
    ¬ ((s.step proc e).threads t).Inside name
  held : ∀ t name, ((s.step proc e).threads t).Inside name →
    (s.step proc e).fileLock name = some t ∧ (s.step proc e).threadLock (proc t, name) = some t
  enters : ∀ t name, e = .enter t name → (s.threads t).pc = .body → (s.threads t).Inside name →
    ((s.step proc e).threads t).pc = .body ∧
      ((s.step proc e).threads t).blocks = ⟨name, false⟩ :: (s.threads t).blocks
  left : ∀ t name, (s.threads t).Inside name → ¬ ((s.step proc e).threads t).Inside name →
    (∃ raised, e = .leave t raised) ∧ openBlocks (s.threads t).blocks name = 1
  released : ∀ t name, (s.threads t).Inside name →
    (((s.step proc e).threads t).pc = .dropFileLock name ↔
      ¬ ((s.step proc e).threads t).Inside name)
  gives_file : ∀ t name, e = .advance t → (s.threads t).pc = .dropFileLock name →
    (s.step proc e).fileLock name = none ∧
      ((s.step proc e).threads t).pc = .dropThreadLock name
  gives_thread : ∀ t name, e = .advance t → (s.threads t).pc = .dropThreadLock name →
    (s.step proc e).threadLock (proc t, name) = none ∧ ((s.step proc e).threads t).pc = .body

theorem Inv.guarded (hs : s.Inv proc) (e : LockEvent τ ν) : s.Guarded proc e where
  alone name t u ht hu := (hs.step e).file.unique (.inl ht) (.inl hu)
  counted t name := ((hs.step e).threads t).depths_pos
  no_wait t name hwait := by
    refine ((hs.step e).threads t).apart name ?_
    obtain h | h := hwait
    · rw [h]
      rfl
    · rw [h]
      rfl
  held t name hin :=
    ⟨((hs.step e).file name t).mpr (.inl hin), ((hs.step e).thread (proc t, name) t).mpr ⟨rfl, .inl hin⟩⟩
  enters t name he hpc hin := by
    subst he
    simp only [LockState.step, hpc]
    have hth : (s.withThread t ((s.threads t).enter name)).threads t = (s.threads t).enter name :=
      Function.update_self ..
    rw [hth, LockThread.enter_inside (hs.threads t) hin]
    exact ⟨hpc, rfl⟩
  left t name hin hout := ⟨(hs.left e hin hout).1, (hs.left e hin hout).2.1⟩
  released t name hin := by
    refine ⟨fun hpc => ((hs.step e).threads t).apart name ?_, fun hout => (hs.left e hin hout).2.2⟩
    rw [hpc]
    rfl
  gives_file t name he hpc := by
    subst he
    simp only [LockState.step, LockState.advance, hpc]
    refine ⟨Function.update_self .., ?_⟩
    show (Function.update s.threads t _ t).pc = _
    rw [Function.update_self]
  gives_thread t name he hpc := by
    subst he
    simp only [LockState.step, LockState.advance, hpc]
    refine ⟨Function.update_self .., ?_⟩
    show (Function.update s.threads t _ t).pc = _
    rw [Function.update_self]

/-- In every interleaving of the threads of any processes, with blocks on any names, nested to
any depth and left by an exception or not: at most one thread is inside a name, none waits
for a name it is inside, and a name is given back when its thread leaves the outermost block
on it, and not before. -/
theorem state_lock_excludes (proc : τ → π) (events : List (LockEvent τ ν)) :
    Along (LockState.step proc) (LockState.Guarded proc) LockState.start events :=
  along_of_inv (I := LockState.Inv proc) (C := fun _ _ => True)
    (fun _ e hs _ => ⟨hs.guarded e, hs.step e⟩) events inv_start (along_of_forall (fun _ _ => trivial) _)

end

end LockState

end

end PaperTrading.Trading
