import Mathlib.Data.Int.Notation
import Mathlib.Data.List.Nodup
import PaperTrading.Lib.Entries
import PaperTrading.Lib.Runs

/-!
# The connection pool of the candle store

`CandlePool` of `data/candle_store.py`: `connection`, `_checkout`, `_checkin`, `_retire`
and `close`, by any number of borrowers. What runs under the pool's lock is one step; the
driver's work (connecting, the test of an idle connection, the borrower's own statements)
lies between steps and may raise.

A counter stands beside the list of idle connections. In every run the two never exceed
the maximum, no connection has two borrowers and none that was given up is lent again
(`pool_safe`). A slot comes back when the borrower's exception is an `Exception`; the
handlers do not see the others (`KeyboardInterrupt`, `SystemExit`, `GeneratorExit`), and
the slot is then gone for good (`pool_coherent_iff`, `stranded_stays`).
-/

namespace PaperTrading.Data

open PaperTrading.Lib

/-- `POOL_MAX_CAP` -/
def POOL_MAX_CAP : ℕ := 2

/-- A connection, by the order in which the driver made it. -/
abbrev Conn := ℕ

/-- How a call of the driver, or the borrower's block, ends. -/
inductive Ends where
  | returns
  /-- It raises an `Exception`. -/
  | error
  /-- It raises what is a `BaseException` only. -/
  | interrupt
deriving DecidableEq

/-- `CandlePool` -/
structure CandlePool where
  max : ℕ
  idle : List Conn := []
  out : ℕ := 0
  closed : Bool := false
deriving DecidableEq

/-- `CandlePool.__init__` -/
def CandlePool.new (maxSize : ℤ) : Except String CandlePool :=
  if maxSize < 1 ∨ maxSize > POOL_MAX_CAP then
    .error s!"paperbot pool max_size must be 1 or 2, got {maxSize}"
  else .ok { max := maxSize.toNat }

/-- Where a call of `connection()` stands. -/
inductive Phase where
  /-- In `_checkout`, without a slot. -/
  | waiting
  /-- It has a slot and connects. -/
  | spawning
  /-- It has a slot and tests the idle connection it took. -/
  | testing (c : Conn)
  /-- Its borrower has the connection. -/
  | holding (c : Conn)
  /-- It is over, and its slot, if it had one, was counted back. -/
  | left
  /-- It is over, and its slot was not. -/
  | stranded
deriving DecidableEq

namespace Phase

/-- The call is under way and counted in `_out`. -/
def hasSlot : Phase → Bool
  | spawning | testing _ | holding _ => true
  | _ => false

def isStranded : Phase → Bool
  | stranded => true
  | _ => false

/-- The connection the call has taken. -/
def conn? : Phase → Option Conn
  | testing c | holding c => some c
  | _ => none

end Phase

/-- The pool, the calls made so far, and the connections: `next` is the one the driver
makes next, `gone` are those that left the pool (retired, closed, or never returned). -/
structure World where
  pool : CandlePool
  calls : List Phase := []
  next : Conn := 0
  gone : List Conn := []
deriving DecidableEq

/-- Call `i` takes a step; a timer retires a connection; the pool is closed. -/
inductive Event where
  /-- A borrower enters `connection()`. -/
  | call
  /-- The locked part of `_checkout`; `late` when the deadline has passed. -/
  | checkout (i : ℕ) (late : Bool)
  /-- `self._prepare(self._connect())` -/
  | connect (i : ℕ) (ends : Ends)
  /-- `SELECT 1` and the rollback; `closing` is how closing a bad connection ends. -/
  | test (i : ℕ) (ends closing : Ends)
  /-- The borrower's block ends, with the commit or the rollback after it; `isClosed` is
  the connection's own flag. -/
  | exit (i : ℕ) (block commit rollback : Ends) (isClosed : Bool)
  | retire (c : Conn)
  | close

namespace World

/-- A new pool. -/
def start (max : ℕ) : World := { pool := { max := max } }

/-- Call `i` goes on to phase `ph`. -/
def move (w : World) (i : ℕ) (ph : Phase) : World := { w with calls := w.calls.set i ph }

/-- `_checkout`, the part under the lock. -/
def checkout (w : World) (i : ℕ) (late : Bool) : World :=
  if w.pool.closed then w.move i .left
  else
    match w.pool.idle.getLast? with
    | some c =>
      { w.move i (.testing c) with
        pool := { w.pool with idle := w.pool.idle.dropLast, out := w.pool.out + 1 } }
    | none =>
      if w.pool.out < w.pool.max then
        { w.move i .spawning with pool := { w.pool with out := w.pool.out + 1 } }
      else if late then w.move i .left
      else w

/-- The handlers of `_checkout` and `_checkin`: the slot is counted back. -/
def giveBack (w : World) (i : ℕ) : World :=
  { w.move i .left with pool := { w.pool with out := w.pool.out - 1 } }

/-- `_connect` and `_prepare`, in `_checkout`. -/
def connect (w : World) (i : ℕ) : Ends → World
  | .returns => { w.move i (.holding w.next) with next := w.next + 1 }
  | .error => { w.giveBack i with next := w.next + 1 }
  | .interrupt => { w.move i .stranded with next := w.next + 1 }

/-- The test of an idle connection, in `_checkout`. -/
def test (w : World) (i : ℕ) (c : Conn) (ends closing : Ends) : World :=
  match ends with
  | .returns => w.move i (.holding c)
  | .error =>
    { w.move i (if closing = .interrupt then .stranded else .spawning) with gone := c :: w.gone }
  | .interrupt => { w.move i .stranded with gone := c :: w.gone }

/-- `_checkin` -/
def checkin (w : World) (i : ℕ) (c : Conn) (broken isClosed : Bool) : World :=
  if w.pool.closed || broken || isClosed then { w.giveBack i with gone := c :: w.gone }
  else
    { w.giveBack i with
      pool := { w.pool with out := w.pool.out - 1, idle := w.pool.idle ++ [c] } }

/-- How `yield conn; conn.commit()` ends. -/
def blockEnds (block commit : Ends) : Ends := if block = .returns then commit else block

/-- The end of `connection`. -/
def exit (w : World) (i : ℕ) (c : Conn) (block commit rollback : Ends) (isClosed : Bool) : World :=
  match blockEnds block commit with
  | .returns => w.checkin i c false isClosed
  | .error =>
    if rollback = .interrupt then { w.move i .stranded with gone := c :: w.gone }
    else w.checkin i c true isClosed
  | .interrupt => { w.move i .stranded with gone := c :: w.gone }

/-- `_retire` -/
def retire (w : World) (c : Conn) : World :=
  if c ∈ w.pool.idle then
    { w with pool := { w.pool with idle := w.pool.idle.erase c }, gone := c :: w.gone }
  else w

/-- `close` -/
def close (w : World) : World :=
  { w with
    pool := { w.pool with closed := true, idle := [] }
    gone := w.pool.idle ++ w.gone }

end World

/-- One step. A step of a call that is not at that point changes nothing. -/
def step (w : World) : Event → World
  | .call => { w with calls := w.calls ++ [.waiting] }
  | .checkout i late => if w.calls[i]? = some .waiting then w.checkout i late else w
  | .connect i ends => if w.calls[i]? = some .spawning then w.connect i ends else w
  | .test i ends closing =>
    match w.calls[i]? with
    | some (.testing c) => w.test i c ends closing
    | _ => w
  | .exit i block commit rollback isClosed =>
    match w.calls[i]? with
    | some (.holding c) => w.exit i c block commit rollback isClosed
    | _ => w
  | .retire c => w.retire c
  | .close => w.close

/-! ## What the claim asks -/

/-- The connections that calls have taken, one entry for each call that has one. -/
def World.lent (w : World) : List Conn := w.calls.filterMap Phase.conn?

/-- The calls that have a slot. -/
def World.inside (w : World) : ℕ := w.calls.countP Phase.hasSlot

/-- The calls that are over and still counted. -/
def World.stranded (w : World) : ℕ := w.calls.countP Phase.isStranded

structure Safe (w : World) : Prop where
  /-- Lent and idle connections together stay within the maximum. -/
  bounded : w.inside + w.pool.idle.length ≤ w.pool.max
  /-- No connection is lent twice. -/
  once : w.lent.Nodup
  /-- No connection that left the pool is lent. -/
  retired : ∀ c ∈ w.gone, c ∉ w.lent

/-- `Safe`, and every slot that is taken is the slot of a call under way. -/
structure Coherent (w : World) : Prop extends Safe w where
  returned : w.pool.out = w.inside

/-- The step ends a call that has a slot with an exception the handlers do not see. -/
def Escapes (w : World) : Event → Prop
  | .connect i ends => w.calls[i]? = some .spawning ∧ ends = .interrupt
  | .test i ends closing =>
    (∃ c, w.calls[i]? = some (.testing c)) ∧
      (ends = .interrupt ∨ ends = .error ∧ closing = .interrupt)
  | .exit i block commit rollback _ =>
    (∃ c, w.calls[i]? = some (.holding c)) ∧
      (World.blockEnds block commit = .interrupt ∨
        World.blockEnds block commit = .error ∧ rollback = .interrupt)
  | _ => False

/-! ## One call moves -/

theorem countP_move {p : Phase → Bool} {l : List Phase} {i : ℕ} {a b : Phase}
    (h : l[i]? = some a) :
    (l.set i b).countP p + (if p a then 1 else 0) = l.countP p + (if p b then 1 else 0) :=
  countP_set_entry h

theorem lent_move {l : List Phase} {i : ℕ} {a b : Phase} (h : l[i]? = some a) :
    (a.conn?.toList ++ (l.set i b).filterMap Phase.conn?).Perm
      (b.conn?.toList ++ l.filterMap Phase.conn?) :=
  filterMap_set_entry h

/-- What every state of the pool keeps: the counter counts the calls with a slot and the
stranded ones, and every connection is in one place. -/
structure Books (w : World) : Prop where
  count : w.pool.out = w.inside + w.stranded
  cap : w.pool.out + w.pool.idle.length ≤ w.pool.max
  apart : (w.lent ++ (w.pool.idle ++ w.gone)).Nodup
  made : ∀ c ∈ w.lent ++ (w.pool.idle ++ w.gone), c < w.next

theorem books_start (max : ℕ) : Books (World.start max) where
  count := rfl
  cap := Nat.zero_le max
  apart := List.nodup_nil
  made := fun _ hc => absurd hc List.not_mem_nil

theorem Books.safe {w : World} (h : Books w) : Safe w where
  bounded := by
    have hcount := h.count
    have hcap := h.cap
    omega
  once := h.apart.of_append_left
  retired := fun c hc hl =>
    (List.nodup_append'.mp h.apart).2.2 hl (List.mem_append_right _ hc)

/-- A call's move keeps the books when the counter follows its slot and the connections
only change places, but for one that is new. -/
theorem Books.moved {w w' : World} {i : ℕ} {a b : Phase} (h : Books w)
    (hi : w.calls[i]? = some a) (hcalls : w'.calls = w.calls.set i b)
    (hout : w'.pool.out + (if a.hasSlot then 1 else 0) + (if a.isStranded then 1 else 0) =
      w.pool.out + (if b.hasSlot then 1 else 0) + (if b.isStranded then 1 else 0))
    (hcap : w'.pool.out + w'.pool.idle.length ≤ w'.pool.max) (hnext : w.next ≤ w'.next)
    (fresh : Option Conn) (hfresh : ∀ c ∈ fresh, c = w.next ∧ c < w'.next)
    (hplaces : (b.conn?.toList ++ (w'.pool.idle ++ w'.gone)).Perm
      (fresh.toList ++ (a.conn?.toList ++ (w.pool.idle ++ w.gone)))) : Books w' := by
  have hlent : (a.conn?.toList ++ w'.lent).Perm (b.conn?.toList ++ w.lent) := by
    unfold World.lent
    rw [hcalls]
    exact lent_move hi
  have hall : (w'.lent ++ (w'.pool.idle ++ w'.gone)).Perm
      (fresh.toList ++ (w.lent ++ (w.pool.idle ++ w.gone))) := by
    rw [List.perm_iff_count] at hlent hplaces ⊢
    intro c
    have h₁ := hlent c
    have h₂ := hplaces c
    simp only [List.count_append] at h₁ h₂ ⊢
    omega
  refine ⟨?_, hcap, ?_, ?_⟩
  · have hslots := countP_move (p := Phase.hasSlot) (b := b) hi
    have hlost := countP_move (p := Phase.isStranded) (b := b) hi
    have hcount := h.count
    unfold World.inside World.stranded at hcount ⊢
    rw [hcalls]
    omega
  · refine hall.nodup_iff.mpr (List.nodup_append'.mpr ⟨?_, h.apart, ?_⟩)
    · cases fresh with
      | none => exact List.nodup_nil
      | some c => exact List.nodup_singleton c
    · intro c hc hold
      have hnew := (hfresh c (Option.mem_toList.mp hc)).1
      exact absurd (h.made c hold) (hnew ▸ Nat.lt_irrefl w.next)
  · intro c hc
    rcases List.mem_append.mp (hall.mem_iff.mp hc) with hnew | hold
    · exact (hfresh c (Option.mem_toList.mp hnew)).2
    · exact Nat.lt_of_lt_of_le (h.made c hold) hnext

/-! ## The steps -/

section
variable {w : World} {i : ℕ} {c : Conn}

/-- A call that is under way has one of the slots that are counted. -/
theorem Books.out_pos (h : Books w) {a : Phase} (hi : w.calls[i]? = some a)
    (ha : a.hasSlot = true) : 0 < w.pool.out := by
  have hpos : 0 < w.inside := List.countP_pos_iff.mpr ⟨a, List.mem_of_getElem? hi, ha⟩
  have hcount := h.count
  omega

theorem books_checkout (h : Books w) (hi : w.calls[i]? = some .waiting) (late : Bool) :
    Books (w.checkout i late) := by
  have hcap := h.cap
  unfold World.checkout
  split
  next => exact h.moved hi rfl rfl hcap (Nat.le_refl _) none (by simp) (.refl _)
  next =>
    split
    next c hidle =>
      -- the connection taken is the last idle one
      have hlast := List.getLast?_eq_some_iff.mp hidle
      obtain ⟨rest, hrest⟩ := hlast
      have hlen : w.pool.idle.length = rest.length + 1 := by
        rw [hrest, List.length_append, List.length_singleton]
      refine h.moved hi rfl rfl ?_ (Nat.le_refl _) none (by simp) ?_
      · show w.pool.out + 1 + w.pool.idle.dropLast.length ≤ w.pool.max
        rw [List.length_dropLast]
        omega
      · show ([c] ++ (w.pool.idle.dropLast ++ w.gone)).Perm ([] ++ ([] ++ (w.pool.idle ++ w.gone)))
        rw [hrest, List.dropLast_concat, List.append_assoc]
        have hmiddle : (rest ++ c :: w.gone).Perm (c :: (rest ++ w.gone)) := List.perm_middle
        exact hmiddle.symm
    next hidle =>
      have hnil := List.getLast?_eq_none_iff.mp hidle
      split
      next hlt =>
        refine h.moved hi rfl rfl ?_ (Nat.le_refl _) none (by simp) (.refl _)
        show w.pool.out + 1 + w.pool.idle.length ≤ w.pool.max
        rw [hnil, List.length_nil]
        omega
      next =>
        split
        next => exact h.moved hi rfl rfl hcap (Nat.le_refl _) none (by simp) (.refl _)
        next => exact h

theorem books_connect (h : Books w) (hi : w.calls[i]? = some .spawning) (ends : Ends) :
    Books (w.connect i ends) := by
  have hcap := h.cap
  have hpos := h.out_pos hi rfl
  cases ends with
  | returns =>
    refine h.moved hi rfl rfl hcap (Nat.le_succ _) (some w.next) ?_ (.refl _)
    intro c hc
    obtain rfl := Option.mem_some_iff.mp hc
    exact ⟨rfl, Nat.lt_succ_self _⟩
  | error =>
    refine h.moved hi rfl ?_ ?_ (Nat.le_succ _) none (by simp) (.refl _)
    · exact Nat.sub_add_cancel hpos
    · exact Nat.le_trans (Nat.add_le_add_right (Nat.sub_le _ 1) _) hcap
  | interrupt => exact h.moved hi rfl rfl hcap (Nat.le_succ _) none (by simp) (.refl _)

theorem books_test (h : Books w) (hi : w.calls[i]? = some (.testing c)) (ends closing : Ends) :
    Books (w.test i c ends closing) := by
  have hcap := h.cap
  cases ends with
  | returns => exact h.moved hi rfl rfl hcap (Nat.le_refl _) none (by simp) (.refl _)
  | error =>
    unfold World.test
    by_cases hclosing : closing = .interrupt
    · rw [if_pos hclosing]
      exact h.moved hi rfl rfl hcap (Nat.le_refl _) none (by simp) List.perm_middle
    · rw [if_neg hclosing]
      exact h.moved hi rfl rfl hcap (Nat.le_refl _) none (by simp) List.perm_middle
  | interrupt => exact h.moved hi rfl rfl hcap (Nat.le_refl _) none (by simp) List.perm_middle

theorem books_strand (h : Books w) (hi : w.calls[i]? = some (.holding c)) :
    Books { w.move i .stranded with gone := c :: w.gone } :=
  h.moved hi rfl rfl h.cap (Nat.le_refl _) none (by simp) List.perm_middle

theorem books_checkin (h : Books w) (hi : w.calls[i]? = some (.holding c))
    (broken isClosed : Bool) : Books (w.checkin i c broken isClosed) := by
  have hcap := h.cap
  have hpos := h.out_pos hi rfl
  have hback : w.pool.out - 1 + 1 = w.pool.out := Nat.sub_add_cancel hpos
  unfold World.checkin
  split
  next =>
    refine h.moved hi rfl hback ?_ (Nat.le_refl _) none (by simp) List.perm_middle
    exact Nat.le_trans (Nat.add_le_add_right (Nat.sub_le _ 1) _) hcap
  next =>
    refine h.moved hi rfl hback ?_ (Nat.le_refl _) none (by simp) ?_
    · show w.pool.out - 1 + (w.pool.idle ++ [c]).length ≤ w.pool.max
      rw [List.length_append, List.length_singleton]
      omega
    · show (w.pool.idle ++ [c] ++ w.gone).Perm ([c] ++ (w.pool.idle ++ w.gone))
      rw [List.append_assoc]
      exact List.perm_middle

theorem books_exit (h : Books w) (hi : w.calls[i]? = some (.holding c))
    (block commit rollback : Ends) (isClosed : Bool) :
    Books (w.exit i c block commit rollback isClosed) := by
  unfold World.exit
  cases World.blockEnds block commit with
  | returns => exact books_checkin h hi false isClosed
  | error =>
    show Books (if rollback = .interrupt then _ else _)
    by_cases hroll : rollback = .interrupt
    · rw [if_pos hroll]
      exact books_strand h hi
    · rw [if_neg hroll]
      exact books_checkin h hi true isClosed
  | interrupt => exact books_strand h hi

/-- A step of the pool itself takes connections from the idle list only. -/
theorem Books.emptied {w' : World} (h : Books w) (hcalls : w'.calls = w.calls)
    (hout : w'.pool.out = w.pool.out) (hmax : w'.pool.max = w.pool.max)
    (hidle : w'.pool.idle.length ≤ w.pool.idle.length) (hnext : w'.next = w.next)
    (hplaces : (w'.pool.idle ++ w'.gone).Perm (w.pool.idle ++ w.gone)) : Books w' := by
  have hall : (w'.lent ++ (w'.pool.idle ++ w'.gone)).Perm
      (w.lent ++ (w.pool.idle ++ w.gone)) := by
    unfold World.lent
    rw [hcalls]
    exact hplaces.append_left _
  refine ⟨?_, ?_, hall.nodup_iff.mpr h.apart, ?_⟩
  · have hcount := h.count
    unfold World.inside World.stranded at hcount ⊢
    rw [hcalls, hout, hcount]
  · have hcap := h.cap
    omega
  · intro c hc
    rw [hnext]
    exact h.made c (hall.mem_iff.mp hc)

theorem books_retire (h : Books w) (c : Conn) : Books (w.retire c) := by
  unfold World.retire
  split
  next hc =>
    refine h.emptied rfl rfl rfl (List.length_erase_le ..) rfl ?_
    show (w.pool.idle.erase c ++ c :: w.gone).Perm (w.pool.idle ++ w.gone)
    exact List.perm_middle.trans ((List.perm_cons_erase hc).symm.append_right w.gone)
  next => exact h

theorem books_close (h : Books w) : Books w.close :=
  h.emptied rfl rfl rfl (Nat.zero_le _) rfl (.refl _)

theorem books_call (h : Books w) : Books (step w .call) := by
  refine ⟨?_, h.cap, ?_, ?_⟩
  · have hcount := h.count
    unfold World.inside World.stranded at hcount ⊢
    show w.pool.out = (w.calls ++ [Phase.waiting]).countP _ + (w.calls ++ [Phase.waiting]).countP _
    rw [List.countP_append, List.countP_append]
    exact hcount
  · show (((w.calls ++ [Phase.waiting]).filterMap Phase.conn?) ++ _).Nodup
    rw [List.filterMap_append]
    exact (List.append_nil w.lent).symm ▸ h.apart
  · show ∀ c ∈ ((w.calls ++ [Phase.waiting]).filterMap Phase.conn?) ++ _, _
    rw [List.filterMap_append]
    exact (List.append_nil w.lent).symm ▸ h.made

end

/-- Every step keeps the books. -/
theorem books_step (w : World) (e : Event) (h : Books w) : Books (step w e) := by
  cases e with
  | call => exact books_call h
  | checkout i late =>
    show Books (if _ then _ else _)
    split
    next hi => exact books_checkout h hi late
    next => exact h
  | connect i ends =>
    show Books (if _ then _ else _)
    split
    next hi => exact books_connect h hi ends
    next => exact h
  | test i ends closing =>
    show Books (match w.calls[i]? with
      | some (.testing c) => w.test i c ends closing
      | _ => w)
    split
    next c hi => exact books_test h hi ends closing
    next => exact h
  | exit i block commit rollback isClosed =>
    show Books (match w.calls[i]? with
      | some (.holding c) => w.exit i c block commit rollback isClosed
      | _ => w)
    split
    next c hi => exact books_exit h hi block commit rollback isClosed
    next => exact h
  | retire c => exact books_retire h c
  | close => exact books_close h

/-! ## Slots that are not returned -/

section
variable {w w' : World} {i : ℕ} {a : Phase} {c : Conn}

theorem stranded_moved (b : Phase) (hi : w.calls[i]? = some a) (ha : a.isStranded = false)
    (hcalls : w'.calls = w.calls.set i b) :
    w'.stranded = w.stranded + (if b.isStranded then 1 else 0) := by
  have hmove := countP_move (p := Phase.isStranded) (b := b) hi
  rw [ha] at hmove
  unfold World.stranded
  rw [hcalls]
  exact hmove

theorem checkin_calls (w : World) (i : ℕ) (c : Conn) (broken isClosed : Bool) :
    (w.checkin i c broken isClosed).calls = w.calls.set i .left := by
  unfold World.checkin
  split
  next => rfl
  next => rfl

theorem stranded_checkout (hi : w.calls[i]? = some .waiting) (late : Bool) :
    (w.checkout i late).stranded = w.stranded := by
  unfold World.checkout
  split
  next => exact stranded_moved .left hi rfl rfl
  next =>
    split
    next c _ => exact stranded_moved (.testing c) hi rfl rfl
    next =>
      split
      next => exact stranded_moved .spawning hi rfl rfl
      next =>
        split
        next => exact stranded_moved .left hi rfl rfl
        next => rfl

theorem stranded_connect (hi : w.calls[i]? = some .spawning) (ends : Ends) :
    (w.connect i ends).stranded = w.stranded + (if ends = .interrupt then 1 else 0) := by
  cases ends with
  | returns => exact stranded_moved (.holding w.next) hi rfl rfl
  | error => exact stranded_moved .left hi rfl rfl
  | interrupt => exact stranded_moved .stranded hi rfl rfl

theorem stranded_test (hi : w.calls[i]? = some (.testing c)) (ends closing : Ends) :
    (w.test i c ends closing).stranded = w.stranded +
      (if ends = .interrupt ∨ ends = .error ∧ closing = .interrupt then 1 else 0) := by
  cases ends with
  | returns => exact stranded_moved (.holding c) hi rfl rfl
  | error =>
    unfold World.test
    by_cases hclosing : closing = .interrupt
    · rw [if_pos hclosing, if_pos (Or.inr ⟨rfl, hclosing⟩)]
      exact stranded_moved .stranded hi rfl rfl
    · rw [if_neg hclosing, if_neg (by simp [hclosing])]
      exact stranded_moved .spawning hi rfl rfl
  | interrupt => exact stranded_moved .stranded hi rfl rfl

theorem stranded_exit (hi : w.calls[i]? = some (.holding c)) (block commit rollback : Ends)
    (isClosed : Bool) :
    (w.exit i c block commit rollback isClosed).stranded = w.stranded +
      (if World.blockEnds block commit = .interrupt ∨
        World.blockEnds block commit = .error ∧ rollback = .interrupt then 1 else 0) := by
  unfold World.exit
  cases World.blockEnds block commit with
  | returns => exact stranded_moved .left hi rfl (checkin_calls w i c false isClosed)
  | error =>
    show World.stranded (if rollback = .interrupt then _ else _) = _
    by_cases hroll : rollback = .interrupt
    · rw [if_pos hroll, if_pos (Or.inr ⟨rfl, hroll⟩)]
      exact stranded_moved .stranded hi rfl rfl
    · rw [if_neg hroll, if_neg (by simp [hroll])]
      exact stranded_moved .left hi rfl (checkin_calls w i c true isClosed)
  | interrupt => exact stranded_moved .stranded hi rfl rfl

end

theorem step_test {w : World} {i : ℕ} {c : Conn} (hi : w.calls[i]? = some (.testing c))
    (ends closing : Ends) : step w (.test i ends closing) = w.test i c ends closing := by
  show (match w.calls[i]? with
    | some (.testing c) => w.test i c ends closing
    | _ => w) = _
  rw [hi]

theorem step_exit {w : World} {i : ℕ} {c : Conn} (hi : w.calls[i]? = some (.holding c))
    (block commit rollback : Ends) (isClosed : Bool) :
    step w (.exit i block commit rollback isClosed) =
      w.exit i c block commit rollback isClosed := by
  show (match w.calls[i]? with
    | some (.holding c) => w.exit i c block commit rollback isClosed
    | _ => w) = _
  rw [hi]

/-- A step strands a call exactly when the call's exception escapes the handlers. -/
theorem stranded_step (w : World) (e : Event) :
    (Escapes w e ∧ (step w e).stranded = w.stranded + 1) ∨
      (¬ Escapes w e ∧ (step w e).stranded = w.stranded) := by
  cases e with
  | call =>
    refine Or.inr ⟨fun h => h, ?_⟩
    show (w.calls ++ [Phase.waiting]).countP Phase.isStranded = _
    rw [List.countP_append]
    rfl
  | checkout i late =>
    refine Or.inr ⟨fun h => h, ?_⟩
    show World.stranded (if _ then _ else _) = _
    split
    next hi => exact stranded_checkout hi late
    next => rfl
  | connect i ends =>
    by_cases hi : w.calls[i]? = some .spawning
    · have hcount := stranded_connect hi ends
      rw [show step w (.connect i ends) = w.connect i ends from if_pos hi, hcount]
      by_cases hends : ends = .interrupt
      · exact Or.inl ⟨⟨hi, hends⟩, by rw [if_pos hends]⟩
      · exact Or.inr ⟨fun h => hends h.2, by rw [if_neg hends]; rfl⟩
    · rw [show step w (.connect i ends) = w from if_neg hi]
      exact Or.inr ⟨fun h => hi h.1, rfl⟩
  | test i ends closing =>
    by_cases hi : ∃ c, w.calls[i]? = some (.testing c)
    · obtain ⟨c, hc⟩ := hi
      rw [step_test hc, stranded_test hc]
      by_cases hends : ends = .interrupt ∨ ends = .error ∧ closing = .interrupt
      · exact Or.inl ⟨⟨⟨c, hc⟩, hends⟩, by rw [if_pos hends]⟩
      · exact Or.inr ⟨fun h => hends h.2, by rw [if_neg hends]; rfl⟩
    · refine Or.inr ⟨fun h => hi h.1, ?_⟩
      show World.stranded (match w.calls[i]? with
        | some (.testing c) => w.test i c ends closing
        | _ => w) = _
      split
      next c hc => exact absurd ⟨c, hc⟩ hi
      next => rfl
  | exit i block commit rollback isClosed =>
    by_cases hi : ∃ c, w.calls[i]? = some (.holding c)
    · obtain ⟨c, hc⟩ := hi
      rw [step_exit hc, stranded_exit hc]
      by_cases hends : World.blockEnds block commit = .interrupt ∨
          World.blockEnds block commit = .error ∧ rollback = .interrupt
      · exact Or.inl ⟨⟨⟨c, hc⟩, hends⟩, by rw [if_pos hends]⟩
      · exact Or.inr ⟨fun h => hends h.2, by rw [if_neg hends]; rfl⟩
    · refine Or.inr ⟨fun h => hi h.1, ?_⟩
      show World.stranded (match w.calls[i]? with
        | some (.holding c) => w.exit i c block commit rollback isClosed
        | _ => w) = _
      split
      next c hc => exact absurd ⟨c, hc⟩ hi
      next => rfl
  | retire c =>
    refine Or.inr ⟨fun h => h, ?_⟩
    show (w.retire c).stranded = _
    unfold World.retire
    split
    next => rfl
    next => rfl
  | close => exact Or.inr ⟨fun h => h, rfl⟩

/-- A slot that was not returned is never returned. -/
theorem stranded_stays (w : World) (es : List Event) : w.stranded ≤ (es.foldl step w).stranded := by
  induction es generalizing w with
  | nil => exact Nat.le_refl _
  | cons e es ih =>
    refine Nat.le_trans ?_ (ih (step w e))
    rcases stranded_step w e with ⟨_, h⟩ | ⟨_, h⟩ <;> omega

/-- With every slot stranded no call gets a connection: it waits, or it raises. -/
theorem exhausted {w : World} (h : Books w) (hall : w.pool.max ≤ w.stranded) (i : ℕ)
    (late : Bool) : w.checkout i late = w ∨ w.checkout i late = w.move i .left := by
  have hcount := h.count
  have hcap := h.cap
  have hidle : w.pool.idle = [] := List.length_eq_zero_iff.mp (by omega)
  have hfull : ¬ w.pool.out < w.pool.max := by omega
  unfold World.checkout
  rw [hidle]
  split
  next => exact Or.inr rfl
  next =>
    simp only [List.getLast?_nil]
    split
    next => exact Or.inr rfl
    next => exact Or.inl rfl

/-! ## Runs -/

/-- In every run, at every step, whatever the borrowers and the driver raise: the pool
stays within its maximum, no connection has two borrowers, and none that left the pool is
lent. -/
theorem pool_safe (max : ℕ) (es : List Event) :
    Along step (fun w e => Safe (step w e)) (World.start max) es :=
  along_of_inv (C := fun _ _ => True) (fun w e h _ => ⟨(books_step w e h).safe, books_step w e h⟩)
    es (books_start max) (along_of_forall (fun _ _ => trivial) es)

theorem Books.coherent_iff {w : World} (h : Books w) : Coherent w ↔ w.stranded = 0 := by
  have hcount := h.count
  constructor
  · intro hw
    have hreturned := hw.returned
    omega
  · intro hzero
    exact { h.safe with returned := by omega }

theorem gone_checkin (w : World) (i : ℕ) (c : Conn) (broken isClosed : Bool) :
    w.gone ⊆ (w.checkin i c broken isClosed).gone := by
  unfold World.checkin
  split
  next => exact List.subset_cons_self c w.gone
  next => exact List.Subset.refl w.gone

/-- What left the pool stays away. -/
theorem gone_step (w : World) (e : Event) : w.gone ⊆ (step w e).gone := by
  have hself := List.Subset.refl w.gone
  cases e with
  | call => exact hself
  | checkout i late =>
    show w.gone ⊆ World.gone (if _ then _ else _)
    unfold World.checkout
    repeat' split
    all_goals exact hself
  | connect i ends =>
    show w.gone ⊆ World.gone (if _ then _ else _)
    split
    next => cases ends <;> exact hself
    next => exact hself
  | test i ends closing =>
    show w.gone ⊆ World.gone (match w.calls[i]? with
      | some (.testing c) => w.test i c ends closing
      | _ => w)
    split
    next c _ =>
      cases ends with
      | returns => exact hself
      | error => exact List.subset_cons_self c w.gone
      | interrupt => exact List.subset_cons_self c w.gone
    next => exact hself
  | exit i block commit rollback isClosed =>
    show w.gone ⊆ World.gone (match w.calls[i]? with
      | some (.holding c) => w.exit i c block commit rollback isClosed
      | _ => w)
    split
    next c _ =>
      unfold World.exit
      cases World.blockEnds block commit with
      | returns => exact gone_checkin w i c false isClosed
      | error =>
        show w.gone ⊆ World.gone (if rollback = .interrupt then _ else _)
        split
        next => exact List.subset_cons_self c w.gone
        next => exact gone_checkin w i c true isClosed
      | interrupt => exact List.subset_cons_self c w.gone
    next => exact hself
  | retire c =>
    show w.gone ⊆ (w.retire c).gone
    unfold World.retire
    split
    next => exact List.subset_cons_self c w.gone
    next => exact hself
  | close => exact List.subset_append_right w.pool.idle w.gone

/-- The pool is coherent all along a run exactly when no exception escapes the handlers
from a call that has a slot. -/
theorem pool_coherent_iff (max : ℕ) (es : List Event) :
    Along step (fun w e => Coherent (step w e) ∧ w.gone ⊆ (step w e).gone) (World.start max) es ↔
      Along step (fun w e => ¬ Escapes w e) (World.start max) es := by
  refine along_congr_inv (I := fun w => Books w ∧ w.stranded = 0) ?_ ?_ es ⟨books_start max, rfl⟩
  · rintro w e ⟨hbooks, hzero⟩
    rw [(books_step w e hbooks).coherent_iff, and_iff_left (gone_step w e)]
    rcases stranded_step w e with ⟨hesc, hone⟩ | ⟨hesc, hsame⟩
    · rw [hone]
      exact iff_of_false (Nat.succ_ne_zero _) (not_not_intro hesc)
    · rw [hsame, hzero]
      exact iff_of_true rfl hesc
  · rintro w e ⟨hbooks, hzero⟩ hcaught
    refine ⟨books_step w e hbooks, ?_⟩
    rcases stranded_step w e with ⟨hesc, _⟩ | ⟨_, hsame⟩
    · exact absurd hesc hcaught
    · rw [hsame, hzero]

/-- Two borrowers are interrupted; the third waits for a slot that nobody has. -/
theorem interrupted_borrowers_leak :
    let es : List Event :=
      [.call, .checkout 0 false, .connect 0 .returns, .call, .checkout 1 false,
        .connect 1 .returns, .exit 0 .interrupt .returns .returns false,
        .exit 1 .interrupt .returns .returns false, .call, .checkout 2 true]
    let w := es.foldl step (World.start 2)
    CandlePool.new 2 = .ok { max := 2 } ∧ w.inside = 0 ∧ w.pool.out = 2 ∧
      w.calls = [.stranded, .stranded, .left] ∧
      ¬ Along step (fun w e => Coherent (step w e)) (World.start 2) es := by
  refine ⟨by decide, by decide, by decide, by decide, ?_⟩
  intro h
  exact absurd h.2.2.2.2.2.2.1.returned (by decide)

end PaperTrading.Data
