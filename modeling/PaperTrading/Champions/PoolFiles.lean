import PaperTrading.Champions.Pool
import PaperTrading.Lib.InPlace
import PaperTrading.Lib.Runs

/-!
# The pool files are written in place

`load_pool`, `save_pool`, `load_graduated` and `save_graduated` of
`trading/champions.py`, and `active_strategies` of `trading/run_isolated.py`, on the text
of the files. `write_text` cuts the file to nothing and fills it; the writers hold the
lock while they work (`promote_candidates` does not), the readers take none, and every
process may die at any time.

A process is a program of reads and writes. `pool_never_torn_iff` says when the loads of
a run are right: while no write begins inside another, exactly when no load finds its
file cut short. The lock keeps writes apart (`apart_of_locked`); it does not keep readers
out, nor does it finish a write that was broken off.
-/

namespace PaperTrading.Champions

open PaperTrading.Lib

/-- `champions.json` -/
structure PoolDoc where
  champions : List Champion := []
  syncedUntil : String := ""
deriving DecidableEq

/-- What a process has still to do. Between two steps of it others take theirs. -/
inductive Prog where
  | done
  | readPool (next : Option PoolDoc → Prog)
  | readGraduated (next : Option (List Graduate) → Prog)
  | writePool (st : PoolDoc) (next : Prog)
  | writeGraduated (grads : List Graduate) (next : Prog)

/-! ## The loads and saves -/

/-- What `load_pool` makes of what it read. -/
def poolOf (read : Option PoolDoc) : PoolDoc := read.getD {}

/-- What `load_graduated` makes of what it read. -/
def graduatedOf (read : Option (List Graduate)) : List Graduate := read.getD []

/-- `load_pool` -/
def loadPool (next : PoolDoc → Prog) : Prog := .readPool fun read => next (poolOf read)

/-- `load_graduated` -/
def loadGraduated (next : List Graduate → Prog) : Prog :=
  .readGraduated fun read => next (graduatedOf read)

/-- The rows `save_pool` saves: each with the start date the file has for its name. -/
def dated (prev : Option PoolDoc) (st : PoolDoc) : PoolDoc :=
  { st with champions := (({ pool := (poolOf prev).champions } : Book).savePool st.champions).pool }

/-- `save_pool` -/
def savePool (st : PoolDoc) (next : Prog) : Prog :=
  .readPool fun prev => .readPool fun current =>
    if current = some (dated prev st) then next else .writePool (dated prev st) next

/-- `save_graduated` -/
def saveGraduated (grads : List Graduate) (next : Prog) : Prog := .writeGraduated grads next

/-- `active_strategies`, of the pool it loaded; `live` is `LIVE_STRATEGY`. -/
def activeStrategies (live : String) (pool : PoolDoc) : List String :=
  let names := (pool.champions.map (·.name)).filter (· ≠ "")
  if names = [] then [live] else names

/-- The decision cycle: it asks for the strategies, and takes no lock. -/
def decisionCycle : Prog := loadPool fun _ => .done

/-- `_retain_unlocked` -/
def retainUnlocked (keep : List String) : Prog :=
  loadPool fun st =>
    savePool { st with champions := st.champions.filter fun c => c.name ∈ keep } .done

/-- The champions that stay when results are collected. -/
def remainingChampions (results : String → List ℚ) (since : String → Option String)
    (champions : List Champion) : List Champion :=
  ((Book.countResults results champions).filter fun c =>
    ¬ c.closed ≥ TRADE_EVALUATION_LIMIT).map fun c =>
      { c with championSince := c.championSince.or (since c.name) }

/-- The champions that graduate. -/
def doneChampions (results : String → List ℚ) (champions : List Champion) : List Champion :=
  (Book.countResults results champions).filter fun c => c.closed ≥ TRADE_EVALUATION_LIMIT

/-- `_collect_live_results_unlocked` -/
def collectLiveResultsUnlocked (results : String → List ℚ) (since : String → Option String)
    (newest : String → String) : Prog :=
  loadPool fun st => loadGraduated fun grads =>
    savePool
      { champions := remainingChampions results since st.champions
        syncedUntil := newest st.syncedUntil }
      (if doneChampions results st.champions = [] then .done
      else saveGraduated ((doneChampions results st.champions).foldl
        (fun gs c => Book.addGraduate gs (Book.graduateOf c)) grads) .done)

/-- The rows that are saved are the ones of the pool's model. -/
theorem collect_rows (b : Book) (results : String → List ℚ) (since : String → Option String) :
    b.collectResults results since =
      { b.savePool (remainingChampions results since b.pool) with
        graduated := (doneChampions results b.pool).foldl
          (fun gs c => Book.addGraduate gs (Book.graduateOf c)) b.graduated } := rfl

theorem retain_rows (b : Book) (keep : List String) (st : PoolDoc) (h : st.champions = b.pool) :
    (dated (some st) { st with champions := st.champions.filter fun c => c.name ∈ keep }).champions =
      (b.retain keep).pool := by
  unfold dated Book.retain Book.savePool
  rw [poolOf, Option.getD_some, h]
  rfl

/-! ## Processes -/

/-- The format of the two files. -/
structure Formats where
  pool : Format PoolDoc
  graduated : Format (List Graduate)

/-- The two files, what the processes have to do, and who has the lock. -/
structure World where
  pool : InPlace ℕ PoolDoc
  graduated : InPlace ℕ (List Graduate)
  procs : ℕ → Option Prog := fun _ => none
  lock : Option ℕ := none

/-- A process takes up a program, with the lock or without; does the next thing of it;
writes some characters; or dies. -/
inductive Event where
  | start (p : ℕ) (locks : Bool) (prog : Prog)
  | act (p : ℕ)
  | fill (p n : ℕ)
  | crash (p : ℕ)

namespace World

/-- A state directory in which the files are as they were saved last, or missing. -/
def start (fmt : Formats) (pool : Option PoolDoc) (graduated : Option (List Graduate)) : World :=
  { pool := { file := pool.bind fmt.pool.dumps, writes := fun _ => none
              saved := pool.filter fun st => (fmt.pool.dumps st).isSome }
    graduated := { file := graduated.bind fmt.graduated.dumps, writes := fun _ => none
                   saved := graduated.filter fun gs => (fmt.graduated.dumps gs).isSome } }

/-- The program of a process that is not in the middle of a write. -/
def next (w : World) (p : ℕ) : Option Prog :=
  if (w.pool.writes p).isSome ∨ (w.graduated.writes p).isSome then none else w.procs p

/-- A process ends; the lock is free again. -/
def leave (w : World) (p : ℕ) : World :=
  { w with
    procs := Function.update w.procs p none
    lock := if w.lock = some p then none else w.lock }

/-- A process goes on with a program. -/
def goOn (w : World) (p : ℕ) (prog : Prog) : World :=
  { w with procs := Function.update w.procs p (some prog) }

variable (fmt : Formats)

/-- The next step of a program. The text is made before the file is opened. -/
def run (w : World) (p : ℕ) : Prog → World
  | .done => w.leave p
  | .readPool next => w.goOn p (next (fmt.pool.read w.pool.file))
  | .readGraduated next => w.goOn p (next (fmt.graduated.read w.graduated.file))
  | .writePool st next =>
    (fmt.pool.dumps st).elim (w.leave p) fun t =>
      { w.goOn p next with pool := w.pool.openFor p st t }
  | .writeGraduated grads next =>
    (fmt.graduated.dumps grads).elim (w.leave p) fun t =>
      { w.goOn p next with graduated := w.graduated.openFor p grads t }

def step (w : World) : Event → World
  | .start p locks prog =>
    if (w.procs p).isSome ∨ (locks = true ∧ w.lock.isSome) then w
    else { w.goOn p prog with lock := if locks then some p else w.lock }
  | .act p => (w.next p).elim w (w.run fmt p)
  | .fill p n => { w with pool := w.pool.fill p n, graduated := w.graduated.fill p n }
  | .crash p => { w.leave p with pool := w.pool.crash p, graduated := w.graduated.crash p }

end World

/-! ## Loads that are right -/

variable {fmt : Formats} {w : World}

/-- A load of the pool after a save: it returns the document of the last save that was
finished, so it has read the file, and the decision cycle gets the names that are
seated. -/
structure PoolLoaded (fmt : Formats) (w : World) : Prop where
  load : ∀ d, w.pool.saved = some d → poolOf (fmt.pool.read w.pool.file) = d
  readable : ∀ d, w.pool.saved = some d → (fmt.pool.read w.pool.file).isSome = true
  cycle : ∀ live d, w.pool.saved = some d → (∃ c ∈ d.champions, c.name ≠ "") →
    activeStrategies live (poolOf (fmt.pool.read w.pool.file)) =
      (d.champions.map (·.name)).filter (· ≠ "")

/-- The same of a load of the graduates. -/
structure GraduatedLoaded (fmt : Formats) (w : World) : Prop where
  load : ∀ d, w.graduated.saved = some d → graduatedOf (fmt.graduated.read w.graduated.file) = d
  readable : ∀ d, w.graduated.saved = some d →
    (fmt.graduated.read w.graduated.file).isSome = true

/-- What the program does next, if it is a load, is right. -/
def Prog.LoadsRight (fmt : Formats) (w : World) : Prog → Prop
  | .readPool _ => PoolLoaded fmt w
  | .readGraduated _ => GraduatedLoaded fmt w
  | _ => True

/-- What the program does next, if it is a load of a file that was saved, finds the file
whole. -/
def Prog.FindsWhole (fmt : Formats) (w : World) : Prog → Prop
  | .readPool _ => w.pool.saved.isSome → ¬ fmt.pool.Cut w.pool.file
  | .readGraduated _ => w.graduated.saved.isSome → ¬ fmt.graduated.Cut w.graduated.file
  | _ => True

/-- What the program does next, if it begins a write, is not inside another write of that
file. -/
def Prog.WritesApart (w : World) : Prog → Prop
  | .writePool .. => ∀ q, w.pool.writes q = none
  | .writeGraduated .. => ∀ q, w.graduated.writes q = none
  | _ => True

/-- A condition on what a process does next, at every step it takes. -/
def Acts (C : World → Prog → Prop) (w : World) : Event → Prop
  | .act p => ∀ prog, w.next p = some prog → C w prog
  | _ => True

/-- The step, if it is a load, is right. -/
def Untorn (fmt : Formats) : World → Event → Prop := Acts (Prog.LoadsRight fmt)

/-- The step, if it is a load, finds its file whole. -/
def Whole (fmt : Formats) : World → Event → Prop := Acts (Prog.FindsWhole fmt)

/-- The step, if it begins a write, does not begin it inside another. -/
def Apart : World → Event → Prop := Acts Prog.WritesApart

/-! ## When loads are right -/

/-- Both files are as their writes left them. -/
structure Sound (fmt : Formats) (w : World) : Prop where
  pool : w.pool.Sound fmt.pool
  graduated : w.graduated.Sound fmt.graduated

theorem sound_idle {D : Type} (fmt : Format D) (doc : Option D) :
    InPlace.Sound fmt ({ file := doc.bind fmt.dumps, writes := fun _ => none
                         saved := doc.filter fun d => (fmt.dumps d).isSome } : InPlace ℕ D) := by
  refine ⟨fun h => (by cases h), fun h => (by cases h), fun _ => .inr fun d hd => ?_⟩
  obtain ⟨hdoc, hsome⟩ := Option.filter_eq_some_iff.mp hd
  obtain ⟨t, ht⟩ := Option.isSome_iff_exists.mp hsome
  refine ⟨t, ht, ?_⟩
  rw [hdoc]
  exact ht

theorem Sound.start (pool : Option PoolDoc) (graduated : Option (List Graduate)) :
    Sound fmt (.start fmt pool graduated) :=
  ⟨sound_idle fmt.pool pool, sound_idle fmt.graduated graduated⟩

theorem Sound.leave (h : Sound fmt w) (p : ℕ) : Sound fmt (w.leave p) := ⟨h.pool, h.graduated⟩

theorem Sound.goOn (h : Sound fmt w) (p : ℕ) (prog : Prog) : Sound fmt (w.goOn p prog) :=
  ⟨h.pool, h.graduated⟩

theorem Sound.run (h : Sound fmt w) (p : ℕ) {prog : Prog} (hapart : prog.WritesApart w) :
    Sound fmt (w.run fmt p prog) := by
  cases prog with
  | done => exact h.leave p
  | readPool next => exact h.goOn p _
  | readGraduated next => exact h.goOn p _
  | writePool st next =>
    show Sound fmt ((fmt.pool.dumps st).elim _ _)
    cases hdumps : fmt.pool.dumps st with
    | none => exact h.leave p
    | some t => exact ⟨.openFor hapart p hdumps, h.graduated⟩
  | writeGraduated grads next =>
    show Sound fmt ((fmt.graduated.dumps grads).elim _ _)
    cases hdumps : fmt.graduated.dumps grads with
    | none => exact h.leave p
    | some t => exact ⟨h.pool, .openFor hapart p hdumps⟩

theorem Sound.step (h : Sound fmt w) {e : Event} (hapart : Apart w e) :
    Sound fmt (w.step fmt e) := by
  cases e with
  | start p locks prog =>
    show Sound fmt (if _ then w else { w.goOn p prog with lock := _ })
    split
    next => exact h
    next => exact ⟨h.pool, h.graduated⟩
  | fill p n => exact ⟨h.pool.fill p n, h.graduated.fill p n⟩
  | crash p => exact ⟨h.pool.crash p, h.graduated.crash p⟩
  | act p =>
    rw [show w.step fmt (.act p) = (w.next p).elim w (w.run fmt p) from rfl]
    cases hnext : w.next p with
    | none => exact h
    | some prog => exact h.run p (hapart prog hnext)

/-- A pool is loaded rightly when its file is whole. -/
theorem poolLoaded_iff (h : Sound fmt w) :
    PoolLoaded fmt w ↔ (w.pool.saved.isSome → ¬ fmt.pool.Cut w.pool.file) := by
  constructor
  · intro hload hsome hcut
    obtain ⟨d, hd⟩ := Option.isSome_iff_exists.mp hsome
    have hread := hload.readable d hd
    rw [Format.read_cut hcut] at hread
    cases hread
  · intro hwhole
    have hread : ∀ d, w.pool.saved = some d → fmt.pool.read w.pool.file = some d := fun d hd =>
      h.pool.read (hwhole (hd ▸ rfl)) hd
    refine ⟨fun d hd => ?_, fun d hd => ?_, fun live d hd hseated => ?_⟩
    · rw [hread d hd]
      rfl
    · rw [hread d hd]
      rfl
    · rw [hread d hd]
      refine if_neg fun hnone => ?_
      obtain ⟨c, hc, hname⟩ := hseated
      exact List.filter_eq_nil_iff.mp hnone _ (List.mem_map_of_mem hc) (decide_eq_true hname)

theorem graduatedLoaded_iff (h : Sound fmt w) :
    GraduatedLoaded fmt w ↔ (w.graduated.saved.isSome → ¬ fmt.graduated.Cut w.graduated.file) := by
  constructor
  · intro hload hsome hcut
    obtain ⟨d, hd⟩ := Option.isSome_iff_exists.mp hsome
    have hread := hload.readable d hd
    rw [Format.read_cut hcut] at hread
    cases hread
  · intro hwhole
    have hread : ∀ d, w.graduated.saved = some d → fmt.graduated.read w.graduated.file = some d :=
      fun d hd => h.graduated.read (hwhole (hd ▸ rfl)) hd
    refine ⟨fun d hd => ?_, fun d hd => ?_⟩ <;>
    · rw [hread d hd]
      rfl

theorem loadsRight_iff (h : Sound fmt w) (prog : Prog) :
    prog.LoadsRight fmt w ↔ prog.FindsWhole fmt w := by
  cases prog with
  | readPool next => exact poolLoaded_iff h
  | readGraduated next => exact graduatedLoaded_iff h
  | _ => exact Iff.rfl

theorem untorn_iff (h : Sound fmt w) (e : Event) : Untorn fmt w e ↔ Whole fmt w e := by
  cases e with
  | act p => exact forall_congr' fun prog => imp_congr_right fun _ => loadsRight_iff h prog
  | _ => exact Iff.rfl

/-! ## The lock -/

/-- A program that writes nothing. -/
def Prog.ReadsOnly : Prog → Prop
  | .done => True
  | .readPool next => ∀ read, (next read).ReadsOnly
  | .readGraduated next => ∀ read, (next read).ReadsOnly
  | .writePool .. => False
  | .writeGraduated .. => False

/-- A process is in the middle of a write. -/
def World.Writes (w : World) (p : ℕ) : Prop :=
  (w.pool.writes p).isSome ∨ (w.graduated.writes p).isSome

/-- Who takes up a program without the lock only reads. -/
def TakesLock : Event → Prop
  | .start _ locks prog => locks = true ∨ prog.ReadsOnly
  | _ => True

/-- Only the process that has the lock writes. -/
structure Locked (w : World) : Prop where
  holds : ∀ p prog, w.procs p = some prog → w.lock = some p ∨ prog.ReadsOnly
  writes : ∀ p, w.Writes p → w.lock = some p

theorem next_eq_some {p : ℕ} {prog : Prog} (h : w.next p = some prog) :
    ¬ w.Writes p ∧ w.procs p = some prog := by
  unfold World.next at h
  split at h
  next => cases h
  next hfree => exact ⟨hfree, h⟩

theorem lock_leave {p q : ℕ} (hne : q ≠ p) (hq : w.lock = some q) :
    (w.leave p).lock = some q := by
  refine (if_neg ?_).trans hq
  rw [hq]
  exact fun heq => hne (Option.some.inj heq)

theorem Locked.leave (h : Locked w) {p : ℕ} (hfree : ¬ w.Writes p) : Locked (w.leave p) := by
  refine ⟨fun q prog hq => ?_, fun q hq => ?_⟩
  · rcases update_eq_some hq with ⟨-, hold⟩ | ⟨hne, hold⟩
    · cases hold
    · exact (h.holds q prog hold).imp_left (lock_leave hne)
  · refine lock_leave ?_ (h.writes q hq)
    rintro rfl
    exact hfree hq

theorem Locked.goOn (h : Locked w) {p : ℕ} {prog : Prog}
    (hprog : w.lock = some p ∨ prog.ReadsOnly) : Locked (w.goOn p prog) := by
  refine ⟨fun q prog' hq => ?_, h.writes⟩
  rcases update_eq_some hq with ⟨rfl, hold⟩ | ⟨-, hold⟩
  · obtain rfl := Option.some.inj hold
    exact hprog
  · exact h.holds q prog' hold

theorem Locked.run (h : Locked w) {p : ℕ} {prog : Prog} (hnext : w.next p = some prog) :
    Locked (w.run fmt p prog) := by
  obtain ⟨hfree, hproc⟩ := next_eq_some hnext
  have hprog := h.holds p prog hproc
  cases prog with
  | done => exact h.leave hfree
  | readPool next => exact h.goOn (hprog.imp_right fun hreads => hreads _)
  | readGraduated next => exact h.goOn (hprog.imp_right fun hreads => hreads _)
  | writePool st next =>
    have hlock := hprog.resolve_right id
    show Locked ((fmt.pool.dumps st).elim _ _)
    cases fmt.pool.dumps st with
    | none => exact h.leave hfree
    | some t =>
      refine ⟨(h.goOn (.inl hlock)).holds, fun q hq => ?_⟩
      rcases eq_or_ne q p with rfl | hne
      · exact hlock
      · refine h.writes q (hq.imp_left fun hw => ?_)
        exact (congrArg Option.isSome (Function.update_of_ne hne ..)).symm.trans hw
  | writeGraduated grads next =>
    have hlock := hprog.resolve_right id
    show Locked ((fmt.graduated.dumps grads).elim _ _)
    cases fmt.graduated.dumps grads with
    | none => exact h.leave hfree
    | some t =>
      refine ⟨(h.goOn (.inl hlock)).holds, fun q hq => ?_⟩
      rcases eq_or_ne q p with rfl | hne
      · exact hlock
      · refine h.writes q (hq.imp_right fun hw => ?_)
        exact (congrArg Option.isSome (Function.update_of_ne hne ..)).symm.trans hw

theorem Locked.step (h : Locked w) {e : Event} (hlocks : TakesLock e) :
    Locked (w.step fmt e) := by
  cases e with
  | start p locks prog =>
    show Locked (if _ then w else { w.goOn p prog with lock := if locks then some p else w.lock })
    split
    next => exact h
    next hfree =>
      cases locks with
      | false => exact h.goOn (.inr (hlocks.resolve_left Bool.false_ne_true))
      | true =>
        -- the lock was free, so nobody writes
        have hnone : w.lock = none := by
          cases hlock : w.lock with
          | none => rfl
          | some q => exact absurd (.inr ⟨rfl, hlock ▸ rfl⟩) hfree
        refine ⟨fun q prog' hq => ?_, fun q hq => ?_⟩
        · rcases update_eq_some hq with ⟨rfl, -⟩ | ⟨-, hold⟩
          · exact .inl rfl
          · refine .inr ((h.holds q prog' hold).resolve_left ?_)
            rw [hnone]
            exact fun hsome => by cases hsome
        · have hq := h.writes q hq
          rw [hnone] at hq
          cases hq
  | act p =>
    rw [show w.step fmt (.act p) = (w.next p).elim w (w.run fmt p) from rfl]
    cases hnext : w.next p with
    | none => exact h
    | some prog => exact h.run hnext
  | fill p n =>
    exact ⟨h.holds, fun q hq => h.writes q (hq.imp InPlace.writes_fill InPlace.writes_fill)⟩
  | crash p =>
    have hwrites : ∀ q, (w.step fmt (.crash p)).Writes q → q ≠ p ∧ w.Writes q := fun q hq =>
      hq.elim (fun hw => (InPlace.writes_crash hw).imp_right .inl)
        fun hw => (InPlace.writes_crash hw).imp_right .inr
    refine ⟨fun q prog hq => ?_, fun q hq => ?_⟩
    · rcases update_eq_some hq with ⟨-, hold⟩ | ⟨hne, hold⟩
      · cases hold
      · exact (h.holds q prog hold).imp_left (lock_leave hne)
    · obtain ⟨hne, hq⟩ := hwrites q hq
      exact lock_leave hne (h.writes q hq)

/-- The lock keeps the writes apart. -/
theorem Locked.apart (h : Locked w) (e : Event) : Apart w e := by
  cases e with
  | act p =>
    intro prog hnext
    obtain ⟨hfree, hproc⟩ := next_eq_some hnext
    have hnone : w.lock = some p → ∀ q, ¬ w.Writes q := fun hlock q hq => by
      obtain rfl := Option.some.inj (hlock.symm.trans (h.writes q hq))
      exact hfree hq
    cases prog with
    | writePool st next =>
      intro q
      have := hnone ((h.holds p _ hproc).resolve_right id) q
      exact Option.not_isSome_iff_eq_none.mp fun hw => this (.inl hw)
    | writeGraduated grads next =>
      intro q
      have := hnone ((h.holds p _ hproc).resolve_right id) q
      exact Option.not_isSome_iff_eq_none.mp fun hw => this (.inr hw)
    | _ => trivial
  | _ => trivial

/-- In a run in which all writers take the lock, no write begins inside another. -/
theorem apart_of_locked (fmt : Formats) (pool : Option PoolDoc)
    (graduated : Option (List Graduate)) (events : List Event)
    (hlocks : ∀ e ∈ events, TakesLock e) :
    Along (World.step fmt) Apart (.start fmt pool graduated) events := by
  refine along_of_inv (I := Locked) (C := fun _ e => TakesLock e)
    (fun w e h hC => ⟨h.apart e, h.step hC⟩) events ?_ ?_
  · exact ⟨fun p prog hp => (by cases hp), fun p hp => hp.elim (fun h => (by cases h))
      fun h => (by cases h)⟩
  · generalize World.start fmt pool graduated = w
    induction events generalizing w with
    | nil => exact trivial
    | cons e events ih =>
      exact ⟨hlocks e List.mem_cons_self, ih (fun e' he' => hlocks e' (List.mem_cons_of_mem _ he')) _⟩

/-- **The pool is torn** exactly where a load finds a file cut short. In every run of
writers and readers, with crashes at any point, in which no write begins inside another
one of its file: every load after a save returns the document of the last save that was
finished, and takes no unreadable file for an empty one, if and only if no such load finds
its file in the middle of a write, be it still under way or broken off. -/
theorem pool_never_torn_iff (fmt : Formats) (pool : Option PoolDoc)
    (graduated : Option (List Graduate)) (events : List Event)
    (hapart : Along (World.step fmt) Apart (.start fmt pool graduated) events) :
    Along (World.step fmt) (Untorn fmt) (.start fmt pool graduated) events ↔
      Along (World.step fmt) (Whole fmt) (.start fmt pool graduated) events :=
  along_congr_kept (I := Sound fmt) (fun _ e h => untorn_iff h e) (fun _ _ h hC => h.step hC)
    events (.start pool graduated) hapart

/-! ## A crash in the middle of a write -/

def bothSeated : PoolDoc :=
  { champions := [{ name := "sma_stack" }, { name := "lib.rsi2" }] }

def oneSeated : PoolDoc := { champions := [{ name := "sma_stack" }] }

/-- The row of a name, as JSON. -/
def rowText (name : String) : List Char :=
  "\n    \x7b\n      \"name\": \"".toList ++ name.toList ++ "\"\n    \x7d".toList

/-- The pool with the text `rows` for its rows, as JSON. -/
def poolText (rows : List Char) : List Char :=
  "\x7b\n  \"champions\": [".toList ++ rows ++ "\n  ],\n  \"synced_until\": \"\"\n\x7d".toList

/-- JSON, as far as these documents go. -/
def seatsFormats : Formats where
  pool := .ofTable
    [(bothSeated, poolText (rowText "sma_stack" ++ ',' :: rowText "lib.rsi2")),
      (oneSeated, poolText (rowText "sma_stack"))] (by decide +kernel) (by decide +kernel)
  graduated := .ofTable [([], "[]".toList)] (by decide +kernel) (by decide +kernel)

/-- A retain that is broken off while it writes. -/
def brokenRetain : List Event :=
  [.start 1 true (retainUnlocked ["sma_stack"]), .act 1, .act 1, .act 1, .act 1, .fill 1 40,
    .crash 1]

/-- The same retain, finished. -/
def finishedRetain : List Event :=
  [.start 1 true (retainUnlocked ["sma_stack"]), .act 1, .act 1, .act 1, .act 1, .fill 1 400,
    .act 1, .start 2 false decisionCycle, .act 2]

theorem finishedRetain_takesLock : ∀ e ∈ finishedRetain, TakesLock e := by
  intro e he
  simp only [finishedRetain, List.mem_cons, List.not_mem_nil, or_false] at he
  rcases he with rfl | rfl | rfl | rfl | rfl | rfl | rfl | rfl | rfl
  all_goals first
    | exact .inl rfl
    | exact .inr fun _ => trivial
    | exact trivial

theorem pool_never_torn_retain :
    Along (World.step seatsFormats) (Untorn seatsFormats)
        (.start seatsFormats (some bothSeated) none) finishedRetain ↔
      Along (World.step seatsFormats) (Whole seatsFormats)
        (.start seatsFormats (some bothSeated) none) finishedRetain :=
  pool_never_torn_iff seatsFormats (some bothSeated) none finishedRetain
    (apart_of_locked _ _ _ _ finishedRetain_takesLock)

variable (fmt) in
theorem next_start {p : ℕ} (hidle : w.procs p = none) (hfree : ¬ w.Writes p) (prog : Prog) :
    (w.step fmt (.start p false prog)).next p = some prog := by
  have hstart : w.step fmt (.start p false prog) = w.goOn p prog := by
    refine (if_neg ?_).trans rfl
    rw [hidle]
    exact fun h => h.elim (fun h => by cases h) fun h => by cases h.1
  rw [hstart]
  refine (if_neg hfree).trans ?_
  exact Function.update_self ..

/-- After the crash `champions.json` cannot be read: a decision cycle finds no champion,
though two are seated. -/
theorem broken_save_empties :
    ¬ Along (World.step seatsFormats) (Untorn seatsFormats)
      (.start seatsFormats (some bothSeated) none)
      (brokenRetain ++ [.start 2 false decisionCycle, .act 2]) := by
  intro h
  obtain ⟨-, -, hcycle, -⟩ := (along_append _ _).mp h
  have hidle : (brokenRetain.foldl (World.step seatsFormats)
      (.start seatsFormats (some bothSeated) none)).procs 2 = none :=
    Option.isNone_iff_eq_none.mp (by decide +kernel)
  have hnext := next_start seatsFormats hidle (by unfold World.Writes; decide +kernel)
    decisionCycle
  have hload := (hcycle _ hnext).readable bothSeated (by decide +kernel)
  revert hload
  decide +kernel

end PaperTrading.Champions
