import Mathlib.Logic.Function.Basic
import PaperTrading.Lib.Dict
import PaperTrading.Lib.Runs

/-!
# The account read caches

`read_paper_account` of `trading/store.py` and `read_account` of
`web/champion_trades.py`: one routine, with its own bound on the cache. A call takes the
database's token (time and size of the file and of its WAL and index), looks the account
up under that token, and on a miss reads the database, takes the token once more and
keeps what it read under the second one.

A writer commits at any time, and calls of any number of threads interleave. Tokens tell
commits apart, which is the assumption (`Files.TellsCommits`). A call then gives the data
of every commit that returned before it began (`reads_current`), as long as no commit
falls between a call's reads and its second look at the token: what was read before that
commit would be kept under the token after it, and later calls would be given it.
-/

namespace PaperTrading.Trading.AccountCache

open PaperTrading.Lib

/-- The path of an account database. -/
abbrev Path := String

/-- A part of a record, by the number of the commit it shows; `none` when the read raised
and the part was left empty. -/
abbrev Piece := Option ℕ

/-- Which of the two readers: what bounds its cache, and the number of statements it runs. -/
structure Reader where
  cap : ℕ
  statements : ℕ

/-- `read_paper_account` -/
def readPaperAccount : Reader := { cap := 512, statements := 3 }

/-- `read_account`; its bound is `_CACHE_MAX`. -/
def readAccount : Reader := { cap := 64, statements := 3 }

/-- `_db_cache_token`, of a database with so many commits whose files were touched so
many times: an open for reading may touch the index too. -/
structure Files (Token : Type) where
  token : Path → ℕ → ℕ → Token

/-- Every commit changes the token, for good. -/
def Files.TellsCommits {Token : Type} (f : Files Token) : Prop :=
  ∀ p v v' k k', f.token p v k = f.token p v' k' → v = v'

/-- How far a call has come. -/
inductive Phase (Token : Type) where
  | called
  /-- It has the token and looks the account up. -/
  | looking (token : Token)
  | opening (token : Token)
  | reading (token : Token) (rec : List Piece)
  /-- It has the token to keep the record under. -/
  | remembering (after : Token) (rec : List Piece)
  | answered (rec : Option (List Piece))
deriving DecidableEq

/-- A call: the account, how many commits had returned when it began, and its phase. -/
structure Call (Token : Type) where
  path : Path
  since : ℕ
  phase : Phase Token := .called
deriving DecidableEq

structure World (Token : Type) where
  /-- Commits so far; a database without one is not there. -/
  commits : Path → ℕ := fun _ => 0
  touches : Path → ℕ := fun _ => 0
  cache : Dict Path (Token × List Piece) := .empty
  calls : ℕ → Option (Call Token) := fun _ => none

/-- The steps of call `id`, and what else can happen. -/
inductive Event where
  | call (id : ℕ) (p : Path)
  /-- `token = _db_cache_token(path)`; `ok` when the file could be looked at. -/
  | stat (id : ℕ) (ok : Bool)
  /-- The lookup, under the lock. -/
  | lookup (id : ℕ)
  | openDb (id : ℕ) (ok : Bool)
  /-- One statement. -/
  | read (id : ℕ) (ok : Bool)
  /-- `token_after = _db_cache_token(path) or token` -/
  | restat (id : ℕ) (ok : Bool)
  /-- The record is kept, under the lock, and given. -/
  | remember (id : ℕ)
  | commit (p : Path)
  | touch (p : Path)
  /-- `clear_account_read_cache` -/
  | clear

section
variable {Token : Type} (f : Files Token) (r : Reader)

namespace World

/-- `_db_cache_token` -/
def token? (w : World Token) (p : Path) (ok : Bool) : Option Token :=
  if ok = true ∧ 0 < w.commits p then some (f.token p (w.commits p) (w.touches p)) else none

/-- Call `id` goes on to the phase. -/
def goes (w : World Token) (id : ℕ) (c : Call Token) (ph : Phase Token) : World Token :=
  { w with calls := Function.update w.calls id (some { c with phase := ph }) }

/-- The lookup: a record that is kept under the token is given. -/
def look [DecidableEq Token] (w : World Token) (p : Path) (token : Token) : Phase Token :=
  match w.cache.get? p with
  | some hit => if hit.1 = token then .answered (some hit.2) else .opening token
  | none => .opening token

/-- The record is kept, and the oldest ones go. -/
def keep (w : World Token) (p : Path) (after : Token) (rec : List Piece) : World Token :=
  { w with cache := (w.cache.set p (after, rec)).keepNewest r.cap }

/-- What one statement reads. -/
def piece (w : World Token) (p : Path) (ok : Bool) : Piece := if ok then some (w.commits p) else none

/-- A step of call `c`. -/
def act [DecidableEq Token] (w : World Token) (id : ℕ) (c : Call Token) : Event → World Token
  | .stat _ ok =>
    match c.phase with
    | .called =>
      w.goes id c (match w.token? f c.path ok with
        | some token => .looking token
        | none => .answered none)
    | _ => w
  | .lookup _ =>
    match c.phase with
    | .looking token => w.goes id c (w.look c.path token)
    | _ => w
  | .openDb _ ok =>
    match c.phase with
    | .opening token => w.goes id c (if ok then .reading token [] else .answered none)
    | _ => w
  | .read _ ok =>
    match c.phase with
    | .reading token rec =>
      if rec.length < r.statements then
        w.goes id c (.reading token (rec ++ [w.piece c.path ok]))
      else w
    | _ => w
  | .restat _ ok =>
    match c.phase with
    | .reading token rec =>
      if rec.length = r.statements then
        w.goes id c (.remembering ((w.token? f c.path ok).getD token) rec)
      else w
    | _ => w
  | .remember _ =>
    match c.phase with
    | .remembering after rec => (w.keep r c.path after rec).goes id c (.answered (some rec))
    | _ => w
  | _ => w

end World

/-- The call an event is a step of. -/
def Event.caller : Event → Option ℕ
  | .stat id _ | .lookup id | .openDb id _ | .read id _ | .restat id _ | .remember id => some id
  | _ => none

/-- A step of a call that is under way. -/
def turn [DecidableEq Token] (w : World Token) (e : Event) : World Token :=
  (e.caller.bind fun id => (w.calls id).map fun c => w.act f r id c e).getD w

/-- One step. -/
def step [DecidableEq Token] (w : World Token) (e : Event) : World Token :=
  match e with
  | .call id p =>
    { w with calls := Function.update w.calls id (some { path := p, since := w.commits p }) }
  | .commit p => { w with commits := Function.update w.commits p (w.commits p + 1) }
  | .touch p => { w with touches := Function.update w.touches p (w.touches p + 1) }
  | .clear => { w with cache := .empty }
  | e => turn f r w e

/-! ## What the claim asks, and the condition -/

/-- Every part of the record shows commit `v` or a later one. -/
def Covers (v : ℕ) (rec : List Piece) : Prop := ∀ piece ∈ rec, ∃ v', piece = some v' ∧ v ≤ v'

/-- Every record a call gave includes the commits that had returned when it began. -/
def Current (w : World Token) : Prop :=
  ∀ id c rec, w.calls id = some c → c.phase = .answered (some rec) → Covers c.since rec

/-- The parts call `id` has read that do not show the present commit. -/
def World.behind (w : World Token) (id : ℕ) : List Piece :=
  match w.calls id with
  | none => []
  | some c =>
    match c.phase with
    | .reading _ rec => rec.filter fun piece => piece ≠ some (w.commits c.path)
    | _ => []

/-- No statement raises, and no commit has come between what a call read and its second
look at the token. -/
def Quiet (w : World Token) : Event → Prop
  | .read _ ok => ok = true
  | .restat id ok => ok = true → w.behind id = []
  | _ => True

/-! ## What every state keeps -/

variable {f r}

/-- A token the account had, and a record no older than it. -/
def Kept (f : Files Token) (p : Path) (token : Token) (rec : List Piece) : Prop :=
  ∃ v k, token = f.token p v k ∧ Covers v rec

/-- What a call knows, with `n` commits to its database so far. -/
def CallSound (f : Files Token) (n : ℕ) (c : Call Token) : Prop :=
  match c.phase with
  | .called => c.since ≤ n
  | .looking token | .opening token =>
    ∃ v k, token = f.token c.path v k ∧ c.since ≤ v ∧ v ≤ n
  | .reading token rec =>
    ∃ v k, token = f.token c.path v k ∧ c.since ≤ v ∧ v ≤ n ∧ Covers v rec
  | .remembering after rec => Covers c.since rec ∧ Kept f c.path after rec
  | .answered (some rec) => Covers c.since rec
  | .answered none => True

structure Sound (f : Files Token) (w : World Token) : Prop where
  cache : ∀ p hit, w.cache.get? p = some hit → Kept f p hit.1 hit.2
  calls : ∀ id c, w.calls id = some c → CallSound f (w.commits c.path) c

theorem covers_mono {v v' : ℕ} {rec : List Piece} (hv : v ≤ v') (h : Covers v' rec) :
    Covers v rec := by
  intro piece hp
  obtain ⟨u, hu, hle⟩ := h piece hp
  exact ⟨u, hu, Nat.le_trans hv hle⟩

theorem CallSound.mono {n n' : ℕ} {c : Call Token} (hn : n ≤ n') (h : CallSound f n c) :
    CallSound f n' c := by
  unfold CallSound at h ⊢
  split
  next hph =>
    rw [hph] at h
    exact Nat.le_trans h hn
  next token hph =>
    rw [hph] at h
    obtain ⟨v, k, ht, hs, hv⟩ := h
    exact ⟨v, k, ht, hs, Nat.le_trans hv hn⟩
  next token hph =>
    rw [hph] at h
    obtain ⟨v, k, ht, hs, hv⟩ := h
    exact ⟨v, k, ht, hs, Nat.le_trans hv hn⟩
  next token rec hph =>
    rw [hph] at h
    obtain ⟨v, k, ht, hs, hv, hrec⟩ := h
    exact ⟨v, k, ht, hs, Nat.le_trans hv hn, hrec⟩
  next after rec hph =>
    rw [hph] at h
    exact h
  next rec hph =>
    rw [hph] at h
    exact h
  next => trivial

theorem sound_start (f : Files Token) : Sound f ({} : World Token) where
  cache := fun p hit h => by cases h
  calls := fun _ _ h => by cases h

theorem Sound.current {w : World Token} (h : Sound f w) : Current w := by
  intro id c rec hc hph
  have hcall := h.calls id c hc
  unfold CallSound at hcall
  rw [hph] at hcall
  exact hcall

/-- A call that goes on leaves the other calls as they were. -/
theorem Sound.goes {w : World Token} {id : ℕ} {c : Call Token} {ph : Phase Token}
    (h : Sound f w) (hcall : CallSound f (w.commits c.path) { c with phase := ph }) :
    Sound f (w.goes id c ph) where
  cache := h.cache
  calls := by
    intro id' c' hc'
    unfold World.goes at hc'
    by_cases hid : id' = id
    · rw [hid] at hc'
      simp only [Function.update_self, Option.some.injEq] at hc'
      rw [← hc']
      exact hcall
    · simp only [Function.update_of_ne hid] at hc'
      exact h.calls id' c' hc'

theorem Sound.keep {w : World Token} {p : Path} {after : Token} {rec : List Piece}
    (h : Sound f w) (hkept : Kept f p after rec) : Sound f (w.keep r p after rec) where
  cache := by
    intro p' hit hhit
    have hset := Dict.get?_of_keepNewest hhit
    rw [Dict.get?_set] at hset
    split at hset
    next hp =>
      obtain rfl := Option.some.inj hset
      rw [hp]
      exact hkept
    next => exact h.cache p' hit hset
  calls := h.calls

theorem token?_eq_some {w : World Token} {p : Path} {ok : Bool} {token : Token}
    (h : w.token? f p ok = some token) :
    ok = true ∧ token = f.token p (w.commits p) (w.touches p) := by
  unfold World.token? at h
  split at h
  next hok => exact ⟨hok.1, (Option.some.inj h).symm⟩
  next => cases h

/-! ## The steps of a call -/

section
variable [DecidableEq Token] {w : World Token} {id : ℕ} {c : Call Token}

theorem sound_stat (h : Sound f w) (hc : CallSound f (w.commits c.path) c) (ok : Bool) :
    Sound f (w.act f r id c (.stat id ok)) := by
  show Sound f (match c.phase with
    | .called => _
    | _ => w)
  split
  next hph =>
    unfold CallSound at hc
    rw [hph] at hc
    refine h.goes ?_
    cases htoken : w.token? f c.path ok with
    | none => trivial
    | some token => exact ⟨_, _, (token?_eq_some htoken).2, hc, Nat.le_refl _⟩
  next => exact h

/-- A hit is under the token the call took, so it is no older than the call. -/
theorem sound_lookup (hf : f.TellsCommits) (h : Sound f w)
    (hc : CallSound f (w.commits c.path) c) : Sound f (w.act f r id c (.lookup id)) := by
  show Sound f (match c.phase with
    | .looking token => _
    | _ => w)
  split
  next token hph =>
    unfold CallSound at hc
    rw [hph] at hc
    refine h.goes ?_
    unfold World.look
    split
    next hit hget =>
      split
      next heq =>
        obtain ⟨v, k, ht, hs, hv⟩ := hc
        obtain ⟨v', k', ht', hrec⟩ := h.cache c.path hit hget
        have hsame : v' = v := hf c.path v' v k' k (by rw [← ht', heq, ht])
        exact covers_mono hs (hsame ▸ hrec)
      next => exact hc
    next => exact hc
  next => exact h

theorem sound_openDb (h : Sound f w) (hc : CallSound f (w.commits c.path) c) (ok : Bool) :
    Sound f (w.act f r id c (.openDb id ok)) := by
  show Sound f (match c.phase with
    | .opening token => _
    | _ => w)
  split
  next token hph =>
    unfold CallSound at hc
    rw [hph] at hc
    refine h.goes ?_
    cases ok with
    | false => trivial
    | true =>
      obtain ⟨v, k, ht, hs, hv⟩ := hc
      exact ⟨v, k, ht, hs, hv, fun piece hp => absurd hp List.not_mem_nil⟩
  next => exact h

theorem sound_read (h : Sound f w) (hc : CallSound f (w.commits c.path) c) :
    Sound f (w.act f r id c (.read id true)) := by
  show Sound f (match c.phase with
    | .reading token rec => if rec.length < r.statements then _ else w
    | _ => w)
  split
  next token rec hph =>
    unfold CallSound at hc
    rw [hph] at hc
    split
    next =>
      obtain ⟨v, k, ht, hs, hv, hrec⟩ := hc
      refine h.goes ⟨v, k, ht, hs, hv, ?_⟩
      intro piece hp
      rcases List.mem_append.mp hp with hold | hnew
      · exact hrec piece hold
      · exact ⟨w.commits c.path, List.mem_singleton.mp hnew, hv⟩
    next => exact h
  next => exact h

/-- The second token is kept with what was read: of the same commit, when none came in
between; when the file cannot be looked at, the first token is. -/
theorem sound_restat (h : Sound f w) (hid : w.calls id = some c) (ok : Bool)
    (hquiet : ok = true → w.behind id = []) : Sound f (w.act f r id c (.restat id ok)) := by
  have hc := h.calls id c hid
  show Sound f (match c.phase with
    | .reading token rec => if rec.length = r.statements then _ else w
    | _ => w)
  split
  next token rec hph =>
    unfold CallSound at hc
    rw [hph] at hc
    split
    next =>
      obtain ⟨v, k, ht, hs, hv, hrec⟩ := hc
      refine h.goes ⟨covers_mono hs hrec, ?_⟩
      cases hafter : w.token? f c.path ok with
      | none => exact ⟨v, k, ht, hrec⟩
      | some after =>
        obtain ⟨hok, hto⟩ := token?_eq_some hafter
        have hnone := hquiet hok
        unfold World.behind at hnone
        rw [hid] at hnone
        simp only [hph, List.filter_eq_nil_iff, decide_eq_true_eq, not_not] at hnone
        exact ⟨_, _, hto, fun piece hp => ⟨_, hnone piece hp, Nat.le_refl _⟩⟩
    next => exact h
  next => exact h

theorem sound_remember (h : Sound f w) (hc : CallSound f (w.commits c.path) c) :
    Sound f (w.act f r id c (.remember id)) := by
  show Sound f (match c.phase with
    | .remembering after rec => _
    | _ => w)
  split
  next after rec hph =>
    unfold CallSound at hc
    rw [hph] at hc
    exact (h.keep hc.2).goes hc.1
  next => exact h

end

section
variable [DecidableEq Token]

theorem step_turn {w : World Token} {e : Event} {id : ℕ} (hid : e.caller = some id) :
    step f r w e = turn f r w e := by
  cases e with
  | stat | lookup | openDb | read | restat | remember => rfl
  | call | commit | touch | clear => cases hid

theorem sound_act (hf : f.TellsCommits) {w : World Token} {e : Event} {id : ℕ} {c : Call Token}
    (h : Sound f w) (hquiet : Quiet w e) (hid : e.caller = some id) (hc : w.calls id = some c) :
    Sound f (w.act f r id c e) := by
  have hcall := h.calls id c hc
  cases e with
  | stat _ ok => exact sound_stat (r := r) h hcall ok
  | lookup _ => exact sound_lookup (r := r) hf h hcall
  | openDb _ ok => exact sound_openDb (r := r) h hcall ok
  | read _ ok =>
    obtain rfl : ok = true := hquiet
    exact sound_read (r := r) h hcall
  | restat _ ok =>
    obtain rfl := Option.some.inj hid
    exact sound_restat (r := r) h hc ok hquiet
  | remember _ => exact sound_remember (r := r) h hcall
  | call | commit | touch | clear => cases hid

theorem sound_call {w : World Token} (h : Sound f w) (id : ℕ) (p : Path) :
    Sound f (step f r w (.call id p)) where
  cache := h.cache
  calls := by
    intro id' c hc
    have hc' : Function.update w.calls id (some { path := p, since := w.commits p }) id' = some c :=
      hc
    by_cases hid : id' = id
    · rw [hid, Function.update_self] at hc'
      obtain rfl := Option.some.inj hc'
      exact Nat.le_refl (w.commits p)
    · rw [Function.update_of_ne hid] at hc'
      exact h.calls id' c hc'

/-- A commit takes nothing away from what is known. -/
theorem sound_commit {w : World Token} (h : Sound f w) (p : Path) :
    Sound f (step f r w (.commit p)) where
  cache := h.cache
  calls := by
    intro id c hc
    refine (h.calls id c hc).mono ?_
    show w.commits c.path ≤ Function.update w.commits p (w.commits p + 1) c.path
    by_cases hp : c.path = p
    · rw [hp, Function.update_self]
      exact Nat.le_succ _
    · exact Nat.le_of_eq (Function.update_of_ne hp _ w.commits).symm

theorem sound_step (hf : f.TellsCommits) (w : World Token) (e : Event) (h : Sound f w)
    (hquiet : Quiet w e) : Sound f (step f r w e) := by
  cases hid : e.caller with
  | some id =>
    rw [step_turn hid]
    unfold turn
    rw [hid, Option.bind_some]
    cases hc : w.calls id with
    | none => exact h
    | some c => exact sound_act hf h hquiet hid hc
  | none =>
    cases e with
    | call id p => exact sound_call h id p
    | commit p => exact sound_commit h p
    | touch p => exact ⟨h.cache, h.calls⟩
    | clear => exact ⟨fun _ _ hget => absurd hget (by simp [step]), h.calls⟩
    | stat | lookup | openDb | read | restat | remember => cases hid

/-- Every record a call gives includes each commit that had returned when the call began,
in every run in which no commit falls between a call's reads and its second look at the
token, and no statement raises. -/
theorem reads_current (f : Files Token) (hf : f.TellsCommits) (r : Reader) (es : List Event)
    (hquiet : Along (step f r) Quiet {} es) :
    Along (step f r) (fun w e => Current (step f r w e)) {} es :=
  along_of_inv (I := Sound f)
    (fun w e h hq => ⟨(sound_step hf w e h hq).current, sound_step hf w e h hq⟩)
    es (sound_start f) hquiet

end

end

/-- The plainest files: a token is the number of commits and of touches. -/
def plainFiles : Files (ℕ × ℕ) := { token := fun _ v k => (v, k) }

theorem plainFiles_tellsCommits : plainFiles.TellsCommits :=
  fun _ _ _ _ _ h => congrArg Prod.fst h

/-- The steps of a call that finds nothing it can use. -/
def missSteps (id : ℕ) (p : Path) : List Event :=
  [.call id p, .stat id true, .lookup id, .openDb id true, .read id true, .read id true,
    .read id true]

/-- A call that reads, a commit, and a second call, which reads again. -/
theorem reads_current_two :
    let es : List Event := .commit "a" :: missSteps 0 "a" ++
      [.restat 0 true, .remember 0, .commit "a"] ++ missSteps 1 "a" ++ [.restat 1 true, .remember 1]
    Along (step plainFiles readPaperAccount) Quiet {} es ∧
      Along (step plainFiles readPaperAccount)
        (fun w e => Current (step plainFiles readPaperAccount w e)) {} es := by
  have hquiet : Along (step plainFiles readPaperAccount) Quiet {}
      (.commit "a" :: missSteps 0 "a" ++ [.restat 0 true, .remember 0, .commit "a"] ++
        missSteps 1 "a" ++ [.restat 1 true, .remember 1]) := by
    refine ⟨trivial, trivial, trivial, trivial, trivial, rfl, rfl, rfl, fun _ => ?_, trivial,
      trivial, trivial, trivial, trivial, trivial, rfl, rfl, rfl, fun _ => ?_, trivial, trivial⟩
    · decide +kernel
    · decide +kernel
  exact ⟨hquiet, reads_current plainFiles plainFiles_tellsCommits readPaperAccount _ hquiet⟩

/-- A commit falls between the last statement and the second token: the next call is
given the record without it. -/
theorem commit_in_the_gap :
    let es : List Event := .commit "a" :: missSteps 0 "a" ++
      [.commit "a", .restat 0 true, .remember 0, .call 1 "a", .stat 1 true, .lookup 1]
    let w := es.foldl (step plainFiles readPaperAccount) {}
    plainFiles.TellsCommits ∧
      w.calls 1 = some ⟨"a", 2, .answered (some [some 1, some 1, some 1])⟩ ∧
      ¬ Along (step plainFiles readPaperAccount)
        (fun w e => Current (step plainFiles readPaperAccount w e)) {} es := by
  refine ⟨plainFiles_tellsCommits, by decide +kernel, ?_⟩
  intro h
  have hlast := h.2.2.2.2.2.2.2.2.2.2.2.2.2.1
  obtain ⟨v, hv, hle⟩ := hlast 1 ⟨"a", 2, .answered (some [some 1, some 1, some 1])⟩ _
    (by decide +kernel) rfl (some 1) (List.mem_cons_self ..)
  obtain rfl := Option.some.inj hv
  exact absurd hle (by decide)

end PaperTrading.Trading.AccountCache
