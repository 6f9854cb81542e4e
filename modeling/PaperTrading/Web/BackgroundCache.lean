import Mathlib.Algebra.Order.Field.Rat
import Mathlib.Data.Rat.Defs
import Mathlib.Logic.Function.Basic
import Mathlib.Tactic.Linarith
import PaperTrading.Lib.Runs

/-!
# The background cache

`web/bg_cache.py`. A `get` reads the clock and the token, and takes the guard: it finds the
slot of its key, or makes one, and starts a build of it if one is due. The build's thread
writes to the slot it was given when it ends. A key over `max_keys` is dropped, the oldest
first; a slot that is being built is never dropped, but the slot just made can be, before
its build starts.

A dropped key has forgotten its build, so a `get` of it starts another one at once, beside
one that still runs or right after one that has just begun (`dropped_key_builds_twice`).
`single_flight` says that nothing else goes wrong: an interleaving keeps to one build a key
at a time, builds of a key begin `min_interval` apart, a payload is replaced by one whose
build began later, a failed build leaves the payload, and a payload shown as ready was built
no earlier than its token was read, exactly when each `get` of a key that is not in the
cache comes when the builds of the key have ended and began `min_interval` ago.
-/

namespace PaperTrading.Web

open PaperTrading.Lib

/-! ## Slots and builds -/

inductive ReadStatus where
  | ready
  | stale
  | computing
deriving DecidableEq, Repr

/-- `CacheRead` -/
structure CacheRead (V : Type) where
  value : Option V
  status : ReadStatus
  builtAt : Option ℚ
  building : Bool
  error : Option String

/-- `_Slot`; a slot `has` a payload where `value` is one. Beside the code: the key the slot
was made for, and the number of the build its payload is from. -/
structure CacheSlot (κ T V : Type) where
  key : Option κ
  value : Option V
  builtAt : Option ℚ
  attemptedAt : Option ℚ
  token : Option T
  building : Bool
  error : Option String
  madeBy : Option ℕ

/-- A call of `get` up to the guard: the clock it read (`now`) and its token, at which moment
of the run. -/
structure CacheCall (κ T : Type) where
  key : κ
  now : ℚ
  token : Option T
  moment : ℕ

/-- A build: the call that started it, the slot it was given, and the clock and the moment of
the run when it started. -/
structure CacheBuild (κ T : Type) where
  call : CacheCall κ T
  slot : ℕ
  started : ℚ
  moment : ℕ

/-- How a builder ends: a payload at a time, or an exception with its text and its type. -/
inductive BuildEnd (V : Type) where
  | ok (value : V) (builtAt : ℚ)
  | failed (text typeName : String)

/-- The arguments of the cache. The constructor refuses a negative interval and raises
`max_keys` to one. -/
structure CacheConfig where
  minInterval : ℚ
  maxKeys : ℕ
  nonneg : 0 ≤ minInterval
  one_le : 1 ≤ maxKeys

section
variable {κ T V : Type}

def CacheSlot.new (key : Option κ) : CacheSlot κ T V :=
  { key := key, value := none, builtAt := none, attemptedAt := none, token := none,
    building := false, error := none, madeBy := none }

/-- `_read` -/
def CacheSlot.read (slot : CacheSlot κ T V) : CacheRead V :=
  match slot.value with
  | none => ⟨none, .computing, none, slot.building, slot.error⟩
  | some value =>
    let status := if slot.building || slot.error.any (· ≠ "") then .stale else .ready
    ⟨some value, status, slot.builtAt, slot.building, slot.error⟩

/-- `_due` -/
def CacheSlot.due [DecidableEq T] (slot : CacheSlot κ T V) (minInterval : ℚ) (token : Option T)
    (now : ℚ) : Bool :=
  if slot.building then false
  else if slot.attemptedAt.any fun a => decide (now - a < minInterval) then false
  else if slot.value.isNone then true
  else token.isNone || decide (token ≠ slot.token)

/-- What the end of a build writes to its slot; `n` is the number of the build. -/
def CacheSlot.ended (slot : CacheSlot κ T V) (n : ℕ) (token : Option T) :
    BuildEnd V → CacheSlot κ T V
  | .ok value builtAt =>
    { slot with value := some value, builtAt := some builtAt, token := token, building := false,
                error := none, madeBy := some n }
  | .failed text typeName =>
    { slot with building := false, error := some (if text = "" then typeName else text) }

/-- `_evict`: drop the first slot that is not being built while there are too many keys. -/
def evict (maxKeys : ℕ) (building : ℕ → Bool) : ℕ → List (κ × ℕ) → List (κ × ℕ)
  | 0, held => held
  | fuel + 1, held =>
    if held.length ≤ maxKeys then held
    else if held.any fun e => !building e.2 then
      evict maxKeys building fuel (held.eraseP fun e => !building e.2)
    else held

/-! ## The cache -/

/-- `_slots` is `held`, from keys to the slots numbered below `nextSlot`. Beside the code:
the clock, the number of events so far, every build in the order of their starts and whether
it runs, and the calls of `get` with the slot each was given. -/
structure BgCache (κ T V : Type) where
  clock : ℚ
  moment : ℕ
  slots : ℕ → CacheSlot κ T V
  nextSlot : ℕ
  held : List (κ × ℕ)
  builds : List (CacheBuild κ T)
  running : ℕ → Bool
  calls : List (CacheCall κ T)
  given : ℕ → Option ℕ

/-- Time passes; a `get` reads clock and token, then takes the guard; a build ends. Reading a
slot changes nothing. -/
inductive CacheEvent (κ T V : Type) where
  | pass (clock : ℚ)
  | call (key : κ) (token : Option T)
  | guard (i : ℕ)
  | finish (n : ℕ) (how : BuildEnd V)

namespace BgCache

def start : BgCache κ T V :=
  { clock := 0, moment := 0, slots := fun _ => .new none, nextSlot := 0, held := [], builds := [],
    running := fun _ => false, calls := [], given := fun _ => none }

section
variable [DecidableEq κ] [DecidableEq T]

/-- The slot the key is filed under. -/
def slotOf (s : BgCache κ T V) (key : κ) : Option ℕ :=
  (s.held.find? fun e => e.1 = key).map Prod.snd

/-- `_slot` for a key that has none: the slot made is the one numbered `nextSlot`. -/
def make (cfg : CacheConfig) (s : BgCache κ T V) (key : κ) : BgCache κ T V :=
  let slots := Function.update s.slots s.nextSlot (.new (some key))
  let held := s.held ++ [(key, s.nextSlot)]
  { s with
    slots := slots
    nextSlot := s.nextSlot + 1
    held := evict cfg.maxKeys (fun id => (slots id).building) held.length held }

/-- `move_to_end` -/
def moveToEnd (s : BgCache κ T V) (key : κ) (id : ℕ) : BgCache κ T V :=
  { s with held := (s.held.filter fun e => e.1 ≠ key) ++ [(key, id)] }

/-- A build of the slot starts. -/
def launch (s : BgCache κ T V) (c : CacheCall κ T) (id : ℕ) : BgCache κ T V :=
  { s with
    slots := Function.update s.slots id
      { s.slots id with building := true, attemptedAt := some c.now }
    builds := s.builds ++ [⟨c, id, s.clock, s.moment⟩]
    running := Function.update s.running s.builds.length true }

/-- The rest of `get` on the slot of its key. -/
def schedule (cfg : CacheConfig) (s : BgCache κ T V) (c : CacheCall κ T) (id : ℕ) : BgCache κ T V :=
  if (s.slots id).due cfg.minInterval c.token c.now then s.launch c id else s

/-- Under the guard, call `i` finds or makes its slot. -/
def get (cfg : CacheConfig) (s : BgCache κ T V) (i : ℕ) (c : CacheCall κ T) : BgCache κ T V :=
  match s.slotOf c.key with
  | some id =>
    { (s.moveToEnd c.key id).schedule cfg c id with given := Function.update s.given i (some id) }
  | none =>
    { (s.make cfg c.key).schedule cfg c s.nextSlot with
      given := Function.update s.given i (some s.nextSlot) }

/-- The end of `_run`. -/
def finish (s : BgCache κ T V) (n : ℕ) (b : CacheBuild κ T) (how : BuildEnd V) : BgCache κ T V :=
  { s with
    slots := Function.update s.slots b.slot ((s.slots b.slot).ended n b.call.token how)
    running := Function.update s.running n false }

/-- One event. The clock never goes back; a call takes the guard once, and a build ends
once. -/
def act (cfg : CacheConfig) (s : BgCache κ T V) : CacheEvent κ T V → BgCache κ T V
  | .pass clock => { s with clock := max s.clock clock }
  | .call key token => { s with calls := s.calls ++ [⟨key, s.clock, token, s.moment⟩] }
  | .guard i =>
    match s.calls[i]? with
    | some c => if s.given i = none then s.get cfg i c else s
    | none => s
  | .finish n how =>
    match s.builds[n]? with
    | some b => if s.running n then s.finish n b how else s
    | none => s

def step (cfg : CacheConfig) (s : BgCache κ T V) (e : CacheEvent κ T V) : BgCache κ T V :=
  { s.act cfg e with moment := s.moment + 1 }

/-! ## What the cache promises -/

/-- The builds of a key that run. -/
def Single (s : BgCache κ T V) : Prop :=
  ∀ n m b b', s.builds[n]? = some b → s.builds[m]? = some b' → b.call.key = b'.call.key →
    s.running n = true → s.running m = true → n = m

/-- Two builds of a key begin the interval apart: by the clocks their calls read, and by the
clock at the start of the second one. -/
def Apart (cfg : CacheConfig) (s : BgCache κ T V) : Prop :=
  ∀ (n m : ℕ) (b b' : CacheBuild κ T), n < m → s.builds[n]? = some b → s.builds[m]? = some b' → b.call.key = b'.call.key →
    cfg.minInterval ≤ b'.call.now - b.call.now ∧ cfg.minInterval ≤ b'.started - b.call.now

/-- What holds at an event that takes `s` to `s'`. -/
structure SingleFlight (cfg : CacheConfig) (s : BgCache κ T V) (e : CacheEvent κ T V) : Prop where
  single : (s.step cfg e).Single
  apart : (s.step cfg e).Apart cfg
  /-- A payload gives way only to one of a build of the same key that began later. -/
  newer : ∀ id, ((s.step cfg e).slots id).madeBy ≠ (s.slots id).madeBy →
    ∃ m b, ((s.step cfg e).slots id).madeBy = some m ∧ s.builds[m]? = some b ∧ b.slot = id ∧
      ∀ id' n b', (s.slots id').madeBy = some n → s.builds[n]? = some b' →
        b'.call.key = b.call.key → n < m
  /-- A payload is what the build it is from made of it. -/
  kept : ∀ id, ((s.step cfg e).slots id).madeBy = (s.slots id).madeBy →
    ((s.step cfg e).slots id).value = (s.slots id).value
  /-- A build that fails leaves every payload as it was. -/
  failed : ∀ n text typeName, e = .finish n (.failed text typeName) → ∀ id,
    ((s.step cfg e).slots id).value = (s.slots id).value ∧
      ((s.step cfg e).slots id).madeBy = (s.slots id).madeBy
  /-- A payload that reads as ready is from a build that began after its token was read. -/
  ready : ∀ id, ((s.step cfg e).slots id).read.status = .ready →
    ∃ n b, ((s.step cfg e).slots id).madeBy = some n ∧ (s.step cfg e).builds[n]? = some b ∧
      b.call.token = ((s.step cfg e).slots id).token ∧ b.call.moment ≤ b.moment

/-- A call of a key that is not in the cache takes the guard when the builds of the key have
ended and the clock it read is the interval past those theirs read. -/
def Patient (cfg : CacheConfig) (s : BgCache κ T V) : CacheEvent κ T V → Prop
  | .guard i => ∀ c, s.calls[i]? = some c → s.given i = none → s.slotOf c.key = none →
    ∀ n b, s.builds[n]? = some b → b.call.key = c.key →
      s.running n = false ∧ cfg.minInterval ≤ c.now - b.call.now
  | _ => True

end

/-! ## What holds between the events -/

/-- Slots and builds fit together. A slot has a key from when it is made, and is then built
for that key only; the slot of a running build is marked; among the builds of a key only the
last can run; and a payload is from an ended build of its slot. -/
structure Base (cfg : CacheConfig) (s : BgCache κ T V) : Prop where
  fresh : (s.slots s.nextSlot).key = none ∧ ∀ id, s.nextSlot < id → (s.slots id).key = none
  held_key : ∀ key id, (key, id) ∈ s.held → (s.slots id).key = some key
  held_one : ∀ key id id', (key, id) ∈ s.held → (key, id') ∈ s.held → id = id'
  build_key : ∀ (n : ℕ) (b : CacheBuild κ T), s.builds[n]? = some b → (s.slots b.slot).key = some b.call.key
  building : ∀ (n : ℕ) (b : CacheBuild κ T), s.builds[n]? = some b → s.running n = true → (s.slots b.slot).building = true
  last : ∀ (n m : ℕ) (b b' : CacheBuild κ T), s.builds[n]? = some b → s.builds[m]? = some b' → b.call.key = b'.call.key →
    s.running m = true → n ≤ m
  apart : s.Apart cfg
  made : ∀ id n, (s.slots id).madeBy = some n → ∃ b, s.builds[n]? = some b ∧ b.slot = id ∧
    b.call.token = (s.slots id).token ∧ s.running n = false
  value_made : ∀ id, (s.slots id).value.isSome = (s.slots id).madeBy.isSome
  timed : ∀ (n : ℕ) (b : CacheBuild κ T), s.builds[n]? = some b →
    b.call.moment ≤ b.moment ∧ b.call.now ≤ b.started
  called : ∀ (i : ℕ) (c : CacheCall κ T), s.calls[i]? = some c → c.moment ≤ s.moment ∧ c.now ≤ s.clock

/-- The slot in the cache is the one the key was last built in. -/
def Newest (s : BgCache κ T V) (key : κ) : Prop :=
  ∀ id, (key, id) ∈ s.held → ∀ n b, s.builds[n]? = some b → b.call.key = key →
    (s.running n = true → b.slot = id) ∧ ∃ a, (s.slots id).attemptedAt = some a ∧ b.call.now ≤ a

structure Inv (cfg : CacheConfig) (s : BgCache κ T V) : Prop extends Base cfg s where
  newest : ∀ key, s.Newest key

variable {cfg : CacheConfig} {s : BgCache κ T V}

theorem inv_start : (BgCache.start : BgCache κ T V).Inv cfg where
  fresh := ⟨rfl, fun _ _ => rfl⟩
  held_key _ _ h := by cases h
  held_one _ _ _ h := by cases h
  build_key _ _ h := by cases h
  building _ _ h := by cases h
  last _ _ _ _ h := by cases h
  apart _ _ _ _ _ h := by cases h
  made _ _ h := by cases h
  value_made _ := rfl
  timed _ _ h := by cases h
  called _ _ h := by cases h
  newest _ _ h := by cases h

theorem Base.single (hs : s.Base cfg) : s.Single := by
  intro n m b b' hb hb' hkey hn hm
  exact Nat.le_antisymm (hs.last n m b b' hb hb' hkey hm) (hs.last m n b' b hb' hb hkey.symm hn)

/-- Nothing of the key runs, and the clock the call read is the interval past its builds. -/
def Idle (cfg : CacheConfig) (s : BgCache κ T V) (c : CacheCall κ T) : Prop :=
  ∀ n b, s.builds[n]? = some b → b.call.key = c.key →
    s.running n = false ∧ cfg.minInterval ≤ c.now - b.call.now

theorem getElem?_launch {c : CacheCall κ T} {id n : ℕ} {b : CacheBuild κ T} :
    (s.launch c id).builds[n]? = some b ↔
      s.builds[n]? = some b ∨ n = s.builds.length ∧ b = ⟨c, id, s.clock, s.moment⟩ := by
  show (s.builds ++ [_])[n]? = some b ↔ _
  by_cases hn : n < s.builds.length
  · rw [List.getElem?_append_left hn]
    exact (or_iff_left fun h => Nat.ne_of_lt hn h.1).symm
  · rw [List.getElem?_append_right (Nat.le_of_not_lt hn), List.getElem?_eq_none (Nat.le_of_not_lt hn)]
    by_cases he : n = s.builds.length
    · subst he
      rw [Nat.sub_self]
      simp [eq_comm]
    · have hpos : n - s.builds.length ≠ 0 := by omega
      obtain ⟨k, hk⟩ := Nat.exists_eq_succ_of_ne_zero hpos
      rw [hk]
      simp [he]

/-- A build starts in the slot of an idle key. -/
theorem Base.launch (hs : s.Base cfg) {c : CacheCall κ T} {id : ℕ}
    (hcall : c.moment ≤ s.moment ∧ c.now ≤ s.clock) (hid : (s.slots id).key = some c.key)
    (hidle : s.Idle cfg c) : (s.launch c id).Base cfg := by
  have hkey : ∀ id', ((s.launch c id).slots id').key = (s.slots id').key := by
    intro id'
    show (Function.update s.slots id _ id').key = _
    by_cases h : id' = id
    · rw [h, Function.update_self]
    · rw [Function.update_of_ne h]
  have hrun : ∀ {n b}, s.builds[n]? = some b → (s.launch c id).running n = s.running n := by
    intro n b hb
    refine Function.update_of_ne (fun he => ?_) ..
    rw [he, List.getElem?_eq_none (le_refl _)] at hb
    cases hb
  refine ⟨?_, ?_, hs.held_one, ?_, ?_, ?_, ?_, ?_, ?_, ?_, hs.called⟩
  · exact ⟨(hkey _).trans hs.fresh.1, fun id' h => (hkey id').trans (hs.fresh.2 id' h)⟩
  · intro key id' h
    rw [hkey]
    exact hs.held_key key id' h
  · intro n b hb
    rw [hkey]
    obtain hb | ⟨-, rfl⟩ := getElem?_launch.mp hb
    · exact hs.build_key n b hb
    · exact hid
  · intro n b hb hn
    show (Function.update s.slots id _ b.slot).building = true
    obtain hb | ⟨-, rfl⟩ := getElem?_launch.mp hb
    · by_cases h : b.slot = id
      · rw [h, Function.update_self]
      · rw [Function.update_of_ne h]
        rw [hrun hb] at hn
        exact hs.building n b hb hn
    · rw [Function.update_self]
  · intro n m b b' hb hb' hsame hm
    obtain hb' | ⟨rfl, rfl⟩ := getElem?_launch.mp hb'
    · rw [hrun hb'] at hm
      obtain hb | ⟨rfl, rfl⟩ := getElem?_launch.mp hb
      · exact hs.last n m b b' hb hb' hsame hm
      · -- the key of the build that starts is idle
        rw [(hidle m b' hb' hsame.symm).1] at hm
        cases hm
    · obtain hb | ⟨rfl, -⟩ := getElem?_launch.mp hb
      · exact (List.getElem?_eq_some_iff.mp hb).1.le
      · exact le_refl _
  · intro n m b b' hnm hb hb' hsame
    obtain hb | ⟨rfl, -⟩ := getElem?_launch.mp hb
    · obtain hb' | ⟨rfl, rfl⟩ := getElem?_launch.mp hb'
      · exact hs.apart n m b b' hnm hb hb' hsame
      · have hgap := (hidle n b hb hsame).2
        exact ⟨hgap, hgap.trans (sub_le_sub_right hcall.2 _)⟩
    · obtain hb' | ⟨rfl, -⟩ := getElem?_launch.mp hb'
      · exact absurd (List.getElem?_eq_some_iff.mp hb').1 (Nat.lt_asymm hnm)
      · exact absurd hnm (Nat.lt_irrefl _)
  · intro id' n hn
    have hslot : ((s.launch c id).slots id').madeBy = (s.slots id').madeBy ∧
        ((s.launch c id).slots id').token = (s.slots id').token := by
      show (Function.update s.slots id _ id').madeBy = _ ∧ (Function.update s.slots id _ id').token = _
      by_cases h : id' = id
      · rw [h, Function.update_self]
        exact ⟨rfl, rfl⟩
      · rw [Function.update_of_ne h]
        exact ⟨rfl, rfl⟩
    rw [hslot.1] at hn
    obtain ⟨b, hb, hbid, htoken, hended⟩ := hs.made id' n hn
    exact ⟨b, getElem?_launch.mpr (.inl hb), hbid, htoken.trans hslot.2.symm, (hrun hb).trans hended⟩
  · intro id'
    show (Function.update s.slots id _ id').value.isSome = (Function.update s.slots id _ id').madeBy.isSome
    by_cases h : id' = id
    · rw [h, Function.update_self]
      exact hs.value_made id
    · rw [Function.update_of_ne h]
      exact hs.value_made id'
  · intro n b hb
    obtain hb | ⟨-, rfl⟩ := getElem?_launch.mp hb
    · exact hs.timed n b hb
    · exact hcall

theorem Base.newest_launch (hs : s.Base cfg) {c : CacheCall κ T} {id : ℕ}
    (hid : (s.slots id).key = some c.key) (hidle : s.Idle cfg c)
    (hheld : ∀ id', (c.key, id') ∈ s.held → id' = id) (hnew : ∀ key, key ≠ c.key → s.Newest key)
    (key : κ) : (s.launch c id).Newest key := by
  intro id' hmem n b hb hbkey
  have hrun : s.builds[n]? = some b → (s.launch c id).running n = s.running n := by
    intro hb
    refine Function.update_of_ne (fun he => ?_) ..
    rw [he, List.getElem?_eq_none (le_refl _)] at hb
    cases hb
  have hslot : (s.launch c id).slots id' =
      Function.update s.slots id { s.slots id with building := true, attemptedAt := some c.now } id' :=
    rfl
  obtain hb | ⟨-, rfl⟩ := getElem?_launch.mp hb
  · by_cases hkey : key = c.key
    · subst hkey
      rw [hheld id' hmem] at hslot ⊢
      rw [Function.update_self] at hslot
      obtain ⟨hended, hgap⟩ := hidle n b hb hbkey
      refine ⟨fun hn => ?_, c.now, ?_, ?_⟩
      · rw [hrun hb, hended] at hn
        cases hn
      · rw [hslot]
      · linarith [cfg.nonneg]
    · have hne : id' ≠ id := by
        intro he
        have := hs.held_key key id' hmem
        rw [he, hid] at this
        exact hkey (Option.some.inj this).symm
      rw [Function.update_of_ne hne] at hslot
      rw [hslot, hrun hb]
      exact hnew key hkey id' hmem n b hb hbkey
  · obtain rfl : id' = id := hheld id' (hbkey ▸ hmem)
    refine ⟨fun _ => rfl, c.now, ?_, le_refl _⟩
    rw [hslot, Function.update_self]

/-! ### Finding and making slots -/

/-- What is left after dropping was there. -/
theorem mem_of_evict {maxKeys : ℕ} {building : ℕ → Bool} {e : κ × ℕ} :
    ∀ {fuel : ℕ} {held : List (κ × ℕ)}, e ∈ evict maxKeys building fuel held → e ∈ held := by
  intro fuel
  induction fuel with
  | zero => exact fun h => h
  | succ fuel ih =>
    intro held h
    unfold evict at h
    split at h
    next => exact h
    next =>
      split at h
      next => exact List.mem_of_mem_eraseP (ih h)
      next => exact h

/-- Dropping keys, or moving them. -/
theorem Base.of_held (hs : s.Base cfg) {held : List (κ × ℕ)} (hsub : ∀ e ∈ held, e ∈ s.held) :
    ({ s with held := held } : BgCache κ T V).Base cfg :=
  { hs with
    held_key := fun key id h => hs.held_key key id (hsub _ h)
    held_one := fun key id id' h h' => hs.held_one key id id' (hsub _ h) (hsub _ h') }

/-- A slot that no key has holds no payload. -/
theorem Base.empty_of_fresh (hs : s.Base cfg) {id : ℕ} (h : (s.slots id).key = none) :
    (s.slots id).madeBy = none ∧ (s.slots id).value = none := by
  have hmade : (s.slots id).madeBy = none := by
    cases hm : (s.slots id).madeBy with
    | none => rfl
    | some n =>
      obtain ⟨b, hb, hid, -, -⟩ := hs.made id n hm
      have := hs.build_key n b hb
      rw [hid, h] at this
      cases this
  have hvalue := hs.value_made id
  rw [hmade] at hvalue
  exact ⟨hmade, Option.not_isSome_iff_eq_none.mp (Bool.eq_false_iff.mp hvalue)⟩

/-- The slots after a slot is made. -/
theorem slots_make {key : κ} {id : ℕ} :
    (s.make cfg key).slots id = if id = s.nextSlot then .new (some key) else s.slots id := by
  show Function.update s.slots s.nextSlot _ id = _
  by_cases h : id = s.nextSlot
  · rw [h, Function.update_self, if_pos rfl]
  · rw [Function.update_of_ne h, if_neg h]

theorem mem_of_make {key : κ} {e : κ × ℕ} (he : e ∈ (s.make cfg key).held) :
    e ∈ s.held ∨ e = (key, s.nextSlot) := by
  obtain h | h := List.mem_append.mp (mem_of_evict he)
  · exact .inl h
  · exact .inr (List.mem_singleton.mp h)

theorem newest_make (hs : s.Inv cfg) {key other : κ} (hne : other ≠ key) :
    (s.make cfg key).Newest other := by
  intro id hmem n b hb hbkey
  obtain h | h := mem_of_make hmem
  · have hid : id ≠ s.nextSlot := by
      intro he
      have := hs.held_key other id h
      rw [he, hs.fresh.1] at this
      cases this
    rw [slots_make, if_neg hid]
    exact hs.newest other id h n b hb hbkey
  · cases h
    exact absurd rfl hne

/-! ### The end of a build -/

/-- The slots once build `n` has ended. -/
theorem slots_finish {n : ℕ} {b : CacheBuild κ T} {how : BuildEnd V} {id : ℕ} :
    (s.finish n b how).slots id =
      if id = b.slot then (s.slots id).ended n b.call.token how else s.slots id := by
  show Function.update s.slots b.slot _ id = _
  by_cases h : id = b.slot
  · rw [h, Function.update_self, if_pos rfl]
  · rw [Function.update_of_ne h, if_neg h]

theorem key_ended (slot : CacheSlot κ T V) (n : ℕ) (token : Option T) (how : BuildEnd V) :
    (slot.ended n token how).key = slot.key ∧
      (slot.ended n token how).attemptedAt = slot.attemptedAt := by
  cases how <;> exact ⟨rfl, rfl⟩

theorem Inv.finish (hs : s.Inv cfg) {n : ℕ} {b : CacheBuild κ T} (hb : s.builds[n]? = some b)
    (hn : s.running n = true) (how : BuildEnd V) : (s.finish n b how).Inv cfg := by
  have hkey : ∀ id, ((s.finish n b how).slots id).key = (s.slots id).key ∧
      ((s.finish n b how).slots id).attemptedAt = (s.slots id).attemptedAt := by
    intro id
    rw [slots_finish]
    split
    next => exact key_ended _ n _ how
    next => exact ⟨rfl, rfl⟩
  have hrun : ∀ {m}, (s.finish n b how).running m = true → m ≠ n ∧ s.running m = true := by
    intro m hm
    have hm : Function.update s.running n false m = true := hm
    by_cases h : m = n
    · rw [h, Function.update_self] at hm
      cases hm
    · rw [Function.update_of_ne h] at hm
      exact ⟨h, hm⟩
  have hstop : ∀ {m}, s.running m = false → (s.finish n b how).running m = false := by
    intro m hm
    refine Bool.eq_false_iff.mpr fun h => ?_
    rw [(hrun h).2] at hm
    cases hm
  refine ⟨⟨⟨?_, fun id h => ?_⟩, fun key id h => ?_, hs.held_one, fun m b' hb' => ?_,
    fun m b' hb' hm => ?_, fun m m' b₁ b₂ h₁ h₂ hsame hm => ?_, hs.apart, fun id m hm => ?_,
    fun id => ?_, hs.timed, hs.called⟩, fun key id hmem m b' hb' hbkey => ?_⟩
  · exact (hkey _).1.trans hs.fresh.1
  · exact (hkey id).1.trans (hs.fresh.2 id h)
  · exact (hkey id).1.trans (hs.held_key key id h)
  · exact (hkey _).1.trans (hs.build_key m b' hb')
  · obtain ⟨hne, hm⟩ := hrun hm
    have hother : b'.slot ≠ b.slot := by
      -- two builds in one slot are of one key, and one of them runs
      intro he
      have hk := hs.build_key m b' hb'
      rw [he, hs.build_key n b hb] at hk
      exact hne (hs.toBase.single m n b' b hb' hb (Option.some.inj hk).symm hm hn)
    rw [slots_finish, if_neg hother]
    exact hs.building m b' hb' hm
  · exact hs.last m m' b₁ b₂ h₁ h₂ hsame (hrun hm).2
  · rw [slots_finish] at hm ⊢
    by_cases hid : id = b.slot
    · rw [if_pos hid] at hm ⊢
      cases how with
      | ok value builtAt =>
        cases hm
        exact ⟨b, hb, hid.symm, rfl, Function.update_self ..⟩
      | failed text typeName =>
        obtain ⟨b', hb', hslot, htoken, hended⟩ := hs.made id m hm
        exact ⟨b', hb', hslot, htoken, hstop hended⟩
    · rw [if_neg hid] at hm ⊢
      obtain ⟨b', hb', hslot, htoken, hended⟩ := hs.made id m hm
      exact ⟨b', hb', hslot, htoken, hstop hended⟩
  · rw [slots_finish]
    by_cases hid : id = b.slot
    · rw [if_pos hid]
      cases how with
      | ok value builtAt => rfl
      | failed text typeName => exact hs.value_made id
    · rw [if_neg hid]
      exact hs.value_made id
  · obtain ⟨hslot, ha⟩ := hs.newest key id hmem m b' hb' hbkey
    refine ⟨fun hm => hslot (hrun hm).2, ?_⟩
    rw [(hkey id).2]
    exact ha

/-! ### What the invariant does not read -/

theorem Inv.frame (hs : s.Inv cfg) {clock : ℚ} {moment : ℕ} {calls : List (CacheCall κ T)}
    {given : ℕ → Option ℕ}
    (hcalls : ∀ (i : ℕ) (c : CacheCall κ T), calls[i]? = some c → c.moment ≤ moment ∧ c.now ≤ clock) :
    ({ s with clock := clock, moment := moment, calls := calls, given := given } :
      BgCache κ T V).Inv cfg :=
  { fresh := hs.fresh
    held_key := hs.held_key
    held_one := hs.held_one
    build_key := hs.build_key
    building := hs.building
    last := hs.last
    apart := hs.apart
    made := hs.made
    value_made := hs.value_made
    timed := hs.timed
    called := hcalls
    newest := hs.newest }

/-- A payload that reads as ready is from a build of the slot that began after its token was
read. -/
theorem Base.ready (hs : s.Base cfg) {id : ℕ} (h : (s.slots id).read.status = .ready) :
    ∃ n b, (s.slots id).madeBy = some n ∧ s.builds[n]? = some b ∧
      b.call.token = (s.slots id).token ∧ b.call.moment ≤ b.moment := by
  cases hvalue : (s.slots id).value with
  | none =>
    unfold CacheSlot.read at h
    rw [hvalue] at h
    cases h
  | some value =>
    have hmade := hs.value_made id
    rw [hvalue] at hmade
    obtain ⟨n, hn⟩ := Option.isSome_iff_exists.mp hmade.symm
    obtain ⟨b, hb, -, htoken, -⟩ := hs.made id n hn
    exact ⟨n, b, hn, hb, htoken, (hs.timed n b hb).1⟩

section
variable [DecidableEq κ]

theorem mem_of_slotOf {key : κ} {id : ℕ} (h : s.slotOf key = some id) : (key, id) ∈ s.held := by
  obtain ⟨e, he, rfl⟩ := Option.map_eq_some_iff.mp h
  have hkey := List.find?_some he
  have hkey : e.1 = key := of_decide_eq_true hkey
  exact hkey ▸ List.mem_of_find?_eq_some he

theorem not_mem_of_slotOf {key : κ} (h : s.slotOf key = none) (id : ℕ) : (key, id) ∉ s.held := by
  intro hmem
  have := List.find?_eq_none.mp (Option.map_eq_none_iff.mp h) _ hmem
  exact this (decide_eq_true rfl)

theorem mem_of_moveToEnd {key : κ} {id : ℕ} (h : s.slotOf key = some id) {e : κ × ℕ}
    (he : e ∈ (s.moveToEnd key id).held) : e ∈ s.held := by
  obtain he | he := List.mem_append.mp he
  · exact List.mem_of_mem_filter he
  · rw [List.mem_singleton.mp he]
    exact mem_of_slotOf h

theorem Base.make (hs : s.Base cfg) {key : κ} (hnot : s.slotOf key = none) :
    (s.make cfg key).Base cfg := by
  have hold : ∀ {id other}, (s.slots id).key = some other → id ≠ s.nextSlot := by
    intro id other h he
    rw [he, hs.fresh.1] at h
    cases h
  have hslot : ∀ {id other}, (s.slots id).key = some other →
      (s.make cfg key).slots id = s.slots id := by
    intro id other h
    rw [slots_make, if_neg (hold h)]
  refine ⟨⟨?_, fun id h => ?_⟩, fun other id h => ?_, fun other id id' h h' => ?_,
    fun n b hb => ?_, fun n b hb hn => ?_, hs.last, hs.apart, fun id n hn => ?_, fun id => ?_,
    hs.timed, hs.called⟩
  · show ((s.make cfg key).slots (s.nextSlot + 1)).key = none
    rw [slots_make, if_neg (Nat.succ_ne_self _)]
    exact hs.fresh.2 _ (Nat.lt_succ_self _)
  · have hlt : s.nextSlot < id := (Nat.lt_succ_self _).trans h
    rw [slots_make, if_neg (Nat.ne_of_gt hlt)]
    exact hs.fresh.2 id hlt
  · obtain h | h := mem_of_make h
    · have hkey := hs.held_key other id h
      rw [hslot hkey]
      exact hkey
    · cases h
      rw [slots_make, if_pos rfl]
      rfl
  · obtain h | h := mem_of_make h
    · obtain h' | h' := mem_of_make h'
      · exact hs.held_one other id id' h h'
      · cases h'
        exact absurd h (not_mem_of_slotOf hnot _)
    · cases h
      obtain h' | h' := mem_of_make h'
      · exact absurd h' (not_mem_of_slotOf hnot _)
      · cases h'
        rfl
  · rw [hslot (hs.build_key n b hb)]
    exact hs.build_key n b hb
  · rw [hslot (hs.build_key n b hb)]
    exact hs.building n b hb hn
  · rw [slots_make] at hn ⊢
    split at hn
    next => cases hn
    next h =>
      rw [if_neg h]
      exact hs.made id n hn
  · rw [slots_make]
    split
    next => rfl
    next => exact hs.value_made id

end

/-! ### Under the guard -/

section
variable [DecidableEq T]

/-- A slot that is not being built is due only the interval after the last attempt. -/
theorem of_due {slot : CacheSlot κ T V} {minInterval now : ℚ} {token : Option T}
    (h : slot.due minInterval token now = true) :
    slot.building = false ∧ ∀ a, slot.attemptedAt = some a → minInterval ≤ now - a := by
  unfold CacheSlot.due at h
  split at h
  next => cases h
  next hidle =>
    split at h
    next => cases h
    next hlate =>
      refine ⟨Bool.eq_false_iff.mpr hidle, fun a ha => ?_⟩
      rw [ha] at hlate
      exact not_lt.mp fun hlt => hlate (decide_eq_true hlt)

/-- A call that has to make the slot of its key starts a build. -/
theorem schedule_make (c : CacheCall κ T) :
    (s.make cfg c.key).schedule cfg c s.nextSlot = (s.make cfg c.key).launch c s.nextSlot := by
  have hslot : (s.make cfg c.key).slots s.nextSlot = .new (some c.key) := by
    rw [slots_make, if_pos rfl]
  unfold schedule
  rw [hslot]
  exact if_pos rfl

theorem moment_schedule {c : CacheCall κ T} {id : ℕ} :
    (s.schedule cfg c id).moment = s.moment := by
  unfold schedule
  split <;> rfl

end

section
variable [DecidableEq κ] [DecidableEq T]

/-- A call finds the slot of its key. -/
theorem Inv.schedule_held (hs : s.Inv cfg) {c : CacheCall κ T} {id : ℕ}
    (hcall : c.moment ≤ s.moment ∧ c.now ≤ s.clock) (hid : s.slotOf c.key = some id) :
    ((s.moveToEnd c.key id).schedule cfg c id).Inv cfg := by
  have hmem := mem_of_slotOf hid
  have hsub : ∀ e ∈ (s.moveToEnd c.key id).held, e ∈ s.held := fun e => mem_of_moveToEnd hid
  have hbase : (s.moveToEnd c.key id).Base cfg := hs.toBase.of_held hsub
  have hnew : ∀ key, (s.moveToEnd c.key id).Newest key :=
    fun key id' h n b hb hbkey => hs.newest key id' (hsub _ h) n b hb hbkey
  unfold schedule
  split
  next hdue =>
    obtain ⟨hidle, hlate⟩ := of_due hdue
    have hkey := hs.held_key c.key id hmem
    have hidle' : (s.moveToEnd c.key id).Idle cfg c := by
      intro n b hb hbkey
      obtain ⟨hslot, a, ha, hle⟩ := hs.newest c.key id hmem n b hb hbkey
      refine ⟨Bool.eq_false_iff.mpr fun hn => ?_, ?_⟩
      · have hbuilding := hs.building n b hb hn
        rw [hslot hn] at hbuilding
        exact Bool.eq_false_iff.mp hidle hbuilding
      · have := hlate a ha
        linarith
    exact ⟨hbase.launch hcall hkey hidle', hbase.newest_launch hkey hidle'
      (fun id' h => hs.held_one c.key id' id (hsub _ h) hmem) fun key _ => hnew key⟩
  next => exact ⟨hbase, hnew⟩

theorem Inv.schedule_made (hs : s.Inv cfg) {c : CacheCall κ T}
    (hcall : c.moment ≤ s.moment ∧ c.now ≤ s.clock) (hnot : s.slotOf c.key = none)
    (hidle : s.Idle cfg c) : ((s.make cfg c.key).schedule cfg c s.nextSlot).Inv cfg := by
  rw [schedule_make]
  have hbase := hs.toBase.make hnot
  have hkey : ((s.make cfg c.key).slots s.nextSlot).key = some c.key := by
    rw [slots_make, if_pos rfl]
    rfl
  refine ⟨hbase.launch hcall hkey hidle, hbase.newest_launch hkey hidle (fun id' h => ?_)
    fun key hne => newest_make hs hne⟩
  obtain h | h := mem_of_make h
  · exact absurd h (not_mem_of_slotOf hnot id')
  · cases h
    rfl

theorem Inv.step (hs : s.Inv cfg) (e : CacheEvent κ T V) (hpatient : s.Patient cfg e) :
    (s.step cfg e).Inv cfg := by
  have hlater : ∀ (i : ℕ) (c : CacheCall κ T), s.calls[i]? = some c →
      c.moment ≤ s.moment + 1 ∧ c.now ≤ s.clock :=
    fun i c hc => ⟨(hs.called i c hc).1.trans (Nat.le_succ _), (hs.called i c hc).2⟩
  cases e with
  | pass clock =>
    exact hs.frame fun i c hc => ⟨(hlater i c hc).1, (hlater i c hc).2.trans (le_max_left _ _)⟩
  | call key token =>
    refine hs.frame fun i c hc => ?_
    have hc : (s.calls ++ [⟨key, s.clock, token, s.moment⟩])[i]? = some c := hc
    by_cases hi : i < s.calls.length
    · rw [List.getElem?_append_left hi] at hc
      exact hlater i c hc
    · rw [List.getElem?_append_right (Nat.le_of_not_lt hi)] at hc
      rw [List.mem_singleton.mp (List.mem_of_getElem? hc)]
      exact ⟨Nat.le_succ _, le_refl _⟩
  | guard i =>
    have hsame : ({ s with moment := s.moment + 1 } : BgCache κ T V).Inv cfg := hs.frame hlater
    cases hc : s.calls[i]? with
    | none =>
      simp only [BgCache.step, act, hc]
      exact hsame
    | some c =>
      simp only [BgCache.step, act, hc]
      split
      next hgiven =>
        have hgot : ∀ {s' : BgCache κ T V} {given : ℕ → Option ℕ}, s'.Inv cfg →
            s'.moment = s.moment →
            ({ s' with given := given, moment := s.moment + 1 } : BgCache κ T V).Inv cfg := by
          intro s' given hs' hmoment
          refine hs'.frame fun j c' hc' => ?_
          have hcalled := hs'.called j c' hc'
          rw [hmoment] at hcalled
          exact ⟨hcalled.1.trans (Nat.le_succ _), hcalled.2⟩
        cases hid : s.slotOf c.key with
        | some id =>
          simp only [get, hid]
          exact hgot (hs.schedule_held (hs.called i c hc) hid) moment_schedule
        | none =>
          simp only [get, hid]
          exact hgot (hs.schedule_made (hs.called i c hc) hid (hpatient c hc hgiven hid))
            moment_schedule
      next => exact hsame
  | finish n how =>
    cases hb : s.builds[n]? with
    | none =>
      simp only [BgCache.step, act, hb]
      exact hs.frame hlater
    | some b =>
      simp only [BgCache.step, act, hb]
      split
      next hn => exact (hs.finish hb hn how).frame hlater
      next => exact hs.frame hlater

/-! ### What one event shows -/

/-- Under the guard no payload changes. -/
theorem Inv.payload_get (hs : s.Inv cfg) (i : ℕ) (c : CacheCall κ T) (id : ℕ) :
    ((s.get cfg i c).slots id).madeBy = (s.slots id).madeBy ∧
      ((s.get cfg i c).slots id).value = (s.slots id).value := by
  have hlaunch : ∀ (s' : BgCache κ T V) (id' : ℕ),
      ((s'.schedule cfg c id').slots id).madeBy = (s'.slots id).madeBy ∧
        ((s'.schedule cfg c id').slots id).value = (s'.slots id).value := by
    intro s' id'
    unfold schedule
    split
    next =>
      show (Function.update s'.slots id' _ id).madeBy = _ ∧ (Function.update s'.slots id' _ id).value = _
      by_cases h : id = id'
      · rw [h, Function.update_self]
        exact ⟨rfl, rfl⟩
      · rw [Function.update_of_ne h]
        exact ⟨rfl, rfl⟩
    next => exact ⟨rfl, rfl⟩
  cases hid : s.slotOf c.key with
  | some id' =>
    simp only [get, hid]
    exact hlaunch (s.moveToEnd c.key id') id'
  | none =>
    have hmade : ((s.make cfg c.key).slots id).madeBy = (s.slots id).madeBy ∧
        ((s.make cfg c.key).slots id).value = (s.slots id).value := by
      rw [slots_make]
      split
      next h =>
        obtain ⟨hmadeBy, hvalue⟩ := hs.toBase.empty_of_fresh hs.fresh.1
        rw [h, hmadeBy, hvalue]
        exact ⟨rfl, rfl⟩
      next => exact ⟨rfl, rfl⟩
    simp only [get, hid]
    obtain ⟨h, h'⟩ := hlaunch (s.make cfg c.key) s.nextSlot
    exact ⟨h.trans hmade.1, h'.trans hmade.2⟩

/-- The payload of a slot changes only when a build of it ends, and then to that build's. -/
theorem Inv.payload_step (hs : s.Inv cfg) (e : CacheEvent κ T V) (id : ℕ) :
    (((s.step cfg e).slots id).madeBy = (s.slots id).madeBy ∧
      ((s.step cfg e).slots id).value = (s.slots id).value) ∨
    ∃ n b value builtAt, e = .finish n (.ok value builtAt) ∧ s.builds[n]? = some b ∧
      s.running n = true ∧ b.slot = id ∧ ((s.step cfg e).slots id).madeBy = some n := by
  cases e with
  | pass _ | call _ _ => exact .inl ⟨rfl, rfl⟩
  | guard i =>
    cases hc : s.calls[i]? with
    | none =>
      simp only [BgCache.step, act, hc]
      exact .inl ⟨trivial, trivial⟩
    | some c =>
      simp only [BgCache.step, act, hc]
      split
      next => exact .inl (hs.payload_get i c id)
      next => exact .inl ⟨rfl, rfl⟩
  | finish n how =>
    cases hb : s.builds[n]? with
    | none =>
      simp only [BgCache.step, act, hb]
      exact .inl ⟨trivial, trivial⟩
    | some b =>
      simp only [BgCache.step, act, hb]
      split
      next hn =>
        by_cases hid : id = b.slot
        · cases how with
          | ok value builtAt =>
            refine .inr ⟨n, b, value, builtAt, rfl, hb, hn, hid.symm, ?_⟩
            show ((s.finish n b _).slots id).madeBy = some n
            rw [slots_finish, if_pos hid]
            rfl
          | failed text typeName =>
            refine .inl ?_
            show ((s.finish n b _).slots id).madeBy = _ ∧ ((s.finish n b _).slots id).value = _
            rw [slots_finish, if_pos hid]
            exact ⟨rfl, rfl⟩
        · refine .inl ?_
          show ((s.finish n b _).slots id).madeBy = _ ∧ ((s.finish n b _).slots id).value = _
          rw [slots_finish, if_neg hid]
          exact ⟨rfl, rfl⟩
      next => exact .inl ⟨rfl, rfl⟩

theorem Inv.singleFlight (hs : s.Inv cfg) (e : CacheEvent κ T V) (hpatient : s.Patient cfg e) :
    s.SingleFlight cfg e where
  single := (hs.step e hpatient).toBase.single
  apart := (hs.step e hpatient).apart
  newer id hne := by
    obtain h | ⟨m, b, value, builtAt, -, hb, hm, hid, hmade⟩ := hs.payload_step e id
    · exact absurd h.1 hne
    · refine ⟨m, b, hmade, hb, hid, fun id' n b' hn hb' hkey => ?_⟩
      obtain ⟨b'', hb'', -, -, hended⟩ := hs.made id' n hn
      refine lt_of_le_of_ne (hs.last n m b' b hb' hb hkey hm) fun he => ?_
      rw [he, hm] at hended
      cases hended
  kept id hsame := by
    obtain h | ⟨m, b, value, builtAt, -, hb, hm, hid, hmade⟩ := hs.payload_step e id
    · exact h.2
    · -- the build that ends is not the one the payload was from
      rw [hmade] at hsame
      obtain ⟨b', -, -, -, hended⟩ := hs.made id m hsame.symm
      rw [hm] at hended
      cases hended
  failed n text typeName he id := by
    obtain h | ⟨m, b, value, builtAt, he', -⟩ := hs.payload_step e id
    · exact ⟨h.2, h.1⟩
    · rw [he] at he'
      cases he'
  ready id h := (hs.step e hpatient).toBase.ready h

/-- A call that makes the slot of its key starts a build beside the others of the key. -/
theorem patient_of_singleFlight (e : CacheEvent κ T V) (h : s.SingleFlight cfg e) :
    s.Patient cfg e := by
  cases e with
  | pass _ | call _ _ | finish _ _ => exact trivial
  | guard i =>
    intro c hc hgiven hnot n b hb hkey
    obtain ⟨hsingle, hapart, -⟩ := h
    have hstep : s.step cfg (.guard i) =
        { (s.make cfg c.key).launch c s.nextSlot with
          given := Function.update s.given i (some s.nextSlot), moment := s.moment + 1 } := by
      simp only [BgCache.step, act, hc, if_pos hgiven, get, hnot, schedule_make]
    rw [hstep] at hsingle hapart
    have hlen : n < s.builds.length := (List.getElem?_eq_some_iff.mp hb).1
    have hold : (s.builds ++ [⟨c, s.nextSlot, s.clock, s.moment⟩])[n]? = some b := by
      rw [List.getElem?_append_left hlen, hb]
    have hnew : (s.builds ++ [⟨c, s.nextSlot, s.clock, s.moment⟩])[s.builds.length]? =
        some ⟨c, s.nextSlot, s.clock, s.moment⟩ := by
      rw [List.getElem?_append_right (le_refl _), Nat.sub_self]
      rfl
    refine ⟨Bool.eq_false_iff.mpr fun hn => ?_, (hapart n _ b _ hlen hold hnew hkey).1⟩
    have hn' : Function.update s.running s.builds.length true n = true := by
      rw [Function.update_of_ne (Nat.ne_of_lt hlen)]
      exact hn
    exact Nat.ne_of_lt hlen (hsingle n _ b _ hold hnew hkey hn' (Function.update_self ..))

/-! ## Every interleaving -/

/-- In every interleaving of `get` calls and ends of builds: one build a key runs at a time,
builds of a key begin the interval apart, payloads give way to later ones only, a failed build
leaves them, and a ready payload was built after its token was read, exactly when each call
of a key that is not in the cache comes after the builds of the key have ended, with a clock
the interval past theirs. -/
theorem single_flight (cfg : CacheConfig) (events : List (CacheEvent κ T V)) :
    Along (BgCache.step cfg) (SingleFlight cfg) BgCache.start events ↔
      Along (BgCache.step cfg) (Patient cfg) BgCache.start events :=
  along_congr_inv (I := Inv cfg)
    (fun _ e hs => ⟨patient_of_singleFlight e, hs.singleFlight e⟩)
    (fun _ e hs hpatient => hs.step e hpatient) events inv_start

end

end BgCache

end

/-- A cache of one key, rebuilt at most once a minute. -/
def oneKey : CacheConfig := ⟨60, 1, by norm_num, le_refl _⟩

/-- While key 0 is built, key 1 is asked for twice. -/
def askedTwice : List (CacheEvent ℕ ℕ ℕ) :=
  [.call 0 none, .guard 0, .call 1 none, .guard 1, .call 1 none, .guard 2]

/-- The slot of key 1 is dropped when it is made, as the other one is being built, and the
second call builds the key beside the first. -/
theorem dropped_key_builds_twice :
    ¬ Along (BgCache.step oneKey) (BgCache.SingleFlight oneKey) BgCache.start askedTwice := by
  intro h
  have hsingle := h.2.2.2.2.2.1.single
  have hsame : (1 : ℕ) = 2 := hsingle 1 2 _ _ rfl rfl rfl rfl rfl
  cases hsame

end PaperTrading.Web
