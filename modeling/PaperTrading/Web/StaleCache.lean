import Mathlib.Data.Nat.Notation
import Mathlib.Logic.Function.Basic
import PaperTrading.Lib.Runs

/-!
# The cache that serves while it rebuilds

`StaleCache` of `web/ttl_cache.py`, behind the status, summary and discovery pages. A `get`
serves the last payload of its key. Only when there is none does it build one, or wait for the
flight of the thread that does. `refresh` builds beside the requests, and `put` stores what was
built elsewhere. The threads take the guard for one section at a time, so a run is a list of
sections, with the builders between them.

`stale_cache_serves` says what holds in every interleaving. A thread never waits for a flight
that nobody will land, and what is served for a key was built or put for it. While the cache is
not cleared, one thread at a time builds a key, a payload is never lost, so from the first one on
every `get` answers at once, and no `get` ends without a payload or an error of its builder.
-/

namespace PaperTrading.Web

open PaperTrading.Lib

/-! ## The code -/

/-- `_Slot`; it `has` a payload where `value` is one. -/
structure StaleSlot (V : Type) where
  value : Option V
  flight : Option ℕ

/-- How a call ends. -/
inductive Answer (κ V E : Type) where
  | value (key : κ) (v : V)
  | raised (e : E)
  /-- `read cache rebuild produced no payload` -/
  | noPayload
  | nothing

/-- Where a thread is between its sections. -/
inductive StalePc (κ V E : Type) where
  | idle
  /-- it leads a flight and runs the builder, for `get` or for `refresh` -/
  | building (key : κ) (flight : ℕ) (refresh : Bool)
  /-- the slot is written, the flight's event is not set -/
  | landed (key : κ) (flight : ℕ) (refresh : Bool) (outcome : Except E V)
  | waiting (key : κ) (flight : ℕ)
  /-- `refresh` asks whether there is a payload to keep -/
  | checking (key : κ) (e : E)
  | returned (answer : Answer κ V E)

/-- The cache with its threads. `events` says of a flight whether its event is set and with which
error. Beside the code: `made`, what was built or put for which key. -/
structure StaleState (κ V E : Type) where
  slots : κ → Option (StaleSlot V)
  events : ℕ → Option (Option E)
  next : ℕ
  threads : ℕ → StalePc κ V E
  made : List (κ × V)

/-- A section, of which thread. -/
inductive StaleAct (κ V E : Type) where
  | get (t : ℕ) (key : κ)
  | refresh (t : ℕ) (key : κ)
  | put (key : κ) (v : V)
  | clear
  /-- the builder ends, and `_store` or `_fail` takes the guard -/
  | finish (t : ℕ) (outcome : Except E V)
  /-- `flight.event.set()` -/
  | announce (t : ℕ)
  | wake (t : ℕ)
  | check (t : ℕ)

section
variable {κ V E : Type} [DecidableEq κ]

namespace StaleState

def start : StaleState κ V E := ⟨fun _ => none, fun _ => none, 0, fun _ => .idle, []⟩

/-- The payload of a key. -/
def payload (s : StaleState κ V E) (key : κ) : Option V := (s.slots key).bind StaleSlot.value

/-- The flight of a key. -/
def flight (s : StaleState κ V E) (key : κ) : Option ℕ := (s.slots key).bind StaleSlot.flight

def setThread (s : StaleState κ V E) (t : ℕ) (pc : StalePc κ V E) : StaleState κ V E :=
  { s with threads := Function.update s.threads t pc }

def setSlot (s : StaleState κ V E) (key : κ) (slot : StaleSlot V) : StaleState κ V E :=
  { s with slots := Function.update s.slots key (some slot) }

/-- A thread between two calls. -/
def free (s : StaleState κ V E) (t : ℕ) : Bool :=
  match s.threads t with
  | .idle | .returned _ => true
  | _ => false

/-- The thread becomes the leader of a new flight of the key. -/
def lead (s : StaleState κ V E) (t : ℕ) (key : κ) (refresh : Bool) : StaleState κ V E :=
  { (s.setSlot key ⟨s.payload key, some s.next⟩).setThread t (.building key s.next refresh) with
    next := s.next + 1 }

/-- The first section of `get`. -/
def get (s : StaleState κ V E) (t : ℕ) (key : κ) : StaleState κ V E :=
  match s.payload key, s.flight key with
  | some v, _ => s.setThread t (.returned (.value key v))
  | none, some f => s.setThread t (.waiting key f)
  | none, none => s.lead t key false

/-- The first section of `refresh`. -/
def refresh (s : StaleState κ V E) (t : ℕ) (key : κ) : StaleState κ V E :=
  match s.flight key with
  | some _ => s.setThread t (.returned .nothing)
  | none => s.lead t key true

def put (s : StaleState κ V E) (key : κ) (v : V) : StaleState κ V E :=
  { s.setSlot key ⟨some v, s.flight key⟩ with made := s.made ++ [(key, v)] }

/-- The section of `_store`. -/
def store (s : StaleState κ V E) (key : κ) (f : ℕ) (v : V) : StaleState κ V E :=
  { s.setSlot key ⟨some v, if s.flight key = some f then none else s.flight key⟩ with
    made := s.made ++ [(key, v)] }

/-- The section of `_fail`. -/
def fail (s : StaleState κ V E) (key : κ) (f : ℕ) : StaleState κ V E :=
  if s.flight key = some f then s.setSlot key ⟨s.payload key, none⟩ else s

/-- What a leader returns once its flight is announced. -/
def ended (key : κ) (refresh : Bool) : Except E V → StalePc κ V E
  | .ok v => if refresh then .returned .nothing else .returned (.value key v)
  | .error e => if refresh then .checking key e else .returned (.raised e)

/-- What a follower returns once it is woken. -/
def followed (s : StaleState κ V E) (key : κ) (error : Option E) : Answer κ V E :=
  match s.payload key, error with
  | some v, _ => .value key v
  | none, some e => .raised e
  | none, none => .noPayload

def step (s : StaleState κ V E) : StaleAct κ V E → StaleState κ V E
  | .get t key => if s.free t then s.get t key else s
  | .refresh t key => if s.free t then s.refresh t key else s
  | .put key v => s.put key v
  | .clear => { s with slots := fun _ => none }
  | .finish t outcome =>
    match s.threads t with
    | .building key f r =>
      let after := match outcome with
        | .ok v => s.store key f v
        | .error _ => s.fail key f
      after.setThread t (.landed key f r outcome)
    | _ => s
  | .announce t =>
    match s.threads t with
    | .landed key f r outcome =>
      let error := match outcome with
        | .ok _ => none
        | .error e => some e
      { s.setThread t (ended key r outcome) with
        events := Function.update s.events f (some error) }
    | _ => s
  | .wake t =>
    match s.threads t with
    | .waiting key f =>
      match s.events f with
      | some error => s.setThread t (.returned (s.followed key error))
      | none => s
    | _ => s
  | .check t =>
    match s.threads t with
    | .checking key e =>
      s.setThread t (.returned (if (s.payload key).isSome then .nothing else .raised e))
    | _ => s

end StaleState

/-! ## Flights and who leads them -/

/-- The key and the flight a thread leads. -/
def StalePc.leads : StalePc κ V E → Option (κ × ℕ)
  | .building key f _ => some (key, f)
  | .landed key f _ _ => some (key, f)
  | _ => none

/-- The key and the flight a thread waits for. -/
def StalePc.waits : StalePc κ V E → Option (κ × ℕ)
  | .waiting key f => some (key, f)
  | _ => none

namespace StaleState
variable {s : StaleState κ V E} {t t' f : ℕ} {key k : κ} {pc : StalePc κ V E}

omit [DecidableEq κ] in
theorem free_idle (h : s.free t = true) :
    (s.threads t).leads = none ∧ (s.threads t).waits = none := by
  unfold free at h
  split at h
  next hpc =>
    rw [hpc]
    exact ⟨rfl, rfl⟩
  next hpc =>
    rw [hpc]
    exact ⟨rfl, rfl⟩
  next => cases h

omit [DecidableEq κ] in
theorem threads_self : (s.setThread t pc).threads t = pc := Function.update_self ..

omit [DecidableEq κ] in
theorem threads_ne (h : t' ≠ t) : (s.setThread t pc).threads t' = s.threads t' :=
  Function.update_of_ne h ..

theorem payload_setSlot {slot : StaleSlot V} : (s.setSlot key slot).payload k =
    if k = key then slot.value else s.payload k := by
  unfold payload setSlot
  dsimp only
  by_cases hk : k = key
  · rw [if_pos hk, hk, Function.update_self]
    rfl
  · rw [if_neg hk, Function.update_of_ne hk]

theorem flight_setSlot {slot : StaleSlot V} : (s.setSlot key slot).flight k =
    if k = key then slot.flight else s.flight k := by
  unfold flight setSlot
  dsimp only
  by_cases hk : k = key
  · rw [if_pos hk, hk, Function.update_self]
    rfl
  · rw [if_neg hk, Function.update_of_ne hk]

/-- What holds in every interleaving. -/
structure Flying (s : StaleState κ V E) : Prop where
  young : ∀ t key f, (s.threads t).leads = some (key, f) → f < s.next
  unborn : ∀ f, s.next ≤ f → s.events f = none
  unset : ∀ t key f, (s.threads t).leads = some (key, f) → s.events f = none
  /-- a flight has one leader -/
  one : ∀ t t' key key' f, (s.threads t).leads = some (key, f) →
    (s.threads t').leads = some (key', f) → t = t'
  /-- the flight of a key is being built -/
  registered : ∀ key f, s.flight key = some f → ∃ t r, s.threads t = .building key f r
  /-- a flight that is waited for has been announced or has a leader -/
  woken : ∀ t key f, (s.threads t).waits = some (key, f) →
    (s.events f).isSome ∨ ∃ t', (s.threads t').leads = some (key, f)
  made : ∀ key v, s.payload key = some v → (key, v) ∈ s.made
  landed : ∀ t key f r v, s.threads t = .landed key f r (.ok v) → (key, v) ∈ s.made
  served : ∀ t key v, s.threads t = .returned (.value key v) → (key, v) ∈ s.made

omit [DecidableEq κ] in
theorem flying_start : (start : StaleState κ V E).Flying where
  young := nofun
  unborn := fun _ _ => rfl
  unset := nofun
  one := nofun
  registered := nofun
  woken := nofun
  made := nofun
  landed := nofun
  served := nofun

omit [DecidableEq κ] in
/-- A thread that leads no flight goes on to lead none. -/
theorem Flying.follow (h : s.Flying) (hbefore : (s.threads t).leads = none)
    (hafter : pc.leads = none)
    (hwaits : ∀ key f, pc.waits = some (key, f) → ∃ t', (s.threads t').leads = some (key, f))
    (hserved : ∀ key v, pc = .returned (.value key v) → (key, v) ∈ s.made) :
    (s.setThread t pc).Flying := by
  have hleads : ∀ t', ((s.setThread t pc).threads t').leads = (s.threads t').leads := by
    intro t'
    by_cases ht : t' = t
    · rw [ht, threads_self, hafter, hbefore]
    · rw [threads_ne ht]
  have hkept : ∀ {t' key f}, (s.threads t').leads = some (key, f) → t' ≠ t := by
    intro t' key f hlead ht
    rw [ht, hbefore] at hlead
    cases hlead
  refine ⟨fun t' key f hlead => ?_, h.unborn, fun t' key f hlead => ?_,
    fun t₁ t₂ key key' f h₁ h₂ => ?_, fun key f hflight => ?_, fun t' key f hwait => ?_, h.made,
    fun t' key f r v hpc => ?_, fun t' key v hpc => ?_⟩
  · exact h.young t' key f (hleads t' ▸ hlead)
  · exact h.unset t' key f (hleads t' ▸ hlead)
  · exact h.one t₁ t₂ key key' f (hleads t₁ ▸ h₁) (hleads t₂ ▸ h₂)
  · obtain ⟨t', r, hpc⟩ := h.registered key f hflight
    have ht : t' ≠ t := hkept (by rw [hpc]; rfl)
    exact ⟨t', r, (threads_ne ht).trans hpc⟩
  · simp only [hleads]
    by_cases ht : t' = t
    · rw [ht, threads_self] at hwait
      exact Or.inr (hwaits key f hwait)
    · rw [threads_ne ht] at hwait
      exact h.woken t' key f hwait
  · by_cases ht : t' = t
    · rw [ht, threads_self] at hpc
      rw [hpc] at hafter
      cases hafter
    · rw [threads_ne ht] at hpc
      exact h.landed t' key f r v hpc
  · by_cases ht : t' = t
    · rw [ht, threads_self] at hpc
      exact hserved key v hpc
    · rw [threads_ne ht] at hpc
      exact h.served t' key v hpc

theorem payload_lead {r : Bool} : (s.lead t key r).payload k = s.payload k := by
  show (s.setSlot key ⟨s.payload key, some s.next⟩).payload k = _
  rw [payload_setSlot]
  split
  next hk => rw [hk]
  next => rfl

theorem flight_lead {r : Bool} : (s.lead t key r).flight k =
    if k = key then some s.next else s.flight k := flight_setSlot

/-- A free thread takes the lead of a new flight. -/
theorem Flying.lead (h : s.Flying) (hfree : s.free t = true) (key : κ) (refresh : Bool) :
    (s.lead t key refresh).Flying := by
  obtain ⟨hleads, hwaits⟩ := free_idle hfree
  have hself : (s.lead t key refresh).threads t = .building key s.next refresh :=
    Function.update_self ..
  have hother : ∀ {t'}, t' ≠ t → (s.lead t key refresh).threads t' = s.threads t' :=
    fun ht => Function.update_of_ne ht ..
  -- the flights of the others are older
  have hcases : ∀ {t' k f}, ((s.lead t key refresh).threads t').leads = some (k, f) →
      t' = t ∧ k = key ∧ f = s.next ∨ t' ≠ t ∧ (s.threads t').leads = some (k, f) := by
    intro t' k f hlead
    by_cases ht : t' = t
    · rw [ht, hself] at hlead
      obtain ⟨hk, hf⟩ := Prod.mk.inj (Option.some.inj hlead)
      exact Or.inl ⟨ht, hk.symm, hf.symm⟩
    · rw [hother ht] at hlead
      exact Or.inr ⟨ht, hlead⟩
  refine ⟨fun t' k f hlead => ?_, fun f hf => h.unborn f (Nat.le_of_succ_le hf),
    fun t' k f hlead => ?_, fun t₁ t₂ k₁ k₂ f h₁ h₂ => ?_, fun k f hk => ?_, fun t' k f hwait => ?_,
    fun k v hv => h.made k v (payload_lead.symm.trans hv), fun t' k f r v hpc => ?_,
    fun t' k v hpc => ?_⟩
  · rcases hcases hlead with ⟨-, -, hf⟩ | ⟨-, hold⟩
    · rw [hf]
      exact Nat.lt_succ_self _
    · exact (h.young t' k f hold).trans (Nat.lt_succ_self _)
  · rcases hcases hlead with ⟨-, -, hf⟩ | ⟨-, hold⟩
    · rw [hf]
      exact h.unborn _ (Nat.le_refl _)
    · exact h.unset t' k f hold
  · rcases hcases h₁ with ⟨ht₁, -, hf⟩ | ⟨-, hold₁⟩
    · rcases hcases h₂ with ⟨ht₂, -, -⟩ | ⟨-, hold₂⟩
      · exact ht₁.trans ht₂.symm
      · exact absurd (h.young t₂ k₂ f hold₂) (hf ▸ Nat.lt_irrefl _)
    · rcases hcases h₂ with ⟨-, -, hf⟩ | ⟨-, hold₂⟩
      · exact absurd (h.young t₁ k₁ f hold₁) (hf ▸ Nat.lt_irrefl _)
      · exact h.one t₁ t₂ k₁ k₂ f hold₁ hold₂
  · rw [flight_lead] at hk
    split at hk
    next heq =>
      rw [heq, ← Option.some.inj hk]
      exact ⟨t, refresh, hself⟩
    next =>
      obtain ⟨t', r, hpc⟩ := h.registered k f hk
      have ht : t' ≠ t := by
        intro ht
        rw [← ht, hpc] at hleads
        cases hleads
      exact ⟨t', r, (hother ht).trans hpc⟩
  · have ht : t' ≠ t := by
      intro ht
      rw [ht, hself] at hwait
      cases hwait
    rw [hother ht] at hwait
    rcases h.woken t' k f hwait with hset | ⟨t'', hlead⟩
    · exact Or.inl hset
    · have ht'' : t'' ≠ t := by
        intro ht''
        rw [ht'', hleads] at hlead
        cases hlead
      exact Or.inr ⟨t'', by rw [hother ht'']; exact hlead⟩
  · by_cases ht : t' = t
    · rw [ht, hself] at hpc
      cases hpc
    · exact h.landed t' k f r v ((hother ht).symm.trans hpc)
  · by_cases ht : t' = t
    · rw [ht, hself] at hpc
      cases hpc
    · exact h.served t' k v ((hother ht).symm.trans hpc)

omit [DecidableEq κ] in
/-- The slots change and the threads do not. -/
theorem Flying.rewrite {slots : κ → Option (StaleSlot V)} {made : List (κ × V)} (h : s.Flying)
    (hflight : ∀ key f, (slots key).bind StaleSlot.flight = some f →
      ∃ t r, s.threads t = .building key f r)
    (hpayload : ∀ key v, (slots key).bind StaleSlot.value = some v → (key, v) ∈ made)
    (hmade : ∀ e ∈ s.made, e ∈ made) : { s with slots := slots, made := made }.Flying where
  young := h.young
  unborn := h.unborn
  unset := h.unset
  one := h.one
  registered := hflight
  woken := h.woken
  made := hpayload
  landed t key f r v hpc := hmade _ (h.landed t key f r v hpc)
  served t key v hpc := hmade _ (h.served t key v hpc)

theorem Flying.put (h : s.Flying) (key : κ) (v : V) : (s.put key v).Flying := by
  refine h.rewrite (fun k f hk => ?_) (fun k w hk => ?_) fun e he => List.mem_append_left _ he
  · have hflight : (s.setSlot key ⟨some v, s.flight key⟩).flight k = some f := hk
    rw [flight_setSlot] at hflight
    split at hflight
    next heq => exact h.registered k f (heq ▸ hflight)
    next => exact h.registered k f hflight
  · have hpayload : (s.setSlot key ⟨some v, s.flight key⟩).payload k = some w := hk
    rw [payload_setSlot] at hpayload
    split at hpayload
    next heq =>
      rw [heq, ← Option.some.inj hpayload]
      exact List.mem_append_right _ (List.mem_singleton_self _)
    next => exact List.mem_append_left _ (h.made k w hpayload)

/-- The end of a build, before its thread has moved on: the flight is taken off its slot. -/
structure Landed (s after : StaleState κ V E) (key : κ) (f : ℕ) (outcome : Except E V) : Prop where
  threads : after.threads = s.threads
  events : after.events = s.events
  next : after.next = s.next
  flight : ∀ k, after.flight k = if k = key ∧ s.flight key = some f then none else s.flight k
  payload : ∀ k, after.payload k = match outcome with
    | .ok v => if k = key then some v else s.payload k
    | .error _ => s.payload k
  made : after.made = s.made ++ match outcome with
    | .ok v => [(key, v)]
    | .error _ => []

theorem landed_store (key : κ) (f : ℕ) (v : V) : Landed s (s.store key f v) key f (.ok v) := by
  refine ⟨rfl, rfl, rfl, fun k => ?_, fun k => payload_setSlot, rfl⟩
  show (s.setSlot key _).flight k = _
  rw [flight_setSlot]
  by_cases hk : k = key
  · rw [if_pos hk, hk]
    by_cases hf : s.flight key = some f
    · rw [if_pos hf, if_pos ⟨rfl, hf⟩]
    · rw [if_neg hf, if_neg fun h => hf h.2]
  · rw [if_neg hk, if_neg fun h => hk h.1]

theorem landed_fail (key : κ) (f : ℕ) (e : E) : Landed s (s.fail key f) key f (.error e) := by
  unfold fail
  by_cases hf : s.flight key = some f
  · rw [if_pos hf]
    refine ⟨rfl, rfl, rfl, fun k => ?_, fun k => ?_, (List.append_nil _).symm⟩
    · rw [flight_setSlot]
      by_cases hk : k = key
      · rw [if_pos hk, if_pos ⟨hk, hf⟩]
      · rw [if_neg hk, if_neg fun h => hk h.1]
    · rw [payload_setSlot]
      by_cases hk : k = key
      · rw [if_pos hk, hk]
      · rw [if_neg hk]
  · rw [if_neg hf]
    exact ⟨rfl, rfl, rfl, fun k => (if_neg fun h => hf h.2).symm, fun k => rfl,
      (List.append_nil _).symm⟩

/-- A leader lands its flight. -/
theorem Flying.finish {after : StaleState κ V E} {r : Bool} {outcome : Except E V} (h : s.Flying)
    (hpc : s.threads t = .building key f r) (hland : Landed s after key f outcome) :
    (after.setThread t (.landed key f r outcome)).Flying := by
  have hleads : ∀ t', ((after.setThread t (.landed key f r outcome)).threads t').leads =
      (s.threads t').leads := by
    intro t'
    by_cases ht : t' = t
    · rw [ht, threads_self, hpc]
      rfl
    · rw [threads_ne ht, hland.threads]
  have hmade : ∀ e ∈ s.made, e ∈ after.made := by
    intro e he
    rw [hland.made]
    exact List.mem_append_left _ he
  refine ⟨fun t' k g hlead => ?_, fun g hg => ?_, fun t' k g hlead => ?_,
    fun t₁ t₂ k₁ k₂ g h₁ h₂ => h.one t₁ t₂ k₁ k₂ g (hleads t₁ ▸ h₁) (hleads t₂ ▸ h₂),
    fun k g hk => ?_, fun t' k g hwait => ?_, fun k v hv => ?_, fun t' k g r' v hpc' => ?_,
    fun t' k v hpc' => ?_⟩
  · exact (h.young t' k g (hleads t' ▸ hlead)).trans_eq hland.next.symm
  · exact (congrFun hland.events g).trans (h.unborn g (hland.next.symm.le.trans hg))
  · exact (congrFun hland.events g).trans (h.unset t' k g (hleads t' ▸ hlead))
  · have hk' : after.flight k = some g := hk
    rw [hland.flight] at hk'
    split at hk'
    next => cases hk'
    next hother =>
      obtain ⟨t', r', hpc'⟩ := h.registered k g hk'
      have ht : t' ≠ t := by
        intro ht
        rw [ht, hpc] at hpc'
        cases hpc'
        exact hother ⟨rfl, hk'⟩
      exact ⟨t', r', by rw [threads_ne ht, hland.threads]; exact hpc'⟩
  · simp only [hleads]
    have ht : t' ≠ t := by
      intro ht
      rw [ht, threads_self] at hwait
      cases hwait
    rw [threads_ne ht, hland.threads] at hwait
    show (after.events g).isSome ∨ _
    rw [hland.events]
    exact h.woken t' k g hwait
  · have hv' : after.payload k = some v := hv
    show (k, v) ∈ after.made
    rw [hland.payload] at hv'
    cases outcome with
    | error e => exact hmade _ (h.made k v hv')
    | ok w =>
      dsimp only at hv'
      split at hv'
      next hk =>
        rw [hland.made, hk, ← Option.some.inj hv']
        exact List.mem_append_right _ (List.mem_singleton_self _)
      next => exact hmade _ (h.made k v hv')
  · show (k, v) ∈ after.made
    by_cases ht : t' = t
    · rw [ht, threads_self] at hpc'
      cases hpc'
      rw [hland.made]
      exact List.mem_append_right _ (List.mem_singleton_self _)
    · rw [threads_ne ht, hland.threads] at hpc'
      exact hmade _ (h.landed t' k g r' v hpc')
  · show (k, v) ∈ after.made
    by_cases ht : t' = t
    · rw [ht, threads_self] at hpc'
      cases hpc'
    · rw [threads_ne ht, hland.threads] at hpc'
      exact hmade _ (h.served t' k v hpc')

omit [DecidableEq κ] in
theorem ended_leads (key : κ) (r : Bool) (outcome : Except E V) :
    (ended key r outcome).leads = none ∧ (ended key r outcome).waits = none := by
  cases outcome <;> cases r <;> exact ⟨rfl, rfl⟩

omit [DecidableEq κ] in
/-- A leader announces its flight. -/
theorem Flying.announce {r : Bool} {outcome : Except E V} {error : Option E} (h : s.Flying)
    (hpc : s.threads t = .landed key f r outcome) :
    { s.setThread t (ended key r outcome) with
      events := Function.update s.events f (some error) }.Flying := by
  have hown : (s.threads t).leads = some (key, f) := by
    rw [hpc]
    rfl
  obtain ⟨hled, hwaited⟩ := ended_leads key r outcome
  -- what the others lead, they led before, and it is not this flight
  have hcases : ∀ {t' k g}, ((s.setThread t (ended key r outcome)).threads t').leads =
      some (k, g) → t' ≠ t ∧ (s.threads t').leads = some (k, g) ∧ g ≠ f := by
    intro t' k g hlead
    have ht : t' ≠ t := by
      intro ht
      rw [ht, threads_self, hled] at hlead
      cases hlead
    rw [threads_ne ht] at hlead
    refine ⟨ht, hlead, fun hg => ht ?_⟩
    rw [hg] at hlead
    exact h.one t' t k key f hlead hown
  refine ⟨fun t' k g hlead => h.young t' k g (hcases hlead).2.1, fun g hg => ?_,
    fun t' k g hlead => ?_,
    fun t₁ t₂ k₁ k₂ g h₁ h₂ => h.one t₁ t₂ k₁ k₂ g (hcases h₁).2.1 (hcases h₂).2.1,
    fun k g hk => ?_, fun t' k g hwait => ?_, h.made, fun t' k g r' v hpc' => ?_,
    fun t' k v hpc' => ?_⟩
  · have hne : g ≠ f := fun heq =>
      absurd (h.young t key f hown) (Nat.not_lt.mpr (heq ▸ hg))
    exact (Function.update_of_ne hne ..).trans (h.unborn g hg)
  · obtain ⟨-, hold, hne⟩ := hcases hlead
    exact (Function.update_of_ne hne ..).trans (h.unset t' k g hold)
  · obtain ⟨t', r', hpc'⟩ := h.registered k g hk
    have ht : t' ≠ t := by
      intro ht
      rw [ht, hpc] at hpc'
      cases hpc'
    exact ⟨t', r', (threads_ne ht).trans hpc'⟩
  · have ht : t' ≠ t := by
      intro ht
      have hself : ((s.setThread t (ended key r outcome)).threads t').waits = some (k, g) := hwait
      rw [ht, threads_self, hwaited] at hself
      cases hself
    have hwait' : (s.threads t').waits = some (k, g) := by
      rw [← threads_ne (s := s) ht]
      exact hwait
    by_cases hg : g = f
    · refine Or.inl ?_
      rw [hg]
      show (Function.update s.events f (some error) f).isSome
      rw [Function.update_self]
      rfl
    · rcases h.woken t' k g hwait' with hset | ⟨t'', hlead⟩
      · refine Or.inl ?_
        show (Function.update s.events f (some error) g).isSome
        rw [Function.update_of_ne hg]
        exact hset
      · refine Or.inr ⟨t'', ?_⟩
        have ht'' : t'' ≠ t := by
          intro ht''
          rw [ht'', hown] at hlead
          exact hg (Prod.mk.inj (Option.some.inj hlead)).2.symm
        show ((s.setThread t (ended key r outcome)).threads t'').leads = some (k, g)
        rw [threads_ne ht'']
        exact hlead
  · by_cases ht : t' = t
    · have hself : (s.setThread t (ended key r outcome)).threads t' = .landed k g r' (.ok v) := hpc'
      rw [ht, threads_self] at hself
      rw [hself] at hled
      cases hled
    · exact h.landed t' k g r' v ((threads_ne ht).symm.trans hpc')
  · by_cases ht : t' = t
    · have hself : (s.setThread t (ended key r outcome)).threads t' = .returned (.value k v) := hpc'
      rw [ht, threads_self] at hself
      cases outcome with
      | error e => cases r <;> cases hself
      | ok w =>
        cases r with
        | true => cases hself
        | false =>
          cases hself
          exact h.landed t key f false _ hpc
    · exact h.served t' k v ((threads_ne ht).symm.trans hpc')

/-- Every section. -/
theorem flying_step (s : StaleState κ V E) (a : StaleAct κ V E) (h : s.Flying) :
    (s.step a).Flying := by
  cases a with
  | get t key =>
    show (if s.free t then s.get t key else s).Flying
    by_cases hfree : s.free t = true
    · rw [if_pos hfree]
      unfold get
      split
      next v hv =>
        exact h.follow (free_idle hfree).1 rfl nofun fun k w heq => by
          cases heq
          exact h.made key v hv
      next f _ hf =>
        refine h.follow (free_idle hfree).1 rfl (fun k g heq => ?_) nofun
        cases heq
        obtain ⟨t', r, hpc⟩ := h.registered key f hf
        exact ⟨t', by rw [hpc]; rfl⟩
      next => exact h.lead hfree key false
    · rw [if_neg hfree]
      exact h
  | refresh t key =>
    show (if s.free t then s.refresh t key else s).Flying
    by_cases hfree : s.free t = true
    · rw [if_pos hfree]
      unfold refresh
      split
      next => exact h.follow (free_idle hfree).1 rfl nofun nofun
      next => exact h.lead hfree key true
    · rw [if_neg hfree]
      exact h
  | put key v => exact h.put key v
  | clear => exact h.rewrite nofun nofun fun e he => he
  | finish t outcome =>
    unfold step
    dsimp only
    split
    next key f r hpc =>
      cases outcome with
      | ok v => exact h.finish hpc (landed_store key f v)
      | error e => exact h.finish hpc (landed_fail key f e)
    next => exact h
  | announce t =>
    unfold step
    dsimp only
    split
    next key f r outcome hpc => exact h.announce hpc
    next => exact h
  | wake t =>
    unfold step
    dsimp only
    split
    next key f hpc =>
      split
      next error herror =>
        refine h.follow (by rw [hpc]; rfl) rfl nofun fun k v heq => ?_
        unfold followed at heq
        split at heq
        next w hw =>
          cases heq
          exact h.made _ _ hw
        next => cases heq
        next => cases heq
      next => exact h
    next => exact h
  | check t =>
    unfold step
    dsimp only
    split
    next key e hpc =>
      refine h.follow (by rw [hpc]; rfl) rfl nofun fun k v heq => ?_
      split at heq
      next => cases heq
      next => cases heq
    next => exact h

/-! ## While the cache is not cleared -/

/-- What holds as long as no slot is dropped. -/
structure Kept (s : StaleState κ V E) : Prop where
  /-- what is being built is the flight of its key -/
  booked : ∀ t key f r, s.threads t = .building key f r → s.flight key = some f
  stored : ∀ t key f r v, s.threads t = .landed key f r (.ok v) → (s.payload key).isSome
  answered : ∀ t key f, (s.threads t).waits = some (key, f) → s.events f = some none →
    (s.payload key).isSome
  answers : ∀ t, s.threads t ≠ .returned .noPayload

omit [DecidableEq κ] in
theorem kept_start : (start : StaleState κ V E).Kept where
  booked := nofun
  stored := nofun
  answered := nofun
  answers := nofun

/-- No section but a clearing takes a payload away. -/
theorem payload_step {a : StaleAct κ V E} (ha : a ≠ .clear) (h : (s.payload k).isSome) :
    ((s.step a).payload k).isSome := by
  cases a with
  | get t key =>
    show ((if s.free t then s.get t key else s).payload k).isSome
    split
    next =>
      unfold get
      split
      · exact h
      · exact h
      · rw [payload_lead]
        exact h
    next => exact h
  | refresh t key =>
    show ((if s.free t then s.refresh t key else s).payload k).isSome
    split
    next =>
      unfold refresh
      split
      · exact h
      · rw [payload_lead]
        exact h
    next => exact h
  | put key v =>
    show ((s.setSlot key ⟨some v, s.flight key⟩).payload k).isSome
    rw [payload_setSlot]
    split
    · rfl
    · exact h
  | clear => exact absurd rfl ha
  | finish t outcome =>
    unfold step
    dsimp only
    split
    next key f r hpc =>
      cases outcome with
      | ok v =>
        show ((s.store key f v).payload k).isSome
        rw [(landed_store key f v).payload]
        dsimp only
        split
        · rfl
        · exact h
      | error e =>
        show ((s.fail key f).payload k).isSome
        rw [(landed_fail key f e).payload]
        exact h
    next => exact h
  | announce t =>
    unfold step
    dsimp only
    split <;> exact h
  | wake t =>
    unfold step
    dsimp only
    split
    · split <;> exact h
    · exact h
  | check t =>
    unfold step
    dsimp only
    split <;> exact h

omit [DecidableEq κ] in
theorem Kept.follow (h : s.Kept) (hafter : pc.leads = none)
    (hwaits : ∀ key f, pc.waits = some (key, f) → s.events f = none)
    (hanswer : pc ≠ .returned .noPayload) : (s.setThread t pc).Kept := by
  have hcases : ∀ {t' pc'}, (s.setThread t pc).threads t' = pc' →
      t' = t ∧ pc' = pc ∨ s.threads t' = pc' := by
    intro t' pc' hpc
    by_cases ht : t' = t
    · rw [ht, threads_self] at hpc
      exact Or.inl ⟨ht, hpc.symm⟩
    · rw [threads_ne ht] at hpc
      exact Or.inr hpc
  refine ⟨fun t' key f r hpc => ?_, fun t' key f r v hpc => ?_, fun t' key f hwait hset => ?_,
    fun t' hpc => ?_⟩
  · rcases hcases hpc with ⟨-, heq⟩ | hold
    · rw [← heq] at hafter
      cases hafter
    · exact h.booked t' key f r hold
  · rcases hcases hpc with ⟨-, heq⟩ | hold
    · rw [← heq] at hafter
      cases hafter
    · exact h.stored t' key f r v hold
  · rcases @hcases t' ((s.setThread t pc).threads t') rfl with ⟨-, heq⟩ | hold
    · rw [heq] at hwait
      exact absurd ((hwaits key f hwait).symm.trans hset) (Option.some_ne_none _).symm
    · exact h.answered t' key f (hold ▸ hwait) hset
  · rcases hcases hpc with ⟨-, heq⟩ | hold
    · exact hanswer heq.symm
    · exact h.answers t' hold

theorem Kept.lead (h : s.Kept) (hflight : s.flight key = none) (refresh : Bool) :
    (s.lead t key refresh).Kept := by
  have hself : (s.lead t key refresh).threads t = .building key s.next refresh :=
    Function.update_self ..
  have hother : ∀ {t'}, t' ≠ t → (s.lead t key refresh).threads t' = s.threads t' :=
    fun ht => Function.update_of_ne ht ..
  refine ⟨fun t' k f r hpc => ?_, fun t' k f r v hpc => ?_, fun t' k f hwait hset => ?_,
    fun t' hpc => ?_⟩
  · rw [flight_lead]
    by_cases ht : t' = t
    · rw [ht, hself] at hpc
      cases hpc
      exact if_pos rfl
    · have hold := h.booked t' k f r ((hother ht).symm.trans hpc)
      by_cases hk : k = key
      · rw [hk, hflight] at hold
        cases hold
      · rw [if_neg hk]
        exact hold
  · rw [payload_lead]
    by_cases ht : t' = t
    · rw [ht, hself] at hpc
      cases hpc
    · exact h.stored t' k f r v ((hother ht).symm.trans hpc)
  · rw [payload_lead]
    by_cases ht : t' = t
    · rw [ht, hself] at hwait
      cases hwait
    · exact h.answered t' k f (hother ht ▸ hwait) hset
  · by_cases ht : t' = t
    · rw [ht, hself] at hpc
      cases hpc
    · exact h.answers t' ((hother ht).symm.trans hpc)

theorem Kept.put (h : s.Kept) (key : κ) (v : V) : (s.put key v).Kept := by
  have hflight : ∀ k, (s.put key v).flight k = s.flight k := by
    intro k
    show (s.setSlot key ⟨some v, s.flight key⟩).flight k = _
    rw [flight_setSlot]
    split
    next hk => rw [hk]
    next => rfl
  have hpayload : ∀ {k}, (s.payload k).isSome → ((s.put key v).payload k).isSome :=
    fun hk => payload_step (a := .put key v) nofun hk
  exact ⟨fun t k f r hpc => (hflight k).trans (h.booked t k f r hpc),
    fun t k f r w hpc => hpayload (h.stored t k f r w hpc),
    fun t k f hwait hset => hpayload (h.answered t k f hwait hset), h.answers⟩

theorem Kept.finish {after : StaleState κ V E} {r : Bool} {outcome : Except E V} (h : s.Kept)
    (hflying : s.Flying) (hpc : s.threads t = .building key f r)
    (hland : Landed s after key f outcome) :
    (after.setThread t (.landed key f r outcome)).Kept := by
  have hpayload : ∀ {k}, (s.payload k).isSome → (after.payload k).isSome := by
    intro k hk
    rw [hland.payload]
    cases outcome with
    | error e => exact hk
    | ok v =>
      dsimp only
      split
      · rfl
      · exact hk
  have hold : ∀ {t'}, t' ≠ t →
      (after.setThread t (.landed key f r outcome)).threads t' = s.threads t' := by
    intro t' ht
    rw [threads_ne ht, hland.threads]
  refine ⟨fun t' k g r' hpc' => ?_, fun t' k g r' v hpc' => ?_, fun t' k g hwait hset => ?_,
    fun t' hpc' => ?_⟩
  · show after.flight k = some g
    by_cases ht : t' = t
    · rw [ht, threads_self] at hpc'
      cases hpc'
    · rw [hold ht] at hpc'
      have hbooked := h.booked t' k g r' hpc'
      rw [hland.flight, if_neg, hbooked]
      -- another builder of the key would be on the same flight
      rintro ⟨hk, hf⟩
      rw [hk, hf] at hbooked
      refine ht (hflying.one t' t k key f ?_ ?_)
      · rw [hpc', ← Option.some.inj hbooked]
        rfl
      · rw [hpc]
        rfl
  · show (after.payload k).isSome
    by_cases ht : t' = t
    · rw [ht, threads_self] at hpc'
      cases hpc'
      rw [hland.payload]
      exact congrArg Option.isSome (if_pos rfl)
    · rw [hold ht] at hpc'
      exact hpayload (h.stored t' k g r' v hpc')
  · show (after.payload k).isSome
    have ht : t' ≠ t := by
      intro ht
      rw [ht, threads_self] at hwait
      cases hwait
    rw [hold ht] at hwait
    exact hpayload (h.answered t' k g hwait ((congrFun hland.events g).symm.trans hset))
  · by_cases ht : t' = t
    · rw [ht, threads_self] at hpc'
      cases hpc'
    · exact h.answers t' ((hold ht).symm.trans hpc')

omit [DecidableEq κ] in
theorem Kept.announce {r : Bool} {outcome : Except E V} (h : s.Kept) (hflying : s.Flying)
    (hpc : s.threads t = .landed key f r outcome) {error : Option E}
    (herror : error = none → ∃ v, outcome = .ok v) :
    { s.setThread t (ended key r outcome) with
      events := Function.update s.events f (some error) }.Kept := by
  have hown : (s.threads t).leads = some (key, f) := by
    rw [hpc]
    rfl
  obtain ⟨hled, hwaited⟩ := ended_leads key r outcome
  refine ⟨fun t' k g r' hpc' => ?_, fun t' k g r' v hpc' => ?_, fun t' k g hwait hset => ?_,
    fun t' hpc' => ?_⟩
  · by_cases ht : t' = t
    · have hself : (s.setThread t (ended key r outcome)).threads t' = .building k g r' := hpc'
      rw [ht, threads_self] at hself
      rw [hself] at hled
      cases hled
    · exact h.booked t' k g r' ((threads_ne ht).symm.trans hpc')
  · by_cases ht : t' = t
    · have hself : (s.setThread t (ended key r outcome)).threads t' = .landed k g r' (.ok v) := hpc'
      rw [ht, threads_self] at hself
      rw [hself] at hled
      cases hled
    · exact h.stored t' k g r' v ((threads_ne ht).symm.trans hpc')
  · show (s.payload k).isSome
    have ht : t' ≠ t := by
      intro ht
      have hself : ((s.setThread t (ended key r outcome)).threads t').waits = some (k, g) := hwait
      rw [ht, threads_self, hwaited] at hself
      cases hself
    have hwait' : (s.threads t').waits = some (k, g) := by
      rw [← threads_ne (s := s) ht]
      exact hwait
    have hset' : Function.update s.events f (some error) g = some none := hset
    by_cases hg : g = f
    · -- the follower waits for the key that this thread has stored
      rw [hg, Function.update_self] at hset'
      obtain ⟨v, hv⟩ := herror (Option.some.inj hset')
      rcases hflying.woken t' k g hwait' with hevent | ⟨t'', hlead⟩
      · rw [hg, hflying.unset t key f hown] at hevent
        cases hevent
      · rw [hg] at hlead
        have ht'' := hflying.one t'' t k key f hlead hown
        rw [ht'', hown] at hlead
        rw [← (Prod.mk.inj (Option.some.inj hlead)).1]
        exact h.stored t key f r v (hv ▸ hpc)
    · rw [Function.update_of_ne hg] at hset'
      exact h.answered t' k g hwait' hset'
  · by_cases ht : t' = t
    · have hself : (s.setThread t (ended key r outcome)).threads t' = .returned .noPayload := hpc'
      rw [ht, threads_self] at hself
      cases outcome <;> cases r <;> cases hself
    · exact h.answers t' ((threads_ne ht).symm.trans hpc')

/-- Every section but a clearing. -/
theorem kept_step {a : StaleAct κ V E} (ha : a ≠ .clear) (hflying : s.Flying) (h : s.Kept) :
    (s.step a).Kept := by
  cases a with
  | get t key =>
    show (if s.free t then s.get t key else s).Kept
    split
    next =>
      unfold get
      split
      next => exact h.follow rfl nofun nofun
      next f _ hf =>
        refine h.follow rfl (fun k g heq => ?_) nofun
        cases heq
        obtain ⟨t', r, hpc⟩ := hflying.registered key f hf
        exact hflying.unset t' key f (by rw [hpc]; rfl)
      next _ hf => exact h.lead hf false
    next => exact h
  | refresh t key =>
    show (if s.free t then s.refresh t key else s).Kept
    split
    next =>
      unfold refresh
      split
      next => exact h.follow rfl nofun nofun
      next hf => exact h.lead hf true
    next => exact h
  | put key v => exact h.put key v
  | clear => exact absurd rfl ha
  | finish t outcome =>
    unfold step
    dsimp only
    split
    next key f r hpc =>
      cases outcome with
      | ok v => exact h.finish hflying hpc (landed_store key f v)
      | error e => exact h.finish hflying hpc (landed_fail key f e)
    next => exact h
  | announce t =>
    unfold step
    dsimp only
    split
    next key f r outcome hpc =>
      refine h.announce hflying hpc fun herror => ?_
      cases outcome with
      | ok v => exact ⟨v, rfl⟩
      | error e => cases herror
    next => exact h
  | wake t =>
    unfold step
    dsimp only
    split
    next key f hpc =>
      split
      next error herror =>
        refine h.follow rfl nofun fun heq => ?_
        unfold followed at heq
        split at heq
        next => cases heq
        next => cases heq
        next hnone =>
          have hsome := h.answered t key f (by rw [hpc]; rfl) herror
          rw [hnone] at hsome
          cases hsome
      next => exact h
    next => exact h
  | check t =>
    unfold step
    dsimp only
    split
    next key e hpc =>
      refine h.follow rfl nofun fun heq => ?_
      split at heq
      next => cases heq
      next => cases heq
    next => exact h

/-! ## Runs -/

theorem flying_run (acts : List (StaleAct κ V E)) : (acts.foldl step start).Flying :=
  run_inv (C := fun _ _ => True) (fun s a h _ => flying_step s a h) acts flying_start
    (along_of_forall (fun _ _ => trivial) acts)

theorem kept_run {acts : List (StaleAct κ V E)} (hclear : ∀ a ∈ acts, a ≠ .clear) :
    (acts.foldl step start).Kept :=
  (run_inv (I := fun s => s.Flying ∧ s.Kept) (C := fun _ a => a ≠ .clear)
    (fun s a h ha => ⟨flying_step s a h.1, kept_step ha h.1 h.2⟩) acts
    ⟨flying_start, kept_start⟩ (along_of_mem acts hclear)).2

theorem payload_run {acts : List (StaleAct κ V E)} (hclear : ∀ a ∈ acts, a ≠ .clear)
    (h : (s.payload k).isSome) : ((acts.foldl step s).payload k).isSome :=
  run_inv (I := fun s : StaleState κ V E => (s.payload k).isSome) (C := fun _ a => a ≠ .clear)
    (fun _ _ h ha => payload_step ha h) acts h (along_of_mem acts hclear)

/-- Nobody waits in vain, and a served payload is one made for its key. While nothing clears the
cache, a key has one builder, no `get` ends without an answer, and after the first payload of a
key every `get` of it answers at once. -/
theorem stale_cache_serves (acts : List (StaleAct κ V E)) :
    let s := acts.foldl step (start : StaleState κ V E)
    (∀ t key f, s.threads t = .waiting key f →
      (s.events f).isSome ∨ ∃ t', (s.threads t').leads = some (key, f)) ∧
    (∀ t key v, s.threads t = .returned (.value key v) → (key, v) ∈ s.made) ∧
    ((∀ a ∈ acts, a ≠ .clear) →
      (∀ t t' key f f' r r', s.threads t = .building key f r →
        s.threads t' = .building key f' r' → t = t') ∧
      (∀ t, s.threads t ≠ .returned .noPayload) ∧
      ∀ before after key, acts = before ++ after → ((before.foldl step start).payload key).isSome →
        ∀ t, s.free t = true →
          ∃ v, (s.step (.get t key)).threads t = .returned (.value key v)) := by
  intro s
  have hflying : s.Flying := flying_run acts
  refine ⟨fun t key f hpc => hflying.woken t key f (by rw [hpc]; rfl), hflying.served,
    fun hclear => ?_⟩
  have hkept : s.Kept := kept_run hclear
  refine ⟨fun t t' key f f' r r' hpc hpc' => ?_, hkept.answers,
    fun before after key hacts hbefore t hfree => ?_⟩
  · have hf := hkept.booked t key f r hpc
    rw [hkept.booked t' key f' r' hpc'] at hf
    obtain rfl := Option.some.inj hf
    exact hflying.one t t' key key f' (by rw [hpc]; rfl) (by rw [hpc']; rfl)
  · have hpayload : (s.payload key).isSome := by
      show ((acts.foldl step start).payload key).isSome
      rw [hacts, List.foldl_append]
      exact payload_run (fun a ha => hclear a (hacts ▸ List.mem_append_right _ ha)) hbefore
    obtain ⟨v, hv⟩ := Option.isSome_iff_exists.mp hpayload
    refine ⟨v, ?_⟩
    show (if s.free t then s.get t key else s).threads t = _
    rw [if_pos hfree]
    unfold get
    rw [hv]
    exact threads_self

/-- A follower and the leader it waits for. -/
def followedRun : List (StaleAct ℕ ℕ ℕ) :=
  [.get 0 7, .get 1 7, .finish 0 (.ok 5), .announce 0, .wake 1]

theorem stale_cache_serves_follower : (7, 5) ∈ (followedRun.foldl step start).made ∧
    ∀ t, (followedRun.foldl step start).threads t ≠ .returned .noPayload := by
  obtain ⟨-, hserved, hkept⟩ := stale_cache_serves followedRun
  refine ⟨hserved 1 7 5 rfl, (hkept fun a ha => ?_).2.1⟩
  unfold followedRun at ha
  simp only [List.mem_cons, List.not_mem_nil, or_false] at ha
  rcases ha with rfl | rfl | rfl | rfl | rfl <;> nofun

end StaleState

end

end PaperTrading.Web
