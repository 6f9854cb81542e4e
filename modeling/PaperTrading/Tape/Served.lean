import PaperTrading.Tape.Snapshot

/-!
# The served tape

The part of `price_history.py` that a running web server uses: one background
builder, which writes the npz and the manifest of a pin and moves the pin that is
served, and requests, which send the served manifest or stream the npz. Files are
replaced one at a time and the served entry is kept in memory, so between any two
micro-steps of the builder a request can come in.

`Server` also holds ghosts that nothing reads: what was sent, the pins that were
ever served with what was on disk for them then, the last pin served, and the pins
whose npz was replaced after their manifest.
-/

namespace PaperTrading.Tape

open PaperTrading.Lib

/-- `TAPE_CACHE_KEEP` -/
def TAPE_CACHE_KEEP : ℕ := 3

/-- `PREBUILD_LEAD_MS` -/
def PREBUILD_LEAD_MS : ℤ := 30 * 60 * 1000

/-! ## The files -/

/-- A manifest file: the manifest, and of the bookkeeping the length of the npz and
the newest bar at the build. -/
structure Record where
  manifest : Manifest
  blobBytes : ℕ
  builtRawEnd : Option ℤ
deriving DecidableEq, Repr

/-- The tape cache on disk, by pin. -/
structure Files (β : Type) where
  blobs : Dict ℤ β := .empty
  records : Dict ℤ Record := .empty

/-- `manifest_covers_pin` -/
def manifestCoversPin (m : Manifest) (pin : ℤ) : Bool :=
  QUAL_SYMBOLS.all fun s =>
    match (m.symbols.lookup s.name).bind Prod.snd with
    | some last => decide (pin ≤ last)
    | none => false

/-- `_tape_final` -/
def tapeFinal (r : Record) (pin : ℤ) : Bool :=
  manifestCoversPin r.manifest pin ||
    match r.builtRawEnd with
    | some raw => decide (pin < raw)
    | none => false

/-- What the web keeps of a served tape; its npz is the file of the pin. -/
structure Entry where
  pin : ℤ
  manifest : Manifest
deriving DecidableEq, Repr

section
variable {β : Type}

def Files.writeBlob (f : Files β) (pin : ℤ) (blob : β) : Files β :=
  { f with blobs := f.blobs.set pin blob }

def Files.writeRecord (f : Files β) (pin : ℤ) (r : Record) : Files β :=
  { f with records := f.records.set pin r }

def Files.unlinkRecord (f : Files β) (pin : ℤ) : Files β :=
  { f with records := f.records.erase pin }

def Files.unlinkBlob (f : Files β) (pin : ℤ) : Files β :=
  { f with blobs := f.blobs.erase pin }

end

section
variable {β : Type} (size : β → ℕ)

/-- `_read_manifest_file`: the record of a pair whose npz has the recorded length. -/
def Files.head (f : Files β) (pin : ℤ) : Option Record :=
  match f.records.get? pin, f.blobs.get? pin with
  | some r, some blob => if r.blobBytes = size blob then some r else none
  | _, _ => none

/-- `_cached_pin_numbers`, newest first. -/
def Files.pins (f : Files β) : List ℤ :=
  (f.records.keys.filter fun pin => (f.blobs.get? pin).isSome).insertionSort (· ≥ ·)

/-- The whole pairs, newest first. -/
def Files.heads (f : Files β) : List (ℤ × Record) :=
  f.pins.filterMap fun pin => (f.head size pin).map fun r => (pin, r)

/-- `_load_newest`: the newest final tape, or else the newest whole one. -/
def Files.newest (f : Files β) : Option Entry :=
  (((f.heads size).find? fun e => tapeFinal e.2 e.1).or (f.heads size).head?).map fun e =>
    ⟨e.1, e.2.manifest⟩

/-- The pins a server that loads from disk chooses the newest of: those of the final
tapes, or of all whole ones where none is final. -/
def Files.candidates (f : Files β) : List ℤ :=
  let final := (f.heads size).filter fun e => tapeFinal e.2 e.1
  (if final = [] then f.heads size else final).map Prod.fst

/-- The pins `prune_tape_cache` drops. -/
def Files.stale (f : Files β) : List ℤ :=
  ((f.records.keys ++ f.blobs.keys).dedup.insertionSort (· ≥ ·)).drop TAPE_CACHE_KEEP

end

/-! ## What is loaded from disk -/

section
variable {β : Type} {size : β → ℕ}

theorem head_writeBlob_ne {f : Files β} {pin q : ℤ} (blob : β) (h : q ≠ pin) :
    (f.writeBlob pin blob).head size q = f.head size q := by
  unfold Files.head Files.writeBlob
  rw [Dict.get?_set, if_neg h]

theorem head_writeRecord_ne {f : Files β} {pin q : ℤ} (r : Record) (h : q ≠ pin) :
    (f.writeRecord pin r).head size q = f.head size q := by
  unfold Files.head Files.writeRecord
  rw [Dict.get?_set, if_neg h]

theorem head_unlinkRecord {f : Files β} {pin q : ℤ} {r : Record}
    (h : (f.unlinkRecord pin).head size q = some r) : f.head size q = some r := by
  unfold Files.head Files.unlinkRecord at h
  rw [Dict.get?_erase] at h
  by_cases hq : q = pin
  · rw [if_pos hq] at h
    cases h
  · rw [if_neg hq] at h
    exact h

theorem head_unlinkBlob {f : Files β} {pin q : ℤ} {r : Record}
    (h : (f.unlinkBlob pin).head size q = some r) : f.head size q = some r := by
  unfold Files.head Files.unlinkBlob at h
  rw [Dict.get?_erase] at h
  by_cases hq : q = pin
  · rw [if_pos hq] at h
    cases hr : f.records.get? q <;> rw [hr] at h <;> cases h
  · rw [if_neg hq] at h
    exact h

theorem mem_heads {f : Files β} {pin : ℤ} {r : Record} (h : (pin, r) ∈ f.heads size) :
    f.head size pin = some r := by
  obtain ⟨pin', -, hr⟩ := List.mem_filterMap.mp h
  obtain ⟨r', hhead, heq⟩ := Option.map_eq_some_iff.mp hr
  cases heq
  exact hhead

/-- The whole pairs are listed newest first. -/
theorem heads_sorted (f : Files β) : (f.heads size).Pairwise fun a b => b.1 ≤ a.1 := by
  unfold Files.heads
  refine List.Pairwise.filterMap _ ?_ (List.pairwise_insertionSort (· ≥ ·) _)
  intro a b hab x hx y hy
  obtain ⟨r, -, rfl⟩ := Option.map_eq_some_iff.mp hx
  obtain ⟨r', -, rfl⟩ := Option.map_eq_some_iff.mp hy
  exact hab

theorem find?_sorted {l : List (ℤ × Record)} (h : l.Pairwise fun a b => b.1 ≤ a.1)
    {p : ℤ × Record → Bool} {e : ℤ × Record} (he : l.find? p = some e) :
    ∀ e' ∈ l.filter p, e'.1 ≤ e.1 := by
  have hhead : (l.filter p).head? = some e := by rw [List.head?_filter, he]
  obtain ⟨rest, hrest⟩ := List.head?_eq_some_iff.mp hhead
  have hsorted := h.filter p
  rw [hrest] at hsorted ⊢
  intro e' he'
  rcases List.mem_cons.mp he' with rfl | hin
  · exact le_refl _
  · exact List.rel_of_pairwise_cons hsorted hin

/-- The entry that is loaded is the newest of the candidates, and it is on disk. -/
theorem newest_spec {f : Files β} {e : Entry} (h : f.newest size = some e) :
    e.pin ∈ f.candidates size ∧ (∀ pin ∈ f.candidates size, pin ≤ e.pin) ∧
      ∃ r, f.head size e.pin = some r ∧ r.manifest = e.manifest := by
  obtain ⟨picked, hpicked, rfl⟩ := Option.map_eq_some_iff.mp h
  have hsorted : (f.heads size).Pairwise fun a b => b.1 ≤ a.1 := heads_sorted f
  have hcandidates : ∃ kept : List (ℤ × Record), f.candidates size = kept.map Prod.fst ∧
      picked ∈ kept ∧ (∀ e' ∈ kept, e'.1 ≤ picked.1) ∧ ∀ e' ∈ kept, e' ∈ f.heads size := by
    unfold Files.candidates
    dsimp only
    cases hfinal : (f.heads size).find? fun e => tapeFinal e.2 e.1 with
    | some found =>
      rw [hfinal] at hpicked
      obtain rfl : found = picked := Option.some.inj hpicked
      have his := List.find?_some hfinal
      have hmem : found ∈ (f.heads size).filter fun e => tapeFinal e.2 e.1 :=
        List.mem_filter.mpr ⟨List.mem_of_find?_eq_some hfinal, his⟩
      rw [if_neg (List.ne_nil_of_mem hmem)]
      exact ⟨_, rfl, hmem, find?_sorted hsorted hfinal, fun e' he' => (List.mem_filter.mp he').1⟩
    | none =>
      rw [hfinal] at hpicked
      have hnil : (f.heads size).filter (fun e => tapeFinal e.2 e.1) = [] := by
        rw [List.filter_eq_nil_iff]
        exact List.find?_eq_none.mp hfinal
      rw [if_pos hnil]
      obtain ⟨rest, hrest⟩ := List.head?_eq_some_iff.mp hpicked
      refine ⟨_, rfl, by rw [hrest]; exact List.mem_cons_self, ?_, fun e' he' => he'⟩
      rw [hrest] at hsorted ⊢
      intro e' he'
      rcases List.mem_cons.mp he' with rfl | hin
      · exact le_refl _
      · exact List.rel_of_pairwise_cons hsorted hin
  obtain ⟨kept, hkept, hin, hle, hheads⟩ := hcandidates
  rw [hkept]
  refine ⟨List.mem_map_of_mem hin, ?_, picked.2, mem_heads (hheads picked hin), rfl⟩
  intro pin hpin
  obtain ⟨e', he', rfl⟩ := List.mem_map.mp hpin
  exact hle e' he'

theorem head_spec {f : Files β} {pin : ℤ} {r : Record} (h : f.head size pin = some r) :
    f.records.get? pin = some r ∧ ∃ blob, f.blobs.get? pin = some blob := by
  unfold Files.head at h
  split at h
  next r' blob hr hblob =>
    split at h
    · cases h
      exact ⟨hr, blob, hblob⟩
    · cases h
  next => cases h

end

/-! ## The builder -/

/-- What a pass of the builder reads at its start: the active pin, the newest shared
bar and the time. -/
structure Pass where
  active : ℤ
  raw : ℤ
  now : ℤ
deriving DecidableEq, Repr

/-- A pin to build. -/
structure Job where
  pass : Pass
  pin : ℤ
deriving DecidableEq, Repr

/-- What was built of the arrays that were read. -/
structure Built (β : Type) where
  manifest : Manifest
  blob : β

/-- Where the builder is. From `reading` to `unlinking` it is the short-lived
process of `tape_build.py`. -/
inductive Builder (β : Type) where
  | asleep
  /-- the active day was found final and is to be served -/
  | serving (pass : Pass) (manifest : Manifest)
  | reading (job : Job)
  /-- BTC was read, ETH not yet -/
  | halfRead (job : Job) (btc : List Bar)
  /-- the npz is to be written -/
  | writing (job : Job) (built : Built β)
  /-- the npz is written and the manifest is not -/
  | recording (job : Job) (built : Built β)
  /-- the manifests of the stale pins are to be unlinked -/
  | pruning (job : Job) (stale : List ℤ)
  /-- the manifest of a stale pin is unlinked and its npz is not -/
  | unlinking (job : Job) (pin : ℤ) (stale : List ℤ)
  /-- the process is done, the server reads the manifest -/
  | readingBack (job : Job)
  /-- the active day is done; the next day may be due -/
  | warming (pass : Pass)

/-- A client in `open_served_tape`: it is to ask for the served entry, or to open
the file of the one it got. The number is the attempts it has left after this one. -/
inductive Client where
  | idle
  | asking (left : ℕ)
  | holding (entry : Entry) (left : ℕ)
deriving DecidableEq, Repr

/-- A client whose file was gone tries again, or gives up. -/
def Client.retry : ℕ → Client
  | 0 => .idle
  | left + 1 => .asking left

structure Server (β : Type) where
  tapes : Tapes
  files : Files β := {}
  served : Option Entry := none
  builder : Builder β := .asleep
  /-- the newest bar at the last build of a pin -/
  stable : Dict ℤ ℤ := .empty
  clients : ℕ → Client := fun _ => .idle
  /-- the manifests that were sent -/
  told : List Manifest := []
  /-- the npz files that were sent, each with its entry's pin -/
  sent : List (ℤ × β) := []
  /-- the pins that were ever served, with their manifest and npz -/
  shown : ℤ → Option (Built β) := fun _ => none
  lastServed : Option ℤ := none
  torn : List ℤ := []

section
variable {β : Type} (npz : Npz β) (sha256 : List (BitVec 8) → String) (size : β → ℕ)

/-- The server has no pin on the side; it floors its newest shared bar. -/
def Server.active (s : Server β) : Option ℤ := activePin none s.tapes

/-- `_served[key] = entry`, for an entry whose npz is on disk. -/
def Server.take (s : Server β) (e : Entry) (blob : β) : Server β :=
  { s with
    served := some e
    lastServed := some e.pin
    shown := Function.update s.shown e.pin ((s.shown e.pin).or (some ⟨e.manifest, blob⟩)) }

/-- `_install_built`; where the npz is missing its `stat` raises. -/
def Server.installBuilt (s : Server β) (pin : ℤ) (manifest : Manifest) (active : ℤ) : Server β :=
  if active < pin then s
  else if s.served.any fun current => pin < current.pin then s
  else if pin < active ∧ s.served.isSome = true then s
  else
    match s.files.blobs.get? pin with
    | some blob => s.take ⟨pin, manifest⟩ blob
    | none => s

/-- `_served_entry`: the entry in memory, or else the newest on disk. -/
def Server.servedEntry (s : Server β) : Option Entry × Server β :=
  match s.served with
  | some e => (some e, s)
  | none =>
    match s.files.newest size with
    | none => (none, s)
    | some e =>
      match s.files.blobs.get? e.pin with
      | some blob => (some e, s.take e blob)
      | none => (none, s)

/-! ## Steps -/

/-- The start of a pass. The active day is served when it is final on disk, and
built when it is not and the tape has moved since the last try. -/
def Server.wake (s : Server β) (now : ℤ) : Server β :=
  match s.active, rawEnd s.tapes with
  | some active, some raw =>
    let pass : Pass := ⟨active, raw, now⟩
    match s.files.head size active with
    | none => { s with builder := .reading ⟨pass, active⟩ }
    | some r =>
      if tapeFinal r active then
        if s.served.map Entry.pin = some active then { s with builder := .warming pass }
        else { s with builder := .serving pass r.manifest }
      else if s.stable.get? active = some raw then { s with builder := .warming pass }
      else { s with builder := .reading ⟨pass, active⟩ }
  | _, _ => s

/-- The cut of a symbol as it is now. -/
def Server.cut (s : Server β) (symbol : Symbol) (pin : ℤ) : List Bar :=
  cutToPin (s.tapes symbol) (some pin)

/-- What is built of two cuts. -/
def buildOf (pin : ℤ) (btc eth : List Bar) : Built β :=
  let cuts := fun | Symbol.btc => btc | Symbol.eth => eth
  ⟨hashManifest sha256 cuts "live_tape" (some pin), npz.savez (archiveOf npz cuts (some pin))⟩

/-- What follows the build of a pin: after the active day the next one may be due. -/
def Server.doneWith (s : Server β) (job : Job) : Server β :=
  if job.pin = job.pass.active then
    { s with stable := s.stable.set job.pin job.pass.raw, builder := .warming job.pass }
  else { s with builder := .asleep }

/-- The next micro-step of the builder. -/
def Server.build (s : Server β) : Server β :=
  match s.builder with
  | .asleep => s
  | .serving pass manifest =>
    { s.installBuilt pass.active manifest pass.active with builder := .warming pass }
  | .reading job => { s with builder := .halfRead job (s.cut .btc job.pin) }
  | .halfRead job btc =>
    if btc = [] ∧ s.cut .eth job.pin = [] then { s with builder := .readingBack job }
    else { s with builder := .writing job (buildOf npz sha256 job.pin btc (s.cut .eth job.pin)) }
  | .writing job built =>
    { s with
      files := s.files.writeBlob job.pin built.blob
      torn := job.pin :: s.torn
      builder := .recording job built }
  | .recording job built =>
    let files := s.files.writeRecord job.pin
      ⟨built.manifest, size built.blob, some job.pass.raw⟩
    { s with
      files := files
      torn := s.torn.filter fun pin => pin ≠ job.pin
      builder := .pruning job files.stale }
  | .pruning job [] => { s with builder := .readingBack job }
  | .pruning job (pin :: stale) =>
    { s with files := s.files.unlinkRecord pin, builder := .unlinking job pin stale }
  | .unlinking job pin stale =>
    { s with files := s.files.unlinkBlob pin, builder := .pruning job stale }
  | .readingBack job =>
    match s.files.head size job.pin with
    | some r => (s.installBuilt job.pin r.manifest job.pass.active).doneWith job
    | none => s.doneWith job
  | .warming pass =>
    let next := floorUtcDay pass.now + DAY_MS
    if next ≠ pass.active ∧ 0 < next - pass.now ∧ next - pass.now ≤ PREBUILD_LEAD_MS ∧
        s.files.head size next = none then
      { s with builder := .reading ⟨pass, next⟩ }
    else { s with builder := .asleep }

/-- `served_manifest`; with nothing to serve the answer is a 503. -/
def Server.sendManifest (s : Server β) : Server β :=
  match s.servedEntry size with
  | (some e, s) => { s with told := s.told ++ [e.manifest] }
  | (none, s) => s

/-- The next micro-step of a client in `open_served_tape`. A file that cannot be
opened clears the served entry. -/
def Server.sendTape (s : Server β) (c : ℕ) : Server β :=
  let ask := fun left : ℕ =>
    match s.servedEntry size with
    | (some e, s) => { s with clients := Function.update s.clients c (.holding e left) }
    | (none, s) => { s with clients := Function.update s.clients c .idle }
  match s.clients c with
  | .idle => ask 1
  | .asking left => ask left
  | .holding e left =>
    match s.files.blobs.get? e.pin with
    | some blob =>
      { s with sent := s.sent ++ [(e.pin, blob)], clients := Function.update s.clients c .idle }
    | none =>
      { s with served := none, clients := Function.update s.clients c (.retry left) }

inductive Op where
  /-- a page of bars is merged into a symbol's tape -/
  | grow (page : Symbol × List Bar)
  /-- the builder wakes up for a pass -/
  | wake (now : ℤ)
  /-- the builder takes its next micro-step -/
  | build
  /-- the builder fails and backs off -/
  | fail
  /-- a client asks for the manifest -/
  | manifest
  /-- a client takes its next micro-step towards the npz -/
  | tape (c : ℕ)
deriving DecidableEq, Repr

def Server.step (s : Server β) : Op → Server β
  | .grow page => { s with tapes := grow s.tapes page }
  | .wake now =>
    match s.builder with
    | .asleep => s.wake size now
    | _ => s
  | .build => s.build npz sha256 size
  | .fail => { s with builder := .asleep }
  | .manifest => s.sendManifest size
  | .tape c => s.sendTape size c

end

end PaperTrading.Tape
