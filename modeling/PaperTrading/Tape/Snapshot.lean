import PaperTrading.Tape.Pin
import PaperTrading.Lib.Dict
import PaperTrading.Lib.Ran

/-!
# Tape snapshots

`tape_blob` packs the pinned cuts of a server into an npz archive and
`install_tape_blob` unpacks it on a worker. The archive format is numpy's: `Npz`
stands for it, and `Npz.Lawful` is that an archive loads as it was saved.

`snapshot_round_trip_iff` says when the worker's manifest is then the server's:
an unpinned archive leaves the pin of an earlier one standing.
`install_atomic_iff` says when a rejected archive leaves the worker's files
alone: a missing symbol is noticed only after the symbols before it are written.
-/

namespace PaperTrading.Tape

open PaperTrading.Lib

/-! ## The archive -/

/-- `symbol.replace("/", "_")` -/
def Symbol.slug : Symbol → String
  | .btc => "BTC_USDT"
  | .eth => "ETH_USDT"

/-- A member of an archive, by what numpy makes of it: as rows of `TAPE_DTYPE`,
and its first element as an integer. -/
structure Member where
  asTape : Option (List Bar)
  asInt : Option ℤ
deriving DecidableEq, Repr

/-- `packed.files` and the members. -/
abbrev Archive := List (String × Member)

/-- numpy's archive format, for blobs of type `β`. -/
structure Npz (β : Type) where
  /-- `np.savez_compressed` -/
  savez : Archive → β
  /-- `np.load`, `none` where it raises -/
  load : β → Option Archive
  /-- an integer read as rows of the tape -/
  spread : ℤ → Option (List Bar)

/-- An archive loads as it was saved. -/
def Npz.Lawful {β : Type} (npz : Npz β) : Prop := ∀ a, npz.load (npz.savez a) = some a

/-! ## A host -/

/-- `_cut_to_pin` on rows; `cutToPin` on the rows of a stored tape. -/
def cutRows (rows : List Bar) (pin : Option ℤ) : List Bar :=
  let upto := match pin with
    | some p => rows.take (searchsortedRight rows p)
    | none => rows
  upto.drop (searchsortedLeft upto QUAL_CANONICAL_START_MS)

/-- The files of a state directory that the shared tape is read from. -/
structure Dir where
  /-- the live-tape file of a symbol -/
  npy : Symbol → Option (List Bar)
  /-- the rows of a symbol in `crypto_history_5m.json`, none where it has none -/
  json : Symbol → List Bar := fun _ => []
  /-- the pin kept on the side -/
  pin : Option ℤ := none

/-- `_tape_ready` -/
def Dir.tapeReady (d : Dir) : Bool := QUAL_SYMBOLS.all fun s => (d.npy s).isSome

/-- `_source_array` -/
def Dir.sourceArray (d : Dir) (s : Symbol) : List Bar :=
  if d.tapeReady then (d.npy s).getD [] else d.json s

/-- The name of the store that is read. -/
def Dir.source (d : Dir) : String :=
  if d.tapeReady then "live_tape" else "crypto_history_5m.json"

/-- `_raw_end`: of live-tape files every symbol needs a bar, of the JSON file the
symbols that have none are passed over. -/
def Dir.rawEnd (d : Dir) : Option ℤ :=
  let newest := fun s => (d.sourceArray s).getLast?.map Bar.ts
  if d.tapeReady then do
    let btc ← newest .btc
    let eth ← newest .eth
    return min btc eth
  else (QUAL_SYMBOLS.filterMap newest).min?

/-- `_active_pin` -/
def Dir.activePin (d : Dir) : Option ℤ :=
  match d.pin with
  | some pin => some pin
  | none => d.rawEnd.map floorUtcDay

/-- The arrays of `canonical_arrays`. -/
def Dir.canonicalArrays (d : Dir) (s : Symbol) : List Bar :=
  cutRows (d.sourceArray s) d.activePin

/-- The manifest of what is on disk. -/
def Dir.manifest (sha256 : List (BitVec 8) → String) (d : Dir) : Manifest :=
  hashManifest sha256 d.canonicalArrays d.source d.activePin

/-- The archive `_compress` saves. -/
def archiveOf {β : Type} (npz : Npz β) (cuts : Symbol → List Bar) (pin : Option ℤ) : Archive :=
  (QUAL_SYMBOLS.map fun s => (s.slug, ⟨some (cuts s), none⟩)) ++
    pin.toList.map fun pin => ("data_end", ⟨npz.spread pin, some pin⟩)

/-- The archive of what is on disk. -/
def Dir.archive {β : Type} (npz : Npz β) (d : Dir) : Archive :=
  archiveOf npz d.canonicalArrays d.activePin

/-- `_MANIFEST_CACHE`, by pin and source, and `_BLOB`. -/
structure Cache (β : Type) where
  manifests : Dict (Option ℤ × String) Manifest := .empty
  blob : Option (String × β) := none

/-- A state directory and what the process that uses it has cached. -/
structure Host (β : Type) where
  dir : Dir
  cache : Cache β := {}

section
variable {β : Type} (npz : Npz β) (sha256 : List (BitVec 8) → String)

/-- `manifest_for` -/
def Host.manifestFor (h : Host β) : Manifest × Host β :=
  match h.cache.manifests.get? (h.dir.activePin, h.dir.source) with
  | some cached => (cached, h)
  | none =>
    (h.dir.manifest sha256, { h with cache := { h.cache with
      manifests := h.cache.manifests.set (h.dir.activePin, h.dir.source)
        (h.dir.manifest sha256) } })

/-- A new archive, kept under the digest. -/
def Host.pack (h : Host β) (sha : String) : β × Host β :=
  (npz.savez (h.dir.archive npz),
    { h with cache := { h.cache with blob := some (sha, npz.savez (h.dir.archive npz)) } })

/-- `tape_blob` -/
def Host.tapeBlob (h : Host β) : β × Host β :=
  let found := h.manifestFor sha256
  match found.2.cache.blob with
  | some (sha, blob) =>
    if sha = found.1.sha256 then (blob, found.2) else found.2.pack npz found.1.sha256
  | none => found.2.pack npz found.1.sha256

/-! ## The installation -/

/-- What `install_tape_blob` raises. -/
inductive InstallError where
  /-- numpy cannot read the bytes -/
  | badArchive
  /-- numpy cannot read a member as what it should be -/
  | badMember
  | historyMismatch (text : String)
deriving DecidableEq, Repr

/-- The archive's pin: `some none` where it has none, `none` where it is no
number. -/
def readPin (packed : Archive) : Option (Option ℤ) :=
  match packed.lookup "data_end" with
  | none => some none
  | some member => member.asInt.map some

/-- `save_array` -/
def Dir.saveArray (d : Dir) (s : Symbol) (rows : List Bar) : Dir :=
  { d with npy := Function.update d.npy s (some rows) }

/-- The pass over one symbol. -/
def installSymbol (packed : Archive) (d : Dir) (s : Symbol) : Ran InstallError Dir :=
  match packed.lookup s.slug with
  | none => .raise (.historyMismatch s!"snapshot missing {s.name}") d
  | some member =>
    match member.asTape with
    | none => .raise .badMember d
    | some rows => .ok (d.saveArray s rows)

/-- `_write_pin`, where the archive has a pin. -/
def Dir.writePin (d : Dir) (pin : Option ℤ) : Dir :=
  match pin with
  | some pin => { d with pin := some pin }
  | none => d

/-- The files `install_tape_blob` leaves. -/
def Dir.install (d : Dir) (blob : β) : Ran InstallError Dir :=
  match npz.load blob with
  | none => .raise .badArchive d
  | some packed =>
    match readPin packed with
    | none => .raise .badMember d
    | some pin =>
      (Ran.loop (installSymbol packed) d QUAL_SYMBOLS).andThen fun d => .ok (d.writePin pin)

/-- `install_tape_blob`: once the files are written, the caches are cleared and the
manifest is computed anew. -/
def Host.installTapeBlob (h : Host β) (blob : β) : Ran InstallError (Host β) :=
  ((h.dir.install npz blob).map fun d => { h with dir := d }).andThen fun h =>
    .ok (({ h with cache := {} } : Host β).manifestFor sha256).2

end

/-! ## The caches -/

section
variable {β : Type} {npz : Npz β} {sha256 : List (BitVec 8) → String}

/-- The rows are in order, as every writer leaves them, and what is cached for them
is theirs. -/
structure Host.Kept (npz : Npz β) (sha256 : List (BitVec 8) → String) (h : Host β) : Prop where
  sorted : ∀ s, StrictlySorted Bar.ts (h.dir.sourceArray s)
  manifests : ∀ m, h.cache.manifests.get? (h.dir.activePin, h.dir.source) = some m →
    m = h.dir.manifest sha256
  blob : ∀ blob, h.cache.blob = some ((h.dir.manifest sha256).sha256, blob) →
    blob = npz.savez (h.dir.archive npz)

/-- A process that has just started has cached nothing. -/
theorem kept_started {d : Dir} (h : ∀ s, StrictlySorted Bar.ts (d.sourceArray s)) :
    Host.Kept npz sha256 { dir := d } :=
  ⟨h, nofun, nofun⟩

theorem manifestFor_spec {h : Host β} (hkept : h.Kept npz sha256) :
    (h.manifestFor sha256).1 = h.dir.manifest sha256 ∧
      (h.manifestFor sha256).2.dir = h.dir ∧ (h.manifestFor sha256).2.Kept npz sha256 := by
  unfold Host.manifestFor
  split
  next m hm => exact ⟨hkept.manifests m hm, rfl, hkept⟩
  next =>
    refine ⟨rfl, rfl, hkept.sorted, ?_, hkept.blob⟩
    intro m hm
    have hset : (h.cache.manifests.set (h.dir.activePin, h.dir.source)
        (h.dir.manifest sha256)).get? (h.dir.activePin, h.dir.source) = some m := hm
    rw [Dict.get?_set, if_pos rfl] at hset
    exact (Option.some.inj hset).symm

theorem tapeBlob_spec {h : Host β} (hkept : h.Kept npz sha256) :
    (h.tapeBlob npz sha256).1 = npz.savez (h.dir.archive npz) ∧
      (h.tapeBlob npz sha256).2.dir = h.dir ∧ (h.tapeBlob npz sha256).2.Kept npz sha256 := by
  obtain ⟨hfound, hdir, hkept⟩ := manifestFor_spec hkept
  have hpack : ((h.manifestFor sha256).2.pack npz (h.manifestFor sha256).1.sha256).1 =
        npz.savez (h.dir.archive npz) ∧
      ((h.manifestFor sha256).2.pack npz (h.manifestFor sha256).1.sha256).2.dir = h.dir ∧
      ((h.manifestFor sha256).2.pack npz (h.manifestFor sha256).1.sha256).2.Kept npz sha256 := by
    refine ⟨by unfold Host.pack; rw [hdir], hdir, hkept.sorted, hkept.manifests, ?_⟩
    intro blob hblob
    exact (congrArg Prod.snd (Option.some.inj hblob)).symm
  unfold Host.tapeBlob
  dsimp only
  split
  next sha blob hblob =>
    split
    next hsha =>
      refine ⟨?_, hdir, hkept⟩
      have := hkept.blob blob (by rw [hblob, hsha, hfound, hdir])
      rwa [hdir] at this
    next => exact hpack
  next => exact hpack

/-! ## What an installation leaves -/

theorem cutRows_eq {rows : List Bar} (h : StrictlySorted Bar.ts rows) (pin : Option ℤ) :
    cutRows rows pin = rows.filter fun b => InWindow pin b.ts :=
  cutToPin_eq ⟨rows, h⟩ pin

/-- A cut is its own cut. -/
theorem cutRows_cutRows {rows : List Bar} (h : StrictlySorted Bar.ts rows) (pin : Option ℤ) :
    cutRows (cutRows rows pin) pin = cutRows rows pin := by
  rw [cutRows_eq h, cutRows_eq (h.filter _), List.filter_filter]
  congr 1
  funext b
  exact Bool.and_self _

/-- What is left of a worker's files by an archive of these cuts. -/
def Dir.installed (d : Dir) (cuts : Symbol → List Bar) (pin : Option ℤ) : Dir :=
  ({ d with npy := fun s => some (cuts s) } : Dir).writePin pin

theorem readPin_archiveOf (cuts : Symbol → List Bar) (pin : Option ℤ) :
    readPin (archiveOf npz cuts pin) = some pin := by
  unfold readPin archiveOf
  cases pin <;> rfl

theorem lookup_archiveOf (cuts : Symbol → List Bar) (pin : Option ℤ) (s : Symbol) :
    (archiveOf npz cuts pin).lookup s.slug = some ⟨some (cuts s), none⟩ := by
  cases s <;> rfl

theorem install_archive (hnpz : npz.Lawful) (server worker : Dir) :
    worker.install npz (npz.savez (server.archive npz)) =
      .ok (worker.installed server.canonicalArrays server.activePin) := by
  have hsymbol : ∀ (d : Dir) (s : Symbol), installSymbol (server.archive npz) d s =
      .ok (d.saveArray s (server.canonicalArrays s)) := by
    intro d s
    unfold installSymbol Dir.archive
    rw [lookup_archiveOf]
  have hboth : (worker.saveArray .btc (server.canonicalArrays .btc)).saveArray .eth
      (server.canonicalArrays .eth) =
      { worker with npy := fun s => some (server.canonicalArrays s) } := by
    unfold Dir.saveArray
    congr 1
    funext s
    cases s <;> rfl
  have hpin : readPin (server.archive npz) = some server.activePin := readPin_archiveOf _ _
  unfold Dir.install
  rw [hnpz]
  simp only [hpin, QUAL_SYMBOLS, Ran.loop_cons, Ran.loop_nil, hsymbol, Ran.ok_andThen,
    hboth]
  rfl

theorem installed_sourceArray (d : Dir) (cuts : Symbol → List Bar) (pin : Option ℤ) (s : Symbol) :
    (d.installed cuts pin).sourceArray s = cuts s := by
  cases pin <;> rfl

theorem installed_pinned (d : Dir) (cuts : Symbol → List Bar) (pin : ℤ) :
    (d.installed cuts (some pin)).activePin = some pin := rfl

/-- Of an unpinned archive one symbol has no bar, or the server would have pinned
it. -/
theorem rawEnd_installed {server worker : Dir} (h : server.activePin = none) :
    (worker.installed server.canonicalArrays none).rawEnd = none := by
  have hraw : server.rawEnd = none := by
    unfold Dir.activePin at h
    split at h
    · cases h
    · exact Option.map_eq_none_iff.mp h
  have hempty : ∀ s, (server.sourceArray s).getLast?.map Bar.ts = none →
      (server.canonicalArrays s).getLast?.map Bar.ts = none := by
    intro s hs
    have hnil : server.sourceArray s = [] := by
      rw [Option.map_eq_none_iff] at hs
      exact List.getLast?_eq_none_iff.mp hs
    unfold Dir.canonicalArrays cutRows
    rw [hnil]
    cases server.activePin <;> rfl
  have hone : (server.sourceArray .btc).getLast?.map Bar.ts = none ∨
      (server.sourceArray .eth).getLast?.map Bar.ts = none := by
    unfold Dir.rawEnd at hraw
    dsimp only at hraw
    split at hraw
    · cases hbtc : (server.sourceArray .btc).getLast?.map Bar.ts with
      | none => exact Or.inl rfl
      | some btc =>
        cases heth : (server.sourceArray .eth).getLast?.map Bar.ts with
        | none => exact Or.inr rfl
        | some eth =>
          rw [hbtc, heth] at hraw
          cases hraw
    · have hnil := List.min?_eq_none_iff.mp hraw
      rw [List.filterMap_eq_nil_iff] at hnil
      exact Or.inl (hnil .btc (by decide))
  have hends : (worker.installed server.canonicalArrays none).rawEnd = do
      let btc ← (server.canonicalArrays .btc).getLast?.map Bar.ts
      let eth ← (server.canonicalArrays .eth).getLast?.map Bar.ts
      return min btc eth := rfl
  rw [hends]
  rcases hone with hbtc | heth
  · rw [hempty .btc hbtc]
    rfl
  · rw [hempty .eth heth]
    cases (server.canonicalArrays .btc).getLast?.map Bar.ts <;> rfl

/-- The worker ends up with the server's pin unless an old one is left standing. -/
theorem installed_activePin_iff (server worker : Dir) :
    (worker.installed server.canonicalArrays server.activePin).activePin = server.activePin ↔
      server.activePin.isSome = true ∨ worker.pin = none := by
  cases hpin : server.activePin with
  | some pin => exact iff_of_true (installed_pinned ..) (Or.inl rfl)
  | none =>
    have hraw : (worker.installed server.canonicalArrays none).rawEnd = none :=
      rawEnd_installed hpin
    have hactive : (worker.installed server.canonicalArrays none).activePin = worker.pin := by
      unfold Dir.activePin
      rw [hraw]
      show (match worker.pin with | some pin => some pin | none => none) = _
      cases worker.pin <;> rfl
    rw [hactive]
    simp

/-! ## The round trip -/

/-- Two manifests say the same of the tape; which store it was read from does not
count. -/
structure Manifest.Agrees (m m' : Manifest) : Prop where
  sha256 : m.sha256 = m'.sha256
  dataEnd : m.dataEnd = m'.dataEnd
  symbols : m.symbols = m'.symbols
  keepBars : m.keepBars = m'.keepBars
  canonicalStart : m.canonicalStart = m'.canonicalStart

/-- The worker with the server's blob installed. -/
def synced (npz : Npz β) (sha256 : List (BitVec 8) → String) (server worker : Host β) :
    Ran InstallError (Host β) :=
  worker.installTapeBlob npz sha256 (server.tapeBlob npz sha256).1

/-- The worker takes the server's blob and has the server's tape and manifest then;
a second installation changes nothing. -/
structure RoundTrips (npz : Npz β) (sha256 : List (BitVec 8) → String) (server worker : Host β) :
    Prop where
  returns : (synced npz sha256 server worker).Returns
  arrays : (synced npz sha256 server worker).state.dir.canonicalArrays = server.dir.canonicalArrays
  manifest : ((synced npz sha256 server worker).state.manifestFor sha256).1.Agrees
    (server.manifestFor sha256).1
  twice : synced npz sha256 server (synced npz sha256 server worker).state =
    synced npz sha256 server worker

theorem synced_eq (hnpz : npz.Lawful) {server : Host β} (hkept : server.Kept npz sha256)
    (worker : Host β) :
    synced npz sha256 server worker =
      let dir := worker.dir.installed server.dir.canonicalArrays server.dir.activePin
      .ok (({ dir := dir } : Host β).manifestFor sha256).2 := by
  unfold synced Host.installTapeBlob
  rw [(tapeBlob_spec hkept).1, install_archive hnpz]
  rfl

theorem installed_installed (d : Dir) (cuts : Symbol → List Bar) (pin : Option ℤ) :
    (d.installed cuts pin).installed cuts pin = d.installed cuts pin := by
  cases pin <;> rfl

/-- **Snapshot round trip.** For every server tape and every state of the worker
the worker's manifest becomes the server's, and installing twice is installing
once, exactly when the server has a pin or the worker kept none: an archive without
a pin does not lift the one the worker has. -/
theorem snapshot_round_trip_iff (npz : Npz β) (hnpz : npz.Lawful)
    (sha256 : List (BitVec 8) → String) {server : Host β} (hkept : server.Kept npz sha256)
    (worker : Host β) :
    RoundTrips npz sha256 server worker ↔
      server.dir.activePin.isSome = true ∨ worker.dir.pin = none := by
  have hsynced := synced_eq hnpz hkept
  set installed := worker.dir.installed server.dir.canonicalArrays server.dir.activePin
    with hinstalled
  have hsorted : ∀ s, StrictlySorted Bar.ts (installed.sourceArray s) := by
    intro s
    rw [installed_sourceArray]
    unfold Dir.canonicalArrays
    rw [cutRows_eq (hkept.sorted s)]
    exact (hkept.sorted s).filter _
  have hstarted : Host.Kept npz sha256 { dir := installed } := kept_started hsorted
  obtain ⟨-, hdir, hkept'⟩ := manifestFor_spec hstarted
  obtain ⟨hserver, -, -⟩ := manifestFor_spec hkept
  obtain ⟨hworker, -, -⟩ := manifestFor_spec hkept'
  rw [← installed_activePin_iff server.dir worker.dir, ← hinstalled]
  constructor
  · intro h
    have hpin := h.manifest.dataEnd
    rw [hsynced, Ran.ok_state, hworker, hdir, hserver] at hpin
    exact hpin
  · intro hpin
    have harrays : installed.canonicalArrays = server.dir.canonicalArrays := by
      funext s
      unfold Dir.canonicalArrays
      rw [installed_sourceArray, hpin]
      unfold Dir.canonicalArrays
      exact cutRows_cutRows (hkept.sorted s) _
    refine ⟨?_, ?_, ?_, ?_⟩
    · rw [hsynced]
      exact Ran.ok_returns _
    · rw [hsynced, Ran.ok_state, hdir]
      exact harrays
    · rw [hsynced, Ran.ok_state, hworker, hdir, hserver]
      unfold Dir.manifest
      rw [harrays, hpin]
      exact ⟨rfl, rfl, rfl, rfl, rfl⟩
    · rw [hsynced, hsynced, Ran.ok_state, hdir, hinstalled, installed_installed]

/-- An archive that is its members. -/
def plainNpz : Npz Archive where
  savez := id
  load := some
  spread := fun _ => none

/-- A server with one BTC bar and no ETH bar, so without a pin. -/
def halfEmpty : Dir where
  npy
    | .btc => some [midnight]
    | .eth => some []

theorem halfEmpty_sorted (s : Symbol) : StrictlySorted Bar.ts (halfEmpty.sourceArray s) := by
  cases s with
  | btc => exact List.pairwise_singleton _ _
  | eth => exact List.Pairwise.nil

/-- A worker that installed a pinned archive before. -/
def oncePinned : Dir where
  npy := fun _ => some [midnight]
  pin := some midnight.ts

/-- A worker without files. -/
def noFiles : Dir where
  npy := fun _ => none

theorem snapshot_round_trip_new_worker :
    RoundTrips plainNpz spelled { dir := halfEmpty } { dir := noFiles } :=
  (snapshot_round_trip_iff plainNpz (fun _ => rfl) spelled
    (kept_started halfEmpty_sorted) { dir := noFiles }).mpr (Or.inr rfl)

/-- The worker keeps its old pin and a manifest the server does not have. -/
theorem snapshot_keeps_old_pin :
    Host.Kept plainNpz spelled { dir := halfEmpty } ∧
      ¬ RoundTrips plainNpz spelled { dir := halfEmpty } { dir := oncePinned } := by
  refine ⟨kept_started halfEmpty_sorted, fun h => ?_⟩
  have hpin := h.manifest.dataEnd
  revert hpin
  decide +kernel

/-! ## A rejected archive -/

theorem installTapeBlob_raised {h : Host β} {blob : β} {e : InstallError}
    (he : (h.installTapeBlob npz sha256 blob).error = some e) :
    (h.dir.install npz blob).error = some e ∧
      (h.installTapeBlob npz sha256 blob).state.dir = (h.dir.install npz blob).state := by
  unfold Host.installTapeBlob at he ⊢
  rcases Ran.andThen_cases ((h.dir.install npz blob).map fun d => { h with dir := d }) (fun h =>
      .ok (({ h with cache := {} } : Host β).manifestFor sha256).2) with ⟨-, hstop⟩ | ⟨-, hgo⟩
  · rw [hstop] at he ⊢
    exact ⟨he, rfl⟩
  · rw [hgo] at he
    cases he

/-- The archive brings a tape for BTC and none for ETH, and the worker's BTC tape is
another. -/
def HalfInstalls (npz : Npz β) (d : Dir) (blob : β) : Prop :=
  ∃ packed member rows, npz.load blob = some packed ∧ readPin packed ≠ none ∧
    packed.lookup Symbol.btc.slug = some member ∧ member.asTape = some rows ∧
    packed.lookup Symbol.eth.slug = none ∧ d.npy .btc ≠ some rows

theorem saveArray_self_iff {d : Dir} {s : Symbol} {rows : List Bar} :
    d.saveArray s rows = d ↔ d.npy s = some rows := by
  constructor
  · intro h
    have hnpy := congrArg (fun d => d.npy s) h
    simpa [Dir.saveArray, eq_comm] using hnpy
  · intro h
    unfold Dir.saveArray
    rw [← h, Function.update_eq_self]

/-- The loop over two symbols, for an archive that is there. -/
theorem install_packed {d : Dir} {blob : β} {packed : Archive} {pin : Option ℤ}
    (hload : npz.load blob = some packed) (hpin : readPin packed = some pin) :
    d.install npz blob = (installSymbol packed d .btc).andThen fun d =>
      (installSymbol packed d .eth).andThen fun d => .ok (d.writePin pin) := by
  unfold Dir.install
  rw [hload]
  simp only [hpin, QUAL_SYMBOLS, Ran.loop_cons, Ran.loop_nil, Ran.andThen_assoc, Ran.ok_andThen]

/-- What a mismatch is: a symbol the archive has no member for. -/
theorem install_mismatch {d : Dir} {blob : β} {text : String}
    (h : (d.install npz blob).error = some (.historyMismatch text)) :
    ∃ packed, npz.load blob = some packed ∧ readPin packed ≠ none ∧
      ((packed.lookup Symbol.btc.slug = none ∧ (d.install npz blob).state = d) ∨
       (∃ member rows, packed.lookup Symbol.btc.slug = some member ∧ member.asTape = some rows ∧
        packed.lookup Symbol.eth.slug = none ∧
        (d.install npz blob).state = d.saveArray .btc rows)) := by
  cases hload : npz.load blob with
  | none =>
    unfold Dir.install at h
    rw [hload] at h
    cases h
  | some packed =>
    cases hpin : readPin packed with
    | none =>
      unfold Dir.install at h
      rw [hload] at h
      simp only [hpin] at h
      cases h
    | some pin =>
      refine ⟨packed, rfl, by rw [hpin]; exact Option.some_ne_none pin, ?_⟩
      rw [install_packed hload hpin] at h ⊢
      cases hbtc : packed.lookup Symbol.btc.slug with
      | none =>
        refine Or.inl ⟨rfl, ?_⟩
        unfold installSymbol
        rw [hbtc]
        rfl
      | some member =>
        cases hrows : member.asTape with
        | none =>
          unfold installSymbol at h
          simp only [hbtc, hrows, Ran.raise_andThen] at h
          cases h
        | some rows =>
          have hfirst : installSymbol packed d .btc = .ok (d.saveArray .btc rows) := by
            unfold installSymbol
            simp only [hbtc, hrows]
          rw [hfirst, Ran.ok_andThen] at h ⊢
          cases heth : packed.lookup Symbol.eth.slug with
          | none =>
            refine Or.inr ⟨member, rows, rfl, hrows, rfl, ?_⟩
            unfold installSymbol
            rw [heth]
            rfl
          | some member' =>
            unfold installSymbol at h
            cases hrows' : member'.asTape with
            | none =>
              simp only [heth, hrows', Ran.raise_andThen] at h
              cases h
            | some rows' =>
              simp only [heth, hrows', Ran.ok_andThen] at h
              cases h

/-- **Atomic rejection.** An installation that raises a mismatch leaves every tape
file and the pin as they were, unless the archive has a BTC tape the worker does not
have and lacks the ETH tape: the BTC file is written before ETH is looked for. -/
theorem install_atomic_iff (npz : Npz β) (sha256 : List (BitVec 8) → String) (h : Host β)
    (blob : β) :
    (∀ text, (h.installTapeBlob npz sha256 blob).error = some (.historyMismatch text) →
      (h.installTapeBlob npz sha256 blob).state.dir = h.dir) ↔ ¬ HalfInstalls npz h.dir blob := by
  constructor
  · rintro hatomic ⟨packed, member, rows, hload, hpin, hbtc, hrows, heth, hother⟩
    obtain ⟨pin, hpin⟩ := Option.ne_none_iff_exists'.mp hpin
    have hfiles : h.dir.install npz blob = .raise
        (.historyMismatch s!"snapshot missing {Symbol.eth.name}") (h.dir.saveArray .btc rows) := by
      rw [install_packed hload hpin]
      unfold installSymbol
      simp only [hbtc, hrows, heth, Ran.ok_andThen, Ran.raise_andThen]
    have hraised : h.installTapeBlob npz sha256 blob = .raise
        (.historyMismatch s!"snapshot missing {Symbol.eth.name}")
        { h with dir := h.dir.saveArray .btc rows } := by
      unfold Host.installTapeBlob
      rw [hfiles]
      rfl
    have hsame := hatomic _ (congrArg Ran.error hraised)
    rw [hraised] at hsame
    exact hother (saveArray_self_iff.mp hsame)
  · intro hno text htext
    obtain ⟨hfiles, hstate⟩ := installTapeBlob_raised htext
    obtain ⟨packed, hload, hpin, ⟨-, hsame⟩ | ⟨member, rows, hbtc, hrows, heth, hsame⟩⟩ :=
      install_mismatch hfiles
    · rw [hstate, hsame]
    · rw [hstate, hsame, saveArray_self_iff]
      by_contra hother
      exact hno ⟨packed, member, rows, hload, hpin, hbtc, hrows, heth, hother⟩

/-- A pinned archive with one BTC bar and no ETH tape. -/
def btcOnly : Archive :=
  [("BTC_USDT", ⟨some [midnight], none⟩), ("data_end", ⟨none, some midnight.ts⟩)]

/-- It is rejected, and the BTC file is there. -/
theorem install_half_done :
    (Host.installTapeBlob plainNpz spelled { dir := noFiles } btcOnly).error =
      some (.historyMismatch "snapshot missing ETH/USDT") ∧
    (Host.installTapeBlob plainNpz spelled { dir := noFiles } btcOnly).state.dir.npy .btc =
      some [midnight] ∧
    (Host.installTapeBlob plainNpz spelled { dir := noFiles } btcOnly).state.dir ≠ noFiles := by
  have hbtc : (Host.installTapeBlob plainNpz spelled { dir := noFiles } btcOnly).state.dir.npy .btc =
      some [midnight] := by decide +kernel
  refine ⟨by decide +kernel, hbtc, fun h => ?_⟩
  rw [h] at hbtc
  cases hbtc

end

end PaperTrading.Tape
