import PaperTrading.Tape.Served
import PaperTrading.Lib.Runs

/-!
# What clients see of the served tape

`Matches` says that an npz has the hashes of a manifest. A build writes such a
pair, but file by file, and rebuilding a pin that is being served changes the npz
under the manifest that was sent. `served_tape_consistent` says what it takes for
every client to receive the npz its manifest describes and for the served pin to
move forward and not past the active one: rebuilds of a pin that was served write
what was served, and where the server falls back on its files, the newest of them
is one it may serve. `rebuild_under_clients` is a run on which a rebuild is not so.

The proof follows every pin that was served: what is on disk for it stays what it
was (`Core.shown`), so the pairs that clients put together match.
-/

namespace PaperTrading.Tape

open PaperTrading.Lib

section
variable {β : Type} (npz : Npz β) (sha256 : List (BitVec 8) → String) (size : β → ℕ)

/-- The manifest of what an archive holds. -/
def contentManifest (packed : Archive) : Manifest :=
  hashManifest sha256 (fun s => ((packed.lookup s.slug).bind Member.asTape).getD []) ""
    ((packed.lookup "data_end").bind Member.asInt)

/-- The bars and the hash of the npz are those of the manifest. -/
def Matches (m : Manifest) (blob : β) : Prop :=
  ∃ packed, npz.load blob = some packed ∧ m.Agrees (contentManifest sha256 packed)

/-- A pair of files of a pin, a manifest and the npz it describes. -/
structure PairOf (pin : ℤ) (m : Manifest) (blob : β) : Prop where
  content : Matches npz sha256 m blob
  dataEnd : m.dataEnd = some pin

/-- Every whole pair on disk is a pair of its pin. -/
def Files.Paired (f : Files β) : Prop :=
  ∀ pin r blob, f.head size pin = some r → f.blobs.get? pin = some blob →
    PairOf npz sha256 pin r.manifest blob

/-- What a client is promised at a step from `s` to `t`. -/
structure ServesWell (s t : Server β) : Prop where
  forward : ∀ last, s.lastServed = some last → ∀ e, t.served = some e → last ≤ e.pin
  notAhead : ∀ e, t.served = some e → ∃ active, t.active = some active ∧ e.pin ≤ active
  hashes : ∀ m ∈ t.told, ∀ b ∈ t.sent, m.dataEnd = some b.1 → Matches npz sha256 m b.2

/-! ## When it is kept -/

/-- The files a server without an entry falls back on: none of a day that has not
begun, one of the last day served or after it, and none with another npz than its
manifest was written for. -/
structure LoadsInOrder (s : Server β) : Prop where
  begun : ∀ pin ∈ s.files.candidates size, ∃ active, s.active = some active ∧ pin ≤ active
  reaches : ∀ last, s.lastServed = some last → s.files.candidates size ≠ [] →
    ∃ pin ∈ s.files.candidates size, last ≤ pin
  whole : ∀ pin ∈ s.files.candidates size, pin ∈ s.torn → (s.shown pin).isSome = true

/-- The pin that the builder's next micro-step is to serve. -/
def Server.installing (s : Server β) : Option ℤ :=
  match s.builder with
  | .serving pass _ => some pass.active
  | .readingBack job => some job.pin
  | _ => none

/-- The step looks for the served entry. -/
def Server.Asks (s : Server β) : Op → Prop
  | .manifest => True
  | .tape c => ∀ e left, s.clients c ≠ .holding e left
  | _ => False

/-- The condition on a step. -/
structure StepOk (s : Server β) (op : Op) : Prop where
  /-- a rebuild of a pin that was served writes what was served -/
  rebuild : op = .build → ∀ job built, s.builder = .writing job built →
    ∀ c, s.shown job.pin = some c → c = built
  /-- the files of a pin that is taken into service belong together, and where the
  server has dropped its entry the pin is not older than that -/
  install : op = .build → ∀ pin, s.installing = some pin →
    (pin ∈ s.torn → (s.shown pin).isSome = true) ∧
      (s.served = none → ∀ last, s.lastServed = some last → last ≤ pin)
  load : s.Asks op → s.served = none → LoadsInOrder size s

end

/-! ## The invariant -/

section
variable {β : Type} {npz : Npz β} {sha256 : List (BitVec 8) → String} {size : β → ℕ}

/-- The pin is not past the active one. -/
def Server.Begun (s : Server β) (pin : ℤ) : Prop := ∃ active, s.active = some active ∧ pin ≤ active

/-- The entry was served with what was on disk for its pin then. -/
def Server.Shown (s : Server β) (e : Entry) : Prop := ∃ blob, s.shown e.pin = some ⟨e.manifest, blob⟩

/-- What holds of the files, the served entry and the answers. -/
structure Core (npz : Npz β) (sha256 : List (BitVec 8) → String) (size : β → ℕ) (s : Server β) :
    Prop where
  /-- what was served of a pin is still what is on disk for it, if anything is -/
  shown : ∀ pin c, s.shown pin = some c → PairOf npz sha256 pin c.manifest c.blob ∧
    (∀ blob, s.files.blobs.get? pin = some blob → blob = c.blob) ∧
    ∀ r, s.files.records.get? pin = some r → r.manifest = c.manifest
  whole : ∀ pin r blob, pin ∉ s.torn → s.files.head size pin = some r →
    s.files.blobs.get? pin = some blob → PairOf npz sha256 pin r.manifest blob
  served : ∀ e, s.served = some e → s.lastServed = some e.pin ∧ s.Shown e
  last : ∀ pin, s.lastServed = some pin → s.Begun pin
  clients : ∀ c e left, s.clients c = .holding e left → s.Shown e
  told : ∀ m ∈ s.told, ∃ pin blob, s.shown pin = some ⟨m, blob⟩
  sent : ∀ b ∈ s.sent, ∃ m, s.shown b.1 = some ⟨m, b.2⟩

/-- What holds of the builder where it is. -/
def BuilderOk (npz : Npz β) (sha256 : List (BitVec 8) → String) (size : β → ℕ) (s : Server β) :
    Prop :=
  match s.builder with
  | .asleep => True
  | .serving pass manifest =>
    s.Begun pass.active ∧ ∃ r, s.files.head size pass.active = some r ∧ r.manifest = manifest
  | .reading job => s.Begun job.pass.active
  | .halfRead job _ => s.Begun job.pass.active
  | .writing job built =>
    s.Begun job.pass.active ∧ PairOf npz sha256 job.pin built.manifest built.blob
  | .recording job built =>
    s.Begun job.pass.active ∧ PairOf npz sha256 job.pin built.manifest built.blob ∧
      job.pin ∈ s.torn ∧ s.files.blobs.get? job.pin = some built.blob ∧
      ∀ c, s.shown job.pin = some c → c = built
  | .pruning job _ => s.Begun job.pass.active
  | .unlinking job _ _ => s.Begun job.pass.active
  | .readingBack job => s.Begun job.pass.active
  | .warming pass => s.Begun pass.active

structure Inv (npz : Npz β) (sha256 : List (BitVec 8) → String) (size : β → ℕ) (s : Server β) :
    Prop where
  core : Core npz sha256 size s
  builder : BuilderOk npz sha256 size s

/-- The served entry stays, is dropped, or moves forward. -/
def Forward (s t : Server β) : Prop :=
  t.served = s.served ∨ t.served = none ∨
    ∃ e, t.served = some e ∧ ∀ last, s.lastServed = some last → last ≤ e.pin

theorem Inv.servesWell {s t : Server β} (hs : Inv npz sha256 size s) (ht : Inv npz sha256 size t)
    (hforward : Forward s t) : ServesWell npz sha256 s t where
  forward := by
    intro last hlast e he
    rcases hforward with hsame | hnone | ⟨e', he', hle⟩
    · rw [hsame] at he
      rw [(hs.core.served e he).1] at hlast
      exact (Option.some.inj hlast).symm.le
    · rw [hnone] at he
      cases he
    · rw [he'] at he
      cases he
      exact hle last hlast
  notAhead := fun e he => ht.core.last e.pin (ht.core.served e he).1
  hashes := by
    intro m hm b hb hpin
    obtain ⟨pin, blob, hshown⟩ := ht.core.told m hm
    obtain ⟨m', hshown'⟩ := ht.core.sent b hb
    have hpair := (ht.core.shown pin _ hshown).1
    obtain rfl : pin = b.1 := Option.some.inj (hpair.dataEnd.symm.trans hpin)
    rw [hshown'] at hshown
    cases hshown
    exact hpair.content

/-! ## A build -/

theorem contentManifest_archiveOf (cuts : Symbol → List Bar) (pin : Option ℤ) :
    contentManifest sha256 (archiveOf npz cuts pin) = hashManifest sha256 cuts "" pin := by
  have hcuts : (fun s : Symbol => (((archiveOf npz cuts pin).lookup s.slug).bind
      Member.asTape).getD []) = cuts := by
    funext s
    rw [lookup_archiveOf]
    rfl
  have hpin : ((archiveOf npz cuts pin).lookup "data_end").bind Member.asInt = pin := by
    cases pin <;> rfl
  unfold contentManifest
  rw [hcuts, hpin]

theorem pairOf_build (hnpz : npz.Lawful) (pin : ℤ) (btc eth : List Bar) :
    PairOf npz sha256 pin (buildOf npz sha256 pin btc eth).manifest
      (buildOf npz sha256 pin btc eth).blob where
  content := by
    refine ⟨_, hnpz _, ?_⟩
    rw [contentManifest_archiveOf]
    exact ⟨rfl, rfl, rfl, rfl, rfl⟩
  dataEnd := rfl

/-! ## Taking an entry into service -/

/-- An entry the server may take: whole on disk, its npz not replaced under its
manifest, its day begun. -/
structure TakeOk (size : β → ℕ) (s : Server β) (e : Entry) (blob : β) : Prop where
  onDisk : s.files.blobs.get? e.pin = some blob
  whole : ∃ r, s.files.head size e.pin = some r ∧ r.manifest = e.manifest
  untorn : e.pin ∈ s.torn → (s.shown e.pin).isSome = true
  begun : s.Begun e.pin

theorem take_shown (s : Server β) (e : Entry) (blob : β) (pin : ℤ) :
    (s.take e blob).shown pin =
      if pin = e.pin then (s.shown e.pin).or (some ⟨e.manifest, blob⟩) else s.shown pin := by
  show Function.update s.shown e.pin _ pin = _
  rw [Function.update_apply]

/-- What was shown stays shown. -/
theorem shown_take {s : Server β} {e : Entry} {blob : β} {pin : ℤ} {c : Built β}
    (h : s.shown pin = some c) : (s.take e blob).shown pin = some c := by
  rw [take_shown]
  split
  next heq => rw [← heq, h, Option.some_or]
  next => exact h

theorem Server.Shown.take {s : Server β} {e e' : Entry} {blob : β} (h : s.Shown e') :
    (s.take e blob).Shown e' := by
  obtain ⟨blob', hshown⟩ := h
  exact ⟨blob', shown_take hshown⟩

theorem take_core {s : Server β} {e : Entry} {blob : β} (h : Core npz sha256 size s)
    (hok : TakeOk size s e blob) : Core npz sha256 size (s.take e blob) := by
  obtain ⟨r, hhead, hr⟩ := hok.whole
  obtain ⟨hrecord, -⟩ := head_spec hhead
  -- the entry is what was shown before for its pin, or what is on disk now
  have hentry : ∀ c, (s.take e blob).shown e.pin = some c → c.manifest = e.manifest ∧
      PairOf npz sha256 e.pin c.manifest c.blob ∧
      (∀ blob', s.files.blobs.get? e.pin = some blob' → blob' = c.blob) ∧
      ∀ r', s.files.records.get? e.pin = some r' → r'.manifest = c.manifest := by
    intro c hc
    rw [take_shown, if_pos rfl] at hc
    cases hbefore : s.shown e.pin with
    | some c' =>
      rw [hbefore] at hc
      obtain rfl : c' = c := Option.some.inj hc
      obtain ⟨hpair, hblob, hrecords⟩ := h.shown e.pin c' hbefore
      exact ⟨by rw [← hrecords r hrecord, hr], hpair, hblob, hrecords⟩
    | none =>
      rw [hbefore] at hc
      obtain rfl : (⟨e.manifest, blob⟩ : Built β) = c := Option.some.inj hc
      have hclean : e.pin ∉ s.torn := by
        intro htorn
        have := hok.untorn htorn
        rw [hbefore] at this
        cases this
      have hpair := h.whole e.pin r blob hclean hhead hok.onDisk
      rw [hr] at hpair
      refine ⟨rfl, hpair, ?_, ?_⟩
      · intro blob' hblob'
        exact Option.some.inj (hblob'.symm.trans hok.onDisk)
      · intro r' hr'
        rw [← hr, Option.some.inj (hr'.symm.trans hrecord)]
  have hshown : (s.take e blob).Shown e := by
    cases hc : (s.take e blob).shown e.pin with
    | none =>
      rw [take_shown, if_pos rfl] at hc
      cases hbefore : s.shown e.pin with
      | some c => simp [hbefore] at hc
      | none => simp [hbefore] at hc
    | some c =>
      refine ⟨c.blob, ?_⟩
      rw [hc, ← (hentry c hc).1]
  refine ⟨?_, h.whole, ?_, ?_, ?_, ?_, ?_⟩
  · intro pin c hc
    by_cases heq : pin = e.pin
    · subst heq
      exact (hentry c hc).2
    · rw [take_shown, if_neg heq] at hc
      exact h.shown pin c hc
  · intro e' he'
    obtain rfl : e = e' := Option.some.inj he'
    exact ⟨rfl, hshown⟩
  · intro pin hpin
    obtain rfl : e.pin = pin := Option.some.inj hpin
    exact hok.begun
  · intro c e' left hc
    exact (h.clients c e' left hc).take
  · intro m hm
    obtain ⟨pin, blob', hshown'⟩ := h.told m hm
    exact ⟨pin, blob', shown_take hshown'⟩
  · intro b hb
    obtain ⟨m, hshown'⟩ := h.sent b hb
    exact ⟨m, shown_take hshown'⟩

/-- A build between its two files is of a pin that is not newly shown. -/
theorem take_builder {s : Server β} {e : Entry} {blob : β} (h : BuilderOk npz sha256 size s)
    (hok : TakeOk size s e blob) : BuilderOk npz sha256 size (s.take e blob) := by
  unfold BuilderOk at h ⊢
  have hsame : (s.take e blob).builder = s.builder := rfl
  rw [hsame]
  cases hb : s.builder with
  | recording job built =>
    rw [hb] at h
    obtain ⟨hbegun, hpair, htorn, hblob, hshown⟩ := h
    refine ⟨hbegun, hpair, htorn, hblob, ?_⟩
    intro c hc
    rw [take_shown] at hc
    split at hc
    next heq =>
      have hbefore := hok.untorn (heq ▸ htorn)
      obtain ⟨c', hc'⟩ := Option.isSome_iff_exists.mp hbefore
      rw [hc', Option.some_or] at hc
      obtain rfl : c' = c := Option.some.inj hc
      exact hshown c' (by rw [heq]; exact hc')
    next => exact hshown c hc
  | asleep => trivial
  | serving pass manifest => rw [hb] at h; exact h
  | reading job => rw [hb] at h; exact h
  | halfRead job btc => rw [hb] at h; exact h
  | writing job built => rw [hb] at h; exact h
  | pruning job stale => rw [hb] at h; exact h
  | unlinking job pin stale => rw [hb] at h; exact h
  | readingBack job => rw [hb] at h; exact h
  | warming pass => rw [hb] at h; exact h

theorem take_inv {s : Server β} {e : Entry} {blob : β} (h : Inv npz sha256 size s)
    (hok : TakeOk size s e blob) : Inv npz sha256 size (s.take e blob) :=
  ⟨take_core h.core hok, take_builder h.builder hok⟩

/-! ## Requests -/

/-- What asking for the served entry does: it is in memory, there is none, or one is
loaded. -/
theorem servedEntry_cases {s : Server β} (h : Inv npz sha256 size s)
    (hload : s.served = none → LoadsInOrder size s) :
    Inv npz sha256 size (s.servedEntry size).2 ∧ Forward s (s.servedEntry size).2 ∧
      (s.servedEntry size).2.files = s.files ∧
      (s.servedEntry size).2.clients = s.clients ∧
      ∀ e, (s.servedEntry size).1 = some e → (s.servedEntry size).2.Shown e := by
  unfold Server.servedEntry
  split
  next e hserved =>
    refine ⟨h, Or.inl rfl, rfl, rfl, ?_⟩
    intro e' he'
    obtain rfl : e = e' := Option.some.inj he'
    exact (h.core.served e hserved).2
  next hserved =>
    split
    next => exact ⟨h, Or.inl rfl, rfl, rfl, nofun⟩
    next e hnewest =>
      obtain ⟨hcandidate, hle, hwhole⟩ := newest_spec hnewest
      obtain ⟨hbegun, hreaches, huntorn⟩ := hload hserved
      split
      next blob hblob =>
        have hok : TakeOk size s e blob :=
          ⟨hblob, hwhole, huntorn e.pin hcandidate, hbegun e.pin hcandidate⟩
        have htaken := take_inv h hok
        refine ⟨htaken, Or.inr (Or.inr ⟨e, rfl, ?_⟩), rfl, rfl, ?_⟩
        · intro last hlast
          obtain ⟨pin, hpin, hlastle⟩ := hreaches last hlast (List.ne_nil_of_mem hcandidate)
          exact hlastle.trans (hle pin hpin)
        · intro e' he'
          obtain rfl : e = e' := Option.some.inj he'
          exact (htaken.core.served e rfl).2
      next => exact ⟨h, Or.inl rfl, rfl, rfl, nofun⟩

theorem sendManifest_inv {s : Server β} (h : Inv npz sha256 size s)
    (hload : s.served = none → LoadsInOrder size s) :
    Inv npz sha256 size (s.sendManifest size) ∧ Forward s (s.sendManifest size) := by
  obtain ⟨hinv, hforward, -, -, hshown⟩ := servedEntry_cases h hload
  unfold Server.sendManifest
  split
  next e t ht =>
    rw [ht] at hinv hforward hshown
    obtain ⟨⟨hshown', hwhole, hserved, hlast, hclients, htold, hsent⟩, hbuilder⟩ := hinv
    refine ⟨⟨⟨hshown', hwhole, hserved, hlast, hclients, ?_, hsent⟩, hbuilder⟩, hforward⟩
    intro m hm
    rcases List.mem_append.mp hm with hm | hm
    · exact htold m hm
    · obtain rfl := List.mem_singleton.mp hm
      obtain ⟨blob, hblob⟩ := hshown e rfl
      exact ⟨e.pin, blob, hblob⟩
  next t ht =>
    rw [ht] at hinv hforward
    exact ⟨hinv, hforward⟩

/-- A client moves; what it holds was shown. -/
theorem inv_client {s : Server β} (h : Inv npz sha256 size s) (c : ℕ) (client : Client)
    (hclient : ∀ e left, client = .holding e left → s.Shown e) :
    Inv npz sha256 size { s with clients := Function.update s.clients c client } := by
  obtain ⟨⟨hshown, hwhole, hserved, hlast, hclients, htold, hsent⟩, hbuilder⟩ := h
  refine ⟨⟨hshown, hwhole, hserved, hlast, ?_, htold, hsent⟩, hbuilder⟩
  intro c' e left hc
  have hc : Function.update s.clients c client c' = .holding e left := hc
  rw [Function.update_apply] at hc
  split at hc
  · exact hclient e left hc
  · exact hclients c' e left hc

theorem ask_inv {s : Server β} (h : Inv npz sha256 size s)
    (hload : s.served = none → LoadsInOrder size s) (c left : ℕ) :
    ∀ t, (t = match s.servedEntry size with
      | (some e, s) => { s with clients := Function.update s.clients c (.holding e left) }
      | (none, s) => { s with clients := Function.update s.clients c .idle }) →
    Inv npz sha256 size t ∧ Forward s t := by
  intro t ht
  obtain ⟨hinv, hforward, -, -, hshown⟩ := servedEntry_cases h hload
  split at ht
  next e u hu =>
    rw [hu] at hinv hforward hshown
    rw [ht]
    refine ⟨inv_client hinv c _ ?_, hforward⟩
    intro e' left' heq
    cases heq
    exact hshown e rfl
  next u hu =>
    rw [hu] at hinv hforward
    rw [ht]
    exact ⟨inv_client hinv c _ nofun, hforward⟩

theorem sendTape_inv {s : Server β} (h : Inv npz sha256 size s) (c : ℕ)
    (hload : s.Asks (.tape c) → s.served = none → LoadsInOrder size s) :
    Inv npz sha256 size (s.sendTape size c) ∧ Forward s (s.sendTape size c) := by
  unfold Server.sendTape
  dsimp only
  cases hc : s.clients c with
  | idle => exact ask_inv h (hload fun e left he => by rw [hc] at he; cases he) c 1 _ rfl
  | asking left => exact ask_inv h (hload fun e left he => by rw [hc] at he; cases he) c left _ rfl
  | holding e left =>
    obtain ⟨blob', hshown⟩ := h.core.clients c e left hc
    dsimp only
    split
    next blob hblob =>
      refine ⟨?_, Or.inl rfl⟩
      obtain rfl : blob = blob' := ((h.core.shown e.pin _ hshown).2.1 blob hblob)
      have hmoved := inv_client h c .idle nofun
      obtain ⟨⟨hshown', hwhole, hserved, hlast, hclients, htold, hsent⟩, hbuilder⟩ := hmoved
      refine ⟨⟨hshown', hwhole, hserved, hlast, hclients, htold, ?_⟩, hbuilder⟩
      intro b hb
      rcases List.mem_append.mp hb with hb | hb
      · exact hsent b hb
      · obtain rfl := List.mem_singleton.mp hb
        exact ⟨e.manifest, hshown⟩
    next =>
      refine ⟨?_, Or.inr (Or.inl rfl)⟩
      have hmoved := inv_client h c (.retry left) (by
        intro e' left' heq
        cases left <;> cases heq)
      obtain ⟨⟨hshown', hwhole, hserved, hlast, hclients, htold, hsent⟩, hbuilder⟩ := hmoved
      exact ⟨⟨hshown', hwhole, nofun, hlast, hclients, htold, hsent⟩, hbuilder⟩

/-! ## The tape grows -/

theorem begun_grow {s : Server β} {pin : ℤ} (page : Symbol × List Bar) (h : s.Begun pin) :
    ({ s with tapes := grow s.tapes page } : Server β).Begun pin := by
  obtain ⟨active, hactive, hle⟩ := h
  obtain ⟨active', hactive', hle'⟩ := active_grow page hactive
  exact ⟨active', hactive', hle.trans hle'⟩

theorem grow_inv {s : Server β} (h : Inv npz sha256 size s) (page : Symbol × List Bar) :
    Inv npz sha256 size { s with tapes := grow s.tapes page } := by
  obtain ⟨⟨hshown, hwhole, hserved, hlast, hclients, htold, hsent⟩, hbuilder⟩ := h
  refine ⟨⟨hshown, hwhole, hserved, fun pin hpin => begun_grow page (hlast pin hpin), hclients,
    htold, hsent⟩, ?_⟩
  unfold BuilderOk at hbuilder ⊢
  dsimp only
  cases hb : s.builder with
  | asleep => trivial
  | serving pass manifest => rw [hb] at hbuilder; exact ⟨begun_grow page hbuilder.1, hbuilder.2⟩
  | reading job => rw [hb] at hbuilder; exact begun_grow page hbuilder
  | halfRead job btc => rw [hb] at hbuilder; exact begun_grow page hbuilder
  | writing job built => rw [hb] at hbuilder; exact ⟨begun_grow page hbuilder.1, hbuilder.2⟩
  | recording job built => rw [hb] at hbuilder; exact ⟨begun_grow page hbuilder.1, hbuilder.2⟩
  | pruning job stale => rw [hb] at hbuilder; exact begun_grow page hbuilder
  | unlinking job pin stale => rw [hb] at hbuilder; exact begun_grow page hbuilder
  | readingBack job => rw [hb] at hbuilder; exact begun_grow page hbuilder
  | warming pass => rw [hb] at hbuilder; exact begun_grow page hbuilder

/-! ## The builder -/

theorem installBuilt_tapes (s : Server β) (pin : ℤ) (manifest : Manifest) (active : ℤ) :
    (s.installBuilt pin manifest active).tapes = s.tapes := by
  unfold Server.installBuilt
  split_ifs
  · rfl
  · rfl
  · rfl
  · split <;> rfl

theorem installBuilt_inv {s : Server β} (h : Inv npz sha256 size s) {pin active : ℤ}
    {manifest : Manifest} (hbegun : s.Begun active)
    (hwhole : ∃ r, s.files.head size pin = some r ∧ r.manifest = manifest)
    (huntorn : pin ∈ s.torn → (s.shown pin).isSome = true)
    (hlast : s.served = none → ∀ last, s.lastServed = some last → last ≤ pin) :
    Inv npz sha256 size (s.installBuilt pin manifest active) ∧
      Forward s (s.installBuilt pin manifest active) := by
  unfold Server.installBuilt
  split_ifs with hahead hpast hold
  · exact ⟨h, Or.inl rfl⟩
  · exact ⟨h, Or.inl rfl⟩
  · exact ⟨h, Or.inl rfl⟩
  · split
    next blob hblob =>
      obtain ⟨active', hactive, hle⟩ := hbegun
      have hok : TakeOk size s ⟨pin, manifest⟩ blob :=
        ⟨hblob, hwhole, huntorn, active', hactive, (not_lt.mp hahead).trans hle⟩
      refine ⟨take_inv h hok, Or.inr (Or.inr ⟨_, rfl, ?_⟩)⟩
      intro last hlast'
      cases hserved : s.served with
      | none => exact hlast hserved last hlast'
      | some current =>
        rw [(h.core.served current hserved).1] at hlast'
        obtain rfl := Option.some.inj hlast'
        rw [hserved] at hpast
        simpa using hpast
    next => exact ⟨h, Or.inl rfl⟩

theorem inv_builder {s : Server β} (h : Core npz sha256 size s) (b : Builder β)
    (hb : BuilderOk npz sha256 size { s with builder := b }) :
    Inv npz sha256 size { s with builder := b } :=
  ⟨⟨h.shown, h.whole, h.served, h.last, h.clients, h.told, h.sent⟩, hb⟩

theorem doneWith_inv {s : Server β} (h : Core npz sha256 size s) {job : Job}
    (hbegun : s.Begun job.pass.active) :
    Inv npz sha256 size (s.doneWith job) ∧ (s.doneWith job).served = s.served := by
  unfold Server.doneWith
  split
  · exact ⟨⟨⟨h.shown, h.whole, h.served, h.last, h.clients, h.told, h.sent⟩, hbegun⟩, rfl⟩
  · exact ⟨inv_builder h .asleep trivial, rfl⟩

theorem writing_inv {s : Server β} (h : Core npz sha256 size s) {job : Job} {built : Built β}
    (hbegun : s.Begun job.pass.active)
    (hpair : PairOf npz sha256 job.pin built.manifest built.blob)
    (hrebuild : ∀ c, s.shown job.pin = some c → c = built) :
    Inv npz sha256 size { s with
      files := s.files.writeBlob job.pin built.blob
      torn := job.pin :: s.torn
      builder := .recording job built } := by
  have hget : ∀ q, (s.files.writeBlob job.pin built.blob).blobs.get? q =
      if q = job.pin then some built.blob else s.files.blobs.get? q := fun q => Dict.get?_set
  refine ⟨⟨?_, ?_, h.served, h.last, h.clients, h.told, h.sent⟩, hbegun, hpair,
    List.mem_cons_self, by rw [hget, if_pos rfl], hrebuild⟩
  · intro pin c hc
    obtain ⟨hpair', hblob, hrecord⟩ := h.shown pin c hc
    refine ⟨hpair', ?_, hrecord⟩
    intro blob hb
    rw [hget] at hb
    split at hb
    next heq =>
      rw [hrebuild c (heq ▸ hc)]
      exact (Option.some.inj hb).symm
    next => exact hblob blob hb
  · intro pin r blob htorn hhead hb
    have hne : pin ≠ job.pin := fun heq => htorn (by rw [heq]; exact List.mem_cons_self)
    rw [hget, if_neg hne] at hb
    rw [head_writeBlob_ne _ hne] at hhead
    exact h.whole pin r blob (fun hin => htorn (List.mem_cons_of_mem _ hin)) hhead hb

theorem recording_inv {s : Server β} (h : Core npz sha256 size s) {job : Job} {built : Built β}
    (stale : List ℤ) (hbegun : s.Begun job.pass.active)
    (hpair : PairOf npz sha256 job.pin built.manifest built.blob)
    (hblob : s.files.blobs.get? job.pin = some built.blob)
    (hshown : ∀ c, s.shown job.pin = some c → c = built) (raw : Option ℤ) :
    Inv npz sha256 size { s with
      files := s.files.writeRecord job.pin ⟨built.manifest, size built.blob, raw⟩
      torn := s.torn.filter fun pin => pin ≠ job.pin
      builder := .pruning job stale } := by
  have hget : ∀ q, (s.files.writeRecord job.pin
      ⟨built.manifest, size built.blob, raw⟩).records.get? q =
      if q = job.pin then some ⟨built.manifest, size built.blob, raw⟩
      else s.files.records.get? q := fun q => Dict.get?_set
  refine ⟨⟨?_, ?_, h.served, h.last, h.clients, h.told, h.sent⟩, hbegun⟩
  · intro pin c hc
    obtain ⟨hpair', hblobs, hrecord⟩ := h.shown pin c hc
    refine ⟨hpair', hblobs, ?_⟩
    intro r hr
    rw [hget] at hr
    split at hr
    next heq =>
      rw [hshown c (heq ▸ hc), ← Option.some.inj hr]
    next => exact hrecord r hr
  · intro pin r blob htorn hhead hb
    by_cases heq : pin = job.pin
    · subst heq
      have hr := (head_spec hhead).1
      rw [hget, if_pos rfl] at hr
      obtain rfl := Option.some.inj hr
      obtain rfl : built.blob = blob := Option.some.inj (hblob.symm.trans hb)
      exact hpair
    · rw [head_writeRecord_ne _ heq] at hhead
      have hclean : pin ∉ s.torn := fun hin =>
        htorn (List.mem_filter.mpr ⟨hin, by simpa using heq⟩)
      exact h.whole pin r blob hclean hhead hb

theorem unlinkRecord_core {s : Server β} (h : Core npz sha256 size s) (pin : ℤ) :
    Core npz sha256 size { s with files := s.files.unlinkRecord pin } := by
  refine ⟨?_, ?_, h.served, h.last, h.clients, h.told, h.sent⟩
  · intro q c hc
    obtain ⟨hpair, hblob, hrecord⟩ := h.shown q c hc
    refine ⟨hpair, hblob, ?_⟩
    intro r hr
    have hr : (s.files.records.erase pin).get? q = some r := hr
    rw [Dict.get?_erase] at hr
    split at hr
    · cases hr
    · exact hrecord r hr
  · intro q r blob htorn hhead hb
    exact h.whole q r blob htorn (head_unlinkRecord hhead) hb

theorem unlinkBlob_core {s : Server β} (h : Core npz sha256 size s) (pin : ℤ) :
    Core npz sha256 size { s with files := s.files.unlinkBlob pin } := by
  have hsub : ∀ q blob, (s.files.unlinkBlob pin).blobs.get? q = some blob →
      s.files.blobs.get? q = some blob := by
    intro q blob hb
    have hb : (s.files.blobs.erase pin).get? q = some blob := hb
    rw [Dict.get?_erase] at hb
    split at hb
    · cases hb
    · exact hb
  refine ⟨?_, ?_, h.served, h.last, h.clients, h.told, h.sent⟩
  · intro q c hc
    obtain ⟨hpair, hblob, hrecord⟩ := h.shown q c hc
    exact ⟨hpair, fun blob hb => hblob blob (hsub q blob hb), hrecord⟩
  · intro q r blob htorn hhead hb
    exact h.whole q r blob htorn (head_unlinkBlob hhead) (hsub q blob hb)

theorem build_inv (hnpz : npz.Lawful) {s : Server β} (h : Inv npz sha256 size s)
    (hok : StepOk size s .build) :
    Inv npz sha256 size (s.build npz sha256 size) ∧ Forward s (s.build npz sha256 size) := by
  have hbuilder := h.builder
  unfold BuilderOk at hbuilder
  unfold Server.build
  cases hb : s.builder with
  | asleep => exact ⟨h, Or.inl rfl⟩
  | serving pass manifest =>
    rw [hb] at hbuilder
    obtain ⟨hbegun, hwhole⟩ := hbuilder
    obtain ⟨huntorn, hlast⟩ := hok.install rfl pass.active (by unfold Server.installing; rw [hb])
    obtain ⟨hinv, hforward⟩ := installBuilt_inv h hbegun hwhole huntorn hlast
    refine ⟨inv_builder hinv.core _ ?_, hforward⟩
    show Server.Begun _ pass.active
    unfold Server.Begun Server.active
    rw [installBuilt_tapes]
    exact hbegun
  | reading job =>
    rw [hb] at hbuilder
    exact ⟨inv_builder h.core _ hbuilder, Or.inl rfl⟩
  | halfRead job btc =>
    rw [hb] at hbuilder
    dsimp only
    split
    · exact ⟨inv_builder h.core _ hbuilder, Or.inl rfl⟩
    · exact ⟨inv_builder h.core _ ⟨hbuilder, pairOf_build hnpz job.pin btc _⟩, Or.inl rfl⟩
  | writing job built =>
    rw [hb] at hbuilder
    obtain ⟨hbegun, hpair⟩ := hbuilder
    exact ⟨writing_inv h.core hbegun hpair (hok.rebuild rfl job built hb), Or.inl rfl⟩
  | recording job built =>
    rw [hb] at hbuilder
    obtain ⟨hbegun, hpair, -, hblob, hshown⟩ := hbuilder
    exact ⟨recording_inv h.core _ hbegun hpair hblob hshown _, Or.inl rfl⟩
  | pruning job stale =>
    rw [hb] at hbuilder
    cases stale with
    | nil => exact ⟨inv_builder h.core _ hbuilder, Or.inl rfl⟩
    | cons pin stale =>
      exact ⟨inv_builder (unlinkRecord_core h.core pin) _ hbuilder, Or.inl rfl⟩
  | unlinking job pin stale =>
    rw [hb] at hbuilder
    exact ⟨inv_builder (unlinkBlob_core h.core pin) _ hbuilder, Or.inl rfl⟩
  | readingBack job =>
    rw [hb] at hbuilder
    dsimp only
    split
    next r hhead =>
      obtain ⟨huntorn, hlast⟩ := hok.install rfl job.pin (by unfold Server.installing; rw [hb])
      obtain ⟨hinv, hforward⟩ := installBuilt_inv h hbuilder ⟨r, hhead, rfl⟩ huntorn hlast
      have hbegun : (s.installBuilt job.pin r.manifest job.pass.active).Begun job.pass.active := by
        unfold Server.Begun Server.active
        rw [installBuilt_tapes]
        exact hbuilder
      obtain ⟨hdone, hserved⟩ := doneWith_inv hinv.core hbegun
      refine ⟨hdone, ?_⟩
      unfold Forward at hforward ⊢
      rw [hserved]
      exact hforward
    next =>
      obtain ⟨hdone, hserved⟩ := doneWith_inv h.core hbuilder
      exact ⟨hdone, Or.inl hserved⟩
  | warming pass =>
    rw [hb] at hbuilder
    dsimp only
    split
    · exact ⟨inv_builder h.core _ hbuilder, Or.inl rfl⟩
    · exact ⟨inv_builder h.core _ trivial, Or.inl rfl⟩

theorem wake_inv {s : Server β} (h : Inv npz sha256 size s) (now : ℤ) :
    Inv npz sha256 size (s.wake size now) ∧ Forward s (s.wake size now) := by
  unfold Server.wake
  split
  next active raw hactive hraw =>
    have hbegun : s.Begun active := ⟨active, hactive, le_refl _⟩
    dsimp only
    split
    next => exact ⟨inv_builder h.core _ hbegun, Or.inl rfl⟩
    next r hhead =>
      split_ifs
      · exact ⟨inv_builder h.core _ hbegun, Or.inl rfl⟩
      · exact ⟨inv_builder h.core _ ⟨hbegun, r, hhead, rfl⟩, Or.inl rfl⟩
      · exact ⟨inv_builder h.core _ hbegun, Or.inl rfl⟩
      · exact ⟨inv_builder h.core _ hbegun, Or.inl rfl⟩
  next => exact ⟨h, Or.inl rfl⟩

/-! ## Runs -/

theorem step_inv (hnpz : npz.Lawful) {s : Server β} (h : Inv npz sha256 size s) (op : Op)
    (hok : StepOk size s op) :
    Inv npz sha256 size (s.step npz sha256 size op) ∧
      Forward s (s.step npz sha256 size op) := by
  cases op with
  | grow page => exact ⟨grow_inv h page, Or.inl rfl⟩
  | wake now =>
    have hcases : s.step npz sha256 size (.wake now) = s.wake size now ∨
        s.step npz sha256 size (.wake now) = s := by
      unfold Server.step
      dsimp only
      split
      · exact Or.inl rfl
      · exact Or.inr rfl
    rcases hcases with hwake | hbusy
    · rw [hwake]
      exact wake_inv h now
    · rw [hbusy]
      exact ⟨h, Or.inl rfl⟩
  | build => exact build_inv hnpz h hok
  | fail => exact ⟨inv_builder h.core _ trivial, Or.inl rfl⟩
  | manifest => exact sendManifest_inv h (hok.load trivial)
  | tape c => exact sendTape_inv h c hok.load

theorem inv_start (tapes : Tapes) {files : Files β} (h : files.Paired npz sha256 size) :
    Inv npz sha256 size { tapes := tapes, files := files } :=
  ⟨⟨nofun, fun pin r blob _ => h pin r blob, nofun, nofun, nofun, nofun, nofun⟩, trivial⟩

/-- **Served tape consistency.** From any tape and any files whose pairs belong
together, through any order of the builder's micro-steps, requests and new bars: as
long as every step meets its condition, a client that gets a manifest and the npz of
its pin gets the bytes the manifest describes, the served pin does not move
backwards, and it is never past the active pin. -/
theorem served_tape_consistent (npz : Npz β) (hnpz : npz.Lawful)
    (sha256 : List (BitVec 8) → String) (size : β → ℕ) (tapes : Tapes) {files : Files β}
    (hfiles : files.Paired npz sha256 size) (ops : List Op)
    (hok : Along (Server.step npz sha256 size) (StepOk size) { tapes := tapes, files := files }
      ops) :
    Along (Server.step npz sha256 size)
      (fun s op => ServesWell npz sha256 s (s.step npz sha256 size op))
      { tapes := tapes, files := files } ops := by
  refine along_of_inv (I := Inv npz sha256 size) (fun s op hs hstep => ?_) ops
    (inv_start tapes hfiles) hok
  obtain ⟨hinv, hforward⟩ := step_inv hnpz hs op hstep
  exact ⟨hs.servesWell hinv hforward, hinv⟩

end

/-! ## Two servers -/

/-- The npz and the manifest of the one midnight bar. -/
def midnightBuilt : Built Archive := buildOf plainNpz spelled midnight.ts [midnight] [midnight]

/-- They are on disk. -/
def midnightFiles : Files Archive :=
  (Files.writeBlob {} midnight.ts midnightBuilt.blob).writeRecord midnight.ts
    ⟨midnightBuilt.manifest, midnightBuilt.blob.length, none⟩

theorem midnightFiles_paired : midnightFiles.Paired plainNpz spelled List.length := by
  intro pin r blob hhead hblob
  have hpin : pin = midnight.ts := by
    by_contra hne
    have hnone : midnightFiles.blobs.get? pin = none := by
      unfold midnightFiles Files.writeRecord Files.writeBlob
      rw [Dict.get?_set, if_neg hne]
      rfl
    rw [hnone] at hblob
    cases hblob
  subst hpin
  have hr := (head_spec hhead).1
  obtain rfl : midnightBuilt.blob = blob := Option.some.inj hblob
  obtain rfl := Option.some.inj hr
  exact pairOf_build (fun _ => rfl) midnight.ts [midnight] [midnight]

/-- A server that has just started, and a client that fetches both. -/
theorem served_tape_consistent_midnight :
    Along (Server.step plainNpz spelled List.length)
      (fun s op => ServesWell plainNpz spelled s (s.step plainNpz spelled List.length op))
      { tapes := midnightTapes, files := midnightFiles } [.manifest, .tape 0, .tape 0] := by
  apply served_tape_consistent plainNpz (fun _ => rfl) spelled List.length midnightTapes
    midnightFiles_paired
  have hcandidates : midnightFiles.candidates List.length = [midnight.ts] := by decide +kernel
  have hload : LoadsInOrder List.length
      ({ tapes := midnightTapes, files := midnightFiles } : Server Archive) := by
    refine ⟨?_, nofun, nofun⟩
    intro pin hpin
    rw [hcandidates] at hpin
    rw [List.mem_singleton.mp hpin]
    exact ⟨midnight.ts, by decide +kernel, le_refl _⟩
  refine ⟨⟨nofun, nofun, fun _ _ => hload⟩, ⟨nofun, nofun, ?_⟩, ⟨nofun, nofun, ?_⟩, trivial⟩
  · intro _ hnone
    exact absurd hnone (by decide +kernel)
  · intro _ hnone
    exact absurd hnone (by decide +kernel)

/-- BTC has the bar of 00:00 and ETH the ones before and after it, so the day is
not final. -/
def gapTapes : Tapes
  | .btc => dedupLast [midnight]
  | .eth => dedupLast [{ midnight with ts := midnight.ts - 300000 },
      { midnight with ts := midnight.ts + 300000 }]

/-- The day is built and served, and a client gets its manifest. Then the 00:00 bar
of BTC is updated and the next one comes, the day is built again, and the client
opens the npz when it is written and its manifest is not. -/
def rebuildOps : List Op :=
  [.wake (midnight.ts + 60000), .build, .build, .build, .build, .build, .build, .build,
    .manifest, .grow (.btc, [midnightLater, { midnight with ts := midnight.ts + 300000 }]),
    .wake (midnight.ts + 360000), .build, .build, .build, .tape 0, .tape 0]

theorem rebuild_under_clients :
    ¬ Along (Server.step plainNpz spelled List.length)
      (fun s op => ServesWell plainNpz spelled s (s.step plainNpz spelled List.length op))
      { tapes := gapTapes } rebuildOps := by
  rintro ⟨-, -, -, -, -, -, -, -, -, -, -, -, -, -, -, h, -⟩
  have hsha : ∀ m ∈ (rebuildOps.foldl (Server.step plainNpz spelled List.length)
      { tapes := gapTapes }).told, ∀ b ∈ (rebuildOps.foldl
        (Server.step plainNpz spelled List.length) { tapes := gapTapes }).sent,
      m.dataEnd = some b.1 → m.sha256 = (contentManifest spelled b.2).sha256 := by
    intro m hm b hb hpin
    obtain ⟨packed, hload, hagrees⟩ := h.hashes m hm b hb hpin
    cases hload
    exact hagrees.sha256
  revert hsha
  decide +kernel

end PaperTrading.Tape
