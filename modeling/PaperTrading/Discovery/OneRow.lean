import Mathlib.Data.List.Count
import PaperTrading.Lib.Runs
import PaperTrading.Discovery.Ingest

/-!
# One row per name

For any number of ingests in flight, in any order of their sections
(`one_row_run`): every name has at most one row that is not a retest, and a
retest row is written exactly by the section that takes its queue entry out of
pending. A library entry is completed by its row only. A buy-and-hold entry may
also be completed by a forced seat, which writes no row.
-/

namespace PaperTrading.Discovery

open PaperTrading.Lib
open Champions (EvalRow)

/-- What a row counts for. -/
def LogRow.key (r : LogRow) : Lane × String := (r.lane, r.name)

/-- How many rows of the name came through the branch. -/
def laneRows (rows : List LogRow) (lane : Lane) (name : String) : ℕ :=
  (rows.map LogRow.key).count (lane, name)

/-- The section took the name's entry out of pending. -/
def Closes (before after : Queue) (name : String) : Prop :=
  before name = some .pending ∧ after name ≠ some .pending

instance (before after : Queue) (name : String) : Decidable (Closes before after name) :=
  inferInstanceAs (Decidable (_ ∧ _))

/-- The section is an ingest's last one and seats the name by force. -/
def Forces (f : Farm) (s : Section) (name : String) : Prop :=
  match s with
  | .finish _ existing forced _ => name ∈ f.disk.forceSeats existing forced
  | _ => False

instance (f : Farm) (name : String) : (s : Section) → Decidable (Forces f s name)
  | .begin .. => inferInstanceAs (Decidable False)
  | .append _ => inferInstanceAs (Decidable False)
  | .finish .. => inferInstanceAs (Decidable (_ ∈ _))

/-- One row of each kind for every name. A row of a queue is written exactly by
the section that completes its entry; the buy-and-hold queue's entries may also
be completed by a forced seat. No entry becomes pending again. -/
structure OneRow (f : Farm) (s : Section) : Prop where
  first : ∀ name, laneRows (f.step s).written .first name ≤ 1
  inLog : ∀ name, laneRows (f.step s).disk.log .first name ≤ 1
  library : ∀ name, laneRows (f.step s).written .libraryRetest name =
    laneRows f.written .libraryRetest name +
      if Closes f.disk.libraryQueue (f.step s).disk.libraryQueue name then 1 else 0
  bh : ∀ name, laneRows (f.step s).written .bhRetest name =
    laneRows f.written .bhRetest name +
      if Closes f.disk.bhQueue (f.step s).disk.bhQueue name ∧ ¬ Forces f s name then 1 else 0
  libraryStays : ∀ name, f.disk.libraryQueue name ≠ some .pending →
    (f.step s).disk.libraryQueue name ≠ some .pending
  bhStays : ∀ name, f.disk.bhQueue name ≠ some .pending →
    (f.step s).disk.bhQueue name ≠ some .pending

/-- What a log starts from: at most one first row a name, and every name of the
log in the index. -/
structure Census (d : Disk) : Prop where
  one : ∀ name, laneRows d.log .first name ≤ 1
  covered : ∀ r ∈ d.log, d.index r.name = true

/-- What every section keeps. The log is what its cap left of the rows
written. -/
structure Sound (f : Farm) : Prop where
  one : ∀ name, laneRows f.written .first name ≤ 1
  covered : ∀ r ∈ f.written, f.disk.index r.name = true
  log : (f.disk.log.map LogRow.key).Sublist (f.written.map LogRow.key)

theorem sound_start {d : Disk} (h : Census d) : Sound (Farm.start d) :=
  ⟨h.one, h.covered, List.Sublist.refl _⟩

/-! ## Counting rows and closing entries -/

theorem laneRows_cons (r : LogRow) (rows : List LogRow) (lane : Lane) (name : String) :
    laneRows (r :: rows) lane name =
      laneRows rows lane name + if r.lane = lane ∧ r.name = name then 1 else 0 := by
  unfold laneRows
  rw [List.map_cons, List.count_cons]
  simp only [LogRow.key, beq_iff_eq, Prod.mk.injEq]

theorem laneRows_eq_zero {rows : List LogRow} {name : String} (h : ∀ r ∈ rows, r.name ≠ name)
    (lane : Lane) : laneRows rows lane name = 0 := by
  unfold laneRows
  rw [List.count_eq_zero, List.mem_map]
  rintro ⟨r, hr, hkey⟩
  exact h r hr (congrArg Prod.snd hkey)

theorem not_closes_self (q : Queue) (name : String) : ¬ Closes q q name := fun h => h.2 h.1

theorem closes_complete {q : Queue} {name' : String} (h : q name' = some .pending)
    (testedAt name : String) : Closes q (q.complete name' testedAt) name ↔ name' = name := by
  unfold Closes Queue.complete
  rw [if_pos h]
  rcases eq_or_ne name name' with rfl | hne
  · rw [Function.update_self]
    simp [h]
  · rw [Function.update_of_ne hne]
    exact iff_of_false (fun hc => hc.2 hc.1) fun heq => hne heq.symm

theorem complete_stays {q : Queue} {name : String} (h : q name ≠ some .pending)
    (name' testedAt : String) : q.complete name' testedAt name ≠ some .pending := by
  unfold Queue.complete
  split
  · rcases eq_or_ne name name' with rfl | hne
    · rw [Function.update_self]
      simp
    · rw [Function.update_of_ne hne]
      exact h
  · exact h

theorem complete_of_ne {name name' : String} (h : name ≠ name') (q : Queue) (testedAt : String) :
    q.complete name' testedAt name = q name := by
  unfold Queue.complete
  split
  · exact Function.update_of_ne h _ _
  · rfl

/-! ## Forced seats -/

theorem qualifyNewest_key (name : String) (rows : List LogRow) :
    (Disk.qualifyNewest name rows).map LogRow.key = rows.map LogRow.key := by
  induction rows with
  | nil => rfl
  | cons r rows ih =>
    unfold Disk.qualifyNewest
    split
    · rfl
    · rw [List.map_cons, List.map_cons, ih]

/-- What forced seats leave of the files: the rows count as before, the library
queue stays, and only names that were seated leave the other one. -/
structure SeatFrame (names : List String) (d d' : Disk) : Prop where
  keys : d'.log.map LogRow.key = d.log.map LogRow.key
  library : d'.libraryQueue = d.libraryQueue
  bh : ∀ name, name ∉ names → d'.bhQueue name = d.bhQueue name
  bhStays : ∀ name, d.bhQueue name ≠ some .pending → d'.bhQueue name ≠ some .pending

theorem foldl_forceSeat_frame (stamp : String) (names : List String) (d : Disk) :
    SeatFrame names d (names.foldl (Disk.forceSeat stamp) d) := by
  induction names generalizing d with
  | nil => exact ⟨rfl, rfl, fun _ _ => rfl, fun _ h => h⟩
  | cons n names ih =>
    obtain ⟨hkeys, hlibrary, hbh, hstays⟩ := ih (Disk.forceSeat stamp d n)
    refine ⟨hkeys.trans (qualifyNewest_key n d.log), hlibrary, fun name hname => ?_,
      fun name hname => hstays name (complete_stays hname n stamp)⟩
    rw [List.mem_cons, not_or] at hname
    rw [List.foldl_cons, hbh name hname.2]
    exact complete_of_ne hname.1 d.bhQueue stamp

theorem forceAdmit_frame (d : Disk) (existing : String → Bool) (forced : List String)
    (stamp : String) :
    SeatFrame (d.forceSeats existing forced) d (d.forceAdmit existing forced stamp) := by
  have h := foldl_forceSeat_frame stamp (d.forceSeats existing forced) d
  unfold Disk.forceAdmit
  dsimp only
  split
  · exact ⟨rfl, rfl, fun _ _ => rfl, fun _ h => h⟩
  · exact ⟨h.keys, h.library, h.bh, h.bhStays⟩

theorem forceAdmit_index {d : Disk} {name : String} (h : d.index name = true)
    (existing : String → Bool) (forced : List String) (stamp : String) :
    (d.forceAdmit existing forced stamp).index name = true := by
  unfold Disk.forceAdmit
  dsimp only
  split
  · exact h
  · show d.tested name = true
    unfold Disk.tested
    rw [h, Bool.true_or]

/-! ## Appends -/

/-- What an accepted append does: the row in front of the log, its name in the
index, and its entry, if it is a retest, out of pending. -/
structure AppendSpec (d : Disk) (r : LogRow) (d' : Disk) : Prop where
  log : d'.log = (r :: d.log).take DISCOVERY_LOG_CAP
  index : d'.index = Function.update d.index r.name true
  fresh : r.lane = .first → d.index r.name = false
  library : ∀ name, Closes d.libraryQueue d'.libraryQueue name ↔
    r.lane = .libraryRetest ∧ r.name = name
  bh : ∀ name, Closes d.bhQueue d'.bhQueue name ↔ r.lane = .bhRetest ∧ r.name = name
  libraryStays : ∀ name, d.libraryQueue name ≠ some .pending →
    d'.libraryQueue name ≠ some .pending
  bhStays : ∀ name, d.bhQueue name ≠ some .pending → d'.bhQueue name ≠ some .pending

theorem appendEvaluation_spec {d d' : Disk} {r : LogRow} (h : d.appendEvaluation r = some d') :
    AppendSpec d r d' := by
  unfold Disk.appendEvaluation at h
  split at h
  · next hvalid =>
    cases h
    unfold Disk.stillValid at hvalid
    unfold Disk.afterCommit
    cases hl : r.lane with
    | first =>
      rw [hl] at hvalid
      refine ⟨rfl, rfl, fun _ => ?_, fun name => ?_, fun name => ?_, fun _ h => h, fun _ h => h⟩
      · have hno : d.tested r.name = false := by simpa using hvalid
        unfold Disk.tested at hno
        exact (Bool.or_eq_false_iff.mp hno).1
      · exact iff_of_false (not_closes_self _ name) (by simp [hl])
      · exact iff_of_false (not_closes_self _ name) (by simp [hl])
    | correction =>
      refine ⟨rfl, rfl, fun h => absurd (hl.symm.trans h) (by decide), fun name => ?_, fun name => ?_,
        fun _ h => h, fun _ h => h⟩
      · exact iff_of_false (not_closes_self _ name) (by simp [hl])
      · exact iff_of_false (not_closes_self _ name) (by simp [hl])
    | libraryRetest =>
      rw [hl] at hvalid
      have hpending : d.libraryQueue r.name = some .pending := by simpa using hvalid
      refine ⟨rfl, rfl, fun h => absurd (hl.symm.trans h) (by decide), fun name => ?_, fun name => ?_,
        fun name h => complete_stays h r.name r.row.testedAt, fun _ h => h⟩
      · rw [and_iff_right hl]
        exact closes_complete hpending r.row.testedAt name
      · exact iff_of_false (not_closes_self _ name) (by simp [hl])
    | bhRetest =>
      rw [hl] at hvalid
      have hpending : d.bhQueue r.name = some .pending := by simpa using hvalid
      refine ⟨rfl, rfl, fun h => absurd (hl.symm.trans h) (by decide), fun name => ?_, fun name => ?_,
        fun _ h => h, fun name h => complete_stays h r.name r.row.testedAt⟩
      · exact iff_of_false (not_closes_self _ name) (by simp [hl])
      · rw [and_iff_right hl]
        exact closes_complete hpending r.row.testedAt name
  · cases h

/-- An accepted append keeps the count of first rows at one. -/
theorem sound_append {f : Farm} (hf : Sound f) {r : LogRow} {d' : Disk}
    (h : AppendSpec f.disk r d') (flights : ℕ → List LogRow) :
    Sound { disk := d', flights := flights, written := r :: f.written } := by
  refine ⟨fun name => ?_, fun x hx => ?_, ?_⟩
  · rw [laneRows_cons]
    have hone := hf.one name
    split
    · next hr =>
      -- A first row is only accepted for a name the index does not have.
      have hzero : laneRows f.written .first name = 0 := by
        refine laneRows_eq_zero (fun x hx heq => ?_) .first
        have hcovered := hf.covered x hx
        rw [heq, ← hr.2, h.fresh hr.1] at hcovered
        cases hcovered
      omega
    · omega
  · show d'.index x.name = true
    rw [h.index]
    rcases eq_or_ne x.name r.name with heq | hne
    · rw [heq, Function.update_self]
    · rw [Function.update_of_ne hne]
      rcases List.mem_cons.mp hx with rfl | hx
      · exact absurd rfl hne
      · exact hf.covered x hx
  · show (d'.log.map LogRow.key).Sublist ((r :: f.written).map LogRow.key)
    rw [h.log]
    refine ((List.take_sublist _ _).map _).trans ?_
    rw [List.map_cons, List.map_cons]
    exact hf.log.cons_cons _

/-! ## One section -/

/-- A section that writes nothing and closes nothing. -/
theorem oneRow_of_same {f : Farm} (hf : Sound f) {s : Section} (hdisk : (f.step s).disk = f.disk)
    (hwritten : (f.step s).written = f.written) : OneRow f s := by
  refine ⟨fun name => ?_, fun name => ?_, fun name => ?_, fun name => ?_, ?_, ?_⟩
  · rw [hwritten]
    exact hf.one name
  · rw [hdisk]
    exact (hf.log.count_le _).trans (hf.one name)
  · rw [hwritten, hdisk, if_neg (not_closes_self _ name), Nat.add_zero]
  · rw [hwritten, hdisk, if_neg fun h => not_closes_self _ name h.1, Nat.add_zero]
  · rw [hdisk]
    exact fun _ h => h
  · rw [hdisk]
    exact fun _ h => h

theorem oneRow_append {f : Farm} (hf : Sound f) (i : ℕ) :
    OneRow f (.append i) ∧ Sound (f.step (.append i)) := by
  cases hflight : f.flights i with
  | nil =>
    have hstep : f.step (.append i) = f := by
      unfold Farm.step
      dsimp only
      rw [hflight]
    refine ⟨oneRow_of_same hf (by rw [hstep]) (by rw [hstep]), ?_⟩
    rw [hstep]
    exact hf
  | cons r rest =>
    cases happ : f.disk.appendEvaluation r with
    | none =>
      have hstep : f.step (.append i) =
          { f with flights := Function.update f.flights i rest } := by
        unfold Farm.step
        simp only [hflight, happ]
      refine ⟨oneRow_of_same hf (by rw [hstep]) (by rw [hstep]), ?_⟩
      rw [hstep]
      exact ⟨hf.one, hf.covered, hf.log⟩
    | some d' =>
      have hspec := appendEvaluation_spec happ
      have hstep : f.step (.append i) =
          { disk := d', flights := Function.update f.flights i rest
            written := r :: f.written } := by
        unfold Farm.step
        simp only [hflight, happ]
      have hsound : Sound (f.step (.append i)) := by
        rw [hstep]
        exact sound_append hf hspec _
      refine ⟨⟨hsound.one, fun name => (hsound.log.count_le _).trans (hsound.one name),
        fun name => ?_, fun name => ?_, ?_, ?_⟩, hsound⟩
      · rw [hstep]
        simp only [laneRows_cons, hspec.library name]
      · rw [hstep]
        simp only [laneRows_cons, hspec.bh name, Forces, not_false_eq_true, and_true]
      · rw [hstep]
        exact hspec.libraryStays
      · rw [hstep]
        exact hspec.bhStays

theorem oneRow_finish {f : Farm} (hf : Sound f) (i : ℕ) (existing : String → Bool)
    (forced : List String) (stamp : String) :
    OneRow f (.finish i existing forced stamp) ∧
    Sound (f.step (.finish i existing forced stamp)) := by
  have hframe := forceAdmit_frame f.disk existing forced stamp
  have hsound : Sound (f.step (.finish i existing forced stamp)) := by
    refine ⟨hf.one, fun r hr => forceAdmit_index (hf.covered r hr) existing forced stamp, ?_⟩
    show ((f.disk.forceAdmit existing forced stamp).log.map LogRow.key).Sublist _
    rw [hframe.keys]
    exact hf.log
  refine ⟨⟨hf.one, fun name => (hsound.log.count_le _).trans (hsound.one name), fun name => ?_,
    fun name => ?_, fun name h => ?_, hframe.bhStays⟩, hsound⟩
  · have hsame : (f.step (.finish i existing forced stamp)).disk.libraryQueue =
        f.disk.libraryQueue := hframe.library
    rw [hsame, if_neg (not_closes_self _ name)]
    rfl
  · rw [if_neg]
    · rfl
    · rintro ⟨hcloses, hnot⟩
      have hsame := hframe.bh name hnot
      exact hcloses.2 (hsame.trans hcloses.1)
  · show (f.disk.forceAdmit existing forced stamp).libraryQueue name ≠ _
    rw [hframe.library]
    exact h

theorem oneRow_step {f : Farm} (hf : Sound f) (s : Section) : OneRow f s ∧ Sound (f.step s) := by
  cases s with
  | begin i evals existing requalifies =>
    exact ⟨oneRow_of_same hf rfl rfl, hf.one, hf.covered, hf.log⟩
  | append i => exact oneRow_append hf i
  | finish i existing forced stamp => exact oneRow_finish hf i existing forced stamp

/-- **One row per name.** From any log with at most one first row a name and
every name of it in the index, for any number of ingests with any contents and
in any order of their sections: after every section each name has at most one
first row, each retest row was written by the section that completed its
entry, and an entry completed without a row belongs to the buy-and-hold queue
and its name was seated by force. -/
theorem one_row_run {d : Disk} (h : Census d) (sections : List Section) :
    Along Farm.step OneRow (Farm.start d) sections :=
  along_of_inv (C := fun _ _ => True) (I := Sound) (fun _ s hf _ => oneRow_step hf s) sections
    (sound_start h) (along_of_forall (fun _ _ => trivial) sections)

/-- An evaluation of a name. -/
def evaluation (name : String) : EvalRow :=
  { strategy := name, qualified := false, testedAt := "2026-10-20T00:00:00+00:00" }

/-- A name with a row in the log and a pending entry in the buy-and-hold
queue. -/
def pendingDisk : Disk :=
  { log := [{ row := evaluation "dip_3b_lt5pc", lane := .first, revised := false }]
    index := fun n => n = "dip_3b_lt5pc"
    bhQueue := fun n => if n = "dip_3b_lt5pc" then some .pending else none }

theorem census_pendingDisk : Census pendingDisk := by
  refine ⟨fun name => ?_, fun r hr => ?_⟩
  · unfold laneRows
    exact (List.count_le_length).trans (Nat.le_refl 1)
  · obtain rfl := List.mem_singleton.mp hr
    rfl

/-- Two ingests of one payload with the retest. -/
theorem one_row_run_twice :
    Along Farm.step OneRow (Farm.start pendingDisk)
      [.begin 0 [(evaluation "dip_3b_lt5pc", false)] (fun _ => false) (fun _ => false),
        .begin 1 [(evaluation "dip_3b_lt5pc", false)] (fun _ => false) (fun _ => false),
        .append 1, .append 0, .finish 0 (fun _ => false) [] "", .finish 1 (fun _ => false) [] ""] :=
  one_row_run census_pendingDisk _

/-- Every pending entry of the buy-and-hold queue that is completed has its row
written by that section. -/
def EntryHasRow (f : Farm) (s : Section) : Prop :=
  ∀ name, laneRows (f.step s).written .bhRetest name =
    laneRows f.written .bhRetest name +
      if Closes f.disk.bhQueue (f.step s).disk.bhQueue name then 1 else 0

/-- An ingest that brings no evaluation and seats the name by force completes
its entry, and no retest row is ever written. -/
theorem forced_entry_has_no_row :
    ¬ Along Farm.step EntryHasRow (Farm.start pendingDisk)
      [.begin 0 [] (fun _ => false) (fun _ => false),
        .finish 0 (fun _ => false) ["dip_3b_lt5pc"] "2026-11-02T09:00:00+00:00"] := by
  rintro ⟨-, h, -⟩
  exact absurd (h "dip_3b_lt5pc") (by decide +kernel)

end PaperTrading.Discovery
