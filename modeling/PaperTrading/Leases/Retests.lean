import PaperTrading.Discovery.OneRow
import PaperTrading.Leases.Grants

/-!
# What an ingest does to other names' retests

An ingest takes a name out of its retest by a row of that name, by a forced seat
of it, or by rows of others that push its last row off the log. For a name that
none of this happens to the retest stays pending (`retestPending_ingest`), and
the name is tested afterwards only if it was before (`tested_ingest`).
-/

namespace PaperTrading.Leases

open PaperTrading.Lib
open Discovery (Disk LogRow DISCOVERY_LOG_CAP)

/-! ## Triage -/

variable {disk : Disk} {existing : String → Bool} {now : ℤ}

/-- Every row to append has a name, and its leases are to be cleared. -/
theorem triage_rows : ∀ (evals : List Evaluation) (already : String → Bool)
    (requalify : Requalify.State), ∀ r ∈ (triage disk existing now already requalify evals).rows,
      r.name ≠ "" ∧ r.name ∈ (triage disk existing now already requalify evals).cleared := by
  intro evals
  induction evals with
  | nil => intro already requalify r hr; cases hr
  | cons e evals ih =>
    intro already requalify
    -- a row that is logged brings its own name to the cleared ones
    have happend : ∀ {t : Triage} (lane : Discovery.Lane) (revised : Bool), e.row.strategy ≠ "" →
        (∀ r ∈ t.rows, r.name ≠ "" ∧ r.name ∈ t.cleared) →
        ∀ r ∈ ({ row := e.row, lane := lane, revised := revised } : LogRow) :: t.rows,
          r.name ≠ "" ∧ r.name ∈ e.row.strategy :: t.cleared := by
      intro t lane revised hname ht r hr
      rcases List.mem_cons.mp hr with hhead | htail
      · rw [hhead]
        exact ⟨hname, List.mem_cons_self⟩
      · obtain ⟨hne, hin⟩ := ht r htail
        exact ⟨hne, List.mem_cons_of_mem _ hin⟩
    unfold triage
    simp only
    split
    next => exact ih _ _
    next hname =>
      split
      next => exact happend _ _ hname (ih _ _)
      next =>
        split
        next => exact happend _ _ hname (ih _ _)
        next =>
          split
          next => exact ih _ _
          next =>
            split
            next =>
              intro r hr
              obtain ⟨hne, hin⟩ := ih _ _ r hr
              exact ⟨hne, List.mem_cons_of_mem _ hin⟩
            next =>
              split
              next =>
                split
                next => exact happend _ _ hname (ih _ _)
                next =>
                  intro r hr
                  obtain ⟨hne, hin⟩ := ih _ _ r hr
                  exact ⟨hne, List.mem_cons_of_mem _ hin⟩
              next => exact happend _ _ hname (ih _ _)

/-- An evaluation brings at most one row. -/
theorem triage_length : ∀ (evals : List Evaluation) (already : String → Bool)
    (requalify : Requalify.State),
      (triage disk existing now already requalify evals).rows.length ≤ evals.length := by
  intro evals
  induction evals with
  | nil => intro already requalify; exact le_refl _
  | cons e evals ih =>
    intro already requalify
    have hskip : ∀ {m : ℕ}, m ≤ evals.length → m ≤ (e :: evals).length := Nat.le_succ_of_le
    have htake : ∀ {m : ℕ}, m ≤ evals.length → m + 1 ≤ (e :: evals).length := Nat.succ_le_succ
    unfold triage
    simp only
    repeat' split
    all_goals first | exact htake (ih _ _) | exact hskip (ih _ _)

/-! ## Appended rows -/

/-- The files after the rows, without those that are no longer valid. -/
def appendRows (rows : List LogRow) (disk : Disk) : Disk :=
  rows.foldl (fun disk r => (disk.appendEvaluation r).getD disk) disk

theorem disk_foldl_appendRow (su : Setup) : ∀ (rows : List LogRow) (d : Desk),
    (rows.foldl (Desk.appendRow su) d).disk = appendRows rows d.disk := by
  intro rows
  induction rows with
  | nil => intro d; rfl
  | cons r rows ih =>
    intro d
    unfold appendRows
    rw [List.foldl_cons, List.foldl_cons, ih]
    unfold appendRows Desk.appendRow
    cases d.disk.appendEvaluation r with
    | none => rfl
    | some disk => rfl

/-- What the append of a row does to other names: their entries stay, and they
are tested if they were before. -/
structure Elsewhere (name : String) (d d' : Disk) : Prop where
  bh : d.bhQueue name = some .pending → d'.bhQueue name = some .pending
  library : d.libraryQueue name = some .pending → d'.libraryQueue name = some .pending
  tested : d'.tested name = true → d.tested name = true
  inLog : (d'.log.any fun r => r.name = name) = true → (d.log.any fun r => r.name = name) = true

theorem Elsewhere.refl (name : String) (d : Disk) : Elsewhere name d d := ⟨id, id, id, id⟩

theorem Elsewhere.trans {name : String} {d d' d'' : Disk} (h : Elsewhere name d d')
    (h' : Elsewhere name d' d'') : Elsewhere name d d'' :=
  ⟨h'.bh ∘ h.bh, h'.library ∘ h.library, h.tested ∘ h'.tested, h.inLog ∘ h'.inLog⟩

theorem inLog_take {log : List LogRow} {r : LogRow} {name : String} (hne : name ≠ r.name)
    (h : (((r :: log).take DISCOVERY_LOG_CAP).any fun r => r.name = name) = true) :
    (log.any fun r => r.name = name) = true := by
  obtain ⟨x, hx, hname⟩ := List.any_eq_true.mp h
  rcases List.mem_cons.mp (List.mem_of_mem_take hx) with hhead | hin
  · rw [hhead] at hname
    exact absurd (by simpa using hname : r.name = name).symm hne
  · exact List.any_eq_true.mpr ⟨x, hin, hname⟩

theorem elsewhere_append {d d' : Disk} {r : LogRow} (h : d.appendEvaluation r = some d') {name : String}
    (hne : name ≠ r.name) : Elsewhere name d d' := by
  obtain ⟨hlog, hindex, _, hlib, hbh, _, _⟩ := Discovery.appendEvaluation_spec h
  have hinLog : (d'.log.any fun r => r.name = name) = true →
      (d.log.any fun r => r.name = name) = true := by
    rw [hlog]
    exact inLog_take hne
  refine ⟨?_, ?_, ?_, hinLog⟩
  · intro hp
    by_contra hgone
    exact hne (((hbh name).mp ⟨hp, hgone⟩).2).symm
  · intro hp
    by_contra hgone
    exact hne (((hlib name).mp ⟨hp, hgone⟩).2).symm
  · intro ht
    unfold Disk.tested at ht ⊢
    rcases Bool.or_eq_true_iff.mp ht with hi | hl
    · rw [hindex, Function.update_of_ne hne] at hi
      rw [hi, Bool.true_or]
    · rw [hinLog hl, Bool.or_true]

theorem elsewhere_appendRows {name : String} : ∀ (rows : List LogRow) (d : Disk),
    (∀ r ∈ rows, r.name ≠ name) → Elsewhere name d (appendRows rows d) := by
  intro rows
  induction rows with
  | nil => intro d _; exact Elsewhere.refl name d
  | cons r rows ih =>
    intro d hne
    have hrest := ih ((d.appendEvaluation r).getD d) fun x hx => hne x (List.mem_cons_of_mem _ hx)
    refine Elsewhere.trans ?_ hrest
    cases happ : d.appendEvaluation r with
    | none => exact Elsewhere.refl name d
    | some d' => exact elsewhere_append happ (hne r List.mem_cons_self).symm

/-! ## The row that awaits a correction -/

/-- The newest of the first `m` rows of the name lacks the revision. -/
def Unrevised (name : String) (m : ℕ) (log : List LogRow) : Prop :=
  ∃ r, (log.take m).find? (fun r => r.name = name) = some r ∧ r.revised = false

theorem find?_of_take {p : LogRow → Bool} {m : ℕ} {log : List LogRow} {r : LogRow}
    (h : (log.take m).find? p = some r) : log.find? p = some r := by
  rw [← List.take_append_drop m log, List.find?_append, h]
  rfl

theorem correctionPending_iff {d : Disk} {name : String} :
    d.correctionPending name = true ↔
      name ∈ Discovery.CORRECTED_NAMES ∧
        ∃ r, d.log.find? (fun r => r.name = name) = some r ∧ r.revised = false := by
  unfold Disk.correctionPending
  rw [Bool.and_eq_true, decide_eq_true_eq]
  cases d.log.find? (fun r => r.name = name) with
  | none => simp
  | some r => simp

/-- Rows of others move it down by as many places. -/
theorem unrevised_appendRows {name : String} : ∀ (rows : List LogRow) (d : Disk) (m : ℕ),
    (∀ r ∈ rows, r.name ≠ name) → m + rows.length ≤ DISCOVERY_LOG_CAP →
      Unrevised name m d.log → ∃ m', Unrevised name m' (appendRows rows d).log := by
  intro rows
  induction rows with
  | nil => intro d m _ _ h; exact ⟨m, h⟩
  | cons r rows ih =>
    intro d m hne hroom h
    have hlen : m + (rows.length + 1) ≤ DISCOVERY_LOG_CAP := hroom
    have hrest : ∀ x ∈ rows, x.name ≠ name := fun x hx => hne x (List.mem_cons_of_mem _ hx)
    cases happ : d.appendEvaluation r with
    | none =>
      have hsame : appendRows (r :: rows) d = appendRows rows d := by
        unfold appendRows
        rw [List.foldl_cons, happ]
        rfl
      rw [hsame]
      exact ih d m hrest (by omega) h
    | some d' =>
      -- a row of another name pushes the newest row of this one back by one place
      have hstep : appendRows (r :: rows) d = appendRows rows d' := by
        unfold appendRows
        rw [List.foldl_cons, happ]
        rfl
      rw [hstep]
      apply ih d' (m + 1) hrest (by omega)
      obtain ⟨x, hx, hrev⟩ := h
      refine ⟨x, ?_, hrev⟩
      rw [(Discovery.appendEvaluation_spec happ).log, List.take_take, Nat.min_eq_left (by omega),
        List.take_succ_cons, List.find?_cons_of_neg (by simpa using hne r List.mem_cons_self)]
      exact hx

/-! ## Forced seats -/

/-- Forced seats change neither the names of the rows nor their revisions. -/
theorem qualifyNewest_revised (name : String) (rows : List LogRow) :
    (Disk.qualifyNewest name rows).map (fun r => (r.name, r.revised)) =
      rows.map fun r => (r.name, r.revised) := by
  induction rows with
  | nil => rfl
  | cons r rows ih =>
    unfold Disk.qualifyNewest
    split
    next => rfl
    next => rw [List.map_cons, List.map_cons, ih]

theorem foldl_forceSeat_revised (stamp : String) : ∀ (names : List String) (d : Disk),
    (names.foldl (Disk.forceSeat stamp) d).log.map (fun r => (r.name, r.revised)) =
      d.log.map fun r => (r.name, r.revised) := by
  intro names
  induction names with
  | nil => intro d; rfl
  | cons name names ih =>
    intro d
    rw [List.foldl_cons, ih]
    exact qualifyNewest_revised name d.log

theorem forceAdmit_revised (d : Disk) (existing : String → Bool) (forced : List String)
    (stamp : String) :
    (d.forceAdmit existing forced stamp).log.map (fun r => (r.name, r.revised)) =
      d.log.map fun r => (r.name, r.revised) := by
  unfold Disk.forceAdmit
  simp only
  split
  next => rfl
  next => exact foldl_forceSeat_revised stamp _ d

/-- The first row of a name depends on the names and revisions alone. -/
theorem find?_revised {log log' : List LogRow} {name : String}
    (h : log'.map (fun r => (r.name, r.revised)) = log.map fun r => (r.name, r.revised)) :
    (log'.find? fun r => r.name = name).map LogRow.revised =
      (log.find? fun r => r.name = name).map LogRow.revised := by
  have hpair : ∀ l : List LogRow, (l.find? fun r => r.name = name).map LogRow.revised =
      ((l.map fun r => (r.name, r.revised)).find? fun p => p.1 = name).map Prod.snd := by
    intro l
    rw [List.find?_map, Option.map_map]
    rfl
  rw [hpair, hpair, h]

theorem any_name {log log' : List LogRow} {name : String}
    (h : log'.map (fun r => (r.name, r.revised)) = log.map fun r => (r.name, r.revised)) :
    (log'.any fun r => r.name = name) = log.any fun r => r.name = name := by
  have hpair : ∀ l : List LogRow, (l.any fun r => r.name = name) =
      (l.map fun r => (r.name, r.revised)).any fun p => p.1 = name := by
    intro l
    rw [List.any_map]
    rfl
  rw [hpair, hpair, h]

theorem tested_forceAdmit (d : Disk) (existing : String → Bool) (forced : List String)
    (stamp name : String) :
    (d.forceAdmit existing forced stamp).tested name = d.tested name := by
  have hany := @any_name _ _ name (forceAdmit_revised d existing forced stamp)
  unfold Disk.tested
  rw [hany]
  unfold Disk.forceAdmit
  simp only
  split
  next => rfl
  next =>
    show (d.tested name || _) = _
    unfold Disk.tested
    rw [Bool.or_assoc, Bool.or_self]

/-- Whoever is seated by force was asked for, is not known, and is in the log. -/
theorem mem_forceSeats {d : Disk} {name : String} : ∀ {forced : List String} {existing : String → Bool},
    name ∈ d.forceSeats existing forced →
      name ∈ forced ∧ existing name = false ∧ (d.log.any fun r => r.name = name) = true := by
  intro forced
  induction forced with
  | nil => intro existing h; cases h
  | cons head forced ih =>
    intro existing h
    unfold Disk.forceSeats at h
    split at h
    next =>
      obtain ⟨hin, hrest⟩ := ih h
      exact ⟨List.mem_cons_of_mem _ hin, hrest⟩
    next hseat =>
      rw [not_or, not_not] at hseat
      rcases List.mem_cons.mp h with hhead | h
      · rw [hhead]
        exact ⟨List.mem_cons_self, by simpa using hseat.1, hseat.2⟩
      · obtain ⟨hin, hnew, hlog⟩ := ih h
        refine ⟨List.mem_cons_of_mem _ hin, ?_, hlog⟩
        by_cases hne : name = head
        · rw [hne, Function.update_self] at hnew
          cases hnew
        · rwa [Function.update_of_ne hne] at hnew

/-! ## The whole ingest -/

variable {su : Setup} {d : Desk} {p : Payload}

/-- The files after an ingest. -/
def ingestDisk (d : Desk) (p : Payload) (now : ℤ) : Disk :=
  (appendRows (triage d.disk p.existing now d.disk.tested d.requalify p.evals).rows d.disk).forceAdmit
    p.existing (p.forced.map Requalify.strip) p.stamp

theorem disk_forceAdmit (d : Desk) (p : Payload) :
    (d.forceAdmit p).disk =
      d.disk.forceAdmit p.existing (p.forced.map Requalify.strip) p.stamp := by
  unfold Desk.forceAdmit
  simp only
  split
  next hnone =>
    unfold Disk.forceAdmit
    simp only
    rw [if_pos hnone]
  next => rfl

theorem disk_touchWorker (worker : String) (hb : Heartbeat) :
    (d.touchWorker su worker now hb).disk = d.disk := by
  unfold Desk.touchWorker
  simp only
  split <;> rfl

theorem disk_written : (d.written su p now).disk = ingestDisk d p now := by
  unfold Desk.written
  simp only
  rw [disk_forceAdmit, disk_foldl_appendRow]
  rfl

theorem disk_ingest : (d.ingest su p now).disk = ingestDisk d p now := by
  unfold Desk.ingest
  cases p.heartbeat with
  | none => exact disk_written
  | some whb => exact (disk_touchWorker whb.1 whb.2).trans disk_written

/-- The rows of an ingest are of names it clears. -/
theorem elsewhere_ingest {name : String} (hclear : name ∉ d.ingestCleared p now) :
    ∀ r ∈ (triage d.disk p.existing now d.disk.tested d.requalify p.evals).rows, r.name ≠ name := by
  intro r hr heq
  apply hclear
  rw [← heq]
  exact List.mem_append_left _ (triage_rows _ _ _ r hr).2

/-- A name that is tested after an ingest that does not clear it was before. -/
theorem tested_ingest {name : String} (hclear : name ∉ d.ingestCleared p now)
    (h : (ingestDisk d p now).tested name = true) : d.disk.tested name = true := by
  unfold ingestDisk at h
  rw [tested_forceAdmit] at h
  exact (elsewhere_appendRows _ _ (elsewhere_ingest hclear)).tested h

/-- What an ingest must not do to a name for its retest to stay: seat it by force
with a buy-and-hold retest pending, or push its row off the log. -/
structure KeepsRetest (d : Desk) (p : Payload) (name : String) : Prop where
  forced : name ∈ p.forced.map Requalify.strip → p.existing name = false →
    (d.disk.log.any fun r => r.name = name) = true → d.disk.bhQueue name ≠ some .pending
  room : d.disk.correctionPending name = true →
    ((d.disk.log.take (DISCOVERY_LOG_CAP - p.evals.length)).any fun r => r.name = name) = true

theorem bhPending_ingest {name : String} (hkeep : KeepsRetest d p name)
    (hclear : name ∉ d.ingestCleared p now) (h : d.disk.bhQueue name = some .pending) :
    (ingestDisk d p now).bhQueue name = some .pending := by
  have helse := elsewhere_appendRows _ d.disk (elsewhere_ingest hclear)
  unfold ingestDisk
  rw [(Discovery.forceAdmit_frame _ _ _ _).bh name]
  · exact helse.bh h
  · intro hseat
    obtain ⟨hin, hnew, hlog⟩ := mem_forceSeats hseat
    exact hkeep.forced hin hnew (helse.inLog hlog) h

theorem libraryPending_ingest {name : String} (hclear : name ∉ d.ingestCleared p now)
    (h : d.disk.libraryQueue name = some .pending) :
    (ingestDisk d p now).libraryQueue name = some .pending := by
  unfold ingestDisk
  rw [(Discovery.forceAdmit_frame _ _ _ _).library]
  exact (elsewhere_appendRows _ d.disk (elsewhere_ingest hclear)).library h

theorem correctionPending_ingest {name : String} (hkeep : KeepsRetest d p name)
    (hclear : name ∉ d.ingestCleared p now) (h : d.disk.correctionPending name = true) :
    (ingestDisk d p now).correctionPending name = true := by
  obtain ⟨hname, row, hrow, hrev⟩ := correctionPending_iff.mp h
  -- the row is among the first that the new rows leave room for
  have hroom := hkeep.room h
  have htaken : Unrevised name (DISCOVERY_LOG_CAP - p.evals.length) d.disk.log := by
    obtain ⟨x, hx⟩ := Option.isSome_iff_exists.mp
      (List.find?_isSome.mpr (by simpa using hroom) :
        ((d.disk.log.take (DISCOVERY_LOG_CAP - p.evals.length)).find?
          fun r => r.name = name).isSome)
    have hsame := find?_of_take hx
    rw [hrow] at hsame
    exact ⟨x, hx, by rw [← Option.some.inj hsame]; exact hrev⟩
  -- no more rows are logged than evaluations came in
  have hlen : DISCOVERY_LOG_CAP - p.evals.length +
      (triage d.disk p.existing now d.disk.tested d.requalify p.evals).rows.length ≤
        DISCOVERY_LOG_CAP := by
    have hrows := @triage_length d.disk p.existing now p.evals d.disk.tested d.requalify
    have hpos : p.evals.length ≤ DISCOVERY_LOG_CAP := by
      by_contra hbig
      rw [Nat.sub_eq_zero_of_le (by omega)] at hroom
      simp at hroom
    omega
  obtain ⟨m, x, hx, hxrev⟩ :=
    unrevised_appendRows _ d.disk _ (elsewhere_ingest hclear) hlen htaken
  apply correctionPending_iff.mpr
  refine ⟨hname, ?_⟩
  have hfound := @find?_revised _ _ name
    (forceAdmit_revised (appendRows (triage d.disk p.existing now d.disk.tested d.requalify
      p.evals).rows d.disk) p.existing (p.forced.map Requalify.strip) p.stamp)
  rw [find?_of_take hx, Option.map_some, hxrev] at hfound
  obtain ⟨y, hy, hyrev⟩ := Option.map_eq_some_iff.mp hfound
  exact ⟨y, hy, hyrev⟩

/-- A retest that the ingest keeps stays pending. -/
theorem retestPending_ingest {name : String} (hkeep : KeepsRetest d p name)
    (hclear : name ∉ d.ingestCleared p now) (h : retestPending su d.disk name = true) :
    retestPending su (ingestDisk d p now) name = true := by
  simp only [retestPending, pendingRetestNames, pendingLibraryRetestNames,
    pendingSignalCorrectionNames, List.mem_filter, decide_eq_true_eq] at h ⊢
  rcases h with ⟨hin, hp⟩ | ⟨hin, hp⟩ | ⟨hin, hp⟩
  · exact Or.inl ⟨hin, bhPending_ingest hkeep hclear hp⟩
  · exact Or.inr (Or.inl ⟨hin, libraryPending_ingest hclear hp⟩)
  · exact Or.inr (Or.inr ⟨hin, correctionPending_ingest hkeep hclear hp⟩)

end PaperTrading.Leases
