import PaperTrading.Discovery.Results
import PaperTrading.Lib.Merge

/-!
# Pages of the discovery results

`page_result_records` reads one page of the listing of a status. Without a journal
it seeks the base section. With one it merges the latest journal record of each name
onto the base references and leaves out those of names in the journal. The base is
sorted by time and name, the journal's records by time and hash; the merge compares
times and hashes.

The loop looks at a base reference only when the next journal record is not
strictly newer. `mergeLoop_eq` says that it cuts its page from `List.merge` of the
two lists all the same.
-/

namespace PaperTrading.Discovery.Results

open PaperTrading.Lib

/-- The status filter. -/
inductive Status where
  | all
  | pass
  | fail
deriving DecidableEq

/-- `_journal_in_section`, by the qualified flag. -/
def Status.matches : Status → Bool → Bool
  | .all, _ => true
  | .pass, qualified => qualified
  | .fail, qualified => !qualified

/-- `_section_start`, in references from the end of the header, and the section
length. -/
def Table.sectionStart (table : Table) : Status → ℕ × ℕ
  | .pass => (table.count, table.npass)
  | .fail => (table.count + table.npass, table.nfail)
  | .all => (0, table.count)

/-- `_status_total` -/
def Counts.total (c : Counts) : Status → ℤ
  | .pass => c.testedPass
  | .fail => c.testedFail
  | .all => c.unique

/-- `_section_refs` -/
def Table.sectionRefs (table : Table) (status : Status) : List Ref :=
  let (start, len) := table.sectionStart status
  (table.refs.drop start).take len

/-- `_listed_before` -/
def listedBefore (unixA : ℤ) (hashA : ℕ) (unixB : ℤ) (hashB : ℕ) : Bool :=
  let aMissing := decide (unixA ≤ 0)
  let bMissing := decide (unixB ≤ 0)
  if aMissing ≠ bMissing then !aMissing
  else if unixA ≠ unixB then decide (unixA > unixB)
  else decide (hashA ≤ hashB)

namespace Disk
variable (d : Disk)

/-- `_read_span` -/
def readSpan (offset : ℕ) : Option Line := d.lines[offset]?

/-- `_span_name` -/
def spanName (offset : ℕ) : Option String :=
  match d.readSpan offset with
  | some line => if line.strategy = "" then none else some line.strategy
  | none => none

/-- `_page_base` -/
def pageBase (table : Table) (offset limit : ℕ) (status : Status) : List Line :=
  let (start, len) := table.sectionStart status
  if len ≤ offset then []
  else ((table.refs.drop (start + offset)).take (min limit (len - offset))).filterMap fun ref =>
    d.readSpan ref.offset

end Disk

/-- The journal's records by hash, the last of each. -/
def latestByHash (journal : List JournalRecord) : Dict ℕ JournalRecord :=
  journal.foldl (fun latest rec => latest.set rec.nameHash rec) Dict.empty

/-- The order of the journal's records. -/
def itemKey (rec : JournalRecord) : Bool ×ₗ ℤ ×ₗ ℕ := timeKey rec.unix rec.nameHash

/-- The journal's records of a section, in order. -/
def itemsOf (latest : Dict ℕ JournalRecord) (status : Status) : List JournalRecord :=
  sortByKey itemKey ((latest.entries.map Prod.snd).filter fun rec => status.matches rec.qualified)

section
variable (env : Env) (d : Disk) (latest : Dict ℕ JournalRecord)

/-- `resolve_base`: the next base reference of a name that is not in the journal,
with its hash, and what is behind it. -/
def resolveBase : List Ref → Option (Ref × ℕ) × List Ref
  | [] => (none, [])
  | ref :: refs =>
    match d.spanName ref.offset with
    | none => resolveBase refs
    | some name =>
      if env.nameHash name ∈ latest.keys then resolveBase refs
      else (some (ref, env.nameHash name), refs)

/-- The base reference to compare with, unless the journal record is strictly newer
than the next one. -/
def look (items : List JournalRecord) (refs : List Ref) (resolved : Option (Ref × ℕ)) :
    Option (Ref × ℕ) × List Ref :=
  match resolved, refs with
  | none, ref :: _ =>
    if items.head?.any fun rec =>
        listedBefore rec.unix rec.nameHash ref.unix rec.nameHash && rec.unix ≠ ref.unix then
      (none, refs)
    else resolveBase env d latest refs
  | _, _ => (resolved, refs)

/-- The loop of `_page_merged`, with `todo` records left to emit. -/
def mergeLoop (offset : ℕ) : ℕ → ℕ → List JournalRecord → List Ref → Option (Ref × ℕ) → List Line
  | 0, _, _, _, _ => []
  | todo + 1, emitted, items, refs, resolved =>
    let (resolved, refs) := look env d latest items refs resolved
    let emit (at_ : ℕ) (rest : List Line) : List Line :=
      if offset ≤ emitted then (d.readSpan at_).toList ++ rest else rest
    match items, resolved with
    | rec :: items', none => emit rec.offset (mergeLoop offset todo (emitted + 1) items' refs none)
    | rec :: items', some (ref, hashed) =>
      if listedBefore rec.unix rec.nameHash ref.unix hashed then
        emit rec.offset (mergeLoop offset todo (emitted + 1) items' refs (some (ref, hashed)))
      else emit ref.offset (mergeLoop offset todo (emitted + 1) (rec :: items') refs none)
    | [], some (ref, _) => emit ref.offset (mergeLoop offset todo (emitted + 1) [] refs none)
    | [], none => []

/-- `_page_merged` -/
def pageMerged (table : Table) (journal : List JournalRecord) (offset limit : ℕ) (status : Status) :
    List Line :=
  let latest := latestByHash journal
  mergeLoop env d latest offset (offset + limit) 0 (itemsOf latest status) (table.sectionRefs status)
    none

end

/-- `page_result_records`: the records and the total. -/
def pageResultRecords (env : Env) (d : Disk) (p : Process) (offset limit : ℕ) (status : Status) :
    List Line × ℤ :=
  let published := (p.peek d.index).getD ⟨0, 0, 0⟩
  let total := published.total status
  if limit = 0 ∨ total ≤ offset ∨ total ≤ 0 then ([], total)
  else
    match d.index.base with
    | none => ([], total)
    | some table =>
      let journal := d.index.journalRecords
      if journal = [] then (d.pageBase table offset limit status, total)
      else (pageMerged env d table journal offset limit status, total)

/-! ## What the references stand for -/

def Env.hash (env : Env) (row : Stored) : ℕ := env.nameHash row.line.strategy

/-- The merge's comparison. -/
def Env.before (env : Env) (a b : Stored) : Bool :=
  listedBefore (env.unix a) (env.hash a) (env.unix b) (env.hash b)

/-- The row is on its line, and has a name. -/
structure OnLine (lines : List Line) (row : Stored) : Prop where
  line : lines[row.offset]? = some row.line
  named : row.line.strategy ≠ ""

/-- The journal record refers to the row. -/
structure Refers (env : Env) (rec : JournalRecord) (row : Stored) : Prop where
  offset : rec.offset = row.offset
  unix : rec.unix = env.unix row
  qualified : rec.qualified = row.line.qualified
  hash : rec.nameHash = env.hash row

section
variable {env : Env} {d : Disk} {latest : Dict ℕ JournalRecord}

theorem OnLine.spanName {row : Stored} (h : OnLine d.lines row) :
    d.spanName row.offset = some row.line.strategy := by
  unfold Disk.spanName Disk.readSpan
  rw [h.line]
  exact if_neg h.named

/-- The row's name is not in the journal. -/
def visible (env : Env) (latest : Dict ℕ JournalRecord) (row : Stored) : Bool :=
  decide (env.hash row ∉ latest.keys)

/-- A base row that was looked at, as the loop keeps it. -/
def resolvedRef (env : Env) (row : Stored) : Ref × ℕ := (env.ref row, env.hash row)

/-- `resolve_base` finds the next visible row. -/
theorem resolveBase_eq : ∀ {base : List Stored}, (∀ row ∈ base, OnLine d.lines row) →
    ∃ found rest, resolveBase env d latest (base.map env.ref) =
        (found.map (resolvedRef env), rest.map env.ref) ∧
      found.toList ++ rest.filter (visible env latest) = base.filter (visible env latest) ∧
      rest <:+ base ∧ (∀ row ∈ found, OnLine d.lines row) ∧ (found = none → rest = []) := by
  intro base
  induction base with
  | nil =>
    intro _
    exact ⟨none, [], rfl, rfl, List.suffix_refl _, fun _ h => (nomatch h), fun _ => rfl⟩
  | cons row base ih =>
    intro h
    have hrow := h row List.mem_cons_self
    have hread : d.spanName (env.ref row).offset = some row.line.strategy := hrow.spanName
    rw [List.map_cons, resolveBase, hread]
    simp only
    by_cases hin : env.hash row ∈ latest.keys
    · obtain ⟨found, rest, heq, hrest, hsuffix, hfound, hnone⟩ :=
        ih fun r hr => h r (List.mem_cons_of_mem _ hr)
      refine ⟨found, rest, ?_, ?_, hsuffix.trans (List.suffix_cons row base), hfound, hnone⟩
      · exact (if_pos hin).trans heq
      · rw [hrest, List.filter_cons_of_neg (by simp [visible, hin])]
    · refine ⟨some row, base, ?_, ?_, List.suffix_cons row base, ?_, fun hn => (nomatch hn)⟩
      · exact if_neg hin
      · rw [List.filter_cons_of_pos (by simp [visible, hin])]
        rfl
      · intro r hr
        rw [← Option.some.inj hr]
        exact hrow

/-- A base in the order of its times. -/
def ByTime (env : Env) (base : List Stored) : Prop :=
  base.Pairwise fun a b => env.unix b ≤ env.unix a

/-- Missing times are not newer than others, so the comparison is by time and
then hash. -/
theorem listedBefore_iff {unixA unixB : ℤ} {hashA hashB : ℕ} :
    listedBefore unixA hashA unixB hashB = true ↔
      unixB < unixA ∨ unixA = unixB ∧ hashA ≤ hashB := by
  unfold listedBefore
  by_cases hmissing : decide (unixA ≤ 0) = decide (unixB ≤ 0)
  · rw [if_neg (by simpa using hmissing)]
    by_cases hunix : unixA = unixB
    · simp [hunix]
    · simp [hunix]
  · rw [if_pos hmissing]
    simp only [decide_eq_decide, not_iff] at hmissing
    simp only [Bool.not_eq_true', decide_eq_false_iff_not]
    omega

/-- A look leaves the visible base as it was. When it finds no row to compare with,
the next journal record is before all of them, or there are none. -/
theorem look_eq {items : List JournalRecord} {js : List Stored} {found : Option Stored}
    {base : List Stored} (hitems : List.Forall₂ (Refers env) items js)
    (hbase : ∀ row ∈ base, OnLine d.lines row) (hsorted : ByTime env base)
    (hfound : ∀ row ∈ found, OnLine d.lines row) :
    ∃ found' rest, look env d latest items (base.map env.ref) (found.map (resolvedRef env)) =
        (found'.map (resolvedRef env), rest.map env.ref) ∧
      found'.toList ++ rest.filter (visible env latest) =
        found.toList ++ base.filter (visible env latest) ∧
      rest <:+ base ∧ (∀ row ∈ found', OnLine d.lines row) ∧
      (found' = none → rest = [] ∨ ∃ row rows, js = row :: rows ∧ ∀ b ∈ rest, env.before row b = true) := by
  cases found with
  -- a base row that was read before and not listed is still the one
  | some row =>
    refine ⟨some row, base, ?_, rfl, List.suffix_refl _, hfound, fun h => (nomatch h)⟩
    unfold look
    cases base <;> rfl
  | none =>
    cases base with
    | nil => exact ⟨none, [], rfl, rfl, List.suffix_refl _, hfound, fun _ => Or.inl rfl⟩
    | cons b base =>
      obtain ⟨found', rest, heq, hrest, hsuffix, hfound', hnone⟩ :=
        @resolveBase_eq env d latest _ hbase
      cases hitems with
      | nil => exact ⟨found', rest, heq, hrest, hsuffix, hfound', fun h => Or.inl (hnone h)⟩
      | @cons rec row items js hrec hitems =>
        by_cases hnewer : env.unix b < env.unix row
        · -- strictly newer than the next reference, so before it and all behind it
          refine ⟨none, b :: base, ?_, rfl, List.suffix_refl _, fun _ h => (nomatch h), ?_⟩
          · refine if_pos ?_
            show (listedBefore rec.unix rec.nameHash (env.unix b) rec.nameHash &&
              decide (rec.unix ≠ env.unix b)) = true
            rw [Bool.and_eq_true, listedBefore_iff, decide_eq_true_eq, hrec.unix]
            exact ⟨Or.inl hnewer, hnewer.ne'⟩
          · intro _
            refine Or.inr ⟨row, js, rfl, ?_⟩
            intro c hc
            apply listedBefore_iff.mpr
            rcases List.mem_cons.mp hc with rfl | hc
            · exact Or.inl hnewer
            · exact Or.inl (lt_of_le_of_lt ((List.pairwise_cons.mp hsorted).1 c hc) hnewer)
        · refine ⟨found', rest, ?_, hrest, hsuffix, hfound', fun h => Or.inl (hnone h)⟩
          refine (if_neg ?_).trans heq
          show ¬ (listedBefore rec.unix rec.nameHash (env.unix b) rec.nameHash &&
            decide (rec.unix ≠ env.unix b)) = true
          rw [Bool.and_eq_true, listedBefore_iff, decide_eq_true_eq, hrec.unix]
          intro h
          exact h.1.elim hnewer fun heq => h.2 heq.1

/-- The page of the loop is cut from the merge. -/
theorem mergeLoop_eq {offset : ℕ} : ∀ (todo emitted : ℕ) {items : List JournalRecord}
    {js : List Stored} {found : Option Stored} {base : List Stored},
    List.Forall₂ (Refers env) items js → (∀ row ∈ js, OnLine d.lines row) →
    (∀ row ∈ base, OnLine d.lines row) → ByTime env base → (∀ row ∈ found, OnLine d.lines row) →
      mergeLoop env d latest offset todo emitted items (base.map env.ref)
          (found.map (resolvedRef env)) =
        (((List.merge js (found.toList ++ base.filter (visible env latest)) env.before).take
          todo).drop (offset - emitted)).map (·.line) := by
  intro todo
  induction todo with
  | zero => intros; simp [mergeLoop]
  | succ todo ih =>
    intro emitted items js found base hitems hjs hbase hsorted hfound
    obtain ⟨found', rest, hlook, hrest, hsuffix, hfound', hnone⟩ :=
      @look_eq env d latest _ _ _ _ hitems hbase hsorted hfound
    have hbase' : ∀ row ∈ rest, OnLine d.lines row := fun row hrow => hbase row (hsuffix.subset hrow)
    have hsorted' : ByTime env rest := hsorted.sublist hsuffix.sublist
    have hempty : ∀ row ∈ (none : Option Stored), OnLine d.lines row := fun _ h => (nomatch h)
    rw [mergeLoop, hlook, ← hrest]
    -- what an emitted row does to the page
    have hemit : ∀ (row : Stored) (tail : List Stored) (lines : List Line), OnLine d.lines row →
        lines = ((tail.take todo).drop (offset - (emitted + 1))).map (·.line) →
        (if offset ≤ emitted then (d.readSpan row.offset).toList ++ lines else lines) =
          (((row :: tail).take (todo + 1)).drop (offset - emitted)).map (·.line) := by
      intro row tail lines hrow hlines
      rw [hlines, List.take_succ_cons, Disk.readSpan, hrow.line]
      split
      next hle =>
        rw [Nat.sub_eq_zero_of_le hle, Nat.sub_eq_zero_of_le (by omega)]
        rfl
      next hlt =>
        have hsub : offset - emitted = offset - (emitted + 1) + 1 := by omega
        rw [hsub, List.drop_succ_cons]
    cases hitems with
    | nil =>
      cases found' with
      | none =>
        -- neither list has a row left
        have hdone : rest = [] := by
          rcases hnone rfl with h | ⟨row, rows, h, _⟩
          · exact h
          · cases h
        simp [hdone]
      | some row =>
        have hrow := hfound' row rfl
        have htail := ih (emitted + 1) .nil hjs hbase' hsorted' hempty
        rw [Option.toList_none, List.nil_append, List.nil_merge] at htail
        rw [List.nil_merge]
        exact hemit row _ _ hrow htail
    | @cons rec row items js hrec hitems =>
      have hrow := hjs row List.mem_cons_self
      have hjs' : ∀ row ∈ js, OnLine d.lines row := fun r hr => hjs r (List.mem_cons_of_mem _ hr)
      have hread : d.readSpan rec.offset = d.readSpan row.offset := by
        rw [hrec.offset]
      cases found' with
      | none =>
        -- the journal's row is before all that is left of the base
        have hmerge : List.merge (row :: js) (rest.filter (visible env latest)) env.before =
            row :: List.merge js (rest.filter (visible env latest)) env.before := by
          cases hvis : rest.filter (visible env latest) with
          | nil => rw [List.merge_right, List.merge_right]
          | cons c cs =>
            have hc : c ∈ rest := (List.mem_filter.mp (hvis ▸ List.mem_cons_self)).1
            rcases hnone rfl with h | ⟨row', rows, heq, hall⟩
            · rw [h] at hc
              cases hc
            · obtain ⟨rfl, rfl⟩ := List.cons.inj heq
              exact List.cons_merge_cons_pos env.before js cs (hall c hc)
        have htail := ih (emitted + 1) hitems hjs' hbase' hsorted' hempty
        rw [Option.toList_none, List.nil_append] at htail ⊢
        rw [hmerge]
        simp only [hread, Option.map_none]
        exact hemit row _ _ hrow htail
      | some b =>
        have hb := hfound' b rfl
        have hcompare : listedBefore rec.unix rec.nameHash (env.ref b).unix (env.hash b) =
            env.before row b := by
          rw [hrec.unix, hrec.hash]
          rfl
        rw [Option.toList_some, List.singleton_append]
        simp only [Option.map_some, resolvedRef, hread, hcompare]
        by_cases hbefore : env.before row b = true
        · have htail := ih (emitted + 1) hitems hjs' hbase' hsorted' hfound'
          rw [if_pos hbefore, List.cons_merge_cons_pos env.before _ _ hbefore]
          exact hemit row _ _ hrow htail
        · have htail := ih (emitted + 1) (.cons hrec hitems) hjs hbase' hsorted' hempty
          rw [if_neg hbefore, List.cons_merge_cons_neg env.before _ _ hbefore]
          exact hemit b _ _ hb htail

end

end PaperTrading.Discovery.Results
