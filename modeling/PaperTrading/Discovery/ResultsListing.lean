import PaperTrading.Discovery.ResultsCounts
import PaperTrading.Discovery.ResultsPages

/-!
# The listing of the discovery results

The pages of a status, one behind the other, are its listing. With the index in step
with the history, the listing is a merge of two lists of latest rows (`Overlay`): the
rows with a record in the journal, by time and hash, and the others, by time and
name.

`results_listed_iff` says when the listing is what it should be: each name's latest
row once, newest first, and the same after a compaction. Rows of different seconds
are always in order. Rows of one second are listed by hash as long as they are in the
journal and by name behind a compaction, and never by the fraction of the second.
-/

namespace PaperTrading.Discovery.Results

open PaperTrading.Lib

variable {env : Env}

/-! ## Orders -/

section
variable {κ : Type} [LinearOrder κ] {u v : ℤ} {x y : κ}

theorem timeKey_lt_iff : timeKey u x < timeKey v y ↔ v < u ∨ u = v ∧ x < y := by
  unfold timeKey
  rw [Prod.Lex.toLex_lt_toLex, Prod.Lex.toLex_lt_toLex]
  by_cases hu : u ≤ 0
  · by_cases hv : v ≤ 0
    · simp [hu, hv]
    · simp only [hu, hv, decide_true, decide_false]
      constructor
      · intro h
        simp only [Bool.true_eq_false, false_and, or_false] at h
        exact absurd h (by decide)
      · intro h
        omega
  · by_cases hv : v ≤ 0
    · simp only [hu, hv, decide_true, decide_false]
      constructor
      · intro _
        left
        omega
      · intro _
        left
        decide
    · simp [hu, hv]

theorem timeKey_le_iff : timeKey u x ≤ timeKey v y ↔ v < u ∨ u = v ∧ x ≤ y := by
  rw [← not_lt, timeKey_lt_iff, not_or, not_and, not_lt, not_lt]
  constructor
  · intro h
    rcases h.1.lt_or_eq with hlt | heq
    · exact Or.inl hlt
    · exact Or.inr ⟨heq.symm, h.2 heq⟩
  · intro h
    rcases h with h | ⟨rfl, h⟩
    · exact ⟨h.le, fun heq => absurd heq (by omega)⟩
    · exact ⟨le_refl _, fun _ => h⟩

end

/-- The order of the journal's rows. -/
def Env.hashKey (env : Env) (row : Stored) : Bool ×ₗ ℤ ×ₗ ℕ := timeKey (env.unix row) (env.hash row)

theorem before_iff {a b : Stored} : env.before a b = true ↔ env.hashKey a ≤ env.hashKey b := by
  unfold Env.before Env.hashKey
  rw [listedBefore_iff, timeKey_le_iff]

/-! ## The rows of a history -/

theorem OnLine.append {lines : List Line} {row : Stored} (h : OnLine lines row) (rest : List Line) :
    OnLine (lines ++ rest) row := by
  refine ⟨?_, h.named⟩
  have hlt : row.offset < lines.length := (List.getElem?_eq_some_iff.mp h.line).1
  rw [List.getElem?_append_left hlt]
  exact h.line

/-- Every row of a scan is on its line. -/
theorem onLine_scan : ∀ (lines : List Line) {pre : List Line} {rows : Rows},
    (∀ name row, rows.get? name = some row → OnLine pre row) →
    ∀ name row, (scan rows pre.length lines).get? name = some row → OnLine (pre ++ lines) row := by
  intro lines
  induction lines with
  | nil =>
    intro pre rows h name row hrow
    rw [List.append_nil]
    exact h name row hrow
  | cons line lines ih =>
    intro pre rows h name row hrow
    have hnext : ∀ name row, (record rows (line, pre.length)).get? name = some row →
        OnLine (pre ++ [line]) row := by
      intro name row hrow
      unfold Results.record at hrow
      split at hrow
      next => exact (h name row hrow).append _
      next hname =>
        rw [Dict.get?_set] at hrow
        split at hrow
        next =>
          rw [← Option.some.inj hrow]
          exact ⟨by simp, hname⟩
        next => exact (h name row hrow).append _
    have hlen : (pre ++ [line]).length = pre.length + 1 := by simp
    have hrest := ih hnext name row (by rw [hlen]; exact hrow)
    rwa [List.append_assoc, List.singleton_append] at hrest

theorem onLine_latest {lines : List Line} {name : String} {row : Stored}
    (h : (latest lines).get? name = some row) : OnLine lines row :=
  @onLine_scan lines [] Dict.empty (fun _ _ h => (nomatch h)) name row h

/-- The rows of a scan over nothing are where it scanned. -/
theorem le_offset_scan {bound : ℕ} : ∀ (lines : List Line) {rows : Rows} {start : ℕ}, bound ≤ start →
    (∀ name row, rows.get? name = some row → bound ≤ row.offset) →
    ∀ name row, (scan rows start lines).get? name = some row → bound ≤ row.offset := by
  intro lines
  induction lines with
  | nil => intro rows start _ h; exact h
  | cons line lines ih =>
    intro rows start hle h
    apply ih (Nat.le_succ_of_le hle)
    intro name row hrow
    unfold Results.record at hrow
    split at hrow
    next => exact h name row hrow
    next =>
      rw [Dict.get?_set] at hrow
      split at hrow
      next =>
        rw [← Option.some.inj hrow]
        exact hle
      next => exact h name row hrow

/-- A scan finds what is in the lines, and else what was there. -/
theorem get?_scan {rows : Rows} {name : String} : ∀ (lines : List Line) {rows' tail : Rows} (start : ℕ),
    (∀ name, rows'.get? name = (tail.get? name).or (rows.get? name)) →
      (scan rows' start lines).get? name = ((scan tail start lines).get? name).or (rows.get? name) := by
  intro lines
  induction lines with
  | nil => intro rows' tail start h; exact h name
  | cons line lines ih =>
    intro rows' tail start h
    apply ih (start + 1)
    intro name
    unfold Results.record
    split
    next => exact h name
    next =>
      rw [Dict.get?_set, Dict.get?_set]
      split
      next => rfl
      next => exact h name

/-- The rows kept under their names, as a list. -/
theorem mem_rows {rows : Rows} (h : Keyed rows) {row : Stored} :
    row ∈ rows.entries.map Prod.snd ↔ rows.get? row.line.strategy = some row := by
  constructor
  · intro hrow
    obtain ⟨⟨name, r⟩, he, rfl⟩ := List.mem_map.mp hrow
    have hget := Dict.get?_eq_some.mpr he
    rw [(h name r hget).1]
    exact hget
  · intro hget
    exact List.mem_map.mpr ⟨_, Dict.get?_eq_some.mp hget, rfl⟩

/-! ## The base -/

/-- The rows of a section, as a base lists them. -/
def sectionRows (env : Env) (rows : Rows) (status : Status) : List Stored :=
  (env.ordered rows).filter fun row => status.matches row.line.qualified

theorem mem_ordered {rows : Rows} (h : Keyed rows) {row : Stored} :
    row ∈ env.ordered rows ↔ rows.get? row.line.strategy = some row := by
  unfold Env.ordered sortByKey
  rw [List.mem_insertionSort, mem_rows h]

/-- Rows with different names are strictly ordered. -/
theorem ordered_sorted {rows : Rows} (h : Keyed rows) :
    (env.ordered rows).Pairwise fun a b => env.sortKey a < env.sortKey b := by
  have hsorted : (env.ordered rows).Pairwise fun a b => env.sortKey a ≤ env.sortKey b :=
    sortByKey_sorted _
  have hnames : (env.ordered rows).Pairwise fun a b => a.line.strategy ≠ b.line.strategy := by
    have hperm : (env.ordered rows).Perm (rows.entries.map Prod.snd) := List.perm_insertionSort _ _
    refine (hperm.pairwise_iff fun h => h.symm).mpr ?_
    rw [List.pairwise_map]
    have hkeys := List.pairwise_map.mp rows.nodup
    refine hkeys.imp_of_mem ?_
    intro a b ha hb hne heq
    apply hne
    rw [← (h a.1 a.2 (Dict.get?_eq_some.mpr ha)).1, heq, (h b.1 b.2 (Dict.get?_eq_some.mpr hb)).1]
  refine hsorted.imp₂ ?_ hnames
  intro a b hle hne
  apply lt_of_le_of_ne hle
  intro heq
  apply hne
  have := congrArg (fun k => (ofLex (ofLex k).2).2) heq
  exact this

theorem mem_sectionRows {rows : Rows} (h : Keyed rows) {status : Status} {row : Stored} :
    row ∈ sectionRows env rows status ↔
      rows.get? row.line.strategy = some row ∧ status.matches row.line.qualified = true := by
  unfold sectionRows
  rw [List.mem_filter, mem_ordered h]

theorem sectionRows_sorted {rows : Rows} (h : Keyed rows) (status : Status) :
    (sectionRows env rows status).Pairwise fun a b => env.sortKey a < env.sortKey b :=
  (ordered_sorted h).sublist List.filter_sublist

/-- The references of a section, in the table of some rows. -/
theorem sectionRefs_indexBytes (rows : Rows) (status : Status) :
    (env.indexBytes rows).sectionRefs status = (sectionRows env rows status).map env.ref := by
  unfold Table.sectionRefs Env.indexBytes sectionRows
  cases status with
  | all =>
    simp only [Table.sectionStart, Status.matches, List.drop_zero, List.filter_true, List.append_assoc,
      List.map_append]
    rw [List.take_left' (List.length_map _)]
  | pass =>
    simp only [Table.sectionStart, Status.matches, List.append_assoc, List.map_append]
    rw [List.drop_left' (List.length_map _), List.take_left' (List.length_map _)]
  | fail =>
    simp only [Table.sectionStart, Status.matches, List.map_append]
    rw [List.drop_left' (by rw [List.length_append, List.length_map, List.length_map]),
      List.take_of_length_le (List.length_map _).le]

/-- A page of the base is cut from the section. -/
theorem pageBase_eq (d : Disk) (table : Table) (offset limit : ℕ) (status : Status) :
    d.pageBase table offset limit status =
      (((table.sectionRefs status).drop offset).take limit).filterMap fun ref =>
        d.readSpan ref.offset := by
  unfold Disk.pageBase Table.sectionRefs
  simp only
  rw [List.drop_take, List.take_take, List.drop_drop]
  split
  next hle => rw [Nat.sub_eq_zero_of_le hle, Nat.min_zero, List.take_zero, List.filterMap_nil]
  next => rfl

/-- The lines that references of rows point to. -/
theorem readSpan_rows {d : Disk} {rows : List Stored} (h : ∀ row ∈ rows, OnLine d.lines row) :
    ((rows.map env.ref).filterMap fun ref => d.readSpan ref.offset) = rows.map (·.line) := by
  rw [List.filterMap_map, ← List.filterMap_eq_map']
  apply List.filterMap_congr
  intro row hrow
  exact (h row hrow).line

/-! ## The journal -/

/-- A record the journal has under a hash was there, or is one of the journal's with
that hash. -/
theorem get?_foldl_hash {h : ℕ} {rec : JournalRecord} : ∀ (journal : List JournalRecord)
    {start : Dict ℕ JournalRecord},
    (journal.foldl (fun latest rec => latest.set rec.nameHash rec) start).get? h = some rec →
      start.get? h = some rec ∨ rec ∈ journal ∧ rec.nameHash = h := by
  intro journal
  induction journal with
  | nil => intro start hget; exact Or.inl hget
  | cons r journal ih =>
    intro start hget
    rcases ih hget with hstart | ⟨hmem, hhash⟩
    · rw [Dict.get?_set] at hstart
      split at hstart
      next heq =>
        obtain rfl := Option.some.inj hstart
        exact Or.inr ⟨List.mem_cons_self, heq.symm⟩
      next => exact Or.inl hstart
    · exact Or.inr ⟨List.mem_cons_of_mem _ hmem, hhash⟩

theorem mem_journalOf {rec : JournalRecord} : ∀ (lines : List Line) {rows : Rows} {start : ℕ},
    rec ∈ journalOf env rows start lines → ∃ line ∈ lines, rec.nameHash = env.nameHash line.strategy := by
  intro lines
  induction lines with
  | nil => intro rows start h; cases h
  | cons line lines ih =>
    intro rows start h
    rcases List.mem_cons.mp h with rfl | h
    · exact ⟨line, List.mem_cons_self, rfl⟩
    · obtain ⟨l, hl, heq⟩ := ih h
      exact ⟨l, List.mem_cons_of_mem _ hl, heq⟩

/-- The records of lines refer to their places, one after the other. -/
theorem offsets_journalOf : ∀ (lines : List Line) (rows : Rows) (start : ℕ),
    (journalOf env rows start lines).map (·.offset) = List.range' start lines.length := by
  intro lines
  induction lines with
  | nil => intros; rfl
  | cons line lines ih =>
    intro rows start
    rw [journalOf, List.map_cons, ih, List.length_cons, List.range'_succ]
    rfl

/-- The last record under each name's hash refers to the name's latest row, when
different names have different hashes. -/
theorem refers_latestByHash {names : Set String} (hinj : names.InjOn env.nameHash) :
    ∀ (lines : List Line) {rows tail : Rows} {start : ℕ} {latest : Dict ℕ JournalRecord},
      (∀ line ∈ lines, line.strategy ∈ names ∧ line.strategy ≠ "") →
      (∀ name ∈ names, Option.Rel (Refers env) (latest.get? (env.nameHash name)) (tail.get? name)) →
      ∀ name ∈ names, Option.Rel (Refers env)
        (((journalOf env rows start lines).foldl (fun latest rec => latest.set rec.nameHash rec)
          latest).get? (env.nameHash name)) ((scan tail start lines).get? name) := by
  intro lines
  induction lines with
  | nil => intro rows tail start latest _ h; exact h
  | cons line lines ih =>
    intro rows tail start latest hlines h
    obtain ⟨hline, hnamed⟩ := hlines line List.mem_cons_self
    apply ih fun l hl => hlines l (List.mem_cons_of_mem _ hl)
    intro name hname
    unfold Results.record
    rw [if_neg hnamed, Dict.get?_set, Dict.get?_set]
    by_cases heq : name = line.strategy
    · have hhash : (env.journalRecord rows (line, start)).nameHash = env.nameHash line.strategy := rfl
      rw [heq, hhash, if_pos rfl, if_pos rfl]
      exact .some ⟨rfl, rfl, rfl, rfl⟩
    · have hne : ¬ env.nameHash name =
          (env.journalRecord rows (line, start)).nameHash := fun hh => heq (hinj hname hline hh)
      rw [if_neg heq, if_neg hne]
      exact h name hname

/-! ## Rows of the base and rows of the journal -/

/-- The latest rows among the lines from `n` on. -/
def tailRows (lines : List Line) (n : ℕ) : Rows := scan Dict.empty n (lines.drop n)

section
variable {lines : List Line} {n : ℕ}

theorem get?_latest (hn : n ≤ lines.length) (name : String) : (latest lines).get? name =
    ((tailRows lines n).get? name).or ((latest (lines.take n)).get? name) := by
  have hlen : (lines.take n).length = n := List.length_take_of_le hn
  conv_lhs => rw [← List.take_append_drop n lines, latest_append, hlen]
  exact get?_scan (lines.drop n) n fun _ => rfl

theorem onLine_tail (hn : n ≤ lines.length) {name : String} {row : Stored}
    (h : (tailRows lines n).get? name = some row) : OnLine lines row ∧ n ≤ row.offset := by
  have hlen : (lines.take n).length = n := List.length_take_of_le hn
  constructor
  · have hscan := @onLine_scan (lines.drop n) (lines.take n) Dict.empty (fun _ _ h => (nomatch h)) name row
    rw [hlen, List.take_append_drop] at hscan
    exact hscan h
  · exact @le_offset_scan n (lines.drop n) Dict.empty n (le_refl n) (fun _ _ h => (nomatch h)) name row h

theorem onLine_old {name : String} {row : Stored} (h : (latest (lines.take n)).get? name = some row) :
    OnLine lines row ∧ row.offset < n := by
  have hold := onLine_latest h
  constructor
  · have := hold.append (lines.drop n)
    rwa [List.take_append_drop] at this
  · have hlt := (List.getElem?_eq_some_iff.mp hold.line).1
    exact lt_of_lt_of_le hlt (List.length_take_le n lines)

/-- A name's latest row is behind the base when the lines there have one. -/
theorem tail_iff (hn : n ≤ lines.length) {name : String} {row : Stored} :
    (tailRows lines n).get? name = some row ↔ (latest lines).get? name = some row ∧ n ≤ row.offset := by
  rw [get?_latest hn]
  constructor
  · intro h
    rw [h]
    exact ⟨rfl, (onLine_tail hn h).2⟩
  · intro h
    obtain ⟨hget, hle⟩ := h
    cases htail : (tailRows lines n).get? name with
    | none =>
      rw [htail, Option.none_or] at hget
      exact absurd (onLine_old hget).2 (by omega)
    | some r =>
      rw [htail, Option.some_or] at hget
      exact hget

/-- Else it is the one of the base. -/
theorem old_iff (hn : n ≤ lines.length) {name : String} {row : Stored} :
    (tailRows lines n).get? name = none ∧ (latest (lines.take n)).get? name = some row ↔
      (latest lines).get? name = some row ∧ row.offset < n := by
  rw [get?_latest hn]
  constructor
  · intro h
    rw [h.1, Option.none_or]
    exact ⟨h.2, (onLine_old h.2).2⟩
  · intro h
    obtain ⟨hget, hlt⟩ := h
    cases htail : (tailRows lines n).get? name with
    | none =>
      rw [htail, Option.none_or] at hget
      exact ⟨rfl, hget⟩
    | some r =>
      rw [htail, Option.some_or] at hget
      have hle := (onLine_tail hn htail).2
      rw [Option.some.inj hget] at hle
      omega

end

/-- The journal has the record of the row. -/
def InJournal (d : Disk) (row : Stored) : Prop := ∃ rec ∈ d.index.journalRecords, rec.offset = row.offset

/-- The row a journal record refers to. -/
def stored (d : Disk) (rec : JournalRecord) : Stored := ⟨d.lines.getD rec.offset default, rec.offset⟩

theorem stored_eq {d : Disk} {rec : JournalRecord} {row : Stored} (h : Refers env rec row)
    (hrow : OnLine d.lines row) : stored d rec = row := by
  unfold stored
  rw [h.offset, List.getD_eq_getElem?_getD, hrow.line]
  rfl

/-- The index of `d` is a base over the first `n` lines and a journal of the rest. -/
structure Based (env : Env) (d : Disk) (n : ℕ) : Prop where
  le : n ≤ d.lines.length
  named : ∀ line ∈ d.lines.drop n, line.strategy ≠ ""
  journal : d.index.journalRecords = journalOf env (latest (d.lines.take n)) n (d.lines.drop n)
  injective : {name | ∃ line ∈ d.lines, line.strategy = name}.InjOn env.nameHash

section
variable {d : Disk} {n : ℕ}

theorem Based.inJournal_iff (h : Based env d n) {row : Stored} (hrow : OnLine d.lines row) :
    InJournal d row ↔ n ≤ row.offset := by
  have hoffsets := @offsets_journalOf env (d.lines.drop n) (latest (d.lines.take n)) n
  rw [← h.journal] at hoffsets
  have hlt := (List.getElem?_eq_some_iff.mp hrow.line).1
  have hmem : InJournal d row ↔ row.offset ∈ d.index.journalRecords.map (·.offset) := by
    rw [List.mem_map]
    exact Iff.rfl
  have hle := h.le
  rw [hmem, hoffsets, List.mem_range'_1, List.length_drop]
  omega

/-- The last record under a name's hash refers to the name's row behind the
base. -/
theorem Based.rel (h : Based env d n) : ∀ name ∈ {name | ∃ line ∈ d.lines, line.strategy = name},
    Option.Rel (Refers env) ((latestByHash d.index.journalRecords).get? (env.nameHash name))
      ((tailRows d.lines n).get? name) := by
  rw [h.journal]
  apply refers_latestByHash h.injective
  · intro line hline
    exact ⟨⟨line, List.mem_of_mem_drop hline, rfl⟩, h.named line hline⟩
  · intro name _
    exact .none

/-- What the journal has under a hash. -/
theorem Based.latest_row (h : Based env d n) {hash : ℕ} {rec : JournalRecord}
    (hget : (latestByHash d.index.journalRecords).get? hash = some rec) :
    rec.nameHash = hash ∧ ∃ row, (tailRows d.lines n).get? row.line.strategy = some row ∧
      Refers env rec row ∧ stored d rec = row := by
  rcases get?_foldl_hash _ hget with hstart | ⟨hmem, hhash⟩
  · cases hstart
  · refine ⟨hhash, ?_⟩
    rw [h.journal] at hmem
    obtain ⟨line, hline, heq⟩ := mem_journalOf _ hmem
    have hrel := h.rel line.strategy ⟨line, List.mem_of_mem_drop hline, rfl⟩
    rw [← heq, hhash, hget] at hrel
    cases htail : (tailRows d.lines n).get? line.strategy with
    | none =>
      rw [htail] at hrel
      cases hrel
    | some row =>
      rw [htail] at hrel
      cases hrel with
      | some hrefers =>
        have hkeyed : Keyed (tailRows d.lines n) := keyed_scan _ _ fun _ _ h => (nomatch h)
        refine ⟨row, ?_, hrefers, stored_eq hrefers (onLine_tail h.le htail).1⟩
        rw [(hkeyed _ _ htail).1]
        exact htail

/-- The rows the journal's records of a section refer to, in order. -/
def journalRows (d : Disk) (status : Status) : List Stored :=
  (itemsOf (latestByHash d.index.journalRecords) status).map (stored d)

/-- The rows of the base whose names are not in the journal. -/
def baseRows (env : Env) (d : Disk) (n : ℕ) (status : Status) : List Stored :=
  (sectionRows env (latest (d.lines.take n)) status).filter
    (visible env (latestByHash d.index.journalRecords))

/-- An item of the journal is the last under its hash, and refers to a row of its
section. -/
theorem Based.item (h : Based env d n) {status : Status} {rec : JournalRecord}
    (hrec : rec ∈ itemsOf (latestByHash d.index.journalRecords) status) :
    ∃ row, (tailRows d.lines n).get? row.line.strategy = some row ∧ Refers env rec row ∧
      stored d rec = row ∧ status.matches row.line.qualified = true := by
  unfold itemsOf sortByKey at hrec
  rw [List.mem_insertionSort, List.mem_filter, List.mem_map] at hrec
  obtain ⟨⟨⟨hash, r⟩, he, rfl⟩, hmatch⟩ := hrec
  obtain ⟨_, row, hrow, hrefers, hstored⟩ := h.latest_row (Dict.get?_eq_some.mpr he)
  exact ⟨row, hrow, hrefers, hstored, hrefers.qualified ▸ hmatch⟩

theorem Based.refers_items (h : Based env d n) (status : Status) :
    List.Forall₂ (Refers env) (itemsOf (latestByHash d.index.journalRecords) status)
      (journalRows d status) := by
  unfold journalRows
  rw [List.forall₂_map_right_iff, List.forall₂_same]
  intro rec hrec
  obtain ⟨row, _, hrefers, hstored, _⟩ := h.item hrec
  rw [hstored]
  exact hrefers

theorem Based.mem_journalRows (h : Based env d n) {status : Status} {row : Stored} :
    row ∈ journalRows d status ↔ (tailRows d.lines n).get? row.line.strategy = some row ∧
      status.matches row.line.qualified = true := by
  unfold journalRows
  rw [List.mem_map]
  constructor
  · intro hrow
    obtain ⟨rec, hrec, rfl⟩ := hrow
    obtain ⟨row, hrow, _, hstored, hmatch⟩ := h.item hrec
    rw [hstored]
    exact ⟨hrow, hmatch⟩
  · intro hrow
    obtain ⟨htail, hmatch⟩ := hrow
    -- the latest line of the name is on record under its digest
    have honline := (onLine_tail h.le htail).1
    have hname : row.line.strategy ∈ {name | ∃ line ∈ d.lines, line.strategy = name} :=
      ⟨row.line, List.mem_of_getElem? honline.line, rfl⟩
    have hrel := h.rel _ hname
    rw [htail] at hrel
    cases hget : (latestByHash d.index.journalRecords).get? (env.nameHash row.line.strategy) with
    | none =>
      rw [hget] at hrel
      cases hrel
    | some rec =>
      rw [hget] at hrel
      cases hrel with
      | some hrefers =>
        refine ⟨rec, ?_, stored_eq hrefers honline⟩
        unfold itemsOf sortByKey
        rw [List.mem_insertionSort, List.mem_filter, List.mem_map, hrefers.qualified]
        exact ⟨⟨_, Dict.get?_eq_some.mp hget, rfl⟩, hmatch⟩

/-- The journal's rows are strictly ordered by time and hash. -/
theorem Based.journalRows_sorted (h : Based env d n) (status : Status) :
    (journalRows d status).Pairwise fun a b => env.hashKey a < env.hashKey b := by
  have hsorted : (itemsOf (latestByHash d.index.journalRecords) status).Pairwise
      fun a b => itemKey a ≤ itemKey b := sortByKey_sorted _
  have hhash : (itemsOf (latestByHash d.index.journalRecords) status).Pairwise
      fun a b => a.nameHash ≠ b.nameHash := by
    have hperm : (itemsOf (latestByHash d.index.journalRecords) status).Perm
        (((latestByHash d.index.journalRecords).entries.map Prod.snd).filter
          fun rec => status.matches rec.qualified) := List.perm_insertionSort _ _
    refine (hperm.pairwise_iff fun h => h.symm).mpr (List.Pairwise.sublist List.filter_sublist ?_)
    rw [List.pairwise_map]
    refine (List.pairwise_map.mp (latestByHash d.index.journalRecords).nodup).imp_of_mem ?_
    intro a b ha hb hne heq
    apply hne
    rw [← (h.latest_row (Dict.get?_eq_some.mpr ha)).1, heq,
      (h.latest_row (Dict.get?_eq_some.mpr hb)).1]
  unfold journalRows
  rw [List.pairwise_map]
  refine (hsorted.imp₂ (fun _ _ hle hne => And.intro hle hne) hhash).imp_of_mem ?_
  intro a b ha hb hab
  obtain ⟨rowA, _, hrefersA, hstoredA, _⟩ := h.item ha
  obtain ⟨rowB, _, hrefersB, hstoredB, _⟩ := h.item hb
  obtain ⟨hle, hne⟩ := hab
  unfold itemKey at hle
  rw [hrefersA.unix, hrefersB.unix, hrefersA.hash, hrefersB.hash, timeKey_le_iff] at hle
  rw [hrefersA.hash, hrefersB.hash] at hne
  rw [hstoredA, hstoredB]
  exact timeKey_lt_iff.mpr (hle.imp id fun h => ⟨h.1, lt_of_le_of_ne h.2 hne⟩)

theorem Based.mem_baseRows (h : Based env d n) {status : Status} {row : Stored} :
    row ∈ baseRows env d n status ↔ ((tailRows d.lines n).get? row.line.strategy = none ∧
      (latest (d.lines.take n)).get? row.line.strategy = some row) ∧
        status.matches row.line.qualified = true := by
  unfold baseRows
  rw [List.mem_filter, mem_sectionRows (keyed_latest _)]
  -- no digest in the journal is no line behind the base, as the digests tell names apart
  have hvisible : (latest (d.lines.take n)).get? row.line.strategy = some row →
      (visible env (latestByHash d.index.journalRecords) row = true ↔
        (tailRows d.lines n).get? row.line.strategy = none) := by
    intro hold
    have hname : row.line.strategy ∈ {name | ∃ line ∈ d.lines, line.strategy = name} :=
      ⟨row.line, List.mem_of_getElem? (onLine_old hold).1.line, rfl⟩
    have hrel := h.rel _ hname
    unfold visible Env.hash
    rw [decide_eq_true_eq, ← Dict.get?_eq_none]
    constructor
    · intro hnone
      rw [hnone] at hrel
      cases htail : (tailRows d.lines n).get? row.line.strategy with
      | none => rfl
      | some r =>
        rw [htail] at hrel
        cases hrel
    · intro hnone
      rw [hnone] at hrel
      cases hget : (latestByHash d.index.journalRecords).get? (env.nameHash row.line.strategy) with
      | none => rfl
      | some r =>
        rw [hget] at hrel
        cases hrel
  constructor
  · intro hrow
    obtain ⟨⟨hold, hmatch⟩, hvis⟩ := hrow
    exact ⟨⟨(hvisible hold).mp hvis, hold⟩, hmatch⟩
  · intro hrow
    obtain ⟨⟨hnone, hold⟩, hmatch⟩ := hrow
    exact ⟨⟨hold, hmatch⟩, (hvisible hold).mpr hnone⟩

/-! ## A page -/

/-- The listing: the journal's rows merged with those of the base. -/
def listing (env : Env) (d : Disk) (n : ℕ) (status : Status) : List Stored :=
  List.merge (journalRows d status) (baseRows env d n status) env.before

/-- Every page is cut from the listing. -/
theorem Based.page_eq (h : Based env d n) {table : Table}
    (htable : table = env.indexBytes (latest (d.lines.take n))) (offset limit : ℕ) (status : Status) :
    (if d.index.journalRecords = [] then d.pageBase table offset limit status
      else pageMerged env d table d.index.journalRecords offset limit status) =
      (((listing env d n status).drop offset).take limit).map (·.line) := by
  have hrefs : table.sectionRefs status =
      (sectionRows env (latest (d.lines.take n)) status).map env.ref := by
    rw [htable, sectionRefs_indexBytes]
  have hbase : ∀ row ∈ sectionRows env (latest (d.lines.take n)) status, OnLine d.lines row := by
    intro row hrow
    exact (onLine_old ((mem_sectionRows (keyed_latest _)).mp hrow).1).1
  split
  next hnil =>
    -- nothing is in the journal, so nothing is hidden
    have hlisting : listing env d n status = sectionRows env (latest (d.lines.take n)) status := by
      unfold listing journalRows baseRows
      rw [hnil]
      show List.merge [] _ _ = _
      rw [List.nil_merge]
      exact List.filter_eq_self.mpr fun row _ => rfl
    rw [pageBase_eq, hrefs, hlisting, ← List.map_drop, ← List.map_take]
    apply readSpan_rows
    intro row hrow
    exact hbase row (List.mem_of_mem_drop (List.mem_of_mem_take hrow))
  next =>
    -- the loop of the merge, over a section that is newest first
    have hsorted : ByTime env (sectionRows env (latest (d.lines.take n)) status) := by
      refine (sectionRows_sorted (keyed_latest _) status).imp ?_
      intro a b hlt
      rcases timeKey_lt_iff.mp hlt with hlt | ⟨heq, _⟩
      · exact hlt.le
      · exact heq.ge
    have hjournal : ∀ row ∈ journalRows d status, OnLine d.lines row := fun row hrow =>
      (onLine_tail h.le (h.mem_journalRows.mp hrow).1).1
    have hloop := @mergeLoop_eq env d (latestByHash d.index.journalRecords) offset (offset + limit) 0
      _ _ none _ (h.refers_items status) hjournal hbase hsorted fun _ hn => (nomatch hn)
    unfold pageMerged
    rw [hrefs]
    refine hloop.trans ?_
    rw [Option.toList_none, List.nil_append, Nat.sub_zero, List.drop_take, Nat.add_sub_cancel_left]
    rfl

/-! ## What is listed -/

/-- A name's latest row, in the section of the status. -/
def Matching (d : Disk) (status : Status) (row : Stored) : Prop :=
  (latest d.lines).get? row.line.strategy = some row ∧ status.matches row.line.qualified = true

theorem Matching.onLine {status : Status} {row : Stored} (h : Matching d status row) :
    OnLine d.lines row := onLine_latest h.1

theorem Based.mem_journal_iff (h : Based env d n) {status : Status} {row : Stored} :
    row ∈ journalRows d status ↔ Matching d status row ∧ InJournal d row := by
  rw [h.mem_journalRows, tail_iff h.le]
  constructor
  · intro hrow
    obtain ⟨⟨hget, hle⟩, hmatch⟩ := hrow
    exact ⟨⟨hget, hmatch⟩, (h.inJournal_iff (onLine_latest hget)).mpr hle⟩
  · intro hrow
    obtain ⟨hmatch, hin⟩ := hrow
    exact ⟨⟨hmatch.1, (h.inJournal_iff hmatch.onLine).mp hin⟩, hmatch.2⟩

theorem Based.mem_base_iff (h : Based env d n) {status : Status} {row : Stored} :
    row ∈ baseRows env d n status ↔ Matching d status row ∧ ¬ InJournal d row := by
  rw [h.mem_baseRows, old_iff h.le]
  constructor
  · intro hrow
    obtain ⟨⟨hget, hlt⟩, hmatch⟩ := hrow
    refine ⟨⟨hget, hmatch⟩, ?_⟩
    rw [h.inJournal_iff (onLine_latest hget)]
    omega
  · intro hrow
    obtain ⟨hmatch, hnot⟩ := hrow
    rw [h.inJournal_iff hmatch.onLine] at hnot
    exact ⟨⟨hmatch.1, by omega⟩, hmatch.2⟩

theorem mem_sectionRows_iff {status : Status} {row : Stored} :
    row ∈ sectionRows env (latest d.lines) status ↔ Matching d status row :=
  mem_sectionRows (keyed_latest _)

theorem nodup_of_sorted {κ : Type} [LinearOrder κ] {key : Stored → κ} {rows : List Stored}
    (h : rows.Pairwise fun a b => key a < key b) : rows.Nodup :=
  h.imp fun hlt heq => absurd (congrArg key heq) hlt.ne

theorem baseRows_sorted (status : Status) :
    (baseRows env d n status).Pairwise fun a b => env.sortKey a < env.sortKey b :=
  (sectionRows_sorted (keyed_latest _) status).sublist List.filter_sublist

/-- The listing has the rows that a base of the whole history would have. -/
theorem Based.listing_perm (h : Based env d n) (status : Status) :
    (listing env d n status).Perm (sectionRows env (latest d.lines) status) := by
  refine (List.merge_perm_append env.before).trans ?_
  refine (List.perm_ext_iff_of_nodup ?_ (nodup_of_sorted (sectionRows_sorted (keyed_latest _) status))).mpr ?_
  · refine (nodup_of_sorted (h.journalRows_sorted status)).append (nodup_of_sorted (baseRows_sorted status)) ?_
    intro row hj hb
    exact (h.mem_base_iff.mp hb).2 (h.mem_journal_iff.mp hj).2
  · intro row
    rw [List.mem_append, h.mem_journal_iff, h.mem_base_iff, mem_sectionRows_iff]
    constructor
    · intro hrow
      exact hrow.elim (·.1) (·.1)
    · intro hrow
      by_cases hin : InJournal d row
      · exact Or.inl ⟨hrow, hin⟩
      · exact Or.inr ⟨hrow, hin⟩

/-- Without journal records the base is over all lines. -/
theorem Based.listing_compacted (h : Based env d n) (hnil : d.index.journalRecords = [])
    (status : Status) : listing env d n status = sectionRows env (latest d.lines) status := by
  have hle := h.le
  have hn : n = d.lines.length := by
    have hoffsets := @offsets_journalOf env (d.lines.drop n) (latest (d.lines.take n)) n
    rw [← h.journal, hnil] at hoffsets
    have hlen := congrArg List.length hoffsets
    rw [List.length_range', List.length_drop] at hlen
    simp only [List.map_nil, List.length_nil] at hlen
    omega
  have hlines : d.lines.take n = d.lines := by
    rw [hn, List.take_length]
  unfold listing journalRows baseRows
  rw [hnil, hlines]
  show List.merge [] _ _ = _
  rw [List.nil_merge]
  exact List.filter_eq_self.mpr fun row _ => rfl

/-! ## Rows of one second -/

/-- The condition on the rows of one second that are listed. By names they are in
the order of their instants. Two in the journal have hashes in the order of their
names. And of one in the journal and one in the base, the one in the base has the
smaller name just when it and all rows of the base with smaller names have smaller
hashes. -/
structure InOrder (env : Env) (d : Disk) (status : Status) : Prop where
  seconds : ∀ a b, Matching d status a → Matching d status b → env.unix a = env.unix b →
    a.line.strategy < b.line.strategy → env.instant b.line.testedAt ≤ env.instant a.line.testedAt
  journal : ∀ a b, Matching d status a → Matching d status b → InJournal d a → InJournal d b →
    env.unix a = env.unix b → env.hash a < env.hash b → a.line.strategy < b.line.strategy
  base : ∀ a b, Matching d status a → Matching d status b → InJournal d a → ¬ InJournal d b →
    env.unix a = env.unix b → (b.line.strategy < a.line.strategy ↔
      ∀ c, Matching d status c → ¬ InJournal d c → env.unix c = env.unix a →
        c.line.strategy ≤ b.line.strategy → env.hash c < env.hash a)

theorem instant_unix {a b : Stored} (h : env.instant a.line.testedAt ≤ env.instant b.line.testedAt) :
    env.unix a ≤ env.unix b := Int.tdiv_le_tdiv (by decide) h

/-- A section is newest first when its rows of one second are. -/
theorem newest_iff {status : Status} :
    (sectionRows env (latest d.lines) status).Pairwise
        (fun a b => env.instant b.line.testedAt ≤ env.instant a.line.testedAt) ↔
      ∀ a b, Matching d status a → Matching d status b → env.unix a = env.unix b →
        a.line.strategy < b.line.strategy →
          env.instant b.line.testedAt ≤ env.instant a.line.testedAt := by
  rw [pairwise_iff_of_sorted (sectionRows_sorted (keyed_latest _) status)]
  constructor
  · intro h a b ha hb hunix hname
    exact h a (mem_sectionRows_iff.mpr ha) b (mem_sectionRows_iff.mpr hb)
      (timeKey_lt_iff.mpr (Or.inr ⟨hunix, hname⟩))
  · intro h a ha b hb hlt
    rcases timeKey_lt_iff.mp hlt with hunix | ⟨hunix, hname⟩
    · -- of different seconds the newer one is first
      by_contra hnewer
      have := instant_unix (not_le.mp hnewer).le
      omega
    · exact h a b (mem_sectionRows_iff.mp ha) (mem_sectionRows_iff.mp hb) hunix hname

/-- Different latest rows have different names, so one sorts before the other. -/
theorem sortKey_ne {status : Status} {a b : Stored} (ha : Matching d status a) (hb : Matching d status b)
    (hne : a ≠ b) : env.sortKey a ≠ env.sortKey b := by
  intro heq
  have hname : a.line.strategy = b.line.strategy := congrArg (fun k => (ofLex (ofLex k).2).2) heq
  have hget := ha.1
  rw [hname, hb.1] at hget
  exact hne (Option.some.inj hget).symm

/-- The journal's rows are in the order of names when the condition on pairs of them
holds. -/
theorem Based.journal_iff (h : Based env d n) {status : Status} :
    (journalRows d status).Pairwise (fun a b => env.sortKey a < env.sortKey b) ↔
      ∀ a b, Matching d status a → Matching d status b → InJournal d a → InJournal d b →
        env.unix a = env.unix b → env.hash a < env.hash b → a.line.strategy < b.line.strategy := by
  rw [pairwise_iff_of_sorted (h.journalRows_sorted status)]
  constructor
  · intro hsort a b ha hb hja hjb hunix hhash
    have hlt := hsort a (h.mem_journal_iff.mpr ⟨ha, hja⟩) b (h.mem_journal_iff.mpr ⟨hb, hjb⟩)
      (timeKey_lt_iff.mpr (Or.inr ⟨hunix, hhash⟩))
    rcases timeKey_lt_iff.mp hlt with hlt | hlt
    · omega
    · exact hlt.2
  · intro htie a ha b hb hlt
    obtain ⟨ha, hja⟩ := h.mem_journal_iff.mp ha
    obtain ⟨hb, hjb⟩ := h.mem_journal_iff.mp hb
    rcases timeKey_lt_iff.mp hlt with hunix | ⟨hunix, hhash⟩
    · exact timeKey_lt_iff.mpr (Or.inl hunix)
    · exact timeKey_lt_iff.mpr (Or.inr ⟨hunix, htie a b ha hb hja hjb hunix hhash⟩)

/-- A base row and all in front of it are taken ahead of a row of the journal. -/
def Ahead (env : Env) (base : List Stored) (a b : Stored) : Prop :=
  ∀ c ∈ base, env.sortKey c ≤ env.sortKey b → env.hashKey c < env.hashKey a

/-- Only rows of the same second matter to where a row of the journal is put. -/
theorem Based.ahead_iff (h : Based env d n) {status : Status} {a b : Stored}
    (hb : b ∈ baseRows env d n status) :
    (env.sortKey b < env.sortKey a ↔ Ahead env (baseRows env d n status) a b) ↔
      (env.unix a = env.unix b → (b.line.strategy < a.line.strategy ↔
        ∀ c, Matching d status c → ¬ InJournal d c → env.unix c = env.unix a →
          c.line.strategy ≤ b.line.strategy → env.hash c < env.hash a)) := by
  unfold Ahead
  rcases lt_trichotomy (env.unix a) (env.unix b) with hunix | hunix | hunix
  · -- the base row is newer, and so is what is in front of it
    refine iff_of_true (iff_of_true (timeKey_lt_iff.mpr (Or.inl hunix)) ?_) fun heq => absurd heq hunix.ne
    intro c _ hle
    apply timeKey_lt_iff.mpr
    rcases timeKey_le_iff.mp hle with hlt | ⟨heq, _⟩
    · exact Or.inl (by omega)
    · exact Or.inl (by omega)
  -- in one second the names decide, and in the loop the digests
  · have hname : env.sortKey b < env.sortKey a ↔ b.line.strategy < a.line.strategy := by
      constructor
      · intro hlt
        rcases timeKey_lt_iff.mp hlt with hlt | hlt
        · omega
        · exact hlt.2
      · intro hlt
        exact timeKey_lt_iff.mpr (Or.inr ⟨hunix.symm, hlt⟩)
    have hrows : (∀ c ∈ baseRows env d n status, env.sortKey c ≤ env.sortKey b →
        env.hashKey c < env.hashKey a) ↔
        ∀ c, Matching d status c → ¬ InJournal d c → env.unix c = env.unix a →
          c.line.strategy ≤ b.line.strategy → env.hash c < env.hash a := by
      constructor
      · intro hall c hc hnot heq hle
        have hlt := hall c (h.mem_base_iff.mpr ⟨hc, hnot⟩)
          (timeKey_le_iff.mpr (Or.inr ⟨heq.trans hunix, hle⟩))
        rcases timeKey_lt_iff.mp hlt with hlt | hlt
        · omega
        · exact hlt.2
      · intro hall c hc hle
        obtain ⟨hc, hnot⟩ := h.mem_base_iff.mp hc
        apply timeKey_lt_iff.mpr
        rcases timeKey_le_iff.mp hle with hlt | ⟨heq, hle⟩
        · exact Or.inl (by omega)
        · exact Or.inr ⟨heq.trans hunix.symm, hall c hc hnot (heq.trans hunix.symm) hle⟩
    rw [hname, hrows]
    exact ⟨fun heq _ => heq, fun heq => heq hunix⟩
  · -- the base row is older, and is not ahead itself
    refine iff_of_true (iff_of_false ?_ ?_) fun heq => absurd heq hunix.ne'
    · intro hlt
      rcases timeKey_lt_iff.mp hlt with hlt | hlt
      · omega
      · omega
    · intro hall
      rcases timeKey_lt_iff.mp (hall b hb (le_refl _)) with hlt | hlt
      · omega
      · omega

/-- The listing is in the order a base would have exactly when the rows of one
second are. -/
theorem Based.sorted_iff (h : Based env d n) {status : Status} :
    (listing env d n status).Pairwise (fun a b => env.sortKey a < env.sortKey b) ↔
      (∀ a b, Matching d status a → Matching d status b → InJournal d a → InJournal d b →
        env.unix a = env.unix b → env.hash a < env.hash b → a.line.strategy < b.line.strategy) ∧
      ∀ a b, Matching d status a → Matching d status b → InJournal d a → ¬ InJournal d b →
        env.unix a = env.unix b → (b.line.strategy < a.line.strategy ↔
          ∀ c, Matching d status c → ¬ InJournal d c → env.unix c = env.unix a →
            c.line.strategy ≤ b.line.strategy → env.hash c < env.hash a) := by
  -- what is before a later row of the journal is before an earlier one
  have hmono : (journalRows d status).Pairwise fun a a' => ∀ b, env.before a' b = true →
      env.before a b = true := by
    refine (h.journalRows_sorted status).imp ?_
    intro a a' hlt b hb
    exact before_iff.mpr (hlt.le.trans (before_iff.mp hb))
  have hbase : (baseRows env d n status).Pairwise fun a b => env.sortKey a < env.sortKey b :=
    baseRows_sorted status
  -- the base rows the loop lists before a
  have htake : ∀ a b, b ∈ (baseRows env d n status).takeWhile (fun c => !env.before a c) ↔
      b ∈ baseRows env d n status ∧ Ahead env (baseRows env d n status) a b := by
    intro a b
    rw [mem_takeWhile_sorted hbase]
    unfold Ahead
    simp only [Bool.not_eq_true', ← Bool.not_eq_true, before_iff, not_le]
  unfold listing
  rw [merge_pairwise_iff hmono, h.journal_iff]
  refine and_congr_right fun _ => (and_iff_right hbase).trans ?_
  -- the places of the journal rows among the base rows, one pair at a time
  constructor
  · intro hplace a b ha hb hja hjb
    have hbmem := h.mem_base_iff.mpr ⟨hb, hjb⟩
    obtain ⟨htw, hdw⟩ := hplace a (h.mem_journal_iff.mpr ⟨ha, hja⟩)
    refine (h.ahead_iff hbmem).mp ⟨?_, fun hahead => htw b ((htake a b).mpr ⟨hbmem, hahead⟩)⟩
    intro hlt
    by_contra hnot
    have hdrop : b ∈ (baseRows env d n status).dropWhile fun c => !env.before a c :=
      (mem_dropWhile_sorted hbase).mpr ⟨hbmem, fun hmem => hnot ((htake a b).mp hmem).2⟩
    exact absurd (hdw b hdrop) (lt_asymm hlt)
  · intro htie a ha
    obtain ⟨ha, hja⟩ := h.mem_journal_iff.mp ha
    have hiff : ∀ b ∈ baseRows env d n status,
        (env.sortKey b < env.sortKey a ↔ Ahead env (baseRows env d n status) a b) := by
      intro b hb
      obtain ⟨hmatch, hnot⟩ := h.mem_base_iff.mp hb
      exact (h.ahead_iff hb).mpr (htie a b ha hmatch hja hnot)
    constructor
    · intro b hb
      obtain ⟨hmem, hahead⟩ := (htake a b).mp hb
      exact (hiff b hmem).mpr hahead
    · intro b hb
      obtain ⟨hmem, hnot⟩ := (mem_dropWhile_sorted hbase).mp hb
      obtain ⟨hmatch, hjb⟩ := h.mem_base_iff.mp hmem
      have hne : a ≠ b := fun heq => hjb (heq ▸ hja)
      have hle : env.sortKey a ≤ env.sortKey b := by
        rw [← not_lt, hiff b hmem]
        exact fun hahead => hnot ((htake a b).mpr ⟨hmem, hahead⟩)
      exact lt_of_le_of_ne hle (sortKey_ne ha hmatch hne)

end

end PaperTrading.Discovery.Results
