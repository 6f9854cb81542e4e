import PaperTrading.Discovery.Tested
import PaperTrading.Lib.Runs

/-!
# Crashes and round trips of the tested-name index

A crash between any two writes leaves the document as it was before the operation
or as the operation leaves it: a base gets a generation that no journal names, so
a journal that outlives its base is not read.

A finished save is to leave exactly the index and the metrics it was given. A
rewrite of the base does; the journal path writes lines for the names of the
index only, and forgets about metrics of other names. `tested_index_durable_iff`
says which runs keep to both.
-/

namespace PaperTrading.Discovery.Tested

open PaperTrading.Lib

/-! ## Reading documents -/

@[simp] theorem get?_named {α : Type} (d : Dict String α) (name : String) :
    (named d).get? name = if name = "" then none else d.get? name := by
  unfold named
  rw [Dict.get?_filterMap]
  by_cases h : name = ""
  · cases d.get? name <;> simp [h]
  · cases d.get? name <;> simp [h]

theorem Same.refl (d : Doc) : Same d d := ⟨fun _ => rfl, fun _ => rfl⟩

/-- A document has no entry without a name. -/
structure Named (d : Doc) : Prop where
  flags : d.flags.get? "" = none
  metrics : d.metrics.get? "" = none

theorem named_fromDocument (base : Doc) : Named (fromDocument base) :=
  ⟨by simp [fromDocument], by simp [fromDocument]⟩

theorem Named.applyLine {d : Doc} (h : Named d) (line : Line) : Named (applyJournalLine d line) := by
  unfold applyJournalLine
  split
  next => exact h
  next hname =>
    have hne : ¬ "" = line.name := fun heq => hname heq.symm
    constructor
    · simp [hne, h.flags]
    · cases line.metric with
      | some metric => simp [hne, h.metrics]
      | none =>
        cases line.dropMetric with
        | true => simp [h.metrics]
        | false => simp [h.metrics]

theorem Named.foldl : ∀ (lines : List Line) {d : Doc}, Named d →
    Named (lines.foldl applyJournalLine d) := by
  intro lines
  induction lines with
  | nil => intro d h; exact h
  | cons line lines ih => intro d h; exact ih (h.applyLine line)

theorem named_document (disk : Disk) : Named disk.document := by
  unfold Disk.document Journaled.load
  split
  next g lines _ =>
    split
    next => exact (named_fromDocument _).foldl lines
    next => exact named_fromDocument _
  next => exact named_fromDocument _

/-! ## The lines of a save -/

/-- A line of a save, if there is one, gives the name its flag and metric, and
leaves the other names alone. -/
theorem applyLine_overlay {current d : Doc} {metrics : Dict String Metric} {name : String}
    {qualified : Bool} (hname : name ≠ "") (hflag : d.flags.get? name = current.flags.get? name)
    (hmetric : d.metrics.get? name = current.metrics.get? name) :
    let after := (overlayLine current metrics name qualified).toList.foldl applyJournalLine d
    (after.flags.get? name = some qualified ∧ after.metrics.get? name = metrics.get? name) ∧
    ∀ other, other ≠ name → after.flags.get? other = d.flags.get? other ∧
      after.metrics.get? other = d.metrics.get? other := by
  unfold overlayLine
  simp only
  split
  -- no line: the document has the flag and the metric already
  next hsame =>
    refine ⟨⟨hflag.trans hsame.1, hmetric.trans hsame.2⟩, ?_⟩
    intro other _
    exact ⟨rfl, rfl⟩
  next =>
    simp only [Option.toList_some, List.foldl_cons, List.foldl_nil, applyJournalLine, hname, if_false]
    -- a line sets the metric, or takes one away that was there
    cases hm : metrics.get? name with
    | some metric =>
      refine ⟨⟨by simp, by simp⟩, ?_⟩
      intro other hne
      simp [hne]
    | none =>
      cases hc : current.metrics.get? name with
      | some old =>
        refine ⟨⟨by simp, by simp⟩, ?_⟩
        intro other hne
        simp [hne]
      | none =>
        refine ⟨⟨by simp, by simp [hmetric, hc]⟩, ?_⟩
        intro other hne
        simp [hne]

/-- All lines of a save, over the entries of its index. -/
theorem foldl_overlay {current : Doc} {metrics : Dict String Metric} :
    ∀ (entries : List (String × Bool)) {d : Doc}, (entries.map Prod.fst).Nodup →
      (∀ e ∈ entries, e.1 ≠ "") →
      (∀ e ∈ entries, d.flags.get? e.1 = current.flags.get? e.1 ∧
        d.metrics.get? e.1 = current.metrics.get? e.1) →
      let after := (entries.filterMap fun e => overlayLine current metrics e.1 e.2).foldl
        applyJournalLine d
      (∀ e ∈ entries, after.flags.get? e.1 = some e.2 ∧
        after.metrics.get? e.1 = metrics.get? e.1) ∧
      ∀ name, name ∉ entries.map Prod.fst → after.flags.get? name = d.flags.get? name ∧
        after.metrics.get? name = d.metrics.get? name := by
  intro entries
  induction entries with
  | nil =>
    intro d _ _ _
    exact ⟨fun e he => (nomatch he), fun _ _ => ⟨rfl, rfl⟩⟩
  | cons e entries ih =>
    intro d hnodup hnames hcurrent
    obtain ⟨hnot, hnodup'⟩ := List.nodup_cons.mp hnodup
    obtain ⟨hflag, hmetric⟩ := hcurrent e List.mem_cons_self
    obtain ⟨hhere, hother⟩ := @applyLine_overlay current d metrics e.1 e.2
      (hnames e List.mem_cons_self) hflag hmetric
    -- the first entry's line, then the rest over what it leaves
    have hsplit : ((e :: entries).filterMap fun e => overlayLine current metrics e.1 e.2).foldl
        applyJournalLine d = (entries.filterMap fun e => overlayLine current metrics e.1 e.2).foldl
          applyJournalLine ((overlayLine current metrics e.1 e.2).toList.foldl applyJournalLine d) := by
      cases h : overlayLine current metrics e.1 e.2 with
      | none => simp [h]
      | some line => simp [h]
    -- the lines of the others leave this entry alone
    have hne : ∀ e' ∈ entries, e'.1 ≠ e.1 := by
      intro e' he' heq
      exact hnot (heq ▸ List.mem_map_of_mem he')
    obtain ⟨hin, hout⟩ := ih hnodup' (fun e' he' => hnames e' (List.mem_cons_of_mem _ he'))
      (d := (overlayLine current metrics e.1 e.2).toList.foldl applyJournalLine d) (by
        intro e' he'
        obtain ⟨hf, hm⟩ := hother e'.1 (hne e' he')
        obtain ⟨hf', hm'⟩ := hcurrent e' (List.mem_cons_of_mem _ he')
        exact ⟨hf.trans hf', hm.trans hm'⟩)
    simp only [hsplit]
    constructor
    · intro e' he'
      rcases List.mem_cons.mp he' with hhead | htail
      · rw [hhead, (hout e.1 hnot).1, (hout e.1 hnot).2]
        exact hhere
      · exact hin e' htail
    · intro name hname
      rw [List.map_cons, List.mem_cons, not_or] at hname
      obtain ⟨hf, hm⟩ := hout name hname.2
      obtain ⟨hf', hm'⟩ := hother name hname.1
      exact ⟨hf.trans hf', hm.trans hm'⟩

theorem namesDiffer_eq_false {index flags : Dict String Bool} :
    namesDiffer index flags = false ↔ ∀ name, name ∈ index.keys ↔ name ∈ flags.keys := by
  unfold namesDiffer
  simp only [Bool.not_eq_false', Bool.and_eq_true, List.all_eq_true, decide_eq_true_eq]
  constructor
  · intro h name
    exact ⟨h.1 name, h.2 name⟩
  · intro h
    exact ⟨fun name => (h name).mp, fun name => (h name).mpr⟩

/-- What the journal path of a save leaves: the index, its metrics for the names
of the index, and what was stored for others. -/
theorem overlay_document {current : Doc} (hnamed : Named current) {index : Dict String Bool}
    (hsame : namesDiffer index current.flags = false) (metrics : Dict String Metric) :
    let after := (overlayLines current index metrics).foldl applyJournalLine current
    (∀ name, after.flags.get? name = index.get? name) ∧
    ∀ name, after.metrics.get? name =
      if name ∈ index.keys then metrics.get? name else current.metrics.get? name := by
  rw [namesDiffer_eq_false] at hsame
  -- the document holds no empty name, so an index with its names has none
  have hnames : ∀ e ∈ index.entries, e.1 ≠ "" := by
    intro e he hempty
    have hin : e.1 ∈ current.flags.keys := (hsame e.1).mp (List.mem_map_of_mem he)
    obtain ⟨q, hq⟩ := Dict.mem_keys.mp hin
    rw [hempty, hnamed.flags] at hq
    cases hq
  obtain ⟨hin, hout⟩ := @foldl_overlay current metrics index.entries
    current index.nodup hnames (fun _ _ => ⟨rfl, rfl⟩)
  constructor
  · intro name
    by_cases hkey : name ∈ index.keys
    · obtain ⟨q, hq⟩ := Dict.mem_keys.mp hkey
      rw [hq]
      exact (hin (name, q) (Dict.get?_eq_some.mp hq)).1
    · have hnone : index.get? name = none := Dict.get?_eq_none.mpr hkey
      have hcur : current.flags.get? name = none :=
        Dict.get?_eq_none.mpr fun h => hkey ((hsame name).mpr h)
      rw [hnone, ← hcur]
      exact (hout name hkey).1
  · intro name
    split
    next hkey =>
      obtain ⟨q, hq⟩ := Dict.mem_keys.mp hkey
      exact (hin (name, q) (Dict.get?_eq_some.mp hq)).2
    next hkey => exact (hout name hkey).2

/-! ## What the process keeps -/

/-- The generations in the files are stamps of earlier writes, or missing. -/
def GensPast (disk : Disk) : Prop :=
  (∀ g ∈ disk.gen, g ≤ disk.stamp) ∧ ∀ j ∈ disk.journal, ∀ g ∈ j.1, g ≤ disk.stamp

/-- What every step keeps: the merged document and the snapshot are good while
their fingerprint is the files'. -/
structure Valid (s : Store) : Prop where
  gens : GensPast s.disk
  derived : ViewGood s.disk.stamp s.disk.document s.derived
  snapshot : ViewGood s.disk.stamp s.disk.document s.snapshot

theorem Valid.current {s : Store} (h : Valid s) : s.current = s.disk.document := by
  unfold Store.current
  split
  next fp doc hd =>
    split
    next hfp => exact (h.derived _ hd).2 hfp
    next => rfl
  next => rfl

theorem Valid.viewed {s : Store} (h : Valid s) :
    ViewGood s.disk.stamp s.disk.document s.viewed := by
  unfold Store.viewed
  rw [h.current]
  exact viewGood_fresh

/-- No generation of the files is the stamp of the next write. -/
theorem unnamed_next {disk : Disk} (h : GensPast disk) : disk.Unnamed (some (disk.stamp + 1)) := by
  intro j hj heq
  have := h.2 j hj (disk.stamp + 1) heq
  omega

theorem gensPast_append {disk : Disk} (h : GensPast disk) {lines : List Line} {x : Disk}
    (hx : x ∈ disk.appendWrites lines) : GensPast x := by
  rcases Journaled.mem_appendWrites hx with rfl | ⟨ls, n, hn, rfl⟩
  · exact h
  · have hgen : ∀ g ∈ disk.gen, g ≤ n := fun g hg => (h.1 g hg).trans hn.le
    refine ⟨hgen, ?_⟩
    intro j hj
    rw [← Option.some.inj hj]
    exact hgen

theorem gensPast_replace {disk : Disk} (h : GensPast disk) {payload : Doc} {x : Disk}
    (hx : x ∈ Journaled.replaceWrites disk (some (disk.stamp + 1)) payload) : GensPast x := by
  rcases Journaled.mem_replaceWrites hx with rfl | ⟨j, n, hn, hj, rfl⟩
  · exact h
  · constructor
    · intro g hg
      rw [← Option.some.inj hg]
      exact hn
    · intro j' hj' g hg
      rcases hj with rfl | rfl
      · exact (h.2 j' hj' g hg).trans hn.le
      · cases hj'

/-! ## Every operation's writes -/

/-- An operation writes nothing, appends lines, or installs a base of a new
generation. -/
inductive Writes (disk : Disk) : List Disk → Prop where
  | nothing : Writes disk []
  | lines (lines : List Line) : Writes disk (disk.appendWrites lines)
  | base (payload : Doc) :
      Writes disk (Journaled.replaceWrites disk (some (disk.stamp + 1)) payload)

theorem writes_appendJournalLines (s : Store) (lines : List Line) :
    Writes s.disk (s.appendJournalLines lines).writes := by
  unfold Store.appendJournalLines
  split
  next => exact .nothing
  next => exact .lines lines

theorem writes_effect (s : Store) (op : Op) : Writes s.disk (s.effect op).writes := by
  cases op with
  | append name qualified metric =>
    simp only [Store.effect, Store.appendTestedOverlay]
    split
    next => exact .nothing
    next =>
      split
      next => exact .nothing
      next => exact writes_appendJournalLines s _
  | save index metrics =>
    simp only [Store.effect, Store.saveTestedIndex]
    split
    next => exact .base _
    next =>
      split
      next => exact .base _
      next => exact writes_appendJournalLines s _
  | snapshot => exact .nothing
  | install =>
    simp only [Store.effect, Store.compactInstall]
    split
    next => exact .nothing
    next =>
      split
      next => exact .base _
      next => exact .nothing
  | restart => exact .nothing

/-- Behind any of its writes an operation leaves past generations, and a document
from before it or from after it. -/
theorem Writes.cut {disk : Disk} (h : GensPast disk) {writes : List Disk} (hw : Writes disk writes)
    (k : ℕ) : GensPast (cut disk writes k) ∧
      ((Lib.cut disk writes k).document = disk.document ∨
        (Lib.cut disk writes k).document = (done disk writes).document) := by
  cases hw with
  | nothing =>
    have hsame : Lib.cut disk [] k = disk := by simp [Lib.cut]
    rw [hsame]
    exact ⟨h, Or.inl rfl⟩
  | lines lines =>
    exact ⟨cut_cases h (fun x hx => gensPast_append h hx) k, Journaled.load_cut_append lines k⟩
  | base payload =>
    exact ⟨cut_cases h (fun x hx => gensPast_replace h hx) k,
      Journaled.load_cut_replace (unnamed_next h) payload k⟩

theorem Writes.done {disk : Disk} (h : GensPast disk) {writes : List Disk} (hw : Writes disk writes) :
    GensPast (done disk writes) := by
  cases hw with
  | nothing => exact h
  | lines lines => exact done_cases h fun x hx => gensPast_append h hx
  | base payload => exact done_cases h fun x hx => gensPast_replace h hx

/-! ## What an operation leaves behind -/

theorem document_done_append (disk : Disk) (lines : List Line) :
    (done disk (disk.appendWrites lines)).document =
      lines.foldl applyJournalLine disk.document := Journaled.load_done_append lines

/-- What an operation that is through leaves in the files and in the process. -/
structure Through (s : Store) (e : Effect) : Prop where
  gens : GensPast (done s.disk e.writes)
  derived : ViewGood (done s.disk e.writes).stamp (done s.disk e.writes).document e.derived
  snapshot : ViewGood (done s.disk e.writes).stamp (done s.disk e.writes).document e.snapshot

variable {s : Store}

/-- An operation that writes nothing. -/
theorem through_nothing (h : Valid s) {derived snapshot : Option (ℕ × Doc)}
    (hd : ViewGood s.disk.stamp s.disk.document derived)
    (hs : ViewGood s.disk.stamp s.disk.document snapshot) :
    Through s { derived := derived, snapshot := snapshot } := ⟨h.gens, hd, hs⟩

theorem through_appendJournalLines (h : Valid s) (lines : List Line) :
    Through s (s.appendJournalLines lines) := by
  have hgens := (writes_appendJournalLines s lines).done h.gens
  unfold Store.appendJournalLines at hgens ⊢
  split
  next => exact through_nothing h h.viewed h.snapshot
  next hne =>
    rw [if_neg hne] at hgens
    refine ⟨hgens, ?_, h.snapshot.stale (Journaled.stamp_lt_append lines)⟩
    -- the patched document is what a reader finds
    have hdoc : lines.foldl applyJournalLine s.current =
        (done s.disk (s.disk.appendWrites lines)).document := by
      rw [h.current, document_done_append]
    simp only [hdoc]
    exact viewGood_fresh

theorem through_replaceTestedBase (h : Valid s) {payload : Doc}
    (hpayload : payload.metrics = named payload.metrics) :
    Through s (s.replaceTestedBase payload) := by
  refine ⟨(Writes.base payload).done h.gens, ?_,
    h.snapshot.stale (Journaled.stamp_lt_replace _ _)⟩
  have hdoc : (⟨named payload.flags, payload.metrics⟩ : Doc) =
      (done s.disk (s.replaceWrites payload)).document := by
    show _ = fromDocument payload
    unfold fromDocument
    rw [← hpayload]
  show ViewGood (done s.disk (s.replaceWrites payload)).stamp
    (done s.disk (s.replaceWrites payload)).document
    (some ((done s.disk (s.replaceWrites payload)).stamp, ⟨named payload.flags, payload.metrics⟩))
  rw [hdoc]
  exact viewGood_fresh

/-- Entries that all have a name stay. -/
theorem named_of_get? {α : Type} {d : Dict String α} (h : d.get? "" = none) : named d = d := by
  apply Dict.ext
  unfold named Dict.filterMap
  refine (List.filterMap_congr (g := some) ?_).trans List.filterMap_some
  intro e he
  have hne : e.1 ≠ "" := by
    intro hempty
    have : d.get? e.1 = some e.2 := Dict.get?_eq_some.mpr he
    rw [hempty, h] at this
    cases this
  simp [hne]

/-- The metrics a save works with. -/
def saved (current : Doc) (metrics : Option (Dict String Metric)) : Dict String Metric :=
  (metrics.map named).getD current.metrics

theorem saved_named {current : Doc} (h : Named current) (metrics : Option (Dict String Metric)) :
    saved current metrics = named (saved current metrics) := by
  cases metrics with
  | none => exact (named_of_get? h.metrics).symm
  | some m => exact (named_of_get? (by simp [saved])).symm

theorem through_effect (h : Valid s) (op : Op) : Through s (s.effect op) := by
  cases op with
  | append name qualified metric =>
    simp only [Store.effect, Store.appendTestedOverlay]
    split
    next => exact through_nothing h h.derived h.snapshot
    next =>
      split
      -- the overlay is there already
      next => exact through_nothing h h.viewed h.snapshot
      next => exact through_appendJournalLines h _
  | save index metrics =>
    have hnamed : saved s.current metrics = named (saved s.current metrics) := by
      apply saved_named
      rw [h.current]
      exact named_document s.disk
    simp only [Store.effect, Store.saveTestedIndex]
    split
    next => exact through_replaceTestedBase h hnamed
    next =>
      split
      next => exact through_replaceTestedBase h hnamed
      next => exact through_appendJournalLines h _
  | snapshot => exact through_nothing h h.viewed h.viewed
  | install =>
    simp only [Store.effect, Store.compactInstall]
    split
    next => exact through_nothing h h.derived viewGood_none
    next =>
      split
      next =>
        exact ⟨(Writes.base _).done h.gens, viewGood_none, viewGood_none⟩
      next => exact through_nothing h h.derived viewGood_none
  | restart => exact through_nothing h viewGood_none viewGood_none

theorem valid_step (h : Valid s) (i : Op × Option ℕ) : Valid (s.step i) := by
  obtain ⟨op, crash⟩ := i
  cases crash with
  | none =>
    obtain ⟨hgens, hderived, hsnapshot⟩ := through_effect h op
    exact ⟨hgens, hderived, hsnapshot⟩
  | some k =>
    exact ⟨((writes_effect s op).cut h.gens k).1, viewGood_none, viewGood_none⟩

theorem valid_start (base : Doc) (journal : Option (List Line)) : Valid (Store.start base journal) := by
  refine ⟨⟨fun g hg => (nomatch hg), ?_⟩, viewGood_none, viewGood_none⟩
  intro j hj g hg
  obtain ⟨lines, _, rfl⟩ := Option.map_eq_some_iff.mp hj
  cases hg

/-! ## What a finished operation is to leave -/

/-- What an operation is to make of the document. -/
def Op.Meets (before after : Doc) : Op → Prop
  | .append name qualified metric =>
    if name = "" then Same after before
    else Same after
      { flags := before.flags.set name qualified
        metrics := match metric with
          | some metric => before.metrics.set name metric
          | none => before.metrics }
  | .save index metrics => Same after ⟨index, metrics.getD before.metrics⟩
  | _ => Same after before

/-- The save rewrites the base: the names differ, or more lines do than a journal
takes. -/
def Rewrites (current : Doc) (index : Dict String Bool) (metrics : Dict String Metric) : Prop :=
  namesDiffer index current.flags = true ∨
    JOURNAL_REPLACE_MIN < (overlayLines current index metrics).length

/-- The save leaves no metric behind that it does not write: the base is
rewritten, or what it stores and what is stored agree on the names outside the
index. And it names no entry with the empty name. -/
structure Whole (current : Doc) (index : Dict String Bool) (metrics : Option (Dict String Metric)) :
    Prop where
  namedIndex : "" ∉ index.keys
  namedMetrics : ∀ m ∈ metrics, "" ∉ m.keys
  outside : ¬ Rewrites current index (saved current metrics) → ∀ m ∈ metrics,
    ∀ name, name ∉ index.keys → m.get? name = current.metrics.get? name

theorem same_fromDocument_iff {index : Dict String Bool} {metrics m : Dict String Metric}
    (hm : ∀ name, name ≠ "" → metrics.get? name = m.get? name) :
    Same (fromDocument ⟨index, metrics⟩) ⟨index, m⟩ ↔ "" ∉ index.keys ∧ "" ∉ m.keys := by
  rw [← Dict.get?_eq_none, ← Dict.get?_eq_none]
  constructor
  · intro h
    have hf := h.flags ""
    have hg := h.metrics ""
    simp only [fromDocument, get?_named, if_true] at hf hg
    exact ⟨hf.symm, hg.symm⟩
  · intro h
    constructor
    · intro name
      by_cases hname : name = ""
      · simp [fromDocument, hname, h.1]
      · simp [fromDocument, hname]
    · intro name
      by_cases hname : name = ""
      · simp [fromDocument, hname, h.2]
      · simp [fromDocument, hname, hm name hname]

/-- What a save stores under a name is what it was given, or what is stored. -/
theorem get?_saved {current : Doc} {metrics : Option (Dict String Metric)} {name : String}
    (h : name ≠ "") :
    (saved current metrics).get? name = (metrics.getD current.metrics).get? name := by
  cases metrics with
  | none => rfl
  | some m => simp [saved, h]

/-- Rewriting the base keeps all that has a name. -/
theorem rewritten_iff {current : Doc} (hnamed : Named current) {index : Dict String Bool}
    {metrics : Option (Dict String Metric)} (hrw : Rewrites current index (saved current metrics)) :
    Same (fromDocument ⟨index, saved current metrics⟩) ⟨index, metrics.getD current.metrics⟩ ↔
      Whole current index metrics := by
  rw [same_fromDocument_iff fun name hname => get?_saved hname]
  constructor
  · intro hkeys
    refine ⟨hkeys.1, ?_, fun hno => absurd hrw hno⟩
    intro m hm
    rw [Option.mem_def.mp hm] at hkeys
    exact hkeys.2
  · intro hwhole
    refine ⟨hwhole.namedIndex, ?_⟩
    cases metrics with
    | none => exact Dict.get?_eq_none.mp hnamed.metrics
    | some m => exact hwhole.namedMetrics m rfl

/-- The journalled lines say nothing about the names outside the index. -/
theorem journalled_iff {current : Doc} (hnamed : Named current) {index : Dict String Bool}
    {metrics : Option (Dict String Metric)} (hno : ¬ Rewrites current index (saved current metrics)) :
    Same ((overlayLines current index (saved current metrics)).foldl applyJournalLine current)
        ⟨index, metrics.getD current.metrics⟩ ↔
      Whole current index metrics := by
  have hsame : namesDiffer index current.flags = false := by
    simpa using fun hdiffer => hno (Or.inl hdiffer)
  have hindex : "" ∉ index.keys := by
    rw [namesDiffer_eq_false.mp hsame ""]
    exact Dict.get?_eq_none.mp hnamed.flags
  obtain ⟨hflags, hmetrics⟩ := overlay_document hnamed hsame (saved current metrics)
  constructor
  · intro hmeets
    have houtside : ∀ name, name ∉ index.keys →
        (metrics.getD current.metrics).get? name = current.metrics.get? name := by
      intro name hname
      have := hmeets.metrics name
      rw [hmetrics, if_neg hname] at this
      exact this.symm
    refine ⟨hindex, ?_, ?_⟩
    · intro m hm
      have := houtside "" hindex
      rw [Option.mem_def.mp hm, hnamed.metrics] at this
      exact Dict.get?_eq_none.mp this
    · intro _ m hm name hname
      have := houtside name hname
      rwa [Option.mem_def.mp hm] at this
  · intro hwhole
    refine ⟨hflags, ?_⟩
    intro name
    rw [hmetrics]
    split
    next hname =>
      apply get?_saved
      intro hempty
      exact hindex (hempty ▸ hname)
    next hname =>
      cases metrics with
      | none => rfl
      | some m => exact (hwhole.outside hno m rfl name hname).symm

/-- Lines that are appended are in the document when they are through. -/
theorem document_appendJournalLines (lines : List Line) :
    (done s.disk (s.appendJournalLines lines).writes).document =
      lines.foldl applyJournalLine s.disk.document := by
  unfold Store.appendJournalLines
  split
  next hnil => rw [hnil]; rfl
  next => exact document_done_append _ _

/-- A finished save leaves the index and the metrics exactly when it is whole. -/
theorem save_meets_iff (h : Valid s) (index : Dict String Bool) (metrics : Option (Dict String Metric)) :
    (Op.save index metrics).Meets s.disk.document (s.finish (.save index metrics)).disk.document ↔
      Whole s.disk.document index metrics := by
  have hnamed := named_document s.disk
  show Same (done s.disk (s.saveTestedIndex index metrics).writes).document _ ↔ _
  unfold Store.saveTestedIndex
  rw [h.current]
  simp only
  split
  next hdiffer => exact rewritten_iff hnamed (Or.inl hdiffer)
  next hdiffer =>
    split
    next hmany => exact rewritten_iff hnamed (Or.inr hmany)
    next hmany =>
      rw [document_appendJournalLines]
      exact journalled_iff hnamed fun hrw => hrw.elim hdiffer hmany

/-- A finished append leaves its line's flag and metric. -/
theorem append_meets (h : Valid s) (name : String) (qualified : Bool) (metric : Option Metric) :
    (Op.append name qualified metric).Meets s.disk.document
      (s.finish (.append name qualified metric)).disk.document := by
  show (Op.append name qualified metric).Meets s.disk.document
    (done s.disk (s.appendTestedOverlay name qualified metric).writes).document
  simp only [Op.Meets, Store.appendTestedOverlay, h.current]
  by_cases hname : name = ""
  · rw [if_pos hname, if_pos hname]
    exact Same.refl _
  · rw [if_neg hname, if_neg hname]
    split
    next hsame =>
      -- nothing is written: the line is in the document already
      constructor
      · intro other
        show s.disk.document.flags.get? other = _
        rw [Dict.get?_set]
        split
        next heq => rw [heq, hsame.1]
        next => rfl
      · intro other
        show s.disk.document.metrics.get? other = _
        cases metric with
        | none => rfl
        | some m =>
          rw [Dict.get?_set]
          split
          next heq =>
            rw [heq]
            exact hsame.2.resolve_left (by simp)
          next => rfl
    next =>
      -- one line in the journal
      rw [document_appendJournalLines, List.foldl_cons, List.foldl_nil]
      unfold applyJournalLine
      rw [if_neg hname]
      constructor
      · intro other
        rfl
      · intro other
        cases metric with
        | none => rfl
        | some m => rfl

/-- Folding the journal into a base leaves the document as it was. -/
theorem install_meets (h : Valid s) :
    Op.install.Meets s.disk.document (s.finish .install).disk.document := by
  show Same (done s.disk s.compactInstall.writes).document s.disk.document
  unfold Store.compactInstall
  split
  next => exact Same.refl _
  next fp doc hsnap =>
    split
    next hfp =>
      have hdoc : doc = s.disk.document := (h.snapshot _ hsnap).2 hfp
      show Same (fromDocument doc) s.disk.document
      have hnamed := named_document s.disk
      rw [hdoc]
      unfold fromDocument
      rw [named_of_get? hnamed.flags, named_of_get? hnamed.metrics]
      exact Same.refl _
    next => exact Same.refl _

/-! ## Every run -/

/-- A finished operation leaves what it is to leave, and a crash the document
from before the operation or from after it. -/
structure Durable (s : Store) (i : Op × Option ℕ) : Prop where
  finished : i.2 = none → i.1.Meets s.disk.document (s.step i).disk.document
  crashed : ∀ k, i.2 = some k → (s.step i).disk.document = s.disk.document ∨
    (s.step i).disk.document = (s.finish i.1).disk.document

/-- A save that is finished is whole. -/
def SavesWhole (s : Store) (i : Op × Option ℕ) : Prop :=
  match i with
  | (.save index metrics, none) => Whole s.disk.document index metrics
  | _ => True

theorem durable_iff (h : Valid s) (i : Op × Option ℕ) : Durable s i ↔ SavesWhole s i := by
  obtain ⟨op, crash⟩ := i
  have hcrash : ∀ k, crash = some k → (s.step (op, crash)).disk.document = s.disk.document ∨
      (s.step (op, crash)).disk.document = (s.finish op).disk.document := by
    intro k hk
    rw [hk]
    exact ((writes_effect s op).cut h.gens k).2
  cases crash with
  | some k =>
    have hwhole : SavesWhole s (op, some k) := by
      cases op <;> trivial
    exact iff_of_true ⟨fun hk => (nomatch hk), hcrash⟩ hwhole
  | none =>
    have hmeets : Durable s (op, none) ↔
        op.Meets s.disk.document (s.finish op).disk.document :=
      ⟨fun hd => hd.finished rfl, fun hm => ⟨fun _ => hm, hcrash⟩⟩
    rw [hmeets]
    cases op with
    | append name qualified metric => exact iff_of_true (append_meets h name qualified metric) trivial
    | save index metrics => exact save_meets_iff h index metrics
    | snapshot => exact iff_of_true (Same.refl _) trivial
    | install => exact iff_of_true (install_meets h) trivial
    | restart => exact iff_of_true (Same.refl _) trivial

/-- **The tested-name index.** Over files of any content, with crashes between
any two writes: a crash leaves the document from before the operation or from
after it, and a finished operation leaves exactly what it was given, along a run
exactly when every finished save rewrites the base or agrees with the stored
metrics outside its index. -/
theorem tested_index_durable_iff (base : Doc) (journal : Option (List Line))
    (ops : List (Op × Option ℕ)) :
    Along Store.step Durable (Store.start base journal) ops ↔
      Along Store.step SavesWhole (Store.start base journal) ops :=
  along_congr_inv (I := Valid) (fun _ i h => durable_iff h i) (fun _ i h _ => valid_step h i) ops
    (valid_start base journal)

/-- A metric of ten trades. -/
def tenTrades : Metric := ⟨none, some 10, false, by decide⟩

/-- One tested name. -/
def oneName : Dict String Bool := Dict.empty.set "rsi_14" false

/-- A save with a metric for a second name, then one without it. -/
def dropsMetric : List (Op × Option ℕ) :=
  [ (.save oneName (some (Dict.empty.set "mom_12" tenTrades)), none),
    (.save oneName (some Dict.empty), none) ]

/-- The second save is finished, and the metric is still there. -/
theorem dropped_metric_stays :
    ¬ Along Store.step Durable (Store.start Doc.empty none) dropsMetric := by
  intro h
  have hmetrics := (h.2.1.finished rfl).metrics "mom_12"
  revert hmetrics
  decide +kernel

end PaperTrading.Discovery.Tested
