import PaperTrading.Champions.Pool
import PaperTrading.Gate.StoredRows
import PaperTrading.Library.Names
import PaperTrading.Signals.Segments

/-!
# The rows a block report reads

`trading/block_report.py` takes the stored results whose windows end before the sealed
holdout (`isPreHoldout`). They are streamed: the map in memory keeps a row without its
windows (`retain`), a test on what is left drops rows early (`slimPrefilter`), and the line
of every other row is read back from the file (`iterPublicRows`).

`filter_iterPublicRows` says that the early test drops no row that the full test takes.
-/

namespace PaperTrading.Report

open PaperTrading.Champions (GATE_RULES)
open PaperTrading.Gate (Cell)
open PaperTrading.Lib
open PaperTrading.Signals (HOLDOUT_START_MS)

def DISCOVERY_N_WINDOWS : ℕ := 18

def ATOM_GATE_RULES : List String :=
  ["gate_v5_btc_holdout_dsr_pbo_20261027", "gate_v6_library_signal_exit_20261028",
    "gate_v6_library_warmup_20261029", "gate_v7_library_profit_20261029", GATE_RULES]

def LOOKBACK_TOO_EXPENSIVE_PREFIX : String := "lookback_too_expensive"
def EVAL_TIMEOUT_PREFIX : String := "eval_timeout"

/-! ## Rows -/

/-- The keys of a window that may hold its end. -/
structure WindowEnds where
  endMs : Option Cell := none
  endAny : Option Cell := none
  testEndMs : Option Cell := none
deriving DecidableEq, Repr

/-- What a row has under `windows`; an item that is no object is none. -/
inductive Windows where
  | absent
  | other
  | list (items : List (Option WindowEnds))
deriving DecidableEq, Repr

/-- A line of the results file, as far as the report reads it. -/
structure Row where
  strategy : String
  partialRow : Bool := false
  opsPark : Bool := false
  failReasons : List String := []
  gateRules : Option String := none
  regimesTested : Option Cell := none
  windows : Windows := .absent
  qualified : Bool := false
  dailySharpe : Option Cell := none
  sharpe : Option Cell := none
  trades : Option Cell := none
deriving DecidableEq, Repr

/-- `is_ops_park_reason` -/
def isOpsParkReason (reason : String) : Bool :=
  LOOKBACK_TOO_EXPENSIVE_PREFIX.toList.isPrefixOf reason.toList ||
    EVAL_TIMEOUT_PREFIX.toList.isPrefixOf reason.toList

/-- `is_ops_park_record` -/
def isOpsParkRecord (row : Row) : Bool := row.opsPark || row.failReasons.any isOpsParkReason

/-- `is_library_name` -/
def isLibraryName (name : String) : Bool := Library.NAME_PREFIX.isPrefixOf name.toList

/-- `int(value) >= HOLDOUT_START_MS`, of a number. -/
def atHoldout (value : Option Cell) : Bool :=
  match Cell.finite value with
  | none => false
  | some q => HOLDOUT_START_MS ≤ q.num.tdiv q.den

/-- `_window_crosses_holdout` -/
def windowCrossesHoldout (row : Row) : Bool :=
  match row.windows with
  | .list items => items.any fun item =>
    item.any fun w => atHoldout w.endMs || atHoldout w.endAny || atHoldout w.testEndMs
  | _ => false

/-- A whole number of windows that is not the current one. -/
def otherCount (counted : Option Cell) : Bool :=
  match counted with
  | some (.int n) => n ≠ DISCOVERY_N_WINDOWS
  | _ => false

/-- A list of windows of another length. -/
def otherLength (windows : Windows) : Bool :=
  match windows with
  | .list items => items ≠ [] && items.length ≠ DISCOVERY_N_WINDOWS
  | _ => false

/-- One of the figures is a number. -/
def hasMetric (row : Row) : Bool :=
  [row.dailySharpe, row.sharpe, row.trades].any fun v => (Cell.finite v).isSome

/-- `is_pre_holdout` -/
def isPreHoldout (row : Row) : Bool :=
  if row.partialRow then false
  else if isOpsParkRecord row then false
  else if ¬ row.gateRules.any (· ∈ ATOM_GATE_RULES) ∨ isLibraryName row.strategy then false
  else if otherCount row.regimesTested then false
  else if otherLength row.windows then false
  else if windowCrossesHoldout row then false
  else hasMetric row

/-! ## The map and the stream -/

/-- A row of the map: without its windows, whose number it keeps, and with its place. -/
structure Kept where
  row : Row
  diskWindows : Bool
  windowsLen : Option ℕ
  offset : ℕ
deriving DecidableEq, Repr

/-- `_retain_row` -/
def retain (row : Row) (offset : ℕ) : Kept :=
  match row.windows with
  | .absent => { row := row, diskWindows := false, windowsLen := none, offset := offset }
  | .other =>
    { row := { row with windows := .absent }, diskWindows := true, windowsLen := none
      offset := offset }
  | .list items =>
    { row := { row with windows := .absent }, diskWindows := true
      windowsLen := some items.length, offset := offset }

/-- `_scan_jsonl`: the latest line of every name, kept as `keep` says. -/
def scan {α : Type} (keep : Row → ℕ → α) (lines : List Row) : Dict String α :=
  lines.zipIdx.foldl
    (fun d e => if e.1.strategy = "" then d else d.set e.1.strategy (keep e.1 e.2)) Dict.empty

/-- `_public_row`: the line of a row, read back from the file. -/
def publicRow (lines : List Row) (kept : Kept) : Row :=
  if kept.diskWindows then
    match lines[kept.offset]? with
    | some parsed => if parsed.strategy = kept.row.strategy then parsed else kept.row
    | none => kept.row
  else kept.row

/-- `_slim_prefilter` -/
def slimPrefilter (kept : Kept) : Bool :=
  if kept.row.partialRow ∨ isOpsParkRecord kept.row then false
  else if ¬ kept.row.gateRules.any (· ∈ ATOM_GATE_RULES) ∨ isLibraryName kept.row.strategy then
    false
  else if otherCount kept.row.regimesTested then false
  else if kept.windowsLen.any fun n => n ≠ 0 && n ≠ DISCOVERY_N_WINDOWS then false
  else hasMetric kept.row

/-- `iter_public_rows` -/
def iterPublicRows (prefilter : Kept → Bool) (lines : List Row) : List Row :=
  (((scan retain lines).entries.map Prod.snd).filter prefilter).map (publicRow lines)

/-- The stored results: the latest line of every name. -/
def storedResults (lines : List Row) : List Row :=
  (scan (fun row _ => row) lines).entries.map Prod.snd

/-! ## The early test -/

/-- The early test asks less than the full one. -/
theorem slimPrefilter_of_isPreHoldout {row : Row} (h : isPreHoldout row = true) (offset : ℕ) :
    slimPrefilter (retain row offset) = true := by
  unfold isPreHoldout at h
  split_ifs at h with hpartial hpark hrules hcount hlength hcross
  have hkept : ∀ (r : Row) (disk : Bool) (len : Option ℕ),
      r.partialRow = row.partialRow → isOpsParkRecord r = isOpsParkRecord row →
      r.gateRules = row.gateRules → r.strategy = row.strategy →
      r.regimesTested = row.regimesTested → hasMetric r = hasMetric row →
      len.any (fun n => n ≠ 0 && n ≠ DISCOVERY_N_WINDOWS) = false →
      slimPrefilter ⟨r, disk, len, offset⟩ = true := by
    intro r disk len h₁ h₂ h₃ h₄ h₅ h₆ hlen
    unfold slimPrefilter
    dsimp only
    rw [h₁, h₂, h₃, h₄, h₅, h₆, if_neg (by rintro (hp | hp) <;> contradiction), if_neg hrules,
      if_neg hcount, if_neg (by rw [hlen]; exact Bool.false_ne_true)]
    exact h
  unfold retain
  split
  next => exact hkept _ _ _ rfl rfl rfl rfl rfl rfl rfl
  next => exact hkept _ _ _ rfl rfl rfl rfl rfl rfl rfl
  next items hitems =>
    refine hkept _ _ _ rfl rfl rfl rfl rfl rfl ?_
    -- a list of another length has failed the full test
    unfold otherLength at hlength
    rw [hitems] at hlength
    rw [Option.any_some]
    cases items with
    | nil => rfl
    | cons item items => simpa using hlength

section
variable {α : Type} {keep : Row → ℕ → α} {lines : List Row}

theorem scan_concat (lines : List Row) (row : Row) : scan keep (lines ++ [row]) =
    if row.strategy = "" then scan keep lines
    else (scan keep lines).set row.strategy (keep row lines.length) := by
  unfold scan
  rw [List.zipIdx_append, List.foldl_append]
  show (if _ then _ else _) = _
  rw [Nat.zero_add]

/-- Keeping less of each row keeps the same rows. -/
theorem entries_scan (keep : Row → ℕ → α) (lines : List Row) : (scan keep lines).entries =
    (scan Prod.mk lines).entries.map fun p => (p.1, keep p.2.1 p.2.2) := by
  induction lines using List.reverseRecOn with
  | nil => rfl
  | append_singleton lines row ih =>
    rw [scan_concat, scan_concat]
    split
    next => exact ih
    next =>
      exact Dict.entries_set_map (f := fun p : Row × ℕ => keep p.1 p.2) ih row.strategy
        (row, lines.length)

/-- A kept row is the line at its place. -/
theorem line_of_scan : ∀ {p : String × Row × ℕ}, p ∈ (scan Prod.mk lines).entries →
    lines[p.2.2]? = some p.2.1 := by
  induction lines using List.reverseRecOn with
  | nil => intro p hp; cases hp
  | append_singleton lines row ih =>
    intro p hp
    have hold : ∀ {q : String × Row × ℕ}, q ∈ (scan Prod.mk lines).entries →
        (lines ++ [row])[q.2.2]? = some q.2.1 := by
      intro q hq
      have hget := ih hq
      rw [List.getElem?_append_left (List.getElem?_eq_some_iff.mp hget).1]
      exact hget
    rw [scan_concat] at hp
    split at hp
    next => exact hold hp
    next =>
      have hget := Dict.get?_eq_some.mpr hp
      rw [Dict.get?_set] at hget
      split at hget
      next =>
        rw [← Option.some.inj hget]
        show (lines ++ [row])[lines.length]? = some row
        rw [List.getElem?_append_right (le_refl _), Nat.sub_self]
        rfl
      next => exact hold (Dict.get?_eq_some.mp hget)

/-- A row of the map is read back as its own line. -/
theorem publicRow_retain {row : Row} {offset : ℕ} (h : lines[offset]? = some row) :
    publicRow lines (retain row offset) = row := by
  unfold publicRow retain
  cases hw : row.windows with
  | absent => rfl
  | other => simp only [h, if_true]
  | list items => simp only [h, if_true]

/-- Streaming with the early test gives the full test the same rows to take. -/
theorem filter_iterPublicRows (lines : List Row) :
    (iterPublicRows slimPrefilter lines).filter isPreHoldout =
      (storedResults lines).filter isPreHoldout := by
  have hall : ∀ l : List (String × Row × ℕ), (∀ p ∈ l, lines[p.2.2]? = some p.2.1) →
      (((l.map fun p => retain p.2.1 p.2.2).filter slimPrefilter).map
        (publicRow lines)).filter isPreHoldout = (l.map fun p => p.2.1).filter isPreHoldout := by
    intro l
    induction l with
    | nil => intro _; rfl
    | cons p l ih =>
      intro hl
      have hrest := ih fun q hq => hl q (List.mem_cons_of_mem _ hq)
      have hread := publicRow_retain (hl p List.mem_cons_self)
      rw [List.map_cons, List.map_cons, List.filter_cons, List.filter_cons (x := p.2.1)]
      by_cases hpre : isPreHoldout p.2.1 = true
      · rw [if_pos (slimPrefilter_of_isPreHoldout hpre _), if_pos hpre, List.map_cons, hread,
          List.filter_cons, if_pos hpre, hrest]
      · rw [if_neg hpre]
        split
        next => rw [List.map_cons, hread, List.filter_cons, if_neg hpre, hrest]
        next => exact hrest
  unfold iterPublicRows storedResults
  rw [entries_scan retain, entries_scan fun row _ => row, List.map_map, List.map_map]
  exact hall _ fun p hp => line_of_scan hp

end

end PaperTrading.Report
