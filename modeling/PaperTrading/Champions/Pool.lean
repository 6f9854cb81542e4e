import Mathlib.Data.Finset.Lattice.Basic
import Mathlib.Data.Finset.SDiff
import PaperTrading.Champions.FamilyPlan

/-!
# The champion pool

`trading/champions.py`, `trading/retire.py`, `trading/families.py` and the
seating half of `trading/ingest.py` and `trading/approved_admit.py`, on the
three files that say where a name stands: the pool `champions.json`, the
archive `retired.json` and the list `graduated.json`.

Every operation here is what one critical section does once it has read the
files. An ingest is different: the pool it seats into, and the names it takes
for known, are the ones an earlier section loaded (`seatIngest`).
-/

namespace PaperTrading.Champions

/-- `GATE_RULES` -/
def GATE_RULES : String := "gate_v7b_library_profit_20261029"

/-- `TRADE_EVALUATION_LIMIT` -/
def TRADE_EVALUATION_LIMIT : ℕ := 80

/-- The role of a row of the archive. -/
inductive Role where
  | champion
  | graduated
  | parkedTwin
  | orphanLive
deriving DecidableEq, Repr

structure RetiredRow where
  role : Role
  retiredAt : String
  familyWinner : Option String := none
deriving DecidableEq, Repr

structure Graduate where
  name : String
  closed : ℕ
  wins : ℕ
  totalPnl : ℚ
  /-- `GRADUATED_PAPER`, else `REJECTED_NEGATIVE_PNL` -/
  profitable : Bool
deriving DecidableEq, Repr

/-- The three files. -/
structure Book where
  pool : List Champion := []
  archive : String → Option RetiredRow := fun _ => none
  graduated : List Graduate := []

/-- The gate block of an evaluation. -/
structure GateBlock where
  passed : Bool
  rules : String
deriving DecidableEq, Repr

/-- An evaluation that passed `_validate_eval`. `library` says whether it has
the library block. -/
structure EvalRow where
  strategy : String
  qualified : Bool
  testedAt : String
  gateRules : String := GATE_RULES
  gate : Option GateBlock := none
  library : Bool := false
  dailySharpe : Option ℚ := none
  sharpe : Option ℚ := none
  testPnl : Option ℚ := none
deriving DecidableEq, Repr

/-- `qual_metrics` -/
def qualMetrics (r : EvalRow) : Option Metrics :=
  if r.gateRules = GATE_RULES then
    r.dailySharpe.map fun d => { dailySharpe := d, sharpe := r.sharpe, testPnl := r.testPnl }
  else none

namespace Book

def poolNames (b : Book) : Finset String := (b.pool.map (·.name)).toFinset

def graduatedNames (b : Book) : List String := b.graduated.map (·.name)

def isRetired (b : Book) (name : String) : Bool := (b.archive name).isSome

/-- A parked twin whose winner was retired, not parked. -/
def reconsiderable (b : Book) (name : String) : Bool :=
  match b.archive name with
  | some { role := .parkedTwin, familyWinner := some winner, .. } =>
    match b.archive winner with
    | some row => row.role ≠ .parkedTwin
    | none => false
  | _ => false

/-- `admit_blocked_names` -/
def admitBlocked (b : Book) (name : String) : Bool := b.isRetired name && !b.reconsiderable name

/-- The start date the file has for a name; a blank one counts as none. -/
def sinceOf (b : Book) (name : String) : Option String :=
  ((b.pool.reverse.find? fun prev => prev.name = name).bind (·.championSince)).filter (· ≠ "")

/-- `save_pool`: a row keeps the start date the file already has. -/
def savePool (b : Book) (st : List Champion) : Book :=
  { b with pool := st.map fun c => { c with
      championSince := (b.sinceOf c.name).or c.championSince } }

/-! ## Removals -/

/-- `_retain_unlocked` -/
def retain (b : Book) (keep : List String) : Book :=
  b.savePool (b.pool.filter fun c => c.name ∈ keep)

/-- `_has_champion_since` -/
def hasSince (c : Champion) : Bool := ¬ strip (c.championSince.getD "").toList = []

/-- `cull_undated_champions` -/
def cullUndated (b : Book) : Book := b.retain ((b.pool.filter hasSince).map (·.name))

/-- `retire_names_unlocked` -/
def retireNames (b : Book) (wanted : List String) (stamp : String) : Book :=
  let archive : String → Option RetiredRow := fun name =>
    if name ∈ wanted ∧ name ∈ b.graduatedNames then
      some { role := .graduated, retiredAt := stamp }
    else if name ∈ wanted ∧ name ∈ b.pool.map (·.name) then
      some { role := .champion, retiredAt := stamp }
    else b.archive name
  let kept := b.pool.filter fun c => c.name ∉ wanted
  let saved := if kept.length < b.pool.length then b.savePool kept else b
  { saved with
    archive := archive
    graduated := b.graduated.filter fun g => g.name ∉ wanted }

/-- The twins `enforce_champion_families_unlocked` parks, each with its
winner. The first test is its cheap exit. -/
def parkedTwins (b : Book) (env : FamilyEnv) : List (String × String) :=
  let templates := b.pool.filterMap fun c => (familySignature c.name).map (·.1)
  if templates.Nodup then []
  else (planFamilies env b.pool).twins.filter fun t => ¬ env.openLots t.1 > 0

/-- A twin of a winner that was just parked points at the new winner. -/
def repoint (park : List (String × String)) (row : RetiredRow) : RetiredRow :=
  match row.role, row.familyWinner.bind fun old => park.lookup old with
  | .parkedTwin, some winner => { row with familyWinner := some winner }
  | _, _ => row

/-- `enforce_champion_families_unlocked` -/
def enforceFamilies (b : Book) (env : FamilyEnv) (stamp : String) : Book :=
  let park := b.parkedTwins env
  if park.isEmpty then b
  else
    let parked : String → Option RetiredRow := park.foldl (fun a t => Function.update a t.1
      (some { role := .parkedTwin, retiredAt := stamp, familyWinner := some t.2 })) b.archive
    { b.savePool (b.pool.filter fun c => c.name ∉ park.map (·.1)) with
      archive := fun name => (parked name).map (repoint park) }

/-- The counters of the last row of each name, moved by the results of its
account. -/
def countResults (results : String → List ℚ) : List Champion → List Champion
  | [] => []
  | c :: cs =>
    (if c.name ∈ cs.map (·.name) then c
      else { c with
        closed := c.closed + (results c.name).length
        pnl := c.pnl + (results c.name).sum
        wins := c.wins + ((results c.name).filter (· > 0)).length }) :: countResults results cs

def graduateOf (c : Champion) : Graduate :=
  { name := c.name, closed := c.closed, wins := c.wins, totalPnl := c.pnl
    profitable := c.pnl > 0 }

/-- One graduation: the first entry of the name is replaced, or one is appended. -/
def addGraduate : List Graduate → Graduate → List Graduate
  | [], g => [g]
  | old :: grads, g => if old.name = g.name then g :: grads else old :: addGraduate grads g

/-- `_collect_live_results_unlocked`. `results` is the P&L of the trades each
account closed since the last time, `since` the start date it infers. -/
def collectResults (b : Book) (results : String → List ℚ) (since : String → Option String) :
    Book :=
  let counted := countResults results b.pool
  let done := counted.filter fun c => c.closed ≥ TRADE_EVALUATION_LIMIT
  let remaining := (counted.filter fun c => ¬ c.closed ≥ TRADE_EVALUATION_LIMIT).map fun c =>
    { c with championSince := c.championSince.or (since c.name) }
  let graduated := done.foldl (fun gs c => addGraduate gs (graduateOf c)) b.graduated
  { b.savePool remaining with graduated := graduated }

end Book

/-! ## Seats -/

/-- A seating in progress: the pool it seats into, the names it takes for
known, the archive, and the names it has seated. -/
structure Seating where
  st : List Champion
  existing : String → Bool
  archive : String → Option RetiredRow
  admitted : List String := []

/-- The row `_admit_qualified` appends. -/
def rowOf (r : EvalRow) : Champion :=
  { name := r.strategy, admittedAt := some r.testedAt, championSince := some r.testedAt
    qual := qualMetrics r }

/-- `_admit_qualified` after its check. -/
def Seating.admitRow (s : Seating) (row : Champion) : Seating :=
  { s with
    st := s.st ++ [row]
    existing := Function.update s.existing row.name true
    admitted := s.admitted ++ [row.name] }

/-- `_library_verdict_qualified` -/
def verdictQualified (r : EvalRow) : Bool :=
  r.qualified && r.gateRules = GATE_RULES &&
    match r.gate with
    | some g => g.passed && g.rules = GATE_RULES
    | none => false

/-- `existing.discard(name)` for a retired name. -/
def Seating.forget (s : Seating) (name : String) : Seating :=
  if (s.archive name).isSome then
    { s with existing := Function.update s.existing name false }
  else s

/-- One record of `seat_library_passes_unlocked`. `claimNames` are the
catalog's canonical names. -/
def Seating.library (claimNames graduated : List String) (reevaluated : String → Bool)
    (stamp : String) (s : Seating) (r : EvalRow) : Seating :=
  let name := r.strategy
  let retired := (s.archive name).isSome
  if ¬ (name ∈ claimNames ∧ verdictQualified r) then s
  else if name ∈ s.st.map (·.name) ∨ name ∈ graduated then s
  else if retired ∧ ¬ reevaluated name then s
  else
    let s := s.forget name
    if s.existing name then s
    else
      { s.admitRow { rowOf r with admittedAt := some stamp, championSince := some stamp } with
        archive := Function.update s.archive name none }

/-- One name of `_apply_force_admit`. The name is stripped and not blank;
`log` is the discovery log, newest first. -/
def Seating.force (log : List EvalRow) (s : Seating) (name : String) : Seating :=
  if s.existing name then s
  else
    match log.find? fun row => row.strategy = name with
    | none => s
    | some row => s.admitRow (rowOf row)

/-- `unpark_unlocked` -/
def unpark (archive : String → Option RetiredRow) (names : List String) :
    String → Option RetiredRow := fun name =>
  match archive name with
  | some row => if name ∈ names ∧ row.role = .parkedTwin then none else some row
  | none => none

/-- What an ingest brings to its last section: the rows it wrote, the names it
was told to seat, and the log as it stands there. -/
structure Ingest where
  written : List EvalRow
  forced : List String := []
  log : List EvalRow := []
  stamp : String := ""

namespace Book

/-- The names an ingest takes for known: pooled, graduated or blocked. -/
def existing (b : Book) (name : String) : Bool :=
  name ∈ b.pool.map (·.name) || name ∈ b.graduatedNames || b.admitBlocked name

/-- The seats of an ingest whose first section loaded `copy` and whose last
one finds `cell`. -/
def seats (claimNames : List String) (i : Ingest) (copy cell : Book) : Seating :=
  let reevaluated := fun name => name ∈ i.written.map (·.strategy)
  let start : Seating := { st := copy.pool, existing := copy.existing, archive := cell.archive }
  let passed := i.written.foldl
    (Seating.library claimNames cell.graduatedNames (fun n => reevaluated n) i.stamp) start
  i.forced.foldl (Seating.force i.log) passed

/-- The last section of `ingest_discovery_payload` up to the family rule: it
saves the pool it loaded, with its seats, if it seated anyone. -/
def seatIngest (claimNames : List String) (i : Ingest) (copy cell : Book) : Book :=
  let s := seats claimNames i copy cell
  if s.admitted = [] then cell
  else { cell.savePool s.st with archive := unpark s.archive s.admitted }

/-- The seats of `_backfill_stored_passes_unlocked`; `reevaluated` are the
retired names whose stored pass is newer than their retirement. -/
def backfillSeats (claimNames : List String) (b : Book) (records : List EvalRow)
    (reevaluated : List String) (stamp : String) : Seating :=
  let start : Seating :=
    { st := b.pool
      existing := fun n => n ∈ b.pool.map (·.name) || n ∈ b.graduatedNames || b.isRetired n
      archive := b.archive }
  records.foldl
    (Seating.library claimNames b.graduatedNames (fun n => n ∈ reevaluated) stamp) start

/-- `_backfill_stored_passes_unlocked` -/
def backfill (claimNames : List String) (b : Book) (records : List EvalRow)
    (reevaluated : List String) (stamp : String) : Book :=
  let s := backfillSeats claimNames b records reevaluated stamp
  if s.admitted = [] then b else { b.savePool s.st with archive := s.archive }

/-- The loop of `promote_candidates`, over the pool loaded in `copy`. -/
def promotions (copy cell : Book) (candidates : List String) (stamp : String) : Seating :=
  let start : Seating :=
    { st := copy.pool
      existing := fun n =>
        n ∈ copy.pool.map (·.name) || n ∈ cell.graduatedNames || cell.isRetired n
      archive := cell.archive }
  candidates.foldl (fun s name =>
    if name = "" ∨ s.existing name then s
    else s.admitRow { name := name, championSince := some stamp }) start

/-- `promote_candidates` takes no lock: it loads the pool and saves it later. -/
def promote (candidates : List String) (stamp : String) (copy cell : Book) : Book :=
  let s := promotions copy cell candidates stamp
  if s.admitted = [] then cell else cell.savePool s.st

end Book

end PaperTrading.Champions
