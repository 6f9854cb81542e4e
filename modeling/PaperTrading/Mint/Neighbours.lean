import PaperTrading.Lib.Flt
import PaperTrading.Lib.Greedy
import PaperTrading.Mint.Collapse

/-!
# Neighbours of a strategy name

`trading/perturb.py` moves each numeric parameter of a name by a tenth and a fifth, up and
down, rounds it onto the grid of the mint and keeps the names the mint would take
(`neighborNames`). An atom is its numbers with the text around them (`Slots`); a number that
is not moved stays as it is written, or is printed anew where the source prints it.

A name is proposed once, and neither the name itself nor a name the mint would not take.
-/

namespace PaperTrading.Mint

open Lib
open Signals (digits htfName parseStrategy)

/-- `NEIGHBOR_RELATIVE_STEPS` -/
def NEIGHBOR_RELATIVE_STEPS : List ℚ := [1 / 10, 1 / 5]

/-! ## Steps -/

/-- The `kind` of a number: the grid it is rounded onto. -/
inductive Grid where
  | lookback
  | percent
  | ma
  | rsiThr
  | struct
deriving DecidableEq, Repr

/-- `int(value) * (1.0 + sign * float(frac))` -/
def moved (value : ℕ) (sign frac : ℚ) : ℚ :=
  toDouble (toDouble value * toDouble (1 + sign * toDouble frac))

/-- `_step_round` -/
def stepRound (raw : ℚ) (step lo : ℕ) (hi : Option ℕ) : Option ℕ :=
  let n := (roundHalfEven (toDouble (raw / step))).toNat * step
  if n < lo then none else if hi.any (· < n) then none else some n

/-- `_ma_round` -/
def maRound (raw : ℚ) : Option ℕ :=
  let n := (roundHalfEven raw).toNat
  if n < 5 then none else if roundPeriod n < 5 then none else some (roundPeriod n)

def Grid.rounded (raw : ℚ) : Grid → Option ℕ
  | .lookback => stepRound raw 6 6 none
  | .percent => stepRound raw 2 2 (some 40)
  | .ma => maRound raw
  | .rsiThr => stepRound raw 5 5 (some 95)
  | .struct => stepRound raw 6 6 (some 96)

/-- `_candidates` -/
def candidates (grid : Grid) (value : ℕ) : List ℕ :=
  let raws := NEIGHBOR_RELATIVE_STEPS.flatMap fun frac =>
    [-1, 1].map fun sign => moved value sign frac
  greedy some (fun _ => false) [value] (raws.filterMap fun raw => grid.rounded raw)

/-! ## Atoms -/

/-- A number of an atom, and how it is written where another one is moved. -/
structure Slot where
  grid : Grid
  value : ℕ
  text : Text
deriving DecidableEq, Repr

/-- A number that is printed anew. -/
def Slot.anew (grid : Grid) (ds : Text) : Slot := ⟨grid, natOf ds, printed (natOf ds)⟩

/-- The numbers of an atom, and the atom with other texts for them. -/
structure Slots where
  slots : List Slot
  written : List Text → Text

/-- `^rsi_(\d+)_([<>])(\d+)(?:_([<>])(\d+))?$` -/
def rsiSides : Pattern (Text × String × Text × Option (String × Text)) := do
  .lit "rsi_"
  let p ← digits
  .lit "_"
  let op ← .oneOf ["<", ">"]
  let th ← digits
  let second ← .opt do
    .lit "_"
    let op ← .oneOf ["<", ">"]
    let th ← digits
    pure (op, th)
  pure (p, op, th, second)

/-- `^(sma_stack|ema_stack)_(\d+(?:_\d+)*)$`: a list of periods without a blank one. -/
def periodList (atom : Text) : Option (String × List Text) :=
  (stackAtom.whole atom).bind fun c =>
    if ∀ part ∈ c.2.splitOn '_', part ≠ [] then some (c.1, c.2.splitOn '_') else none

/-- `_DIP_MOM` -/
def moveSlots (c : String × Text × String × Text) : Slots where
  slots := [.anew .lookback c.2.1, .anew .percent c.2.2.2]
  written := fun ts => moveText c.1 (ts.getD 0 []) c.2.2.1 (ts.getD 1 [])

/-- `_HTF` -/
def htfSlots (c : String × String × Text) : Slots where
  slots := [.anew .ma c.2.2]
  written := fun ts => c.1.toList ++ '_' :: (c.2.1.toList ++ ("_abv_".toList ++ ts.getD 0 []))

/-- `_MA` and `_STRUCT` -/
def wordSlots (grid : Grid) (c : String × Text) : Slots where
  slots := [.anew grid c.2]
  written := fun ts => c.1.toList ++ '_' :: ts.getD 0 []

/-- `_STACK` -/
def stackSlots (c : String × List Text) : Slots where
  slots := c.2.map (Slot.anew .ma)
  written := fun ts => c.1.toList ++ '_' :: List.intercalate ['_'] ts

/-- `_RSI`: where another number is moved, the second bound keeps its text. -/
def rsiSlots (c : Text × String × Text × Option (String × Text)) : Slots where
  slots := [.anew .ma c.1, .anew .rsiThr c.2.2.1] ++
    c.2.2.2.toList.map fun second => ⟨.rsiThr, natOf second.2, second.2⟩
  written := fun ts => "rsi_".toList ++ (ts.getD 0 [] ++ '_' :: (c.2.1.toList ++
    (ts.getD 1 [] ++ c.2.2.2.elim [] fun second => '_' :: (second.1.toList ++ ts.getD 2 []))))

/-- The forms of `_replace_atom`. -/
def slotsOf : Text → Option Slots :=
  firstRule
    [rule moveAtom fun c => some (moveSlots c),
      rule htfName fun c => some (htfSlots c),
      rule (wordAtom MA_WORDS) fun c => some (wordSlots .ma c),
      fun atom => (periodList atom).map fun c => some (stackSlots c),
      rule rsiSides fun c => some (rsiSlots c),
      rule (wordAtom STRUCTURE_WORDS) fun c => some (wordSlots .struct c)]
    none

/-- The atom with the number at a place moved. -/
def Slots.moveTo (s : Slots) (i n : ℕ) : Text :=
  s.written ((s.slots.map Slot.text).set i (printed n))

/-- `_replace_atom` -/
def replaceAtom (atom : Text) : List Text :=
  (slotsOf atom).elim [] fun s =>
    s.slots.zipIdx.flatMap fun e => (candidates e.1.grid e.1.value).map fun n => s.moveTo e.2 n

/-! ## Names -/

section
variable (ctx : MintContext) (sqrt : ℚ → ℚ)

/-- `_acceptable` -/
def acceptable (name : Text) : Bool :=
  !nameHasMomGtAndDip name && !lookbackTooExpensive name ctx.structureLookbackMax &&
    (mintBlockReason ctx name []).isNone && nameIsParseable name && (parseStrategy sqrt name).isOk

/-- The names `neighbor_names` tries, in its order. -/
def proposed (atoms : List Text) : List Text :=
  atoms.zipIdx.flatMap fun e => (replaceAtom e.1).map fun repl => joined (atoms.set e.2 repl)

/-- `neighbor_names` -/
def neighborNames (name : Text) : List Text :=
  greedy some (fun candidate => !acceptable ctx sqrt candidate) [name] (proposed (atomsOf name))

end

end PaperTrading.Mint
