import Mathlib.Data.Nat.ModEq
import PaperTrading.Signals.Structure
import PaperTrading.Signals.Htf

/-!
# Strategies of bounded lookback

What `parse_strategy` builds out of the atoms that read a bounded number of
bars: `&` and `|` of atoms, or nested `and` and `or` specs. A list of parts is
nested pairs, as `all` and `any` stop at the first part that decides.

`eval_sameBars` is the main lemma: a strategy says the same of two bars whose
last `lookback` bars agree, if its higher-timeframe atoms are in phase.
-/

namespace PaperTrading.Signals

/-- The atoms, with their numbers as parsed. -/
inductive Atom where
  | smaStack (periods : List ℕ)
  | smaAbove (period : ℕ)
  | rsiRange (period : ℤ) (minVal maxVal : ℚ)
  | robustOpen
  | momGt (lookback : ℕ) (thr : ℚ)
  | momLt (lookback : ℕ) (thr : ℚ)
  | volLow (shortLb longLb : ℕ)
  | bbLower (period : ℕ) (stdDev : ℚ)
  | bbUpper (period : ℕ) (stdDev : ℚ)
  | donHi (n : ℕ)
  | donLo (n : ℕ)
  | htfSma (tf : Timeframe) (period : ℕ)
  | smaRsi (period : ℕ) (minVal : ℚ)
  | smaMom (period lookback : ℕ) (thr : ℚ)
deriving DecidableEq, Repr

inductive Expr where
  | atom (a : Atom)
  | both (a b : Expr)
  | either (a b : Expr)
deriving DecidableEq, Repr

/-- The predicate of an atom at bar `i`. `sqrt` is `math.sqrt`. -/
def Atom.eval (sqrt : ℚ → ℚ) (s : Ohlc) (i : ℕ) : Atom → Except String Bool
  | .smaStack periods => evalSmaStack s.closes periods i
  | .smaAbove period => evalSmaAbove s.closes period i
  | .rsiRange period minVal maxVal => evalRsiRange s.closes period minVal maxVal i
  | .robustOpen =>
    andThen (evalSmaStack s.closes [7, 25, 50] i) (evalRsiRange s.closes 20 55 100 i)
  | .momGt lookback thr => evalMomGt s.closes lookback thr i
  | .momLt lookback thr => evalMomLt s.closes lookback thr i
  | .volLow shortLb longLb => evalVolLow s.closes shortLb longLb i
  | .bbLower period stdDev => evalBbLower sqrt s.closes period stdDev i
  | .bbUpper period stdDev => evalBbUpper sqrt s.closes period stdDev i
  | .donHi n => Signals.donHi s n i
  | .donLo n => Signals.donLo s n i
  | .htfSma tf period => htfCloseAboveMa s.closes i tf.bars period
  | .smaRsi period minVal =>
    andThen (evalSmaAbove s.closes period i) (evalRsiRange s.closes 14 minVal 100 i)
  | .smaMom period lookback thr =>
    andThen (evalSmaAbove s.closes period i) (evalMomGt s.closes lookback thr i)

def Expr.eval (sqrt : ℚ → ℚ) (s : Ohlc) (i : ℕ) : Expr → Except String Bool
  | .atom a => a.eval sqrt s i
  | .both a b => andThen (a.eval sqrt s i) (b.eval sqrt s i)
  | .either a b => orElse (a.eval sqrt s i) (b.eval sqrt s i)

/-! ## What a strategy reads -/

/-- Bars an atom reads, the decision bar included. -/
def Atom.lookback : Atom → ℕ
  | .smaStack periods => periods.foldr max 1
  | .smaAbove period => max period 1
  | .rsiRange period _ _ => period.toNat + 1
  | .robustOpen => 50
  | .momGt lookback _ => lookback + 1
  | .momLt lookback _ => lookback + 1
  | .volLow shortLb longLb => max shortLb longLb + 1
  | .bbLower period _ => max period 1
  | .bbUpper period _ => max period 1
  | .donHi n => n + 1
  | .donLo n => max (n + 1) (NEAR_ATR_PERIOD + 1)
  | .htfSma tf period => period * tf.bars
  | .smaRsi period _ => max period 15
  | .smaMom period lookback _ => max period (lookback + 1)

def Expr.lookback : Expr → ℕ
  | .atom a => a.lookback
  | .both a b => max a.lookback b.lookback
  | .either a b => max a.lookback b.lookback

/-- The bucket sizes the atom's verdict depends on. With `period` 1 the mean is
the close itself, which is never above itself. -/
def Atom.timeframes : Atom → List Timeframe
  | .htfSma tf period => if 2 ≤ period then [tf] else []
  | _ => []

def Expr.timeframes : Expr → List Timeframe
  | .atom a => a.timeframes
  | .both a b => a.timeframes ++ b.timeframes
  | .either a b => a.timeframes ++ b.timeframes

theorem le_foldr_max {p : ℕ} {periods : List ℕ} (h : p ∈ periods) : p ≤ periods.foldr max 1 := by
  induction periods with
  | nil => cases h
  | cons q periods ih =>
    rcases List.mem_cons.mp h with rfl | h
    · exact Nat.le_max_left _ _
    · exact (ih h).trans (Nat.le_max_right _ _)

theorem one_le_foldr_max (periods : List ℕ) : 1 ≤ periods.foldr max 1 := by
  induction periods with
  | nil => exact le_rfl
  | cons q periods ih => exact ih.trans (Nat.le_max_right _ _)

section SameBars

variable {L : ℕ} {s r : Ohlc} {i j : ℕ} (sqrt : ℚ → ℚ)

theorem Atom.eval_sameBars (h : SameBars L s i r j) (a : Atom) (hL : a.lookback ≤ L)
    (hphase : ∀ tf ∈ a.timeframes, (i + 1) % tf.bars = (j + 1) % tf.bars) :
    a.eval sqrt s i = a.eval sqrt r j := by
  have hc := h.closes
  cases a with
  | smaStack periods =>
    exact evalSmaStack_sameTail hc ((one_le_foldr_max periods).trans hL)
      fun p hp => (le_foldr_max hp).trans hL
  | smaAbove period =>
    simp only [lookback] at hL
    exact evalSmaAbove_sameTail hc (by omega) (by omega)
  | rsiRange period minVal maxVal => exact evalRsiRange_sameTail hc minVal maxVal hL
  | robustOpen =>
    simp only [lookback] at hL
    refine congrArg₂ andThen (evalSmaStack_sameTail hc (by omega) ?_)
      (evalRsiRange_sameTail hc 55 100 (by omega))
    intro p hp
    simp only [List.mem_cons, List.not_mem_nil, or_false] at hp
    omega
  | momGt lookback thr => exact evalMomGt_sameTail hc thr hL
  | momLt lookback thr => exact evalMomLt_sameTail hc thr hL
  | volLow shortLb longLb => exact evalVolLow_sameTail hc hL
  | bbLower period stdDev =>
    simp only [lookback] at hL
    exact evalBbLower_sameTail hc sqrt stdDev (by omega) (by omega)
  | bbUpper period stdDev =>
    simp only [lookback] at hL
    exact evalBbUpper_sameTail hc sqrt stdDev (by omega) (by omega)
  | donHi n => exact donHi_sameBars h hL
  | donLo n =>
    simp only [lookback] at hL
    exact donLo_sameBars h (by omega) (by omega)
  | htfSma tf period =>
    simp only [lookback] at hL
    refine htfCloseAboveMa_sameTail (hc.mono hL) fun hp => hphase tf ?_
    simp [timeframes, hp]
  | smaRsi period minVal =>
    simp only [lookback] at hL
    exact congrArg₂ andThen (evalSmaAbove_sameTail hc (by omega) (by omega))
      (evalRsiRange_sameTail hc minVal 100 (by simp; omega))
  | smaMom period lookback thr =>
    simp only [Atom.lookback] at hL
    exact congrArg₂ andThen (evalSmaAbove_sameTail hc (by omega) (by omega))
      (evalMomGt_sameTail hc thr (by omega))

theorem Expr.eval_sameBars (h : SameBars L s i r j) (e : Expr) (hL : e.lookback ≤ L)
    (hphase : ∀ tf ∈ e.timeframes, (i + 1) % tf.bars = (j + 1) % tf.bars) :
    e.eval sqrt s i = e.eval sqrt r j := by
  induction e with
  | atom a => exact a.eval_sameBars sqrt h hL hphase
  | both a b iha ihb =>
    exact congrArg₂ andThen
      (iha ((Nat.le_max_left _ _).trans hL) fun tf htf => hphase tf (List.mem_append_left _ htf))
      (ihb ((Nat.le_max_right _ _).trans hL) fun tf htf => hphase tf (List.mem_append_right _ htf))
  | either a b iha ihb =>
    exact congrArg₂ orElse
      (iha ((Nat.le_max_left _ _).trans hL) fun tf htf => hphase tf (List.mem_append_left _ htf))
      (ihb ((Nat.le_max_right _ _).trans hL) fun tf htf => hphase tf (List.mem_append_right _ htf))

end SameBars

end PaperTrading.Signals
