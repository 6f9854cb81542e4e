import PaperTrading.Fund.Execution
import PaperTrading.Lib.Groups
import PaperTrading.Lib.IsoWeek
import PaperTrading.Lib.LastByKey

/-!
# The rebalance grid

`rebalance_grid` of `backtesting/fund.py`: the dates a backtest trades on, out of the trading
days. A weekly fund trades on the last trading day of each ISO week, a monthly one on the last
of each month.

`rebalance_grid_lasts` says that these are in order, and that they are the days with no later
trading day in their week (from Monday to Sunday, across the end of a year) or month.
`rebalanceGrid_append` is what a longer window does: days that are added behind the others
change no date of the grid but the last.
-/

namespace PaperTrading.Fund

open PaperTrading.Lib

/-- `FundSpec.rebalance` -/
inductive Cadence where
  | daily
  | weekly
  | monthly
deriving DecidableEq

/-- What a backtest can raise. -/
inductive BacktestError where
  /-- no benchmark bars in the window -/
  | noBars
  /-- `date.fromisoformat` -/
  | badDate (day : Text)
  | indexError
  | keyError (day : Text)
  | zeroDivision
  | cycle (e : CycleError)
deriving DecidableEq

/-- `date.fromisoformat` -/
def fromIsoFormat (day : Text) : Except BacktestError Date :=
  match Date.ofText day with
  | some d => .ok d
  | none => .error (.badDate day)

/-- `key` of a day. -/
def periodKey (cadence : Cadence) (d : Date) : ℕ × ℤ :=
  if cadence = .weekly then d.isoWeek else (d.year, d.month)

/-- A turn of the loop of `rebalance_grid`. -/
def lastOfPeriod (cadence : Cadence) (last : Dict (ℕ × ℤ) Text) (day : Text) :
    Except BacktestError (Dict (ℕ × ℤ) Text) := do
  let d ← fromIsoFormat day
  return last.set (periodKey cadence d) day

/-- `sorted` -/
def sortedTexts (ts : List Text) : List Text := ts.insertionSort fun a b => ¬ b < a

/-- `rebalance_grid` -/
def rebalanceGrid (days : List Text) (cadence : Cadence) : Except BacktestError (List Text) :=
  if cadence = .daily then .ok days
  else do
    let last ← days.foldlM (lastOfPeriod cadence) Dict.empty
    return sortedTexts last.values

example : (rebalanceGrid ["2024-12-27".toList, "2024-12-30".toList, "2025-01-03".toList]
    .weekly).toOption = some ["2024-12-27".toList, "2025-01-03".toList] := by decide

/-! ## Periods -/

/-- The period of a day, of which there is one whatever the day is. -/
def periodOf (cadence : Cadence) (day : Text) : ℕ × ℤ :=
  ((Date.ofText day).map (periodKey cadence)).getD (0, 0)

/-- Two days are of one week or of one month. -/
def SamePeriod (cadence : Cadence) (t u : Text) : Prop :=
  ∃ a b, Date.ofText t = some a ∧ Date.ofText u = some b ∧
    match cadence with
    | .daily => a = b
    | .weekly => a.monday = b.monday
    | .monthly => a.year = b.year ∧ a.month = b.month

theorem samePeriod_iff {cadence : Cadence} (hcadence : cadence ≠ .daily) {t u : Text}
    (ht : (Date.ofText t).isSome) (hu : (Date.ofText u).isSome) :
    periodOf cadence u = periodOf cadence t ↔ SamePeriod cadence t u := by
  obtain ⟨a, ha⟩ := Option.isSome_iff_exists.mp ht
  obtain ⟨b, hb⟩ := Option.isSome_iff_exists.mp hu
  have hkeys : SamePeriod cadence t u ↔ periodKey cadence b = periodKey cadence a := by
    constructor
    · intro h
      obtain ⟨a', b', ha', hb', h⟩ := h
      obtain rfl : a = a' := Option.some.inj (ha.symm.trans ha')
      obtain rfl : b = b' := Option.some.inj (hb.symm.trans hb')
      cases cadence with
      | daily => exact absurd rfl hcadence
      | weekly => exact Date.isoWeek_eq_iff.mpr h.symm
      | monthly => exact Prod.ext h.1.symm (congrArg Nat.cast h.2.symm)
    · intro h
      refine ⟨a, b, ha, hb, ?_⟩
      cases cadence with
      | daily => exact absurd rfl hcadence
      | weekly => exact (Date.isoWeek_eq_iff.mp h).symm
      | monthly =>
        obtain ⟨hyear, hmonth⟩ := Prod.mk.inj h
        exact ⟨hyear.symm, (Int.ofNat.inj hmonth).symm⟩
  rw [hkeys]
  unfold periodOf
  rw [ha, hb]
  rfl

/-! ## The loop -/

/-- The loop returns when every day is a date, with the last day of each period. -/
theorem lasts_ok_iff {cadence : Cadence} {days : List Text} {last : Dict (ℕ × ℤ) Text} :
    days.foldlM (lastOfPeriod cadence) Dict.empty = .ok last ↔
      (∀ t ∈ days, (Date.ofText t).isSome) ∧ last = lastsBy (periodOf cadence) days := by
  suffices hfrom : ∀ (days : List Text) (start : Dict (ℕ × ℤ) Text),
      days.foldlM (lastOfPeriod cadence) start = .ok last ↔
        (∀ t ∈ days, (Date.ofText t).isSome) ∧
          last = days.foldl (fun d t => d.set (periodOf cadence t) t) start from hfrom days _
  intro days
  induction days with
  | nil =>
    intro start
    constructor
    · intro h
      exact ⟨nofun, (Except.ok.inj h).symm⟩
    · intro h
      exact congrArg Except.ok h.2.symm
  | cons t days ih =>
    intro start
    rw [List.foldlM_cons, List.foldl_cons]
    unfold lastOfPeriod fromIsoFormat periodOf
    cases ht : Date.ofText t with
    | none =>
      constructor
      · intro h
        cases h
      · intro h
        have hsome := h.1 t List.mem_cons_self
        rw [ht] at hsome
        cases hsome
    | some d =>
      have hrest := ih (start.set (periodKey cadence d) t)
      unfold lastOfPeriod fromIsoFormat periodOf at hrest
      refine Iff.trans hrest (and_congr_left fun _ => ?_)
      rw [List.forall_mem_cons, ht]
      exact (and_iff_right rfl).symm

/-! ## The grid -/

theorem sortedTexts_sorted {ts : List Text} (h : ts.Nodup) : (sortedTexts ts).Pairwise (· < ·) := by
  have : Std.Total (fun a b : Text => ¬ b < a) := ⟨fun a b => List.le_total a b⟩
  have : IsTrans Text (fun a b => ¬ b < a) := ⟨fun a b c => List.le_trans⟩
  have hnodup : (sortedTexts ts).Nodup := (List.perm_insertionSort _ ts).nodup_iff.mpr h
  refine (List.Pairwise.and (List.pairwise_insertionSort _ ts) hnodup).imp fun h => ?_
  exact Classical.byContradiction fun hlt => h.2 (List.le_antisymm h.1 hlt)

theorem mem_sortedTexts {ts : List Text} {t : Text} : t ∈ sortedTexts ts ↔ t ∈ ts :=
  List.mem_insertionSort _

section
variable {cadence : Cadence} {days grid : List Text}

theorem nodup_days (hdays : days.Pairwise (· < ·)) : days.Nodup := by
  refine hdays.imp fun {t u} hlt heq => ?_
  rw [heq] at hlt
  exact List.lt_irrefl u hlt

/-- The days of a grid: those no later day of their period comes behind. -/
theorem rebalanceGrid_mem (hcadence : cadence ≠ .daily) (hdays : days.Pairwise (· < ·))
    (h : rebalanceGrid days cadence = .ok grid) : (∀ t ∈ days, (Date.ofText t).isSome) ∧
      grid.Pairwise (· < ·) ∧ ∀ t, t ∈ grid ↔
        t ∈ days ∧ ∀ u ∈ days, t < u → periodOf cadence u ≠ periodOf cadence t := by
  unfold rebalanceGrid at h
  rw [if_neg hcadence] at h
  obtain ⟨last, hlast, h⟩ := except_bind_ok h
  obtain rfl := Except.ok.inj h
  obtain ⟨hdates, rfl⟩ := lasts_ok_iff.mp hlast
  refine ⟨hdates, sortedTexts_sorted (nodup_lastsBy days), fun t => ?_⟩
  rw [mem_sortedTexts]
  have hvalue : t ∈ (lastsBy (periodOf cadence) days).values ↔
      ∃ k, (lastsBy (periodOf cadence) days).get? k = some t := by
    unfold Dict.values
    rw [List.mem_map]
    constructor
    · intro h
      obtain ⟨e, he, rfl⟩ := h
      exact ⟨e.1, Dict.get?_eq_some.mpr he⟩
    · intro h
      obtain ⟨k, hk⟩ := h
      exact ⟨(k, t), Dict.get?_eq_some.mp hk, rfl⟩
  rw [hvalue, mem_lastsBy (nodup_days hdays)]
  constructor
  · intro h
    obtain ⟨before, after, rfl, hbehind⟩ := h
    refine ⟨List.mem_append_right _ List.mem_cons_self, fun u hu hlt => ?_⟩
    rcases List.mem_append.mp hu with hu | hu
    · have hbefore := (List.pairwise_append.mp hdays).2.2 u hu t List.mem_cons_self
      exact absurd (List.lt_trans hlt hbefore) (List.lt_irrefl _)
    · rcases List.mem_cons.mp hu with rfl | hu
      · exact absurd hlt (List.lt_irrefl _)
      · exact hbehind u hu
  · intro h
    obtain ⟨before, after, rfl⟩ := List.append_of_mem h.1
    refine ⟨before, after, rfl, fun u hu => h.2 u ?_ ?_⟩
    · exact List.mem_append_right _ (List.mem_cons_of_mem t hu)
    · exact (List.pairwise_cons.mp (List.pairwise_append.mp hdays).2.1).1 u hu

/-- A day is after another of its text order exactly when its date is. -/
theorem ofText_lt {t u : Text} {a b : Date} (ht : Date.ofText t = some a)
    (hu : Date.ofText u = some b) : t < u ↔ a < b := by
  rw [← Date.text_of_ofText ht, ← Date.text_of_ofText hu]
  exact Date.text_lt_iff

theorem grid_sorted (hdays : days.Pairwise (· < ·)) (h : rebalanceGrid days cadence = .ok grid) :
    grid.Pairwise (· < ·) := by
  by_cases hcadence : cadence = .daily
  · unfold rebalanceGrid at h
    rw [if_pos hcadence] at h
    rw [← Except.ok.inj h]
    exact hdays
  · exact (rebalanceGrid_mem hcadence hdays h).2.1

theorem mem_grid (hdays : days.Pairwise (· < ·)) (h : rebalanceGrid days cadence = .ok grid)
    (t : Text) : t ∈ grid ↔ t ∈ days ∧ ∀ u ∈ days, t < u → ¬ SamePeriod cadence t u := by
  by_cases hcadence : cadence = .daily
  · subst hcadence
    unfold rebalanceGrid at h
    rw [if_pos rfl] at h
    obtain rfl := Except.ok.inj h
    refine ⟨fun ht => ⟨ht, fun u _ hlt hsame => ?_⟩, And.left⟩
    obtain ⟨a, b, ha, hb, heq⟩ := hsame
    exact absurd heq ((ofText_lt ha hb).mp hlt).ne
  · obtain ⟨hdates, -, hmem⟩ := rebalanceGrid_mem hcadence hdays h
    rw [hmem]
    refine and_congr_right fun ht => forall₂_congr fun u hu => imp_congr_right fun _ => ?_
    rw [← samePeriod_iff hcadence (hdates t ht) (hdates u hu)]

/-- The dates a fund trades on: in order, and those of the trading days that no later one of
their week or month comes behind. Every trading day is followed by one of its period. -/
theorem rebalance_grid_lasts (hdays : days.Pairwise (· < ·))
    (h : rebalanceGrid days cadence = .ok grid) : grid.Pairwise (· < ·) ∧
      (∀ t, t ∈ grid ↔ t ∈ days ∧ ∀ u ∈ days, t < u → ¬ SamePeriod cadence t u) ∧
      ∀ t ∈ days, ∃ g ∈ grid, g = t ∨ t < g ∧ SamePeriod cadence t g := by
  refine ⟨grid_sorted hdays h, mem_grid hdays h, fun t ht => ?_⟩
  by_cases hcadence : cadence = .daily
  · unfold rebalanceGrid at h
    rw [if_pos hcadence] at h
    rw [← Except.ok.inj h]
    exact ⟨t, ht, Or.inl rfl⟩
  · obtain ⟨hdates, -, hmem⟩ := rebalanceGrid_mem hcadence hdays h
    -- the last day with the key of `t`
    have hgroup : (days.filter fun u => periodOf cadence u = periodOf cadence t) ≠ [] :=
      List.ne_nil_of_mem (List.mem_filter.mpr ⟨ht, decide_eq_true rfl⟩)
    obtain ⟨g, hg⟩ := Option.ne_none_iff_exists'.mp (mt List.getLast?_eq_none_iff.mp hgroup)
    obtain ⟨before, after, hsplit, hlast⟩ := (mem_lastsBy (nodup_days hdays)).mp
      ⟨periodOf cadence t, (get?_lastsBy days (periodOf cadence t)).trans hg⟩
    obtain ⟨hgdays, hgkey⟩ := List.mem_filter.mp (List.mem_of_getLast? hg)
    have hsame : periodOf cadence g = periodOf cadence t := of_decide_eq_true hgkey
    have hsplit' := hsplit ▸ hdays
    have hbehind := List.pairwise_append.mp hsplit'
    refine ⟨g, (hmem g).mpr ⟨hgdays, fun u hu hlt => ?_⟩, ?_⟩
    · rcases List.mem_append.mp (hsplit ▸ hu) with hu | hu
      · exact absurd (List.lt_trans hlt (hbehind.2.2 u hu g List.mem_cons_self)) (List.lt_irrefl _)
      · rcases List.mem_cons.mp hu with rfl | hu
        · exact absurd hlt (List.lt_irrefl _)
        · exact hlast u hu
    · rcases List.mem_append.mp (hsplit ▸ ht) with htmem | htmem
      · exact Or.inr ⟨hbehind.2.2 t htmem g List.mem_cons_self,
          (samePeriod_iff hcadence (hdates t ht) (hdates g hgdays)).mp hsame⟩
      · rcases List.mem_cons.mp htmem with rfl | htmem
        · exact Or.inl rfl
        · exact absurd hsame.symm (hlast t htmem)

theorem rebalance_grid_lasts_weekly : ["2024-12-27".toList, "2025-01-03".toList].Pairwise (· < ·) ∧
    SamePeriod .weekly "2024-12-30".toList "2025-01-03".toList := by
  obtain ⟨hsorted, -, hlasts⟩ := @rebalance_grid_lasts .weekly
    ["2024-12-27".toList, "2024-12-30".toList, "2025-01-03".toList]
    ["2024-12-27".toList, "2025-01-03".toList] (by decide) (by decide +kernel)
  refine ⟨hsorted, ?_⟩
  obtain ⟨g, hg, hfollows⟩ := hlasts "2024-12-30".toList (by decide)
  rcases List.mem_cons.mp hg with rfl | hg
  · rcases hfollows with h | ⟨h, -⟩
    · exact absurd h (by decide)
    · exact absurd h (by decide)
  · obtain rfl := List.mem_singleton.mp hg
    rcases hfollows with h | ⟨-, h⟩
    · exact absurd h (by decide)
    · exact h

/-! ## A longer window -/

theorem monday_mono {a b : Date} (h : a < b) : a.monday ≤ b.monday := by
  have hlt := Date.ordinal_lt h
  unfold Date.monday
  omega

/-- A day between two of one period is of that period. -/
theorem samePeriod_between {t u v : Text} (hu : (Date.ofText u).isSome) (htu : t < u) (huv : u < v)
    (h : SamePeriod cadence t v) : SamePeriod cadence t u := by
  obtain ⟨a, c, ha, hc, h⟩ := h
  obtain ⟨b, hb⟩ := Option.isSome_iff_exists.mp hu
  have hab : a < b := (ofText_lt ha hb).mp htu
  have hbc : b < c := (ofText_lt hb hc).mp huv
  refine ⟨a, b, ha, hb, ?_⟩
  cases cadence with
  | daily => exact absurd (hab.trans hbc) (h ▸ lt_irrefl a)
  | weekly =>
    have hlow := monday_mono hab
    have hhigh := monday_mono hbc
    have hsame : a.monday = c.monday := h
    exact le_antisymm hlow (hhigh.trans hsame.ge)
  | monthly =>
    obtain ⟨hyear, hmonth⟩ : a.year = c.year ∧ a.month = c.month := h
    have hlow := Date.lt_iff.mp hab
    have hhigh := Date.lt_iff.mp hbc
    have haday := a.day_lt
    have hbday := b.day_lt
    have hcday := c.day_lt
    have hbmonth := b.month_in
    have hcmonth := c.month_in
    unfold Date.digits at hlow hhigh
    refine ⟨?_, ?_⟩ <;> omega

/-- Later days change no date of the grid but its last one. -/
theorem rebalanceGrid_append {front back after : List Text}
    (hdays : (front ++ back).Pairwise (· < ·)) (h : rebalanceGrid front cadence = .ok grid)
    (hafter : rebalanceGrid (front ++ back) cadence = .ok after) :
    grid.dropLast <+: after ∧ ∀ last ∈ grid.getLast?, last ∈ after → grid <+: after := by
  obtain ⟨hfront, -, hbehind⟩ := List.pairwise_append.mp hdays
  have hsorted := grid_sorted hfront h
  have hmem := mem_grid hfront h
  have hsorted' := grid_sorted hdays hafter
  have hmem' := mem_grid hdays hafter
  have hdates : ∀ u ∈ front, ∀ t, t < u → ∀ v, u < v → SamePeriod cadence t v →
      SamePeriod cadence t u := by
    intro u hu t htu v huv hsame
    by_cases hcadence : cadence = .daily
    · obtain ⟨a, b, ha, hb, heq⟩ := hsame
      subst hcadence
      exact absurd heq ((ofText_lt ha hb).mp (List.lt_trans htu huv)).ne
    · exact samePeriod_between ((rebalanceGrid_mem hcadence hfront h).1 u hu) htu huv hsame
  -- what the grids have in common below a day of the front
  have hshared : ∀ u ∈ front, ∀ t, t < u → (t ∈ grid ↔ t ∈ after) := by
    intro u hu t htu
    have htfront : t ∈ front ++ back → t ∈ front := by
      intro ht
      rcases List.mem_append.mp ht with ht | ht
      · exact ht
      · exact absurd (List.lt_trans htu (hbehind u hu t ht)) (List.lt_irrefl _)
    rw [hmem, hmem']
    constructor
    · intro ht
      refine ⟨List.mem_append_left _ ht.1, fun v hv htv hsame => ?_⟩
      rcases List.mem_append.mp hv with hv | hv
      · exact ht.2 v hv htv hsame
      · exact ht.2 u hu htu (hdates u hu t htu v (hbehind u hu v hv) hsame)
    · intro ht
      exact ⟨htfront ht.1, fun v hv => ht.2 v (List.mem_append_left _ hv)⟩
  have hprefix : ∀ l : List Text, l <+: grid → (∀ t ∈ l, t ∈ after) → l <+: after := by
    intro l hl hsub
    refine prefix_of_sorted (fun a => List.lt_irrefl a) (fun a b c => List.lt_trans)
      (hsorted.sublist hl.sublist) hsorted' hsub fun t ht u hu htu => ?_
    have hugrid : u ∈ grid := hl.subset hu
    have htgrid : t ∈ grid := (hshared u ((hmem u).mp hugrid).1 t htu).mpr ht
    obtain ⟨rest, rfl⟩ := hl
    rcases List.mem_append.mp htgrid with htl | htrest
    · exact htl
    · exact absurd (List.lt_trans htu ((List.pairwise_append.mp hsorted).2.2 u hu t htrest))
        (List.lt_irrefl _)
  rcases List.eq_nil_or_concat grid with hnil | ⟨init, last, hlast⟩
  · rw [hnil]
    exact ⟨List.nil_prefix, fun _ h => nomatch h⟩
  · rw [List.concat_eq_append] at hlast
    have hinit : ∀ t ∈ init, t ∈ after := by
      intro t ht
      have hlt : t < last := by
        rw [hlast] at hsorted
        exact (List.pairwise_append.mp hsorted).2.2 t ht last (List.mem_singleton_self _)
      have hlastmem : last ∈ grid := hlast ▸ List.mem_append_right _ (List.mem_singleton_self _)
      exact (hshared last ((hmem last).mp hlastmem).1 t hlt).mp
        (hlast ▸ List.mem_append_left _ ht)
    refine ⟨?_, fun l hl hin => hprefix grid List.prefix_rfl fun t ht => ?_⟩
    · rw [hlast, List.dropLast_concat]
      exact hprefix init (hlast ▸ List.prefix_append _ _) hinit
    · rw [hlast, List.getLast?_concat] at hl
      obtain rfl := Option.some.inj hl
      rw [hlast] at ht
      rcases List.mem_append.mp ht with ht | ht
      · exact hinit t ht
      · exact List.mem_singleton.mp ht ▸ hin

end

end PaperTrading.Fund
