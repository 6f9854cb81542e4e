import PaperTrading.Fund.Signal
import PaperTrading.Lib.CalendarDate
import PaperTrading.Lib.StableRank
import PaperTrading.Lib.Groups

/-!
# Post-earnings drift

`PEADModel` of `signals/pead.py`: the newest surprise that was filed by the day, while it is
fresh. The filings of one report period are reduced to one, by their type, and only then is the
day looked at. So a filing of a later day can take the place of one that was known
(`displaced`). `predict_past_iff` says exactly when the view of a day is the one that the
filings up to that day give.

What the data client returns is a parameter. Dates are dates of the calendar.
-/

namespace PaperTrading.Fund

open PaperTrading.Lib

def RETROSPECTIVE_CUTOFF_DAYS : ℤ := 45

/-- `_SOURCE_PRIORITY.get(source_type, 99)` -/
def sourcePriority (sourceType : Text) : ℕ :=
  if sourceType = "8-K".toList then 0
  else if sourceType = "10-Q".toList then 1
  else if sourceType = "10-K".toList then 2
  else if sourceType = "20-F".toList then 3
  else 99

structure EarningsData where
  epsSurprise : Option Text

/-- One filing about a fiscal period. -/
structure EarningsRecord where
  ticker : Text
  reportPeriod : Date
  sourceType : Text
  filingDate : Option Date
  quarterly : Option EarningsData

/-- What `_qualifying_events` lists. -/
structure Event where
  filingDate : Date
  reportPeriod : Date
  sourceType : Text
  surprise : Text
deriving DecidableEq

/-- A filing that counts: dated, with a surprise, and not far behind its period. -/
def qualifying (r : EarningsRecord) : Option Event :=
  match r.filingDate, r.quarterly with
  | some filed, some quarterly =>
    match quarterly.epsSurprise with
    | none => none
    | some surprise =>
      if surprise ≠ "BEAT".toList ∧ surprise ≠ "MISS".toList then none
      else if RETROSPECTIVE_CUTOFF_DAYS ≤ filed.ordinal - r.reportPeriod.ordinal then none
      else some ⟨filed, r.reportPeriod, r.sourceType, surprise⟩
  | _, _ => none

/-- Keep the filing of the best type for each report period. -/
def keepBest (best : Dict Date Event) (e : Event) : Dict Date Event :=
  match best.get? e.reportPeriod with
  | none => best.set e.reportPeriod e
  | some kept =>
    if sourcePriority e.sourceType < sourcePriority kept.sourceType then best.set e.reportPeriod e
    else best

/-- The events that are left, one a report period. -/
def kept (events : List Event) : List Event :=
  (events.foldl keepBest Dict.empty).entries.map Prod.snd

/-- `_qualifying_events`, of the records of the ticker. -/
def qualifyingEvents (records : List EarningsRecord) : List Event :=
  kept (records.filterMap qualifying)

def PEAD : Text := "pead".toList

/-- `_neutral` -/
def neutral (ticker : Text) (date : Date) : Signal where
  modelName := PEAD
  ticker := ticker
  date := date.text
  value := 0
  reasoning := none
  metadata := Dict.empty

/-- The signal of an event. -/
def announced (ticker : Text) (date : Date) (e : Event) : Signal where
  modelName := PEAD
  ticker := ticker
  date := date.text
  value := if e.surprise = "BEAT".toList then 1 else -1
  reasoning := some (e.surprise ++ " on ".toList ++ e.reportPeriod.text ++
    " earnings (filed ".toList ++ e.filingDate.text ++ ", ".toList ++ e.sourceType ++ ")".toList)
  metadata := (((Dict.empty.set "eps_surprise".toList (.text e.surprise)).set
    "source_type".toList (.text e.sourceType)).set
    "report_period".toList (.text e.reportPeriod.text)).set
    "filing_date".toList (.text e.filingDate.text)

/-- `max(past, key=lambda e: e["filing_date"])` -/
def newest (past : List Event) : Option Event :=
  firstLeast (fun e => OrderDual.toDual e.filingDate) past

/-- The event is not older than the window. -/
def Fresh (window : ℤ) (date : Date) (e : Event) : Prop :=
  date.ordinal - e.filingDate.ordinal ≤ window

instance (window : ℤ) (date : Date) (e : Event) : Decidable (Fresh window date e) :=
  inferInstanceAs (Decidable (_ ≤ _))

/-- The events filed on the day or before. -/
def past (date : Date) (events : List Event) : List Event :=
  events.filter fun e => e.filingDate ≤ date

/-- What `predict` makes of the events. -/
def view (window : ℤ) (ticker : Text) (date : Date) (events : List Event) : Signal :=
  match newest (past date events) with
  | none => neutral ticker date
  | some e => if Fresh window date e then announced ticker date e else neutral ticker date

structure PEADModel where
  earningsLimit : ℕ
  signalWindowDays : ℤ
  /-- fetched once per ticker -/
  cache : Dict Text (List EarningsRecord)

/-- `data_client.get_earnings_history` -/
abbrev Client := Text → ℕ → List EarningsRecord

/-- The records of a ticker, from the cache or from the client. -/
def PEADModel.history (m : PEADModel) (ticker : Text) (client : Client) : List EarningsRecord :=
  (m.cache.get? ticker).getD (client ticker m.earningsLimit)

def PEADModel.predict (m : PEADModel) (ticker : Text) (date : Date) (client : Client) :
    Signal × PEADModel :=
  (view m.signalWindowDays ticker date (qualifyingEvents (m.history ticker client)),
    match m.cache.get? ticker with
    | some _ => m
    | none => { m with cache := m.cache.set ticker (m.history ticker client) })

/-! ## One filing a period -/

/-- The first filing of the best type for a period. -/
def keptOf (events : List Event) (period : Date) : Option Event :=
  firstLeast (fun e => sourcePriority e.sourceType) (events.filter fun e => e.reportPeriod = period)

/-- `keepBest` keeps in place the lesser of the two. -/
theorem entries_keepBest {best : Dict Date Event} {f : Dict Date (Option Event)}
    (h : f.entries = best.entries.map fun e => (e.1, some e.2)) (e : Event) :
    (f.set e.reportPeriod (lesserOf (fun e => sourcePriority e.sourceType)
        ((f.get? e.reportPeriod).getD none) e)).entries =
      (keepBest best e).entries.map fun e => (e.1, some e.2) := by
  rw [Dict.get?_of_entries_map h]
  unfold keepBest lesserOf
  cases hkept : best.get? e.reportPeriod with
  | none => exact Dict.entries_set_map h _ e
  | some k =>
    dsimp only [Option.map_some, Option.getD_some]
    by_cases hbetter : sourcePriority e.sourceType < sourcePriority k.sourceType
    · rw [if_pos hbetter, if_pos hbetter]
      exact Dict.entries_set_map h _ e
    · rw [if_neg hbetter, if_neg hbetter, Dict.entries_set_map h, Dict.set_of_get? hkept]

theorem entries_foldl_keepBest (events : List Event) :
    (foldedBy Event.reportPeriod (lesserOf fun e => sourcePriority e.sourceType) none
        events).entries =
      (events.foldl keepBest Dict.empty).entries.map fun e => (e.1, some e.2) := by
  induction events using List.reverseRecOn with
  | nil => rfl
  | append_singleton events e ih =>
    unfold foldedBy at ih ⊢
    rw [List.foldl_append, List.foldl_append]
    exact entries_keepBest ih e

/-- The kept events, in the order in which their periods were first met. -/
theorem kept_eq (events : List Event) :
    kept events = (firstSeen (events.map Event.reportPeriod)).filterMap (keptOf events) := by
  have hvalues : (events.foldl keepBest Dict.empty).entries.map Prod.snd =
      ((events.foldl keepBest Dict.empty).entries.map fun e => (e.1, some e.2)).filterMap
        Prod.snd := by
    rw [List.filterMap_map]
    exact (congrFun List.filterMap_eq_map _).symm
  unfold kept
  rw [hvalues, ← entries_foldl_keepBest, entries_foldedBy, entries_groupedBy, List.map_map,
    List.filterMap_map]
  rfl

theorem period_of_keptOf {events : List Event} {period : Date} {e : Event}
    (h : keptOf events period = some e) : e ∈ events ∧ e.reportPeriod = period := by
  obtain ⟨hmem, hperiod⟩ := List.mem_filter.mp (firstLeast_mem h)
  exact ⟨hmem, of_decide_eq_true hperiod⟩

theorem mem_kept {events : List Event} {e : Event} :
    e ∈ kept events ↔ keptOf events e.reportPeriod = some e := by
  rw [kept_eq, List.mem_filterMap]
  constructor
  · rintro ⟨period, _, h⟩
    rw [(period_of_keptOf h).2]
    exact h
  · intro h
    exact ⟨_, mem_firstSeen.mpr (List.mem_map_of_mem (period_of_keptOf h).1), h⟩

/-- Without the events of later days, one that was kept still is. -/
theorem kept_of_filter {events : List Event} {e : Event} {p : Event → Bool} (h : e ∈ kept events)
    (hp : p e = true) : e ∈ kept (events.filter p) := by
  rw [mem_kept] at h ⊢
  unfold keptOf at h ⊢
  rw [List.filter_comm]
  exact firstLeast_filter h hp

/-! ## The filings up to a day -/

/-- The record was filed on the day or before. -/
def filedBy (date : Date) (r : EarningsRecord) : Bool := r.filingDate.any (· ≤ date)

theorem filingDate_of_qualifying {r : EarningsRecord} {e : Event} (h : qualifying r = some e) :
    r.filingDate = some e.filingDate := by
  unfold qualifying at h
  split at h
  next filed quarterly hfiled hquarterly =>
    split at h
    · cases h
    · split at h
      · cases h
      · split at h
        · cases h
        · cases h
          exact hfiled
  next => cases h

/-- The events of the records filed by a day are those that were filed by then. -/
theorem qualifying_filedBy (date : Date) (records : List EarningsRecord) :
    (records.filter (filedBy date)).filterMap qualifying =
      past date (records.filterMap qualifying) := by
  unfold past
  rw [List.filterMap_filter, List.filter_filterMap]
  refine List.filterMap_congr fun r _ => ?_
  cases hr : qualifying r with
  | none =>
    rw [ite_self]
    rfl
  | some e =>
    unfold filedBy
    rw [filingDate_of_qualifying hr, Option.any_some]
    rfl

section
variable {window : ℤ} {ticker : Text} {date : Date}

theorem announced_injective {e e' : Event} (h : announced ticker date e = announced ticker date e') :
    e.reportPeriod = e'.reportPeriod := by
  have hmeta : (announced ticker date e).metadata.get? "report_period".toList =
      (announced ticker date e').metadata.get? "report_period".toList := by rw [h]
  have hget : ∀ e : Event, (announced ticker date e).metadata.get? "report_period".toList =
      some (.text e.reportPeriod.text) := by
    intro e
    unfold announced
    simp only [Dict.get?_set]
    rfl
  rw [hget, hget] at hmeta
  exact Date.text_injective (MetaValue.text.inj (Option.some.inj hmeta))

theorem view_of_newest {events : List Event} {e : Event}
    (h : newest (past date events) = some e)
    (hfresh : Fresh window date e) :
    view window ticker date events = announced ticker date e := by
  unfold view
  rw [h]
  exact if_pos hfresh

theorem view_neutral (events : List Event)
    (h : ∀ e, newest (past date events) = some e →
      ¬ Fresh window date e) :
    view window ticker date events = neutral ticker date := by
  unfold view
  cases he : newest (past date events) with
  | none => rfl
  | some e => exact if_neg (h e he)

theorem newest_le {events : List Event} {e : Event} (h : newest events = some e) :
    ∀ x ∈ events, x.filingDate ≤ e.filingDate :=
  fun x hx => firstLeast_le h x hx

/-- Where the newest event is not fresh, none of them is. -/
theorem not_fresh_of_le {x e : Event} (hle : x.filingDate ≤ e.filingDate)
    (h : ¬ Fresh window date e) : ¬ Fresh window date x := by
  have hdays := Date.ordinal_le hle
  unfold Fresh at h ⊢
  omega

/-- The event that the filings up to the day announce, if it is fresh, is kept when the later
ones are there too, and none kept before it was filed on its day. -/
def Undisplaced (window : ℤ) (date : Date) (records : List EarningsRecord) : Prop :=
  ∀ e, newest (qualifyingEvents (records.filter (filedBy date))) = some e → Fresh window date e →
    ∃ l₁ l₂, qualifyingEvents records = l₁ ++ e :: l₂ ∧ ∀ x ∈ l₁, x.filingDate ≠ e.filingDate

/-- All events of the filings up to the day are of the day or before. -/
theorem qualifyingEvents_filedBy (records : List EarningsRecord) :
    past date (qualifyingEvents (records.filter (filedBy date))) =
      qualifyingEvents (records.filter (filedBy date)) := by
  refine List.filter_eq_self.mpr fun e he => ?_
  unfold qualifyingEvents at he
  rw [qualifying_filedBy] at he
  exact (List.mem_filter.mp (period_of_keptOf (mem_kept.mp he)).1).2

theorem mem_past {events : List Event} {e : Event} :
    e ∈ past date events ↔ e ∈ events ∧ e.filingDate ≤ date := by
  unfold past
  rw [List.mem_filter, decide_eq_true_eq]

theorem past_split {l₁ l₂ : List Event} {e : Event} (h : e.filingDate ≤ date) :
    past date (l₁ ++ e :: l₂) = past date l₁ ++ e :: past date l₂ := by
  unfold past
  rw [List.filter_append, List.filter_cons, if_pos (decide_eq_true h)]

theorem kept_filedBy {records : List EarningsRecord} {e : Event}
    (h : e ∈ past date (qualifyingEvents records)) :
    e ∈ qualifyingEvents (records.filter (filedBy date)) := by
  obtain ⟨hkept, hday⟩ := mem_past.mp h
  unfold qualifyingEvents
  rw [qualifying_filedBy]
  exact kept_of_filter hkept (decide_eq_true hday)

/-- The view is that of the filings up to the day exactly when its event is not displaced. -/
theorem view_past_iff (window : ℤ) (ticker : Text) (date : Date) (records : List EarningsRecord) :
    view window ticker date (qualifyingEvents records) =
        view window ticker date (qualifyingEvents (records.filter (filedBy date))) ↔
      Undisplaced window date records := by
  constructor
  · intro hview e he hfresh
    have hpast : view window ticker date (qualifyingEvents (records.filter (filedBy date))) =
        announced ticker date e :=
      view_of_newest (by rw [qualifyingEvents_filedBy]; exact he) hfresh
    rw [hpast] at hview
    unfold view at hview
    split at hview
    next => exact absurd (congrArg Signal.reasoning hview) nofun
    next e' he' =>
      split at hview
      next =>
        -- two kept events of one period are one
        have hperiod := announced_injective hview
        have hsame : e' = e := by
          have hkept := mem_kept.mp (kept_filedBy (firstLeast_mem he'))
          rw [hperiod, mem_kept.mp (firstLeast_mem he)] at hkept
          exact (Option.some.inj hkept).symm
        rw [hsame] at he'
        obtain ⟨hmem, hday⟩ := mem_past.mp (firstLeast_mem he')
        obtain ⟨l₁, l₂, hl, hfirst⟩ := List.eq_append_cons_of_mem hmem
        refine ⟨l₁, l₂, hl, fun x hx heq => ?_⟩
        rw [hl, past_split hday] at he'
        have hlt := lt_of_firstLeast he' (fun h => hfirst (mem_past.mp h).1) x
          (mem_past.mpr ⟨hx, heq ▸ hday⟩)
        rw [heq] at hlt
        exact lt_irrefl _ hlt
      next => exact absurd (congrArg Signal.reasoning hview) nofun
  · intro h
    cases he : newest (qualifyingEvents (records.filter (filedBy date))) with
    | none =>
      have hnone := firstLeast_eq_none.mp he
      rw [view_neutral (qualifyingEvents (records.filter (filedBy date)))
        (fun e' he' => by rw [qualifyingEvents_filedBy, he] at he'; cases he')]
      refine view_neutral _ fun e' he' => ?_
      have hmem := kept_filedBy (firstLeast_mem he')
      rw [hnone] at hmem
      cases hmem
    | some e =>
      by_cases hfresh : Fresh window date e
      · obtain ⟨l₁, l₂, hl, hother⟩ := h e he hfresh
        have hday : e.filingDate ≤ date := by
          have hmem := firstLeast_mem he
          rw [← qualifyingEvents_filedBy] at hmem
          exact (mem_past.mp hmem).2
        have hle : ∀ x ∈ past date (qualifyingEvents records), x.filingDate ≤ e.filingDate :=
          fun x hx => newest_le he x (kept_filedBy hx)
        have hnewest : newest (past date (qualifyingEvents records)) = some e := by
          rw [hl, past_split hday] at hle ⊢
          refine firstLeast_of_split (fun x hx => ?_) fun x hx => ?_
          · have hlt : x.filingDate < e.filingDate :=
              lt_of_le_of_ne (hle x (List.mem_append_left _ hx)) (hother x (mem_past.mp hx).1)
            exact hlt
          · exact hle x (List.mem_append_right _ (List.mem_cons_of_mem _ hx))
        rw [view_of_newest hnewest hfresh]
        exact (view_of_newest (by rw [qualifyingEvents_filedBy]; exact he) hfresh).symm
      · rw [view_neutral (qualifyingEvents (records.filter (filedBy date))) ?_]
        · refine view_neutral _ fun e' he' => ?_
          exact not_fresh_of_le (newest_le he e' (kept_filedBy (firstLeast_mem he'))) hfresh
        · intro e' he'
          rw [qualifyingEvents_filedBy, he] at he'
          exact Option.some.inj he' ▸ hfresh

end

/-- A model's view of a day is the one that the filings up to the day give exactly when those
filings' event is not displaced. Of two histories that agree up to the day, and displace
nothing, the views agree. -/
theorem predict_past_iff (m m' : PEADModel) (client client' : Client) (ticker : Text)
    (date : Date) (hwindow : m'.signalWindowDays = m.signalWindowDays) :
    (m'.history ticker client' = (m.history ticker client).filter (filedBy date) →
      ((m.predict ticker date client).1 = (m'.predict ticker date client').1 ↔
        Undisplaced m.signalWindowDays date (m.history ticker client))) ∧
    ((m'.history ticker client').filter (filedBy date) =
        (m.history ticker client).filter (filedBy date) →
      Undisplaced m.signalWindowDays date (m.history ticker client) →
      Undisplaced m.signalWindowDays date (m'.history ticker client') →
      (m.predict ticker date client).1 = (m'.predict ticker date client').1) := by
  unfold PEADModel.predict
  rw [hwindow]
  constructor
  · intro hpast
    rw [hpast]
    exact view_past_iff m.signalWindowDays ticker date (m.history ticker client)
  · intro hpast h h'
    have hview := (view_past_iff _ ticker date _).mpr h
    have hview' := (view_past_iff _ ticker date _).mpr h'
    rw [hpast, ← hview] at hview'
    exact hview'.symm

/-- A beat of the first quarter of 2024, filed on a day of 2024. -/
def beat (sourceType : String) (month day : ℕ) (hmonth : 1 ≤ month ∧ month ≤ 12)
    (hday : 1 ≤ day ∧ day ≤ daysInMonth true month) : EarningsRecord where
  ticker := "ACME".toList
  reportPeriod := ⟨2024, 3, 31, by decide, by decide, by decide⟩
  sourceType := sourceType.toList
  filingDate := some ⟨2024, month, day, by decide, hmonth, hday⟩
  quarterly := some ⟨some "BEAT".toList⟩

/-- The quarterly report of April 20. -/
def april : EarningsRecord := beat "10-Q" 4 20 (by decide) (by decide)

/-- An announcement of the same quarter, filed on May 2. -/
def may : EarningsRecord := beat "8-K" 5 2 (by decide) (by decide)

def april22 : Date := ⟨2024, 4, 22, by decide, by decide, by decide⟩

def freshModel : PEADModel := ⟨8, 4, Dict.empty⟩

theorem predict_past_iff_april :
    ((freshModel.predict "ACME".toList april22 fun _ _ => [april, may]).1 =
        (freshModel.predict "ACME".toList april22 fun _ _ => [april]).1 ↔
      Undisplaced 4 april22 [april, may]) ∧
    (freshModel.predict "ACME".toList april22 fun _ _ => [april]).1 =
      (freshModel.predict "ACME".toList april22 fun _ _ => [april]).1 := by
  have hstands : Undisplaced 4 april22 [april] := by
    rw [← view_past_iff 4 [] april22]
    rfl
  exact ⟨(predict_past_iff freshModel freshModel _ _ "ACME".toList april22 rfl).1 rfl,
    (predict_past_iff freshModel freshModel _ _ "ACME".toList april22 rfl).2 rfl hstands hstands⟩

/-- On April 22 the report is known and fresh; once May's announcement is in the history, the
view of April 22 is neutral. -/
theorem displaced : ¬ ∀ (m : PEADModel) (ticker : Text) (date : Date) (client client' : Client),
    (m.history ticker client).filter (filedBy date) =
      (m.history ticker client').filter (filedBy date) →
    (m.predict ticker date client).1 = (m.predict ticker date client').1 := by
  intro h
  have hsame := congrArg Signal.value (h freshModel "ACME".toList april22 (fun _ _ => [april])
    (fun _ _ => [april, may]) rfl)
  revert hsame
  decide

end PaperTrading.Fund
