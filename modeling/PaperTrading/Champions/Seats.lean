import PaperTrading.Champions.Updates

/-!
# What a seating does

`seat_library_passes_unlocked` and `_apply_force_admit` go through a list and seat
some of its names. Whether a name is seated depends on the state at the start
alone: a seat changes what is known of its own name and of no other.
`library_fold` and `force_fold` say which names are seated and what becomes of the
others.
-/

namespace PaperTrading.Champions

namespace Seating

variable {claimNames graduated : List String} {reevaluated : String → Bool} {stamp : String}
  {start s : Seating}

/-- The record is seated: a pass of a canonical name that is neither active nor
graduated, and if it is retired then it was evaluated again. -/
def Seats (claimNames graduated : List String) (reevaluated : String → Bool) (s : Seating)
    (r : EvalRow) : Prop :=
  r.strategy ∈ claimNames ∧ verdictQualified r = true ∧ r.strategy ∉ s.st.map (·.name) ∧
    r.strategy ∉ graduated ∧
    (if (s.archive r.strategy).isSome then reevaluated r.strategy else !s.existing r.strategy) = true

/-- The row `_label_auto_library` leaves. -/
def libraryRow (stamp : String) (r : EvalRow) : Champion :=
  { rowOf r with admittedAt := some stamp, championSince := some stamp }

theorem library_of_seats {r : EvalRow} (h : s.Seats claimNames graduated reevaluated r) :
    s.library claimNames graduated reevaluated stamp r =
      { st := s.st ++ [libraryRow stamp r]
        existing := Function.update s.existing r.strategy true
        archive := Function.update s.archive r.strategy none
        admitted := s.admitted ++ [r.strategy] } := by
  obtain ⟨hclaim, hpass, hpool, hgrad, hlast⟩ := h
  unfold library
  dsimp only
  rw [if_neg (not_not.mpr ⟨hclaim, hpass⟩), if_neg (not_or.mpr ⟨hpool, hgrad⟩)]
  by_cases hretired : (s.archive r.strategy).isSome
  · rw [if_pos hretired] at hlast
    rw [if_neg (fun hno => hno.2 hlast)]
    have hforget : s.forget r.strategy =
        { s with existing := Function.update s.existing r.strategy false } := if_pos hretired
    rw [hforget, if_neg (by simp)]
    unfold admitRow libraryRow
    dsimp only
    rw [show (rowOf r).name = r.strategy from rfl, Function.update_idem]
  · rw [if_neg hretired] at hlast
    rw [if_neg (fun hno => hretired hno.1)]
    have hforget : s.forget r.strategy = s := if_neg hretired
    rw [hforget, if_neg (by simpa using hlast)]
    rfl

theorem library_of_not_seats {r : EvalRow} (h : ¬ s.Seats claimNames graduated reevaluated r) :
    s.library claimNames graduated reevaluated stamp r = s := by
  unfold library
  dsimp only
  split
  next => rfl
  next hpass =>
    split
    next => rfl
    next hknown =>
      rw [not_not] at hpass
      rw [not_or] at hknown
      have hlast : ¬ (if (s.archive r.strategy).isSome then reevaluated r.strategy
          else !s.existing r.strategy) = true :=
        fun hlast => h ⟨hpass.1, hpass.2, hknown.1, hknown.2, hlast⟩
      by_cases hretired : (s.archive r.strategy).isSome
      · rw [if_pos hretired] at hlast
        rw [if_pos ⟨hretired, hlast⟩]
      · rw [if_neg hretired] at hlast
        rw [if_neg (fun hno => hretired hno.1)]
        have hforget : s.forget r.strategy = s := if_neg hretired
        rw [hforget, if_pos (by simpa using hlast)]

/-- A seating that began at `start`: it has appended the rows it admitted, and of
a name it has not admitted it knows what was known at the start. -/
structure Past (start s : Seating) : Prop where
  rows : ∃ rows, s.st = start.st ++ rows ∧ s.admitted = rows.map (·.name)
  kept : ∀ n ∉ s.admitted, s.existing n = start.existing n ∧ s.archive n = start.archive n
  seated : ∀ n ∈ s.admitted, n ∉ start.st.map (·.name) ∧ s.existing n = true
  nodup : s.admitted.Nodup

theorem Past.self (h : start.admitted = []) : Past start start where
  rows := ⟨[], (List.append_nil _).symm, h⟩
  kept := fun _ _ => ⟨rfl, rfl⟩
  seated := fun n hn => by rw [h] at hn; cases hn
  nodup := by rw [h]; exact List.nodup_nil

theorem Past.mem_names (h : Past start s) {n : String} (hn : n ∉ s.admitted) :
    n ∈ s.st.map (·.name) ↔ n ∈ start.st.map (·.name) := by
  obtain ⟨rows, hst, hadm⟩ := h.rows
  rw [hst, List.map_append, List.mem_append, ← hadm]
  exact ⟨fun hmem => hmem.resolve_right hn, Or.inl⟩

theorem Past.not_admitted (h : Past start s) {n : String} (hn : n ∉ s.st.map (·.name)) :
    n ∉ s.admitted := by
  obtain ⟨rows, hst, hadm⟩ := h.rows
  rw [hst, List.map_append, List.mem_append, not_or, ← hadm] at hn
  exact hn.2

/-- The row of a name that was not admitted yet is appended. -/
theorem Past.admitted_row (h : Past start s) (row : Champion) {archive : String → Option RetiredRow}
    (hnew : row.name ∉ s.admitted) (hfree : row.name ∉ start.st.map (·.name))
    (harchive : ∀ n ≠ row.name, archive n = s.archive n) :
    Past start { s.admitRow row with archive := archive } where
  rows := by
    obtain ⟨rows, hst, hadm⟩ := h.rows
    refine ⟨rows ++ [row], ?_, ?_⟩
    · show s.st ++ [row] = _
      rw [hst, List.append_assoc]
    · show s.admitted ++ [row.name] = _
      rw [hadm, List.map_append]
      rfl
  kept := fun n hn => by
    obtain ⟨hn, hne⟩ := not_or.mp fun hor => hn (List.mem_append.mpr hor)
    rw [List.mem_singleton] at hne
    refine ⟨?_, ?_⟩
    · show Function.update s.existing row.name true n = _
      rw [Function.update_of_ne hne]
      exact (h.kept n hn).1
    · rw [show ({ s.admitRow row with archive := archive } : Seating).archive n = archive n from rfl,
        harchive n hne]
      exact (h.kept n hn).2
  seated := fun n hn => by
    show n ∉ _ ∧ Function.update s.existing row.name true n = true
    by_cases hne : n = row.name
    · subst hne
      exact ⟨hfree, Function.update_self ..⟩
    · rw [Function.update_of_ne hne]
      rcases List.mem_append.mp hn with hn | hn
      · exact h.seated n hn
      · exact absurd (List.mem_singleton.mp hn) hne
  nodup := by
    show (s.admitted ++ [row.name]).Nodup
    rw [List.nodup_append]
    refine ⟨h.nodup, List.nodup_singleton _, fun a ha b hb => ?_⟩
    rintro rfl
    exact hnew (List.mem_singleton.mp hb ▸ ha)

theorem Past.seats_iff (h : Past start s) {r : EvalRow} (hn : r.strategy ∉ s.admitted) :
    s.Seats claimNames graduated reevaluated r ↔ start.Seats claimNames graduated reevaluated r := by
  unfold Seats
  rw [h.mem_names hn, (h.kept _ hn).1, (h.kept _ hn).2]

/-- The names the records of a list seat, from `start`. -/
def SeatedBy (claimNames graduated : List String) (reevaluated : String → Bool) (start : Seating)
    (records : List EvalRow) (n : String) : Prop :=
  ∃ r ∈ records, r.strategy = n ∧ start.Seats claimNames graduated reevaluated r

variable (claimNames graduated reevaluated stamp) in
/-- The records that pass are seated and taken out of the archive; of the other
names nothing changes. -/
theorem library_fold (h : start.admitted = []) (records : List EvalRow) :
    let s := records.foldl (library claimNames graduated reevaluated stamp) start
    Past start s ∧ (∀ n ∈ s.admitted, s.archive n = none) ∧
      ∀ n, n ∈ s.admitted ↔ SeatedBy claimNames graduated reevaluated start records n := by
  -- from the right: what the last record finds is what the others left
  induction records using List.reverseRecOn with
  | nil =>
    refine ⟨.self h, fun n hn => ?_, fun n => ⟨fun hn => ?_, fun ⟨_, hr, _⟩ => by cases hr⟩⟩ <;>
    · rw [List.foldl_nil, h] at hn
      cases hn
  | append_singleton records r ih =>
    obtain ⟨hpast, hnone, hadm⟩ := ih
    dsimp only
    rw [List.foldl_append, List.foldl_cons, List.foldl_nil]
    by_cases hseats : (records.foldl (library claimNames graduated reevaluated stamp)
        start).Seats claimNames graduated reevaluated r
    · have hnew := hpast.not_admitted hseats.2.2.1
      have hstart := (hpast.seats_iff hnew).mp hseats
      rw [library_of_seats hseats]
      refine ⟨hpast.admitted_row (libraryRow stamp r) hnew hstart.2.2.1
        fun n hne => Function.update_of_ne hne .., fun n hn => ?_, fun n => ?_⟩
      · show Function.update (Seating.archive _) r.strategy none n = none
        by_cases hne : n = r.strategy
        · rw [hne]
          exact Function.update_self ..
        · rw [Function.update_of_ne hne]
          rcases List.mem_append.mp hn with hn | hn
          · exact hnone n hn
          · exact absurd (List.mem_singleton.mp hn) hne
      · rw [List.mem_append, List.mem_singleton, hadm]
        constructor
        · rintro (⟨r', hr', hname, hs⟩ | rfl)
          · exact ⟨r', List.mem_append_left _ hr', hname, hs⟩
          · exact ⟨r, List.mem_append_right _ List.mem_cons_self, rfl, hstart⟩
        · rintro ⟨r', hr', rfl, hs⟩
          rcases List.mem_append.mp hr' with hr' | hr'
          · exact .inl ⟨r', hr', rfl, hs⟩
          · exact .inr (by rw [List.mem_singleton.mp hr'])
    · rw [library_of_not_seats hseats]
      refine ⟨hpast, hnone, fun n => ?_⟩
      rw [hadm]
      constructor
      · rintro ⟨r', hr', hname, hs⟩
        exact ⟨r', List.mem_append_left _ hr', hname, hs⟩
      · rintro ⟨r', hr', rfl, hs⟩
        rcases List.mem_append.mp hr' with hr' | hr'
        · exact ⟨r', hr', rfl, hs⟩
        · rw [List.mem_singleton.mp hr'] at hs ⊢
          refine (hadm _).mp ?_
          by_contra hn
          exact hseats ((hpast.seats_iff hn).mpr hs)

/-- The row `_apply_force_admit` appends for a name, if it seats it. -/
def forcedRow (log : List EvalRow) (s : Seating) (name : String) : Option Champion :=
  if s.existing name then none else (log.find? fun row => row.strategy = name).map rowOf

theorem name_of_forcedRow {log : List EvalRow} {name : String} {row : Champion}
    (h : forcedRow log s name = some row) : row.name = name := by
  unfold forcedRow at h
  split at h
  next => cases h
  next =>
    obtain ⟨r, hr, rfl⟩ := Option.map_eq_some_iff.mp h
    exact of_decide_eq_true (List.find?_some hr :)

theorem force_eq (log : List EvalRow) (s : Seating) (name : String) :
    s.force log name =
      match forcedRow log s name with
      | none => s
      | some row => s.admitRow row := by
  unfold force forcedRow
  split
  next => rfl
  next =>
    cases log.find? fun row => row.strategy = name with
    | none => rfl
    | some row => rfl

theorem Past.forcedRow_eq (h : Past start s) {log : List EvalRow} {name : String}
    (hn : name ∉ s.admitted) : forcedRow log s name = forcedRow log start name := by
  unfold forcedRow
  rw [(h.kept _ hn).1]

/-- Every name known at the start is known to stand in the pool. -/
def KnowsPool (s : Seating) : Prop := ∀ n ∈ s.st.map (·.name), s.existing n = true

/-- The forced names that are not known and have a row in the log are seated; the
archive is left as it is. -/
theorem force_fold (hpast : Past start s) (hknows : start.KnowsPool) (log : List EvalRow)
    (names : List String) :
    let t := names.foldl (force log) s
    Past start t ∧ t.archive = s.archive ∧
      (∀ c ∈ t.st, c ∈ s.st ∨ forcedRow log start c.name = some c) ∧
      ∀ n, n ∈ t.admitted ↔
        n ∈ s.admitted ∨ n ∈ names ∧ (forcedRow log start n).isSome = true := by
  induction names using List.reverseRecOn with
  | nil =>
    exact ⟨hpast, rfl, fun _ => Or.inl, fun n =>
      ⟨Or.inl, fun hor => hor.resolve_right fun hno => by cases hno.1⟩⟩
  | append_singleton names name ih =>
    obtain ⟨hpast, harchive, hrows, hadm⟩ := ih
    dsimp only
    rw [List.foldl_append, List.foldl_cons, List.foldl_nil, force_eq]
    have hold : ∀ n, n ∈ s.admitted ∨ n ∈ names ∧ (forcedRow log start n).isSome = true →
        n ∈ s.admitted ∨ n ∈ names ++ [name] ∧ (forcedRow log start n).isSome = true := by
      rintro n (hn | ⟨hn, hsome⟩)
      · exact .inl hn
      · exact .inr ⟨List.mem_append_left _ hn, hsome⟩
    cases hrow : forcedRow log (names.foldl (force log) s) name with
    | none =>
      refine ⟨hpast, harchive, hrows, fun n => ⟨fun hn => hold n ((hadm n).mp hn), fun hn => ?_⟩⟩
      rw [hadm]
      rcases hn with hn | ⟨hn, hsome⟩
      · exact .inl hn
      · rcases List.mem_append.mp hn with hn | hn
        · exact .inr ⟨hn, hsome⟩
        · obtain rfl := List.mem_singleton.mp hn
          refine (hadm n).mp ?_
          by_contra hno
          rw [hpast.forcedRow_eq hno] at hrow
          rw [hrow] at hsome
          cases hsome
    | some row =>
      obtain rfl := name_of_forcedRow hrow
      have hnew : row.name ∉ (names.foldl (force log) s).admitted := fun hn => by
        unfold forcedRow at hrow
        rw [if_pos (hpast.seated _ hn).2] at hrow
        cases hrow
      rw [hpast.forcedRow_eq hnew] at hrow
      have hfree : row.name ∉ start.st.map (·.name) := fun hmem => by
        unfold forcedRow at hrow
        rw [if_pos (hknows _ hmem)] at hrow
        cases hrow
      refine ⟨hpast.admitted_row row hnew hfree fun _ _ => rfl, harchive, fun c hc => ?_, fun n => ?_⟩
      · rcases List.mem_append.mp hc with hc | hc
        · exact hrows c hc
        · rw [List.mem_singleton.mp hc]
          exact .inr hrow
      show n ∈ (names.foldl (force log) s).admitted ++ [row.name] ↔ _
      rw [List.mem_append, List.mem_singleton, hadm]
      constructor
      · rintro (hn | rfl)
        · exact hold n hn
        · exact .inr ⟨List.mem_append_right _ List.mem_cons_self, by rw [hrow]; rfl⟩
      · rintro (hn | ⟨hn, hsome⟩)
        · exact .inl (.inl hn)
        · rcases List.mem_append.mp hn with hn | hn
          · exact .inl (.inr ⟨hn, hsome⟩)
          · exact .inr (List.mem_singleton.mp hn)

end Seating

end PaperTrading.Champions
