import Mathlib.Data.String.Basic
import PaperTrading.Champions.FamilyPlan
import PaperTrading.Champions.Seats

/-!
# Rows and the archive

A retired name keeps its row in `retired.json`, under `record`. The operations that
take a row from the pool or from the graduates, or put one back, write up to three
files one after the other; `FileOp.crashes` are the files a crash leaves after each
of these writes. A row is safe if every one of them still has it.

`rows_safe_iff` says when that is so. The archive is written first where a row goes
into it, but an archived row of the same name is overwritten, a graduation leaves
the pool before it is in `graduated.json`, and a name that is seated again leaves the
archive.
-/

namespace PaperTrading.Champions

open PaperTrading.Lib

/-- A row of the pool or of the graduates. -/
inductive Row where
  | champion (c : Champion)
  | graduate (g : Graduate)
deriving DecidableEq, Repr

def Row.name : Row → String
  | .champion c => c.name
  | .graduate g => g.name

/-- The three files. `record` is the row a name was archived with. -/
structure Files where
  book : Book := {}
  record : String → Option Row := fun _ => none

namespace Files

/-- The archive has the row. -/
def Archived (f : Files) (r : Row) : Prop :=
  (f.book.archive r.name).isSome = true ∧ f.record r.name = some r

/-- One of the files has the row. -/
def Held (f : Files) : Row → Prop
  | .champion c => c ∈ f.book.pool ∨ f.Archived (.champion c)
  | .graduate g => g ∈ f.book.graduated ∨ f.Archived (.graduate g)

end Files

/-! ## Operations and their crashes -/

/-- The operations that move rows between the files. `park` is what
`enforce_champion_families_unlocked` does, `collect` graduates, and `backfill` and
`ingest` put retired names back. -/
inductive FileOp where
  | retire (names : List String) (stamp : String)
  | park (env : FamilyEnv) (stamp : String)
  | collect (results : String → List ℚ) (since : String → Option String)
  | backfill (records : List EvalRow) (reevaluated : List String) (stamp : String)
  | ingest (i : Ingest)

/-- The records after `retire_names_unlocked`: the graduates are gone through last. -/
def retireRecord (f : Files) (wanted : List String) (name : String) : Option Row :=
  if name ∈ wanted then
    ((lastWith Graduate.name name f.book.graduated).map .graduate).or
      (((lastWith Champion.name name f.book.pool).map .champion).or (f.record name))
  else f.record name

/-- The records after `enforce_champion_families_unlocked`. -/
def parkRecord (f : Files) (env : FamilyEnv) (name : String) : Option Row :=
  if name ∈ (f.book.parkedTwins env).map (·.1) then
    (lastWith Champion.name name f.book.pool).map .champion
  else f.record name

/-- The seating of an ingest that finds the pool it loaded. -/
def ingestStart (b : Book) : Seating :=
  { st := b.pool, existing := b.existing, archive := b.archive }

/-- The seating `_backfill_stored_passes_unlocked` starts with. -/
def backfillStart (b : Book) : Seating :=
  { st := b.pool
    existing := fun n => n ∈ b.pool.map (·.name) || n ∈ b.graduatedNames || b.isRetired n
    archive := b.archive }

/-- The files after each release of `seat_library_passes_unlocked`. -/
def releases (claimNames : List String) (f : Files) (start : Seating)
    (reevaluated : String → Bool) (stamp : String) (records : List EvalRow) : List Files :=
  records.inits.map fun rs =>
    { f with book := { f.book with
        archive := (rs.foldl (Seating.library claimNames f.book.graduatedNames reevaluated stamp)
          start).archive } }

namespace FileOp

/-- The files after each write of the operation. -/
def crashes (claimNames : List String) (f : Files) : FileOp → List Files
  | .retire names stamp =>
    let b := f.book.retireNames names stamp
    [{ book := { f.book with archive := b.archive }, record := retireRecord f names },
      { book := { b with graduated := f.book.graduated }, record := retireRecord f names },
      { book := b, record := retireRecord f names }]
  | .park env stamp =>
    let b := f.book.enforceFamilies env stamp
    [{ book := { f.book with archive := b.archive }, record := parkRecord f env },
      { book := b, record := parkRecord f env }]
  | .collect results since =>
    let b := f.book.collectResults results since
    [{ f with book := { b with graduated := f.book.graduated } }, { f with book := b }]
  | .backfill records reevaluated stamp =>
    releases claimNames f (backfillStart f.book) (fun n => n ∈ reevaluated) stamp records ++
      [{ f with book := f.book.backfill claimNames records reevaluated stamp }]
  | .ingest i =>
    let s := Book.seats claimNames i f.book f.book
    releases claimNames f (ingestStart f.book) (fun n => n ∈ i.written.map (·.strategy)) i.stamp
        i.written ++
      [{ f with book :=
          if s.admitted = [] then f.book else { f.book.savePool s.st with archive := s.archive } },
        { f with book := Book.seatIngest claimNames i f.book f.book }]

/-- The pool with what a collection counts. -/
def counted (pool : List Champion) : FileOp → List Champion
  | .collect results since => (Book.countResults results pool).map fun c =>
      { c with championSince := c.championSince.or (since c.name) }
  | _ => pool

/-- The champion graduates. -/
def Graduates (c : Champion) : FileOp → Prop
  | .collect _ _ => TRADE_EVALUATION_LIMIT ≤ c.closed
  | _ => False

/-- Whatever write the operation is cut off after, each row is in one of the files: a
champion in the pool with what was counted, in the archive, or as its entry among the
graduates. -/
structure Safe (claimNames : List String) (f : Files) (op : FileOp) : Prop where
  pooled : ∀ f' ∈ op.crashes claimNames f, ∀ c ∈ f.book.pool.zip (op.counted f.book.pool),
    f'.Archived (.champion c.1) ∨ c.2 ∈ f'.book.pool ∨
      op.Graduates c.2 ∧ f'.Held (.graduate (Book.graduateOf c.2))
  listed : ∀ f' ∈ op.crashes claimNames f, ∀ g ∈ f.book.graduated, f'.Held (.graduate g)
  archived : ∀ f' ∈ op.crashes claimNames f, ∀ r, f.Archived r → f'.Held r

end FileOp

/-! ## When rows are safe -/

/-- `save_pool` on one row. -/
def Book.stamped (b : Book) (c : Champion) : Champion :=
  { c with championSince := (b.sinceOf c.name).or c.championSince }

/-- The row has the start date that the file gives its name, or it is archived too. With
unique names every row has. -/
def Files.Dated (f : Files) (c : Champion) : Prop :=
  f.book.stamped c = c ∨ f.Archived (.champion c)

namespace FileOp

/-- The operation overwrites no row and drops none. -/
def Spared (claimNames : List String) (f : Files) : FileOp → Prop
  | .retire names _ =>
    -- a name leaves one row behind
    (∀ r r', f.Held r → f.Held r' → r.name ∈ names → r'.name = r.name → r' = r) ∧
      ((∃ c ∈ f.book.pool, c.name ∈ names) →
        ∀ c ∈ f.book.pool, c.name ∉ names → f.Dated c)
  | .park env _ =>
    (∀ c ∈ f.book.pool, c.name ∈ (f.book.parkedTwins env).map (·.1) →
      ∀ r, f.Held r → r.name = c.name →
        r = .champion c ∨ ∃ g ∈ f.book.graduated, r = .graduate g) ∧
      (f.book.parkedTwins env ≠ [] →
        ∀ c ∈ f.book.pool, c.name ∉ (f.book.parkedTwins env).map (·.1) → f.Dated c)
  | .collect results since =>
    let rows := (FileOp.collect results since).counted f.book.pool
    (∀ c ∈ f.book.pool.zip rows, ¬ TRADE_EVALUATION_LIMIT ≤ c.2.closed →
      f.book.stamped c.2 = c.2 ∨ f.Archived (.champion c.1)) ∧
    -- who graduates is archived or on the list already
    (∀ c ∈ f.book.pool.zip rows, TRADE_EVALUATION_LIMIT ≤ c.2.closed →
      f.Archived (.champion c.1) ∨ f.Held (.graduate (Book.graduateOf c.2))) ∧
    -- and the entry it replaces is its own, archived or on the list once more
    ∀ c g, lastWith Champion.name g.name
        (rows.filter fun c => TRADE_EVALUATION_LIMIT ≤ c.closed) = some c →
      (f.book.graduated.filter fun h => h.name = g.name).head? = some g →
        g = Book.graduateOf c ∨ f.Archived (.graduate g) ∨
          g ∈ (f.book.graduated.filter fun h => h.name = g.name).tail
  | .backfill records reevaluated _ =>
    let seated := Seating.SeatedBy claimNames f.book.graduatedNames
      (fun n => n ∈ reevaluated) (backfillStart f.book) records
    (∀ r, f.Archived r → ¬ seated r.name) ∧
      ((∃ n, seated n) → ∀ c ∈ f.book.pool, f.Dated c)
  | .ingest i =>
    let seated := Seating.SeatedBy claimNames f.book.graduatedNames
      (fun n => n ∈ i.written.map (·.strategy)) (ingestStart f.book) i.written
    let forced := Seating.forcedRow i.log (ingestStart f.book)
    (∀ r, f.Archived r → ¬ seated r.name) ∧
      -- who is forced back comes back as it was
      (∀ n ∈ i.forced, ∀ row, forced n = some row → ∀ r, f.Archived r → r.name = n →
        r = .champion row) ∧
      ((∃ n, seated n ∨ n ∈ i.forced ∧ (forced n).isSome = true) →
        ∀ c ∈ f.book.pool, f.Dated c)

end FileOp

/-! ## Saved rows -/

section
variable {b : Book} {c : Champion} {st : List Champion}

theorem savePool_pool : (b.savePool st).pool = st.map b.stamped := rfl

@[simp] theorem stamped_name : (b.stamped c).name = c.name := rfl

theorem stamped_stamped : b.stamped (b.stamped c) = b.stamped c := by
  unfold Book.stamped
  dsimp only
  cases b.sinceOf c.name <;> rfl

theorem mem_savePool (hc : c ∈ st) (h : b.stamped c = c) : c ∈ (b.savePool st).pool :=
  List.mem_map.mpr ⟨c, hc, h⟩

theorem stamped_of_mem_savePool (h : c ∈ (b.savePool st).pool) : b.stamped c = c := by
  obtain ⟨c₀, -, rfl⟩ := List.mem_map.mp h
  exact stamped_stamped

theorem name_of_mem_savePool (h : c ∈ (b.savePool st).pool) : c.name ∈ st.map (·.name) := by
  obtain ⟨c₀, hc₀, rfl⟩ := List.mem_map.mp h
  exact List.mem_map.mpr ⟨c₀, hc₀, rfl⟩

/-- A name that is not in the file has no date there. -/
theorem stamped_of_not_mem (h : c.name ∉ b.pool.map (·.name)) : b.stamped c = c := by
  have hnone : b.sinceOf c.name = none := by
    unfold Book.sinceOf
    rw [List.find?_eq_none.mpr fun x hx => ?_]
    · rfl
    · rw [decide_eq_true_eq]
      intro heq
      exact h (List.mem_map.mpr ⟨x, List.mem_reverse.mp hx, heq⟩)
  unfold Book.stamped
  rw [hnone]
  rfl

end

section
variable {claimNames : List String} {f f' : Files}

theorem held_of_archived {r : Row} (h : f.Archived r) : f.Held r := by
  cases r with
  | champion c => exact .inr h
  | graduate g => exact .inr h

/-- Where the counters stay, to be safe is to be held. -/
theorem safe_iff_held {op : FileOp} (hcounted : op.counted f.book.pool = f.book.pool)
    (hno : ∀ c, ¬ op.Graduates c) :
    op.Safe claimNames f ↔ ∀ f' ∈ op.crashes claimNames f, ∀ r, f.Held r → f'.Held r := by
  have hzip : f.book.pool.zip (op.counted f.book.pool) = f.book.pool.map fun c => (c, c) := by
    rw [hcounted, List.zip_eq_zipWith, List.zipWith_self]
  constructor
  · intro h f' hf' r hr
    cases r with
    | champion c =>
      rcases hr with hr | hr
      · have hpooled := h.pooled f' hf' (c, c) (by rw [hzip]; exact List.mem_map_of_mem hr)
        rcases hpooled with h | h | h
        · exact .inr h
        · exact .inl h
        · exact absurd h.1 (hno c)
      · exact h.archived f' hf' _ hr
    | graduate g =>
      rcases hr with hr | hr
      · exact h.listed f' hf' g hr
      · exact h.archived f' hf' _ hr
  · intro h
    refine ⟨fun f' hf' p hp => ?_, fun f' hf' g hg => h f' hf' _ (.inl hg),
      fun f' hf' r hr => h f' hf' r (held_of_archived hr)⟩
    rw [hzip] at hp
    obtain ⟨c, hc, rfl⟩ := List.mem_map.mp hp
    rcases h f' hf' (.champion c) (.inl hc) with h | h
    · exact .inr (.inl h)
    · exact .inl h

/-! ## Retirement -/

section
variable {names : List String} {stamp : String}

theorem isSome_retire {n : String} :
    ((f.book.retireNames names stamp).archive n).isSome = true ↔
      n ∈ names ∧ (n ∈ f.book.graduatedNames ∨ n ∈ f.book.pool.map (·.name)) ∨
        (f.book.archive n).isSome = true := by
  show (if n ∈ names ∧ n ∈ f.book.graduatedNames then some _ else
    if n ∈ names ∧ n ∈ f.book.pool.map (·.name) then some _ else f.book.archive n).isSome = true ↔ _
  split
  next h => exact iff_of_true rfl (.inl ⟨h.1, .inl h.2⟩)
  next hg =>
    split
    next h => exact iff_of_true rfl (.inl ⟨h.1, .inr h.2⟩)
    next hp => exact ⟨.inr, fun h => h.resolve_left fun ⟨hn, hor⟩ =>
        hor.elim (fun h => hg ⟨hn, h⟩) fun h => hp ⟨hn, h⟩⟩

/-- A name that leaves is archived with one of its rows. -/
theorem archived_retire {n : String} (hn : n ∈ names)
    (harchive : f'.book.archive = (f.book.retireNames names stamp).archive)
    (hrecord : f'.record = retireRecord f names) {r₀ : Row} (h₀ : f.Held r₀) (hname : r₀.name = n) :
    ∃ r, f'.Archived r ∧ f.Held r ∧ r.name = n := by
  have hsome : ∀ m, n = m → n ∈ f.book.graduatedNames ∨ n ∈ f.book.pool.map (·.name) ∨
      (f.book.archive n).isSome = true → (f'.book.archive m).isSome = true := by
    rintro m rfl h
    rw [harchive, isSome_retire]
    tauto
  cases hg : lastWith Graduate.name n f.book.graduated with
  | some g =>
    have hkey : n = g.name := (lastWith_key hg).symm
    have hmem := mem_of_lastWith hg
    refine ⟨.graduate g, ⟨hsome _ hkey (.inl (hkey ▸ List.mem_map_of_mem hmem)), ?_⟩, .inl hmem,
      hkey.symm⟩
    rw [hrecord]
    show retireRecord f names g.name = _
    rw [← hkey, retireRecord, if_pos hn, hg]
    rfl
  | none =>
    cases hp : lastWith Champion.name n f.book.pool with
    | some c =>
      have hkey : n = c.name := (lastWith_key hp).symm
      have hmem := mem_of_lastWith hp
      refine ⟨.champion c, ⟨hsome _ hkey (.inr (.inl ?_)), ?_⟩, .inl hmem, hkey.symm⟩
      · rw [hkey]
        exact List.mem_map.mpr ⟨c, hmem, rfl⟩
      rw [hrecord]
      show retireRecord f names c.name = _
      rw [← hkey, retireRecord, if_pos hn, hg, hp]
      rfl
    | none =>
      -- the row is neither listed nor active, so it was archived
      have harch : f.Archived r₀ := by
        cases r₀ with
        | champion c => exact h₀.resolve_left fun hc => lastWith_eq_none.mp hp c hc hname
        | graduate g => exact h₀.resolve_left fun hc => lastWith_eq_none.mp hg g hc hname
      refine ⟨r₀, ⟨hsome _ hname.symm (.inr (.inr (hname ▸ harch.1))), ?_⟩, h₀, hname⟩
      rw [hrecord, hname, retireRecord, if_pos hn, hg, hp]
      show f.record n = _
      rw [← hname]
      exact harch.2

theorem archived_retire_iff {r : Row} (hn : r.name ∉ names)
    (harchive : f'.book.archive = (f.book.retireNames names stamp).archive)
    (hrecord : f'.record = retireRecord f names) : f'.Archived r ↔ f.Archived r := by
  unfold Files.Archived
  rw [harchive, hrecord, isSome_retire, retireRecord, if_neg hn]
  tauto

theorem retire_pool :
    (f.book.retireNames names stamp).pool =
      if ∃ c ∈ f.book.pool, c.name ∈ names then
        (f.book.savePool (f.book.pool.filter fun c => c.name ∉ names)).pool
      else f.book.pool := by
  unfold Book.retireNames
  dsimp only
  have hlen : (f.book.pool.filter fun c => decide (c.name ∉ names)).length < f.book.pool.length ↔
      ∃ c ∈ f.book.pool, c.name ∈ names := by
    rw [List.length_filter_lt_length_iff_exists]
    simp
  by_cases h : ∃ c ∈ f.book.pool, c.name ∈ names
  · rw [if_pos h, if_pos (hlen.mpr h)]
  · rw [if_neg h, if_neg (mt hlen.mp h)]

theorem not_mem_of_retired {c : Champion}
    (hc : c ∈ (f.book.retireNames names stamp).pool) : c.name ∉ names := by
  rw [retire_pool] at hc
  split at hc
  next =>
    obtain ⟨c₀, hc₀, heq⟩ := List.mem_map.mp (name_of_mem_savePool hc)
    rw [← heq]
    simpa using (List.mem_filter.mp hc₀).2
  next hno => exact fun hn => hno ⟨c, hc, hn⟩

theorem retire_safe_iff : (FileOp.retire names stamp).Safe claimNames f ↔
    (FileOp.retire names stamp).Spared claimNames f := by
  rw [safe_iff_held rfl fun _ => id]
  constructor
  · intro h
    have hlast := h { book := f.book.retireNames names stamp, record := retireRecord f names }
      (List.mem_cons_of_mem _ (List.mem_cons_of_mem _ List.mem_cons_self))
    have hfiled : ∀ r, f.Held r → r.name ∈ names → retireRecord f names r.name = some r := by
      intro r hr hn
      cases r with
      | champion c => exact ((hlast _ hr).resolve_left fun hc => not_mem_of_retired hc hn).2
      | graduate g =>
        refine ((hlast _ hr).resolve_left fun hg => ?_).2
        exact absurd hn (of_decide_eq_true (List.mem_filter.mp hg).2)
    refine ⟨fun r r' hr hr' hn hname => ?_, fun hleave c hc hn => ?_⟩
    · have h₁ := hfiled r hr hn
      rw [← hname, hfiled r' hr' (hname ▸ hn)] at h₁
      exact Option.some.inj h₁
    · rcases hlast (.champion c) (.inl hc) with h | h
      · rw [retire_pool, if_pos hleave] at h
        exact .inl (stamped_of_mem_savePool h)
      · exact .inr ((archived_retire_iff (r := .champion c) hn rfl rfl).mp h)
  · rintro ⟨hone, hdated⟩ f' hf' r hr
    have hnew : f'.book.archive = (f.book.retireNames names stamp).archive ∧
        f'.record = retireRecord f names := by
      rcases List.mem_cons.mp hf' with rfl | hf'
      · exact ⟨rfl, rfl⟩
      rcases List.mem_cons.mp hf' with rfl | hf'
      · exact ⟨rfl, rfl⟩
      · rw [List.mem_singleton.mp hf']
        exact ⟨rfl, rfl⟩
    by_cases hn : r.name ∈ names
    · obtain ⟨r', harch, hr', hname⟩ := archived_retire hn hnew.1 hnew.2 hr rfl
      rw [hone r r' hr hr' hn hname] at harch
      exact held_of_archived harch
    · have hkept := (archived_retire_iff hn hnew.1 hnew.2).mpr
      cases r with
      | graduate g =>
        refine hr.imp (fun hg => ?_) hkept
        have hfilter : g ∈ f.book.graduated.filter fun g => g.name ∉ names :=
          List.mem_filter.mpr ⟨hg, decide_eq_true hn⟩
        rcases List.mem_cons.mp hf' with rfl | hf'
        · exact hg
        rcases List.mem_cons.mp hf' with rfl | hf'
        · exact hg
        · rw [List.mem_singleton.mp hf']
          exact hfilter
      | champion c =>
        rcases hr with hc | harch
        · have hsaved : c ∈ (f.book.retireNames names stamp).pool ∨ f.Archived (.champion c) := by
            rw [retire_pool]
            split
            next hleave =>
              refine (hdated hleave c hc hn).imp_left fun h => mem_savePool ?_ h
              exact List.mem_filter.mpr ⟨hc, decide_eq_true hn⟩
            next => exact .inl hc
          rcases List.mem_cons.mp hf' with rfl | hf'
          · exact .inl hc
          rcases List.mem_cons.mp hf' with rfl | hf'
          · exact hsaved.imp_right hkept
          · rw [List.mem_singleton.mp hf'] at hkept ⊢
            exact hsaved.imp_right hkept
        · exact .inr (hkept harch)

end

/-! ## Parking -/

section
variable {env : FamilyEnv} {stamp : String}

/-- The twins are active. -/
theorem parked_active {n : String} (h : n ∈ (f.book.parkedTwins env).map (·.1)) :
    n ∈ f.book.pool.map (·.name) := by
  obtain ⟨t, ht, rfl⟩ := List.mem_map.mp h
  unfold Book.parkedTwins at ht
  dsimp only at ht
  split at ht
  next => cases ht
  next =>
    have htwin := (List.mem_filter.mp ht).1
    rw [planFamilies_eq] at htwin
    obtain ⟨-, l₁, l₂, hsplit, -⟩ := follows_split (a := t.1) (w := t.2) _ _ htwin
    have hranked : t.1 ∈ rankedNames env f.book.pool := by
      rw [hsplit]
      exact List.mem_append_right _ List.mem_cons_self
    obtain ⟨r, hr, heq⟩ := List.mem_map.mp hranked
    exact List.mem_map.mpr ⟨r.1, (mem_ranking.mp hr).1, heq⟩

theorem isSome_foldl_update {α β : Type} [DecidableEq α] (row : α × α → β) :
    ∀ (l : List (α × α)) (a : α → Option β) (n : α),
      (l.foldl (fun (a : α → Option β) t => Function.update a t.1 (some (row t))) a n).isSome = true ↔
        n ∈ l.map (·.1) ∨ (a n).isSome = true := by
  intro l
  induction l with
  | nil => intro a n; simp
  | cons t l ih =>
    intro a n
    rw [List.foldl_cons, ih, List.map_cons, List.mem_cons]
    by_cases h : n = t.1
    · rw [h, Function.update_self]
      simp
    · rw [Function.update_of_ne h]
      simp [h]

theorem isSome_park {n : String} :
    ((f.book.enforceFamilies env stamp).archive n).isSome = true ↔
      n ∈ (f.book.parkedTwins env).map (·.1) ∨ (f.book.archive n).isSome = true := by
  unfold Book.enforceFamilies
  dsimp only
  split
  next h =>
    rw [List.isEmpty_iff.mp h]
    simp
  next =>
    dsimp only
    rw [Option.isSome_map]
    exact isSome_foldl_update _ _ _ _

theorem park_pool :
    (f.book.enforceFamilies env stamp).pool =
      if f.book.parkedTwins env = [] then f.book.pool
      else (f.book.savePool (f.book.pool.filter fun c =>
        c.name ∉ (f.book.parkedTwins env).map (·.1))).pool := by
  unfold Book.enforceFamilies
  dsimp only
  by_cases h : f.book.parkedTwins env = []
  · rw [if_pos h, if_pos (List.isEmpty_iff.mpr h)]
  · rw [if_neg h, if_neg (mt List.isEmpty_iff.mp h)]

variable (env stamp) in
theorem park_graduated : (f.book.enforceFamilies env stamp).graduated = f.book.graduated := by
  unfold Book.enforceFamilies
  dsimp only
  split <;> rfl

theorem not_mem_of_parked {c : Champion} (hc : c ∈ (f.book.enforceFamilies env stamp).pool) :
    c.name ∉ (f.book.parkedTwins env).map (·.1) := by
  rw [park_pool] at hc
  split at hc
  next h =>
    rw [h]
    exact List.not_mem_nil
  next =>
    obtain ⟨c₀, hc₀, heq⟩ := List.mem_map.mp (name_of_mem_savePool hc)
    rw [← heq]
    exact of_decide_eq_true (List.mem_filter.mp hc₀).2

theorem archived_park_iff {r : Row} (hn : r.name ∉ (f.book.parkedTwins env).map (·.1))
    (harchive : f'.book.archive = (f.book.enforceFamilies env stamp).archive)
    (hrecord : f'.record = parkRecord f env) : f'.Archived r ↔ f.Archived r := by
  unfold Files.Archived
  rw [harchive, hrecord, isSome_park, parkRecord, if_neg hn]
  tauto

/-- A twin is archived with its last active row. -/
theorem archived_park {n : String} (hn : n ∈ (f.book.parkedTwins env).map (·.1))
    (harchive : f'.book.archive = (f.book.enforceFamilies env stamp).archive)
    (hrecord : f'.record = parkRecord f env) :
    ∃ c ∈ f.book.pool, c.name = n ∧ f'.Archived (.champion c) ∧
      parkRecord f env n = some (.champion c) := by
  cases hp : lastWith Champion.name n f.book.pool with
  | none =>
    obtain ⟨c, hc, hname⟩ := List.mem_map.mp (parked_active hn)
    exact absurd hname (lastWith_eq_none.mp hp c hc)
  | some c =>
    have hkey : c.name = n := lastWith_key hp
    have hfiled : parkRecord f env n = some (.champion c) := by
      rw [parkRecord, if_pos hn, hp]
      rfl
    refine ⟨c, mem_of_lastWith hp, hkey, ⟨?_, ?_⟩, hfiled⟩
    · rw [harchive, isSome_park]
      exact .inl (show c.name ∈ _ from hkey.symm ▸ hn)
    · rw [hrecord]
      show parkRecord f env c.name = _
      rw [hkey]
      exact hfiled

theorem park_safe_iff :
    (FileOp.park env stamp).Safe claimNames f ↔ (FileOp.park env stamp).Spared claimNames f := by
  rw [safe_iff_held rfl fun _ => id]
  constructor
  · intro h
    have hlast := h { book := f.book.enforceFamilies env stamp, record := parkRecord f env }
      (List.mem_cons_of_mem _ List.mem_cons_self)
    have hfiled : ∀ r, f.Held r → r.name ∈ (f.book.parkedTwins env).map (·.1) →
        (∃ g ∈ f.book.graduated, r = .graduate g) ∨ parkRecord f env r.name = some r := by
      intro r hr hn
      cases r with
      | champion c => exact .inr ((hlast _ hr).resolve_left fun hc => not_mem_of_parked hc hn).2
      | graduate g =>
        refine (hlast _ hr).imp (fun hg => ⟨g, ?_, rfl⟩) And.right
        rw [← park_graduated env stamp]
        exact hg
    refine ⟨fun c hc hn r hr hname => ?_, fun hpark c hc hn => ?_⟩
    · rcases hfiled r hr (hname ▸ hn) with hg | hfile
      · exact .inr hg
      · rcases hfiled (.champion c) (.inl hc) hn with ⟨g, -, hg⟩ | hfile'
        · cases hg
        · rw [hname] at hfile
          exact .inl (Option.some.inj (hfile.symm.trans hfile'))
    · rcases hlast (.champion c) (.inl hc) with h | h
      · rw [park_pool, if_neg hpark] at h
        exact .inl (stamped_of_mem_savePool h)
      · exact .inr ((archived_park_iff (r := .champion c) hn rfl rfl).mp h)
  · rintro ⟨hone, hdated⟩ f' hf' r hr
    have hnew : f'.book.archive = (f.book.enforceFamilies env stamp).archive ∧
        f'.record = parkRecord f env ∧ f'.book.graduated = f.book.graduated ∧
          (f'.book.pool = f.book.pool ∨
            f'.book.pool = (f.book.enforceFamilies env stamp).pool) := by
      rcases List.mem_cons.mp hf' with rfl | hf'
      · exact ⟨rfl, rfl, rfl, .inl rfl⟩
      · rw [List.mem_singleton.mp hf']
        exact ⟨rfl, rfl, park_graduated _ _, .inr rfl⟩
    obtain ⟨harchive, hrecord, hgrad, hpool⟩ := hnew
    by_cases hn : r.name ∈ (f.book.parkedTwins env).map (·.1)
    · obtain ⟨c, hc, hname, harch, -⟩ := archived_park hn harchive hrecord
      rcases hone c hc (hname ▸ hn) r hr hname.symm with rfl | ⟨g, hg, rfl⟩
      · exact .inr harch
      · exact .inl (hgrad ▸ hg)
    · have hkept := (archived_park_iff hn harchive hrecord).mpr
      cases r with
      | graduate g => exact hr.imp (fun hg => hgrad ▸ hg) hkept
      | champion c =>
        rcases hr with hc | harch
        · have hsaved : c ∈ (f.book.enforceFamilies env stamp).pool ∨
              f.Archived (.champion c) := by
            rw [park_pool]
            split
            next => exact .inl hc
            next hpark =>
              refine (hdated hpark c hc hn).imp_left fun h => mem_savePool ?_ h
              exact List.mem_filter.mpr ⟨hc, decide_eq_true hn⟩
          rcases hpool with hpool | hpool
          · exact .inl (hpool ▸ hc)
          · exact hsaved.imp (fun h => hpool ▸ h) hkept
        · exact .inr (hkept harch)

end

/-! ## Graduation -/

section
variable {results : String → List ℚ} {since : String → Option String}

theorem filter_addGraduate (n : String) (g : Graduate) (grads : List Graduate) :
    (Book.addGraduate grads g).filter (fun h => h.name = n) =
      if g.name = n then g :: (grads.filter fun h => h.name = n).tail
      else grads.filter fun h => h.name = n := by
  induction grads with
  | nil =>
    unfold Book.addGraduate
    by_cases h : g.name = n
    · simp [h]
    · simp [h]
  | cons old grads ih =>
    unfold Book.addGraduate
    by_cases hold : old.name = g.name
    · rw [if_pos hold]
      by_cases h : g.name = n
      · simp [h, hold]
      · simp [h, hold]
    · rw [if_neg hold, List.filter_cons, ih]
      by_cases h : g.name = n
      · have hne : ¬ old.name = n := fun heq => hold (heq.trans h.symm)
        simp [h, hne]
      · simp [h, List.filter_cons]

/-- Of a name that graduates the first entry is replaced by the last of its rows. -/
theorem filter_foldl_addGraduate (n : String) (grads : List Graduate) (done : List Champion) :
    (done.foldl (fun gs c => Book.addGraduate gs (Book.graduateOf c)) grads).filter
        (fun h => h.name = n) =
      match lastWith Champion.name n done with
      | none => grads.filter fun h => h.name = n
      | some c => Book.graduateOf c :: (grads.filter fun h => h.name = n).tail := by
  induction done using List.reverseRecOn with
  | nil => rfl
  | append_singleton done c ih =>
    rw [List.foldl_append, List.foldl_cons, List.foldl_nil, filter_addGraduate, ih, lastWith_append]
    by_cases h : c.name = n
    · have hlast : lastWith Champion.name n [c] = some c := by simp [lastWith, h]
      rw [if_pos (show (Book.graduateOf c).name = n from h), hlast]
      cases lastWith Champion.name n done <;> rfl
    · have hlast : lastWith Champion.name n [c] = none := by simp [lastWith, h]
      rw [if_neg (show ¬ (Book.graduateOf c).name = n from h), hlast, Option.none_or]

/-- The rows after the count. -/
def countedRows (results : String → List ℚ) (since : String → Option String)
    (pool : List Champion) : List Champion :=
  (FileOp.collect results since).counted pool

theorem collect_pool : (f.book.collectResults results since).pool =
    (f.book.savePool ((countedRows results since f.book.pool).filter
      fun c => ¬ TRADE_EVALUATION_LIMIT ≤ c.closed)).pool := by
  unfold countedRows FileOp.counted Book.collectResults
  dsimp only
  rw [List.filter_map]
  rfl

theorem collect_graduated : (f.book.collectResults results since).graduated =
    ((countedRows results since f.book.pool).filter
      fun c => TRADE_EVALUATION_LIMIT ≤ c.closed).foldl
        (fun gs c => Book.addGraduate gs (Book.graduateOf c)) f.book.graduated := by
  unfold countedRows FileOp.counted Book.collectResults
  dsimp only
  rw [List.filter_map, List.foldl_map]
  rfl

theorem collect_safe_iff : (FileOp.collect results since).Safe claimNames f ↔
    (FileOp.collect results since).Spared claimNames f := by
  have hfirst : ∀ f' ∈ (FileOp.collect results since).crashes claimNames f,
      f'.book.pool = (f.book.collectResults results since).pool ∧
        f'.book.archive = f.book.archive ∧ f'.record = f.record ∧
          (f'.book.graduated = f.book.graduated ∨
            f'.book.graduated = (f.book.collectResults results since).graduated) := by
    intro f' hf'
    rcases List.mem_cons.mp hf' with rfl | hf'
    · exact ⟨rfl, rfl, rfl, .inl rfl⟩
    · rw [List.mem_singleton.mp hf']
      exact ⟨rfl, rfl, rfl, .inr rfl⟩
  have harch : ∀ f' ∈ (FileOp.collect results since).crashes claimNames f, ∀ r,
      f'.Archived r ↔ f.Archived r := by
    intro f' hf' r
    unfold Files.Archived
    rw [(hfirst f' hf').2.1, (hfirst f' hf').2.2.1]
  have hrest : ∀ f' ∈ (FileOp.collect results since).crashes claimNames f, ∀ c ∈ f'.book.pool,
      ¬ TRADE_EVALUATION_LIMIT ≤ c.closed := by
    intro f' hf' c hc
    rw [(hfirst f' hf').1, collect_pool] at hc
    obtain ⟨c₀, hc₀, rfl⟩ := List.mem_map.mp hc
    exact of_decide_eq_true (List.mem_filter.mp hc₀).2
  have hcrash₁ : { f with book := { f.book.collectResults results since with
      graduated := f.book.graduated } } ∈ (FileOp.collect results since).crashes claimNames f :=
    List.mem_cons_self
  have hcrash₂ : { f with book := f.book.collectResults results since } ∈
      (FileOp.collect results since).crashes claimNames f :=
    List.mem_cons_of_mem _ List.mem_cons_self
  constructor
  · intro h
    refine ⟨fun p hp hstay => ?_, fun p hp hdone => ?_, fun c g hlast hhead => ?_⟩
    · rcases h.pooled _ hcrash₁ p hp with h | h | h
      · exact .inr ((harch _ hcrash₁ _).mp h)
      · rw [(hfirst _ hcrash₁).1, collect_pool] at h
        exact .inl (stamped_of_mem_savePool h)
      · exact absurd h.1 hstay
    · rcases h.pooled _ hcrash₁ p hp with h | h | h
      · exact .inl ((harch _ hcrash₁ _).mp h)
      · exact absurd hdone (hrest _ hcrash₁ _ h)
      · exact .inr (h.2.imp_right (harch _ hcrash₁ _).mp)
    · have hg : g ∈ f.book.graduated :=
        (List.mem_filter.mp (List.mem_of_mem_head? hhead)).1
      rcases h.listed _ hcrash₂ g hg with h | h
      · have hmem : g ∈ (f.book.collectResults results since).graduated.filter
            fun h => h.name = g.name := List.mem_filter.mpr ⟨h, decide_eq_true rfl⟩
        rw [collect_graduated, filter_foldl_addGraduate] at hmem
        rw [show lastWith Champion.name g.name ((countedRows results since f.book.pool).filter
          fun c => TRADE_EVALUATION_LIMIT ≤ c.closed) = some c from hlast] at hmem
        rcases List.mem_cons.mp hmem with hmem | hmem
        · exact .inl hmem
        · exact .inr (.inr hmem)
      · exact .inr (.inl ((harch _ hcrash₂ _).mp h))
  · rintro ⟨hstay, hdone, hentry⟩
    have hlisted : ∀ f' ∈ (FileOp.collect results since).crashes claimNames f,
        ∀ g ∈ f.book.graduated, f'.Held (.graduate g) := by
      intro f' hf' g hg
      rcases (hfirst f' hf').2.2.2 with hgrad | hgrad
      · exact .inl (hgrad ▸ hg)
      have hin : g ∈ f.book.graduated.filter fun h => h.name = g.name :=
        List.mem_filter.mpr ⟨hg, decide_eq_true rfl⟩
      have hkept : f.Archived (.graduate g) ∨
          g ∈ (f.book.collectResults results since).graduated.filter fun h => h.name = g.name := by
        rw [collect_graduated, filter_foldl_addGraduate]
        cases hlast : lastWith Champion.name g.name ((countedRows results since f.book.pool).filter
            fun c => TRADE_EVALUATION_LIMIT ≤ c.closed) with
        | none => exact .inr hin
        | some c =>
          -- the first entry is replaced, the others stay
          have hentry := hentry c g hlast
          cases hl : f.book.graduated.filter fun h => h.name = g.name with
          | nil =>
            rw [hl] at hin
            cases hin
          | cons g₀ others =>
            rw [hl] at hin hentry
            rcases List.mem_cons.mp hin with rfl | hin
            · rcases hentry rfl with heq | h | h
              · exact .inr (List.mem_cons.mpr (.inl heq))
              · exact .inl h
              · exact .inr (List.mem_cons_of_mem _ h)
            · exact .inr (List.mem_cons_of_mem _ hin)
      rcases hkept with h | h
      · exact .inr ((harch f' hf' _).mpr h)
      · exact .inl (hgrad ▸ (List.mem_filter.mp h).1)
    refine ⟨fun f' hf' p hp => ?_, hlisted, fun f' hf' r hr =>
      held_of_archived ((harch f' hf' r).mpr hr)⟩
    by_cases hlimit : TRADE_EVALUATION_LIMIT ≤ p.2.closed
    · rcases hdone p hp hlimit with h | h | h
      · exact .inl ((harch f' hf' _).mpr h)
      · exact .inr (.inr ⟨hlimit, hlisted f' hf' _ h⟩)
      · exact .inr (.inr ⟨hlimit, .inr ((harch f' hf' _).mpr h)⟩)
    · rcases hstay p hp hlimit with h | h
      · refine .inr (.inl ?_)
        rw [(hfirst f' hf').1, collect_pool]
        exact mem_savePool (List.mem_filter.mpr
          ⟨(List.of_mem_zip hp).2, decide_eq_true hlimit⟩) h
      · exact .inl ((harch f' hf' _).mpr h)

end

/-! ## Seating again -/

section
variable {start : Seating} {reevaluated : String → Bool} {stamp : String}
  {records rs : List EvalRow} {r : Row}

/-- A release writes the archive alone. -/
theorem mem_releases (hf' : f' ∈ releases claimNames f start reevaluated stamp records) :
    f'.book.pool = f.book.pool ∧ f'.book.graduated = f.book.graduated ∧ f'.record = f.record ∧
      ∃ rs, rs <+: records ∧ f'.book.archive = (rs.foldl
        (Seating.library claimNames f.book.graduatedNames reevaluated stamp) start).archive := by
  obtain ⟨rs, hrs, rfl⟩ := List.mem_map.mp hf'
  exact ⟨rfl, rfl, rfl, rs, (List.mem_inits _ _).mp hrs, rfl⟩

theorem backfillStart_admitted (b : Book) : (backfillStart b).admitted = [] := rfl

theorem ingestStart_admitted (b : Book) : (ingestStart b).admitted = [] := rfl

/-- A name that is not seated stays in the archive. -/
theorem archived_seating (hnone : start.admitted = []) (hstart : start.archive = f.book.archive)
    (hrs : rs <+: records)
    (harchive : f'.book.archive = (rs.foldl
      (Seating.library claimNames f.book.graduatedNames reevaluated stamp) start).archive)
    (hrecord : f'.record = f.record) (hr : f.Archived r)
    (hfree : ¬ Seating.SeatedBy claimNames f.book.graduatedNames reevaluated start records
      r.name) : f'.Archived r := by
  obtain ⟨hpast, -, hadm⟩ := Seating.library_fold claimNames f.book.graduatedNames reevaluated
    stamp hnone rs
  have hno : r.name ∉ (rs.foldl (Seating.library claimNames f.book.graduatedNames reevaluated stamp)
      start).admitted := fun hmem => by
    obtain ⟨e, he, hname, hs⟩ := (hadm _).mp hmem
    exact hfree ⟨e, hrs.subset he, hname, hs⟩
  refine ⟨?_, hrecord ▸ hr.2⟩
  rw [harchive, (hpast.kept _ hno).2, hstart]
  exact hr.1

theorem held_release (hnone : start.admitted = []) (hstart : start.archive = f.book.archive)
    (hf' : f' ∈ releases claimNames f start reevaluated stamp records) (hr : f.Held r)
    (hfree : f.Archived r →
      ¬ Seating.SeatedBy claimNames f.book.graduatedNames reevaluated start records r.name) :
    f'.Held r := by
  obtain ⟨hpool, hgrad, hrecord, rs, hrs, harchive⟩ := mem_releases hf'
  have hkept : f.Archived r → f'.Archived r := fun ha =>
    archived_seating hnone hstart hrs harchive hrecord ha (hfree ha)
  cases r with
  | champion c => exact hr.imp (fun hc => hpool ▸ hc) hkept
  | graduate g => exact hr.imp (fun hg => hgrad ▸ hg) hkept

/-- A crash after the last release has lost the rows of the names that were seated. -/
theorem not_seated_of_held (hnone : start.admitted = []) (hpool : start.st = f.book.pool)
    (h : ∀ f' ∈ releases claimNames f start reevaluated stamp records, ∀ r, f.Held r → f'.Held r)
    (hr : f.Archived r) :
    ¬ Seating.SeatedBy claimNames f.book.graduatedNames reevaluated start records r.name := by
  intro hseated
  obtain ⟨-, hgone, hadm⟩ := Seating.library_fold claimNames f.book.graduatedNames reevaluated
    stamp hnone records
  obtain ⟨e, -, hname, -, -, hnot, hgrad, -⟩ := id hseated
  rw [hname, hpool] at hnot
  rw [hname] at hgrad
  have hheld := h _ (List.mem_map_of_mem ((List.mem_inits _ _).mpr (List.prefix_refl records)))
    r (held_of_archived hr)
  have hlost : ¬ Files.Archived { f with book := { f.book with
      archive := (records.foldl (Seating.library claimNames f.book.graduatedNames reevaluated stamp)
        start).archive } } r := fun harch => by
    have hnone := harch.1.symm.trans (congrArg Option.isSome (hgone _ ((hadm _).mpr hseated)))
    cases hnone
  cases r with
  | champion c =>
    exact hnot (List.mem_map.mpr ⟨c, hheld.resolve_right hlost, rfl⟩)
  | graduate g => exact hgrad (List.mem_map.mpr ⟨g, hheld.resolve_right hlost, rfl⟩)

end

section
variable {records : List EvalRow} {reevaluated : List String} {stamp : String}

theorem backfill_safe_iff : (FileOp.backfill records reevaluated stamp).Safe claimNames f ↔
    (FileOp.backfill records reevaluated stamp).Spared claimNames f := by
  rw [safe_iff_held rfl fun _ => id]
  obtain ⟨hpast, hgone, hadm⟩ := Seating.library_fold claimNames f.book.graduatedNames
    (fun n => decide (n ∈ reevaluated)) stamp (backfillStart_admitted f.book) records
  -- what the backfill leaves
  have hfinal : f.book.backfill claimNames records reevaluated stamp =
      if (Book.backfillSeats claimNames f.book records reevaluated stamp).admitted = [] then f.book
      else { f.book.savePool (Book.backfillSeats claimNames f.book records reevaluated stamp).st with
        archive := (Book.backfillSeats claimNames f.book records reevaluated stamp).archive } := rfl
  constructor
  · intro h
    have hfree : ∀ r, f.Archived r → _ := fun r => not_seated_of_held
      (backfillStart_admitted f.book) rfl (fun f' hf' => h f' (List.mem_append_left _ hf'))
    refine ⟨hfree, fun ⟨n, hn⟩ c hc => ?_⟩
    have hsome : (Book.backfillSeats claimNames f.book records reevaluated stamp).admitted ≠ [] :=
      List.ne_nil_of_mem ((hadm n).mpr hn)
    rcases h _ (List.mem_append_right _ List.mem_cons_self) (.champion c) (.inl hc) with hsaved | ha
    · rw [hfinal, if_neg hsome] at hsaved
      exact .inl (stamped_of_mem_savePool hsaved)
    · refine .inr ⟨?_, ha.2⟩
      have hkept := (hpast.kept c.name fun hmem =>
        (hpast.seated _ hmem).1 (List.mem_map.mpr ⟨c, hc, rfl⟩)).2
      have ha := ha.1
      rw [hfinal, if_neg hsome] at ha
      exact (congrArg Option.isSome hkept).symm.trans ha
  · rintro ⟨hfree, hdated⟩ f' hf' r hr
    rcases List.mem_append.mp hf' with hf' | hf'
    · exact held_release rfl rfl hf' hr (hfree r)
    · rw [List.mem_singleton.mp hf', hfinal]
      split
      next => exact hr
      next hsome =>
        have hseats : ∃ n, Seating.SeatedBy claimNames f.book.graduatedNames
            (fun n => decide (n ∈ reevaluated)) (backfillStart f.book) records n := by
          obtain ⟨n, hn⟩ := List.exists_mem_of_ne_nil _ hsome
          exact ⟨n, (hadm n).mp hn⟩
        have hkept : ∀ r, f.Archived r → Files.Archived { f with book :=
            { f.book.savePool (Book.backfillSeats claimNames f.book records reevaluated stamp).st with
              archive := (Book.backfillSeats claimNames f.book records reevaluated
                stamp).archive } } r :=
          fun r ha => archived_seating (backfillStart_admitted f.book) rfl
            (List.prefix_refl records) rfl rfl ha (hfree r ha)
        cases r with
        | graduate g => exact hr.imp id (hkept _)
        | champion c =>
          rcases hr with hc | ha
          · refine (hdated hseats c hc).imp (fun h => ?_) (hkept _)
            obtain ⟨rows, hst, -⟩ := hpast.rows
            exact mem_savePool (hst ▸ List.mem_append_left _ hc) h
          · exact .inr (hkept _ ha)

end

section
variable {i : Ingest}

/-- A name that is forced back, though it is archived, was a twin that could be
reconsidered; its new row is the only one the pool has. -/
theorem forced_archived {n : String} {row : Champion}
    (hrow : Seating.forcedRow i.log (ingestStart f.book) n = some row) :
    row.name = n ∧ n ∉ f.book.pool.map (·.name) ∧ n ∉ f.book.graduatedNames ∧
      f.book.stamped row = row ∧
        ∀ old, f.book.archive n = some old → old.role = .parkedTwin := by
  have hname := Seating.name_of_forcedRow hrow
  have hfree : f.book.existing n = false := by
    unfold Seating.forcedRow at hrow
    split at hrow
    next => cases hrow
    next h => exact Bool.eq_false_iff.mpr h
  unfold Book.existing at hfree
  simp only [Bool.or_eq_false_iff, decide_eq_false_iff_not] at hfree
  obtain ⟨⟨hpool, hgrad⟩, hblocked⟩ := hfree
  refine ⟨hname, hpool, hgrad, stamped_of_not_mem (hname ▸ hpool), fun old hold => ?_⟩
  unfold Book.admitBlocked Book.isRetired at hblocked
  rw [hold, Option.isSome_some, Bool.true_and, Bool.not_eq_false'] at hblocked
  unfold Book.reconsiderable at hblocked
  rw [hold] at hblocked
  split at hblocked
  next heq =>
    cases heq
    rfl
  next => cases hblocked

theorem unpark_of_not_mem {archive : String → Option RetiredRow} {names : List String} {n : String}
    (hn : n ∉ names) : unpark archive names n = archive n := by
  unfold unpark
  cases archive n with
  | none => rfl
  | some row => exact if_neg fun h => hn h.1

theorem unpark_twin {archive : String → Option RetiredRow} {names : List String} {n : String}
    (hn : n ∈ names) (hrole : ∀ old, archive n = some old → old.role = .parkedTwin) :
    unpark archive names n = none := by
  unfold unpark
  cases h : archive n with
  | none => rfl
  | some row => exact if_pos ⟨hn, hrole row h⟩

/-- What an ingest seats, and the rows it then has. -/
theorem ingest_seats (claimNames : List String) (f : Files) (i : Ingest) :
    let s := Book.seats claimNames i f.book f.book
    let seated := Seating.SeatedBy claimNames f.book.graduatedNames
      (fun n => n ∈ i.written.map (·.strategy)) (ingestStart f.book) i.written
    let forced := Seating.forcedRow i.log (ingestStart f.book)
    Seating.Past (ingestStart f.book) s ∧
      (∀ n, seated n → s.archive n = none) ∧
      (∀ n, ¬ seated n → s.archive n = f.book.archive n) ∧
      (∀ n, n ∈ s.admitted ↔ seated n ∨ n ∈ i.forced ∧ (forced n).isSome = true) ∧
      ∀ c ∈ s.st, c ∈ f.book.pool ∨ seated c.name ∨ forced c.name = some c := by
  obtain ⟨hlib, hgone, hadm⟩ := Seating.library_fold claimNames f.book.graduatedNames
    (fun n => decide (n ∈ i.written.map (·.strategy))) i.stamp (ingestStart_admitted f.book)
    i.written
  have hknows : (ingestStart f.book).KnowsPool := fun n hn => by
    have hmem : n ∈ f.book.pool.map (·.name) := hn
    show f.book.existing n = true
    unfold Book.existing
    rw [decide_eq_true hmem]
    rfl
  obtain ⟨hpast, hsame, hrows, hforced⟩ := Seating.force_fold hlib hknows i.log i.forced
  refine ⟨hpast, fun n hn => ?_, fun n hn => ?_,
    fun n => (hforced n).trans (or_congr_left (hadm n)), fun c hc => ?_⟩
  · exact (congrFun hsame n).trans (hgone n ((hadm n).mpr hn))
  · exact (congrFun hsame n).trans (hlib.kept n (mt (hadm n).mp hn)).2
  rcases hrows c hc with hc | hc
  · obtain ⟨rows, hst, hnames⟩ := hlib.rows
    rw [hst] at hc
    rcases List.mem_append.mp hc with hc | hc
    · exact .inl hc
    · exact .inr (.inl ((hadm _).mp (hnames ▸ List.mem_map.mpr ⟨c, hc, rfl⟩)))
  · exact .inr (.inr hc)

theorem ingest_safe_iff : (FileOp.ingest i).Safe claimNames f ↔
    (FileOp.ingest i).Spared claimNames f := by
  rw [safe_iff_held rfl fun _ => id]
  obtain ⟨hpast, -, hsame, hadm, hrows⟩ := ingest_seats claimNames f i
  -- the last two crashes, with the seats as one value
  have hcrashes : (FileOp.ingest i).crashes claimNames f =
      releases claimNames f (ingestStart f.book) (fun n => n ∈ i.written.map (·.strategy)) i.stamp
        i.written ++
      [{ f with book :=
          if (Book.seats claimNames i f.book f.book).admitted = [] then f.book
          else { f.book.savePool (Book.seats claimNames i f.book f.book).st with
            archive := (Book.seats claimNames i f.book f.book).archive } },
        { f with book :=
          if (Book.seats claimNames i f.book f.book).admitted = [] then f.book
          else { f.book.savePool (Book.seats claimNames i f.book f.book).st with
            archive := unpark (Book.seats claimNames i f.book f.book).archive
              (Book.seats claimNames i f.book f.book).admitted } }] := rfl
  rw [hcrashes]
  generalize Book.seats claimNames i f.book f.book = s at *
  have hnot : ∀ c ∈ f.book.pool, c.name ∉ s.admitted := fun c hc hmem =>
    (hpast.seated _ hmem).1 (List.mem_map.mpr ⟨c, hc, rfl⟩)
  constructor
  · intro h
    have hfree : ∀ r, f.Archived r → _ := fun r => not_seated_of_held
      (ingestStart_admitted f.book) rfl (fun f' hf' => h f' (List.mem_append_left _ hf'))
    have hlast := h _ (List.mem_append_right _ (List.mem_cons_of_mem _ List.mem_cons_self))
    refine ⟨hfree, fun n hn row hrow r hr hname => ?_, fun ⟨n, hn⟩ c hc => ?_⟩
    · obtain ⟨hrowname, hpool, hgrad, hstamped, hrole⟩ := forced_archived hrow
      have hmem : n ∈ s.admitted := (hadm n).mpr (.inr ⟨hn, by rw [hrow]; rfl⟩)
      have hheld := hlast r (held_of_archived hr)
      rw [if_neg (List.ne_nil_of_mem hmem)] at hheld
      have hgone : ¬ Files.Archived { f with book := { f.book.savePool s.st with
          archive := unpark s.archive s.admitted } } r := fun ha => by
        have hsame := hsame n (hname ▸ hfree r hr)
        have hnone : unpark s.archive s.admitted r.name = none := by
          rw [hname]
          exact unpark_twin hmem fun old hold => hrole old (hsame ▸ hold)
        have hsome : (unpark s.archive s.admitted r.name).isSome = true := ha.1
        rw [hnone] at hsome
        cases hsome
      cases r with
      | graduate g =>
        exact absurd (List.mem_map.mpr ⟨g, hheld.resolve_right hgone, hname⟩) hgrad
      | champion c =>
        obtain ⟨c₀, hc₀, rfl⟩ := List.mem_map.mp (hheld.resolve_right hgone)
        have hname : c₀.name = n := hname
        rcases hrows c₀ hc₀ with hc | hc | hc
        · exact absurd (List.mem_map.mpr ⟨c₀, hc, hname⟩) hpool
        · exact absurd hc (hfree _ hr)
        · rw [hname, hrow] at hc
          cases hc
          exact congrArg Row.champion hstamped
    · have hsome : s.admitted ≠ [] := List.ne_nil_of_mem ((hadm n).mpr hn)
      have hheld := hlast (.champion c) (.inl hc)
      rw [if_neg hsome] at hheld
      rcases hheld with hsaved | ha
      · exact .inl (stamped_of_mem_savePool hsaved)
      · refine .inr ⟨?_, ha.2⟩
        have hsome : (unpark s.archive s.admitted c.name).isSome = true := ha.1
        rw [unpark_of_not_mem (hnot c hc), (hpast.kept _ (hnot c hc)).2] at hsome
        exact hsome
  · rintro ⟨hfree, hback, hdated⟩ f' hf' r hr
    rcases List.mem_append.mp hf' with hf' | hf'
    · exact held_release rfl rfl hf' hr (hfree r)
    by_cases hsome : s.admitted = []
    · rw [if_pos hsome, if_pos hsome] at hf'
      have heq : f' = f := by
        rcases List.mem_cons.mp hf' with rfl | hf'
        · rfl
        · rw [List.mem_singleton.mp hf']
      exact heq ▸ hr
    rw [if_neg hsome, if_neg hsome] at hf'
    obtain ⟨n, hn⟩ := List.exists_mem_of_ne_nil _ hsome
    have hdated := hdated ⟨n, (hadm n).mp hn⟩
    have hnew : f'.book.pool = (f.book.savePool s.st).pool ∧
        f'.book.graduated = f.book.graduated ∧ f'.record = f.record ∧
          (f'.book.archive = s.archive ∨ f'.book.archive = unpark s.archive s.admitted) := by
      rcases List.mem_cons.mp hf' with rfl | hf'
      · exact ⟨rfl, rfl, rfl, .inl rfl⟩
      · rw [List.mem_singleton.mp hf']
        exact ⟨rfl, rfl, rfl, .inr rfl⟩
    obtain ⟨hpool, hgrad, hrecord, harchive⟩ := hnew
    -- what is not seated again stays in the archive
    have hkept : ∀ r, f.Archived r → r.name ∉ s.admitted → f'.Archived r := by
      intro r ha hno
      refine ⟨?_, hrecord ▸ ha.2⟩
      have hsame := hsame _ (hfree r ha)
      rcases harchive with harchive | harchive
      · rw [harchive, hsame]
        exact ha.1
      · rw [harchive, unpark_of_not_mem hno, hsame]
        exact ha.1
    -- and a twin that is forced back has its row in the pool
    have harchived : ∀ r, f.Archived r → f'.Held r := by
      intro r ha
      by_cases hmem : r.name ∈ s.admitted
      · rcases (hadm _).mp hmem with h | ⟨hforced, h⟩
        · exact absurd h (hfree r ha)
        · obtain ⟨row, hrow⟩ := Option.isSome_iff_exists.mp h
          obtain ⟨hname, hfreePool, -, hstamped, -⟩ := forced_archived hrow
          rw [hback _ hforced row hrow r ha rfl]
          obtain ⟨rows, hst, hnames⟩ := hpast.rows
          obtain ⟨c, hc, hcname⟩ := List.mem_map.mp (hnames ▸ hmem)
          have hcst : c ∈ s.st := hst ▸ List.mem_append_right _ hc
          have hrowc : row = c := by
            rcases hrows c hcst with h | h | h
            · exact absurd (List.mem_map.mpr ⟨c, h, hcname⟩) hfreePool
            · exact absurd (hcname ▸ h) (hfree r ha)
            · rw [hcname, hrow] at h
              exact Option.some.inj h
          exact .inl (hpool ▸ mem_savePool (hrowc ▸ hcst) hstamped)
      · exact held_of_archived (hkept r ha hmem)
    cases r with
    | graduate g => exact hr.elim (fun hg => .inl (hgrad ▸ hg)) (harchived _)
    | champion c =>
      rcases hr with hc | ha
      · rcases hdated c hc with h | ha
        · obtain ⟨rows, hst, -⟩ := hpast.rows
          exact .inl (hpool ▸ mem_savePool (hst ▸ List.mem_append_left _ hc) h)
        · exact .inr (hkept _ ha (hnot c hc))
      · exact harchived _ ha

end

end

end PaperTrading.Champions
