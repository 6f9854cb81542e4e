import PaperTrading.Tape.Pin

/-!
# Refreshing the live tape

`ensure_symbol` of `trading/live_tape.py`: newer pages first (`_extend_forward`), then
older ones (`_extend_backward`), each merged into the tape; the tape is cut to its target
length (`_trim`) and saved.

The venue may answer anything, and the deadline may pass at any time. A refresh that
returns has saved the newest bars of everything fetched (`Kept`), and over any number of
refreshes each saved bar is the last one fetched for its time (`refreshes_keep`). A
target of zero or less is no limit. An exception that gets past the handlers saves the
tape from before the loop it left, without the pages that loop had merged
(`raise_forgets`).
-/

namespace PaperTrading.Tape

open PaperTrading.Lib

/-- `TF_MS` -/
def TF_MS : ℤ := 300000

/-- `CHUNK_SIZE` -/
def CHUNK_SIZE : ℕ := 200

/-- `_SAVE_EVERY_PAGES` -/
def SAVE_EVERY_PAGES : ℕ := 100

/-- What comes of a request for a page. -/
inductive Reply where
  | page (rows : List Bar)
  /-- It fails, or its rows are no candles: the loop ends. -/
  | failed
  /-- It raises what the handlers do not catch. -/
  | raises

/-- The venue and the time: the reply to each request, by its number and its `since`, and
whether the deadline lies ahead before it. -/
structure Venue where
  reply : ℕ → Option ℤ → Reply
  inTime : ℕ → Bool

/-- `_trim` -/
def trim (t : StoredTape) (target : ℤ) : StoredTape :=
  if 0 < target ∧ target < t.bars.length then
    { bars := t.bars.drop (t.bars.length - target.toNat)
      sorted := t.sorted.drop }
  else t

/-- A refresh under way: the tape it has, the tape on disk, the requests made, the rows
merged in order, and whether an exception got out. -/
structure Refresh where
  tape : StoredTape
  file : StoredTape
  requests : ℕ := 0
  merged : List Bar := []
  raised : Bool := false

/-- `save_array`, which a tape without bars does not reach. -/
def Refresh.save (r : Refresh) (t : StoredTape) : Refresh :=
  if t.bars = [] then r else { r with file := t }

/-- A page is merged; with the `n`-th page in a hundred the tape is saved. -/
def Refresh.merge (r : Refresh) (target : ℤ) (n : ℕ) (rows : List Bar) : Refresh :=
  let t := mergeArrays r.tape rows
  { r with
    tape := t
    file := if n % SAVE_EVERY_PAGES = 0 then trim t target else r.file
    requests := r.requests + 1
    merged := r.merged ++ rows }

/-- The oldest and the newest time of a tape. -/
def firstTs (t : StoredTape) : Option ℤ := t.bars.head?.map Bar.ts

def lastTs (t : StoredTape) : Option ℤ := t.bars.getLast?.map Bar.ts

section
variable (v : Venue) (target : ℤ)

/-- The loop of `_extend_forward`, with so many pages left after `n`. -/
def forwardLoop : (left n : ℕ) → (cursor : ℤ) → Refresh → Refresh
  | 0, _, _, r => r
  | left + 1, n, cursor, r =>
    if v.inTime r.requests then
      match v.reply r.requests (some cursor) with
      | .failed | .page [] => { r with requests := r.requests + 1 }
      | .raises => { r with requests := r.requests + 1, raised := true }
      | .page (row :: rows) =>
        let r' := r.merge target (n + 1) (row :: rows)
        let last := (lastTs r'.tape).getD cursor
        if rows.length + 1 < CHUNK_SIZE ∨ last + TF_MS ≤ cursor then r'
        else forwardLoop left (n + 1) (last + TF_MS) r'
    else r

/-- `_extend_forward` -/
def extendForward (maxPages : ℕ) (r : Refresh) : Refresh :=
  match lastTs r.tape with
  | none => r
  | some cursor => forwardLoop v target maxPages 0 cursor r

/-- `since`, of a request for older bars -/
def since (t : StoredTape) : Option ℤ := (firstTs t).map fun ts => max 0 (ts - CHUNK_SIZE * TF_MS)

/-- The page has brought neither another bar nor an older one. -/
def nothingNew (old new : StoredTape) : Bool :=
  match firstTs old, firstTs new with
  | some before, some first => new.bars.length = old.bars.length ∧ before ≤ first
  | _, _ => false

/-- The loop of `_extend_backward`, with so many pages left after `n`. -/
def backwardLoop : (left n : ℕ) → Refresh → Refresh
  | 0, _, r => r
  | left + 1, n, r =>
    if r.tape.bars.length < target ∧ v.inTime r.requests then
      match v.reply r.requests (since r.tape) with
      | .failed | .page [] => { r with requests := r.requests + 1 }
      | .raises => { r with requests := r.requests + 1, raised := true }
      | .page (row :: rows) =>
        if nothingNew r.tape (mergeArrays r.tape (row :: rows)) then
          { r.merge target (n + 1) (row :: rows) with file := r.file }
        else backwardLoop left (n + 1) (r.merge target (n + 1) (row :: rows))
    else r

/-- `_extend_backward` -/
def extendBackward (maxPages : ℕ) (r : Refresh) : Refresh := backwardLoop v target maxPages 0 r

/-- `page_cap` -/
def pageCap (maxPages : Option ℤ) : ℕ := (maxPages.getD (target / CHUNK_SIZE + 20)).toNat

/-- The older bars, when the tape is short and there is time. -/
def ensureOlder (maxPages : ℕ) (r : Refresh) : Refresh :=
  if r.tape.bars.length < target ∧ v.inTime r.requests then extendBackward v target maxPages r else r

/-- The end of `ensure_symbol`: what the assignment before the exception left is trimmed
and saved. -/
def Refresh.finish (r : Refresh) (arr : StoredTape) : Refresh :=
  { r with tape := trim arr target }.save (trim arr target)

/-- `ensure_symbol`, of the tape on disk. -/
def ensureSymbol (maxPages : Option ℤ) (file : StoredTape) : Refresh :=
  let fwd := extendForward v target (pageCap target maxPages) { tape := file, file := file }
  if fwd.raised then fwd.finish target file
  else
    let back := ensureOlder v target (pageCap target maxPages) fwd
    if back.raised then back.finish target fwd.tape else back.finish target back.tape

end

/-! ## Merging and trimming -/

/-- The tape is the last bars of the rows, by their times. -/
def LastOf (rows : List Bar) (t : StoredTape) : Prop :=
  ∀ b, b ∈ t.bars ↔ lastWith Bar.ts b.ts rows = some b

theorem lastOf_self (t : StoredTape) : LastOf t.bars t := fun _ => t.sorted.lastWith.symm

/-- Behind newer rows, the tape stands for the rows it came from. -/
theorem LastOf.lastWith_append {rows : List Bar} {t : StoredTape} (h : LastOf rows t) (b : Bar)
    (new : List Bar) : lastWith Bar.ts b.ts (t.bars ++ new) = some b ↔
      lastWith Bar.ts b.ts (rows ++ new) = some b := by
  rw [PaperTrading.Lib.lastWith_append, PaperTrading.Lib.lastWith_append]
  cases lastWith Bar.ts b.ts new with
  | some c => rfl
  | none => rw [Option.none_or, Option.none_or, t.sorted.lastWith, h b]

theorem LastOf.merge {rows : List Bar} {t : StoredTape} (h : LastOf rows t) (new : List Bar) :
    LastOf (rows ++ new) (mergeArrays t new) := by
  intro b
  rw [mem_mergeArrays, h.lastWith_append]

theorem LastOf.eq_nil {rows : List Bar} {t : StoredTape} (h : LastOf rows t) (ht : t.bars = []) :
    rows = [] := by
  cases rows with
  | nil => rfl
  | cons b rows =>
    exfalso
    cases hlast : lastWith Bar.ts b.ts (b :: rows) with
    | none => exact lastWith_eq_none.mp hlast b List.mem_cons_self rfl
    | some c =>
      have hc := (h c).mpr (by rw [lastWith_key hlast, hlast])
      rw [ht] at hc
      cases hc

theorem trim_sublist (t : StoredTape) (target : ℤ) : (trim t target).bars.Sublist t.bars := by
  unfold trim
  split
  next => exact List.drop_sublist _ _
  next => exact List.Sublist.refl _

theorem trim_length (t : StoredTape) {target : ℤ} (h : 0 < target) :
    (trim t target).bars.length ≤ target := by
  unfold trim
  split
  next => simp only [List.length_drop]; omega
  next hnot => omega

/-- What is cut off is older than what stays, of which there is then as much as the
target says. -/
theorem trim_newest {t : StoredTape} {target : ℤ} {b : Bar} (hb : b ∈ t.bars) :
    b ∈ (trim t target).bars ∨
      ((trim t target).bars.length = target ∧ ∀ c ∈ (trim t target).bars, b.ts < c.ts) := by
  unfold trim
  split
  next hcut =>
    have hsorted := t.sorted
    unfold StrictlySorted at hsorted
    rw [← List.take_append_drop (t.bars.length - target.toNat) t.bars] at hb hsorted
    rcases List.mem_append.mp hb with hb | hb
    · refine Or.inr ⟨?_, (List.pairwise_append.mp hsorted).2.2 b hb⟩
      simp only [List.length_drop]
      omega
    · exact Or.inl hb
  next => exact Or.inl hb

theorem trim_eq_nil {t : StoredTape} {target : ℤ} (h : (trim t target).bars = []) : t.bars = [] := by
  unfold trim at h
  split at h
  next hcut =>
    have hlen := congrArg List.length h
    simp only [List.length_drop, List.length_nil] at hlen
    omega
  next => exact h

/-! ## The loops -/

/-- No exception gets past the handlers. -/
def Venue.Returns (v : Venue) : Prop := ∀ k since, v.reply k since ≠ .raises

/-- What a loop leaves: the tape of the rows before it and the rows merged in it, and a
saved tape only where there are bars. -/
structure Walked (v : Venue) (old : StoredTape) (r : Refresh) : Prop where
  tape : LastOf (old.bars ++ r.merged) r.tape
  file : r.tape.bars = [] → r.file = old
  returns : v.Returns → r.raised = false

section
variable {v : Venue} {target : ℤ} {old : StoredTape}

/-- A page leaves a tape with bars. -/
theorem Walked.merge_ne_nil {r : Refresh} (h : Walked v old r) (row : Bar) (rows : List Bar) :
    (mergeArrays r.tape (row :: rows)).bars ≠ [] := by
  intro hnil
  have hrows := (h.tape.merge (row :: rows)).eq_nil hnil
  simp at hrows

theorem Walked.merge {r : Refresh} (h : Walked v old r) (target : ℤ) (n : ℕ) (row : Bar) (rows : List Bar) :
    Walked v old (r.merge target n (row :: rows)) := by
  refine ⟨?_, fun hnil => absurd hnil (h.merge_ne_nil row rows), h.returns⟩
  show LastOf (old.bars ++ (r.merged ++ row :: rows)) _
  rw [← List.append_assoc]
  exact h.tape.merge _

theorem forwardLoop_walked : ∀ (left n : ℕ) (cursor : ℤ) (r : Refresh), Walked v old r →
    Walked v old (forwardLoop v target left n cursor r) := by
  intro left
  induction left with
  | zero => intro n cursor r h; exact h
  | succ left ih =>
    intro n cursor r h
    unfold forwardLoop
    split
    next =>
      split
      next => exact ⟨h.tape, h.file, h.returns⟩
      next => exact ⟨h.tape, h.file, h.returns⟩
      next hraises => exact ⟨h.tape, h.file, fun hv => absurd hraises (hv _ _)⟩
      next row rows _ =>
        have hmerge := h.merge target (n + 1) row rows
        show Walked v old (if _ then _ else _)
        split
        next => exact hmerge
        next => exact ih _ _ _ hmerge
    next => exact h

theorem backwardLoop_walked : ∀ (left n : ℕ) (r : Refresh), Walked v old r →
    Walked v old (backwardLoop v target left n r) := by
  intro left
  induction left with
  | zero => intro n r h; exact h
  | succ left ih =>
    intro n r h
    unfold backwardLoop
    split
    next =>
      split
      next => exact ⟨h.tape, h.file, h.returns⟩
      next => exact ⟨h.tape, h.file, h.returns⟩
      next hraises => exact ⟨h.tape, h.file, fun hv => absurd hraises (hv _ _)⟩
      next row rows _ =>
        have hmerge := h.merge target (n + 1) row rows
        split
        next => exact ⟨hmerge.tape, fun hnil => absurd hnil (h.merge_ne_nil row rows), h.returns⟩
        next => exact ih _ _ hmerge
    next => exact h

theorem extendForward_walked {r : Refresh} (h : Walked v old r) (target : ℤ) (maxPages : ℕ) :
    Walked v old (extendForward v target maxPages r) := by
  unfold extendForward
  split
  next => exact h
  next => exact forwardLoop_walked _ _ _ _ h

theorem ensureOlder_walked {r : Refresh} (h : Walked v old r) (target : ℤ) (maxPages : ℕ) :
    Walked v old (ensureOlder v target maxPages r) := by
  unfold ensureOlder
  split
  next => exact backwardLoop_walked _ _ _ h
  next => exact h

/-! ## Requests -/

theorem forwardLoop_requests : ∀ (left n : ℕ) (cursor : ℤ) (r : Refresh),
    (forwardLoop v target left n cursor r).requests ≤ r.requests + left := by
  intro left
  induction left with
  | zero => intro n cursor r; exact Nat.le_refl _
  | succ left ih =>
    intro n cursor r
    unfold forwardLoop
    split
    next =>
      split
      next => exact Nat.add_le_add_left (Nat.succ_le_succ (Nat.zero_le _)) _
      next => exact Nat.add_le_add_left (Nat.succ_le_succ (Nat.zero_le _)) _
      next => exact Nat.add_le_add_left (Nat.succ_le_succ (Nat.zero_le _)) _
      next row rows _ =>
        have hone : (r.merge target (n + 1) (row :: rows)).requests = r.requests + 1 := rfl
        show Refresh.requests (if _ then _ else _) ≤ _
        split
        next => omega
        next =>
          refine Nat.le_trans (ih _ _ _) ?_
          omega
    next => exact Nat.le_add_right _ _

theorem backwardLoop_requests : ∀ (left n : ℕ) (r : Refresh),
    (backwardLoop v target left n r).requests ≤ r.requests + left := by
  intro left
  induction left with
  | zero => intro n r; exact Nat.le_refl _
  | succ left ih =>
    intro n r
    unfold backwardLoop
    split
    next =>
      split
      next => exact Nat.add_le_add_left (Nat.succ_le_succ (Nat.zero_le _)) _
      next => exact Nat.add_le_add_left (Nat.succ_le_succ (Nat.zero_le _)) _
      next => exact Nat.add_le_add_left (Nat.succ_le_succ (Nat.zero_le _)) _
      next row rows _ =>
        have hone : (r.merge target (n + 1) (row :: rows)).requests = r.requests + 1 := rfl
        split
        next =>
          show r.requests + 1 ≤ _
          omega
        next =>
          refine Nat.le_trans (ih _ _) ?_
          omega
    next => exact Nat.le_add_right _ _

theorem extendForward_requests (v : Venue) (target : ℤ) (maxPages : ℕ) (r : Refresh) :
    (extendForward v target maxPages r).requests ≤ r.requests + maxPages := by
  unfold extendForward
  split
  next => exact Nat.le_add_right _ _
  next => exact forwardLoop_requests _ _ _ _

theorem ensureOlder_requests (v : Venue) (target : ℤ) (maxPages : ℕ) (r : Refresh) :
    (ensureOlder v target maxPages r).requests ≤ r.requests + maxPages := by
  unfold ensureOlder
  split
  next => exact backwardLoop_requests _ _ _
  next => exact Nat.le_add_right _ _

theorem finish_requests (r : Refresh) (arr : StoredTape) :
    (r.finish target arr).requests = r.requests := by
  unfold Refresh.finish Refresh.save
  split
  next => rfl
  next => rfl

/-- Both loops end: a refresh makes no more requests than its two page budgets allow. -/
theorem ensureSymbol_requests (v : Venue) (target : ℤ) (maxPages : Option ℤ) (file : StoredTape) :
    (ensureSymbol v target maxPages file).requests ≤ 2 * pageCap target maxPages := by
  have hfwd := extendForward_requests v target (pageCap target maxPages)
    { tape := file, file := file }
  have hback := ensureOlder_requests v target (pageCap target maxPages)
    (extendForward v target (pageCap target maxPages) { tape := file, file := file })
  simp only at hfwd
  unfold ensureSymbol
  show Refresh.requests (if _ then _ else if _ then _ else _) ≤ _
  split
  next => rw [finish_requests]; omega
  next =>
    split
    next => rw [finish_requests]; omega
    next => rw [finish_requests]; omega

end

/-! ## Refreshes that return -/

/-- One refresh: the venue, and the arguments. -/
structure Round where
  venue : Venue
  target : ℤ
  maxPages : Option ℤ

def Round.refresh (a : Round) (file : StoredTape) : Refresh :=
  ensureSymbol a.venue a.target a.maxPages file

/-- A refresh that returns has saved the trimmed tape of the saved bars and of what it
fetched. -/
theorem refresh_file {a : Round} (ha : a.venue.Returns) (file : StoredTape) :
    ∃ t, LastOf (file.bars ++ (a.refresh file).merged) t ∧
      (a.refresh file).file = trim t a.target := by
  have hstart : Walked a.venue file { tape := file, file := file } :=
    ⟨by simpa using lastOf_self file, fun _ => rfl, fun _ => rfl⟩
  have hfwd := extendForward_walked hstart a.target (pageCap a.target a.maxPages)
  have hback := ensureOlder_walked hfwd a.target (pageCap a.target a.maxPages)
  have hrefresh : a.refresh file =
      (ensureOlder a.venue a.target (pageCap a.target a.maxPages)
        (extendForward a.venue a.target (pageCap a.target a.maxPages)
          { tape := file, file := file })).finish a.target
        (ensureOlder a.venue a.target (pageCap a.target a.maxPages)
          (extendForward a.venue a.target (pageCap a.target a.maxPages)
            { tape := file, file := file })).tape := by
    unfold Round.refresh ensureSymbol
    simp only [hfwd.returns ha, hback.returns ha, Bool.false_eq_true, if_false]
  rw [hrefresh]
  unfold Refresh.finish Refresh.save
  split
  next hnil =>
    -- nothing saved, nothing fetched
    have htape := trim_eq_nil hnil
    refine ⟨_, hback.tape, ?_⟩
    have hrows := hback.tape.eq_nil htape
    have hold : file.bars = [] := (List.append_eq_nil_iff.mp hrows).1
    refine (hback.file htape).trans (StoredTape.ext ?_)
    rw [hold, hnil]
  next => exact ⟨_, hback.tape, rfl⟩

/-- What a refresh is to leave, given all rows there were for it. -/
structure Kept (rows : List Bar) (target : ℤ) (t : StoredTape) : Prop where
  ascending : StrictlySorted Bar.ts t.bars
  latest : ∀ b ∈ t.bars, lastWith Bar.ts b.ts rows = some b
  length : 0 < target → t.bars.length ≤ target
  /-- What is missing is older than all of the tape, which is then full. -/
  newest : ∀ b, lastWith Bar.ts b.ts rows = some b →
    b ∈ t.bars ∨ (t.bars.length = target ∧ ∀ c ∈ t.bars, b.ts < c.ts)

theorem refresh_kept {a : Round} (ha : a.venue.Returns) (file : StoredTape) :
    Kept (file.bars ++ (a.refresh file).merged) a.target (a.refresh file).file := by
  obtain ⟨t, ht, hfile⟩ := refresh_file ha file
  rw [hfile]
  exact ⟨(trim t a.target).sorted, fun b hb => (ht b).mp ((trim_sublist t a.target).subset hb),
    trim_length t, fun b hb => trim_newest ((ht b).mpr hb)⟩

/-- The saved tape, and all the rows fetched for it in order. -/
structure Saved where
  file : StoredTape
  history : List Bar

/-- A refresh of the saved tape. -/
def Saved.refresh (s : Saved) (a : Round) : Saved :=
  { file := (a.refresh s.file).file, history := s.history ++ (a.refresh s.file).merged }

/-- A tape of the last fetched bars stays one. -/
theorem latest_refresh {s : Saved} {a : Round} (ha : a.venue.Returns)
    (hs : ∀ b ∈ s.file.bars, lastWith Bar.ts b.ts s.history = some b) :
    ∀ b ∈ (s.refresh a).file.bars, lastWith Bar.ts b.ts (s.refresh a).history = some b := by
  intro b hb
  have hlast := (refresh_kept ha s.file).latest b hb
  show lastWith Bar.ts b.ts (s.history ++ (a.refresh s.file).merged) = some b
  rw [lastWith_append] at hlast ⊢
  cases hnew : lastWith Bar.ts b.ts (a.refresh s.file).merged with
  | some c => rwa [hnew] at hlast
  | none =>
    rw [hnew, Option.none_or, s.file.sorted.lastWith] at hlast
    rw [Option.none_or]
    exact hs b hlast

/-- After any number of refreshes that return, on any replies: the saved tape ascends
strictly, each bar of it is the last one fetched for its time, it is no longer than a
positive target, it has the newest of the bars it had and those the refresh fetched, and
the refresh made no more requests than its two budgets allow. -/
theorem refreshes_keep (file : StoredTape) (rounds : List Round) (last : Round)
    (hreturns : ∀ a ∈ rounds ++ [last], a.venue.Returns) :
    let s := rounds.foldl Saved.refresh { file := file, history := file.bars }
    Kept (s.file.bars ++ (last.refresh s.file).merged) last.target (s.refresh last).file ∧
      (∀ b ∈ (s.refresh last).file.bars,
        lastWith Bar.ts b.ts (s.refresh last).history = some b) ∧
      (last.refresh s.file).requests ≤ 2 * pageCap last.target last.maxPages := by
  intro s
  have hlast := hreturns last (List.mem_append_right _ (List.mem_singleton_self last))
  refine ⟨refresh_kept hlast s.file, ?_, ensureSymbol_requests _ _ _ _⟩
  refine latest_refresh hlast (run_inv (C := fun _ a => a.venue.Returns)
    (I := fun s : Saved => ∀ b ∈ s.file.bars, lastWith Bar.ts b.ts s.history = some b)
    (fun s a hs ha => latest_refresh ha hs) rounds (fun b => file.sorted.lastWith.mpr) ?_)
  exact along_of_mem rounds fun a ha => hreturns a (List.mem_append_left _ ha)

/-- A bar of the examples. -/
def barOf (ts price : ℕ) : Bar :=
  { ts := ts, openBits := price, highBits := price, lowBits := price, closeBits := price
    volumeBits := 0 }

/-- A venue that answers its first requests, and then fails. -/
def venueOf (replies : List Reply) : Venue where
  reply := fun k _ => replies.getD k .failed
  inTime := fun _ => true

theorem venueOf_returns {replies : List Reply} (h : ∀ r ∈ replies, r ≠ .raises) :
    (venueOf replies).Returns := by
  intro k since
  show replies.getD k .failed ≠ .raises
  rw [List.getD_eq_getElem?_getD]
  cases hk : replies[k]? with
  | none => exact Reply.noConfusion
  | some r => exact h r (List.mem_of_getElem? hk)

/-- Two refreshes of a tape: the second brings the first's newest bar again, changed. -/
theorem refreshes_keep_two :
    let first : Round := ⟨venueOf [.page [barOf 900000 1, barOf 600000 1]], 3, none⟩
    let second : Round :=
      ⟨venueOf [.page [barOf 900000 2], .page [barOf 300000 1, barOf 0 1]], 3, none⟩
    let s := [first].foldl Saved.refresh { file := dedupLast [], history := [] }
    ((s.refresh second).file.bars = [barOf 300000 1, barOf 600000 1, barOf 900000 2]) ∧
      Kept (s.file.bars ++ (second.refresh s.file).merged) second.target (s.refresh second).file := by
  intro first second s
  refine ⟨by decide +kernel, ?_⟩
  refine (refreshes_keep (dedupLast []) [first] second ?_).1
  intro a ha
  rcases List.mem_cons.mp ha with rfl | ha
  · exact venueOf_returns (by simp)
  · obtain rfl := List.mem_singleton.mp ha
    exact venueOf_returns (by simp)

/-- A target of zero does not cut the tape; and after an exception in the second loop the
tape is without the page that loop had merged. -/
theorem raise_forgets :
    let held := dedupLast [barOf 600000 1]
    let raising := venueOf [.failed, .page [barOf 300000 1, barOf 600000 2], .raises]
    ((ensureSymbol (venueOf []) 0 none held).raised = false ∧
      (ensureSymbol (venueOf []) 0 none held).file.bars.length = 1) ∧
    (ensureSymbol raising 5 none held).merged = [barOf 300000 1, barOf 600000 2] ∧
      (ensureSymbol raising 5 none held).file.bars = [barOf 600000 1] ∧
      ¬ ∀ b ∈ (ensureSymbol raising 5 none held).file.bars,
        lastWith Bar.ts b.ts (held.bars ++ (ensureSymbol raising 5 none held).merged) = some b := by
  decide +kernel

end PaperTrading.Tape
