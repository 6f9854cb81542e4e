import PaperTrading.Mint.Explorer

/-!
# Refills never mint a name twice

Each side of the mix takes names into one book, and a book takes only names that share no
key with those in it (`Filled`), so all sides together do (`mixRefill_filled`). A refill
uses up the draw indices from its cursor on, each once, and leaves the next one in the file
(`mixRefill_draws`); so no index is used twice over a run (`refillRun_draws`).
-/

namespace PaperTrading.Mint

open Lib

/-! ## Keys -/

/-- The kinds of duplicates. -/
inductive NameKey where
  | text
  | canonical
  | nearDuplicate

/-- The key of a name of a kind. -/
def keyOf : NameKey → Text → Text
  | .text => id
  | .canonical => canonicalName
  | .nearDuplicate => nearDuplicateKey

theorem apart_iff {a b : Text} : Apart keyOf a b ↔
    a ≠ b ∧ canonicalName a ≠ canonicalName b ∧ nearDuplicateKey a ≠ nearDuplicateKey b := by
  constructor
  · exact fun h => ⟨h .text, h .canonical, h .nearDuplicate⟩
  · rintro ⟨htext, hcanonical, hnear⟩ i
    cases i with
    | text => exact htext
    | canonical => exact hcanonical
    | nearDuplicate => exact hnear

/-- A name with an atom shares no key with the empty text. -/
theorem apart_nil {name : Text} (h : atomsOf name ≠ []) : Apart keyOf [] name := by
  refine apart_iff.mpr ⟨fun heq => ?_, fun heq => ?_, fun heq => ?_⟩
  · rw [← heq] at h
    exact h (by decide)
  · exact canonicalName_ne_nil h (heq.symm.trans (by decide +kernel))
  · exact nearDuplicateKey_ne_nil h (heq.symm.trans (by decide +kernel))

namespace Taken
variable {book book' : Taken} {name : Text}

theorem mem_canon {c : Text} (h : c ≠ []) :
    c ∈ book.canon ↔ ∃ b ∈ book.names, canonicalName b = c := by
  rw [book.canon_eq, List.mem_filter, List.mem_map, decide_eq_true_eq]
  exact and_iff_left h

/-- What `mint_block_reason` is asked about grows with the book. -/
theorem canon_mono (h : book.names ⊆ book'.names) : book.canon ⊆ book'.canon := by
  intro c hc
  rw [book.canon_eq, List.mem_filter] at hc
  rw [book'.canon_eq, List.mem_filter]
  exact ⟨List.map_subset _ h hc.1, hc.2⟩

/-- A name none of whose keys the book has. -/
theorem free_of (hatoms : atomsOf name ≠ []) (htext : name ∉ book.names)
    (hcanon : ¬ (canonicalName name ≠ [] ∧ canonicalName name ∈ book.canon))
    (hkey : nearDuplicateKey name ∉ book.keys) : ∀ b ∈ book.names, Apart keyOf b name := by
  intro b hb
  have hne := canonicalName_ne_nil hatoms
  refine apart_iff.mpr ⟨fun heq => htext (heq ▸ hb), fun heq => ?_, fun heq => ?_⟩
  · exact hcanon ⟨hne, (mem_canon hne).mpr ⟨b, hb, heq⟩⟩
  · rw [book.keys_eq] at hkey
    exact hkey (heq ▸ List.mem_map_of_mem hb)

end Taken

/-! ## What a side of the mix does -/

/-- `names` were taken into the book, and each may be minted. -/
structure Filled (ctx : MintContext) (book book' : Taken) (names : List Text) : Prop where
  admitted : Admitted keyOf book.names book'.names names
  mintable : ∀ name ∈ names, Mintable ctx book.canon name

namespace Filled
variable {ctx : MintContext} {book book₁ book₂ : Taken} {names names' : List Text} {name : Text}

theorem refl : Filled ctx book book [] := ⟨.refl, fun _ h => absurd h List.not_mem_nil⟩

theorem add (hmint : Mintable ctx book.canon name) (hfree : ∀ b ∈ book.names, Apart keyOf b name) :
    Filled ctx book (book.add name) [name] :=
  ⟨.step hfree, fun _ h => List.mem_singleton.mp h ▸ hmint⟩

theorem trans (h₁ : Filled ctx book book₁ names) (h₂ : Filled ctx book₁ book₂ names') :
    Filled ctx book book₂ (names ++ names') where
  admitted := h₁.admitted.trans h₂.admitted
  mintable := by
    intro name h
    rcases List.mem_append.mp h with h | h
    · exact h₁.mintable name h
    · exact (h₂.mintable name h).mono (Taken.canon_mono h₁.admitted.grows)

theorem sublist (h : Filled ctx book book₁ names) (hs : names'.Sublist names) :
    Filled ctx book book₁ names' :=
  ⟨h.admitted.sublist hs, fun name hn => h.mintable name (hs.subset hn)⟩

theorem perm (h : Filled ctx book book₁ names) (hp : names'.Perm names) :
    Filled ctx book book₁ names' :=
  ⟨h.admitted.perm hp, fun name hn => h.mintable name (hp.subset hn)⟩

end Filled

section
variable {ctx : MintContext} {book : Taken} {name : Text}

/-- A check passed, and those behind it. -/
theorem check_eq_none {α : Type} {c : Prop} [Decidable c] {reason : α} {rest : Option α} :
    (if c then some reason else rest) = none ↔ ¬ c ∧ rest = none := by
  by_cases h : c <;> simp [h]

/-- A name without a reason against it goes into the book. -/
theorem filled_of_accepted {minAtoms : ℕ} (h : rejectReason ctx name minAtoms book = none) :
    Filled ctx book (book.add name) [name] := by
  simp only [rejectReason, check_eq_none, Option.or_eq_none_iff] at h
  obtain ⟨hparse, -, -, hdip, -, -, hblock, htext, hcanon, hkey, -⟩ := h
  have hparse : nameIsParseable name = true := by simpa using (not_or.mp hparse).2
  exact .add ⟨hparse, hblock, Bool.eq_false_iff.mpr hdip⟩
    (Taken.free_of (atomsOf_ne_nil hparse) htext hcanon hkey)

/-- A random attempt takes what it gives into the book. -/
theorem randomAttempt_filled {propose : ℕ → Option Text} {index : ℕ} {got : Text × Taken}
    (h : randomAttempt ctx propose book index = some got) : Filled ctx book got.2 [got.1] := by
  unfold randomAttempt at h
  split at h
  next => cases h
  next proposed _ =>
    split at h
    next => cases h
    next =>
      generalize (if canonicalName proposed = [] then proposed else canonicalName proposed) = canon
        at h
      dsimp only at h
      split at h
      next => cases h
      next hno =>
        obtain rfl := Option.some.inj h
        exact filled_of_accepted (Option.not_isSome_iff_eq_none.mp hno)

theorem pairedAttempt_filled {swap : ℕ → Option (Text × Text × String)} {index : ℕ}
    {got : PairRow × Taken} (h : pairedAttempt ctx swap book index = some got) :
    Filled ctx book got.2 [got.1.child] := by
  unfold pairedAttempt at h
  split at h
  next => cases h
  next =>
    split at h
    next => cases h
    next =>
      split at h
      next => cases h
      next hno =>
        obtain rfl := Option.some.inj h
        exact filled_of_accepted (Option.not_isSome_iff_eq_none.mp hno)

/-- A loop whose attempts take what they give, takes all of it. -/
theorem drawLoop_filled {α : Type} (attempt : Taken → ℕ → Option (α × Taken)) (nameOf : α → Text)
    (hattempt : ∀ {book index got}, attempt book index = some got →
      Filled ctx book got.2 [nameOf got.1]) (want limit start : ℕ) (book : Taken) :
    Filled ctx book (drawLoop attempt want limit { state := book, next := start }).state
      ((drawLoop attempt want limit { state := book, next := start }).out.map nameOf) := by
  refine drawLoop_inv (P := fun d : Drawn Taken α => Filled ctx book d.state (d.out.map nameOf))
    (fun d _ hd => ?_) limit .refl
  unfold Drawn.after
  cases hgot : attempt d.state d.next with
  | none => simpa using hd
  | some got => simpa using hd.trans (hattempt hgot)

theorem sampleRandomNames_filled (propose : ℕ → Option Text) (n start : ℕ) (book : Taken) :
    Filled ctx book (sampleRandomNames ctx propose n start book).state
      (sampleRandomNames ctx propose n start book).out := by
  have h := drawLoop_filled (randomAttempt ctx propose) id randomAttempt_filled n
    (n * MAX_ATTEMPTS_PER_NAME) start book
  rwa [List.map_id] at h

theorem samplePairedNames_filled (pool : List Text)
    (swap : List Text → ℕ → Option (Text × Text × String)) (n start : ℕ) (book : Taken) :
    Filled ctx book (samplePairedNames ctx pool swap n start book).state
      ((samplePairedNames ctx pool swap n start book).out.map PairRow.child) :=
  drawLoop_filled (pairedAttempt ctx _) PairRow.child pairedAttempt_filled n _ start book

/-! ## The exploit share -/

/-- A further name that is free goes into the book too. -/
theorem Filled.extend {book' : Taken} {kept : List Text} (h : Filled ctx book book' kept)
    (hmint : Mintable ctx book.canon name) (hfree : ∀ b ∈ book'.names, Apart keyOf b name) :
    Filled ctx book (book'.add name) (kept ++ [name]) where
  admitted := h.admitted.trans (.step hfree)
  mintable := by
    intro n hn
    rcases List.mem_append.mp hn with hn | hn
    · exact h.mintable n hn
    · exact List.mem_singleton.mp hn ▸ hmint

theorem takeExploit_eq_some {book' : Taken} (h : takeExploit name book = some book') :
    book' = book.add name ∧ name ∉ book.names ∧
      ¬ (canonicalName name ≠ [] ∧ canonicalName name ∈ book.canon) ∧
      nearDuplicateKey name ∉ book.keys := by
  unfold takeExploit at h
  split at h
  next => cases h
  next htext =>
    split at h
    next => cases h
    next hkey =>
      split at h
      next => cases h
      next hcanon => exact ⟨(Option.some.inj h).symm, (not_or.mp htext).2, hcanon, hkey⟩

theorem takeNames_filled {enough : ℕ → Bool} {book' : Taken} {names kept : List Text}
    (hnames : ∀ name ∈ names, Mintable ctx book.canon name) (h : Filled ctx book book' kept) :
    Filled ctx book (takeNames enough names kept book').2 (takeNames enough names kept book').1 := by
  induction names generalizing kept book' with
  | nil => exact h
  | cons name rest ih =>
    have hrest : ∀ n ∈ rest, Mintable ctx book.canon n := fun n hn =>
      hnames n (List.mem_cons_of_mem _ hn)
    unfold takeNames
    split
    next => exact h
    next =>
      split
      next => exact ih hrest h
      next taken htaken =>
        obtain ⟨rfl, htext, hcanon, hkey⟩ := takeExploit_eq_some htaken
        have hmint := hnames name List.mem_cons_self
        exact ih hrest (h.extend hmint (Taken.free_of (atomsOf_ne_nil hmint.parses) htext hcanon hkey))

theorem takeNames_length {want : ℕ} {names kept : List Text} (h : kept.length ≤ want) :
    (takeNames (fun have_ => decide (want ≤ have_)) names kept book).1.length ≤ want := by
  induction names generalizing kept book with
  | nil => exact h
  | cons name rest ih =>
    unfold takeNames
    split
    next => exact h
    next hmore =>
      split
      next => exact ih h
      next =>
        refine ih ?_
        rw [List.length_append]
        exact Nat.lt_of_not_le fun hle => hmore (decide_eq_true hle)

/-- The batches are walked under the canonical names of the book's own names. -/
theorem Taken.canon_subset (book : Taken) : book.canon ⊆ canonicalKeySet book.names := by
  intro c hc
  rw [book.canon_eq] at hc
  obtain ⟨hmem, hne⟩ := List.mem_filter.mp hc
  obtain ⟨b, hb, rfl⟩ := List.mem_map.mp hmem
  refine List.mem_filter.mpr ⟨List.mem_map_of_mem (List.mem_filter.mpr ⟨hb, ?_⟩), hne⟩
  refine decide_eq_true fun hnil => of_decide_eq_true hne ?_
  rw [hnil]
  decide +kernel

end

section
variable (req : RefillRequest) (book : Taken)

theorem fillExploit_filled (want : ℕ) :
    Filled req.ctx book (req.fillExploit want book).1.2 (req.fillExploit want book).1.1 := by
  unfold RefillRequest.fillExploit
  split
  · exact .refl
  · have hrecipe : ∀ name ∈ nextRefillBatch req.ctx req.shuffle req.recipe book.names want req.lift
        req.liftSeed, Mintable req.ctx book.canon name := fun name hname =>
      (nextRefillBatch_mintable hname).mono book.canon_subset
    have hkept : Filled req.ctx book (takeNames (fun _ => false) _ [] book).2
        (takeNames (fun _ => false) _ [] book).1 := takeNames_filled hrecipe .refl
    dsimp only
    split
    · exact hkept.sublist (List.take_sublist _ _)
    · refine takeNames_filled (fun name hname => (nextDensifyBatch_mintable hname).mono ?_) hkept
      exact List.Subset.trans (Taken.canon_mono hkept.admitted.grows) (Taken.canon_subset _)

theorem fillExploit_length (want : ℕ) : (req.fillExploit want book).1.1.length ≤ want := by
  unfold RefillRequest.fillExploit
  split
  next => exact Nat.zero_le _
  next =>
    dsimp only
    split
    next => exact (List.length_take_le _ _)
    next hshort => exact takeNames_length (Nat.le_of_not_le hshort)

/-! ## A round -/

/-- What a round gave was taken into the book, from index `start` on, and is no more than
`want`. -/
structure Round.Gives (r : Round) (ctx : MintContext) (book : Taken) (want start : ℕ) : Prop where
  filled : Filled ctx book r.exploit.1.2 (r.random.out ++ r.children ++ r.exploit.1.1)
  size_le : r.size ≤ want
  next_le : start ≤ r.paired.next
  draws : r.random.draws ++ r.paired.draws = List.range' start (r.paired.next - start)

theorem sampleRandom_draws (seed : ℤ) (n start : ℕ) :
    start ≤ (req.sampleRandom seed n start book).next ∧
      (req.sampleRandom seed n start book).draws =
        List.range' start ((req.sampleRandom seed n start book).next - start) :=
  drawLoop_from _ _ _

theorem samplePaired_draws (seed : ℤ) (n start : ℕ) :
    start ≤ (req.samplePaired seed n start book).next ∧
      (req.samplePaired seed n start book).draws =
        List.range' start ((req.samplePaired seed n start book).next - start) :=
  drawLoop_from _ _ _

/-- Random names, then swaps, then the exploit share, whatever each is asked for. -/
theorem gives_of {r : Round} {seed : ℤ} {want start nRandom nPaired nExploit : ℕ}
    (hrandom : r.random = req.sampleRandom seed nRandom start book)
    (hpaired : r.paired = req.samplePaired seed nPaired r.random.next r.random.state)
    (hexploit : r.exploit = req.fillExploit nExploit r.paired.state) (hsize : r.size ≤ want) :
    r.Gives req.ctx book want start := by
  have hfilled : Filled req.ctx book r.random.state r.random.out := by
    rw [hrandom]
    exact sampleRandomNames_filled _ _ _ _
  have hfilled' : Filled req.ctx r.random.state r.paired.state r.children := by
    rw [Round.children, hpaired]
    exact samplePairedNames_filled _ _ _ _ _
  have hfilled'' : Filled req.ctx r.paired.state r.exploit.1.2 r.exploit.1.1 := by
    rw [hexploit]
    exact fillExploit_filled req _ nExploit
  have hdraws := sampleRandom_draws req book seed nRandom start
  have hdraws' := samplePaired_draws req r.random.state seed nPaired r.random.next
  rw [← hrandom] at hdraws
  rw [← hpaired] at hdraws'
  obtain ⟨hle, hdraws⟩ := hdraws
  obtain ⟨hle', hdraws'⟩ := hdraws'
  refine ⟨(hfilled.trans hfilled').trans hfilled'', hsize, hle.trans hle', ?_⟩
  rw [hdraws, hdraws']
  exact range'_behind hle hle'

theorem sampleRandom_length (seed : ℤ) (n start : ℕ) :
    (req.sampleRandom seed n start book).out.length ≤ n :=
  drawLoop_length _ (Nat.zero_le _)

theorem samplePaired_length (seed : ℤ) (n start : ℕ) :
    (req.samplePaired seed n start book).out.length ≤ n :=
  drawLoop_length _ (Nat.zero_le _)

/-- The shares of the first round make up the batch. -/
theorem splitCounts_sum (want : ℕ) (randomShare pairedShare : ℚ) :
    (splitCounts want randomShare pairedShare).1 + (splitCounts want randomShare pairedShare).2.1 +
      (splitCounts want randomShare pairedShare).2.2 = want := by
  unfold splitCounts
  dsimp only
  omega

theorem firstRound_gives (seed : ℤ) (want start : ℕ) :
    (req.firstRound seed want start book).Gives req.ctx book want start := by
  refine gives_of req book rfl rfl rfl ?_
  have hrandom := sampleRandom_length req book seed
    (splitCounts want req.randomShare req.pairedShare).1 start
  have hpaired := samplePaired_length req (req.firstRound seed want start book).random.state seed
    (splitCounts want req.randomShare req.pairedShare).2.1
    (req.firstRound seed want start book).random.next
  have hexploit := fillExploit_length req (req.firstRound seed want start book).paired.state
    (splitCounts want req.randomShare req.pairedShare).2.2
  exact (Nat.add_le_add (Nat.add_le_add hrandom hpaired) hexploit).trans (splitCounts_sum ..).le

/-- Each side of the second round is asked for what the sides before it left short. -/
theorem secondRound_gives (seed : ℤ) (short start : ℕ) :
    (req.secondRound seed short start book).Gives req.ctx book short start := by
  refine gives_of req book rfl rfl rfl ?_
  have hoff : ∀ (share : ℚ) (n : ℕ), (if 0 < share then n else 0) ≤ n := by
    intro share n
    split
    · exact le_refl n
    · exact Nat.zero_le n
  have hrandom := (sampleRandom_length req book seed _ start).trans (hoff req.randomShare short)
  have hpaired := (samplePaired_length req (req.secondRound seed short start book).random.state seed
    _ (req.secondRound seed short start book).random.next).trans (hoff req.pairedShare
      (short - (req.secondRound seed short start book).random.out.length))
  have hexploit := fillExploit_length req (req.secondRound seed short start book).paired.state
    (short - (req.secondRound seed short start book).random.out.length -
      (req.secondRound seed short start book).paired.out.length)
  change (req.secondRound seed short start book).random.out.length ≤ short at hrandom
  change (req.secondRound seed short start book).paired.out.length ≤ _ at hpaired
  change (req.secondRound seed short start book).exploit.1.1.length ≤ _ at hexploit
  show _ + _ + _ ≤ short
  omega

end

/-! ## A refill -/

/-- Everything a refill returns went through one book, and it is no more than was asked
for. -/
theorem mixRefill_filled (req : RefillRequest) (file : ExplorerFile) :
    (∃ book, Filled req.ctx (.of req.takenNames) book (mixRefill req file).names) ∧
      (mixRefill req file).names.length ≤ req.n.toNat := by
  unfold mixRefill
  dsimp only
  split
  next => exact ⟨⟨_, .refl⟩, Nat.zero_le _⟩
  next =>
    generalize req.cursor file = cursor
    have hone := firstRound_gives req (.of req.takenNames) cursor.seed req.n.toNat cursor.drawIndex
    generalize req.firstRound cursor.seed req.n.toNat cursor.drawIndex (.of req.takenNames) = one
      at hone ⊢
    have htwo := secondRound_gives req one.exploit.1.2 cursor.seed (req.n.toNat - one.size)
      one.paired.next
    generalize req.secondRound cursor.seed (req.n.toNat - one.size) one.paired.next
      one.exploit.1.2 = two at htwo ⊢
    have hperm : (one.random.out ++ two.random.out ++
        (one.paired.out ++ two.paired.out).map PairRow.child ++
          (one.exploit.1.1 ++ two.exploit.1.1)).Perm
        (one.random.out ++ one.children ++ one.exploit.1.1 ++
          (two.random.out ++ two.children ++ two.exploit.1.1)) := by
      refine List.perm_iff_count.mpr fun name => ?_
      simp only [Round.children, List.map_append, List.count_append]
      omega
    refine ⟨⟨_, (hone.filled.trans htwo.filled).perm hperm⟩, ?_⟩
    have hsizes : one.size + two.size ≤ req.n.toNat := by
      have := hone.size_le
      have := htwo.size_le
      omega
    refine le_trans (le_of_eq ?_) hsizes
    simp only [Round.size, List.length_append, List.length_map]
    omega

/-- The next index of a file. -/
def nextIndex (file : ExplorerFile) : ℕ := (loadExplorerCursor 0 file).drawIndex

theorem loadExplorerCursor_drawIndex (seed : ℤ) (file : ExplorerFile) :
    (loadExplorerCursor seed file).drawIndex = nextIndex file := by
  cases file <;> rfl

/-- A persisted refill uses up the indices from the file's on, each once, and the file then
has the next one. -/
theorem mixRefill_draws {req : RefillRequest} (hpersist : req.persist = true) (file : ExplorerFile) :
    nextIndex file ≤ nextIndex (mixRefill req file).file ∧
      (mixRefill req file).draws = List.range' (nextIndex file)
        (nextIndex (mixRefill req file).file - nextIndex file) := by
  unfold mixRefill
  dsimp only
  split
  next =>
    rw [Nat.sub_self, List.range'_zero]
    exact ⟨le_refl _, rfl⟩
  next =>
    have hcursor : (req.cursor file).drawIndex = nextIndex file := by
      unfold RefillRequest.cursor
      rw [if_pos hpersist, loadExplorerCursor_drawIndex]
    generalize req.cursor file = cursor at hcursor ⊢
    have hone := firstRound_gives req (.of req.takenNames) cursor.seed req.n.toNat cursor.drawIndex
    generalize req.firstRound cursor.seed req.n.toNat cursor.drawIndex (.of req.takenNames) = one
      at hone ⊢
    have htwo := secondRound_gives req one.exploit.1.2 cursor.seed (req.n.toNat - one.size)
      one.paired.next
    generalize req.secondRound cursor.seed (req.n.toNat - one.size) one.paired.next
      one.exploit.1.2 = two at htwo ⊢
    have hnext : nextIndex (if req.persist = true ∧
        (two.paired.next ≠ cursor.drawIndex ∨ file = .missing) then
          .cursor cursor.seed two.paired.next else file) = two.paired.next := by
      split
      next => exact Int.toNat_natCast _
      next hkept =>
        rw [← hcursor]
        by_contra hne
        exact hkept ⟨hpersist, .inl fun heq => hne heq.symm⟩
    rw [hnext, ← hcursor]
    refine ⟨hone.next_le.trans htwo.next_le, ?_⟩
    show one.random.draws ++ one.paired.draws ++ two.random.draws ++ two.paired.draws = _
    rw [List.append_assoc, hone.draws, htwo.draws]
    exact range'_behind hone.next_le htwo.next_le

/-- Over a run the indices are used in order, none twice. -/
theorem refillRun_draws (reqs : List RefillRequest) (file : ExplorerFile) :
    nextIndex file ≤ nextIndex (refillRun reqs file).1 ∧
      (refillRun reqs file).2 = List.range' (nextIndex file)
        (nextIndex (refillRun reqs file).1 - nextIndex file) := by
  induction reqs generalizing file with
  | nil =>
    show _ ∧ [] = List.range' (nextIndex file) (nextIndex file - nextIndex file)
    rw [Nat.sub_self]
    exact ⟨le_refl _, rfl⟩
  | cons req rest ih =>
    obtain ⟨hle, hdraws⟩ := mixRefill_draws (show ({ req with persist := true } :
      RefillRequest).persist = true from rfl) file
    obtain ⟨hle', hlater⟩ := ih (mixRefill { req with persist := true } file).file
    refine ⟨hle.trans hle', ?_⟩
    show (mixRefill { req with persist := true } file).draws ++ _ = _
    rw [hdraws, hlater]
    exact range'_behind hle hle'

/-- **A refill never mints a name twice.** Whatever is taken, whatever the cursor, the
shares, the parents and the lift model: it returns no more names than asked for; they are
pairwise distinct, and distinct from every taken name, as texts, canonically and as near
duplicates; each parses and passes the bans. Over any run of persisted refills no draw index
is used twice. -/
theorem mix_refill_never_remints (req : RefillRequest) (file : ExplorerFile)
    (reqs : List RefillRequest) :
    ((mixRefill req file).names.length ≤ req.n.toNat ∧
      (mixRefill req file).names.Pairwise fun a b =>
        a ≠ b ∧ canonicalName a ≠ canonicalName b ∧ nearDuplicateKey a ≠ nearDuplicateKey b) ∧
    (∀ name ∈ (mixRefill req file).names,
      (∀ t ∈ req.takenNames, t ≠ name ∧ canonicalName t ≠ canonicalName name ∧
        nearDuplicateKey t ≠ nearDuplicateKey name) ∧
      nameIsParseable name = true ∧
      mintBlockReason req.ctx name (canonicalKeySet req.takenNames) = none ∧
      nameHasMomGtAndDip name = false) ∧
    (refillRun reqs file).2.Nodup := by
  obtain ⟨⟨book, hfilled⟩, hlength⟩ := mixRefill_filled req file
  refine ⟨⟨hlength, hfilled.admitted.apart.imp fun h => apart_iff.mp h⟩, fun name hname => ?_, ?_⟩
  · have hmint := hfilled.mintable name hname
    refine ⟨fun t ht => apart_iff.mp ?_, hmint.parses, hmint.unblocked, hmint.noMomAndDip⟩
    by_cases hnil : t = []
    · rw [hnil]
      exact apart_nil (atomsOf_ne_nil hmint.parses)
    · exact hfilled.admitted.free name hname t
        (List.mem_filter.mpr ⟨ht, decide_eq_true hnil⟩)
  · rw [(refillRun_draws reqs file).2]
    exact List.nodup_range'

end PaperTrading.Mint
