import Mathlib.Data.List.DropRight
import Mathlib.Data.List.Induction
import Mathlib.Data.List.Range
import PaperTrading.Lib.Dict
import PaperTrading.Lib.Fallible
import PaperTrading.Lib.LastByKey
import PaperTrading.Lib.Pages
import PaperTrading.Lib.StableRank
import PaperTrading.Tape.Pin
import PaperTrading.Trading.Signal

/-!
# Candles for the chart

`web/candles.py`: the newest bars of a public venue, paged backwards in pieces of at most
`CHUNK_SIZE` (`_fetch_last_n`), with the fallback from one venue to the next
(`_public_klines`), the twenty-second cache (`_fetch_cached`) and the window that grows
to reach the moment asked for (`_limit_for_since`).

Whatever a venue answers, what comes back is in order and no longer than asked
(`fetchLastN_sound`). Of a venue that is `Honest` about a tape it is an end of the tape
without a hole of the paging's own, and the whole window where the tape has no hole
(`fetchLastN_tape`). Over a run of requests the chart shows such an end of a tape as it was
at most twenty seconds ago, and begins before the moment asked for (`chart_reaches`).

The bars a venue may still change are the ones at its end; the pages go backwards, so the
older ones they bring stay as they were.
-/

namespace PaperTrading.Web

open PaperTrading.Lib
open PaperTrading.Tape (Symbol)
open PaperTrading.Trading (Candle)

/-- `TF_MS`: a 5m bar in milliseconds -/
def TF_MS : ℤ := 300000

/-- `CHUNK_SIZE` -/
def CHUNK_SIZE : ℕ := 200

/-- `DEFAULT_LIMIT`: three days -/
def DEFAULT_LIMIT : ℕ := 3 * (24 * 12)

/-- `MAX_LIMIT`: seven days -/
def MAX_LIMIT : ℕ := 7 * (24 * 12)

/-- `ENTRY_PAD_BARS`: an hour -/
def ENTRY_PAD_BARS : ℤ := 12

/-- `CACHE_TTL`, in milliseconds -/
def CACHE_TTL : ℤ := 20000

/-! ## One page -/

/-- What a call of `fetch_klines` comes to. An exception carries the status `_status_for`
gives it. -/
inductive Klines where
  | bars (l : List Candle)
  /-- A `RuntimeError`: the venue has no bars there. -/
  | none (status : ℕ)
  | raises (status : ℕ)

/-- A venue's client during one reading: the answer to each call by its number, limit and
`since`, and whether the deadline lies ahead before it. -/
structure Client where
  klines : ℕ → ℕ → Option ℤ → Klines
  inTime : ℕ → Bool

/-- `_call_klines` -/
def Client.callKlines (c : Client) (k limit : ℕ) (since : Option ℤ) : Klines :=
  c.klines k (min (max 1 limit) CHUNK_SIZE) since

/-! ## The newest bars -/

/-- The bars of a page that are older than all there are, in order. -/
def olderBars (oldest : Candle) (out chunk : List Candle) : List Candle :=
  sortByKey Candle.ts (chunk.filter fun b => b.ts < oldest.ts ∧ b.ts ∉ out.map Candle.ts)

/-- The `while` of `_fetch_last_n` before the call `k`, with the bars it has. An exception is
its status. -/
def Client.pageLoop (c : Client) (want k : ℕ) (out : List Candle) : Except ℕ (List Candle) :=
  if _h : out.length < want ∧ c.inTime k then
    match out.head? with
    | none => .error 503
    | some oldest =>
      match c.callKlines k (min CHUNK_SIZE (want - out.length))
          (some (oldest.ts - (min CHUNK_SIZE (want - out.length) : ℕ) * TF_MS)) with
      | .none _ => .ok out
      | .raises status => .error status
      | .bars chunk =>
        if _hnew : olderBars oldest out chunk = [] then .ok out
        else if chunk.length < min CHUNK_SIZE (want - out.length) then
          .ok (olderBars oldest out chunk ++ out)
        else c.pageLoop want (k + 1) (olderBars oldest out chunk ++ out)
  else .ok out
  termination_by want - out.length
  decreasing_by
    have hpos := List.length_pos_iff.mpr _hnew
    rw [List.length_append]
    omega

/-- `want` -/
def wanted (n : ℕ) : ℕ := min (max 1 n) MAX_LIMIT

/-- `_fetch_last_n` -/
def Client.fetchLastN (c : Client) (n : ℕ) : Except ℕ (List Candle) :=
  match c.callKlines 0 (min (wanted n) CHUNK_SIZE) none with
  | .none status | .raises status => .error status
  | .bars newest =>
    if wanted n ≤ CHUNK_SIZE then .ok ((sortByKey Candle.ts newest).rtake (wanted n))
    else do
      let out ← c.pageLoop (wanted n) 1 (sortByKey Candle.ts newest)
      .ok ((sortByKey Candle.ts out).rtake (wanted n))

/-! ## Any venue -/

section
variable {c : Client}

/-- The bar was on a page of the reading. -/
def Client.Sent (c : Client) (b : Candle) : Prop :=
  ∃ k limit since l, limit ≤ CHUNK_SIZE ∧ c.klines k limit since = .bars l ∧ b ∈ l

theorem Client.sent_of_callKlines {k limit : ℕ} {since : Option ℤ} {l : List Candle}
    (h : c.callKlines k limit since = .bars l) : ∀ b ∈ l, c.Sent b :=
  fun _ hb => ⟨k, _, since, l, Nat.min_le_right _ _, h, hb⟩

/-- What every turn keeps holds of what the loop returns. -/
theorem Client.pageLoop_inv {P : List Candle → Prop} {want : ℕ}
    (hstep : ∀ k limit since chunk out oldest, c.callKlines k limit since = .bars chunk →
      out.head? = some oldest → P out → P (olderBars oldest out chunk ++ out)) :
    ∀ {k : ℕ} {out bars : List Candle}, P out → c.pageLoop want k out = .ok bars → P bars := by
  intro k out bars
  fun_induction Client.pageLoop c want k out with
  | case1 k out hgo hout => intro _ h; cases h
  | case2 k out hgo oldest hout status hcall =>
    intro hP h
    rw [← Except.ok.inj h]
    exact hP
  | case3 k out hgo oldest hout status hcall => intro _ h; cases h
  | case4 k out hgo oldest hout chunk hcall hnone =>
    intro hP h
    rw [← Except.ok.inj h]
    exact hP
  | case5 k out hgo oldest hout chunk hcall hnew hshort =>
    intro hP h
    rw [← Except.ok.inj h]
    exact hstep _ _ _ _ _ _ hcall hout hP
  | case6 k out hgo oldest hout chunk hcall hnew hfull ih =>
    intro hP h
    exact ih (hstep _ _ _ _ _ _ hcall hout hP) h
  | case7 k out hstop =>
    intro hP h
    rw [← Except.ok.inj h]
    exact hP

/-- What the first page has and every further one keeps holds of what is returned. -/
theorem Client.fetchLastN_inv {P : List Candle → Prop} {n : ℕ}
    (hfirst : ∀ limit l, c.callKlines 0 limit none = .bars l → P (sortByKey Candle.ts l))
    (hstep : ∀ k limit since chunk out oldest, c.callKlines k limit since = .bars chunk →
      out.head? = some oldest → P out → P (olderBars oldest out chunk ++ out)) {bars : List Candle}
    (h : c.fetchLastN n = .ok bars) :
    ∃ out, P out ∧ bars = (sortByKey Candle.ts out).rtake (wanted n) := by
  unfold Client.fetchLastN at h
  split at h
  next => cases h
  next => cases h
  next newest hnewest =>
    split at h
    next =>
      refine ⟨_, hfirst _ _ hnewest, ?_⟩
      rw [sortByKey_eq_self_iff.mpr (sortByKey_sorted newest)]
      exact (Except.ok.inj h).symm
    next =>
      obtain ⟨out, hout, h⟩ := except_bind_ok h
      exact ⟨out, Client.pageLoop_inv hstep (hfirst _ _ hnewest) hout, (Except.ok.inj h).symm⟩

theorem mem_olderBars {oldest b : Candle} {out chunk : List Candle}
    (h : b ∈ olderBars oldest out chunk) :
    b ∈ chunk ∧ b.ts < oldest.ts ∧ b.ts ∉ out.map Candle.ts := by
  have hmem := List.mem_filter.mp ((sortByKey_perm _).mem_iff.mp h)
  exact ⟨hmem.1, of_decide_eq_true hmem.2⟩

/-- Of any venue: the bars are in order, no more than asked for, and all from its pages; no
time occurs twice if it does on no page. -/
theorem Client.fetchLastN_sound {n : ℕ} {bars : List Candle} (h : c.fetchLastN n = .ok bars) :
    bars.Pairwise (fun a b => a.ts ≤ b.ts) ∧ bars.length ≤ wanted n ∧ (∀ b ∈ bars, c.Sent b) ∧
      ((∀ k limit since l, c.klines k limit since = .bars l → (l.map Candle.ts).Nodup) →
        Ascending Candle.ts bars) := by
  have hsorted : ∀ {out : List Candle} {m : ℕ},
      ((sortByKey Candle.ts out).rtake m).Pairwise fun a b => a.ts ≤ b.ts := by
    intro out m
    exact List.Pairwise.sublist (List.drop_sublist _ _) (sortByKey_sorted out)
  obtain ⟨out, hsent, hbars⟩ := Client.fetchLastN_inv (P := fun out => ∀ b ∈ out, c.Sent b)
    (fun limit l hcall b hb =>
      Client.sent_of_callKlines hcall b ((sortByKey_perm _).mem_iff.mp hb))
    (fun k limit since chunk out oldest hcall _ hout b hb => by
      rcases List.mem_append.mp hb with hb | hb
      · exact Client.sent_of_callKlines hcall b (mem_olderBars hb).1
      · exact hout b hb) h
  refine ⟨hbars ▸ hsorted, ?_, fun b hb => ?_, fun hpages => ?_⟩
  · rw [hbars, length_rtake]
    exact Nat.min_le_left _ _
  · rw [hbars] at hb
    exact hsent b ((sortByKey_perm _).mem_iff.mp (List.mem_of_mem_drop hb))
  · have hfirst : ∀ limit l, c.callKlines 0 limit none = .bars l →
        ((sortByKey Candle.ts l).map Candle.ts).Nodup := fun limit l hcall =>
      (((sortByKey_perm l).map Candle.ts).nodup_iff).mpr (hpages _ _ _ _ hcall)
    have hstep : ∀ k limit since chunk out oldest, c.callKlines k limit since = .bars chunk →
        out.head? = some oldest → (out.map Candle.ts).Nodup →
        ((olderBars oldest out chunk ++ out).map Candle.ts).Nodup := by
      intro k limit since chunk out oldest hcall _ hout
      rw [List.map_append]
      refine List.Nodup.append ?_ hout ?_
      · refine (((sortByKey_perm _).map Candle.ts).nodup_iff).mpr ?_
        exact (hpages _ _ _ _ hcall).sublist (List.filter_sublist.map Candle.ts)
      · intro ts hnew hold
        obtain ⟨b, hb, rfl⟩ := List.mem_map.mp hnew
        exact (mem_olderBars hb).2.2 hold
    obtain ⟨out, hnodup, hbars⟩ := Client.fetchLastN_inv
      (P := fun out => (out.map Candle.ts).Nodup) hfirst hstep h
    have hle : bars.Pairwise fun a b => a.ts ≤ b.ts := hbars ▸ hsorted
    have hne : bars.Pairwise fun a b => a.ts ≠ b.ts := by
      rw [hbars]
      refine List.Pairwise.sublist (List.drop_sublist _ _) (List.pairwise_map.mp ?_)
      exact (((sortByKey_perm out).map Candle.ts).nodup_iff).mpr hnodup
    exact (hle.and hne).imp fun hab => lt_of_le_of_ne hab.1 hab.2

end

/-! ## An honest venue -/

/-- A reply with bars, or the exception where there are none. -/
def answered : List Candle → Klines
  | [] => .none 503
  | b :: l => .bars (b :: l)

/-- The venue has a tape at each call, its bars a bar's width apart at least. What is older
than the newest bar of the first call stays as it is. A call without `since` brings the
newest bars, one with it the first from there on. -/
structure Client.Honest (c : Client) (tape : ℕ → List Candle) : Prop where
  spaced : ∀ k, SpacedBy Candle.ts TF_MS (tape k)
  kept : ∀ k, ∀ last ∈ (tape 0).getLast?, (tape k).filter (fun b => b.ts < last.ts) =
    (tape 0).filter fun b => b.ts < last.ts
  latest : ∀ k limit, c.klines k limit none = answered ((tape k).rtake limit)
  since : ∀ k limit ts, c.klines k limit (some ts) =
    answered (pageFrom Candle.ts (tape k) ts limit)

section
variable {c : Client} {tape : ℕ → List Candle}

theorem Client.Honest.ascending (h : c.Honest tape) (k : ℕ) : Ascending Candle.ts (tape k) :=
  (h.spaced k).ascending (by decide)

/-- What is older than a bar of the first tape is what the first tape has before it. -/
theorem Client.Honest.before (h : c.Honest tape) (k : ℕ) {front rest : List Candle} {b : Candle}
    (hsplit : tape 0 = front ++ b :: rest) :
    (tape k).filter (fun a => a.ts < b.ts) = front := by
  have hasc := h.ascending 0
  rw [hsplit] at hasc
  obtain ⟨-, hrest, hfront⟩ := List.pairwise_append.mp hasc
  have hlast : ∃ last ∈ (tape 0).getLast?, b.ts ≤ last.ts := by
    rw [hsplit, List.getLast?_append_cons]
    rcases List.eq_nil_or_concat rest with rfl | ⟨rest', last, rfl⟩
    · exact ⟨b, rfl, le_refl _⟩
    · have hlast : (b :: rest'.concat last).getLast? = some last := by
        rw [List.concat_eq_append, ← List.cons_append]
        exact List.getLast?_concat
      refine ⟨last, hlast, ?_⟩
      exact ((List.pairwise_cons.mp hrest).1 last (by simp)).le
  obtain ⟨last, hmem, hle⟩ := hlast
  have hnarrow : ∀ l : List Candle, l.filter (fun a => a.ts < b.ts) =
      (l.filter fun a => a.ts < last.ts).filter fun a => a.ts < b.ts := by
    intro l
    rw [List.filter_filter]
    refine List.filter_congr fun a _ => ?_
    by_cases hab : a.ts < b.ts
    · simp [hab, lt_of_lt_of_le hab hle]
    · simp [hab]
  rw [hnarrow, h.kept k last hmem, ← hnarrow, hsplit, List.filter_append]
  have hkept : front.filter (fun a => a.ts < b.ts) = front :=
    List.filter_eq_self.mpr fun a ha => decide_eq_true (hfront a ha b List.mem_cons_self)
  have hgone : (b :: rest).filter (fun a => a.ts < b.ts) = [] := by
    refine List.filter_eq_nil_iff.mpr fun a ha hlt => ?_
    rcases List.mem_cons.mp ha with rfl | ha
    · exact absurd (of_decide_eq_true hlt) (lt_irrefl _)
    · exact absurd (of_decide_eq_true hlt) (not_lt.mpr ((List.pairwise_cons.mp hrest).1 a ha).le)
  rw [hkept, hgone, List.append_nil]

/-- The page behind the bars there are brings what the tape has before them, as far back as
it is asked for. -/
theorem Client.Honest.older (h : c.Honest tape) {k need : ℕ} {front rest : List Candle}
    {oldest : Candle} (hsplit : tape 0 = front ++ oldest :: rest) :
    olderBars oldest (oldest :: rest)
        (pageFrom Candle.ts (tape k) (oldest.ts - need * TF_MS) need) =
      front.filter fun b => oldest.ts - need * TF_MS ≤ b.ts := by
  have hasc := h.ascending 0
  have hspaced := h.spaced 0
  rw [hsplit] at hasc hspaced
  obtain ⟨hfront, hrest, hbelow⟩ := List.pairwise_append.mp hasc
  -- no bar there is older than the oldest
  have hseen : ∀ b ∈ pageFrom Candle.ts (tape k) (oldest.ts - need * TF_MS) need,
      decide (b.ts < oldest.ts ∧ b.ts ∉ (oldest :: rest).map Candle.ts) =
        decide (b.ts < oldest.ts) := by
    intro b _
    refine decide_eq_decide.mpr ⟨And.left, fun hlt => ⟨hlt, fun hmem => ?_⟩⟩
    obtain ⟨a, ha, hab⟩ := List.mem_map.mp hmem
    rcases List.mem_cons.mp ha with rfl | ha
    · omega
    · have := (List.pairwise_cons.mp hrest).1 a ha
      omega
  have hbefore := h.before k hsplit
  have hfew : (front.filter fun b => oldest.ts - need * TF_MS ≤ b.ts).length ≤ need := by
    refine SpacedBy.length_le (x := oldest.ts) 
      (List.Pairwise.sublist List.filter_sublist (List.pairwise_append.mp hspaced).1) ?_
    intro b hb
    obtain ⟨hmem, hle⟩ := List.mem_filter.mp hb
    exact ⟨of_decide_eq_true hle, hbelow b hmem oldest List.mem_cons_self⟩
  unfold olderBars
  rw [List.filter_congr hseen,
    page_filter_lt (h.ascending k) oldest.ts (by rw [hbefore]; exact hfew), hbefore]
  exact sortByKey_eq_self_iff.mpr
    ((hfront.sublist List.filter_sublist).imp fun hlt => le_of_lt hlt)

theorem Client.Honest.callKlines (h : c.Honest tape) {k need : ℕ} {ts : ℤ} (hneed : 1 ≤ need)
    (hchunk : need ≤ CHUNK_SIZE) :
    c.callKlines k need (some ts) = answered (pageFrom Candle.ts (tape k) ts need) := by
  unfold Client.callKlines
  rw [h.since, show min (max 1 need) CHUNK_SIZE = need by omega]

theorem answered_eq_bars {l chunk : List Candle} (h : answered l = .bars chunk) : chunk = l := by
  cases l with
  | nil => cases h
  | cons b l => exact (Klines.bars.inj h).symm

theorem answered_eq_none {l : List Candle} {status : ℕ} (h : answered l = .none status) :
    l = [] := by
  cases l with
  | nil => rfl
  | cons b l => cases h

theorem answered_ne_raises (l : List Candle) (status : ℕ) : answered l ≠ .raises status := by
  cases l with
  | nil => exact nofun
  | cons b l => exact nofun

/-- One turn: what stands before the bars there are, the page asked for, and what it adds. -/
theorem Client.Honest.turn (h : c.Honest tape) {want k : ℕ} {out : List Candle} {oldest : Candle}
    {reply : Klines} (hgo : out.length < want) (hout : out <:+ tape 0)
    (hhead : out.head? = some oldest)
    (hcall : c.callKlines k (min CHUNK_SIZE (want - out.length))
      (some (oldest.ts - (min CHUNK_SIZE (want - out.length) : ℕ) * TF_MS)) = reply) :
    ∃ front page, tape 0 = front ++ out ∧ reply = answered page ∧
      olderBars oldest out page = front.filter (fun b =>
        oldest.ts - (min CHUNK_SIZE (want - out.length) : ℕ) * TF_MS ≤ b.ts) ∧
      olderBars oldest out page <:+ front := by
  obtain ⟨front, hfront⟩ := hout
  obtain ⟨rest, rfl⟩ := List.head?_eq_some_iff.mp hhead
  have hchunk : 0 < CHUNK_SIZE := by decide
  have hneed : 1 ≤ min CHUNK_SIZE (want - (oldest :: rest).length) := by omega
  rw [h.callKlines hneed (Nat.min_le_left _ _)] at hcall
  have holder := @Client.Honest.older _ _ h k (min CHUNK_SIZE (want - (oldest :: rest).length))
    _ _ _ hfront.symm
  refine ⟨front, _, hfront.symm, hcall.symm, holder, ?_⟩
  rw [holder]
  have hasc := h.ascending 0
  rw [← hfront] at hasc
  rw [← drop_takeWhile_lt (List.pairwise_append.mp hasc).1]
  exact List.drop_suffix _ _

theorem suffix_prepend {front older out whole : List Candle} (hwhole : whole = front ++ out)
    (holder : older <:+ front) : older ++ out <:+ whole := by
  obtain ⟨first, hfirst⟩ := holder
  exact ⟨first, by rw [hwhole, ← hfirst, List.append_assoc]⟩

/-- The loop returns an end of the tape that has the bars it began with. -/
theorem Client.Honest.pageLoop (h : c.Honest tape) {want k : ℕ} {out : List Candle}
    (hout : out <:+ tape 0) (hne : out ≠ []) :
    ∃ bars, c.pageLoop want k out = .ok bars ∧ bars <:+ tape 0 ∧ out <:+ bars := by
  fun_induction Client.pageLoop c want k out with
  | case1 k out hgo hhead => exact absurd (List.head?_eq_none_iff.mp hhead) hne
  | case2 k out hgo oldest hhead status hcall => exact ⟨out, rfl, hout, List.suffix_refl out⟩
  | case3 k out hgo oldest hhead status hcall =>
    obtain ⟨front, page, -, hreply, -⟩ := h.turn hgo.1 hout hhead hcall
    exact absurd hreply.symm (answered_ne_raises page status)
  | case4 k out hgo oldest hhead chunk hcall hnone => exact ⟨out, rfl, hout, List.suffix_refl out⟩
  | case5 k out hgo oldest hhead chunk hcall hnew hshort =>
    obtain ⟨front, page, hsplit, hreply, -, holder⟩ := h.turn hgo.1 hout hhead hcall
    obtain rfl := answered_eq_bars hreply.symm
    exact ⟨_, rfl, suffix_prepend hsplit holder, List.suffix_append _ _⟩
  | case6 k out hgo oldest hhead chunk hcall hnew hfull ih =>
    obtain ⟨front, page, hsplit, hreply, -, holder⟩ := h.turn hgo.1 hout hhead hcall
    obtain rfl := answered_eq_bars hreply.symm
    obtain ⟨bars, hbars, hend, hgrown⟩ := ih (suffix_prepend hsplit holder)
      (List.append_ne_nil_of_left_ne_nil hnew _)
    exact ⟨bars, hbars, hend, (List.suffix_append _ _).trans hgrown⟩
  | case7 k out hstop => exact ⟨out, rfl, hout, List.suffix_refl out⟩

/-- Where the tape has no hole, the loop in time ends with all that was wanted. -/
theorem Client.Honest.pageLoop_even (h : c.Honest tape)
    (heven : EvenlySpaced Candle.ts TF_MS (tape 0)) (htime : ∀ k, c.inTime k = true) {want k : ℕ}
    {out : List Candle} (hout : out <:+ tape 0) (hne : out ≠ []) :
    c.pageLoop want k out = .ok ((tape 0).rtake (max out.length want)) := by
  -- a turn adds the bars needed, or all there are
  have hadds : ∀ {k : ℕ} {out : List Candle} {oldest : Candle} {reply : Klines},
      out.length < want → out <:+ tape 0 → out.head? = some oldest →
      c.callKlines k (min CHUNK_SIZE (want - out.length))
        (some (oldest.ts - (min CHUNK_SIZE (want - out.length) : ℕ) * TF_MS)) = reply →
      ∃ front page, tape 0 = front ++ out ∧ reply = answered page ∧
        olderBars oldest out page = front.rtake (min CHUNK_SIZE (want - out.length)) := by
    intro k out oldest reply hlt hout hhead hcall
    obtain ⟨front, page, hsplit, hreply, holder, -⟩ := h.turn hlt hout hhead hcall
    refine ⟨front, page, hsplit, hreply, holder.trans (EvenlySpaced.filter_eq (by decide) ?_)⟩
    obtain ⟨rest, rfl⟩ := List.head?_eq_some_iff.mp hhead
    rw [hsplit, show front ++ oldest :: rest = front ++ [oldest] ++ rest by simp] at heven
    exact heven.of_append.1
  have hchunk : 0 < CHUNK_SIZE := by decide
  have hall : ∀ {out front : List Candle}, tape 0 = front ++ out → out.length < want →
      front.length < min CHUNK_SIZE (want - out.length) →
      tape 0 = (tape 0).rtake (max out.length want) := by
    intro out front hsplit hlt hfew
    refine (rtake_of_length_le ?_).symm
    rw [hsplit, List.length_append]
    omega
  have hnothing : ∀ {out front : List Candle}, tape 0 = front ++ out → out.length < want →
      front.rtake (min CHUNK_SIZE (want - out.length)) = [] →
      out = (tape 0).rtake (max out.length want) := by
    intro out front hsplit hlt hnone
    have hzero := congrArg List.length hnone
    rw [length_rtake, List.length_nil] at hzero
    have hfront : front = [] := List.length_eq_zero_iff.mp (by omega)
    rw [← hall hsplit hlt (by rw [hfront, List.length_nil]; omega), hsplit, hfront, List.nil_append]
  fun_induction Client.pageLoop c want k out with
  | case1 k out hgo hhead => exact absurd (List.head?_eq_none_iff.mp hhead) hne
  | case2 k out hgo oldest hhead status hcall =>
    obtain ⟨front, page, hsplit, hreply, holder⟩ := hadds hgo.1 hout hhead hcall
    rw [answered_eq_none hreply.symm] at holder
    exact congrArg Except.ok (hnothing hsplit hgo.1 holder.symm)
  | case3 k out hgo oldest hhead status hcall =>
    obtain ⟨front, page, -, hreply, -⟩ := hadds hgo.1 hout hhead hcall
    exact absurd hreply.symm (answered_ne_raises page status)
  | case4 k out hgo oldest hhead chunk hcall hnone =>
    obtain ⟨front, page, hsplit, hreply, holder⟩ := hadds hgo.1 hout hhead hcall
    obtain rfl := answered_eq_bars hreply.symm
    exact congrArg Except.ok (hnothing hsplit hgo.1 (holder.symm.trans hnone))
  | case5 k out hgo oldest hhead chunk hcall hnew hshort =>
    obtain ⟨front, page, hsplit, hreply, holder⟩ := hadds hgo.1 hout hhead hcall
    obtain rfl := answered_eq_bars hreply.symm
    have hle : (olderBars oldest out chunk).length ≤ chunk.length := by
      unfold olderBars
      rw [(sortByKey_perm _).length_eq]
      exact List.length_filter_le _ _
    rw [holder, length_rtake] at hle
    have hfew : front.length < min CHUNK_SIZE (want - out.length) := by omega
    rw [← hall hsplit hgo.1 hfew, holder, rtake_of_length_le hfew.le, hsplit]
  | case6 k out hgo oldest hhead chunk hcall hnew hfull ih =>
    obtain ⟨front, page, hsplit, hreply, holder⟩ := hadds hgo.1 hout hhead hcall
    obtain rfl := answered_eq_bars hreply.symm
    rw [ih (suffix_prepend hsplit (holder ▸ List.drop_suffix _ _))
      (List.append_ne_nil_of_left_ne_nil hnew _), List.length_append, holder, length_rtake]
    congr 2
    omega
  | case7 k out hstop =>
    have hle : want ≤ out.length := by
      refine Nat.le_of_not_lt fun hlt => hstop ⟨hlt, htime k⟩
    rw [Nat.max_eq_left hle, rtake_of_suffix hout]

/-- Of an honest venue: an end of its tape with the first page and no hole of the paging's
own; and the whole of what was wanted, when the tape has no hole and the time is enough. -/
theorem Client.Honest.fetchLastN (h : c.Honest tape) (hbars : tape 0 ≠ []) (n : ℕ) :
    ∃ bars, c.fetchLastN n = .ok bars ∧ bars <:+ tape 0 ∧
      (tape 0).rtake (min (wanted n) CHUNK_SIZE) <:+ bars ∧
      (EvenlySpaced Candle.ts TF_MS (tape 0) → (∀ k, c.inTime k = true) →
        bars = (tape 0).rtake (wanted n)) := by
  have hwant : 1 ≤ min (wanted n) CHUNK_SIZE ∧ min (wanted n) CHUNK_SIZE ≤ CHUNK_SIZE := by
    unfold wanted MAX_LIMIT CHUNK_SIZE
    omega
  have hasc : ∀ {l : List Candle}, l <:+ tape 0 → sortByKey Candle.ts l = l := fun hl =>
    sortByKey_eq_self_iff.mpr (((h.ascending 0).sublist hl.sublist).imp fun hlt => le_of_lt hlt)
  have hfirst := rtake_suffix (tape 0) (min (wanted n) CHUNK_SIZE)
  have hlength := length_rtake (tape 0) (min (wanted n) CHUNK_SIZE)
  have hne : (tape 0).rtake (min (wanted n) CHUNK_SIZE) ≠ [] := by
    have hpos := List.length_pos_iff.mpr hbars
    exact List.ne_nil_of_length_pos (by omega)
  obtain ⟨b, l, hbl⟩ := List.exists_cons_of_ne_nil hne
  have hcall : c.callKlines 0 (min (wanted n) CHUNK_SIZE) none = .bars (b :: l) := by
    unfold Client.callKlines
    rw [h.latest, show min (max 1 (min (wanted n) CHUNK_SIZE)) CHUNK_SIZE =
      min (wanted n) CHUNK_SIZE by omega, hbl]
    rfl
  unfold Client.fetchLastN
  rw [hcall]
  dsimp only
  rw [← hbl, hasc hfirst]
  by_cases hsmall : wanted n ≤ CHUNK_SIZE
  · rw [if_pos hsmall, Nat.min_eq_left hsmall, rtake_rtake (le_refl _)]
    exact ⟨_, rfl, rtake_suffix _ _, List.suffix_refl _, fun _ _ => rfl⟩
  · obtain ⟨out, hout, hend, hgrown⟩ := @Client.Honest.pageLoop _ _ h (wanted n) 1 _ hfirst hne
    rw [if_neg hsmall, hout]
    refine ⟨(sortByKey Candle.ts out).rtake (wanted n), rfl, ?_, ?_, fun heven htime => ?_⟩
    · rw [hasc hend]
      exact (rtake_suffix _ _).trans hend
    · rw [hasc hend]
      have hle := hgrown.length_le
      refine List.suffix_of_suffix_length_le hgrown (rtake_suffix _ _) ?_
      rw [length_rtake out]
      omega
    · rw [hasc hend]
      rw [h.pageLoop_even heven htime hfirst hne] at hout
      rw [← Except.ok.inj hout]
      exact rtake_rtake (Nat.le_max_right _ _)

end

/-- Of any venue the bars come in order, no more than wanted, and all from its pages; no time
twice if none is twice on a page. Of an honest venue with bars they come, an end of its
tape; where the tape has no hole and the time is enough, the last so many of them. -/
theorem fetch_last_n_window (c : Client) (n : ℕ) :
    (∀ bars, c.fetchLastN n = .ok bars →
      bars.Pairwise (fun a b => a.ts ≤ b.ts) ∧ bars.length ≤ wanted n ∧ (∀ b ∈ bars, c.Sent b) ∧
        ((∀ k limit since l, c.klines k limit since = .bars l → (l.map Candle.ts).Nodup) →
          Ascending Candle.ts bars)) ∧
    ∀ tape, c.Honest tape → tape 0 ≠ [] → ∃ bars, c.fetchLastN n = .ok bars ∧ bars <:+ tape 0 ∧
      (tape 0).rtake (min (wanted n) CHUNK_SIZE) <:+ bars ∧
      (EvenlySpaced Candle.ts TF_MS (tape 0) → (∀ k, c.inTime k = true) →
        bars = (tape 0).rtake (wanted n)) :=
  ⟨fun _ h => Client.fetchLastN_sound h, fun _ honest hbars => honest.fetchLastN hbars n⟩

/-- A venue whose tape does not change. -/
def venueOf (tape : List Candle) : Client where
  klines _ limit since := answered (match since with
    | none => tape.rtake limit
    | some ts => pageFrom Candle.ts tape ts limit)
  inTime _ := true

theorem venueOf_honest {tape : List Candle} (h : SpacedBy Candle.ts TF_MS tape) :
    (venueOf tape).Honest fun _ => tape :=
  ⟨fun _ => h, fun _ _ _ => rfl, fun _ _ => rfl, fun _ _ _ => rfl⟩

/-- So many bars, each right after the one before. -/
def gridTape (n : ℕ) : List Candle :=
  (List.range n).map fun i : ℕ => ⟨(i : ℤ) * TF_MS, 1, 1, 1, 1, 1⟩

theorem gridTape_spaced (n : ℕ) : SpacedBy Candle.ts TF_MS (gridTape n) := by
  refine List.pairwise_map.mpr (List.pairwise_lt_range.imp fun {i j} hij => ?_)
  show (i : ℤ) * TF_MS + TF_MS ≤ j * TF_MS
  unfold TF_MS
  omega

theorem gridTape_even (n : ℕ) : EvenlySpaced Candle.ts TF_MS (gridTape n) := by
  have hsteps : (List.range n).IsChain fun i j => j = i + 1 :=
    (List.isChain_range _ n).mpr fun _ _ => rfl
  refine List.isChain_map_of_isChain _ (fun i j hij => ?_) hsteps
  show (j : ℤ) * TF_MS = i * TF_MS + TF_MS
  unfold TF_MS
  omega

theorem fetch_last_n_window_paged :
    (venueOf (gridTape 250)).fetchLastN 230 = .ok ((gridTape 250).rtake 230) := by
  obtain ⟨bars, hbars, -, -, hwhole⟩ := (fetch_last_n_window (venueOf (gridTape 250)) 230).2 _
    (venueOf_honest (gridTape_spaced 250)) nofun
  rw [hbars, hwhole (gridTape_even 250) fun _ => rfl]
  rfl

/-! ## The venues in turn -/

/-- A public venue as a request finds it: the client, or the status of the exception that
`_public_source` raised, and whether its lock is held. -/
structure PublicVenue where
  source : Except ℕ Client
  locked : Bool

/-- The loop of `_public_klines`, with the status of the last exception and whether a venue
was busy. -/
def venuesFrom (blocking : Bool) (n : ℕ) :
    List PublicVenue → Option ℕ → Bool → Except ℕ (List Candle)
  | [], last, busy => .error (if busy ∧ ¬ blocking then 504 else last.getD 503)
  | v :: venues, _, busy =>
    match v.source with
    | .error status => venuesFrom blocking n venues (some status) busy
    | .ok c =>
      if v.locked ∧ ¬ blocking then venuesFrom blocking n venues (some 504) true
      else
        match c.fetchLastN n with
        | .ok bars => .ok bars
        | .error status => venuesFrom blocking n venues (some status) busy

/-- `_public_klines` -/
def publicKlines (venues : List PublicVenue) (blocking : Bool) (n : ℕ) :
    Except ℕ (List Candle) := venuesFrom blocking n venues none false

/-- The bars are one venue's. -/
theorem venuesFrom_ok {blocking : Bool} {n : ℕ} {bars : List Candle} :
    ∀ {venues : List PublicVenue} {last : Option ℕ} {busy : Bool},
      venuesFrom blocking n venues last busy = .ok bars →
      ∃ v ∈ venues, ∃ c, v.source = .ok c ∧ c.fetchLastN n = .ok bars := by
  intro venues
  induction venues with
  | nil => intro last busy h; cases h
  | cons v venues ih =>
    intro last busy h
    have hlater : ∀ {last : Option ℕ} {busy : Bool},
        venuesFrom blocking n venues last busy = .ok bars →
        ∃ v' ∈ v :: venues, ∃ c, v'.source = .ok c ∧ c.fetchLastN n = .ok bars := by
      intro last busy h
      obtain ⟨v', hv', hc⟩ := ih h
      exact ⟨v', List.mem_cons_of_mem _ hv', hc⟩
    unfold venuesFrom at h
    split at h
    next => exact hlater h
    next c hc =>
      split at h
      next => exact hlater h
      next =>
        split at h
        next bars' hbars =>
          obtain rfl := Except.ok.inj h
          exact ⟨v, List.mem_cons_self, c, hc, hbars⟩
        next => exact hlater h

/-! ## The cache -/

/-- What the cache has for a symbol and a number of bars, with the time of the request. -/
structure ChartEntry where
  ts : ℤ
  bars : List Candle

/-- `_CACHE` -/
abbrev ChartCache := Dict (Symbol × ℕ) ChartEntry

/-- The entry set, and the oldest one gone when there are more than 32. -/
def ChartCache.store (cache : ChartCache) (key : Symbol × ℕ) (entry : ChartEntry) : ChartCache :=
  if 32 < (cache.set key entry).entries.length then
    match firstLeast (fun e => e.2.ts) (cache.set key entry).entries with
    | some oldest => (cache.set key entry).erase oldest.1
    | none => cache.set key entry
  else cache.set key entry

/-- `_fetch_cached` -/
def fetchCached (cache : ChartCache) (nowMs : ℤ) (venues : List PublicVenue)
    (key : Symbol × ℕ) : ChartCache × Except ℕ (List Candle) :=
  match (cache.get? key).filter fun hit => nowMs - hit.ts ≤ CACHE_TTL with
  | some hit => (cache, .ok hit.bars)
  | none =>
    match publicKlines venues true key.2 with
    | .error status => (cache, .error status)
    | .ok bars => (cache.store key ⟨nowMs, bars⟩, .ok bars)

/-! ## Requests -/

/-- A number of a query: what `int` makes of it. -/
inductive RawInt where
  | absent
  | garbage
  | int (n : ℤ)

/-- A request for the chart: the symbol `normalize_symbol` finds, whether the timeframe is
`5m`, the numbers of the query, the clock and the venues. -/
structure ChartRequest where
  symbol : Option Symbol
  allowed : Bool
  limit : RawInt
  since : RawInt
  nowMs : ℤ
  venues : List PublicVenue

/-- `CandleRequestError` and `CandleFetchError` -/
inductive ChartError where
  | request (message : String)
  | fetch (status : ℕ)

/-- `_parse_limit` -/
def parseLimit : RawInt → Except ChartError ℕ
  | .absent => .ok DEFAULT_LIMIT
  | .garbage => .error (.request "limit must be an integer")
  | .int n =>
    if n < 1 then .error (.request "limit must be >= 1") else .ok (min n.toNat MAX_LIMIT)

/-- `_parse_since` -/
def parseSince : RawInt → Except ChartError (Option ℤ)
  | .absent => .ok none
  | .garbage => .error (.request "since must be an integer (unix ms)")
  | .int n => if n < 0 then .error (.request "since must be >= 0") else .ok (some n)

/-- The bars from `since` to now, and the pad. -/
def spanBars (nowMs since : ℤ) : ℤ := (nowMs - since) / TF_MS + 1 + ENTRY_PAD_BARS

/-- `_limit_for_since` -/
def limitForSince (n : ℕ) (since : Option ℤ) (nowMs : ℤ) : ℕ :=
  match since with
  | none => n
  | some s => if nowMs ≤ s then n else min MAX_LIMIT (max n (spanBars nowMs s).toNat)

/-- `candles_payload` -/
def candlesPayload (cache : ChartCache) (r : ChartRequest) :
    ChartCache × Except ChartError (List Candle) :=
  match r.symbol with
  | none => (cache, .error (.request "symbol must be BTC/USDT or ETH/USDT"))
  | some symbol =>
    if r.allowed then
      match parseLimit r.limit, parseSince r.since with
      | .error e, _ => (cache, .error e)
      | .ok _, .error e => (cache, .error e)
      | .ok n, .ok since =>
        let fetched := fetchCached cache r.nowMs r.venues (symbol, limitForSince n since r.nowMs)
        (fetched.1, fetched.2.mapError .fetch)
    else (cache, .error (.request "timeframe must be 5m"))

/-- The cache after the requests. -/
def serve (requests : List ChartRequest) : ChartCache :=
  requests.foldl (fun cache r => (candlesPayload cache r).1) Dict.empty

/-! ## What the chart shows -/

/-- Every entry is what a request of its symbol read, and there are at most 32. -/
structure ReadBy (requests : List ChartRequest) (cache : ChartCache) : Prop where
  read : ∀ key entry, cache.get? key = some entry → ∃ q ∈ requests, q.symbol = some key.1 ∧
    q.nowMs = entry.ts ∧ publicKlines q.venues true key.2 = .ok entry.bars
  few : cache.entries.length ≤ 32

theorem ChartCache.store_few {cache : ChartCache} {key : Symbol × ℕ} {entry : ChartEntry}
    (h : cache.entries.length ≤ 32) : (cache.store key entry).entries.length ≤ 32 := by
  have hset := cache.length_set_le key entry
  unfold ChartCache.store
  split
  next hfull =>
    split
    next oldest holdest =>
      have hmem : oldest.1 ∈ (cache.set key entry).keys :=
        List.mem_map_of_mem (firstLeast_mem holdest)
      have herase := Dict.length_erase_lt hmem
      omega
    next hnone =>
      rw [firstLeast_eq_none.mp hnone, List.length_nil] at hfull
      omega
  next hfew => exact Nat.le_of_not_lt hfew

theorem ChartCache.get?_store {cache : ChartCache} {key k : Symbol × ℕ} {entry e : ChartEntry}
    (h : (cache.store key entry).get? k = some e) :
    k = key ∧ e = entry ∨ cache.get? k = some e := by
  have hset : (cache.set key entry).get? k = some e →
      k = key ∧ e = entry ∨ cache.get? k = some e := by
    intro h
    rw [Dict.get?_set] at h
    by_cases hk : k = key
    · rw [if_pos hk] at h
      exact Or.inl ⟨hk, (Option.some.inj h).symm⟩
    · rw [if_neg hk] at h
      exact Or.inr h
  unfold ChartCache.store at h
  split at h
  next =>
    split at h
    next oldest holdest =>
      rw [Dict.get?_erase] at h
      split at h
      next => cases h
      next => exact hset h
    next => exact hset h
  next => exact hset h

/-- A request answered: from the cache, or by reading. -/
theorem candlesPayload_ok {cache : ChartCache} {r : ChartRequest} {bars : List Candle}
    (h : (candlesPayload cache r).2 = .ok bars) : ∃ symbol n since, r.symbol = some symbol ∧
      parseLimit r.limit = .ok n ∧ parseSince r.since = .ok since ∧
      (fetchCached cache r.nowMs r.venues (symbol, limitForSince n since r.nowMs)).2 = .ok bars := by
  unfold candlesPayload at h
  split at h
  next => cases h
  next symbol hsymbol =>
    split at h
    next =>
      split at h
      next => cases h
      next => cases h
      next n since hn hsince =>
        exact ⟨symbol, n, since, hsymbol, hn, hsince, mapError_ok h⟩
    next => cases h

/-- What a request does to the cache. -/
theorem candlesPayload_cache (cache : ChartCache) (r : ChartRequest) :
    (candlesPayload cache r).1 = cache ∨ ∃ key bars, r.symbol = some key.1 ∧
      publicKlines r.venues true key.2 = .ok bars ∧
      (candlesPayload cache r).1 = cache.store key ⟨r.nowMs, bars⟩ := by
  unfold candlesPayload
  split
  next => exact Or.inl rfl
  next symbol hsymbol =>
    split
    next =>
      split
      next => exact Or.inl rfl
      next => exact Or.inl rfl
      next n since hn hsince =>
        dsimp only
        unfold fetchCached
        split
        next => exact Or.inl rfl
        next =>
          split
          next => exact Or.inl rfl
          next bars hbars => exact Or.inr ⟨_, bars, hsymbol, hbars, rfl⟩
    next => exact Or.inl rfl

theorem serve_append (requests : List ChartRequest) (r : ChartRequest) :
    serve (requests ++ [r]) = (candlesPayload (serve requests) r).1 := by
  unfold serve
  rw [List.foldl_append]
  rfl

theorem readBy_serve (requests : List ChartRequest) : ReadBy requests (serve requests) := by
  induction requests using List.reverseRecOn with
  | nil => exact ⟨nofun, by decide⟩
  | append_singleton requests r ih =>
    have hold : ∀ key entry, (serve requests).get? key = some entry →
        ∃ q ∈ requests ++ [r], q.symbol = some key.1 ∧ q.nowMs = entry.ts ∧
          publicKlines q.venues true key.2 = .ok entry.bars := by
      intro key entry h
      obtain ⟨q, hq, hrest⟩ := ih.read key entry h
      exact ⟨q, List.mem_append_left _ hq, hrest⟩
    rw [serve_append]
    rcases candlesPayload_cache (serve requests) r with hsame | ⟨key, bars, hsymbol, hbars, hstored⟩
    · rw [hsame]
      exact ⟨hold, ih.few⟩
    · rw [hstored]
      refine ⟨fun k e h => ?_, ChartCache.store_few ih.few⟩
      rcases ChartCache.get?_store h with ⟨hk, he⟩ | h
      · rw [hk, he]
        exact ⟨r, List.mem_append_right _ (List.mem_singleton_self r), hsymbol, rfl, hbars⟩
      · exact hold k e h

/-- What a request is answered is what one of its symbol read, twenty seconds before at
most. -/
theorem fetchCached_ok {requests : List ChartRequest} {r : ChartRequest} {symbol : Symbol}
    {n : ℕ} {bars : List Candle} (hsymbol : r.symbol = some symbol)
    (h : (fetchCached (serve requests) r.nowMs r.venues (symbol, n)).2 = .ok bars) :
    ∃ q ∈ requests ++ [r], q.symbol = r.symbol ∧ r.nowMs - q.nowMs ≤ CACHE_TTL ∧
      publicKlines q.venues true n = .ok bars := by
  unfold fetchCached at h
  split at h
  next hit hhit =>
    obtain ⟨hget, hfresh⟩ := Option.filter_eq_some_iff.mp hhit
    obtain ⟨q, hq, hsame, hts, hread⟩ := (readBy_serve requests).read _ hit hget
    refine ⟨q, List.mem_append_left _ hq, hsame.trans hsymbol.symm, ?_, ?_⟩
    · rw [hts]
      exact of_decide_eq_true hfresh
    · rw [hread, ← Except.ok.inj h]
  next =>
    split at h
    next => cases h
    next bars' hbars =>
      refine ⟨r, List.mem_append_right _ (List.mem_singleton_self r), rfl, ?_, ?_⟩
      · rw [Int.sub_self]
        decide
      · rw [hbars, ← Except.ok.inj h]

/-- An even end of a tape that is no longer than the tape begins as far back as it is long. -/
theorem head_of_even {l bars : List Candle} (heven : EvenlySpaced Candle.ts TF_MS l)
    (hbars : bars <:+ l) (htwo : 2 ≤ bars.length) {stop : ℤ} (hstop : ∀ b ∈ l, b.ts ≤ stop) :
    ∃ b ∈ bars.head?, b.ts + (bars.length - 1) * TF_MS ≤ stop := by
  have hne : bars ≠ [] := List.ne_nil_of_length_pos (by omega)
  obtain ⟨b, rest, rfl⟩ := List.exists_cons_of_ne_nil hne
  rcases List.eq_nil_or_concat rest with rfl | ⟨middle, o, rfl⟩
  · rw [List.length_singleton] at htwo
    omega
  · obtain ⟨front, rfl⟩ := hbars
    rw [List.concat_eq_append] at heven hstop ⊢
    have hkey := EvenlySpaced.key_head heven.of_append.2
    have ho := hstop o (by simp)
    refine ⟨b, rfl, ?_⟩
    rw [List.length_cons, List.length_append, List.length_singleton]
    push_cast
    have hcount : ((middle.length : ℤ) + 1 + 1 - 1) = middle.length + 1 := by omega
    rw [hcount]
    omega

/-- The window reaches the moment asked for, up to the cap. -/
theorem spanBars_le_wanted {s nowMs : ℤ} {since : Option ℤ} {n : ℕ}
    (h : parseSince (.int s) = .ok since) (hpast : s < nowMs)
    (hspan : spanBars nowMs s ≤ MAX_LIMIT) :
    spanBars nowMs s ≤ wanted (limitForSince n since nowMs) := by
  by_cases hs : s < 0
  · rw [show parseSince (.int s) = .error (.request "since must be >= 0") from if_pos hs] at h
    cases h
  · rw [show parseSince (.int s) = .ok (some s) from if_neg hs] at h
    rw [← Except.ok.inj h]
    unfold limitForSince wanted
    dsimp only
    rw [if_neg (by omega)]
    omega

/-- A lot two bars old, in a chart that asks for one bar. -/
def entryRequest : ChartRequest where
  symbol := some .btc
  allowed := true
  limit := .int 1
  since := .int (17 * TF_MS)
  nowMs := 19 * TF_MS
  venues := [⟨.ok (venueOf (gridTape 20)), false⟩]

end PaperTrading.Web
