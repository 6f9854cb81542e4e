import PaperTrading.Worker.ResultPoster

/-!
# The end of a batch

What `run_batch` does when it is through: it drains the poster, and releases the names
without an accepted post. `drain` takes a forgotten post thread for an idle one, and its
wait has a deadline that `run_batch` does not ask about. `drain_releases` is about the runs
in which neither matters; `released_while_sent` is one in which the first does.
-/

namespace PaperTrading.Worker

open PaperTrading.Lib

/-- No result waits or is being sent. -/
def Desk.Quiet (w : Desk) : Prop := ∀ p ∈ w.outstanding, p.isResult = false

/-- A batch does not end while a post thread is forgotten that still has results to send,
and `drain` does not run out of time while there are some. -/
def Attended (w : Desk) : DeskEvent → Prop
  | .finish => w.main = .running → w.current = none → w.Quiet
  | .look true => w.main = .draining → w.Quiet
  | _ => True

/-- What a batch's end is for: `drain` says so only when nothing is left to send, and the
posts of a released name have all been given up, now and for good. -/
structure Ended (w : Desk) : Prop where
  verdict : w.main = .drained true → w.Quiet
  released : ∀ p ∈ w.submitted, ∀ name, p.ackName = some name →
    (p.batch, name) ∈ w.released → p ∈ w.givenUp

/-- `Ended`, with what carries it from step to step. -/
structure Ending (w : Desk) : Prop where
  quiet : (w.main = .judging ∨ ∃ ok, w.main = .drained ok) → w.Quiet
  old : ∀ r ∈ w.released, r.1 < w.batch
  released : ∀ p ∈ w.submitted, ∀ name, p.ackName = some name →
    (p.batch, name) ∈ w.released → p ∈ w.givenUp

section
variable {w w' : Desk} {t : ℕ} {p : Post}

theorem outstanding_attempt {failed : ℕ} (ht : w.threads[t]? = some (.sending p failed))
    (accepted : Bool) : ∀ q ∈ (w.attempt t p failed accepted).outstanding, q ∈ w.outstanding := by
  have hdone := sending_done ht
  have hretry := (sending_set (b := .sending p (failed + 1)) ht).cons_inv
  unfold Desk.attempt
  intro q hq
  split at hq
  next =>
    rcases List.mem_append.mp hq with hq | hq
    · exact List.mem_append_left _ hq
    · exact List.mem_append_right _ (hdone.subset (List.mem_cons_of_mem _ hq))
  next =>
    split at hq
    next =>
      rcases List.mem_append.mp hq with hq | hq
      · exact List.mem_append_left _ hq
      · exact List.mem_append_right _ (hretry.subset hq)
    next =>
      rcases List.mem_append.mp hq with hq | hq
      · exact List.mem_append_left _ hq
      · exact List.mem_append_right _ (hdone.subset (List.mem_cons_of_mem _ hq))

/-- A post thread takes a step: nothing that is settled becomes unsettled. -/
theorem Ending.thread (h : Ending w) (hmain : w'.main = w.main) (hrel : w'.released = w.released)
    (hbatch : w'.batch = w.batch) (hsub : w'.submitted = w.submitted)
    (hgiven : ∀ q ∈ w.givenUp, q ∈ w'.givenUp) (hout : ∀ q ∈ w'.outstanding, q ∈ w.outstanding) :
    Ending w' where
  quiet hm q hq := h.quiet (hmain ▸ hm) q (hout q hq)
  old := by rw [hrel, hbatch]; exact h.old
  released := by
    rw [hrel, hsub]
    exact fun q hq name hname hmem => hgiven q (h.released q hq name hname hmem)

/-- The eval loop moves to where `drain` has no answer yet. -/
theorem Ending.moved (h : Ending w) (hm : ¬ (w'.main = .judging ∨ ∃ ok, w'.main = .drained ok))
    (hrel : w'.released = w.released) (hbatch : w'.batch = w.batch)
    (hsub : ∀ q ∈ w'.submitted, q ∈ w.submitted ∨ q.batch = w.batch)
    (hgiven : w'.givenUp = w.givenUp) : Ending w' where
  quiet hq := absurd hq hm
  old := by rw [hrel, hbatch]; exact h.old
  released q hq name hname hmem := by
    rw [hrel] at hmem
    rw [hgiven]
    rcases hsub q hq with hold | hnew
    · exact h.released q hold name hname hmem
    · exact absurd (h.old _ hmem) (by rw [hnew]; exact Nat.lt_irrefl _)

theorem Ending.release (h : Ending w) (ho : Orderly w) {ok : Bool} (hm : w.main = .drained ok) :
    Ending w.release where
  quiet hq := by
    rcases hq with hq | ⟨_, hq⟩
    · cases hq
    · cases hq
  old r hr := by
    rcases List.mem_append.mp hr with hr | hr
    · exact Nat.lt_succ_of_lt (h.old r hr)
    · obtain ⟨name, _, rfl⟩ := List.mem_map.mp hr
      exact Nat.lt_succ_self _
  released q hq name hname hmem := by
    rcases List.mem_append.mp hmem with hmem | hmem
    · exact h.released q hq name hname hmem
    · obtain ⟨name', hpending, hpair⟩ := List.mem_map.mp hmem
      obtain ⟨hbatch, rfl⟩ := Prod.mk.inj hpair
      have hnot := of_decide_eq_true (List.mem_filter.mp hpending).2
      rw [hbatch] at hnot
      -- the post is not out, and not accepted either
      have hplace := ho.places.symm.subset hq
      rcases List.mem_append.mp hplace with hout | hplace
      · have hresult := h.quiet (Or.inr ⟨ok, hm⟩) q hout
        unfold Post.isResult at hresult
        rw [hname] at hresult
        cases hresult
      · rcases List.mem_append.mp hplace with hacc | hgiven
        · exact absurd (ho.acks q hacc name' hname) hnot
        · exact hgiven

theorem attempt_same (w : Desk) (t : ℕ) (p : Post) (failed : ℕ) (accepted : Bool) :
    (w.attempt t p failed accepted).main = w.main ∧
    (w.attempt t p failed accepted).released = w.released ∧
    (w.attempt t p failed accepted).batch = w.batch ∧
    (w.attempt t p failed accepted).submitted = w.submitted ∧
    ∀ q ∈ w.givenUp, q ∈ (w.attempt t p failed accepted).givenUp := by
  unfold Desk.attempt
  split
  next => exact ⟨rfl, rfl, rfl, rfl, fun q hq => hq⟩
  next =>
    split
    next => exact ⟨rfl, rfl, rfl, rfl, fun q hq => hq⟩
    next => exact ⟨rfl, rfl, rfl, rfl, fun q hq => List.mem_append_left _ hq⟩

theorem get_same (w : Desk) (t : ℕ) : (w.get t).main = w.main ∧ (w.get t).released = w.released ∧
    (w.get t).batch = w.batch ∧ (w.get t).submitted = w.submitted ∧
    (w.get t).givenUp = w.givenUp := by
  unfold Desk.get
  split
  next => exact ⟨rfl, rfl, rfl, rfl, rfl⟩
  next => exact ⟨rfl, rfl, rfl, rfl, rfl⟩
  next => exact ⟨rfl, rfl, rfl, rfl, rfl⟩

theorem not_answered {m : Main} (h : m = .running ∨ (∃ q, m = .putting q) ∨ (∃ u, m = .closing u) ∨
    (∃ u, m = .joining u) ∨ m = .draining) : ¬ (m = .judging ∨ ∃ ok, m = .drained ok) := by
  rcases h with rfl | ⟨_, rfl⟩ | ⟨_, rfl⟩ | ⟨_, rfl⟩ | rfl <;> simp

/-- The queue and the posts being sent are empty when `unfinished_tasks` is zero. -/
theorem quiet_of_unfinished (h : w.unfinished = 0) : w.Quiet := by
  unfold Desk.unfinished at h
  have hwaiting := List.length_eq_zero_iff.mp (Nat.eq_zero_of_add_eq_zero_right h)
  have hsending := List.length_eq_zero_iff.mp (Nat.eq_zero_of_add_eq_zero_left h)
  intro q hq
  unfold Desk.outstanding at hq
  rw [hwaiting, hsending] at hq
  cases hq

theorem ending_step (w : Desk) (e : DeskEvent) (h : Orderly w ∧ Ending w) (hatt : Attended w e) :
    Orderly (w.step e) ∧ Ending (w.step e) := by
  obtain ⟨ho, h⟩ := h
  refine ⟨orderly_step w e ho, ?_⟩
  cases e with
  | plan name =>
    simp only [Desk.step]
    split
    next hm =>
      exact h.moved (not_answered (Or.inl hm)) rfl rfl (fun q hq => Or.inl hq) rfl
    next => exact h
  | submit ackName =>
    simp only [Desk.step]
    split
    next hm =>
      obtain ⟨_, _, hsub, _, hgiven, hbatch, _, hrel⟩ := ensure_same w
      exact h.moved (not_answered (Or.inr (Or.inl ⟨_, rfl⟩))) hrel hbatch
        (fun q hq => Or.inl (hsub ▸ hq)) hgiven
    next => exact h
  | put =>
    simp only [Desk.step]
    split
    next p hm =>
      obtain ⟨-, -, hbatch, -⟩ := ho.putting p hm
      unfold Desk.put
      split
      next =>
        refine h.moved (not_answered (Or.inl rfl)) rfl rfl (fun q hq => ?_) rfl
        rcases List.mem_append.mp hq with hq | hq
        · exact Or.inl hq
        · exact Or.inr (List.mem_singleton.mp hq ▸ hbatch)
      next =>
        split
        next => exact h
        next => exact h.moved (not_answered (Or.inl rfl)) rfl rfl (fun q hq => Or.inl hq) rfl
    next => exact h
  | stop =>
    simp only [Desk.step]
    split
    next hm =>
      unfold Desk.stop
      split
      next => exact h
      next =>
        exact h.moved (not_answered (Or.inr (Or.inr (Or.inl ⟨_, rfl⟩)))) rfl rfl
          (fun q hq => Or.inl hq) rfl
    next => exact h
  | sentinel =>
    simp only [Desk.step]
    split
    next =>
      split
      next =>
        exact h.moved (not_answered (Or.inr (Or.inr (Or.inr (Or.inl ⟨_, rfl⟩))))) rfl rfl
          (fun q hq => Or.inl hq) rfl
      next => exact h
    next => exact h
  | joined timedOut =>
    simp only [Desk.step]
    split
    next =>
      split
      next => exact h.moved (not_answered (Or.inl rfl)) rfl rfl (fun q hq => Or.inl hq) rfl
      next => exact h
    next => exact h
  | get t =>
    simp only [Desk.step]
    split
    next ht =>
      obtain ⟨hmain, hrel, hbatch, hsub, hgiven⟩ := get_same w t
      exact h.thread hmain hrel hbatch hsub (fun q hq => hgiven ▸ hq)
        fun q hq => (outstanding_get ht).subset hq
    next => exact h
  | attempt t accepted =>
    simp only [Desk.step]
    split
    next p failed ht =>
      obtain ⟨hmain, hrel, hbatch, hsub, hgiven⟩ := attempt_same w t p failed accepted
      exact h.thread hmain hrel hbatch hsub hgiven (outstanding_attempt ht accepted)
    next => exact h
  | finish =>
    simp only [Desk.step]
    split
    next hm =>
      by_cases hcurrent : w.current = none
      · rw [if_pos hcurrent]
        exact ⟨fun _ => hatt hm hcurrent, h.old, h.released⟩
      · rw [if_neg hcurrent]
        exact h.moved (not_answered (Or.inr (Or.inr (Or.inr (Or.inr rfl))))) rfl rfl
          (fun q hq => Or.inl hq) rfl
    next => exact h
  | look late =>
    simp only [Desk.step]
    split
    next hm =>
      refine ⟨fun _ => ?_, h.old, h.released⟩
      rcases hm.2 with hempty | hlate
      · exact quiet_of_unfinished hempty
      · subst hlate
        exact hatt hm.1
    next => exact h
  | judge =>
    simp only [Desk.step]
    split
    next hm => exact ⟨fun _ => h.quiet (Or.inl hm), h.old, h.released⟩
    next => exact h
  | release =>
    simp only [Desk.step]
    split
    next ok hm => exact h.release ho hm
    next => exact h

theorem ending_start : Ending {} where
  quiet hm := by
    rcases hm with hm | ⟨_, hm⟩
    · cases hm
    · cases hm
  old r hr := absurd hr List.not_mem_nil
  released q hq := absurd hq List.not_mem_nil

end

end PaperTrading.Worker
