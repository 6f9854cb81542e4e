import Mathlib.Data.List.Basic

/-!
# Lists of computations that may fail

`mapM` over `Except`: it succeeds when every entry does, and then it is the list of the
results (`mapM_ok_iff`). A loop that returns keeps what each of its turns keeps
(`foldlM_ok_inv`).
-/

namespace PaperTrading.Lib

variable {ε α β : Type}

theorem except_bind_ok {x : Except ε α} {f : α → Except ε β} {b : β} (h : x >>= f = .ok b) :
    ∃ a, x = .ok a ∧ f a = .ok b := by
  cases x with
  | error e => cases h
  | ok a => exact ⟨a, rfl, h⟩

theorem mapError_ok {δ : Type} {x : Except ε α} {f : ε → δ} {a : α}
    (h : x.mapError f = .ok a) : x = .ok a := by
  cases x with
  | error e => cases h
  | ok b => exact congrArg _ (Except.ok.inj h)

section
variable {f g : α → Except ε β} {l : List α} {out : List β}

theorem mapM_congr (h : ∀ a ∈ l, f a = g a) : l.mapM f = l.mapM g := by
  induction l with
  | nil => rfl
  | cons a l ih =>
    rw [List.mapM_cons, List.mapM_cons, h a List.mem_cons_self,
      ih fun b hb => h b (List.mem_cons_of_mem _ hb)]

theorem mapM_getElem? (h : l.mapM f = .ok out) {k : ℕ} {b : β} (hb : out[k]? = some b) :
    ∃ a, l[k]? = some a ∧ f a = .ok b := by
  induction l generalizing out k with
  | nil => cases h; cases hb
  | cons a l ih =>
    rw [List.mapM_cons] at h
    obtain ⟨b', ha, h⟩ := except_bind_ok h
    obtain ⟨bs, hl, h⟩ := except_bind_ok h
    cases h
    cases k with
    | zero => exact ⟨a, rfl, Option.some.inj hb ▸ ha⟩
    | succ k => exact ih hl hb

theorem mapM_getElem?_of (h : l.mapM f = .ok out) {k : ℕ} {a : α} (ha : l[k]? = some a) :
    ∃ b, out[k]? = some b ∧ f a = .ok b := by
  induction l generalizing out k with
  | nil => cases ha
  | cons a' l ih =>
    rw [List.mapM_cons] at h
    obtain ⟨b', hb, h⟩ := except_bind_ok h
    obtain ⟨bs, hl, h⟩ := except_bind_ok h
    cases h
    cases k with
    | zero => exact ⟨b', rfl, Option.some.inj ha ▸ hb⟩
    | succ k => exact ih hl ha

/-- A successful `mapM`, entry by entry. -/
theorem mapM_ok_iff {P : α → Prop} {g : α → β} (h : ∀ a ∈ l, ∀ b, f a = .ok b ↔ P a ∧ b = g a) :
    l.mapM f = .ok out ↔ (∀ a ∈ l, P a) ∧ out = l.map g := by
  induction l generalizing out with
  | nil =>
    rw [List.mapM_nil]
    constructor
    · intro hout
      cases hout
      exact ⟨by simp, rfl⟩
    · rintro ⟨-, rfl⟩
      rfl
  | cons a l ih =>
    have ih : ∀ {o : List β}, l.mapM f = .ok o ↔ (∀ a ∈ l, P a) ∧ o = l.map g :=
      ih fun a' ha' => h a' (List.mem_cons_of_mem _ ha')
    have ha := h a List.mem_cons_self
    rw [List.mapM_cons, List.forall_mem_cons]
    constructor
    · intro hout
      obtain ⟨b, hb, hout⟩ := except_bind_ok hout
      obtain ⟨bs, hbs, hout⟩ := except_bind_ok hout
      cases hout
      obtain ⟨hP, rfl⟩ := (ha b).mp hb
      obtain ⟨hPs, rfl⟩ := ih.mp hbs
      exact ⟨⟨hP, hPs⟩, rfl⟩
    · rintro ⟨⟨hP, hPs⟩, rfl⟩
      rw [(ha _).mpr ⟨hP, rfl⟩, ih.mpr ⟨hPs, rfl⟩]
      rfl

theorem mapM_eq_map {g : α → β} (hf : ∀ a ∈ l, ∀ b, f a = .ok b → b = g a) (h : l.mapM f = .ok out) :
    out = l.map g := by
  induction l generalizing out with
  | nil => exact (Except.ok.inj h).symm
  | cons a l ih =>
    rw [List.mapM_cons] at h
    obtain ⟨b, hb, h⟩ := except_bind_ok h
    obtain ⟨bs, hbs, h⟩ := except_bind_ok h
    rw [← Except.ok.inj h, List.map_cons, hf a List.mem_cons_self b hb,
      ih (fun a ha => hf a (List.mem_cons_of_mem _ ha)) hbs]

/-- Two runs over one list, whose entries agree on `p`. -/
theorem mapM_map_eq {γ : Type} {p : β → γ} {out' : List β}
    (h : ∀ a ∈ l, ∀ b c, f a = .ok b → g a = .ok c → p b = p c) (hf : l.mapM f = .ok out)
    (hg : l.mapM g = .ok out') : out.map p = out'.map p := by
  induction l generalizing out out' with
  | nil =>
    obtain rfl := Except.ok.inj hf
    obtain rfl := Except.ok.inj hg
    rfl
  | cons a l ih =>
    rw [List.mapM_cons] at hf hg
    obtain ⟨b, hb, hf⟩ := except_bind_ok hf
    obtain ⟨bs, hbs, hf⟩ := except_bind_ok hf
    obtain ⟨c, hc, hg⟩ := except_bind_ok hg
    obtain ⟨cs, hcs, hg⟩ := except_bind_ok hg
    rw [← Except.ok.inj hf, ← Except.ok.inj hg, List.map_cons, List.map_cons,
      h a List.mem_cons_self b c hb hc,
      ih (fun a' ha' => h a' (List.mem_cons_of_mem _ ha')) hbs hcs]

theorem mapM_ok (h : l.mapM f = .ok out) : ∀ a ∈ l, ∃ b, f a = .ok b := by
  induction l generalizing out with
  | nil => intro a ha; cases ha
  | cons a l ih =>
    intro a' ha'
    rw [List.mapM_cons] at h
    obtain ⟨b, hb, h⟩ := except_bind_ok h
    obtain ⟨bs, hbs, _⟩ := except_bind_ok h
    rcases List.mem_cons.mp ha' with rfl | ha'
    · exact ⟨b, hb⟩
    · exact ih hbs a' ha'

theorem mapM_error_iff : (∃ e, l.mapM f = .error e) ↔ ∃ a ∈ l, ∃ e, f a = .error e := by
  induction l with
  | nil =>
    constructor
    · rintro ⟨e, h⟩
      cases h
    · rintro ⟨a, ha, -⟩
      cases ha
  | cons a l ih =>
    rw [List.mapM_cons]
    cases hfa : f a with
    | error e =>
      exact ⟨fun _ => ⟨a, List.mem_cons_self, e, hfa⟩, fun _ => ⟨e, rfl⟩⟩
    | ok b =>
      constructor
      · rintro ⟨e, h⟩
        cases hl : l.mapM f with
        | error e' =>
          obtain ⟨a', ha', herr⟩ := ih.mp ⟨e', hl⟩
          exact ⟨a', List.mem_cons_of_mem _ ha', herr⟩
        | ok bs =>
          rw [hl] at h
          cases h
      · rintro ⟨a', ha', e, herr⟩
        rcases List.mem_cons.mp ha' with rfl | ha'
        · cases herr.symm.trans hfa
        · obtain ⟨e', he'⟩ := ih.mpr ⟨a', ha', e, herr⟩
          rw [he']
          exact ⟨e', rfl⟩

theorem mapM_of_ok {g : α → β} (h : ∀ a ∈ l, f a = .ok (g a)) : l.mapM f = .ok (l.map g) := by
  induction l with
  | nil => rfl
  | cons a l ih =>
    rw [List.mapM_cons, h a List.mem_cons_self, ih fun b hb => h b (List.mem_cons_of_mem _ hb)]
    rfl

/-- What every result of a successful `mapM` is. -/
theorem mapM_forall {P : β → Prop} (h : l.mapM f = .ok out) (hf : ∀ a ∈ l, ∀ b, f a = .ok b → P b) :
    ∀ b ∈ out, P b := by
  intro b hb
  obtain ⟨k, hk⟩ := List.mem_iff_getElem?.mp hb
  obtain ⟨a, ha, hab⟩ := mapM_getElem? h hk
  exact hf a (List.mem_of_getElem? ha) b hab

end

/-- What holds of the state and the entries done, when every turn of a loop keeps it. -/
theorem foldlM_ok_inv {σ : Type} {f : σ → α → Except ε σ} {P : List α → σ → Prop}
    (hstep : ∀ done s a s', P done s → f s a = .ok s' → P (done ++ [a]) s') :
    ∀ {l done : List α} {s s' : σ}, P done s → l.foldlM f s = .ok s' → P (done ++ l) s' := by
  intro l
  induction l with
  | nil =>
    intro done s s' hs h
    rw [List.append_nil, ← Except.ok.inj h]
    exact hs
  | cons a l ih =>
    intro done s s' hs h
    rw [List.foldlM_cons] at h
    obtain ⟨t, ht, h⟩ := except_bind_ok h
    rw [List.append_cons]
    exact ih (hstep done s a t hs ht) h

end PaperTrading.Lib
