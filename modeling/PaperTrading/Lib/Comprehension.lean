import Mathlib.Algebra.BigOperators.Group.Finset.Basic
import Mathlib.Data.List.Dedup
import Mathlib.Data.List.Sort
import PaperTrading.Lib.Dict
import PaperTrading.Lib.Text

/-!
# Dictionaries from their keys

`{k: f(k) for k in keys}` over keys that differ, and what `values()` lists. A sum over the
entries is one over any names that include the keys (`sum_entries`).
-/

namespace PaperTrading.Lib.Dict

variable {κ α β : Type}

/-- `d.values()` -/
def values (d : Dict κ α) : List α := d.entries.map Prod.snd

/-- `{k: f(k) for k in keys}` -/
def ofKeys (keys : List κ) (h : keys.Nodup) (f : κ → α) : Dict κ α where
  entries := keys.map fun k => (k, f k)
  nodup := by
    rw [List.map_map]
    simpa [Function.comp_def] using h

variable {keys : List κ} (h : keys.Nodup) (f : κ → α)

theorem values_ofKeys : (ofKeys keys h f).values = keys.map f := by
  unfold values ofKeys
  rw [List.map_map]
  rfl

theorem keys_ofKeys : (ofKeys keys h f).keys = keys := by
  unfold Dict.keys ofKeys
  rw [List.map_map]
  exact List.map_id keys

theorem map_ofKeys (g : α → β) :
    (ofKeys keys h f).map (fun _ v => g v) = ofKeys keys h fun k => g (f k) := by
  refine Dict.ext ?_
  show ((keys.map fun k => (k, f k)).filterMap fun e => some (e.1, g e.2)) = _
  rw [List.filterMap_map]
  exact congrFun List.filterMap_eq_map keys

theorem ofKeys_congr {f g : κ → α} (hfg : ∀ k ∈ keys, f k = g k) :
    ofKeys keys h f = ofKeys keys h g :=
  Dict.ext (List.map_congr_left fun k hk => by rw [hfg k hk])

theorem get?_ofKeys [DecidableEq κ] (k : κ) :
    (ofKeys keys h f).get? k = if k ∈ keys then some (f k) else none := by
  by_cases hk : k ∈ keys
  · rw [if_pos hk]
    exact Dict.get?_eq_some.mpr (List.mem_map_of_mem hk)
  · rw [if_neg hk, Dict.get?_eq_none, keys_ofKeys]
    exact hk

/-- A sum over the entries, as one over names that include the keys. -/
theorem sum_entries {M : Type} [AddCommMonoid M] [DecidableEq κ] (d : Dict κ α) {names : List κ}
    (hnames : names.Nodup) (hkeys : d.keys ⊆ names) (f : κ → α → M) (z : α) (hf : ∀ k, f k z = 0) :
    (d.entries.map fun e => f e.1 e.2).sum = (names.map fun k => f k ((d.get? k).getD z)).sum := by
  have hentries : d.entries.map (fun e => f e.1 e.2) =
      d.keys.map fun k => f k ((d.get? k).getD z) := by
    unfold Dict.keys
    rw [List.map_map]
    refine List.map_congr_left fun e he => ?_
    show f e.1 e.2 = f e.1 ((d.get? e.1).getD z)
    rw [Dict.get?_eq_some.mpr (show (e.1, e.2) ∈ d.entries from he)]
    rfl
  rw [hentries, ← List.sum_toFinset _ d.keys_nodup, ← List.sum_toFinset _ hnames]
  refine Finset.sum_subset (fun k hk => ?_) fun k _ hk => ?_
  · exact List.mem_toFinset.mpr (hkeys (List.mem_toFinset.mp hk))
  · rw [Dict.get?_eq_none.mpr fun h => hk (List.mem_toFinset.mpr h)]
    exact hf k

end PaperTrading.Lib.Dict

/-!
## Sorted sets of texts

`sorted(set(ts))`: each text once, in the order of their code points. It depends on nothing but
which texts there are (`sortedSet_congr`).
-/

namespace PaperTrading.Lib

/-- `sorted(set(ts))` -/
def sortedSet (ts : List Text) : List Text := ts.dedup.insertionSort fun a b => ¬ b < a

theorem mem_sortedSet {ts : List Text} {t : Text} : t ∈ sortedSet ts ↔ t ∈ ts :=
  (List.mem_insertionSort _).trans List.mem_dedup

theorem nodup_sortedSet (ts : List Text) : (sortedSet ts).Nodup :=
  (List.perm_insertionSort _ _).nodup_iff.mpr (List.nodup_dedup ts)

theorem sortedSet_congr {ts us : List Text} (h : ∀ t, t ∈ ts ↔ t ∈ us) :
    sortedSet ts = sortedSet us := by
  have : Std.Total (fun a b : Text => ¬ b < a) := ⟨fun a b => List.le_total a b⟩
  have : IsTrans Text (fun a b => ¬ b < a) := ⟨fun a b c => List.le_trans⟩
  have : Std.Antisymm (fun a b : Text => ¬ b < a) := ⟨fun a b => List.le_antisymm⟩
  have hsame : (sortedSet ts).Perm (sortedSet us) :=
    (List.perm_ext_iff_of_nodup (nodup_sortedSet ts) (nodup_sortedSet us)).mpr fun t => by
      rw [mem_sortedSet, mem_sortedSet, h]
  unfold sortedSet at hsame ⊢
  exact hsame.eq_of_pairwise' (List.pairwise_insertionSort _ _) (List.pairwise_insertionSort _ _)

theorem sortedSet_idem (ts : List Text) : sortedSet (sortedSet ts) = sortedSet ts :=
  sortedSet_congr fun _ => mem_sortedSet

end PaperTrading.Lib
