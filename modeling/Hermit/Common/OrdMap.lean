import Mathlib

/-!
# Ordered maps

`OrdMap κ α` is a finite map with keys in increasing order, as
`std::collections::BTreeMap` is: the standard library's extensional tree map
at the key type's own order. The lemmas restate its lookup laws with `=` and
`≠` on keys in place of `compare`.

`OrdMap.sum` adds up a weight over the entries. It depends only on what each key
weighs (`sum_congr`), and a change at one key changes it by the difference of that
key's weights (`sum_change`, `sum_update`).
-/

namespace Hermit.Common

open List

/-- A finite map whose entries are listed in increasing key order. -/
abbrev OrdMap (κ : Type*) (α : Type*) [Ord κ] := Std.ExtTreeMap κ α compare

instance instLawfulEqOrdOfLinearOrder {κ : Type*} [LinearOrder κ] : Std.LawfulEqOrd κ where
  eq_of_compare h := compare_eq_iff_eq.mp h

/-- Named, so that all maps at a key type have one proof of its order laws. -/
instance instTransOrdOfLinearOrder {κ : Type*} [LinearOrder κ] : Std.TransOrd κ := inferInstance

namespace OrdMap

variable {κ α β : Type*} [LinearOrder κ]

theorem getElem?_insert_ite (m : OrdMap κ α) (k k' : κ) [Decidable (k = k')] (v : α) :
    (m.insert k v)[k']? = if k = k' then some v else m[k']? := by
  rw [Std.ExtTreeMap.getElem?_insert]
  simp only [compare_eq_iff_eq]

@[simp] theorem getElem?_insert_same (m : OrdMap κ α) (k : κ) (v : α) :
    (m.insert k v)[k]? = some v := by
  rw [getElem?_insert_ite, if_pos rfl]

theorem getElem?_insert_ne (m : OrdMap κ α) {k k' : κ} (h : k ≠ k') (v : α) :
    (m.insert k v)[k']? = m[k']? := by
  rw [getElem?_insert_ite, if_neg h]

theorem getElem?_erase_ite (m : OrdMap κ α) (k k' : κ) [Decidable (k = k')] :
    (m.erase k)[k']? = if k = k' then none else m[k']? := by
  rw [Std.ExtTreeMap.getElem?_erase]
  simp only [compare_eq_iff_eq]

@[simp] theorem getElem?_erase_same (m : OrdMap κ α) (k : κ) : (m.erase k)[k]? = none := by
  rw [getElem?_erase_ite, if_pos rfl]

theorem getElem?_erase_ne (m : OrdMap κ α) {k k' : κ} (h : k ≠ k') : (m.erase k)[k']? = m[k']? := by
  rw [getElem?_erase_ite, if_neg h]

theorem mem_toList (m : OrdMap κ α) (k : κ) (v : α) : (k, v) ∈ m.toList ↔ m[k]? = some v :=
  Std.ExtTreeMap.mem_toList_iff_getElem?_eq_some

theorem contains_iff (m : OrdMap κ α) (k : κ) : m.contains k = true ↔ ∃ v, m[k]? = some v := by
  rw [Std.ExtTreeMap.contains_eq_isSome_getElem?, Option.isSome_iff_exists]

theorem contains_eq_false (m : OrdMap κ α) (k : κ) : m.contains k = false ↔ m[k]? = none := by
  rw [Std.ExtTreeMap.contains_eq_isSome_getElem?, Option.isSome_eq_false_iff, Option.isNone_iff_eq_none]

theorem mem_keys (m : OrdMap κ α) (k : κ) : k ∈ m.keys ↔ ∃ v, m[k]? = some v := by
  rw [Std.ExtTreeMap.mem_keys, Std.ExtTreeMap.mem_iff_contains, contains_iff]

theorem pairwise_toList (m : OrdMap κ α) : m.toList.Pairwise fun a b => a.1 < b.1 := by
  refine Std.ExtTreeMap.ordered_keys_toList.imp fun h => ?_
  rwa [compare_lt_iff_lt] at h

theorem nodup_toList (m : OrdMap κ α) : m.toList.Nodup :=
  (pairwise_toList m).imp fun hlt heq => hlt.ne (congrArg Prod.fst heq)

theorem toList_insert_perm {m : OrdMap κ α} {k : κ} (h : m[k]? = none) (v : α) :
    (m.insert k v).toList.Perm ((k, v) :: m.toList) := by
  refine (perm_ext_iff_of_nodup (nodup_toList _) (nodup_cons.mpr ⟨?_, nodup_toList m⟩)).mpr ?_
  · simp [h]
  · rintro ⟨k', v'⟩
    rw [mem_toList, getElem?_insert_ite, mem_cons, mem_toList, Prod.mk.injEq]
    split_ifs with hk
    · subst hk
      simp [h, eq_comm]
    · simp [Ne.symm hk]

theorem getElem?_foldl_erase (entries : List (κ × β)) (k : κ) : ∀ m : OrdMap κ α,
    (entries.foldl (fun m entry => m.erase entry.1) m)[k]? =
      if ∃ entry ∈ entries, entry.1 = k then none else m[k]? := by
  induction entries with
  | nil => simp
  | cons entry entries ih =>
    intro m
    rw [foldl_cons, ih, getElem?_erase_ite]
    by_cases hent : entry.1 = k
    · simp [hent]
    · simp only [mem_cons, exists_eq_or_imp, hent, false_or, if_false]

def values (m : OrdMap κ α) : List α := m.toList.map Prod.snd

theorem mem_values (m : OrdMap κ α) (v : α) : v ∈ values m ↔ ∃ k : κ, m[k]? = some v := by
  unfold values
  rw [mem_map]
  constructor
  · rintro ⟨⟨k, v⟩, hmem, rfl⟩
    exact ⟨k, (mem_toList m k v).mp hmem⟩
  · rintro ⟨k, hk⟩
    exact ⟨(k, v), (mem_toList m k v).mpr hk, rfl⟩

/-! ## Insertions in a row -/

theorem getElem?_foldl_insert_const (key : β → κ) (v : α) (k : κ) :
    ∀ (xs : List β) (m : OrdMap κ α), (xs.foldl (fun m x => m.insert (key x) v) m)[k]? =
        if k ∈ xs.map key then some v else m[k]? := by
  intro xs
  induction xs with
  | nil => simp
  | cons x xs ih =>
    intro m
    rw [foldl_cons, ih, getElem?_insert_ite]
    by_cases hx : key x = k
    · simp [hx]
    · simp [hx, Ne.symm hx]

theorem getElem?_foldl_insert_of_notMem (k : κ) :
    ∀ (xs : List (κ × α)) (m : OrdMap κ α), k ∉ xs.map Prod.fst →
      (xs.foldl (fun m x => m.insert x.1 x.2) m)[k]? = m[k]? := by
  intro xs
  induction xs with
  | nil => simp
  | cons x xs ih =>
    intro m hk
    rw [map_cons, mem_cons, not_or] at hk
    rw [foldl_cons, ih _ hk.2, getElem?_insert_ne _ (Ne.symm hk.1)]

theorem getElem?_foldl_insert_of_mem {k : κ} {v : α} :
    ∀ (xs : List (κ × α)) (m : OrdMap κ α), (xs.map Prod.fst).Nodup → (k, v) ∈ xs →
      (xs.foldl (fun m x => m.insert x.1 x.2) m)[k]? = some v := by
  intro xs
  induction xs with
  | nil => simp
  | cons x xs ih =>
    intro m hnodup hmem
    obtain ⟨hx, hxs⟩ := nodup_cons.mp hnodup
    rcases mem_cons.mp hmem with rfl | hmem
    · rw [foldl_cons, getElem?_foldl_insert_of_notMem _ _ _ hx, getElem?_insert_same]
    · exact ih _ hxs hmem

/-! ## Sums over the entries -/

/-- The weight of the entries, added up. -/
def sum (m : OrdMap κ α) (w : κ → α → ℕ) : ℕ := (m.toList.map fun e => w e.1 e.2).sum

/-- The weight of the entry at a key, if there is one. -/
def weight (m : OrdMap κ α) (w : κ → α → ℕ) (k : κ) : ℕ := m[k]?.elim 0 (w k)

theorem sum_eq_finsetSum (m : OrdMap κ α) (w : κ → α → ℕ) {keys : Finset κ}
    (hkeys : ∀ k v, m[k]? = some v → k ∈ keys) : sum m w = ∑ k ∈ keys, weight m w k := by
  have hlist : (m.toList.map fun e => w e.1 e.2) = m.keys.map (weight m w) := by
    rw [← Std.ExtTreeMap.map_fst_toList_eq_keys, map_map]
    refine map_congr_left ?_
    rintro ⟨k, v⟩ hmem
    have hk := (mem_toList m k v).mp hmem
    show w k v = weight m w k
    unfold weight
    rw [hk]
    rfl
  unfold sum
  rw [hlist, ← sum_toFinset _ Std.ExtTreeMap.nodup_keys]
  refine Finset.sum_subset ?_ ?_
  · intro k hk
    obtain ⟨v, hv⟩ := (mem_keys m k).mp (mem_toFinset.mp hk)
    exact hkeys k v hv
  · intro k _ hk
    have hnone : m[k]? = none := by
      rw [Option.eq_none_iff_forall_ne_some]
      intro v hv
      exact hk (mem_toFinset.mpr ((mem_keys m k).mpr ⟨v, hv⟩))
    unfold weight
    rw [hnone]
    rfl

theorem exists_keys (m : OrdMap κ α) (m' : OrdMap κ β) : ∃ keys : Finset κ,
    (∀ k v, m[k]? = some v → k ∈ keys) ∧ ∀ k v, m'[k]? = some v → k ∈ keys := by
  refine ⟨m.keys.toFinset ∪ m'.keys.toFinset, ?_, ?_⟩
  · intro k v hv
    exact Finset.mem_union_left _ (mem_toFinset.mpr ((mem_keys m k).mpr ⟨v, hv⟩))
  · intro k v hv
    exact Finset.mem_union_right _ (mem_toFinset.mpr ((mem_keys m' k).mpr ⟨v, hv⟩))

theorem sum_congr {m : OrdMap κ α} {m' : OrdMap κ β} {w : κ → α → ℕ} {w' : κ → β → ℕ}
    (h : ∀ k, weight m w k = weight m' w' k) : sum m w = sum m' w' := by
  obtain ⟨keys, hm, hm'⟩ := exists_keys m m'
  rw [sum_eq_finsetSum m w hm, sum_eq_finsetSum m' w' hm']
  exact Finset.sum_congr rfl fun k _ => h k

theorem sum_le_sum {m : OrdMap κ α} {m' : OrdMap κ β} {w : κ → α → ℕ} {w' : κ → β → ℕ}
    (h : ∀ k, weight m w k ≤ weight m' w' k) : sum m w ≤ sum m' w' := by
  obtain ⟨keys, hm, hm'⟩ := exists_keys m m'
  rw [sum_eq_finsetSum m w hm, sum_eq_finsetSum m' w' hm']
  exact Finset.sum_le_sum fun k _ => h k

theorem sum_change (m : OrdMap κ α) (m' : OrdMap κ β) (w : κ → α → ℕ) (w' : κ → β → ℕ) (k : κ)
    (h : ∀ k', k' ≠ k → weight m' w' k' = weight m w k') :
    sum m' w' + weight m w k = sum m w + weight m' w' k := by
  obtain ⟨keys, hm, hm'⟩ := exists_keys m m'
  have hk : k ∈ insert k keys := Finset.mem_insert_self k keys
  have hrest : ∑ k' ∈ (insert k keys).erase k, weight m' w' k' =
      ∑ k' ∈ (insert k keys).erase k, weight m w k' :=
    Finset.sum_congr rfl fun k' hk' => h k' (Finset.ne_of_mem_erase hk')
  rw [sum_eq_finsetSum m w fun k' v hv => Finset.mem_insert_of_mem (hm k' v hv),
    sum_eq_finsetSum m' w' fun k' v hv => Finset.mem_insert_of_mem (hm' k' v hv),
    ← Finset.add_sum_erase _ _ hk, ← Finset.add_sum_erase _ _ hk, hrest]
  omega

theorem sum_update (m m' : OrdMap κ α) (w : κ → α → ℕ) (k : κ)
    (h : ∀ k', k' ≠ k → m'[k']? = m[k']?) : sum m' w + weight m w k = sum m w + weight m' w k := by
  refine sum_change m m' w w k ?_
  intro k' hk'
  unfold weight
  rw [h k' hk']

end OrdMap

end Hermit.Common
