import Hermit.Common.Queues

/-!
# Lists of records

A list whose elements have distinct keys, read and changed by key: `lookup` finds the element with
a key, `amend` changes it and `List.eraseP` takes it out.
-/

namespace Hermit.Common

open List

variable {α κ : Type*} [DecidableEq κ] {key : α → κ} {xs : List α}

/-- The first element with the key. -/
def lookup (key : α → κ) (xs : List α) (k : κ) : Option α := xs.find? fun x => decide (key x = k)

theorem mem_of_lookup {k : κ} {x : α} (h : lookup key xs k = some x) : x ∈ xs :=
  mem_of_find?_eq_some h

theorem key_of_lookup {k : κ} {x : α} (h : lookup key xs k = some x) : key x = k := by
  have := find?_some h
  exact of_decide_eq_true this

theorem lookup_eq_none_iff {k : κ} : lookup key xs k = none ↔ ∀ x ∈ xs, key x ≠ k := by
  unfold lookup
  rw [find?_eq_none]
  refine forall₂_congr fun x _ => ?_
  rw [decide_eq_true_eq]

theorem lookup_of_mem (hnodup : (xs.map key).Nodup) {x : α} (hx : x ∈ xs) :
    lookup key xs (key x) = some x := by
  cases h : lookup key xs (key x) with
  | none => exact absurd rfl (lookup_eq_none_iff.mp h x hx)
  | some y =>
    rw [inj_on_of_nodup_map hnodup (mem_of_lookup h) hx (key_of_lookup h)]

theorem lookup_concat (x : α) (k : κ) :
    lookup key (xs ++ [x]) k = (lookup key xs k).or (if key x = k then some x else none) := by
  unfold lookup
  rw [find?_append, find?_singleton]
  simp only [decide_eq_true_eq]

theorem lookup_amend {f : α → α} (hf : ∀ x, key (f x) = key x) (k k' : κ) :
    lookup key (amend (fun x => decide (key x = k)) f xs) k' =
      if k' = k then (lookup key xs k).map f else lookup key xs k' := by
  induction xs with
  | nil =>
    split_ifs
    · rfl
    · rfl
  | cons x xs ih =>
    unfold amend
    by_cases hx : key x = k
    · rw [if_pos (decide_eq_true hx)]
      unfold lookup
      rw [find?_cons, find?_cons, find?_cons, hf]
      by_cases hk : k' = k
      · subst hk
        simp [hx]
      · have hne : key x ≠ k' := fun h => hk (h.symm.trans hx)
        simp [hne, hk]
    · rw [if_neg (by simpa using hx)]
      unfold lookup at ih ⊢
      rw [find?_cons, find?_cons, find?_cons]
      by_cases hk' : key x = k'
      · have hne : k' ≠ k := fun h => hx (hk'.trans h)
        simp [hk', hne]
      · simp only [hk', hx, decide_false]
        exact ih

theorem map_key_amend {f : α → α} (hf : ∀ x, key (f x) = key x) (k : κ) :
    (amend (fun x => decide (key x = k)) f xs).map key = xs.map key :=
  map_amend fun x _ _ => hf x

omit [DecidableEq κ] in
theorem nodup_eraseP (hnodup : (xs.map key).Nodup) (p : α → Bool) : ((xs.eraseP p).map key).Nodup :=
  hnodup.sublist (eraseP_sublist.map key)

theorem lookup_eraseP (hnodup : (xs.map key).Nodup) (k k' : κ) :
    lookup key (xs.eraseP fun x => decide (key x = k)) k' =
      if k' = k then none else lookup key xs k' := by
  induction xs with
  | nil =>
    split_ifs
    · rfl
    · rfl
  | cons x xs ih =>
    rw [map_cons, nodup_cons] at hnodup
    by_cases hx : key x = k
    · rw [eraseP_cons_of_pos (p := fun x => decide (key x = k)) (decide_eq_true hx)]
      by_cases hk : k' = k
      · rw [if_pos hk, lookup_eq_none_iff]
        intro y hy heq
        refine hnodup.1 ?_
        rw [hx, ← hk, ← heq]
        exact mem_map_of_mem hy
      · rw [if_neg hk]
        unfold lookup
        rw [find?_cons]
        have hne : key x ≠ k' := fun h => hk (h.symm.trans hx)
        simp [hne]
    · rw [eraseP_cons_of_neg (p := fun x => decide (key x = k)) (by simpa using hx)]
      unfold lookup at ih ⊢
      rw [find?_cons, find?_cons]
      by_cases hk' : key x = k'
      · have hne : k' ≠ k := fun h => hx (hk'.trans h)
        simp [hk', hne]
      · simp only [hk', decide_false]
        exact ih hnodup.2

end Hermit.Common
