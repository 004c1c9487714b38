import Hermit.Common.OrdMap

/-!
# Lists with keys

The elements of a list that have a given key, as they are followed by a loop that keeps
the latest one for each key in a map (`Latest`) and compares each element with it. What
such a comparison ensures holds between neighbours of one key (`isChain_ofKey_snoc`). A list
in the order of its keys is determined by the elements of each key (`eq_of_ofKey_eq`), which a
stable sort keeps (`ofKey_insertionSort`).
-/

namespace Hermit.Common

open List

variable {α β κ : Type*} [LinearOrder κ]

/-- The elements with the key `k`, in order. -/
def ofKey (key : α → κ) (k : κ) (xs : List α) : List α := xs.filter fun x => key x = k

theorem mem_ofKey {key : α → κ} {k : κ} {xs : List α} {x : α} :
    x ∈ ofKey key k xs ↔ x ∈ xs ∧ key x = k := by
  unfold ofKey
  rw [mem_filter, decide_eq_true_iff]

theorem ofKey_snoc (key : α → κ) (k : κ) (xs : List α) (x : α) :
    ofKey key k (xs ++ [x]) = if key x = k then ofKey key k xs ++ [x] else ofKey key k xs := by
  unfold ofKey
  rw [filter_append, filter_singleton]
  by_cases hk : key x = k
  · simp [hk]
  · simp [hk]

theorem isChain_ofKey_snoc {R : α → α → Prop} {key : α → κ} {xs : List α} {x : α}
    (h : ∀ k, (ofKey key k xs).IsChain R)
    (hx : ∀ last, (ofKey key (key x) xs).getLast? = some last → R last x) (k : κ) :
    (ofKey key k (xs ++ [x])).IsChain R := by
  rw [ofKey_snoc]
  split_ifs with hk
  · subst hk
    refine isChain_append.mpr ⟨h _, isChain_singleton x, ?_⟩
    intro last hlast y hy
    cases hy
    exact hx last hlast
  · exact h k

def Latest (key : α → κ) (val : α → β) (m : OrdMap κ β) (xs : List α) : Prop :=
  ∀ k : κ, m[k]? = (ofKey key k xs).getLast?.map val

theorem latest_nil (key : α → κ) (val : α → β) : Latest key val ∅ [] := by
  intro k
  rw [Std.ExtTreeMap.getElem?_empty]
  rfl

theorem Latest.snoc {key : α → κ} {val : α → β} {m : OrdMap κ β} {xs : List α}
    (h : Latest key val m xs) (x : α) : Latest key val (m.insert (key x) (val x)) (xs ++ [x]) := by
  intro k
  rw [OrdMap.getElem?_insert_ite, ofKey_snoc]
  split_ifs with hk
  · rw [getLast?_concat]
    rfl
  · exact h k

/-! ## Order of the keys -/

variable {key : α → κ} {k : κ}

theorem ofKey_append (xs ys : List α) :
    ofKey key k (xs ++ ys) = ofKey key k xs ++ ofKey key k ys := filter_append ..

theorem ofKey_cons (x : α) (xs : List α) :
    ofKey key k (x :: xs) = if key x = k then x :: ofKey key k xs else ofKey key k xs := by
  unfold ofKey
  rw [filter_cons]
  simp only [decide_eq_true_eq]

theorem ofKey_orderedInsert (x : α) (xs : List α) :
    ofKey key k (xs.orderedInsert (fun a b => key a ≤ key b) x) = ofKey key k (x :: xs) := by
  induction xs with
  | nil => rfl
  | cons y xs ih =>
    rw [orderedInsert_cons]
    split_ifs with hle
    · rfl
    · rw [ofKey_cons, ih, ofKey_cons, ofKey_cons, ofKey_cons]
      -- `y` is passed, so that only one of the two can have the key
      have hne : key y ≠ key x := fun heq => hle heq.ge
      split_ifs with hy hx
      · exact absurd (hy.trans hx.symm) hne
      all_goals rfl

/-- A stable sort keeps the elements of each key in order. -/
theorem ofKey_insertionSort (xs : List α) :
    ofKey key k (xs.insertionSort fun a b => key a ≤ key b) = ofKey key k xs := by
  induction xs with
  | nil => rfl
  | cons x xs ih => rw [insertionSort_cons, ofKey_orderedInsert, ofKey_cons, ofKey_cons, ih]

theorem pairwise_insertionSort_key (xs : List α) :
    (xs.insertionSort fun a b => key a ≤ key b).Pairwise fun a b => key a ≤ key b := by
  have : Std.Total fun a b : α => key a ≤ key b := ⟨fun a b => le_total (key a) (key b)⟩
  have : IsTrans α fun a b => key a ≤ key b := ⟨fun _ _ _ => le_trans⟩
  exact pairwise_insertionSort _ xs

theorem head_key_le {x : α} {xs ys : List α} (hys : (x :: xs).Pairwise fun a b => key a ≤ key b)
    {y : α} (h : ofKey key (key y) (x :: xs) = ofKey key (key y) (y :: ys)) : key x ≤ key y := by
  have hmem : y ∈ ofKey key (key y) (x :: xs) := by
    rw [h]
    exact mem_ofKey.mpr ⟨mem_cons_self, rfl⟩
  rcases mem_cons.mp (mem_ofKey.mp hmem).1 with rfl | hin
  · exact le_rfl
  · exact (pairwise_cons.mp hys).1 y hin

theorem eq_of_ofKey_eq {xs ys : List α} (hxs : xs.Pairwise fun a b => key a ≤ key b)
    (hys : ys.Pairwise fun a b => key a ≤ key b) (h : ∀ k, ofKey key k xs = ofKey key k ys) :
    xs = ys := by
  induction xs generalizing ys with
  | nil =>
    cases ys with
    | nil => rfl
    | cons y ys =>
      have := h (key y)
      rw [ofKey_cons, if_pos rfl] at this
      exact absurd this (by simp [ofKey])
  | cons x xs ih =>
    cases ys with
    | nil =>
      have := h (key x)
      rw [ofKey_cons, if_pos rfl] at this
      exact absurd this (by simp [ofKey])
    | cons y ys =>
      have hkey : key x = key y :=
        le_antisymm (head_key_le hxs (h (key y))) (head_key_le hys (h (key x)).symm)
      obtain rfl : x = y := by
        have := h (key x)
        rw [ofKey_cons, ofKey_cons, if_pos rfl, if_pos hkey.symm] at this
        exact (cons.inj this).1
      refine congrArg (x :: ·) (ih hxs.of_cons hys.of_cons fun k => ?_)
      have := h k
      rw [ofKey_cons, ofKey_cons] at this
      split_ifs at this with hk
      · exact (cons.inj this).2
      · exact this

/-! ## Differences -/

section Diff

variable [DecidableEq α]

theorem ofKey_erase (xs : List α) (x : α) :
    ofKey key k (xs.erase x) = if key x = k then (ofKey key k xs).erase x else ofKey key k xs := by
  induction xs with
  | nil => simp [ofKey]
  | cons y xs ih =>
    rw [erase_cons, ofKey_cons]
    by_cases hyx : y = x
    · subst hyx
      by_cases hk : key y = k
      · simp [hk]
      · simp [hk]
    · rw [if_neg (by simpa using hyx), ofKey_cons, ih]
      by_cases hk : key x = k
      · by_cases hy : key y = k
        · simp [hk, hy, hyx]
        · simp [hk, hy]
      · simp [hk]

theorem ofKey_diff (xs ys : List α) :
    ofKey key k (xs.diff ys) = (ofKey key k xs).diff (ofKey key k ys) := by
  induction ys generalizing xs with
  | nil => rw [diff_nil, show ofKey key k ([] : List α) = [] from rfl, diff_nil]
  | cons y ys ih =>
    rw [diff_cons, ih, ofKey_erase, ofKey_cons]
    split_ifs
    · rw [diff_cons]
    · rfl

omit [LinearOrder κ] in
theorem append_diff_left (xs ys : List α) : (xs ++ ys).diff xs = ys := by
  induction xs with
  | nil => exact diff_nil ..
  | cons x xs ih => rw [diff_cons, cons_append, erase_cons_head, ih]

end Diff

end Hermit.Common
