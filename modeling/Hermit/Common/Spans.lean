import Mathlib

/-!
# Items laid end to end

A queue of sized items that readers consume from the front regardless of where
an item ends: a byte stream made of writes.

* `consume`: take items off the queue up to an offset, the last one perhaps only
  in part.
* `consume_unread`: consuming the queue gives exactly the overlapping items and
  leaves the queue of what is unread.
-/

namespace Hermit.Common

open List

variable {α : Type*} (size : α → ℕ)

/-- The items with their start offsets, from `off` on. -/
def laid : ℕ → List α → List (α × ℕ)
  | _, [] => []
  | off, x :: xs => (x, off) :: laid (off + size x) xs

/-- The items that end after `done`, each with its end. -/
def unread (done off : ℕ) (xs : List α) : List (ℕ × α) :=
  ((laid size off xs).filter fun p => done < p.2 + size p.1).map fun p => (p.2 + size p.1, p.1)

/-- The items with a unit in the range from `start` to before `stop`. -/
def overlapping (start stop off : ℕ) (xs : List α) : List α :=
  ((laid size off xs).filter fun p => p.2 < stop ∧ start < p.2 + size p.1).map Prod.fst

def consume (upto : ℕ) : List (ℕ × α) → List α × List (ℕ × α)
  | [] => ([], [])
  | (stop, x) :: queue =>
    if upto < stop then ([x], (stop, x) :: queue)
    else if stop = upto then ([x], queue)
    else
      let (taken, rest) := consume upto queue
      (x :: taken, rest)

variable {size}

theorem laid_append (xs ys : List α) : ∀ off, laid size off (xs ++ ys) =
    laid size off xs ++ laid size (off + (xs.map size).sum) ys := by
  induction xs with
  | nil => simp [laid]
  | cons x xs ih =>
    intro off
    simp only [cons_append, laid, ih, map_cons, sum_cons, Nat.add_assoc]

theorem le_of_mem_laid {xs : List α} {p : α × ℕ} : ∀ {off : ℕ}, p ∈ laid size off xs →
    off ≤ p.2 := by
  induction xs with
  | nil => simp [laid]
  | cons x xs ih =>
    intro off h
    rcases mem_cons.mp h with rfl | h
    · exact le_rfl
    · exact (Nat.le_add_right _ _).trans (ih h)

theorem mem_of_mem_laid {xs : List α} {p : α × ℕ} : ∀ {off : ℕ}, p ∈ laid size off xs →
    p.1 ∈ xs := by
  induction xs with
  | nil => simp [laid]
  | cons x xs ih =>
    intro off h
    rcases mem_cons.mp h with rfl | h
    · exact mem_cons_self
    · exact mem_cons_of_mem _ (ih h)

theorem unread_cons (done off : ℕ) (x : α) (xs : List α) : unread size done off (x :: xs) =
    (if done < off + size x then [(off + size x, x)] else []) ++
      unread size done (off + size x) xs := by
  rw [unread, laid, filter_cons]
  by_cases h : done < off + size x
  · simp [h, unread]
  · simp [h, unread]

theorem overlapping_cons (start stop off : ℕ) (x : α) (xs : List α) :
    overlapping size start stop off (x :: xs) =
      (if off < stop ∧ start < off + size x then [x] else []) ++
        overlapping size start stop (off + size x) xs := by
  rw [overlapping, laid, filter_cons]
  by_cases h : off < stop ∧ start < off + size x
  · simp [h, overlapping]
  · simp [h, overlapping]

/-- Nothing that starts at or after the end of a range overlaps it. -/
theorem overlapping_eq_nil {start stop off : ℕ} (h : stop ≤ off) (xs : List α) :
    overlapping size start stop off xs = [] := by
  rw [overlapping, map_eq_nil_iff, filter_eq_nil_iff]
  intro p hp
  have := le_of_mem_laid hp
  simp only [decide_eq_true_eq, not_and_or, not_lt]
  omega

theorem overlapping_append (start stop off : ℕ) (xs ys : List α) :
    overlapping size start stop off (xs ++ ys) = overlapping size start stop off xs ++
      overlapping size start stop (off + (xs.map size).sum) ys := by
  simp [overlapping, laid_append]

theorem unread_append (done off : ℕ) (xs ys : List α) : unread size done off (xs ++ ys) =
      unread size done off xs ++ unread size done (off + (xs.map size).sum) ys := by
  simp [unread, laid_append]

/-- Items that all start at or after two marks are unread at both. -/
theorem unread_eq_of_le {done done' off : ℕ} {xs : List α} (hpos : ∀ x ∈ xs, 0 < size x)
    (h : done ≤ off) (h' : done' ≤ off) : unread size done off xs = unread size done' off xs := by
  rw [unread, unread]
  congr 1
  refine filter_congr fun p hp => ?_
  have := le_of_mem_laid hp
  have := hpos p.1 (mem_of_mem_laid hp)
  simp only [decide_eq_decide]
  omega

theorem consume_unread {done upto : ℕ} (hlt : done < upto) {xs : List α} : ∀ {off : ℕ},
    (∀ x ∈ xs, 0 < size x) → off < upto → upto ≤ off + (xs.map size).sum →
    consume upto (unread size done off xs) =
      (overlapping size done upto off xs, unread size upto off xs) := by
  induction xs with
  | nil =>
    intro off _ hoff hupto
    simp at hupto
    omega
  | cons x xs ih =>
    intro off hpos hoff hupto
    obtain ⟨hx, hxs⟩ := forall_mem_cons.mp hpos
    rw [map_cons, sum_cons] at hupto
    rw [unread_cons, unread_cons, overlapping_cons]
    by_cases hread : off + size x ≤ done
    · rw [if_neg (by omega), if_neg (by omega), if_neg (by omega)]
      exact ih hxs (by omega) (by omega)
    · rw [if_pos (by omega), if_pos ⟨hoff, by omega⟩, singleton_append, consume]
      rcases Nat.lt_or_ge (off + size x) upto with hout | hin
      · rw [if_neg (by omega), if_neg (by omega), if_neg (by omega), ih hxs hout (by omega)]
        rfl
      · -- The range ends in this item or with it: nothing after it is touched.
        have hsame : unread size done (off + size x) xs = unread size upto (off + size x) xs :=
          unread_eq_of_le hxs (by omega) hin
        rw [overlapping_eq_nil hin, hsame]
        rcases Nat.lt_or_eq_of_le hin with hin | heq
        · rw [if_pos hin, if_pos hin]
          rfl
        · rw [if_neg (by omega), if_pos heq.symm, if_neg (by omega)]
          rfl

theorem consume_map {β : Type*} (f : α → β) (upto : ℕ) (queue : List (ℕ × α)) :
    consume upto (queue.map fun p => (p.1, f p.2)) =
      ((consume upto queue).1.map f, (consume upto queue).2.map fun p => (p.1, f p.2)) := by
  induction queue with
  | nil => rfl
  | cons x queue ih =>
    obtain ⟨stop, x⟩ := x
    simp only [map_cons, consume]
    split_ifs
    · rfl
    · rfl
    · rw [ih]
      rfl

theorem mem_of_mem_consume (upto : ℕ) (queue : List (ℕ × α)) :
    (∀ x ∈ (consume upto queue).1, ∃ stop, (stop, x) ∈ queue) ∧
      ∀ p ∈ (consume upto queue).2, p ∈ queue := by
  induction queue with
  | nil => simp [consume]
  | cons p queue ih =>
    obtain ⟨stop, y⟩ := p
    rw [consume]
    split_ifs
    · refine ⟨fun x hx => ⟨stop, ?_⟩, fun p hp => hp⟩
      rw [mem_singleton.mp hx]
      exact mem_cons_self
    · refine ⟨fun x hx => ⟨stop, ?_⟩, fun p hp => mem_cons_of_mem _ hp⟩
      rw [mem_singleton.mp hx]
      exact mem_cons_self
    · refine ⟨fun x hx => ?_, fun p hp => mem_cons_of_mem _ (ih.2 p hp)⟩
      rcases mem_cons.mp hx with rfl | hx
      · exact ⟨stop, mem_cons_self⟩
      · obtain ⟨stop', h⟩ := ih.1 x hx
        exact ⟨stop', mem_cons_of_mem _ h⟩

end Hermit.Common
