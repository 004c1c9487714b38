import Mathlib

/-!
# Occurrences in a history

Where the `n`-th element of a list that satisfies a predicate stands, counted from a
given position. `NthAfter p h start i n` depends on the history up to `i` only
(`nthAfter_append`), can be read off the counts when the history grows
(`nthAfter_snoc`), and holds of at most one `i` (`NthAfter.unique`).
-/

namespace Hermit.Common

open List

variable {α : Type*} {p : α → Bool} {h t : List α} {e : α} {start i j n : ℕ}

/-- Element `i` of `h` satisfies `p`, and is the `n`-th that does so from element
    `start` on. -/
def NthAfter (p : α → Bool) (h : List α) (start i n : ℕ) : Prop :=
  start ≤ i ∧ (∃ e, h[i]? = some e ∧ p e = true) ∧ ((h.take (i + 1)).drop start).countP p = n

theorem nthAfter_append (hi : i < h.length) : NthAfter p (h ++ t) start i n ↔ NthAfter p h start i n := by
  unfold NthAfter
  rw [getElem?_append_left hi, take_append_of_le_length hi]

/-- The elements that satisfy `p`, before and after a position. -/
theorem countP_take_add_countP_drop (p : α → Bool) (h : List α) (start : ℕ) :
    (h.take start).countP p + (h.drop start).countP p = h.countP p := by
  rw [← countP_append, take_append_drop]

theorem countP_take_le (p : α → Bool) (h : List α) (start : ℕ) :
    (h.take start).countP p ≤ h.countP p := by
  have := countP_take_add_countP_drop p h start
  omega

theorem nthAfter_snoc (hsta : start ≤ h.length) : NthAfter p (h ++ [e]) start h.length n ↔
    p e = true ∧ (h ++ [e]).countP p = ((h ++ [e]).take start).countP p + n := by
  have hcnt := countP_take_add_countP_drop p (h ++ [e]) start
  have htake : (h ++ [e]).take (h.length + 1) = h ++ [e] := take_of_length_le (by simp)
  unfold NthAfter
  rw [getElem?_concat_length, htake]
  constructor
  · rintro ⟨-, ⟨e', he', hp⟩, hn⟩
    cases he'
    exact ⟨hp, by omega⟩
  · rintro ⟨hp, hn⟩
    exact ⟨hsta, ⟨e, rfl, hp⟩, by omega⟩

theorem NthAfter.lt_of_lt {m : ℕ} (hi : NthAfter p h start i m) (hj : NthAfter p h start j n)
    (hlt : i < j) : m < n := by
  obtain ⟨-, -, rfl⟩ := hi
  obtain ⟨hsta, ⟨e, he, hp⟩, rfl⟩ := hj
  have hspl : h.take (j + 1) = h.take j ++ [e] := by
    rw [List.take_add_one, he, Option.toList_some]
  have hmono : ((h.take (i + 1)).drop start).countP p ≤ ((h.take j).drop start).countP p := by
    refine List.Sublist.countP_le (List.Sublist.drop ?_ start)
    exact (List.take_prefix_take_left (by omega)).sublist
  have hlen : start ≤ (h.take j).length := by
    obtain ⟨hlt, -⟩ := List.getElem?_eq_some_iff.mp he
    rw [List.length_take]
    omega
  rw [hspl, List.drop_append_of_le_length hlen, List.countP_append, List.countP_singleton, hp]
  exact Nat.lt_succ_of_le hmono

theorem NthAfter.unique (hi : NthAfter p h start i n) (hj : NthAfter p h start j n) : i = j := by
  rcases Nat.lt_trichotomy i j with hlt | heq | hgt
  · exact absurd (hi.lt_of_lt hj hlt) (lt_irrefl n)
  · exact heq
  · exact absurd (hj.lt_of_lt hi hgt) (lt_irrefl n)

end Hermit.Common
