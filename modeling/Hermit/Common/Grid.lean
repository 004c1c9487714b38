import Mathlib

/-!
# Grids that saturate

The points `d + k * p` of a grid with period `p`, cut off at a largest value
`cap` as a saturating clock cuts them off.

* `nextAfter`: the first point after `t` on the grid that starts at `last`, for
  `t` before `last` the first point after `last`.
* `OnGrid.advance`: a step of any number of periods stays on the grid.
* `OnGrid.isLeast_nextAfter`: from any point of the grid that is not after `t`,
  `nextAfter` finds the least point of the whole grid after `t`.
-/

namespace Hermit.Common

def nextAfter (last p t : ℕ) : ℕ := last + ((t - last) / p + 1) * p

/-- A point of the grid `d + k * p`, or the largest value if it is beyond it. -/
def OnGrid (cap d p x : ℕ) : Prop := ∃ k, x = min (d + k * p) cap

variable {cap d p x last t : ℕ}

theorem add_le_nextAfter (last p t : ℕ) : last + p ≤ nextAfter last p t := by
  unfold nextAfter
  rw [Nat.add_mul, Nat.one_mul]
  omega

theorem lt_nextAfter (hp : 0 < p) (last t : ℕ) : t < nextAfter last p t := by
  have hfloor : t - last < (t - last) / p * p + p := Nat.lt_div_mul_add hp
  unfold nextAfter
  rw [Nat.add_mul, Nat.one_mul]
  omega

/-- No point of the grid lies between `t` and `nextAfter`. -/
theorem nextAfter_le (hp : 0 < p) {k : ℕ} (hle : last ≤ t) (hlt : t < last + k * p) :
    nextAfter last p t ≤ last + k * p := by
  have hk : (t - last) / p + 1 ≤ k := by
    rw [Nat.succ_le_iff, Nat.div_lt_iff_lt_mul hp]
    omega
  exact Nat.add_le_add_left (Nat.mul_le_mul_right p hk) last

theorem isLeast_nextAfter (hp : 0 < p) {j : ℕ} (hle : d + j * p ≤ t) :
    IsLeast {x | (∃ k, x = d + k * p) ∧ t < x} (nextAfter (d + j * p) p t) := by
  refine ⟨⟨⟨j + ((t - (d + j * p)) / p + 1), ?_⟩, lt_nextAfter hp _ t⟩, ?_⟩
  · unfold nextAfter
    rw [Nat.add_mul j, Nat.add_assoc]
  · rintro x ⟨⟨k, rfl⟩, hlt⟩
    have hjk : j ≤ k := by
      by_contra hkj
      have hmul : k * p ≤ j * p := Nat.mul_le_mul_right p (by omega)
      omega
    have hspl : d + k * p = d + j * p + (k - j) * p := by
      rw [Nat.sub_mul, Nat.add_assoc, Nat.add_sub_cancel' (Nat.mul_le_mul_right p hjk)]
    rw [hspl] at hlt ⊢
    exact nextAfter_le hp hle hlt

theorem onGrid_start (h : d ≤ cap) (p : ℕ) : OnGrid cap d p d :=
  ⟨0, by rw [Nat.zero_mul, Nat.add_zero, Nat.min_eq_left h]⟩

theorem OnGrid.advance (h : OnGrid cap d p x) (n : ℕ) : OnGrid cap d p (min (x + n * p) cap) := by
  obtain ⟨k, rfl⟩ := h
  refine ⟨k + n, ?_⟩
  rw [Nat.add_mul]
  omega

theorem OnGrid.next (h : OnGrid cap d p x) : OnGrid cap d p (min (x + p) cap) := by
  have hadv := h.advance 1
  rwa [Nat.one_mul] at hadv

theorem OnGrid.nextAfter (h : OnGrid cap d p x) (t : ℕ) :
    OnGrid cap d p (min (nextAfter x p t) cap) :=
  h.advance _

theorem OnGrid.isLeast_nextAfter (h : OnGrid cap d p x) (hp : 0 < p) (hd : d ≤ cap) (hx : x ≤ t)
    (ht : t ≤ cap) : ∃ y, IsLeast {y | (∃ k, y = d + k * p) ∧ t < y} y ∧
      min (Common.nextAfter x p t) cap = min y cap := by
  obtain ⟨k, hk⟩ := h
  by_cases hcap : d + k * p ≤ cap
  · have hxk : x = d + k * p := by rw [hk, Nat.min_eq_left hcap]
    refine ⟨Common.nextAfter x p t, ?_, rfl⟩
    rw [hxk] at hx ⊢
    exact Common.isLeast_nextAfter hp hx
  · -- The grid is beyond the largest value, and so is every point after `t`.
    have hxcap : x = cap := by rw [hk, Nat.min_eq_right (by omega)]
    have hdt : d + 0 * p ≤ t := by omega
    refine ⟨Common.nextAfter (d + 0 * p) p t, Common.isLeast_nextAfter hp hdt, ?_⟩
    have h₁ := lt_nextAfter hp x t
    have h₂ := lt_nextAfter hp (d + 0 * p) t
    rw [Nat.min_eq_right (by omega), Nat.min_eq_right (by omega)]

end Hermit.Common
