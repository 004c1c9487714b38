import Mathlib

/-!
# Saturating addition

Addition of naturals clamped at a bound `M`.
-/

namespace Hermit.Common

/-- `a + b`, or the bound `M` when the sum passes it. -/
def satAdd (M a b : ℕ) : ℕ := min (a + b) M

theorem satAdd_le (M a b : ℕ) : satAdd M a b ≤ M := min_le_right _ _

end Hermit.Common
