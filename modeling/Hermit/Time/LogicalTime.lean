import Hermit.Common.Saturating

/-!
# Logical time

`LogicalTime` of `detcore-model/src/time.rs`: an absolute time in integer
nanoseconds, held in a `u64`. Every addition saturates at `LogicalTime::MAX`,
which doubles as the sentinel deadline of a wait that has none.
-/

namespace Hermit

open Hermit.Common

def u64Max : ℕ := 2 ^ 64 - 1

def checkedAdd (a b : ℕ) : Option ℕ := if a + b ≤ u64Max then some (a + b) else none

def checkedMul (a b : ℕ) : Option ℕ := if a * b ≤ u64Max then some (a * b) else none

theorem checkedAdd_eq_some {a b c : ℕ} (h : checkedAdd a b = some c) :
    c = a + b ∧ a + b ≤ u64Max := by
  unfold checkedAdd at h
  split_ifs at h with hle
  cases h
  exact ⟨rfl, hle⟩

structure LogicalTime where
  nanos : ℕ
  nanos_le : nanos ≤ u64Max
deriving DecidableEq

namespace LogicalTime

@[ext] theorem ext {a b : LogicalTime} (h : a.nanos = b.nanos) : a = b := by
  cases a; cases b; cases h; rfl

/-- The derived order of the one field. -/
instance : LinearOrder LogicalTime := LinearOrder.lift' nanos fun _ _ h => ext h

theorem le_def {a b : LogicalTime} : a ≤ b ↔ a.nanos ≤ b.nanos := Iff.rfl

theorem lt_def {a b : LogicalTime} : a < b ↔ a.nanos < b.nanos := Iff.rfl

def zero : LogicalTime := ⟨0, Nat.zero_le _⟩

def max : LogicalTime := ⟨u64Max, le_rfl⟩

/-- A number of nanoseconds as a `u64`, clamped at the maximum: the
    `u64::try_from(..).unwrap_or(u64::MAX)` of `Add<Duration>` (`time.rs`). -/
def clamp (n : ℕ) : LogicalTime := ⟨min n u64Max, min_le_right _ _⟩

/-- `impl Add for LogicalTime` (`time.rs`): saturating. -/
instance : Add LogicalTime := ⟨fun a b => ⟨satAdd u64Max a.nanos b.nanos, satAdd_le _ _ _⟩⟩

theorem add_nanos (a b : LogicalTime) : (a + b).nanos = min (a.nanos + b.nanos) u64Max := rfl

@[simp] theorem clamp_nanos (n : ℕ) : (clamp n).nanos = min n u64Max := rfl

@[simp] theorem max_nanos : max.nanos = u64Max := rfl

theorem le_max (a : LogicalTime) : a ≤ max := a.nanos_le

end LogicalTime

end Hermit
