import Hermit.Common.OrdMap

/-!
# Identities

Thread, process and open-file identities of `detcore-model/src/pid.rs` and
`detcore-model/src/fd.rs`, with the orders their derived `Ord` gives them.
-/

namespace Hermit

abbrev DetTid := ℤ

abbrev DetPid := ℤ

/-- Identity of a Linux open file description (`fd.rs`). -/
structure OpenFileId where
  creator : DetTid
  sequence : ℕ
deriving DecidableEq

namespace OpenFileId

/-- The derived order: by creator, then by sequence. -/
instance : LinearOrder OpenFileId :=
  LinearOrder.lift' (fun id => toLex (id.creator, id.sequence)) fun a b h => by
    have := toLex.injective h
    cases a; cases b; simp_all

def socketSequenceDomain : ℕ := 1 <<< 63

def newSocket (creator : DetTid) (sequence : ℕ) : OpenFileId :=
  ⟨creator, socketSequenceDomain ||| sequence⟩

def isSocket (id : OpenFileId) : Bool := id.sequence &&& socketSequenceDomain ≠ 0

end OpenFileId

end Hermit
