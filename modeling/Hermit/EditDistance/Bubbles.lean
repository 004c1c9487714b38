import Hermit.Common.Fenwick
import Hermit.Common.Saturating

/-!
# Permutations and their bubble sort

The permutation between two sequences and the iterator over its bubble sort, of
`detcore/src/edit_distance/bubbles.rs`. A function that can panic (an index out of bounds, a
subtraction below zero, a failed `expect`) returns `none` there.
-/

namespace Hermit.EditDistance

open Common

/-! ## The permutation -/

structure PermutationResult where
  perm : List ℕ
  unmatchedSourceIndices : List ℕ
  unmatchedTargetIndices : List ℕ
deriving DecidableEq

structure ExpandedPermResult where
  perm : List (Option ℕ)
  unmatchedSourceIndices : List ℕ
  unmatchedTargetIndices : List ℕ
deriving DecidableEq

def ExpandedPermResult.collapse (result : ExpandedPermResult) : PermutationResult where
  perm := result.perm.reduceOption
  unmatchedSourceIndices := result.unmatchedSourceIndices
  unmatchedTargetIndices := result.unmatchedTargetIndices

section Permutation

variable {T : Type} [DecidableEq T]

/-- The map `index_source`: each value with its indices in the source. The vectors are
    reversed and then popped, so a stack is listed from its first index. -/
def indexSource (source : List T) : T → List ℕ :=
  source.zipIdx.foldl (fun index entry => Function.update index entry.1 (index entry.1 ++ [entry.2]))
    fun _ => []

/-- The state of the pass over the target. -/
structure Matching (T : Type) where
  indexSource : T → List ℕ
  perm : List (Option ℕ) := []
  unmatchedTargetIndices : List ℕ := []

/-- One value of the target takes the first index of the source that is left for it. -/
def Matching.pair (m : Matching T) (entry : T × ℕ) : Matching T :=
  match m.indexSource entry.1 with
  | [] =>
    { m with
      perm := m.perm ++ [none]
      unmatchedTargetIndices := m.unmatchedTargetIndices ++ [entry.2] }
  | first :: rest =>
    { m with
      indexSource := Function.update m.indexSource entry.1 rest
      perm := m.perm ++ [some first] }

def generateExpandedPermutation (source target : List T) : ExpandedPermResult :=
  let m := target.zipIdx.foldl Matching.pair { indexSource := indexSource source }
  { perm := m.perm
    unmatchedSourceIndices := (source.dedup.flatMap m.indexSource).insertionSort (· ≤ ·)
    unmatchedTargetIndices := m.unmatchedTargetIndices }

def generatePermutation (source target : List T) : PermutationResult :=
  (generateExpandedPermutation source target).collapse

end Permutation

/-! ## The iterator -/

/-- A subtraction of `usize`. -/
def checkedSub (a b : ℕ) : Option ℕ := if b ≤ a then some (a - b) else none

def usizeMax : ℕ := 2 ^ 64 - 1

def postfixLen (maxIndex : ℕ) : ℕ → List ℕ → Option ℕ
  | _, [] => some 0
  | indexFromEnd, value :: values => do
    let expected ← checkedSub maxIndex indexFromEnd
    if expected = value then
      let len ← postfixLen maxIndex (indexFromEnd + 1) values
      pure (len + 1)
    else pure 0

def findSortableRange (perm : List ℕ) (maxIndex : ℕ) : Option (ℕ × ℕ) :=
  let prefixLen := (perm.zipIdx.takeWhile fun entry => entry.2 == entry.1).length
  -- a permutation that is in order throughout has no tail to measure
  (if prefixLen < perm.length then postfixLen maxIndex 0 perm.reverse else some 0).map
    fun postfixLen => (prefixLen, perm.length - postfixLen)

def slice (perm : List ℕ) (range : ℕ × ℕ) : Option (List ℕ) :=
  if range.1 ≤ range.2 ∧ range.2 ≤ perm.length then some ((perm.take range.2).drop range.1) else none

/-- The permutation with its slice replaced. -/
def splice (perm : List ℕ) (range : ℕ × ℕ) (values : List ℕ) : List ℕ :=
  perm.take range.1 ++ (values ++ perm.drop range.2)

structure BubbleSortIter (T : Type) where
  perm : List ℕ
  source : List T
  sortable : ℕ × ℕ
  ranked : List ℕ
  largerBefore : List ℕ
  atLeast : List ℕ
  swapCount : ℕ
  cursor : ℕ
  unusedValueCount : ℕ

/-- The loop of `new` over the unsorted values: the table so far and the ranks seen. The
    values are distinct, so that the binary search finds the index of the value. -/
def countLarger (ranked : List ℕ) (state : List ℕ × List ℕ) (entry : ℕ × ℕ) :
    Option (List ℕ × List ℕ) := do
  let rank ← ranked.idxOf? entry.1
  let smaller ← Fenwick.countBefore state.2 rank
  let larger ← checkedSub entry.2 smaller
  let seen ← Fenwick.add state.2 rank
  pure (state.1.set rank larger, seen)

/-- The table `larger_before`. -/
def inversionTable (unsorted ranked : List ℕ) : Option (List ℕ) := do
  let state ← unsorted.zipIdx.foldlM (countLarger ranked)
    (List.replicate unsorted.length 0, Fenwick.zeros unsorted.length)
  pure state.1

/-- The table `at_least`: the entries counted, then added up from the end. -/
def atLeastTable (largerBefore : List ℕ) (deepest : ℕ) : List ℕ :=
  let counted := largerBefore.foldl (fun table larger => table.modify larger (· + 1))
    (List.replicate (deepest + 2) 0)
  (List.range (deepest + 1)).reverse.foldl
    (fun table p => table.modify p (· + Fenwick.entry table (p + 1))) counted

def passesFrom (atLeast : List ℕ) (deepest swaps : ℕ) : ℕ → ℕ → ℕ → Option (ℕ × ℕ)
  | 0, passes, made => some (passes, made)
  | fuel + 1, passes, made =>
    if passes < deepest then do
      let next ← atLeast[passes + 1]?
      if made + next ≤ swaps then passesFrom atLeast deepest swaps fuel (passes + 1) (made + next)
      else some (passes, made)
    else some (passes, made)

/-- The loop of `seek` that places the values in ascending order, on the free slots and
    the state. -/
def place (passes : ℕ) (state : List ℕ × List ℕ) (entry : ℕ × ℕ) : Option (List ℕ × List ℕ) := do
  let larger := entry.2 - passes
  let slot := Fenwick.nth state.1 larger
  let free ← Fenwick.remove state.1 slot
  if slot < state.2.length then pure (free, state.2.set slot entry.1) else none

/-- The loop of `seek` that makes the swaps left of the next pass. -/
def swapLeft : ℕ → ℕ → ℕ → List ℕ → Option (List ℕ)
  | 0, left, _, state => if left = 0 then some state else none
  | fuel + 1, left, j, state =>
    if left = 0 then some state
    else
      match state[j]?, state[j + 1]? with
      | some a, some b =>
        if b < a then swapLeft fuel (left - 1) (j + 1) ((state.set j b).set (j + 1) a)
        else swapLeft fuel left (j + 1) state
      | _, _ => none

namespace BubbleSortIter

variable {T : Type}

def new (perm : List ℕ) (source : List T) (unusedValueCount : ℕ) : Option (BubbleSortIter T) := do
  let sortable ← findSortableRange perm (source.length - 1)
  let unsorted ← slice perm sortable
  let ranked := unsorted.insertionSort (· ≤ ·)
  let largerBefore ← inversionTable unsorted ranked
  let deepest := largerBefore.foldr max 0
  let swapCount := largerBefore.sum
  pure
    { perm := splice perm sortable ranked
      source := source
      sortable := sortable
      ranked := ranked
      largerBefore := largerBefore
      atLeast := atLeastTable largerBefore deepest
      swapCount := swapCount
      cursor := swapCount
      unusedValueCount := unusedValueCount }

def swapDistance (it : BubbleSortIter T) : ℕ := it.swapCount

def passesWithin (it : BubbleSortIter T) (swaps : ℕ) : Option (ℕ × ℕ) := do
  let deepest ← checkedSub it.atLeast.length 2
  let (passes, made) ← passesFrom it.atLeast deepest swaps deepest 0 0
  let left ← checkedSub swaps made
  pure (passes, left)

def seek (it : BubbleSortIter T) (swaps : ℕ) : Option (BubbleSortIter T) :=
  let swaps := min swaps it.swapCount
  if swaps = it.cursor then some it
  else do
    let (passes, left) ← it.passesWithin swaps
    let state ← slice it.perm it.sortable
    let (_, state) ← (it.ranked.zip it.largerBefore).foldlM (place passes)
      (Fenwick.ones state.length, state)
    let state ← swapLeft state.length left 0 state
    pure { it with perm := splice it.perm it.sortable state, cursor := swaps }

/-- `current`, with the items that the returned `Perm` yields. -/
def current (it : BubbleSortIter T) : Option (List T) := it.perm.mapM (it.source[·]?)

def next (it : BubbleSortIter T) : Option (BubbleSortIter T × Option (List T)) :=
  if it.cursor < it.swapCount then do
    let it ← it.seek (it.cursor + 1)
    let items ← it.current
    pure (it, some items)
  else some (it, none)

def skip (it : BubbleSortIter T) (distance : ℕ) : Option (BubbleSortIter T) :=
  it.seek (satAdd usizeMax it.cursor distance)

def nextBack (it : BubbleSortIter T) : Option (BubbleSortIter T × Option (List T)) :=
  if 0 < it.cursor then do
    let it ← it.seek (it.cursor - 1)
    let items ← it.current
    pure (it, some items)
  else some (it, none)

def skipBack (it : BubbleSortIter T) (distance : ℕ) : Option (BubbleSortIter T) :=
  it.seek (it.cursor - distance)

def midpoint (it : BubbleSortIter T) : Option (BubbleSortIter T × List T) := do
  let it ← it.seek (it.swapCount / 2)
  let items ← it.current
  pure (it, items)

/-- `interpolate`. The product wraps around in a release build. -/
def interpolate (it : BubbleSortIter T) (interpolatePercentage : Fin 256) :
    Option (BubbleSortIter T × List T) := do
  let it ← it.seek (it.swapCount * interpolatePercentage % (usizeMax + 1) / 100)
  let items ← it.current
  pure (it, items)

end BubbleSortIter

end Hermit.EditDistance
