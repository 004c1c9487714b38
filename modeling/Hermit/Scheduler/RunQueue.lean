import Hermit.Common.Run
import Hermit.Ids
import Hermit.Time.LogicalTime

/-!
# The run queue

The queue of runnable threads of `detcore/src/scheduler/runqueue.rs`: entries
ordered by priority and round-robin turn, with backed-off pollers, one-turn
skips, the chaos yield epoch and transactional selection.

Every assertion, `unwrap` and `expect` of the source, and what a debug build
checks besides, is a `QueuePanic`. Turns (`i64`) are integers and counters are
naturals: turns stay far from the ends of `i64`, and of a yield streak only
whether it exceeds `plainYieldsBeforeEpoch` is read.
-/

namespace Hermit.Scheduler

open Hermit.Common

/-! ## Priorities and keys -/

/-- The user-accessible priority of a thread. Lowest runs first. -/
abbrev Priority := ℕ

def eagerIoRepollPriority : Priority := 0

def firstPriority : Priority := eagerIoRepollPriority + 1

def lastPriority : Priority := 10000

def isOrdinaryPriority (priority : Priority) : Bool :=
  firstPriority ≤ priority ∧ priority ≤ lastPriority

def plainYieldsBeforeEpoch : ℕ := 1

def runTimeTurns : ℤ := 2 ^ 61

def pollingUpgradeInterval : ℕ := 200

structure PrioritizedOrder where
  priority : Priority
  turn : ℤ
deriving DecidableEq

/-- By priority, then by turn. -/
instance : LinearOrder PrioritizedOrder :=
  LinearOrder.lift' (fun k => toLex (k.priority, k.turn)) fun a b h => by
    have := toLex.injective h
    cases a; cases b; simp_all

structure QueueValue where
  tid : DetTid
  /-- Upgrade to this priority during polling upgrades. -/
  pollUpgrade : Option Priority
  deadlineRestored : Bool
  upgradedInPlace : Bool
deriving DecidableEq

def QueueValue.isFullyBackedOffPoller (v : QueueValue) (priority : Priority) : Bool :=
  v.pollUpgrade.isSome && decide (lastPriority ≤ priority)

structure SuspendedRunQueueEntry where
  key : PrioritizedOrder
  value : QueueValue
  persistentPriority : Priority
deriving DecidableEq

def SuspendedRunQueueEntry.atPriority (entry : SuspendedRunQueueEntry)
    (currentPriority : Priority) : PrioritizedOrder × QueueValue :=
  if entry.persistentPriority ≠ currentPriority then
    ({ entry.key with priority := currentPriority },
      { entry.value with pollUpgrade := entry.value.pollUpgrade.map fun _ => currentPriority })
  else (entry.key, entry.value)

inductive SchedHeuristic
  | none
  | connectBind
  | random
  | stickyRandom
deriving DecidableEq

inductive PollerRestore
  | restored
  | notBackedOff
  | notQueued
deriving DecidableEq

/-- What the queue reads of its generator (`rand_pcg::Pcg64Mcg`): an index
    below a positive bound, and whether a draw from `[0, 1)` is at most
    `1 - sticky_random_param`. -/
structure Prng where
  State : Type
  randomIndex : State → ℕ → ℕ × State
  randomIndex_lt : ∀ s n, 0 < n → (randomIndex s n).1 < n
  switches : State → Bool × State

/-- The generator that draws the first index and never switches. -/
def Prng.first : Prng where
  State := Unit
  randomIndex _ _ := (0, ())
  randomIndex_lt _ _ h := h
  switches _ := (false, ())

/-- Why an operation stops. -/
inductive QueuePanic
  /-- `assert!(self.tentative_selection.is_none())` -/
  | locked
  /-- `push_safety_check`, and the check of `restore` -/
  | alreadyQueued
  /-- A priority that is not ordinary -/
  | badPriority
  /-- An insertion that finds its key occupied -/
  | occupied
  /-- `push_yielded` while a skip is pending -/
  | skipPending
  /-- `tentative_pop_next` during an exact transaction -/
  | exactUnderway
  /-- A commit or undo without a transaction -/
  | notLocked
  /-- A draw from an empty range -/
  | emptyRange
  /-- An entry that was located and is missing -/
  | missingEntry
  /-- `debug_assert!(ret == tentative_selection)` -/
  | selectionMismatch
  /-- The sign assertions of `turn_counter` -/
  | turnSign
deriving DecidableEq

structure RunQueue (R : Prng) where
  queue : OrdMap PrioritizedOrder QueueValue
  lastBackTurn : ℤ
  lastFrontTurn : ℤ
  pollUpgrades : ℕ
  tentativeSelection : Option DetTid
  tentativeSelectionIsExact : Bool
  yieldedSkip : Option DetTid
  yieldEpoch : Option (Finset DetTid)
  yieldStreaks : OrdMap DetTid ℕ
  queuedByYield : Finset DetTid
  schedStrategy : SchedHeuristic
  prng : R.State
  stickyRandomSelection : Option DetTid

namespace RunQueue

variable {R : Prng}

def new (strategy : SchedHeuristic) (prng : R.State) : RunQueue R where
  queue := ∅
  lastBackTurn := 0
  lastFrontTurn := 0
  pollUpgrades := 0
  tentativeSelection := none
  tentativeSelectionIsExact := false
  yieldedSkip := none
  yieldEpoch := none
  yieldStreaks := ∅
  queuedByYield := ∅
  schedStrategy := strategy
  prng := prng
  stickyRandomSelection := none

def entries (q : RunQueue R) : List (PrioritizedOrder × QueueValue) := q.queue.toList

def tids (q : RunQueue R) : List DetTid := q.entries.map (·.2.tid)

def containsTid (q : RunQueue R) (tid : DetTid) : Bool := tid ∈ q.tids

def len (q : RunQueue R) : ℕ := q.queue.size

def find (q : RunQueue R) (tid : DetTid) : Option (PrioritizedOrder × QueueValue) :=
  q.entries.find? (·.2.tid = tid)

def insertNew (queue : OrdMap PrioritizedOrder QueueValue) (key : PrioritizedOrder)
    (value : QueueValue) : Except QueuePanic (OrdMap PrioritizedOrder QueueValue) :=
  if queue.contains key then throw .occupied else return queue.insert key value

/-- `assert!(self.tentative_selection.is_none())`. -/
def checkUnlocked (q : RunQueue R) : Except QueuePanic Unit :=
  if q.tentativeSelection.isSome then throw .locked else return ()

def pushSafetyCheck (q : RunQueue R) (tid : DetTid) : Except QueuePanic Unit :=
  if q.containsTid tid then throw .alreadyQueued else return ()

/-! ## Poll upgrades -/

def turnCounter (q : RunQueue R) : ℕ := q.lastBackTurn.natAbs + q.lastFrontTurn.natAbs

/-- One iteration of the first loop of `do_poll_upgrade`. -/
def upgradeOne (s : OrdMap PrioritizedOrder QueueValue × List DetTid)
    (upgrade : PrioritizedOrder × Priority) :
    Except QueuePanic (OrdMap PrioritizedOrder QueueValue × List DetTid) :=
  match s.1[upgrade.1]? with
  | none => throw .missingEntry
  | some value =>
    -- A poller whose normal priority is the last band has nowhere to be
    -- upgraded to: it keeps its marker and records the upgrade.
    if lastPriority ≤ upgrade.2 then
      return (s.1.insert upgrade.1 { value with upgradedInPlace := true }, s.2)
    else do
      let queue ← insertNew (s.1.erase upgrade.1) { upgrade.1 with priority := upgrade.2 }
        { value with pollUpgrade := none }
      return (queue, s.2 ++ [value.tid])

/-- The body of the second loop of `do_poll_upgrade`. -/
def settle (key : PrioritizedOrder) (value : QueueValue) : QueueValue :=
  if key.priority < lastPriority then { value with deadlineRestored := false }
  else if value.deadlineRestored then { value with upgradedInPlace := true }
  else value

def doPollUpgrade (q : RunQueue R) : Except QueuePanic (RunQueue R × List DetTid) := do
  let upgrades := q.entries.filterMap fun (key, value) => value.pollUpgrade.map (key, ·)
  let (queue, restored) ← upgrades.foldlM upgradeOne (q.queue, [])
  return ({ q with queue := queue.map settle, pollUpgrades := q.pollUpgrades + 1 }, restored)

def checkPollUpgrade (q : RunQueue R) : Except QueuePanic (RunQueue R) := do
  if ¬ (0 ≤ q.lastBackTurn ∧ q.lastFrontTurn ≤ 0) then throw .turnSign
  if q.turnCounter % pollingUpgradeInterval = 0 then
    let (q, _) ← q.doPollUpgrade
    return q
  else return q

/-! ## Pushes -/

def pushInner (q : RunQueue R) (tid : DetTid) (prio : PrioritizedOrder)
    (pollUpgrade : Option Priority) : Except QueuePanic (RunQueue R × PrioritizedOrder) := do
  let queue ← insertNew q.queue prio ⟨tid, pollUpgrade, false, false⟩
  let q ← { q with queue := queue }.checkPollUpgrade
  return (q, prio)

def pushBackInner (q : RunQueue R) (tid : DetTid) (priority : Priority)
    (pollUpgrade : Option Priority) : Except QueuePanic (RunQueue R × PrioritizedOrder) :=
  { q with lastBackTurn := q.lastBackTurn + 1 }.pushInner tid ⟨priority, q.lastBackTurn + 1⟩
    pollUpgrade

def pushFrontInner (q : RunQueue R) (tid : DetTid) (priority : Priority)
    (pollUpgrade : Option Priority) : Except QueuePanic (RunQueue R × PrioritizedOrder) :=
  { q with lastFrontTurn := q.lastFrontTurn - 1 }.pushInner tid ⟨priority, q.lastFrontTurn - 1⟩
    pollUpgrade

def pushBack (q : RunQueue R) (tid : DetTid) (priority : Priority) :
    Except QueuePanic (RunQueue R × PrioritizedOrder) := do
  q.checkUnlocked
  q.pushSafetyCheck tid
  if ¬ isOrdinaryPriority priority then throw .badPriority
  q.pushBackInner tid priority none

def pushYielded (q : RunQueue R) (tid : DetTid) (priority : Priority) :
    Except QueuePanic (RunQueue R × PrioritizedOrder) := do
  if q.yieldedSkip.isSome then throw .skipPending
  { q with yieldedSkip := some tid, queuedByYield := insert tid q.queuedByYield }.pushBack tid
    priority

/-- The streak and epoch a chaos yield of `tid` leaves. -/
def countYield (q : RunQueue R) (tid : DetTid) : RunQueue R :=
  if q.tids.any (· ≠ tid) then
    let streak := q.yieldStreaks[tid]?.getD 0 + 1
    { q with
      yieldStreaks := q.yieldStreaks.insert tid streak
      yieldEpoch :=
        if plainYieldsBeforeEpoch < streak then some (insert tid (q.yieldEpoch.getD ∅))
        else q.yieldEpoch }
  else q

def pushYieldedIntoEpoch (q : RunQueue R) (tid : DetTid) (priority : Priority) :
    Except QueuePanic (RunQueue R × PrioritizedOrder) :=
  { q.countYield tid with queuedByYield := insert tid q.queuedByYield }.pushBack tid priority

def backoffPriority (normalPriority : Priority) (pollAttempt : ℕ) : Priority :=
  let shifted := if pollAttempt < 64 then some (2 ^ pollAttempt) else none
  let product := shifted.bind fun f =>
    if f * normalPriority ≤ u64Max then some (f * normalPriority) else none
  min (product.getD u64Max) lastPriority

def pushPoller (q : RunQueue R) (tid : DetTid) (normalPriority : Priority) (pollAttempt : ℕ) :
    Except QueuePanic (RunQueue R × PrioritizedOrder) := do
  q.checkUnlocked
  q.pushSafetyCheck tid
  q.pushBackInner tid (backoffPriority normalPriority pollAttempt) (some normalPriority)

def pushFront (q : RunQueue R) (tid : DetTid) (priority : Priority) :
    Except QueuePanic (RunQueue R × PrioritizedOrder) := do
  q.checkUnlocked
  q.pushSafetyCheck tid
  if ¬ isOrdinaryPriority priority then throw .badPriority
  q.pushFrontInner tid priority none

def pushEagerIoRepoll (q : RunQueue R) (tid : DetTid) :
    Except QueuePanic (RunQueue R × PrioritizedOrder) := do
  q.checkUnlocked
  q.pushSafetyCheck tid
  q.pushFrontInner tid eagerIoRepollPriority none

/-! ## Suspension and run-time order -/

def suspend (q : RunQueue R) (tid : DetTid) (persistentPriority : Priority) :
    Except QueuePanic (RunQueue R × Option SuspendedRunQueueEntry) := do
  q.checkUnlocked
  match q.find tid with
  | none => return (q, none)
  | some (key, value) =>
    return ({ q with queue := q.queue.erase key }, some ⟨key, value, persistentPriority⟩)

def nextFreeTurn (queue : OrdMap PrioritizedOrder QueueValue) :
    ℕ → PrioritizedOrder → PrioritizedOrder
  | 0, key => key
  | fuel + 1, key =>
    if queue.contains key then nextFreeTurn queue fuel { key with turn := key.turn + 1 } else key

def restore (q : RunQueue R) (entry : SuspendedRunQueueEntry) (currentPriority : Priority) :
    Except QueuePanic (RunQueue R) := do
  q.checkUnlocked
  if q.containsTid entry.value.tid then throw .alreadyQueued
  let (key, value) := entry.atPriority currentPriority
  let key := if runTimeTurns ≤ key.turn then nextFreeTurn q.queue (q.len + 1) key else key
  let queue ← insertNew q.queue key value
  return { q with queue := queue }

def inRoundRobinOrder (key : PrioritizedOrder) (value : QueueValue) : Bool :=
  0 ≤ key.turn ∧ key.priority ≠ eagerIoRepollPriority ∧ value.pollUpgrade = none ∧
    value.deadlineRestored = false

/-- The run-time keys of `order` by thread; a later pair replaces an earlier
    one. -/
def wantedOf (order : List (DetTid × ℕ × ℕ)) : OrdMap DetTid (ℕ × ℕ) :=
  order.foldl (fun m (tid, key) => m.insert tid key) ∅

/-- An entry taken out to be ordered: its band, its run-time key and its
    value. -/
abbrev Moved := Priority × (ℕ × ℕ) × QueueValue

def movedKey (m : Moved) : Lex (ℕ × Lex (ℕ × Lex (ℕ × DetTid))) :=
  toLex (m.1, toLex (m.2.1.1, toLex (m.2.1.2, m.2.2.tid)))

/-- The first turn tried for a moved entry, given the key placed before it: the thread's
    run time in the run-time range, after a predecessor of its band. -/
def runTimeTurn (previous : Option PrioritizedOrder) (m : Moved) : ℤ :=
  let turn := runTimeTurns + min (m.2.1.1 : ℤ) runTimeTurns
  match previous with
  | some previous => if previous.priority = m.1 then max turn (previous.turn + 1) else turn
  | none => turn

def placeByRunTime (s : OrdMap PrioritizedOrder QueueValue × Option PrioritizedOrder) (m : Moved) :
    Except QueuePanic (OrdMap PrioritizedOrder QueueValue × Option PrioritizedOrder) := do
  let key := nextFreeTurn s.1 (s.1.size + 1) ⟨m.1, runTimeTurn s.2 m⟩
  let queue ← insertNew s.1 key m.2.2
  return (queue, some key)

def orderByRunTime (q : RunQueue R) (order : List (DetTid × ℕ × ℕ)) :
    Except QueuePanic (RunQueue R) := do
  q.checkUnlocked
  let wanted := wantedOf order
  let taken := q.entries.filter fun (key, value) =>
    wanted.contains value.tid && inRoundRobinOrder key value
  let queue := taken.foldl (fun m e => m.erase e.1) q.queue
  let moved : List Moved := taken.map fun (key, value) =>
    (key.priority, wanted[value.tid]?.getD (0, 0), value)
  let moved := moved.insertionSort fun a b => movedKey a ≤ movedKey b
  let (queue, _) ← moved.foldlM placeByRunTime (queue, none)
  return { q with queue := queue }

def removeTid (q : RunQueue R) (tid : DetTid) : Except QueuePanic (RunQueue R × Bool) := do
  q.checkUnlocked
  return ({ q with
    queue := q.queue.filter fun _ value => value.tid ≠ tid
    yieldedSkip := if q.yieldedSkip = some tid then none else q.yieldedSkip
    yieldEpoch := q.yieldEpoch.map (·.erase tid)
    yieldStreaks := q.yieldStreaks.erase tid
    queuedByYield := q.queuedByYield.erase tid
    stickyRandomSelection :=
      if q.stickyRandomSelection = some tid then none else q.stickyRandomSelection },
    q.containsTid tid)

/-! ## Selection -/

def endYieldEpoch (q : RunQueue R) : RunQueue R :=
  { q with yieldEpoch := none, yieldStreaks := ∅ }

def consumeYieldExclusion (q : RunQueue R) : RunQueue R := { q with yieldedSkip := none }

/-- The skip `tentative_pop_next` applies. -/
def pendingSkip (q : RunQueue R) : Option DetTid :=
  q.yieldedSkip.filter fun tid => decide (1 < q.len) && q.containsTid tid

/-- The epoch covers every queued thread that is not a poller backed off all the way. -/
def epochOver (q : RunQueue R) : Bool :=
  q.yieldEpoch.any fun epoch => q.entries.all fun (key, value) =>
    decide (value.tid ∈ epoch) || value.isFullyBackedOffPoller key.priority

def excluded (q : RunQueue R) (skip : Option DetTid) : Finset DetTid :=
  match q.yieldEpoch with
  | none => skip.toFinset
  | some epoch =>
    if q.tids.any (· ∉ skip.toFinset ∪ epoch) then skip.toFinset ∪ epoch else skip.toFinset

/-- The threads selection may take, in queue order. -/
def eligible (q : RunQueue R) (excluded : Finset DetTid) : List DetTid :=
  q.tids.filter (· ∉ excluded)

/-- A draw of one of the eligible threads. -/
def draw (q : RunQueue R) (excluded : Finset DetTid) :
    Except QueuePanic (RunQueue R × Option DetTid) :=
  let excludedCount := (q.tids.filter (· ∈ excluded)).length
  let count := q.len - excludedCount
  if count = 0 then throw .emptyRange
  else
    let (index, prng) := R.randomIndex q.prng count
    return ({ q with prng := prng }, (q.eligible excluded)[index]?)

/-- The selection of `tentative_pop_next` by strategy. -/
def select (q : RunQueue R) (excluded : Finset DetTid) :
    Except QueuePanic (RunQueue R × Option DetTid) :=
  match q.schedStrategy with
  | .none | .connectBind =>
    let selection := (q.eligible excluded).head?
    return ({ q with tentativeSelection := selection }, selection)
  | .random =>
    if q.tids = [] then return (q, none)
    else
      match q.tentativeSelection with
      | some tid => return (q, some tid)
      | none => do
        let (q, selection) ← q.draw excluded
        return ({ q with tentativeSelection := selection }, selection)
  | .stickyRandom =>
    if q.tids = [] then return (q, none)
    else
      match q.stickyRandomSelection.filter fun tid => decide (tid ∉ excluded) && q.containsTid tid with
      | some tid => return ({ q with tentativeSelection := some tid }, some tid)
      | none => do
        let (q, selection) ← q.draw excluded
        return ({ q with stickyRandomSelection := selection, tentativeSelection := selection },
          selection)

def tentativePopNext (q : RunQueue R) : Except QueuePanic (RunQueue R × Option DetTid) := do
  if q.tentativeSelectionIsExact then throw .exactUnderway
  let skip := q.pendingSkip
  let q := if q.epochOver then q.endYieldEpoch else q
  q.select (q.excluded skip)

def tentativePopTid (q : RunQueue R) (tid : DetTid) :
    Except QueuePanic (RunQueue R × Option DetTid) := do
  q.checkUnlocked
  if q.containsTid tid then
    return ({ q with tentativeSelection := some tid, tentativeSelectionIsExact := true }, some tid)
  else return (q, none)

/-- Locate a thread's entry and remove it. -/
def removeFirst (q : RunQueue R) (tid : DetTid) : Except QueuePanic (RunQueue R × DetTid) :=
  match q.find tid with
  | none => throw .missingEntry
  | some (key, value) => return ({ q with queue := q.queue.erase key }, value.tid)

/-- The removal of `commit_selection` by strategy. -/
def removeSelection (q : RunQueue R) (selection : DetTid) (exact : Bool) :
    Except QueuePanic (RunQueue R × DetTid) :=
  if exact || q.schedStrategy ≠ .stickyRandom then q.removeFirst selection
  else
    match q.stickyRandomSelection with
    | none => throw .missingEntry
    | some tid =>
      let (switch, prng) := R.switches q.prng
      { q with
        prng := prng
        stickyRandomSelection := if switch then none else some tid }.removeFirst tid

def commitSelection (q : RunQueue R) : Except QueuePanic (RunQueue R × DetTid) :=
  match q.tentativeSelection with
  | none => throw .notLocked
  | some selection => do
    let (q, tid) ←
      { q with tentativeSelection := none, tentativeSelectionIsExact := false }.removeSelection
        selection q.tentativeSelectionIsExact
    if tid ≠ selection then throw .selectionMismatch
    return ({ q with queuedByYield := q.queuedByYield.erase tid }, tid)

def commitTentativePop (q : RunQueue R) : Except QueuePanic (RunQueue R × DetTid) :=
  q.commitSelection

def commitTentativePopYield (q : RunQueue R) : Except QueuePanic (RunQueue R × DetTid) := do
  let (q, tid) ← q.commitSelection
  return (q.consumeYieldExclusion, tid)

def commitTentativePopCompletedTurn (q : RunQueue R) : Except QueuePanic (RunQueue R × DetTid) := do
  let (q, tid) ← q.commitTentativePop
  return (q.consumeYieldExclusion.endYieldEpoch, tid)

def undoTentativePop (q : RunQueue R) : Except QueuePanic (RunQueue R) :=
  if q.tentativeSelection.isSome then
    return { q with tentativeSelection := none, tentativeSelectionIsExact := false }
  else throw .notLocked

/-! ## Restored pollers -/

def restorePollerPriority (q : RunQueue R) (tid : DetTid) :
    Except QueuePanic (RunQueue R × PollerRestore) := do
  q.checkUnlocked
  match q.find tid with
  | none => return (q, .notQueued)
  | some (key, value) =>
    match value.pollUpgrade with
    | none => return (q, .notBackedOff)
    | some normalPriority =>
      let queue ← insertNew (q.queue.erase key) ⟨normalPriority, q.lastBackTurn + 1⟩ { value with
          pollUpgrade := none
          deadlineRestored := decide (lastPriority ≤ key.priority) }
      let q ← { q with queue := queue, lastBackTurn := q.lastBackTurn + 1 }.checkPollUpgrade
      return (q, .restored)

def upgradePollers (q : RunQueue R) : Except QueuePanic (RunQueue R × List DetTid) := do
  q.checkUnlocked
  q.doPollUpgrade

end RunQueue

/-! ## Operations as a machine -/

/-- The mutating operations of the queue. -/
inductive QueueOp
  | pushBack (tid : DetTid) (priority : Priority)
  | pushYielded (tid : DetTid) (priority : Priority)
  | pushYieldedIntoEpoch (tid : DetTid) (priority : Priority)
  | pushPoller (tid : DetTid) (normalPriority : Priority) (pollAttempt : ℕ)
  | pushFront (tid : DetTid) (priority : Priority)
  | pushEagerIoRepoll (tid : DetTid)
  | suspend (tid : DetTid) (persistentPriority : Priority)
  | restore (entry : SuspendedRunQueueEntry) (currentPriority : Priority)
  | orderByRunTime (order : List (DetTid × ℕ × ℕ))
  | removeTid (tid : DetTid)
  | tentativePopNext
  | tentativePopTid (tid : DetTid)
  | commitTentativePop
  | commitTentativePopYield
  | commitTentativePopCompletedTurn
  | endYieldEpoch
  | consumeYieldExclusion
  | undoTentativePop
  | restorePollerPriority (tid : DetTid)
  | upgradePollers
deriving DecidableEq

/-- What an operation returns. -/
inductive QueueOut
  | unit
  | order (key : PrioritizedOrder)
  | selected (tid : Option DetTid)
  | committed (tid : DetTid)
  | removed (found : Bool)
  | suspended (entry : Option SuspendedRunQueueEntry)
  | poller (outcome : PollerRestore)
  | upgraded (tids : List DetTid)
deriving DecidableEq

structure QueueState (R : Prng) where
  queue : RunQueue R
  suspended : List SuspendedRunQueueEntry

namespace QueueState

variable {R : Prng}

def new (strategy : SchedHeuristic) (prng : R.State) : QueueState R := ⟨.new strategy prng, []⟩

/-- An operation that returns the next queue and an `α`. -/
def lift {α : Type} (s : QueueState R) (f : α → QueueOut)
    (r : Except QueuePanic (RunQueue R × α)) : Except QueuePanic (QueueState R × QueueOut) :=
  r.map fun (q, a) => ({ s with queue := q }, f a)

/-- Perform one operation. -/
def step (s : QueueState R) : QueueOp → Except QueuePanic (QueueState R × QueueOut)
  | .pushBack tid priority => s.lift .order (s.queue.pushBack tid priority)
  | .pushYielded tid priority => s.lift .order (s.queue.pushYielded tid priority)
  | .pushYieldedIntoEpoch tid priority => s.lift .order (s.queue.pushYieldedIntoEpoch tid priority)
  | .pushPoller tid normalPriority pollAttempt =>
    s.lift .order (s.queue.pushPoller tid normalPriority pollAttempt)
  | .pushFront tid priority => s.lift .order (s.queue.pushFront tid priority)
  | .pushEagerIoRepoll tid => s.lift .order (s.queue.pushEagerIoRepoll tid)
  | .suspend tid persistentPriority =>
    (s.queue.suspend tid persistentPriority).map fun (q, entry) =>
      (⟨q, s.suspended ++ entry.toList⟩, .suspended entry)
  | .restore entry currentPriority =>
    s.lift (fun _ => .unit) ((s.queue.restore entry currentPriority).map (·, ()))
  | .orderByRunTime order => s.lift (fun _ => .unit) ((s.queue.orderByRunTime order).map (·, ()))
  | .removeTid tid => s.lift .removed (s.queue.removeTid tid)
  | .tentativePopNext => s.lift .selected s.queue.tentativePopNext
  | .tentativePopTid tid => s.lift .selected (s.queue.tentativePopTid tid)
  | .commitTentativePop => s.lift .committed s.queue.commitTentativePop
  | .commitTentativePopYield => s.lift .committed s.queue.commitTentativePopYield
  | .commitTentativePopCompletedTurn => s.lift .committed s.queue.commitTentativePopCompletedTurn
  | .endYieldEpoch => .ok (⟨s.queue.endYieldEpoch, s.suspended⟩, .unit)
  | .consumeYieldExclusion => .ok (⟨s.queue.consumeYieldExclusion, s.suspended⟩, .unit)
  | .undoTentativePop => s.lift (fun _ => .unit) (s.queue.undoTentativePop.map (·, ()))
  | .restorePollerPriority tid => s.lift .poller (s.queue.restorePollerPriority tid)
  | .upgradePollers => s.lift .upgraded s.queue.upgradePollers

end QueueState

end Hermit.Scheduler
