import Hermit.Common.Queues
import Hermit.Ids

/-!
# Priority-inheritance futexes

`FUTEX_LOCK_PI` and `FUTEX_UNLOCK_PI` are emulated: the guest's word is decided on by
`lockPiStep` and `unlockPiStep` (`detcore/src/syscalls/pi_futex.rs`) from what the scheduler
holds for it, its waiter queues and the owners of contended words (`BlockedPool` in
`detcore/src/scheduler.rs`).

A thread's turn is one step here: Detcore runs one guest thread at a time, and the reads,
decisions and requests of one pass of a futex call happen inside the caller's turn.
`nextTurns` holds, for every registered thread, where its futex call stands.

Two things are recorded that the scheduler does not keep: when each waiter joined its queue
(`FutexWaiter.arrived`), and every hand-over with the queue it was made from (`handOvers`).
-/

namespace Hermit.PiFutex

open Common

/-! ## Words -/

abbrev Word := BitVec 32

/-- What names a futex; the keys are only compared. -/
abbrev FutexID := ℕ

def futexWaitersBit : Word := 0x80000000#32

def futexOwnerDied : Word := 0x40000000#32

def futexTidMask : Word := 0x3fffffff#32

def wordOwner (word : Word) : Word := word &&& futexTidMask

def guestTid (thread : DetTid) : Word := BitVec.ofInt 32 thread

/-- The error numbers the lock and unlock calls answer with. -/
inductive Errno
  | edeadlk
  | einval
  | ewouldblock
  | esrch
  deriving DecidableEq, Repr

inductive PiFutexState
  | unqueued (namedOwnerAlive queueingDeadlocks : Bool)
  | plainWaiters
  | contended (owner : DetTid) (nextOwner : Option DetTid) (queueingDeadlocks : Bool)
  deriving DecidableEq, Repr

inductive LockPiStep
  | fail (errno : Errno) (write : Option Word)
  | acquire (word : Word)
  | block (owner : DetTid) (write : Option Word)
  deriving DecidableEq, Repr

inductive UnlockPiStep
  | fail (errno : Errno)
  | release
  | handOff (next : DetTid) (write : Word)
  deriving DecidableEq, Repr

def lockPiStep (word caller : Word) (state : PiFutexState) (trylock : Bool) : LockPiStep :=
  if wordOwner word = caller then .fail .edeadlk none
  else match state with
    | .plainWaiters => .fail .einval none
    | .contended owner _ queueingDeadlocks =>
      let named := wordOwner word
      let ownerDiedUnfixed := word &&& futexOwnerDied ≠ 0 ∧ named = 0
      if ¬ ownerDiedUnfixed ∧ named ≠ guestTid owner then .fail .einval none
      else if trylock then .fail .ewouldblock none
      else if queueingDeadlocks then .fail .edeadlk none
      else .block owner none
    | .unqueued namedOwnerAlive queueingDeadlocks =>
      if wordOwner word = 0 then .acquire ((word &&& futexOwnerDied) ||| caller)
      else
        let write := some (word ||| futexWaitersBit)
        if ¬ namedOwnerAlive then .fail .esrch write
        else if trylock then .fail .ewouldblock write
        else if queueingDeadlocks then .fail .edeadlk write
        else .block (wordOwner word).toInt write

def unlockPiStep (caller : DetTid) (state : PiFutexState) : UnlockPiStep :=
  match state with
  | .plainWaiters => .fail .einval
  | .contended owner nextOwner _ =>
    if owner ≠ caller then .fail .einval
    else match nextOwner with
      | some next => .handOff next (futexWaitersBit ||| guestTid next)
      | none => .release
  | .unqueued _ _ => .release

/-! ## The scheduler's state -/

structure FutexWaiter where
  dettid : DetTid
  bitset : Word
  /-- A `FUTEX_LOCK_PI` waiter. -/
  pi : Bool
  /-- Woken for a signal it has not looked for yet; it keeps its place. -/
  woken : Bool
  /-- When it joined the queue, in the order of `State.arrivals`. -/
  arrived : ℕ
  deriving DecidableEq, Repr

inductive PiHandOver
  | unlock
  | ownerDeath
  deriving DecidableEq, Repr

/-- The recorded owner of a contended word. -/
structure PiFutexOwner where
  owner : DetTid
  since : ℕ
  /-- How the owner was handed the lock, while it has not taken it. -/
  handed : Option PiHandOver
  deriving DecidableEq, Repr

/-- How a parked futex call was answered. -/
inductive Answer
  | go
  | timeOut
  | signaled
  deriving DecidableEq, Repr

inductive Call
  | running
  | parked (pi : Option FutexID)
  | answered (pi : Option FutexID) (answer : Answer)
  deriving DecidableEq, Repr

structure HandOver where
  futex : FutexID
  successor : FutexWaiter
  queue : List (FutexWaiter × Bool)
  deriving DecidableEq, Repr

/-- What the scheduler keeps that futex calls read or change. -/
structure State where
  futexWaiters : OrdMap FutexID (List FutexWaiter)
  piFutexOwners : OrdMap FutexID PiFutexOwner
  piFutexOwnerEpoch : ℕ
  /-- The registered threads. -/
  nextTurns : OrdMap DetTid Call
  /-- `thread_tree.process_of`. -/
  processOf : OrdMap DetTid DetPid
  committedExits : Finset DetTid
  piDoomedProcesses : Finset DetPid
  logicallyKilledThreads : Finset DetTid
  arrivals : ℕ
  handOvers : List HandOver

namespace State

/-- No thread and no waiter. -/
def empty : State where
  futexWaiters := ∅
  piFutexOwners := ∅
  piFutexOwnerEpoch := 0
  nextTurns := ∅
  processOf := ∅
  committedExits := ∅
  piDoomedProcesses := ∅
  logicallyKilledThreads := ∅
  arrivals := 0
  handOvers := []

def queue (s : State) (futex : FutexID) : List FutexWaiter := OrdMap.queue s.futexWaiters futex

/-- `pi_futex_thread_doomed`: the thread will run no more guest code. -/
def doomed (s : State) (thread : DetTid) : Bool :=
  decide (thread ∈ s.committedExits) || decide (thread ∈ s.logicallyKilledThreads) ||
    s.processOf[thread]?.any fun process => decide (process ∈ s.piDoomedProcesses)

def hasPiWaiters (s : State) (futex : FutexID) : Bool := (s.queue futex).any (·.pi)

def livePiFutexOwner (s : State) (futex : FutexID) : Option DetTid × State :=
  match s.piFutexOwners[futex]? with
  | none => (none, s)
  | some record =>
    if record.handed.isSome || s.hasPiWaiters futex then (some record.owner, s)
    else (none, { s with piFutexOwners := s.piFutexOwners.erase futex })

def piFutexHandOverPending (s : State) (futex : FutexID) : Bool :=
  s.piFutexOwners[futex]?.any (·.handed.isSome)

def setPiFutexOwner (s : State) (futex : FutexID) (owner : DetTid)
    (handed : Option PiHandOver) : State :=
  { s with
    piFutexOwnerEpoch := s.piFutexOwnerEpoch + 1
    piFutexOwners := s.piFutexOwners.insert futex
      { owner := owner, since := s.piFutexOwnerEpoch + 1, handed := handed } }

def piFutexLiveOwnerNamed (s : State) (named : Word) : Option DetTid :=
  if named.toNat < 2 ^ 31 ∧ named ≠ 0 then
    let thread : DetTid := named.toNat
    if s.nextTurns.contains thread ∧ ¬ s.doomed thread then some thread else none
  else none

def piFutexWaitedOn (s : State) (thread : DetTid) : Option FutexID :=
  (s.futexWaiters.toList.find? fun entry =>
    entry.2.any fun waiter => waiter.pi && decide (waiter.dettid = thread)).map Prod.fst

def waitDeadlocksFrom (waiter : DetTid) : ℕ → State → DetTid → Bool × State
  | 0, s, _ => (true, s)
  | passes + 1, s, owner =>
    if owner = waiter then (true, s)
    else match s.piFutexWaitedOn owner with
      | none => (false, s)
      | some futex =>
        match s.livePiFutexOwner futex with
        | (none, s) => (false, s)
        | (some next, s) => waitDeadlocksFrom waiter passes s next

def maxLockDepth : ℕ := 1024

def piFutexWaitDeadlocks (s : State) (owner waiter : DetTid) : Bool × State :=
  waitDeadlocksFrom waiter (maxLockDepth + 1) s owner

/-- The test of `pi_futex_successor`. -/
def mayTake (s : State) (waiter : FutexWaiter) : Bool := waiter.pi && !s.doomed waiter.dettid

def piFutexSuccessor (s : State) (futex : FutexID) : Option ℕ :=
  (s.queue futex).findIdx? s.mayTake

def piFutexState (s : State) (futex : FutexID) (named : Word) (caller : DetTid) :
    PiFutexState × State :=
  let waiters := s.queue futex
  let plainFirst := waiters.head?.any fun waiter => !waiter.pi
  let nextOwner := (s.piFutexSuccessor futex).bind fun at_ => waiters[at_]?.map (·.dettid)
  if plainFirst && !s.piFutexHandOverPending futex then (.plainWaiters, s)
  else match s.livePiFutexOwner futex with
    | (some owner, s) =>
      let deadlocks := s.piFutexWaitDeadlocks owner caller
      (.contended owner nextOwner deadlocks.1, deadlocks.2)
    | (none, s) =>
      match s.piFutexLiveOwnerNamed named with
      | some owner =>
        let deadlocks := s.piFutexWaitDeadlocks owner caller
        (.unqueued true deadlocks.1, deadlocks.2)
      | none => (.unqueued false false, s)

def setCall (s : State) (thread : DetTid) (call : Call) : State :=
  { s with nextTurns := s.nextTurns.insert thread call }

def parkOn (s : State) (futex : FutexID) (waiters : List FutexWaiter) (thread : DetTid)
    (call : Call) : State :=
  { s with
    futexWaiters := OrdMap.setQueue s.futexWaiters futex waiters
    arrivals := s.arrivals + 1
    nextTurns := s.nextTurns.insert thread call }

def keptBy (dettid : DetTid) (queued : FutexWaiter) : Bool :=
  queued.woken && decide (queued.dettid = dettid)

/-- `park_futex_waiter`: a lock waiter still queued from a wake for a signal sleeps again in
its place, any other joins the tail. -/
def parkFutexWaiter (s : State) (dettid : DetTid) (futex : FutexID) (bitset : Word) (pi : Bool) :
    State :=
  let entry := s.queue futex
  let waiter : FutexWaiter :=
    { dettid := dettid, bitset := bitset, pi := pi, woken := false, arrived := s.arrivals }
  let again := fun queued : FutexWaiter => { waiter with arrived := queued.arrived }
  let call := Call.parked (if pi then some futex else none)
  if pi && entry.any (keptBy dettid) then
    s.parkOn futex (amend (keptBy dettid) again entry) dettid call
  else s.parkOn futex (entry ++ [waiter]) dettid call

def sleepPiFutexWaiter (s : State) (dettid : DetTid) (futex : FutexID) (owner : DetTid) : State :=
  let live := s.livePiFutexOwner futex
  let recorded := if live.1.isNone then live.2.setPiFutexOwner futex owner none else live.2
  recorded.parkFutexWaiter dettid futex (BitVec.allOnes 32) true

def leavePiFutexQueue (s : State) (dettid : DetTid) : State :=
  { s with
    futexWaiters := OrdMap.retain s.futexWaiters fun waiter => !keptBy dettid waiter }

def removeFutexWaiter (s : State) (dettid : DetTid) : State :=
  { s with
    futexWaiters := OrdMap.retain s.futexWaiters fun waiter => decide (waiter.dettid ≠ dettid) }

def wakeFutexWaiter (s : State) (waiter : FutexWaiter) : State :=
  match s.nextTurns[waiter.dettid]? with
  | some (.parked pi) => s.setCall waiter.dettid (.answered pi .go)
  | _ => s

def takePiFutexSuccessor (s : State) (futex : FutexID) (how : PiHandOver) :
    Option (FutexWaiter × State) :=
  match s.piFutexSuccessor futex with
  | none => none
  | some position =>
    let waiters := s.queue futex
    match waiters[position]? with
    | none => none
    | some successor =>
      let handOver : HandOver :=
        { futex := futex
          successor := successor
          queue := waiters.map fun waiter => (waiter, s.doomed waiter.dettid) }
      let taken :=
        { s with
          futexWaiters := OrdMap.setQueue s.futexWaiters futex (waiters.eraseIdx position)
          handOvers := s.handOvers ++ [handOver] }
      some (successor, taken.setPiFutexOwner futex successor.dettid (some how))

/-- A successor still woken for a signal is already runnable. -/
def wakeSuccessor (s : State) (successor : FutexWaiter) : State :=
  if successor.woken then s else s.wakeFutexWaiter successor

def handOffPiFutex (s : State) (futex : FutexID) : State :=
  match s.takePiFutexSuccessor futex .unlock with
  | none => s
  | some (successor, s) => s.wakeSuccessor successor

def takeHandedPiFutex (s : State) (futex : FutexID) (dettid : DetTid) : Option PiHandOver × State :=
  match s.piFutexOwners[futex]? with
  | none => (none, s)
  | some record =>
    if record.owner ≠ dettid then (none, s)
    else match record.handed with
      | none => (none, s)
      | some how =>
        let taken :=
          { s with piFutexOwners := s.piFutexOwners.insert futex { record with handed := none } }
        (some how, (taken.livePiFutexOwner futex).2)

def releasePiFutex (s : State) (futex : FutexID) : State :=
  match s.takePiFutexSuccessor futex .ownerDeath with
  | some (successor, s) => s.wakeSuccessor successor
  | none => { s with piFutexOwners := s.piFutexOwners.erase futex }

/-- The futexes a thread is the recorded owner of, latest acquired first. -/
def ownedBy (s : State) (dead : DetTid) : List FutexID :=
  ((s.piFutexOwners.toList.filter fun entry => decide (entry.2.owner = dead)).mergeSort
    fun a b => decide (b.2.since ≤ a.2.since)).map Prod.fst

def releasePiFutexesOf (s : State) (dead : DetTid) : State :=
  (s.ownedBy dead).foldl releasePiFutex s

/-! ## Plain wakes -/

/-- The waiters a wake takes and those it keeps, in queue order. -/
def pickWakees (maxToWake : ℕ) (wakeMask : Word) : List FutexWaiter →
    List FutexWaiter × List FutexWaiter
  | [] => ([], [])
  | waiter :: rest =>
    if 0 < maxToWake ∧ waiter.bitset &&& wakeMask ≠ 0 then
      let picked := pickWakees (maxToWake - 1) wakeMask rest
      (waiter :: picked.1, picked.2)
    else
      let picked := pickWakees maxToWake wakeMask rest
      (picked.1, waiter :: picked.2)

def wakeFutexWaiters (s : State) (futex : FutexID) (maxToWake : ℤ) (wakeMask : Word) : State :=
  let most := if maxToWake ≤ 0 then 1 else maxToWake.toNat
  if s.piFutexHandOverPending futex then s
  else
    -- Only the waiters queued before the first lock waiter can be woken.
    let waiters := s.queue futex
    let reachable := waiters.takeWhile fun waiter => !waiter.pi
    let beyond := waiters.dropWhile fun waiter => !waiter.pi
    let picked := pickWakees most wakeMask reachable
    picked.1.foldl wakeFutexWaiter
      { s with futexWaiters := OrdMap.setQueue s.futexWaiters futex (picked.2 ++ beyond) }

structure Requeued where
  woken : List FutexWaiter
  moved : List FutexWaiter
  kept : List FutexWaiter

def sortRequeued (sameKey : Bool) (nrWake nrRequeue : ℕ) : ℕ → List FutexWaiter → Requeued
  | _, [] => ⟨[], [], []⟩
  | taskCount, waiter :: rest =>
    -- The counts ran out, or a lock waiter is met: everything left stays.
    if (taskCount : ℤ) - nrWake ≥ nrRequeue ∨ waiter.pi then ⟨[], [], waiter :: rest⟩
    else
      let later := sortRequeued sameKey nrWake nrRequeue (taskCount + 1) rest
      if taskCount + 1 ≤ nrWake then { later with woken := waiter :: later.woken }
      else if sameKey then { later with kept := waiter :: later.kept }
      else { later with moved := waiter :: later.moved }

def requeueFutexWaiters (s : State) (source target : FutexID) (nrWake nrRequeue : ℕ) : State :=
  if s.piFutexHandOverPending source then s
  else
    let sorted := sortRequeued (decide (source = target)) nrWake nrRequeue 0 (s.queue source)
    let kept := OrdMap.setQueue s.futexWaiters source sorted.kept
    let moved := OrdMap.setQueue kept target (OrdMap.queue kept target ++ sorted.moved)
    sorted.woken.foldl wakeFutexWaiter { s with futexWaiters := moved }

/-! ## Wakes for a signal -/

def takeParkedPiWaiter (s : State) (dettid : DetTid) : Option (FutexID × ℕ × FutexWaiter × State) :=
  match s.piFutexWaitedOn dettid with
  | none => none
  | some futex =>
    let waiters := s.queue futex
    match waiters.findIdx? fun waiter => waiter.pi && decide (waiter.dettid = dettid) with
    | none => none
    | some at_ =>
      match waiters[at_]? with
      | none => none
      | some waiter =>
        some (futex, at_, waiter,
          { s with futexWaiters := OrdMap.setQueue s.futexWaiters futex (waiters.eraseIdx at_) })

/-- The part of `force_unblock_thread_at` that concerns a parked futex wait: a lock waiter keeps
its place through the wake, a plain one leaves the queue. -/
def forceUnblock (s : State) (dettid : DetTid) : State :=
  match s.takeParkedPiWaiter dettid with
  | none => s.removeFutexWaiter dettid
  | some (futex, at_, waiter, s) =>
    let removed := s.removeFutexWaiter dettid
    { removed with
      futexWaiters := OrdMap.setQueue removed.futexWaiters futex
        ((removed.queue futex).insertIdx at_ { waiter with woken := true }) }

end State

/-! ## Steps -/

/-- What can happen, one turn or one scheduler action at a time. Words are what the guest holds at
that moment, so they are free. -/
inductive Event
  /-- A thread is registered. -/
  | start (thread : DetTid) (process : DetPid)
  /-- A lock call begins; `interrupted` says that a signal is found before it parks. -/
  | lock (thread : DetTid) (futex : FutexID) (word : Word) (trylock interrupted : Bool)
  /-- A parked call that was answered runs on; `rewait` says that a wake for a signal finds none
  pending. -/
  | resume (thread : DetTid) (word : Word) (rewait : Bool)
  | unlock (thread : DetTid) (futex : FutexID) (word : Word)
  /-- A plain wait parks. -/
  | wait (thread : DetTid) (futex : FutexID) (bitset : Word)
  | wake (thread : DetTid) (futex : FutexID) (count : ℤ) (mask : Word)
  | requeue (thread : DetTid) (source target : FutexID) (nrWake nrRequeue : ℕ)
  /-- A parked call's deadline passes. -/
  | timeout (thread : DetTid)
  /-- A parked call is woken for a signal. -/
  | signal (thread : DetTid)
  /-- A thread's own exit is granted. -/
  | exit (thread : DetTid)
  /-- A committed `SIGKILL` dooms a process. -/
  | kill (process : DetPid)
  /-- A thread is retired; `cancels` says that the backend cancels a killed thread's requests. -/
  | retire (thread : DetTid) (cancels : Bool)
  /-- A successful exec. -/
  | exec (thread : DetTid)

namespace State

def lockPass (s : State) (thread : DetTid) (futex : FutexID) (word : Word)
    (trylock interrupted : Bool) (ended : State → State) : State :=
  let state := s.piFutexState futex (wordOwner word) thread
  match lockPiStep word (guestTid thread) state.1 trylock with
  | .fail _ _ => ended state.2
  | .acquire _ => ended state.2
  | .block owner _ =>
    if interrupted then ended state.2 else state.2.sleepPiFutexWaiter thread futex owner

/-- A parked call ends: the place it may have kept is given up. -/
def finishCall (s : State) (thread : DetTid) : State :=
  (s.leavePiFutexQueue thread).setCall thread .running

/-- A lock call runs on after its park was answered. -/
def resumeLock (s : State) (thread : DetTid) (futex : FutexID) (answer : Answer) (word : Word)
    (rewait : Bool) : State :=
  match s.takeHandedPiFutex futex thread with
  | (some _, s) => s.finishCall thread
  | (none, s) =>
    if answer = .signaled ∧ rewait then
      s.lockPass thread futex word false false fun s => s.finishCall thread
    else s.finishCall thread

def unlockPi (s : State) (thread : DetTid) (futex : FutexID) (word : Word) : State :=
  if wordOwner word ≠ guestTid thread then s
  else
    let state := s.piFutexState futex (wordOwner word) thread
    match unlockPiStep thread state.1 with
    | .fail _ => state.2
    | .release => state.2
    | .handOff _ _ => state.2.handOffPiFutex futex

/-- `record_committed_sigkill` and `release_pi_futexes_of_killed`. -/
def killProcess (s : State) (process : DetPid) : State :=
  let doomed := { s with piDoomedProcesses := insert process s.piDoomedProcesses }
  (doomed.nextTurns.keys.filter fun thread => decide (doomed.processOf[thread]? = some process)).foldl
    releasePiFutexesOf doomed

/-- `logically_kill_thread`. -/
def retire (s : State) (thread : DetTid) (cancels : Bool) : State :=
  let killed :=
    if cancels then { s with logicallyKilledThreads := insert thread s.logicallyKilledThreads }
    else s
  let removed := killed.removeFutexWaiter thread
  { removed with nextTurns := removed.nextTurns.erase thread }.releasePiFutexesOf thread

/-- A thread registers: what was recorded for an earlier thread or process of that number no longer
applies (`forget_committed_exit`). -/
def register (s : State) (thread : DetTid) (process : DetPid) : State :=
  { s with
    nextTurns := s.nextTurns.insert thread .running
    processOf := s.processOf.insert thread process
    committedExits := s.committedExits.erase thread
    piDoomedProcesses := s.piDoomedProcesses.erase thread }

def numberFree (s : State) (thread : DetTid) : Bool :=
  !s.nextTurns.contains thread &&
    s.nextTurns.keys.all fun other => decide (s.processOf[other]? ≠ some thread)

def step (s : State) : Event → State
  | .start thread process => if s.numberFree thread then s.register thread process else s
  | .lock thread futex word trylock interrupted =>
    if s.nextTurns[thread]? = some .running then
      s.lockPass thread futex word trylock interrupted id
    else s
  | .resume thread word rewait =>
    match s.nextTurns[thread]? with
    | some (.answered (some futex) answer) => s.resumeLock thread futex answer word rewait
    | some (.answered none _) => s.finishCall thread
    | _ => s
  | .unlock thread futex word =>
    if s.nextTurns[thread]? = some .running then s.unlockPi thread futex word else s
  | .wait thread futex bitset =>
    if s.nextTurns[thread]? = some .running then s.parkFutexWaiter thread futex bitset false else s
  | .wake thread futex count mask =>
    if s.nextTurns[thread]? = some .running then s.wakeFutexWaiters futex count mask else s
  | .requeue thread source target nrWake nrRequeue =>
    if s.nextTurns[thread]? = some .running then
      s.requeueFutexWaiters source target nrWake nrRequeue
    else s
  | .timeout thread =>
    match s.nextTurns[thread]? with
    | some (.parked pi) => (s.removeFutexWaiter thread).setCall thread (.answered pi .timeOut)
    | _ => s
  | .signal thread =>
    match s.nextTurns[thread]? with
    | some (.parked pi) => (s.forceUnblock thread).setCall thread (.answered pi .signaled)
    | _ => s
  | .exit thread =>
    if s.nextTurns[thread]? = some .running then
      { s with committedExits := insert thread s.committedExits }.releasePiFutexesOf thread
    else s
  | .kill process => s.killProcess process
  | .retire thread cancels => if s.nextTurns.contains thread then s.retire thread cancels else s
  | .exec thread =>
    if s.nextTurns[thread]? = some .running then s.releasePiFutexesOf thread else s

def run (events : List Event) : State := events.foldl step empty

end State

end Hermit.PiFutex
