import Hermit.Common.Loop
import Hermit.Common.Records
import Hermit.Ids

/-!
# The `flock` locks of one inode

Detcore keeps an inode's `flock` locks and the requests waiting for one as Linux keeps them: each
granted lock heads a tree of blocked requests (`FlockInode` in `detcore/src/procfs/locks.rs`). A
lock that is deleted wakes the requests blocked directly under it, which retry in their own turns.
-/

namespace Hermit.Flock

open Common

abbrev OpenFileId := ℕ

inductive FlockMode
  | shared
  | exclusive
  deriving DecidableEq, Repr

/-- `conflicts_with`, for locks held through two descriptions. -/
def FlockMode.conflictsWith (mode other : FlockMode) : Bool :=
  decide (mode = .exclusive) || decide (other = .exclusive)

inductive FlockBlocker
  /-- A granted lock, by the description that holds it. -/
  | lock (openFile : OpenFileId)
  /-- Another waiting request, by its thread. -/
  | request (thread : DetTid)
  deriving DecidableEq, Repr

structure FlockGrant where
  openFile : OpenFileId
  mode : FlockMode
  /-- The process whose call took the lock. -/
  taker : DetPid
  /-- The requests blocked under this lock, in the order they were inserted. -/
  blocked : List DetTid
  deriving DecidableEq, Repr

structure FlockWaiter where
  thread : DetTid
  process : DetPid
  openFile : OpenFileId
  mode : FlockMode
  /-- `none` once a wake-up took it off its blocker's list, until its call retries. -/
  blocker : Option FlockBlocker
  /-- The requests blocked under this one, in the order they were inserted. -/
  blocked : List DetTid
  deriving DecidableEq, Repr

/-- The lock with another list under it. -/
def FlockGrant.setBlocked (threads : List DetTid) (g : FlockGrant) : FlockGrant :=
  { g with blocked := threads }

/-- The request with another list under it. -/
def FlockWaiter.setBlocked (threads : List DetTid) (w : FlockWaiter) : FlockWaiter :=
  { w with blocked := threads }

/-- The request under another blocker. -/
def FlockWaiter.setBlocker (blocker : Option FlockBlocker) (w : FlockWaiter) : FlockWaiter :=
  { w with blocker := blocker }

inductive FlockRefusal
  | mappedRelease
  | waiterDescriptorGone
  | privateTable
  | unfollowable
  /-- The caller's queued request is no longer in the model. -/
  | notQueued
  deriving DecidableEq, Repr

structure FlockInode where
  object : String
  granted : List FlockGrant
  waiters : List FlockWaiter
  hostDecided : Bool
  refused : Option FlockRefusal
  lagging : OrdMap DetPid FlockMode

inductive FlockAttempt
  | granted
  | alreadyHeld
  | unlocked
  | wouldBlock
  | blocked
  deriving DecidableEq, Repr

namespace FlockInode

def new (object : String) : FlockInode where
  object := object
  granted := []
  waiters := []
  hostDecided := false
  refused := none
  lagging := ∅

def firstConflict (i : FlockInode) (openFile : OpenFileId) (mode : FlockMode) : Option OpenFileId :=
  (i.granted.find? fun grant =>
    decide (grant.openFile ≠ openFile) && mode.conflictsWith grant.mode).map (·.openFile)

def waiter (i : FlockInode) (thread : DetTid) : Option FlockWaiter :=
  lookup FlockWaiter.thread i.waiters thread

/-- The lock of a description. -/
def grantOf (i : FlockInode) (openFile : OpenFileId) : Option FlockGrant :=
  lookup FlockGrant.openFile i.granted openFile

def wokenRequests (i : FlockInode) (except : DetTid) : Finset DetTid :=
  ((i.waiters.filter fun w => decide (w.thread ≠ except) && w.blocker.isNone).map
    (·.thread)).toFinset

def blockedList (i : FlockInode) : FlockBlocker → List DetTid
  | .lock openFile => ((i.grantOf openFile).map (·.blocked)).getD []
  | .request thread => ((i.waiter thread).map (·.blocked)).getD []

/-- Change a thread's request. -/
def updateWaiter (i : FlockInode) (thread : DetTid) (f : FlockWaiter → FlockWaiter) : FlockInode :=
  { i with waiters := amend (fun w => decide (w.thread = thread)) f i.waiters }

def setBlockedList (i : FlockInode) (node : FlockBlocker) (threads : List DetTid) : FlockInode :=
  match node with
  | .lock openFile =>
    { i with
      granted := amend (fun g => decide (g.openFile = openFile)) (.setBlocked threads) i.granted }
  | .request thread => i.updateWaiter thread (.setBlocked threads)

def setBlockers (i : FlockInode) (threads : List DetTid) (blocker : Option FlockBlocker) :
    FlockInode :=
  threads.foldl (fun i thread => i.updateWaiter thread (.setBlocker blocker)) i

def wakeBlockedUnder (i : FlockInode) (node : FlockBlocker) : FlockInode :=
  (i.setBlockedList node []).setBlockers (i.blockedList node) none

def conflictUnder (i : FlockInode) (openFile : OpenFileId) (mode : FlockMode)
    (node : FlockBlocker) : Option DetTid :=
  (i.blockedList node).find? fun other =>
    (i.waiter other).any fun w => decide (w.openFile ≠ openFile) && w.mode.conflictsWith mode

/-- One pass of the descent of `insert_block`. -/
def descendStep (i : FlockInode) (openFile : OpenFileId) (mode : FlockMode) (node : FlockBlocker) :
    FlockBlocker ⊕ FlockBlocker :=
  match i.conflictUnder openFile mode node with
  | some next => .inl (.request next)
  | none => .inr node

/-- The descent of `insert_block`, in as many passes as there are requests and one more. -/
def descend (i : FlockInode) (openFile : OpenFileId) (mode : FlockMode) (node : FlockBlocker) :
    Option FlockBlocker :=
  loop (i.descendStep openFile mode) (i.waiters.length + 1) node

def insertBlock (i : FlockInode) (thread : DetTid) (first : OpenFileId) : FlockInode :=
  match i.waiter thread with
  | none => i
  | some w =>
    match i.descend w.openFile w.mode (.lock first) with
    -- The descent would not end.
    | none => i
    | some blocker =>
      let pushed := i.setBlockedList blocker (i.blockedList blocker ++ [thread])
      let blocked := pushed.updateWaiter thread (.setBlocker (some blocker))
      blocked.wakeBlockedUnder (.request thread)

/-- Take a thread's request off the inode's list of requests. -/
def eraseWaiter (i : FlockInode) (thread : DetTid) : FlockInode :=
  { i with waiters := i.waiters.eraseP fun w => decide (w.thread = thread) }

/-- Take a description's lock off the inode's list of locks. -/
def eraseGrant (i : FlockInode) (openFile : OpenFileId) : FlockInode :=
  { i with granted := i.granted.eraseP fun g => decide (g.openFile = openFile) }

def removeWaiter (i : FlockInode) (thread : DetTid) : Option FlockWaiter × FlockInode :=
  let woken := i.wakeBlockedUnder (.request thread)
  match woken.waiter thread with
  | none => (none, woken)
  | some w =>
    let removed := woken.eraseWaiter thread
    match w.blocker with
    | none => (some w, removed)
    | some blocker =>
      (some w, removed.setBlockedList blocker
        ((removed.blockedList blocker).filter fun other => decide (other ≠ thread)))

def deleteLock (i : FlockInode) (openFile : OpenFileId) : Bool × FlockInode :=
  match i.grantOf openFile with
  | none => (false, i)
  | some _ => (true, (i.wakeBlockedUnder (.lock openFile)).eraseGrant openFile)

/-- `grant`: append a lock. The requests blocked under the thread's request are blocked under the
lock now. -/
def grant (i : FlockInode) (openFile : OpenFileId) (mode : FlockMode) (taker : DetPid)
    (thread : DetTid) : FlockInode :=
  let moved := i.blockedList (.request thread)
  let taken := (i.setBlockedList (.request thread) []).setBlockers moved (some (.lock openFile))
  { taken with
    granted := taken.granted ++
      [{ openFile := openFile, mode := mode, taker := taker, blocked := moved }] }

def attempt (i : FlockInode) (thread : DetTid) (process : DetPid) (openFile : OpenFileId)
    (mode : Option FlockMode) (nonblocking : Bool) : FlockAttempt × Bool × FlockInode :=
  let held := (i.grantOf openFile).map (·.mode)
  if held.isSome ∧ held = mode then (.alreadyHeld, false, i)
  else
    let deleted := i.deleteLock openFile
    let dropped := deleted.1
    match mode with
    | none => (.unlocked, dropped, deleted.2)
    | some mode =>
      match deleted.2.firstConflict openFile mode with
      | none => (.granted, dropped, deleted.2.grant openFile mode process thread)
      | some first =>
        if nonblocking then (.wouldBlock, dropped, deleted.2)
        else
          let queued :=
            if (deleted.2.waiter thread).isNone then
              { deleted.2 with
                waiters := deleted.2.waiters ++
                  [{ thread := thread, process := process, openFile := openFile, mode := mode,
                     blocker := none, blocked := [] }] }
            else deleted.2
          (.blocked, dropped, queued.insertBlock thread first)

def removeWaiters (i : FlockInode) (threads : List DetTid) : List OpenFileId × FlockInode :=
  threads.foldl (fun acc thread =>
    let removed := acc.2.removeWaiter thread
    (acc.1 ++ removed.1.toList.map (·.openFile), removed.2)) ([], i)

/-! ## Rows -/

inductive Visit
  | lock (grant : FlockGrant)
  | request (waiter : FlockWaiter) (depth : ℕ)

/-- One pass of the walk below a lock, over the visits made and the stack, its top first. -/
def walkStep (i : FlockInode) (walk : List Visit × List (DetTid × ℕ)) :
    (List Visit × List (DetTid × ℕ)) ⊕ List Visit :=
  match walk.2 with
  | [] => .inr walk.1
  | (thread, depth) :: stack =>
    match i.waiter thread with
    | none => .inl (walk.1, stack)
    | some w =>
      .inl (walk.1 ++ [.request w depth], w.blocked.map (fun t => (t, depth + 1)) ++ stack)

/-- The walk below one lock, in as many passes as there are requests and one more. -/
def walkBelow (i : FlockInode) (grant : FlockGrant) : Option (List Visit) :=
  loop i.walkStep (i.waiters.length + 1) ([.lock grant], grant.blocked.map fun t => (t, 1))

/-- The walk of `flock_inode_rows`: each lock whose taker the reader sees, and the tree below it. -/
def visits (i : FlockInode) (listed : DetPid → Bool) : Option (List Visit) :=
  ((i.granted.filter fun g => listed g.taker).mapM i.walkBelow).map List.flatten

end FlockInode

end Hermit.Flock
