import Hermit.Flock.Inode

/-!
# The lock ledger

Which descriptor tables and queued messages reference each open file description, and the `flock`
locks kept with them (`LockLedger` in `detcore/src/procfs/locks.rs`). A description's lock goes with
its last reference: a slot of some process's table, a copy in flight over `SCM_RIGHTS`, or a call
that waits for a lock through it.

Of what the ledger knows of other locks only what these references depend on is kept: which
descriptions' locks are known (`locks`), and the locks on placeholder directories.
-/

namespace Hermit.Flock

open Common

abbrev FlockInodeKey := ℕ

abbrev Table := ℕ

structure FlockRequest where
  inode : FlockInodeKey
  object : String
  openFile : OpenFileId
  /-- How many slots of the caller's table name the description. -/
  slots : ℕ
  /-- `none` for `LOCK_UN`. -/
  mode : Option FlockMode
  nonblocking : Bool
  mapped : Bool
  hostFallback : Bool

inductive FlockOutcome
  | granted (lagging : List DetPid)
  | released
  | wouldBlock (dropped : Bool)
  | queued (dropped : Bool)
  | hostDecided
  | refused (reason : FlockRefusal)

/-- What a waiter found in its own turn. -/
inductive FlockPoll
  | granted (lagging : List DetPid)
  | waiting (dropped woke : Bool)
  | hostDecided
  | refused (reason : FlockRefusal)

/-- A `flock` through a descriptor served as a directory on a placeholder. -/
structure PlaceholderFlock where
  key : ℕ
  openFile : OpenFileId
  mode : Option FlockMode
  nonblocking : Bool
  slots : ℕ

inductive PlaceholderFlockOutcome
  | done
  | wouldBlock
  | contended
  | unfollowable
  | inFlight
  deriving DecidableEq, Repr

structure Ledger where
  nextTable : Table
  processTable : OrdMap DetPid Table
  owners : OrdMap Table (Finset DetPid)
  references : OrdMap OpenFileId (OrdMap Table ℕ)
  locks : Finset OpenFileId
  afterExec : OrdMap DetPid (Finset OpenFileId)
  execPending : Finset DetPid
  placeholderFlocks : OrdMap ℕ (OrdMap OpenFileId FlockMode)
  tainted : Finset DetPid
  inFlight : OrdMap OpenFileId ℕ
  flockInodes : OrdMap FlockInodeKey FlockInode
  flockInodeOf : OrdMap OpenFileId FlockInodeKey
  flockMappers : OrdMap OpenFileId (Finset DetPid)
  flockExiting : List DetPid
  flockHostFallback : Bool
  flockTornDown : Finset DetPid

namespace Ledger

/-- Nothing is known. -/
def empty : Ledger where
  nextTable := 0
  processTable := ∅
  owners := ∅
  references := ∅
  locks := ∅
  afterExec := ∅
  execPending := ∅
  placeholderFlocks := ∅
  tainted := ∅
  inFlight := ∅
  flockInodes := ∅
  flockInodeOf := ∅
  flockMappers := ∅
  flockExiting := []
  flockHostFallback := false
  flockTornDown := ∅

def setFlockInode (s : Ledger) (key : FlockInodeKey) (i : FlockInode) : Ledger :=
  { s with flockInodes := s.flockInodes.insert key i }

/-- Change an inode that is kept. -/
def modifyInode (s : Ledger) (key : FlockInodeKey) (f : FlockInode → FlockInode) : Ledger :=
  match s.flockInodes[key]? with
  | none => s
  | some i => s.setFlockInode key (f i)

/-! ## References -/

def useTable (s : Ledger) (process : DetPid) (table : Table) : Ledger :=
  { s with
    processTable := s.processTable.insert process table
    owners := s.owners.insert table (insert process (s.owners[table]?.getD ∅)) }

def tableOf (s : Ledger) (process : DetPid) : Table × Ledger :=
  match s.processTable[process]? with
  | some table => (table, s)
  | none =>
    (s.nextTable, { s with nextTable := s.nextTable + 1 }.useTable process s.nextTable)

def flockWaitedOn (s : Ledger) (openFile : OpenFileId) : Bool :=
  (OrdMap.values s.flockInodes).any fun i =>
    i.waiters.any fun w => decide (w.openFile = openFile)

/-- Record that an exit released a lock whose host teardown is not reported. -/
def noteLagging (i : FlockInode) (released : FlockMode) (process : DetPid) : FlockInode :=
  let mode := i.lagging[process]?.getD released
  { i with
    lagging := i.lagging.insert process (if released = .exclusive then .exclusive else mode) }

/-- What `flock_last_reference` does to the inode of a description, once nothing waits through it. -/
def releaseLast (s : Ledger) (openFile : OpenFileId) (mappers : Finset DetPid) (i : FlockInode) :
    FlockInode :=
  match i.grantOf openFile with
  | none => i
  | some g =>
    let deleted := (i.deleteLock openFile).2
    if mappers.Nonempty then
      if s.flockHostFallback then { deleted with hostDecided := true }
      else { deleted with refused := deleted.refused.or (some .mappedRelease) }
    else
      (s.flockExiting.filter fun process => decide (process ∉ s.flockTornDown)).foldl
        (fun i process => noteLagging i g.mode process) deleted

/-- The model follows a description no longer. -/
def unfollow (s : Ledger) (openFile : OpenFileId) : Ledger :=
  { s with
    flockMappers := s.flockMappers.erase openFile
    flockInodeOf := s.flockInodeOf.erase openFile }

def flockLastReference (s : Ledger) (openFile : OpenFileId) : Ledger :=
  match s.flockInodeOf[openFile]? with
  | none => s
  | some key =>
    if s.flockWaitedOn openFile then s
    else
      let mappers := (s.flockMappers[openFile]?.getD ∅).filter fun process =>
        process ∉ s.flockExiting
      (s.unfollow openFile).modifyInode key (s.releaseLast openFile mappers)

def forget (s : Ledger) (openFile : OpenFileId) : Ledger :=
  { s with locks := s.locks.erase openFile }

/-- No table names the description any longer. -/
def unreference (s : Ledger) (openFile : OpenFileId) : Ledger :=
  { s with references := s.references.erase openFile }

/-- The placeholder locks of a description go. -/
def dropPlaceholderFlocks (s : Ledger) (openFile : OpenFileId) : Ledger :=
  { s with
    placeholderFlocks := (s.placeholderFlocks.map fun _ holders =>
      holders.erase openFile).filter fun _ holders => !holders.isEmpty }

def setReferences (s : Ledger) (openFile : OpenFileId) (table : Table) (slots : ℕ) : Ledger :=
  let before := s.references[openFile]?.getD ∅
  let references := if slots = 0 then before.erase table else before.insert table slots
  if references.isEmpty then
    let gone := s.unreference openFile
    if gone.inFlight.contains openFile then gone.dropPlaceholderFlocks openFile
    -- No copy in flight holds the description's locks either.
    else ((gone.forget openFile).flockLastReference openFile).dropPlaceholderFlocks openFile
  else { s with references := s.references.insert openFile references }

/-- No copy of the description is in flight any longer. -/
def uncounted (s : Ledger) (openFile : OpenFileId) : Ledger :=
  { s with inFlight := s.inFlight.erase openFile }

def uncountCopy (s : Ledger) (openFile : OpenFileId) : Ledger :=
  match s.inFlight[openFile]? with
  | none => s
  | some count =>
    if count - 1 = 0 then
      let gone := s.uncounted openFile
      if gone.references.contains openFile then gone
      else (gone.forget openFile).flockLastReference openFile
    else { s with inFlight := s.inFlight.insert openFile (count - 1) }

def countCopy (s : Ledger) (openFile : OpenFileId) : Ledger :=
  { s with inFlight := s.inFlight.insert openFile (s.inFlight[openFile]?.getD 0 + 1) }

/-- `follow`: the references of a description, from a call through a descriptor. -/
def follow (s : Ledger) (process : DetPid) (openFile : OpenFileId) (slots : ℕ) : Ledger :=
  (s.tableOf process).2.setReferences openFile (s.tableOf process).1 slots

def knowLocks (s : Ledger) (openFile : OpenFileId) : Ledger :=
  if s.references.contains openFile then { s with locks := insert openFile s.locks } else s

/-- `note`: a call through a descriptor showed the description's locks. -/
def note (s : Ledger) (process : DetPid) (openFile : OpenFileId) (slots : ℕ) : Ledger :=
  (s.follow process openFile slots).knowLocks openFile

def release (s : Ledger) (process : DetPid) (openFile : OpenFileId) (remaining : ℕ) : Ledger :=
  if remaining = 0 ∧ process ∈ s.tainted then s
  else match s.processTable[process]? with
    | none => s
    | some table => s.setReferences openFile table remaining

/-- The owners of a table use it no longer. -/
def disown (s : Ledger) (table : Table) : Ledger :=
  let holders := s.owners[table]?.getD ∅
  { s with
    owners := s.owners.erase table
    processTable := s.processTable.filter fun process used =>
      !(decide (process ∈ holders) && decide (used = table)) }

def dropTable (s : Ledger) (table : Table) : Ledger :=
  s.references.keys.foldl (fun s openFile => s.setReferences openFile table 0) (s.disown table)

def leaveTable (s : Ledger) (process : DetPid) (table : Table) : Ledger :=
  { s with
    processTable := s.processTable.erase process
    owners :=
      match s.owners[table]? with
      | none => s.owners
      | some owners => s.owners.insert table (owners.erase process) }

def forgetProcess (s : Ledger) (process : DetPid) : Ledger :=
  match s.processTable[process]? with
  | none => s
  | some table =>
    let left := s.leaveTable process table
    if left.owners[table]?.getD ∅ = ∅ then left.dropTable table else left

def holdsPlaceholderFlock (s : Ledger) (openFile : OpenFileId) : Bool :=
  (OrdMap.values s.placeholderFlocks).any fun holders => holders.contains openFile

def holdsModelFlock (s : Ledger) (openFile : OpenFileId) : Bool :=
  s.flockInodeOf[openFile]?.any fun key =>
    s.flockInodes[key]?.any fun i => i.granted.any fun g => decide (g.openFile = openFile)

/-! ## Waiting calls -/

def flockRemoveWaiters (s : Ledger) (gone : FlockWaiter → Bool) : List OpenFileId × Ledger :=
  let threads := fun i : FlockInode => (i.waiters.filter gone).map (·.thread)
  (s.flockInodes.toList.flatMap fun entry => (entry.2.removeWaiters (threads entry.2)).1,
    { s with flockInodes := s.flockInodes.map fun _ i => (i.removeWaiters (threads i)).2 })

def flockWaiterLeft (s : Ledger) (openFile : OpenFileId) : Ledger :=
  if !s.references.contains openFile && !s.inFlight.contains openFile &&
      !s.flockWaitedOn openFile then s.flockLastReference openFile
  else s

def flockDropWaiters (s : Ledger) (gone : FlockWaiter → Bool) : Ledger :=
  let removed := s.flockRemoveWaiters gone
  removed.1.foldl flockWaiterLeft removed.2

def flockWaiterInode (s : Ledger) (thread : DetTid) : Option FlockInodeKey :=
  (s.flockInodes.toList.find? fun entry => (entry.2.waiter thread).isSome).map Prod.fst

/-! ## Processes -/

/-- What a child takes from its parent and from an earlier process of its number, the tables
apart. -/
def inherit (s : Ledger) (parent child : DetPid) : Ledger :=
  let tainted := s.tainted.erase child
  { s with
    afterExec := s.afterExec.erase child
    execPending := s.execPending.erase child
    tainted := if parent ∈ tainted then insert child tainted else tainted
    flockTornDown := s.flockTornDown.erase child
    flockMappers := s.flockMappers.map fun _ mappers =>
      if parent ∈ mappers then insert child mappers else mappers }

def copyTable (table copy : Table) (tables : OrdMap Table ℕ) : OrdMap Table ℕ :=
  match tables[table]? with
  | some slots => tables.insert copy slots
  | none => tables

def copyReferences (s : Ledger) (table copy : Table) : Ledger :=
  { s with references := s.references.map fun _ tables => copyTable table copy tables }

def fork (s : Ledger) (parent child : DetPid) (sharesTable : Bool) : Ledger :=
  let started := (s.forgetProcess child).inherit parent child
  match started.processTable[parent]? with
  | none => started
  | some table =>
    if sharesTable then started.useTable child table
    else (started.tableOf child).2.copyReferences table (started.tableOf child).1

def slotsOf (s : Ledger) (table : Table) : List (OpenFileId × ℕ) :=
  s.references.toList.filterMap fun entry => entry.2[table]?.map fun slots => (entry.1, slots)

/-- What `exec` finds in the table the process leaves: the descriptions that hold a `flock`, with
their slots, and the others whose locks are known. -/
def execTable (s : Ledger) (process : DetPid) : List (OpenFileId × ℕ) × Finset OpenFileId :=
  let named := (s.processTable[process]?.map s.slotsOf).getD []
  let holds := fun entry : OpenFileId × ℕ =>
    s.holdsPlaceholderFlock entry.1 || s.holdsModelFlock entry.1
  (named.filter holds, ((named.filter fun entry => !holds entry && decide (entry.1 ∈ s.locks)).map
      Prod.fst).toFinset)

def alsoNamed (table : Table) (references : OrdMap OpenFileId (OrdMap Table ℕ))
    (entry : OpenFileId × ℕ) : OrdMap OpenFileId (OrdMap Table ℕ) :=
  match references[entry.1]? with
  | none => references
  | some tables => references.insert entry.1 (tables.insert table entry.2)

/-- The process moves to a new table, which names the descriptions that hold a `flock` until the
exec names the ones that survive it. -/
def moveTable (s : Ledger) (process : DetPid) (held : List (OpenFileId × ℕ)) : Ledger :=
  let referenced :=
    { s with
      nextTable := s.nextTable + 1
      references := held.foldl (alsoNamed s.nextTable) s.references }
  (referenced.forgetProcess process).useTable process s.nextTable

/-- A process maps nothing any longer. -/
def unmap (s : Ledger) (process : DetPid) : Ledger :=
  { s with
    flockMappers := s.flockMappers.map fun _ (mappers : Finset DetPid) => mappers.erase process }

def keepAside (s : Ledger) (process : DetPid) (held : List (OpenFileId × ℕ))
    (kept : Finset OpenFileId) : Ledger :=
  { s with
    afterExec := s.afterExec.insert process kept
    execPending :=
      if held.isEmpty then s.execPending.erase process else insert process s.execPending }

def exec (s : Ledger) (process : DetPid) : Ledger :=
  let ended := (s.flockDropWaiters fun w => decide (w.process = process)).unmap process
  let found := ended.execTable process
  (ended.moveTable process found.1).keepAside process found.1 found.2

/-- A description that survived an exec. -/
def keepSurvivor (table : Table) (kept : Finset OpenFileId) (s : Ledger)
    (survivor : OpenFileId × ℕ) : Ledger :=
  if survivor.1 ∈ s.locks ∨ survivor.1 ∈ kept then
    (s.setReferences survivor.1 table survivor.2).knowLocks survivor.1
  else s

/-- The descriptions that held a `flock` and are not among the survivors are let go. -/
def closePending (s : Ledger) (process : DetPid) (table : Table)
    (surviving : List (OpenFileId × ℕ)) : Ledger :=
  if process ∈ s.execPending then
    let closed := (s.slotsOf table).filter fun entry =>
      !surviving.any fun survivor => decide (survivor.1 = entry.1 ∧ 0 < survivor.2)
    closed.foldl (fun s entry => s.setReferences entry.1 table 0)
      { s with execPending := s.execPending.erase process }
  else s

def execKept (s : Ledger) (process : DetPid) (surviving : List (OpenFileId × ℕ)) : Ledger :=
  let kept := s.afterExec[process]?.getD ∅
  let made := { s with afterExec := s.afterExec.erase process }.tableOf process
  surviving.foldl (keepSurvivor made.1 kept) (made.2.closePending process made.1 surviving)

def exitingProcesses (s : Ledger) (alive : DetPid → Bool) : List DetPid :=
  let mappers := (OrdMap.values s.flockMappers).flatMap fun mappers : Finset DetPid =>
    mappers.sort (· ≤ ·)
  let waiting := (OrdMap.values s.flockInodes).flatMap fun i => i.waiters.map (·.process)
  ((s.processTable.keys ++ mappers ++ waiting).filter fun process => !alive process).dedup

/-- Drop the tables no living process owns, then those exited processes still hold. -/
def pruneTables (s : Ledger) (alive : DetPid → Bool) : Ledger :=
  let gone := (s.owners.toList.filter fun entry : Table × Finset DetPid =>
    decide (entry.2.filter (alive · = true) = ∅)).map Prod.fst
  let dropped := gone.foldl dropTable s
  (dropped.processTable.keys.filter fun process => !alive process).foldl forgetProcess dropped

def setExiting (s : Ledger) (exiting : List DetPid) : Ledger :=
  { s with
    flockExiting := exiting
    flockMappers := s.flockMappers.map fun _ (mappers : Finset DetPid) =>
      mappers.filter (· ∉ exiting) }

/-- What is kept by process, for living ones. -/
def retainAlive (s : Ledger) (alive : DetPid → Bool) : Ledger :=
  { s with
    tainted := s.tainted.filter (alive · = true)
    afterExec := s.afterExec.filter fun process _ => alive process
    execPending := s.execPending.filter (alive · = true) }

/-- `prune`: drop what belongs to processes that exited. -/
def prune (s : Ledger) (alive : DetPid → Bool) : Ledger :=
  let exiting := s.exitingProcesses alive
  -- The requests leave now, their calls' own references once the tables are gone.
  let removed := (s.setExiting exiting).flockRemoveWaiters fun w => decide (w.process ∈ exiting)
  let pruned := (removed.2.retainAlive alive).pruneTables alive
  { removed.1.foldl flockWaiterLeft pruned with flockExiting := [] }

/-! ## Leaving the model -/

def referencedByTainted (s : Ledger) (openFile : OpenFileId) : Bool :=
  s.references[openFile]?.any fun tables => tables.keys.any fun table =>
    s.owners[table]?.any fun owners => decide (∃ owner ∈ owners, owner ∈ s.tainted)

/-- The locks on a placeholder directory; a directory with none has no entry. -/
def setHolders (s : Ledger) (key : ℕ) (holders : OrdMap OpenFileId FlockMode) : Ledger :=
  { s with
    placeholderFlocks :=
      (s.placeholderFlocks.insert key holders).filter fun _ holders => !holders.isEmpty }

def placeholderFlock (s : Ledger) (process : DetPid) (request : PlaceholderFlock) :
    PlaceholderFlockOutcome × Ledger :=
  if request.mode.isSome ∧ process ∈ s.tainted then (.unfollowable, s)
  else if request.mode.isSome ∧ s.inFlight.contains request.openFile then (.inFlight, s)
  else
    let noted := s.note process request.openFile request.slots
    let holders := noted.placeholderFlocks[request.key]?.getD ∅
    let held := holders[request.openFile]?
    let without := holders.erase request.openFile
    match request.mode with
    | none => (.done, noted.setHolders request.key without)
    | some mode =>
      if held = some mode then (.done, noted.setHolders request.key holders)
      else
        let conflicting := (holders.toList.filter fun entry =>
          decide (entry.1 ≠ request.openFile) && mode.conflictsWith entry.2).map Prod.fst
        if conflicting.any noted.referencedByTainted then (.unfollowable, noted)
        else if conflicting.isEmpty then
          (.done, noted.setHolders request.key (without.insert request.openFile mode))
        else if request.nonblocking then (.wouldBlock, noted.setHolders request.key without)
        else (.contended, noted.setHolders request.key holders)

def flockConflictsUncertain (s : Ledger) (key : FlockInodeKey) (request : FlockRequest) : Bool :=
  request.mode.any fun mode => s.flockInodes[key]?.any fun i => i.granted.any fun g =>
    decide (g.openFile ≠ request.openFile) && mode.conflictsWith g.mode &&
      s.referencedByTainted g.openFile

def leaveModel (s : Ledger) (key : FlockInodeKey) (reason : FlockRefusal) : Ledger :=
  s.modifyInode key fun i =>
    if s.flockHostFallback then { i with hostDecided := true }
    else { i with refused := i.refused.or (some reason) }

def flockUncertain (s : Ledger) (key : FlockInodeKey) : Ledger := s.leaveModel key .privateTable

def markPrivateTables (s : Ledger) (process : DetPid) : Ledger :=
  let marked := { s with tainted := insert process s.tainted }
  let referenced := fun openFile => marked.references[openFile]?.any fun tables =>
    tables.keys.any fun table => marked.owners[table]?.any fun owners => decide (process ∈ owners)
  let keys := (marked.flockInodes.toList.filter fun entry =>
    !entry.2.hostDecided && entry.2.refused.isNone &&
      (entry.2.granted.map (·.openFile) ++ entry.2.waiters.map (·.openFile)).any referenced).map
    Prod.fst
  keys.foldl flockUncertain marked

def flockUnfollowable (s : Ledger) (openFile : OpenFileId) : Ledger :=
  match s.flockInodeOf[openFile]? with
  | none => s
  | some key => s.leaveModel key .unfollowable

def flockExecRebuildsTable (s : Ledger) (process : DetPid) : Ledger :=
  match s.processTable[process]? with
  | none => s
  | some table => ((s.slotsOf table).map Prod.fst).foldl flockUnfollowable s

def keepInode (s : Ledger) (key : FlockInodeKey) (object : String) : Ledger :=
  if s.flockInodes.contains key then s
  else s.setFlockInode key (.new object)

def flockHostDecided (s : Ledger) (key : FlockInodeKey) (object : String) : Ledger :=
  (s.keepInode key object).modifyInode key fun i => { i with hostDecided := true }

/-- `flock_close_refusal`: why a close would release a lock the model cannot place the release
of. -/
def flockCloseRefusal (s : Ledger) (process : DetPid) (openFile : OpenFileId) (remaining : ℕ)
    (mapped mapsInode : Bool) : Option FlockRefusal × Ledger :=
  match s.flockInodeOf[openFile]?.bind fun key => s.flockInodes[key]? with
  | none => (none, s)
  | some i =>
    let tables := s.references[openFile]?.getD ∅
    let last := remaining = 0 ∧ ¬s.inFlight.contains openFile ∧ ¬s.flockWaitedOn openFile ∧
      ∀ table ∈ tables.keys, some table = s.processTable[process]?
    if i.hostDecided ∨ (i.grantOf openFile).isNone ∨ ¬last then (none, s)
    else
      let mappers := s.flockMappers[openFile]?.getD ∅
      if (∃ mapper ∈ mappers, mapper ≠ process) ∨ mapped ∧ mapsInode then
        (some .mappedRelease, s)
      else (none, { s with flockMappers := s.flockMappers.erase openFile })

def addMapper (s : Ledger) (process : DetPid) (openFile : OpenFileId) : Ledger :=
  { s with
    flockMappers := s.flockMappers.insert openFile
      (insert process (s.flockMappers[openFile]?.getD ∅)) }

def flockMapped (s : Ledger) (process : DetPid) (openFile : OpenFileId) : Ledger :=
  if s.flockInodeOf.contains openFile then s.addMapper process openFile else s

/-- `flock_torn_down`. -/
def tearDown (s : Ledger) (process : DetPid) : Ledger :=
  { s with
    flockTornDown := insert process s.flockTornDown
    flockInodes := s.flockInodes.map fun _ i => { i with lagging := i.lagging.erase process } }

/-! ## Calls -/

def flockTakeLagging (s : Ledger) (key : FlockInodeKey) (mode : FlockMode) : List DetPid × Ledger :=
  match s.flockInodes[key]? with
  | none => ([], s)
  | some i =>
    let taken := (i.lagging.toList.filter fun entry =>
      mode.conflictsWith entry.2 && decide (entry.1 ∉ s.flockTornDown)).map Prod.fst
    (taken, s.modifyInode key fun i =>
      { i with lagging := taken.foldl (fun lagging process => lagging.erase process) i.lagging })

def flockAttempt (s : Ledger) (key : FlockInodeKey) (thread : DetTid) (process : DetPid)
    (openFile : OpenFileId) (mode : Option FlockMode) (nonblocking : Bool) :
    Option (FlockAttempt × Bool × Ledger) :=
  s.flockInodes[key]?.map fun i =>
    let result := i.attempt thread process openFile mode nonblocking
    (result.1, result.2.1, s.setFlockInode key result.2.2)

/-- The inode a description's locks are kept on. -/
def setInode (s : Ledger) (openFile : OpenFileId) (key : FlockInodeKey) : Ledger :=
  { s with flockInodeOf := s.flockInodeOf.insert openFile key }

/-- The description of a call is followed, with its inode and the caller's mapping. -/
def enterCall (s : Ledger) (process : DetPid) (request : FlockRequest) : Ledger :=
  let followed := (s.follow process request.openFile request.slots).setInode request.openFile
    request.inode
  if request.mapped then followed.addMapper process request.openFile else followed

/-- What a call does before its first attempt: its description is followed, and a request left under
its thread's number is dropped. -/
def followCall (s : Ledger) (process : DetPid) (thread : DetTid) (request : FlockRequest) :
    Ledger :=
  (s.enterCall process request).flockDropWaiters fun w => decide (w.thread = thread)

/-- Whether the kernel decides an inode the model cannot, from the last call. -/
def setHostFallback (s : Ledger) (hostFallback : Bool) : Ledger :=
  { s with flockHostFallback := hostFallback }

/-- What a call finds before it looks at the locks. -/
def openCall (s : Ledger) (process : DetPid) (request : FlockRequest) : Ledger :=
  let kept := (s.setHostFallback request.hostFallback).keepInode request.inode request.object
  if process ∈ kept.tainted ∨ kept.flockConflictsUncertain request.inode request then
    kept.flockUncertain request.inode
  else kept

def flock (s : Ledger) (process : DetPid) (thread : DetTid) (request : FlockRequest) :
    FlockOutcome × Ledger :=
  let opened := s.openCall process request
  match opened.flockInodes[request.inode]? with
  | none => (.hostDecided, opened)
  | some i =>
    match i.refused with
    | some reason => (.refused reason, opened)
    | none =>
      if i.hostDecided then (.hostDecided, opened)
      else
        let followed := opened.followCall process thread request
        match followed.flockAttempt request.inode thread process request.openFile request.mode
            request.nonblocking with
        | none => (.hostDecided, followed)
        | some (.granted, _, s) =>
          match request.mode with
          | none => (.granted [], s)
          | some mode =>
            let taken := s.flockTakeLagging request.inode mode
            (.granted taken.1, taken.2)
        | some (.alreadyHeld, _, s) => (.granted [], s)
        | some (.unlocked, _, s) => (.released, s)
        | some (.wouldBlock, dropped, s) => (.wouldBlock dropped, s)
        | some (.blocked, dropped, s) => (.queued dropped, s)

def flockTableNames (s : Ledger) (process : DetPid) (openFile : OpenFileId) : Bool :=
  s.processTable[process]?.any fun table =>
    s.references[openFile]?.any fun tables => tables.contains table

def flockKeptByAMappingAlone (s : Ledger) (thread : DetTid) (openFile : OpenFileId) : Bool :=
  !s.references.contains openFile && !s.inFlight.contains openFile &&
    !((OrdMap.values s.flockInodes).any fun i => i.waiters.any fun w =>
      decide (w.openFile = openFile) && decide (w.thread ≠ thread)) &&
    s.flockMappers[openFile]?.any fun mappers =>
      decide (∃ process ∈ mappers, process ∉ s.flockExiting)

/-- The retry of a woken call, whose request asks for `mode` through `openFile`. -/
def flockRetry (s : Ledger) (key : FlockInodeKey) (i : FlockInode) (w : FlockWaiter) :
    FlockPoll × Ledger :=
  let wokenBefore := i.wokenRequests w.thread
  let mine := fun other : FlockWaiter => decide (other.thread = w.thread)
  match s.flockAttempt key w.thread w.process w.openFile (some w.mode) false with
  | none => (.hostDecided, s)
  | some (.blocked, dropped, s) =>
    let hostKeeps := s.references.contains w.openFile || s.inFlight.contains w.openFile ||
      s.flockMappers.contains w.openFile
    let woke := s.flockInodes[key]?.any fun i =>
      decide (i.wokenRequests w.thread ≠ wokenBefore)
    (.waiting (dropped && hostKeeps) woke, s)
  | some (.granted, _, s) =>
    if s.flockHostFallback && s.flockKeptByAMappingAlone w.thread w.openFile then
      -- No descriptor of the caller could place the lock on the host: it is given back.
      (.refused .waiterDescriptorGone,
        (s.modifyInode key fun i => (i.deleteLock w.openFile).2).flockDropWaiters mine)
    else
      let taken :=
        if s.flockTableNames w.process w.openFile then s.flockTakeLagging key w.mode else ([], s)
      (.granted taken.1, taken.2.flockDropWaiters mine)
  | some (_, _, s) => (.granted [], s.flockDropWaiters mine)

def flockPoll (s : Ledger) (thread : DetTid) : FlockPoll × Ledger :=
  match s.flockWaiterInode thread with
  | none => (.refused .notQueued, s)
  | some key =>
    match s.flockInodes[key]? with
    | none => (.refused .notQueued, s)
    | some i =>
      if i.refused.isSome ∨ i.hostDecided then
        let removed := i.removeWaiter thread
        let poll := match i.refused with
          | some reason => FlockPoll.refused reason
          | none => .hostDecided
        (poll, (removed.1.toList.map (·.openFile)).foldl flockWaiterLeft
          (s.setFlockInode key removed.2))
      else match i.waiter thread with
        | none => (.refused .notQueued, s)
        | some w =>
          if w.blocker.isSome then (.waiting false false, s) else s.flockRetry key i w

/-- `flock_cancel`: a waiting call ends without a lock. -/
def flockCancel (s : Ledger) (thread : DetTid) : Ledger :=
  s.flockDropWaiters fun w => decide (w.thread = thread)

end Ledger

/-! ## Runs -/

/-- What the ledger is told. -/
inductive Event
  | flock (process : DetPid) (thread : DetTid) (request : FlockRequest)
  | poll (thread : DetTid)
  | cancel (thread : DetTid)
  | close (process : DetPid) (openFile : OpenFileId) (remaining : ℕ)
  /-- A close is about to be made. -/
  | closing (process : DetPid) (openFile : OpenFileId) (remaining : ℕ) (mapped mapsInode : Bool)
  | fork (parent child : DetPid) (sharesTable : Bool)
  | exec (process : DetPid)
  | execKept (process : DetPid) (surviving : List (OpenFileId × ℕ))
  /-- A send over `SCM_RIGHTS` is queued. -/
  | sending (openFiles : List OpenFileId)
  /-- Queued copies are released unreceived. -/
  | unsent (openFiles : List OpenFileId)
  /-- A copy is received, after the receiver's table took its reference. -/
  | received (openFile : OpenFileId)
  /-- A call through a descriptor shows the description's locks. -/
  | note (process : DetPid) (openFile : OpenFileId) (slots : ℕ)
  | placeholderFlock (process : DetPid) (request : PlaceholderFlock)
  /-- Processes exited. -/
  | prune (alive : DetPid → Bool)
  | markPrivateTables (process : DetPid)
  | unfollowable (openFile : OpenFileId)
  | execRebuildsTable (process : DetPid)
  | hostDecided (key : FlockInodeKey) (object : String)
  | mapped (process : DetPid) (openFile : OpenFileId)
  | tornDown (process : DetPid)

namespace Ledger

def step (s : Ledger) : Event → Ledger
  | .flock process thread request => (s.flock process thread request).2
  | .poll thread => (s.flockPoll thread).2
  | .cancel thread => s.flockCancel thread
  | .close process openFile remaining => s.release process openFile remaining
  | .closing process openFile remaining mapped mapsInode =>
    (s.flockCloseRefusal process openFile remaining mapped mapsInode).2
  | .fork parent child sharesTable => s.fork parent child sharesTable
  | .exec process => s.exec process
  | .execKept process surviving => s.execKept process surviving
  | .sending openFiles =>
    if openFiles.any s.holdsPlaceholderFlock then s
    else openFiles.foldl countCopy s
  | .unsent openFiles => openFiles.foldl uncountCopy s
  | .received openFile => s.uncountCopy openFile
  | .note process openFile slots => s.note process openFile slots
  | .placeholderFlock process request => (s.placeholderFlock process request).2
  | .prune alive => s.prune alive
  | .markPrivateTables process => s.markPrivateTables process
  | .unfollowable openFile => s.flockUnfollowable openFile
  | .execRebuildsTable process => s.flockExecRebuildsTable process
  | .hostDecided key object => s.flockHostDecided key object
  | .mapped process openFile => s.flockMapped process openFile
  | .tornDown process => s.tearDown process

def run (events : List Event) : Ledger := events.foldl step empty

end Ledger

end Hermit.Flock
