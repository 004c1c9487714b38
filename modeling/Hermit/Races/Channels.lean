import Hermit.Common.Spans
import Hermit.Races.HappensBefore
import Hermit.Time.LogicalTime

/-!
# Data edges

`data_edges_in` of `hermit-cli/src/bin/hermit/analyze/races.rs` derives
happens-before edges from the data that went through channels: from the write
that put a byte in a pipe to the read that returned it. It collects the writes
and reads of a trace (`channel_steps`), rejects the channels whose bytes it
cannot place (the admission rules, `unfollowed_pipes` among them), and replays
the rest (`replay_channels`) with one queue of partly read writes for each
stream.

Syscall results (`i64`) are integers, counts and offsets (`u64`) are naturals,
added saturating. `Admitted` states the rules a pipe has to pass.
-/

namespace Hermit.Races

open Hermit.Common

/-! ## The access trace -/

/-- The syscalls that `data_edges_in` tells apart. -/
inductive Sysno
  | pipe
  | pipe2
  | socketpair
  | tee
  | vmsplice
  | fcntl
  | write
  | splice
  | sendfile
  | other (number : ℕ)
deriving DecidableEq

/-- `ChannelId` (`access_trace.rs`). -/
inductive ChannelId
  | pair (first : OpenFileId)
  | inode (inode : ℕ)
deriving DecidableEq

/-- The derived order: pairs first. -/
instance : LinearOrder ChannelId :=
  LinearOrder.lift' (β := OpenFileId ⊕ₗ ℕ) (fun
      | .pair first => toLex (.inl first)
      | .inode inode => toLex (.inr inode))
    fun a b h => by cases a <;> cases b <;> simp_all

/-- `ChannelKind` (`access_trace.rs`). -/
inductive ChannelKind
  | pipe
  | fifo
  | streamSocket
  | datagramSocket
  | seqpacketSocket
  | socket
  | eventfd
deriving DecidableEq

/-- `ChannelOp` (`access_trace.rs`). -/
inductive ChannelOp
  | write
  | read
  | shutdown
  | close
deriving DecidableEq

inductive FdOp
  | use
  | «open»
  | dup
  | close
deriving DecidableEq

/-- A resource access of a call: a descriptor, a channel, or one that gives no
    data edge. -/
inductive Access
  | fd (openFile : Option OpenFileId) (op : FdOp)
  | channel (openFile : OpenFileId) (id : Option ChannelId) (kind : ChannelKind) (op : ChannelOp)
  | other
deriving DecidableEq

structure SyscallRecord where
  pre : ℕ
  post : Option ℕ
  tid : DetTid
  sysno : Sysno
  args : Fin 6 → ℕ
  result : Option ℤ
  accesses : List Access
deriving DecidableEq

inductive Why
  | noPeer
  | noSocketType
  | unseenData
  | predatesTrace
  | teed
  | vmspliced
  | arrived
  | unpaired
  | untypedMetadata
  | untypedUnsaid
  | fifoSeen
  | packet
  | unplacedWrite
deriving DecidableEq

structure Untracked where
  since : ℕ
  why : Why
deriving DecidableEq

inductive ChannelKey
  | shared (id : ChannelId)
  | lone (openFile : OpenFileId)
deriving DecidableEq

instance : LinearOrder ChannelKey :=
  LinearOrder.lift' (β := ChannelId ⊕ₗ OpenFileId) (fun
      | .shared id => toLex (.inl id)
      | .lone openFile => toLex (.inr openFile))
    fun a b h => by cases a <;> cases b <;> simp_all

def channelKey (openFile : OpenFileId) (id : Option ChannelId) : ChannelKey :=
  id.elim (.lone openFile) .shared

def pipeBuf : ℕ := 4096

def oDirect : ℕ := 0x4000

def fSetfl : ℕ := 4

/-! ## The steps -/

def createsAChannelPair : Sysno → Bool
  | .pipe2 | .socketpair | .pipe => true
  | _ => false

/-- A successful creation of a pair. -/
def SyscallRecord.creates (sys : SyscallRecord) : Bool :=
  createsAChannelPair sys.sysno && decide (sys.result = some 0)

/-- The descriptions a call notes an open of. -/
def SyscallRecord.opens (sys : SyscallRecord) : List OpenFileId :=
  sys.accesses.filterMap fun
    | .fd (some openFile) .open => some openFile
    | _ => none

def unplacedWrite (sys : SyscallRecord) : Bool :=
  let waited := sys.post.all fun post => sys.pre + 1 < post
  let returnedMore := sys.result.any fun r => r < 0 ∨ (pipeBuf : ℤ) < r
  waited || match sys.sysno with
    | .write => decide (pipeBuf < sys.args 2)
    | .splice => decide (pipeBuf < sys.args 4)
    | .sendfile => decide (pipeBuf < sys.args 3)
    | _ => returnedMore

structure Step where
  atEvent : ℕ
  sys : SyscallRecord
  openFile : OpenFileId
  id : ChannelId
  kind : ChannelKind
  write : Bool
  count : ℕ
deriving DecidableEq

def Step.here (step : Step) : EventRef := ⟨step.sys.tid, step.atEvent⟩

/-- What an access of a call that moved `count` bytes gives: a step, or an end
    no step can follow. -/
inductive Moved
  | step (step : Step)
  | lost (key : ChannelKey) (why : Why)
deriving DecidableEq

/-- When and in which direction a call moved data. -/
def moment (sys : SyscallRecord) : ChannelOp → Option (Bool × ℕ)
  | .write => some (true, sys.pre)
  | .read => sys.post.map (false, ·)
  | .shutdown | .close => none

def movedBy (sys : SyscallRecord) (count : ℕ) : Access → Option Moved
  | .channel openFile id kind op =>
    (moment sys op).map fun (write, atEvent) =>
      match id, kind with
      | none, _ => .lost (channelKey openFile none) .noPeer
      | some id, .socket => .lost (channelKey openFile (some id)) .noSocketType
      | some id, kind => .step ⟨atEvent, sys, openFile, id, kind, write, count⟩
  | _ => none

/-- What one call moved: nothing unless it returned a positive count. -/
def movesOf (sys : SyscallRecord) : List Moved :=
  match sys.result with
  | none => []
  | some r => if 0 < r then sys.accesses.filterMap (movedBy sys r.toNat) else []

def orInsert (untracked : OrdMap ChannelKey Untracked) (key : ChannelKey) (why : Why) :
    OrdMap ChannelKey Untracked :=
  if untracked.contains key then untracked else untracked.insert key ⟨0, why⟩

def channelSteps (syscalls : List SyscallRecord) : List Step :=
  ((syscalls.flatMap movesOf).filterMap fun
    | .step step => some step
    | .lost _ _ => none).insertionSort fun a b => a.atEvent ≤ b.atEvent

def lostEnds (syscalls : List SyscallRecord) : OrdMap ChannelKey Untracked :=
  (syscalls.flatMap movesOf).foldl (fun untracked moved =>
    match moved with
    | .step _ => untracked
    | .lost key why => orInsert untracked key why) ∅

/-! ## The admission rules -/

/-- `created` of `unfollowed_pipes`. -/
def created (syscalls : List SyscallRecord) : OrdMap OpenFileId ChannelId :=
  (syscalls.filter (·.creates)).foldl (fun created sys =>
    match sys.opens with
    | [] => created
    | first :: rest => (first :: rest).foldl (fun m fileEnd => m.insert fileEnd (.pair first)) created)
    ∅

def arriveOne (created : OrdMap OpenFileId ChannelId) (pipes : OrdMap ChannelId Why)
    (openFile : OpenFileId) : OrdMap ChannelId Why :=
  match created[openFile]? with
  | none => pipes
  | some id => if pipes.contains id then pipes else pipes.insert id .arrived

/-- The pipes a description of which arrived by another route, after one call. -/
def arrivals (created : OrdMap OpenFileId ChannelId) (pipes : OrdMap ChannelId Why)
    (sys : SyscallRecord) : OrdMap ChannelId Why :=
  if sys.creates then pipes else sys.opens.foldl (arriveOne created) pipes

def catchAll (all : Option Why) : Access → Option Why
  | .channel _ none .pipe _ => all.or (some .unpaired)
  | .channel _ _ .fifo _ => all.or (some .fifoSeen)
  | _ => all

structure Unfollowed where
  all : Option Why
  pipes : OrdMap ChannelId Why

def unfollowedPipes (syscalls : List SyscallRecord) : Unfollowed where
  all := (syscalls.flatMap (·.accesses)).foldl catchAll none
  pipes := syscalls.foldl (arrivals (created syscalls)) ∅

def opened (syscalls : List SyscallRecord) : List OpenFileId :=
  (syscalls.filter (·.creates)).flatMap (·.opens)

def teed (syscalls : List SyscallRecord) : List ChannelId :=
  ((syscalls.filter (·.sysno = .tee)).flatMap (·.accesses)).filterMap fun
    | .channel _ (some id) _ _ => some id
    | _ => none

def vmspliced (syscalls : List SyscallRecord) : Bool := syscalls.any (·.sysno = .vmsplice)

/-- The call makes a packet pipe, or may. -/
def SyscallRecord.packets (sys : SyscallRecord) : Bool :=
  (sys.result.any fun r => 0 ≤ r) && match sys.sysno with
    | .pipe2 => decide (sys.args 1 &&& oDirect ≠ 0)
    | .fcntl => decide (sys.args 1 = fSetfl)
    | _ => false

def packetFiles (syscalls : List SyscallRecord) : List OpenFileId :=
  ((syscalls.filter (·.packets)).flatMap (·.accesses)).filterMap fun
    | .fd (some openFile) _ => some openFile
    | _ => none

def packetPipes (syscalls : List SyscallRecord) : List ChannelId :=
  ((channelSteps syscalls).filter fun step => decide (step.openFile ∈ packetFiles syscalls)).map
    (·.id)

def largePipes (syscalls : List SyscallRecord) : List ChannelId :=
  ((channelSteps syscalls).filter fun step =>
    step.write && decide (step.kind = .pipe) && unplacedWrite step.sys).map (·.id)

def createdInTrace (syscalls : List SyscallRecord) : ChannelId → Bool
  | .pair first => decide (first ∈ opened syscalls)
  | .inode _ => false

/-- Why the channel of a step gives no edge. `untyped` puts every pipe out. -/
def rejection (syscalls : List SyscallRecord) (untyped : Option Why) (step : Step) : Option Why :=
  if ¬ createdInTrace syscalls step.id then some .predatesTrace
  else
    let unfollowed := unfollowedPipes syscalls
    let all := untyped.or unfollowed.all
    match if step.kind = .pipe then all.or unfollowed.pipes[step.id]? else none with
    | some why => some why
    | none =>
      if step.id ∈ teed syscalls then some .teed
      else if vmspliced syscalls ∧ step.kind = .pipe then some .vmspliced
      else if step.id ∈ packetPipes syscalls then some .packet
      else if step.id ∈ largePipes syscalls then some .unplacedWrite
      else none

/-- One iteration of the rejecting loop. -/
def leaveOut (syscalls : List SyscallRecord) (untyped : Option Why)
    (untracked : OrdMap ChannelKey Untracked) (step : Step) : OrdMap ChannelKey Untracked :=
  match rejection syscalls untyped step with
  | none => untracked
  | some why => orInsert untracked (.shared step.id) why

def leftOut (syscalls : List SyscallRecord) (untyped : Option Why) : OrdMap ChannelKey Untracked :=
  (channelSteps syscalls).foldl (leaveOut syscalls untyped) (lostEnds syscalls)

/-- The rules a pipe has to pass to give edges. -/
structure Admitted (syscalls : List SyscallRecord) (untyped : Option Why) (id : ChannelId) :
    Prop where
  /-- The trace shows it being created -/
  created : createdInTrace syscalls id = true
  /-- Every descriptor's type is recorded -/
  typed : untyped = none
  /-- No access names a pipe without a pair, or a FIFO -/
  paired : ∀ sys ∈ syscalls, ∀ access ∈ sys.accesses, ∀ openFile op,
    access ≠ .channel openFile none .pipe op
  noFifo : ∀ sys ∈ syscalls, ∀ access ∈ sys.accesses, ∀ openFile id op,
    access ≠ .channel openFile id .fifo op
  /-- No call but its creation opened one of its descriptions -/
  followed : ∀ sys ∈ syscalls, sys.creates = false → ∀ openFile ∈ sys.opens,
    (Races.created syscalls)[openFile]? ≠ some id
  notTeed : id ∉ teed syscalls
  noVmsplice : vmspliced syscalls = false
  notPacket : id ∉ packetPipes syscalls
  /-- Every write went in whole at its entry -/
  placed : id ∉ largePipes syscalls
  /-- It is not used as a socket of unrecorded type -/
  notSocket : (lostEnds syscalls).contains (.shared id) = false

/-! ## The replay -/

/-- One direction of a channel (`StreamKey`): the channel, with the writing end
    for a socketpair. -/
abbrev StreamKey := ChannelId ×ₗ WithBot OpenFileId

instance : Std.TransOrd StreamKey := inferInstance

structure Stream where
  written : ℕ := 0
  read : ℕ := 0
  pending : List (ℕ × EventRef) := []
  lastWrite : Option EventRef := none

structure Replay where
  streams : OrdMap StreamKey Stream
  untracked : OrdMap ChannelKey Untracked

def ChannelKind.twoWay : ChannelKind → Bool
  | streamSocket | datagramSocket | seqpacketSocket => true
  | _ => false

def ChannelKind.edgeKind : ChannelKind → HbEdgeKind
  | datagramSocket | seqpacketSocket => .datagram
  | eventfd => .eventfd
  | _ => .channelBytes

/-- How far a step moves the stream. -/
def Step.size (step : Step) : ℕ := if step.kind.edgeKind = .channelBytes then step.count else 1

def Step.writer (step : Step) : WithBot OpenFileId := if step.kind.twoWay then step.openFile else ⊥

/-- A stream after a write. -/
def Stream.push (stream : Stream) (step : Step) : Stream where
  written := satAdd u64Max stream.written step.size
  read := stream.read
  pending := stream.pending ++ [(satAdd u64Max stream.written step.size, step.here)]
  lastWrite := some step.here

/-- The stream a read takes from. -/
def streamOf (streams : OrdMap StreamKey Stream) (step : Step) : Option (StreamKey × Stream) :=
  streams.toList.find? fun (key, _) => decide ((ofLex key).1 = step.id) &&
    (!step.kind.twoWay || decide ((ofLex key).2 ≠ step.openFile))

/-- How far a read of the stream reads. -/
def Stream.upto (stream : Stream) (step : Step) : ℕ :=
  if step.kind.edgeKind = .eventfd then stream.written
  else satAdd u64Max stream.read step.size

def Step.edgeFrom (step : Step) (source : EventRef) : HbEdge :=
  ⟨source, step.here, step.kind.edgeKind⟩

/-- `untracked.insert(key, ..)` at a read of unseen data. -/
def Replay.lose (s : Replay) (step : Step) : Replay :=
  { s with untracked := s.untracked.insert (.shared step.id) ⟨step.atEvent, .unseenData⟩ }

def lastFed (step : Step) (stream : Option (StreamKey × Stream)) : Option EventRef :=
  if step.kind.edgeKind = .eventfd then
    (stream.filter fun s => s.2.pending.isEmpty).bind (·.2.lastWrite)
  else none

def Replay.readStep (s : Replay) (step : Step) : Replay × List HbEdge :=
  let found := streamOf s.streams step
  match lastFed step found with
  | some source => (s, [step.edgeFrom source])
  | none =>
    match found with
    | none => (s.lose step, [])
    | some (key, stream) =>
      if stream.read < stream.upto step ∧ stream.upto step ≤ stream.written then
        let (taken, rest) := consume (stream.upto step) stream.pending
        ({ s with
          streams := s.streams.insert key
            { stream with pending := rest, read := stream.upto step } },
          taken.map step.edgeFrom)
      else (s.lose step, [])

def Replay.writeStep (s : Replay) (step : Step) : Replay :=
  let key : StreamKey := toLex (step.id, step.writer)
  { s with streams := s.streams.insert key ((s.streams[key]?.getD {}).push step) }

def Replay.step (s : Replay) (step : Step) : Replay × List HbEdge :=
  if s.untracked.contains (.shared step.id) then (s, [])
  else if step.write then (s.writeStep step, [])
  else s.readStep step

def replayChannels : Replay → List Step → List (List HbEdge)
  | _, [] => []
  | s, step :: steps => (s.step step).2 :: replayChannels (s.step step).1 steps

def edgesByStep (syscalls : List SyscallRecord) (untyped : Option Why) : List (List HbEdge) :=
  replayChannels ⟨∅, leftOut syscalls untyped⟩ (channelSteps syscalls)

def dataEdges (syscalls : List SyscallRecord) (untyped : Option Why) : List HbEdge :=
  (edgesByStep syscalls untyped).flatten

end Hermit.Races
