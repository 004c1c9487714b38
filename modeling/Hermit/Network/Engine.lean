import Hermit.Common.Run
import Hermit.Network.Trace

/-!
# The network engine

The state machine of `detcore-model/src/network_engine.rs`: the guest-visible
state of each outbound TCP channel, in record mode (fed with what the runtime
pulled from the host) and in replay mode (fed with the inputs of a trace as
they fall due).

A Rust method on `&mut self` that returns `Result` keeps what it wrote before
it failed, so every operation here returns the next state beside its result.
Only `replay_send` indexes and subtracts; `Panic` is what these would do on a
bad index.
-/

namespace Hermit.Network

open Hermit.Common

/-! ## Requests and replies -/

/-- Something the recorder pulled from a host socket (`NetworkArrival`). -/
inductive NetworkArrival
  | bytes (bytes : Bytes)
  | peerWriteClosed
  | error (errno : ℤ)
deriving DecidableEq

inductive NetworkRecvOutcome
  | data (bytes : Bytes)
  | eof
  | error (errno : ℤ)
  | wouldBlock
deriving DecidableEq

inductive NetworkEngineError
  | wrongMode
  | unknownChannel (id : OpenFileId)
  | channelExists (id : OpenFileId)
  | notInTrace (id : OpenFileId)
  | peerMismatch (channel : OpenFileId) (recorded attempted : NetworkAddressV1)
  | outboundMismatch (channel : OpenFileId) (offset : ℕ)
  | outboundBeyondRecording (channel : OpenFileId) (offset : ℕ)
  | blockingSendAtRefusal (channel : OpenFileId) (offset : ℕ)
  | nonblockingSendAtWait (channel : OpenFileId) (offset : ℕ)
  | interleavedSend (channel : OpenFileId) (offset : ℕ)
  | invalidArrival (id : OpenFileId)
  | trace (error : NetworkTraceValidationError)
  | untraceablePeer (peer : NetworkAddressV1)
  | replayStalled (channel : OpenFileId) (needed sent : ℕ)
  | replayUnconnected (id : OpenFileId)
  | replayUnsent (channel : OpenFileId) (sent recorded : ℕ)
  | replayUnrefused (channel : OpenFileId) (offset : ℕ)
deriving DecidableEq

structure SendMark where
  offset : ℕ
  events : ℕ
deriving DecidableEq

inductive NetworkRequest
  | recordConnect (id : OpenFileId) (peer : NetworkAddressV1) (localAddress : Option NetworkAddressV1)
      (errno : ℤ) (nonblocking : Bool)
  | replayConnect (id : OpenFileId) (peer : NetworkAddressV1) (nonblocking : Bool)
  | recv (id : OpenFileId) (arrivals : List NetworkArrival) (maxLen target : ℕ) (peek : Bool)
  | readiness (channels : List (OpenFileId × ℕ × List NetworkArrival))
  | takeError (id : OpenFileId)
  | sendFailure (id : OpenFileId)
  | recordSend (id : OpenFileId) (bytes : Bytes) (mark : Option SendMark) (waits : ℕ)
  | recordRefusedSend (id : OpenFileId)
  | replaySend (id : OpenFileId) (bytes : Bytes) (nonblocking : Bool) (waits : ℕ)
  | shutdown (id : OpenFileId) (how : ℤ)
  | addresses (id : OpenFileId)
deriving DecidableEq

inductive ReplaySendOutcome
  | sent (count : ℕ)
  | wouldBlock
  | notYet
deriving DecidableEq

inductive NetworkReply
  | errno (errno : ℤ)
  | failure (errno : Option ℤ)
  | recv (outcome : NetworkRecvOutcome)
  | events (events : List ℕ)
  | sent (count : ℕ)
  | recorded (mark : SendMark)
  | wouldBlock
  | notYet
  | addresses (addresses : Option (Option NetworkAddressV1 × NetworkAddressV1))
deriving DecidableEq

/-- What a debug build's arithmetic or a slice index would do. -/
inductive Panic
  | subtractOverflow
  | sliceOutOfRange
deriving DecidableEq

/-! ## Constants of `libc` -/

def einprogress : ℤ := 115
def epipe : ℤ := 32
def enotconn : ℤ := 107
def einval : ℤ := 22

def shutRdHow : ℤ := 0
def shutWrHow : ℤ := 1
def shutRdwrHow : ℤ := 2

def pollin : ℕ := 0x1
def pollout : ℕ := 0x4
def pollerr : ℕ := 0x8
def pollhup : ℕ := 0x10
def pollrdnorm : ℕ := 0x40
def pollwrnorm : ℕ := 0x100
def pollrdhup : ℕ := 0x2000

def replayStallLimit : LogicalTime := LogicalTime.clamp 60000000000

/-! ## Channels -/

structure Channel where
  record : NetworkChannelV2
  /-- Released bytes the guest has not read yet. -/
  rx : Bytes
  /-- Stream offset just past the last released byte. -/
  rxEnd : ℕ
  peerClosed : Bool
  /-- The connection was reset or failed: both directions are shut down. -/
  reset : Bool
  /-- A socket error the guest has not consumed yet. -/
  pendingError : Option ℤ
  /-- Bytes the guest has transmitted. -/
  tx : ℕ
  /-- Record: output events recorded, accepted chunks and refused sends. -/
  outputEvents : ℕ
  shutRd : Bool
  shutWr : Bool
  /-- Replay: inputs not yet released, in order. -/
  pendingInputs : List NetworkInputEventV1
  /-- Replay: outbound fragments not yet fully matched, in order. -/
  expectedOutputs : List NetworkOutputV4
deriving DecidableEq

namespace Channel

def new (record : NetworkChannelV2) : Channel where
  record := record
  rx := []
  rxEnd := 0
  peerClosed := false
  reset := record.connectErrno ≠ 0
  pendingError := none
  tx := 0
  outputEvents := 0
  shutRd := false
  shutWr := false
  pendingInputs := []
  expectedOutputs := []

def connect (c : Channel) (nonblocking : Bool) : Channel × ℤ :=
  let errno := c.record.connectErrno
  if nonblocking then
    ({ c with pendingError := if errno ≠ 0 then some errno else none }, einprogress)
  else (c, errno)

def sendMark (c : Channel) : SendMark := ⟨c.tx, c.outputEvents⟩

def inputEnded (c : Channel) : Bool := c.peerClosed || c.reset

def apply (c : Channel) : NetworkInputKindV1 → Channel
  | .inboundBytes _ bytes => { c with rxEnd := c.rxEnd + bytes.length, rx := c.rx ++ bytes }
  | .peerWriteClosed _ => { c with peerClosed := true }
  | .socketError _ errno => { c with reset := true, pendingError := some errno }

def checkStalled (c : Channel) (now : LogicalTime) : Except NetworkEngineError Unit :=
  match c.pendingInputs with
  | [] => .ok ()
  | input :: _ =>
    if c.tx < input.release.afterTransmittedOffset ∧
        input.release.notBeforeGlobalTime + replayStallLimit ≤ now then
      .error (.replayStalled c.record.id input.release.afterTransmittedOffset c.tx)
    else .ok ()

def releaseLoop (now : LogicalTime) : List NetworkInputEventV1 → Channel → Channel
  | [], c => { c with pendingInputs := [] }
  | input :: rest, c =>
    if input.release.isEligible now c.tx then releaseLoop now rest (c.apply input.event)
    else { c with pendingInputs := input :: rest }

def release (c : Channel) (now : LogicalTime) : Channel := releaseLoop now c.pendingInputs c

/-- The outcome of a receive or poll that finds nothing to report. -/
def orStalled (c : Channel) (now : LogicalTime) {α : Type} (result : α) :
    Channel × Except NetworkEngineError α :=
  match c.checkStalled now with
  | .ok _ => (c, .ok result)
  | .error e => (c, .error e)

def recvReleased (c : Channel) (now : LogicalTime) (maxLen target : ℕ) (peek : Bool) :
    Channel × Except NetworkEngineError NetworkRecvOutcome :=
  let available := c.rx.length
  -- After `SHUT_RD` Linux still delivers the bytes already queued, then
  -- reports end of file without waiting.
  if 0 < available ∧ (max target 1 ≤ available ∨ c.inputEnded = true ∨ c.shutRd = true ∨
      c.pendingError.isSome = true) then
    let len := min available maxLen
    let bytes := c.rx.take len
    (if peek then c else { c with rx := c.rx.drop len }, .ok (.data bytes))
  else if available = 0 then
    -- Linux consumes a pending error even under MSG_PEEK.
    match c.pendingError with
    | some errno => ({ c with pendingError := none }, .ok (.error errno))
    | none =>
      if c.inputEnded || c.shutRd then (c, .ok .eof) else c.orStalled now .wouldBlock
  else c.orStalled now .wouldBlock

def recv (c : Channel) (now : LogicalTime) (maxLen target : ℕ) (peek : Bool) :
    Channel × Except NetworkEngineError NetworkRecvOutcome :=
  (c.release now).recvReleased now maxLen target peek

def pollEvents (c : Channel) (lowat : ℕ) : ℕ :=
  let rcvShutdown := c.shutRd || c.inputEnded
  let sndShutdown := c.shutWr || c.reset
  let events := if (rcvShutdown && sndShutdown) || c.reset then pollhup else 0
  let events :=
    if rcvShutdown then events ||| pollin ||| pollrdnorm ||| pollrdhup
    else if max lowat 1 ≤ c.rx.length then events ||| pollin ||| pollrdnorm
    else events
  -- Linux reports a socket shut down for writing as writable, so that
  -- the write fails instead of blocking.
  let events := events ||| pollout ||| pollwrnorm
  if c.pendingError.isSome then events ||| pollerr else events

def readiness (c : Channel) (now : LogicalTime) (lowat : ℕ) :
    Channel × Except NetworkEngineError ℕ :=
  let c := c.release now
  c.orStalled now (c.pollEvents lowat)

def takeError (c : Channel) (now : LogicalTime) : Channel × Except NetworkEngineError ℤ :=
  let c := c.release now
  ({ c with pendingError := none }, .ok (c.pendingError.getD 0))

def sendFailure (c : Channel) (now : LogicalTime) :
    Channel × Except NetworkEngineError (Option ℤ) :=
  let c := c.release now
  if c.reset || c.shutWr then
    ({ c with pendingError := none }, .ok (some (c.pendingError.getD epipe)))
  else (c, .ok none)

def shutdown (c : Channel) (how : ℤ) : Channel × Except NetworkEngineError ℤ :=
  if c.record.connectErrno ≠ 0 then (c, .ok enotconn)
  else if how = shutRdHow then ({ c with shutRd := true }, .ok 0)
  else if how = shutWrHow then ({ c with shutWr := true }, .ok 0)
  else if how = shutRdwrHow then ({ c with shutRd := true, shutWr := true }, .ok 0)
  else (c, .ok einval)

def firstDifference (expected actual : Bytes) (len : ℕ) : ℕ :=
  ((expected.zip actual).findIdx? fun p => p.1 ≠ p.2).getD len

def replaySend (c : Channel) (id : OpenFileId) (bytes : Bytes) (nonblocking : Bool)
    (now : LogicalTime) (waits : ℕ) :
    Except Panic (Channel × Except NetworkEngineError ReplaySendOutcome) :=
  if bytes = [] then .ok (c, .ok (.sent 0))
  else
    let offset := c.tx
    match c.expectedOutputs with
    | [] => .ok (c, .error (.outboundBeyondRecording id offset))
    | fragment :: rest =>
      if fragment.bytes = [] then
        if !nonblocking then .ok (c, .error (.blockingSendAtRefusal id offset))
        else .ok ({ c with expectedOutputs := rest }, .ok .wouldBlock)
      else if offset < fragment.streamOffset then .error .subtractOverflow
      else
        let start := offset - fragment.streamOffset
        match (if start = 0 then fragment.wait else none) with
        | some wait =>
          if nonblocking then .ok (c, .error (.nonblockingSendAtWait id offset))
          else if waits < wait.waits ∨ now < wait.notBeforeGlobalTime then .ok (c, .ok .notYet)
          else matchFragment start offset fragment rest
        | none => matchFragment start offset fragment rest
where
  /-- The comparison with the rest of the fragment. -/
  matchFragment (start offset : ℕ) (fragment : NetworkOutputV4) (rest : List NetworkOutputV4) :
      Except Panic (Channel × Except NetworkEngineError ReplaySendOutcome) :=
    if fragment.bytes.length < start then .error .sliceOutOfRange
    else
      let remaining := fragment.bytes.drop start
      let len := min remaining.length bytes.length
      if remaining.take len ≠ bytes.take len then
        .ok (c, .error (.outboundMismatch id (offset + firstDifference remaining bytes len)))
      else
        .ok ({ c with
          tx := c.tx + len
          expectedOutputs := if len = remaining.length then rest else c.expectedOutputs },
          .ok (.sent len))

end Channel

/-! ## The engine -/

inductive Mode
  | record (epoch : UtcDateTime) (inputs : List NetworkInputEventV1)
      (outputs : List NetworkOutputV4)
  /-- `unconnected`: recorded channels the guest has not connected yet. -/
  | replay (unconnected : OrdMap OpenFileId Channel)

structure NetworkEngine where
  mode : Mode
  channels : OrdMap OpenFileId Channel

namespace NetworkEngine

def newRecord (epoch : UtcDateTime) : NetworkEngine := ⟨.record epoch [] [], ∅⟩

def pushInput (unconnected : OrdMap OpenFileId Channel) (input : NetworkInputEventV1) :
    OrdMap OpenFileId Channel :=
  match unconnected[input.channel]? with
  | some c => unconnected.insert input.channel { c with pendingInputs := c.pendingInputs ++ [input] }
  | none => unconnected

def pushOutput (unconnected : OrdMap OpenFileId Channel) (output : NetworkOutputV4) :
    OrdMap OpenFileId Channel :=
  match unconnected[output.channel]? with
  | some c =>
    unconnected.insert output.channel { c with expectedOutputs := c.expectedOutputs ++ [output] }
  | none => unconnected

def newReplay (trace : NetworkTraceV2) : NetworkEngine :=
  let unconnected : OrdMap OpenFileId Channel :=
    trace.channels.foldl (fun m record => m.insert record.id (Channel.new record)) ∅
  let unconnected := trace.inputs.foldl pushInput unconnected
  let unconnected := trace.outputs.foldl pushOutput unconnected
  ⟨.replay unconnected, ∅⟩

def isRecord (e : NetworkEngine) : Bool :=
  match e.mode with
  | .record .. => true
  | .replay _ => false

def onChannel {α : Type} (e : NetworkEngine) (id : OpenFileId)
    (f : Channel → Channel × Except NetworkEngineError α) :
    NetworkEngine × Except NetworkEngineError α :=
  match e.channels[id]? with
  | none => (e, .error (.unknownChannel id))
  | some c => ({ e with channels := e.channels.insert id (f c).1 }, (f c).2)

def connected (e : NetworkEngine) (channel : Channel) (nonblocking : Bool) : NetworkEngine × ℤ :=
  ({ e with channels := e.channels.insert channel.record.id (channel.connect nonblocking).1 },
    (channel.connect nonblocking).2)

def connectRecord (id : OpenFileId) (peer : NetworkAddressV1)
    (localAddress : Option NetworkAddressV1) (errno : ℤ) : NetworkChannelV2 where
  id := id
  transport := .tcp
  role := .outboundClient
  localAddress := if errno = 0 then localAddress else none
  peerAddress := peer
  connectErrno := errno

def recordConnect (e : NetworkEngine) (id : OpenFileId) (peer : NetworkAddressV1)
    (localAddress : Option NetworkAddressV1) (errno : ℤ) (nonblocking : Bool) :
    NetworkEngine × Except NetworkEngineError ℤ :=
  if !e.isRecord then (e, .error .wrongMode)
  else if e.channels.contains id then (e, .error (.channelExists id))
  else if !peer.isTraceablePeer then (e, .error (.untraceablePeer peer))
  else
    let (e, result) :=
      e.connected (Channel.new (connectRecord id peer localAddress errno)) nonblocking
    (e, .ok result)

def replayConnect (e : NetworkEngine) (id : OpenFileId) (peer : NetworkAddressV1)
    (nonblocking : Bool) : NetworkEngine × Except NetworkEngineError ℤ :=
  if e.channels.contains id then (e, .error (.channelExists id))
  else
    match e.mode with
    | .record .. => (e, .error .wrongMode)
    | .replay unconnected =>
      match unconnected[id]? with
      | none => (e, .error (.notInTrace id))
      | some channel =>
        let recorded := channel.record.peerAddress
        if recorded ≠ peer then (e, .error (.peerMismatch id recorded peer))
        else
          let (e, result) :=
            { e with mode := .replay (unconnected.erase id) }.connected channel nonblocking
          (e, .ok result)

def addresses (e : NetworkEngine) (id : OpenFileId) :
    Option (Option NetworkAddressV1 × NetworkAddressV1) :=
  e.channels[id]?.map fun c => (c.record.localAddress, c.record.peerAddress)

def needsPull (e : NetworkEngine) (id : OpenFileId) : Bool :=
  e.isRecord && e.channels[id]?.any fun c => !c.inputEnded

def arrivalEvent (streamOffset : ℕ) : NetworkArrival → NetworkInputKindV1
  | .bytes bytes => .inboundBytes streamOffset bytes
  | .peerWriteClosed => .peerWriteClosed streamOffset
  | .error errno => .socketError streamOffset errno

def recordArrival (e : NetworkEngine) (id : OpenFileId) (now : LogicalTime)
    (arrival : NetworkArrival) : NetworkEngine × Except NetworkEngineError Unit :=
  match e.channels[id]? with
  | none => (e, .error (.unknownChannel id))
  | some channel =>
    match e.mode with
    | .replay _ => (e, .error .wrongMode)
    | .record epoch inputs outputs =>
      if channel.inputEnded = true ∨ arrival = .bytes [] then (e, .error (.invalidArrival id))
      else
        let event := arrivalEvent channel.rxEnd arrival
        let input : NetworkInputEventV1 := ⟨inputs.length, id, ⟨now, channel.tx⟩, event⟩
        (⟨.record epoch (inputs ++ [input]) outputs, e.channels.insert id (channel.apply event)⟩,
          .ok ())

def recordArrivals (id : OpenFileId) (now : LogicalTime) :
    NetworkEngine → List NetworkArrival → NetworkEngine × Except NetworkEngineError Unit
  | e, [] => (e, .ok ())
  | e, arrival :: arrivals =>
    if !e.needsPull id then (e, .ok ())
    else
      match e.recordArrival id now arrival with
      | (e, .error x) => (e, .error x)
      | (e, .ok _) => recordArrivals id now e arrivals

def recordSend (e : NetworkEngine) (id : OpenFileId) (sent : Bytes) (mark : Option SendMark)
    (now : LogicalTime) (waits : ℕ) : NetworkEngine × Except NetworkEngineError SendMark :=
  match e.channels[id]? with
  | none => (e, .error (.unknownChannel id))
  | some channel =>
    match e.mode with
    | .replay _ => (e, .error .wrongMode)
    | .record epoch inputs outputs =>
      match mark.filter fun m => m ≠ channel.sendMark with
      | some m => (e, .error (.interleavedSend id m.offset))
      | none =>
        if sent = [] then (e, .ok channel.sendMark)
        else
          let output : NetworkOutputV4 :=
            ⟨id, channel.tx, sent, if 0 < waits then some ⟨waits, now⟩ else none⟩
          let channel := { channel with
            tx := channel.tx + sent.length, outputEvents := channel.outputEvents + 1 }
          (⟨.record epoch inputs (outputs ++ [output]), e.channels.insert id channel⟩,
            .ok channel.sendMark)

def recordRefusedSend (e : NetworkEngine) (id : OpenFileId) :
    NetworkEngine × Except NetworkEngineError Unit :=
  match e.channels[id]? with
  | none => (e, .error (.unknownChannel id))
  | some channel =>
    match e.mode with
    | .replay _ => (e, .error .wrongMode)
    | .record epoch inputs outputs =>
      let output : NetworkOutputV4 := ⟨id, channel.tx, [], none⟩
      (⟨.record epoch inputs (outputs ++ [output]),
        e.channels.insert id { channel with outputEvents := channel.outputEvents + 1 }⟩, .ok ())

def replaySend (e : NetworkEngine) (id : OpenFileId) (bytes : Bytes) (nonblocking : Bool)
    (now : LogicalTime) (waits : ℕ) :
    Except Panic (NetworkEngine × Except NetworkEngineError ReplaySendOutcome) :=
  if e.isRecord then .ok (e, .error .wrongMode)
  else
    match e.channels[id]? with
    | none => .ok (e, .error (.unknownChannel id))
    | some c => do
      let (c, result) ← c.replaySend id bytes nonblocking now waits
      return ({ e with channels := e.channels.insert id c }, result)

def readinessEntry (e : NetworkEngine) (now : LogicalTime)
    (entry : OpenFileId × ℕ × List NetworkArrival) : NetworkEngine × Except NetworkEngineError ℕ :=
  match recordArrivals entry.1 now e entry.2.2 with
  | (e, .error x) => (e, .error x)
  | (e, .ok _) => e.onChannel entry.1 fun c => c.readiness now entry.2.1

def readinessLoop (now : LogicalTime) :
    NetworkEngine → List (OpenFileId × ℕ × List NetworkArrival) →
      NetworkEngine × Except NetworkEngineError (List ℕ)
  | e, [] => (e, .ok [])
  | e, entry :: entries =>
    match e.readinessEntry now entry with
    | (e, .error x) => (e, .error x)
    | (e, .ok events) =>
      let (e, rest) := readinessLoop now e entries
      (e, rest.map (events :: ·))

def recvRequest (e : NetworkEngine) (now : LogicalTime) (id : OpenFileId)
    (arrivals : List NetworkArrival) (maxLen target : ℕ) (peek : Bool) :
    NetworkEngine × Except NetworkEngineError NetworkRecvOutcome :=
  match recordArrivals id now e arrivals with
  | (e, .error x) => (e, .error x)
  | (e, .ok _) => e.onChannel id fun c => c.recv now maxLen target peek

def replaySendReply : ReplaySendOutcome → NetworkReply
  | .sent count => .sent count
  | .wouldBlock => .wouldBlock
  | .notYet => .notYet

/-- The result of an operation, as the reply `f` makes of it. -/
def replyWith {α : Type} (f : α → NetworkReply) (r : NetworkEngine × Except NetworkEngineError α) :
    NetworkEngine × Except NetworkEngineError NetworkReply := (r.1, r.2.map f)

def apply (e : NetworkEngine) (now : LogicalTime) (request : NetworkRequest) :
    Except Panic (NetworkEngine × Except NetworkEngineError NetworkReply) :=
  match request with
  | .recordConnect id peer localAddress errno nonblocking =>
    .ok (replyWith .errno (e.recordConnect id peer localAddress errno nonblocking))
  | .replayConnect id peer nonblocking =>
    .ok (replyWith .errno (e.replayConnect id peer nonblocking))
  | .recv id arrivals maxLen target peek =>
    .ok (replyWith .recv (e.recvRequest now id arrivals maxLen target peek))
  | .readiness channels => .ok (replyWith .events (readinessLoop now e channels))
  | .takeError id => .ok (replyWith .errno (e.onChannel id fun c => c.takeError now))
  | .sendFailure id => .ok (replyWith .failure (e.onChannel id fun c => c.sendFailure now))
  | .recordSend id bytes mark waits =>
    .ok (replyWith .recorded (e.recordSend id bytes mark now waits))
  | .recordRefusedSend id =>
    .ok (replyWith (fun _ => .wouldBlock) (e.recordRefusedSend id))
  | .replaySend id bytes nonblocking waits =>
    (e.replaySend id bytes nonblocking now waits).map (replyWith replaySendReply)
  | .shutdown id how => .ok (replyWith .errno (e.onChannel id fun c => c.shutdown how))
  | .addresses id => .ok (e, .ok (.addresses (e.addresses id)))

def finishReplay (e : NetworkEngine) : Except NetworkEngineError Unit :=
  match e.mode with
  | .record .. => .error .wrongMode
  | .replay unconnected =>
    match unconnected.keys with
    | id :: _ => .error (.replayUnconnected id)
    | [] => e.channels.toList.forM fun (id, channel) =>
      match channel.expectedOutputs.getLast? with
      | none => .ok ()
      | some last =>
        let recorded := last.streamOffset + last.bytes.length
        .error (if channel.tx < recorded then .replayUnsent id channel.tx recorded
          else .replayUnrefused id channel.tx)

def finish (e : NetworkEngine) : Except NetworkEngineError NetworkTraceV2 :=
  match e.mode with
  | .replay _ => .error .wrongMode
  | .record epoch inputs outputs =>
    let trace : NetworkTraceV2 := {
      epoch := epoch
      channels := e.channels.toList.map (·.2.record)
      inputs := inputs
      outputs := outputs }
    match trace.validate with
    | .error x => .error (.trace x)
    | .ok _ => .ok trace

def step (e : NetworkEngine) (r : LogicalTime × NetworkRequest) :
    Except Panic (NetworkEngine × Except NetworkEngineError NetworkReply) := e.apply r.1 r.2

end NetworkEngine

/-! ## A channel for the examples -/

def sampleSocket : OpenFileId := OpenFileId.newSocket 3 0
def samplePeer : NetworkAddressV1 := .inet4 #v[127, 0, 0, 1] 80
def sampleLocal : NetworkAddressV1 := .inet4 #v[127, 0, 0, 1] 4000

end Hermit.Network
