import Hermit.Ids
import Hermit.Time.LogicalTime

/-!
# Network traces

The data model of `detcore-model/src/network_trace.rs` and the validator of
the multi-channel trace, `NetworkTraceV2::validate` (lines 653-754). A trace
holds the channels a recording connected, the inputs it observed and the
outbound fragments it sent, each in one global order.

`u64` offsets and counts are naturals; every `checked_add` of the validator is
explicit.
-/

namespace Hermit.Network

open Hermit.Common

/-- A byte string, `Vec<u8>`. -/
abbrev Bytes := List UInt8

/-! ## Addresses -/

def ipv4IsUnspecified (address : Vector UInt8 4) : Bool := address.toList = [0, 0, 0, 0]

def ipv4IsMulticast (address : Vector UInt8 4) : Bool :=
  (224 : UInt8) ≤ address[0] ∧ address[0] ≤ 239

def ipv4IsLoopback (address : Vector UInt8 4) : Bool := address[0] = 127

def ipv4IsBroadcast (address : Vector UInt8 4) : Bool := address.toList = [255, 255, 255, 255]

def ipv6ToIpv4Mapped (address : Vector UInt8 16) : Option (Vector UInt8 4) :=
  if address.toList.take 12 = [0, 0, 0, 0, 0, 0, 0, 0, 0, 0, 255, 255] then
    some #v[address[12], address[13], address[14], address[15]]
  else none

def ipv6IsUnspecified (address : Vector UInt8 16) : Bool :=
  address.toList = List.replicate 16 0

def ipv6IsMulticast (address : Vector UInt8 16) : Bool := address[0] = 255

inductive NetworkAddressV1
  | inet4 (address : Vector UInt8 4) (port : UInt16)
  | inet6 (address : Vector UInt8 16) (port : UInt16) (flowinfo scopeId : UInt32)
deriving DecidableEq

namespace NetworkAddressV1

def port : NetworkAddressV1 → UInt16
  | inet4 _ port => port
  | inet6 _ port _ _ => port

def isUnroutable : NetworkAddressV1 → Bool
  | inet4 address _ =>
    ipv4IsUnspecified address || ipv4IsMulticast address || ipv4IsBroadcast address
  | inet6 address _ _ _ =>
    -- Linux connects an IPv4-mapped address over IPv4.
    match ipv6ToIpv4Mapped address with
    | some mapped => ipv4IsUnspecified mapped || ipv4IsMulticast mapped || ipv4IsBroadcast mapped
    | none => ipv6IsUnspecified address || ipv6IsMulticast address

def isTraceablePeer (a : NetworkAddressV1) : Bool := a.port ≠ 0 && !a.isUnroutable

def sameFamily : NetworkAddressV1 → NetworkAddressV1 → Bool
  | inet4 _ _, inet4 _ _ => true
  | inet6 _ _ _ _, inet6 _ _ _ _ => true
  | _, _ => false

end NetworkAddressV1

/-! ## Channels, inputs and outputs -/

inductive NetworkTransportV1
  | tcp
deriving DecidableEq

inductive NetworkEndpointRoleV1
  | outboundClient
deriving DecidableEq

structure NetworkChannelV2 where
  id : OpenFileId
  transport : NetworkTransportV1
  role : NetworkEndpointRoleV1
  localAddress : Option NetworkAddressV1
  peerAddress : NetworkAddressV1
  connectErrno : ℤ
deriving DecidableEq

/-- Conditions that must both hold before an input becomes observable
    (`NetworkReleaseV1`). -/
structure NetworkReleaseV1 where
  notBeforeGlobalTime : LogicalTime
  afterTransmittedOffset : ℕ
deriving DecidableEq

def NetworkReleaseV1.isEligible (r : NetworkReleaseV1) (committedGlobalTime : LogicalTime)
    (validatedTransmittedOffset : ℕ) : Bool :=
  r.notBeforeGlobalTime ≤ committedGlobalTime ∧
    r.afterTransmittedOffset ≤ validatedTransmittedOffset

inductive NetworkInputKindV1
  | inboundBytes (streamOffset : ℕ) (bytes : Bytes)
  | peerWriteClosed (streamOffset : ℕ)
  | socketError (streamOffset : ℕ) (errno : ℤ)
deriving DecidableEq

structure NetworkInputEventV1 where
  ordinal : ℕ
  channel : OpenFileId
  release : NetworkReleaseV1
  event : NetworkInputKindV1
deriving DecidableEq

structure NetworkSendWaitV4 where
  waits : ℕ
  notBeforeGlobalTime : LogicalTime
deriving DecidableEq

/-- One recorded outbound fragment (`NetworkOutputV4`). A fragment with no
    bytes records a nonblocking send refused with `EAGAIN`. -/
structure NetworkOutputV4 where
  channel : OpenFileId
  streamOffset : ℕ
  bytes : Bytes
  wait : Option NetworkSendWaitV4
deriving DecidableEq

structure UtcDateTime where
  timestamp : ℤ
  timestampSubsecNanos : ℕ
deriving DecidableEq

def UtcDateTime.timestampSubsecMicros (t : UtcDateTime) : ℕ := t.timestampSubsecNanos / 1000

structure NetworkTraceV2 where
  epoch : UtcDateTime
  channels : List NetworkChannelV2
  inputs : List NetworkInputEventV1
  outputs : List NetworkOutputV4
deriving DecidableEq

/-! ## The part of a trace that belongs to one channel -/

def NetworkInputKindV1.payload : NetworkInputKindV1 → Bytes
  | .inboundBytes _ bytes => bytes
  | .peerWriteClosed _ => []
  | .socketError _ _ => []

def payloads (inputs : List NetworkInputEventV1) : Bytes := inputs.flatMap (·.event.payload)

def inputsOf (id : OpenFileId) (inputs : List NetworkInputEventV1) : List NetworkInputEventV1 :=
  inputs.filter (·.channel = id)

/-- The outbound fragments of one channel. -/
def outputsOf (id : OpenFileId) (outputs : List NetworkOutputV4) : List NetworkOutputV4 :=
  outputs.filter (·.channel = id)

def recordOf (id : OpenFileId) (channels : List NetworkChannelV2) : Option NetworkChannelV2 :=
  (channels.filter (·.id = id)).getLast?

@[simp] theorem payloads_nil : payloads [] = [] := rfl

theorem payloads_append (a b : List NetworkInputEventV1) :
    payloads (a ++ b) = payloads a ++ payloads b := by
  simp [payloads]

theorem inputsOf_append (id : OpenFileId) (a b : List NetworkInputEventV1) :
    inputsOf id (a ++ b) = inputsOf id a ++ inputsOf id b := by
  simp [inputsOf]

theorem recordOf_id {id : OpenFileId} {channels : List NetworkChannelV2} {record : NetworkChannelV2}
    (h : recordOf id channels = some record) : record ∈ channels ∧ record.id = id := by
  have hmem := List.mem_of_getLast? h
  simpa using List.mem_filter.mp hmem

theorem recordOf_isSome {id : OpenFileId} {channels : List NetworkChannelV2} :
    (∃ record, recordOf id channels = some record) ↔ ∃ record ∈ channels, record.id = id := by
  constructor
  · rintro ⟨record, h⟩
    exact ⟨record, recordOf_id h⟩
  · rintro ⟨record, hmem, hid⟩
    have hne : channels.filter (·.id = id) ≠ [] :=
      List.ne_nil_of_mem (List.mem_filter.mpr ⟨hmem, by simpa using hid⟩)
    exact ⟨_, List.getLast?_eq_some_getLast hne⟩

/-! ## Validation -/

inductive NetworkTraceValidationError
  | channelCount (count : ℕ)
  | epochOutOfRange
  | nonSocketChannelIdentity
  | scheduleDependentChannelIdentity
  | addressFamilyMismatch
  | unsupportedPeerAddress
  | unknownChannel
  | nonCanonicalOrdinal
  | releaseBeforeEpoch
  | nonMonotonicRelease
  | unreachableTransmitWatermark
  | emptyByteChunk
  | nonContiguousInput
  | nonContiguousOutput
  | streamOffsetOverflow
  | invalidErrno
  | nonTerminalSocketError
  | eventAfterTerminal
  | duplicateChannel
  | trafficOnFailedChannel
  | waitOnRefusedSend
  | zeroSendWaits
  | sendWaitBeforeEpoch
  | nonMonotonicSendWait
deriving DecidableEq

def okOr {ε α : Type} : Option α → ε → Except ε α
  | some a, _ => .ok a
  | none, e => .error e

def epochGlobalTime (epoch : UtcDateTime) : Except NetworkTraceValidationError LogicalTime := do
  let seconds ← okOr (if 0 ≤ epoch.timestamp then some epoch.timestamp.toNat else none)
    .epochOutOfRange
  let wholeSeconds ← okOr (checkedMul seconds 1000000000) .epochOutOfRange
  let fractionalMicros ← okOr (checkedMul epoch.timestampSubsecMicros 1000) .epochOutOfRange
  if h : wholeSeconds + fractionalMicros ≤ u64Max then
    return ⟨wholeSeconds + fractionalMicros, h⟩
  else throw .epochOutOfRange

def validateChannel (channels : OrdMap OpenFileId NetworkChannelV2) (channel : NetworkChannelV2) :
    Except NetworkTraceValidationError (OrdMap OpenFileId NetworkChannelV2) := do
  unless channel.id.isSocket do throw .nonSocketChannelIdentity
  unless channel.peerAddress.isTraceablePeer do throw .unsupportedPeerAddress
  if channel.localAddress.any fun l => !l.sameFamily channel.peerAddress then
    throw .addressFamilyMismatch
  if ¬ (0 ≤ channel.connectErrno ∧ channel.connectErrno ≤ 4095) ∨
      decide (channel.connectErrno = 0) ≠ channel.localAddress.isSome then
    throw .invalidErrno
  if channels.contains channel.id then throw .duplicateChannel
  return channels.insert channel.id channel

structure OutputCursors where
  totalOutput : OrdMap OpenFileId ℕ
  lastWait : OrdMap OpenFileId LogicalTime

def validateOutput (epochStart : LogicalTime) (channels : OrdMap OpenFileId NetworkChannelV2)
    (s : OutputCursors) (output : NetworkOutputV4) :
    Except NetworkTraceValidationError OutputCursors := do
  let channel ← okOr channels[output.channel]? .unknownChannel
  if channel.connectErrno ≠ 0 then throw .trafficOnFailedChannel
  let offset := s.totalOutput[output.channel]?.getD 0
  if output.streamOffset ≠ offset then throw .nonContiguousOutput
  let offset ← okOr (checkedAdd offset output.bytes.length) .streamOffsetOverflow
  let totalOutput := s.totalOutput.insert output.channel offset
  match output.wait with
  | none => return { s with totalOutput := totalOutput }
  | some wait =>
    -- A refused send returned without waiting, so it has no wait.
    if output.bytes = [] then throw .waitOnRefusedSend
    if wait.waits = 0 then throw .zeroSendWaits
    if wait.notBeforeGlobalTime < epochStart then throw .sendWaitBeforeEpoch
    let previous := s.lastWait[output.channel]?.getD epochStart
    if wait.notBeforeGlobalTime < previous then throw .nonMonotonicSendWait
    return ⟨totalOutput, s.lastWait.insert output.channel wait.notBeforeGlobalTime⟩

/-- `EAGAIN` and `EINTR` on Linux. -/
def eagain : ℤ := 11

@[inherit_doc eagain] def eintr : ℤ := 4

def validateInputKind (event : NetworkInputKindV1) (offset : ℕ) :
    Except NetworkTraceValidationError ℕ :=
  match event with
  | .inboundBytes streamOffset bytes => do
    if bytes = [] then throw .emptyByteChunk
    if streamOffset ≠ offset then throw .nonContiguousInput
    okOr (checkedAdd offset bytes.length) .streamOffsetOverflow
  | .peerWriteClosed streamOffset => do
    if streamOffset ≠ offset then throw .nonContiguousInput
    return offset
  | .socketError streamOffset errno => do
    if streamOffset ≠ offset then throw .nonContiguousInput
    if ¬ (1 ≤ errno ∧ errno ≤ 4095) then throw .invalidErrno
    if errno = eagain ∨ errno = eintr then throw .nonTerminalSocketError
    return offset

structure InboundCursor where
  offset : ℕ
  txWatermark : ℕ
  terminal : Bool

structure InputCursors where
  index : ℕ
  cursors : OrdMap OpenFileId InboundCursor
  previousTime : LogicalTime

def NetworkInputKindV1.isBytes : NetworkInputKindV1 → Bool
  | .inboundBytes _ _ => true
  | _ => false

def validateInput (epochStart : LogicalTime) (channels : OrdMap OpenFileId NetworkChannelV2)
    (totalOutput : OrdMap OpenFileId ℕ) (s : InputCursors) (input : NetworkInputEventV1) :
    Except NetworkTraceValidationError InputCursors := do
  if input.ordinal ≠ s.index then throw .nonCanonicalOrdinal
  let channel ← okOr channels[input.channel]? .unknownChannel
  if channel.connectErrno ≠ 0 then throw .trafficOnFailedChannel
  if input.release.notBeforeGlobalTime < epochStart then throw .releaseBeforeEpoch
  let cursor := s.cursors[input.channel]?.getD ⟨0, 0, false⟩
  if input.release.notBeforeGlobalTime < s.previousTime ∨
      input.release.afterTransmittedOffset < cursor.txWatermark then throw .nonMonotonicRelease
  if totalOutput[input.channel]?.getD 0 < input.release.afterTransmittedOffset then
    throw .unreachableTransmitWatermark
  if cursor.terminal then throw .eventAfterTerminal
  let offset ← validateInputKind input.event cursor.offset
  return {
    index := s.index + 1
    cursors := s.cursors.insert input.channel
      ⟨offset, input.release.afterTransmittedOffset, !input.event.isBytes⟩
    previousTime := input.release.notBeforeGlobalTime }

def NetworkTraceV2.validate (t : NetworkTraceV2) : Except NetworkTraceValidationError Unit := do
  let epochStart ← epochGlobalTime t.epoch
  let channels ← t.channels.foldlM validateChannel ∅
  let outputs ← t.outputs.foldlM (validateOutput epochStart channels) ⟨∅, ∅⟩
  let _ ← t.inputs.foldlM (validateInput epochStart channels outputs.totalOutput) ⟨0, ∅, epochStart⟩
  return ()

end Hermit.Network
