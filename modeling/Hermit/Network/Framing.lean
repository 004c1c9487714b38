import Hermit.Common.LittleEndian
import Hermit.Common.Run
import Hermit.Network.Trace

/-!
# Trace files

The on-disk forms of a network trace and their frame (`network_trace.rs`, lines
482-550 and 607-823). A file is a magic, a version, the length of the payload and
the payload. The writer picks the version by what the trace holds, and the reader
brings each version back to the one in-memory form.

The payload codec, `bincode` at its standard configuration, is a parameter. A
reader is the byte string it reads, so there are no errors of the reader itself.

* `framed_round_trip`
-/

namespace Hermit.Network

open Hermit.Common

/-! ## On-disk forms -/

structure NetworkOutputV1 where
  channel : OpenFileId
  streamOffset : ℕ
  bytes : Bytes
deriving DecidableEq

def NetworkOutputV4.ofV1 (output : NetworkOutputV1) : NetworkOutputV4 where
  channel := output.channel
  streamOffset := output.streamOffset
  bytes := output.bytes
  wait := none

structure NetworkTraceV2Wire where
  epoch : UtcDateTime
  channels : List NetworkChannelV2
  inputs : List NetworkInputEventV1
  outputs : List NetworkOutputV1
deriving DecidableEq

def NetworkTraceV2.ofWire (trace : NetworkTraceV2Wire) : NetworkTraceV2 where
  epoch := trace.epoch
  channels := trace.channels
  inputs := trace.inputs
  outputs := trace.outputs.map .ofV1

structure NetworkChannelV1 where
  id : OpenFileId
  transport : NetworkTransportV1
  role : NetworkEndpointRoleV1
  localAddress : NetworkAddressV1
  peerAddress : NetworkAddressV1
  createdBeforeCompetingThreads : Bool
deriving DecidableEq

structure NetworkTraceV1 where
  epoch : UtcDateTime
  channels : List NetworkChannelV1
  inputs : List NetworkInputEventV1
  outputs : List NetworkOutputV1
deriving DecidableEq

/-- A channel of a v1 trace in the v2 form. -/
def NetworkChannelV2.ofV1 (channel : NetworkChannelV1) : NetworkChannelV2 where
  id := channel.id
  transport := channel.transport
  role := channel.role
  localAddress := some channel.localAddress
  peerAddress := channel.peerAddress
  connectErrno := 0

def NetworkTraceV2.ofV1 (trace : NetworkTraceV1) : NetworkTraceV2 where
  epoch := trace.epoch
  channels := trace.channels.map .ofV1
  inputs := trace.inputs
  outputs := trace.outputs.map .ofV1

/-! ## Validation of a v1 trace -/

def ipv6IsLoopback (address : Vector UInt8 16) : Bool :=
  address.toList = List.replicate 15 0 ++ [1]

def isSupportedExternalIpv4 (address : Vector UInt8 4) : Bool :=
  !ipv4IsLoopback address && !ipv4IsUnspecified address && !ipv4IsMulticast address &&
    !ipv4IsBroadcast address

def NetworkAddressV1.isSupportedExternalPeer : NetworkAddressV1 → Bool
  | inet4 address port => port ≠ 0 && isSupportedExternalIpv4 address
  | inet6 address port _ _ =>
    port ≠ 0 &&
      match ipv6ToIpv4Mapped address with
      | some mapped => isSupportedExternalIpv4 mapped
      | none => !ipv6IsLoopback address && !ipv6IsUnspecified address && !ipv6IsMulticast address

def validateOutputV1 (channel : OpenFileId) (expectedOffset : ℕ) (output : NetworkOutputV1) :
    Except NetworkTraceValidationError ℕ := do
  if output.channel ≠ channel then throw .unknownChannel
  if output.bytes = [] then throw .emptyByteChunk
  if output.streamOffset ≠ expectedOffset then throw .nonContiguousOutput
  okOr (checkedAdd expectedOffset output.bytes.length) .streamOffsetOverflow

/-- The state of the input loop of `NetworkTraceV1::validate`: the loop index,
    `inbound_offset`, `previous_time`, `previous_tx_watermark` and `terminal`. -/
structure InputCursorV1 where
  index : ℕ
  inboundOffset : ℕ
  previousTime : LogicalTime
  previousTxWatermark : ℕ
  terminal : Bool

def validateEventV1 (inboundOffset : ℕ) (terminal : Bool) :
    NetworkInputKindV1 → Except NetworkTraceValidationError (ℕ × Bool)
  | .inboundBytes streamOffset bytes => do
    if bytes = [] then throw .emptyByteChunk
    if streamOffset ≠ inboundOffset then throw .nonContiguousInput
    let inboundOffset ← okOr (checkedAdd inboundOffset bytes.length) .streamOffsetOverflow
    return (inboundOffset, terminal)
  | .peerWriteClosed streamOffset => do
    if streamOffset ≠ inboundOffset then throw .nonContiguousInput
    return (inboundOffset, true)
  | .socketError streamOffset errno => do
    if streamOffset ≠ inboundOffset then throw .nonContiguousInput
    if ¬ (1 ≤ errno ∧ errno ≤ 4095) then throw .invalidErrno
    if errno = eagain ∨ errno = eintr then throw .nonTerminalSocketError
    return (inboundOffset, true)

def validateInputV1 (channel : OpenFileId) (epochStart : LogicalTime) (totalOutput : ℕ)
    (s : InputCursorV1) (input : NetworkInputEventV1) :
    Except NetworkTraceValidationError InputCursorV1 := do
  if input.ordinal ≠ s.index then throw .nonCanonicalOrdinal
  if input.channel ≠ channel then throw .unknownChannel
  if input.release.notBeforeGlobalTime < epochStart then throw .releaseBeforeEpoch
  if input.release.notBeforeGlobalTime < s.previousTime ∨
      input.release.afterTransmittedOffset < s.previousTxWatermark then throw .nonMonotonicRelease
  if totalOutput < input.release.afterTransmittedOffset then throw .unreachableTransmitWatermark
  if s.terminal then throw .eventAfterTerminal
  let (inboundOffset, terminal) ← validateEventV1 s.inboundOffset s.terminal input.event
  return {
    index := s.index + 1
    inboundOffset := inboundOffset
    previousTime := input.release.notBeforeGlobalTime
    previousTxWatermark := input.release.afterTransmittedOffset
    terminal := terminal }

def NetworkTraceV1.validate (t : NetworkTraceV1) : Except NetworkTraceValidationError Unit :=
  match t.channels with
  | [channel] => do
    unless channel.id.isSocket do throw .nonSocketChannelIdentity
    unless channel.createdBeforeCompetingThreads do throw .scheduleDependentChannelIdentity
    unless channel.localAddress.sameFamily channel.peerAddress do throw .addressFamilyMismatch
    unless channel.peerAddress.isSupportedExternalPeer do throw .unsupportedPeerAddress
    let epochStart ← epochGlobalTime t.epoch
    let totalOutput ← t.outputs.foldlM (validateOutputV1 channel.id) 0
    let _ ← t.inputs.foldlM (validateInputV1 channel.id epochStart totalOutput)
      ⟨0, 0, epochStart, 0, false⟩
    return ()
  | channels => .error (.channelCount channels.length)

/-! ## Frames -/

inductive NetworkTraceCodecError (EncodeError DecodeError : Type)
  | truncated
  | badMagic
  | unsupportedVersion (version : ℕ)
  | trailingData
  | trailingPayloadData
  | encode (error : EncodeError)
  | decode (error : DecodeError)
  | validation (error : NetworkTraceValidationError)
deriving DecidableEq

/-- `bincode::serde` at one type: `encode_into_std_write`, by what it appends, and
    `decode_from_slice`, with the number of bytes it consumed. -/
structure Codec (EncodeError DecodeError α : Type) where
  encode : α → Except EncodeError Bytes
  decode : Bytes → Except DecodeError (α × ℕ)

structure Bincode (EncodeError DecodeError : Type) where
  v1 : Codec EncodeError DecodeError NetworkTraceV1
  wire : Codec EncodeError DecodeError NetworkTraceV2Wire
  v4 : Codec EncodeError DecodeError NetworkTraceV2

def networkTraceMagic : Bytes :=
  [72, 69, 82, 77, 73, 84, 45, 78, 69, 84, 45, 84, 82, 65, 67, 69]

def networkTraceVersionV1 : ℕ := 1
def networkTraceVersionV2 : ℕ := 2
def networkTraceVersionV3 : ℕ := 3
def networkTraceVersionV4 : ℕ := 4

/-- The versions that `read_frame` accepts. -/
def knownVersions : List ℕ :=
  [networkTraceVersionV1, networkTraceVersionV2, networkTraceVersionV3, networkTraceVersionV4]

def frameHeaderLen : ℕ := networkTraceMagic.length + 4 + 8

section Frames

variable {EncodeError DecodeError α : Type}

def readExactOrTruncated (len : ℕ) (reader : Bytes) :
    Except (NetworkTraceCodecError EncodeError DecodeError) (Bytes × Bytes) :=
  if reader.length < len then .error .truncated else .ok (reader.take len, reader.drop len)

def readFrame (reader : Bytes) :
    Except (NetworkTraceCodecError EncodeError DecodeError) (ℕ × Bytes) := do
  let (header, reader) ← readExactOrTruncated frameHeaderLen reader
  if header.take networkTraceMagic.length ≠ networkTraceMagic then throw .badMagic
  let versionStart := networkTraceMagic.length
  let version := fromLeBytes ((header.drop versionStart).take 4)
  if version ∉ knownVersions then throw (.unsupportedVersion version)
  let lenStart := versionStart + 4
  let payloadLen := fromLeBytes ((header.drop lenStart).take 8)
  let payload := reader.take payloadLen
  if payload.length ≠ payloadLen then throw .truncated
  if reader.drop payloadLen ≠ [] then throw .trailingData
  return (version, payload)

def decodePayload (codec : Codec EncodeError DecodeError α) (payload : Bytes) :
    Except (NetworkTraceCodecError EncodeError DecodeError) α := do
  let (value, consumed) ← (codec.decode payload).mapError .decode
  if consumed ≠ payload.length then throw .trailingPayloadData
  return value

/-- `encode_frame`: the length is filled in once the payload is there. -/
def encodeFrame (codec : Codec EncodeError DecodeError α) (version : ℕ) (value : α) :
    Except (NetworkTraceCodecError EncodeError DecodeError) Bytes := do
  let frame := networkTraceMagic ++ toLeBytes 4 version ++ List.replicate 8 0
  let payload ← (codec.encode value).mapError .encode
  let frame := frame ++ payload
  let payloadLen := frame.length - frameHeaderLen
  return frame.take (frameHeaderLen - 8) ++ toLeBytes 8 payloadLen ++ frame.drop frameHeaderLen

end Frames

namespace NetworkTraceV2

variable {EncodeError DecodeError : Type}

def recordsRefusedSends (t : NetworkTraceV2) : Bool := t.outputs.any (·.bytes.isEmpty)

def recordsSendWaits (t : NetworkTraceV2) : Bool := t.outputs.any (·.wait.isSome)

def toWire (t : NetworkTraceV2) : NetworkTraceV2Wire where
  epoch := t.epoch
  channels := t.channels
  inputs := t.inputs
  outputs := t.outputs.map fun output => ⟨output.channel, output.streamOffset, output.bytes⟩

def encodeFramed (bincode : Bincode EncodeError DecodeError) (t : NetworkTraceV2) :
    Except (NetworkTraceCodecError EncodeError DecodeError) Bytes := do
  t.validate.mapError .validation
  if t.recordsSendWaits then encodeFrame bincode.v4 networkTraceVersionV4 t
  else
    let version :=
      if t.recordsRefusedSends then networkTraceVersionV3 else networkTraceVersionV2
    encodeFrame bincode.wire version t.toWire

def ofPayload (bincode : Bincode EncodeError DecodeError) (version : ℕ) (payload : Bytes) :
    Except (NetworkTraceCodecError EncodeError DecodeError) NetworkTraceV2 :=
  if version = networkTraceVersionV1 then do
    let trace ← decodePayload bincode.v1 payload
    trace.validate.mapError .validation
    return ofV1 trace
  else if version = networkTraceVersionV4 then decodePayload bincode.v4 payload
  else do
    let trace ← decodePayload bincode.wire payload
    return ofWire trace

def readFramed (bincode : Bincode EncodeError DecodeError) (reader : Bytes) :
    Except (NetworkTraceCodecError EncodeError DecodeError) NetworkTraceV2 := do
  let (version, payload) ← readFrame reader
  let trace ← ofPayload bincode version payload
  if version < networkTraceVersionV3 ∧ trace.recordsRefusedSends = true then
    throw (.validation .emptyByteChunk)
  trace.validate.mapError .validation
  return trace

end NetworkTraceV2

/-! ## Reading a frame -/

section Reading

variable {EncodeError DecodeError α : Type}

def header (version payloadLen : ℕ) : Bytes :=
  networkTraceMagic ++ (toLeBytes 4 version ++ toLeBytes 8 payloadLen)

theorem length_header (version payloadLen : ℕ) :
    (header version payloadLen).length = frameHeaderLen := by
  simp [header, frameHeaderLen]

theorem knownVersions_lt : ∀ version ∈ knownVersions, version < 256 ^ 4 := by decide

theorem readExactOrTruncated_append {len : ℕ} {bytes : Bytes} (h : bytes.length = len)
    (rest : Bytes) :
    (readExactOrTruncated len (bytes ++ rest) :
      Except (NetworkTraceCodecError EncodeError DecodeError) _) = .ok (bytes, rest) := by
  unfold readExactOrTruncated
  rw [if_neg (by rw [List.length_append]; omega), List.take_left' h, List.drop_left' h]

theorem readFrame_short {reader : Bytes} (h : reader.length < frameHeaderLen) :
    (readFrame reader : Except (NetworkTraceCodecError EncodeError DecodeError) _) =
      .error .truncated := by
  unfold readFrame readExactOrTruncated
  rw [if_pos h]
  rfl

theorem readFrame_header {version payloadLen : ℕ} (hvers : version ∈ knownVersions)
    (hlen : payloadLen < 2 ^ 64) (rest : Bytes) :
    (readFrame (header version payloadLen ++ rest) :
        Except (NetworkTraceCodecError EncodeError DecodeError) _) =
      if rest.length < payloadLen then .error .truncated
      else if rest.length = payloadLen then .ok (version, rest)
      else .error .trailingData := by
  have hmagic : (header version payloadLen).take networkTraceMagic.length = networkTraceMagic :=
    List.take_left' rfl
  have hver : fromLeBytes (((header version payloadLen).drop networkTraceMagic.length).take 4) =
      version := by
    rw [header, List.drop_left' rfl, List.take_left' (length_toLeBytes 4 version),
      fromLeBytes_toLeBytes (knownVersions_lt version hvers)]
  have hlen' : fromLeBytes (((header version payloadLen).drop
      (networkTraceMagic.length + 4)).take 8) = payloadLen := by
    rw [header, ← List.append_assoc, List.drop_left' (by simp),
      List.take_of_length_le (by simp), fromLeBytes_toLeBytes hlen]
  unfold readFrame
  rw [readExactOrTruncated_append (length_header version payloadLen)]
  simp only [bind, Except.bind, hmagic, hver, hlen']
  rw [if_neg (not_not.mpr rfl), if_neg (not_not.mpr hvers)]
  have htake : (rest.take payloadLen).length = min payloadLen rest.length := List.length_take
  rcases lt_trichotomy rest.length payloadLen with hlt | heq | hgt
  · rw [if_pos (by omega), if_pos hlt]
    rfl
  · have hdrop : rest.drop payloadLen = [] := List.drop_eq_nil_of_le (by omega)
    rw [if_neg (by omega), if_neg (not_not.mpr hdrop), if_neg (by omega), if_pos heq,
      List.take_of_length_le (by omega)]
    rfl
  · have hdrop : rest.drop payloadLen ≠ [] := by
      rw [Ne, List.drop_eq_nil_iff]
      omega
    rw [if_neg (by omega), if_pos hdrop, if_neg (by omega), if_neg (by omega)]
    rfl

end Reading

/-! ## Round trips -/

section RoundTrip

variable {EncodeError DecodeError α : Type}

def Codec.Carries (codec : Codec EncodeError DecodeError α) (a : α) : Prop :=
  ∃ bytes, codec.encode a = .ok bytes ∧ codec.decode bytes = .ok (a, bytes.length) ∧
    bytes.length < 2 ^ 64

variable {payload : Bytes}

theorem encodeFrame_eq {codec : Codec EncodeError DecodeError α} {a : α}
    (h : codec.encode a = .ok payload) (version : ℕ) :
    encodeFrame codec version a = .ok (header version payload.length ++ payload) := by
  set blank := networkTraceMagic ++ toLeBytes 4 version ++ List.replicate 8 0 with hblank
  have hlen : blank.length = frameHeaderLen := by simp [hblank, frameHeaderLen]
  have hlast : (blank ++ payload).length - frameHeaderLen = payload.length := by
    rw [List.length_append, hlen, Nat.add_sub_cancel_left]
  have htake : (blank ++ payload).take (frameHeaderLen - 8) =
      networkTraceMagic ++ toLeBytes 4 version := by
    rw [hblank, List.append_assoc]
    exact List.take_left' (by simp [frameHeaderLen])
  unfold encodeFrame
  rw [h]
  refine congrArg Except.ok ?_
  rw [hlast, htake, List.drop_left' hlen, header]
  simp only [List.append_assoc]

theorem decodePayload_eq {codec : Codec EncodeError DecodeError α} {a : α}
    (h : codec.decode payload = .ok (a, payload.length)) : decodePayload codec payload = .ok a := by
  unfold decodePayload
  rw [h]
  show (if payload.length ≠ payload.length then _ else _) = _
  rw [if_neg (not_not.mpr rfl)]
  rfl

theorem readFrame_strictPrefix {version : ℕ} {reader : Bytes}
    (hvers : version ∈ knownVersions) (hlen : payload.length < 2 ^ 64)
    (h : reader <+: header version payload.length ++ payload)
    (hne : reader ≠ header version payload.length ++ payload) :
    (readFrame reader : Except (NetworkTraceCodecError EncodeError DecodeError) _) =
      .error .truncated := by
  by_cases hshort : reader.length < frameHeaderLen
  · exact readFrame_short hshort
  · have hhead : header version payload.length <+: reader := by
      refine List.prefix_of_prefix_length_le (List.prefix_append _ _) h ?_
      rw [length_header]
      omega
    obtain ⟨rest, rfl⟩ := hhead
    have hrest : rest <+: payload := (List.prefix_append_right_inj _).mp h
    have hlt : rest.length < payload.length := by
      refine lt_of_le_of_ne hrest.length_le fun heq => hne ?_
      rw [hrest.eq_of_length heq]
    rw [readFrame_header hvers hlen, if_pos hlt]

namespace NetworkTraceV2

structure ReadsAs (bincode : Bincode EncodeError DecodeError) (file : Bytes) (t : NetworkTraceV2) :
    Prop where
  whole : readFramed bincode file = .ok t
  cut : ∀ reader, reader <+: file → reader ≠ file → readFramed bincode reader = .error .truncated
  longer : ∀ more, more ≠ [] → readFramed bincode (file ++ more) = .error .trailingData

variable {bincode : Bincode EncodeError DecodeError} {t : NetworkTraceV2}

theorem readFramed_error {reader : Bytes}
    {e : NetworkTraceCodecError EncodeError DecodeError} (h : readFrame reader = .error e) :
    readFramed bincode reader = .error e := bind_eq_error.mpr (.inl h)

theorem readsAs_frame {version : ℕ} {payload : Bytes} (hvers : version ∈ knownVersions)
    (hlen : payload.length < 2 ^ 64) (hpayl : ofPayload bincode version payload = .ok t)
    (href : version < networkTraceVersionV3 → t.recordsRefusedSends = false)
    (hvalid : t.validate = .ok ()) :
    ReadsAs bincode (header version payload.length ++ payload) t where
  whole := by
    have hframe : readFrame (header version payload.length ++ payload) =
        (.ok (version, payload) : Except (NetworkTraceCodecError EncodeError DecodeError) _) := by
      rw [readFrame_header hvers hlen, if_neg (lt_irrefl _), if_pos rfl]
    have hsends : ¬ (version < networkTraceVersionV3 ∧ t.recordsRefusedSends = true) := by
      rintro ⟨hlt, htrue⟩
      rw [href hlt] at htrue
      cases htrue
    refine bind_eq_ok.mpr ⟨_, hframe, bind_eq_ok.mpr ⟨t, hpayl, throwIf_eq_ok.mpr ⟨hsends, ?_⟩⟩⟩
    rw [hvalid]
    rfl
  cut reader h hne := readFramed_error (readFrame_strictPrefix hvers hlen h hne)
  longer more hne := by
    have hgt : 0 < more.length := List.length_pos_iff.mpr hne
    apply readFramed_error
    rw [List.append_assoc, readFrame_header hvers hlen, List.length_append,
      if_neg (by omega), if_neg (by omega)]

theorem ofWire_toWire (h : t.recordsSendWaits = false) : ofWire t.toWire = t := by
  have houtp : ∀ output ∈ t.outputs, NetworkOutputV4.ofV1
      ⟨output.channel, output.streamOffset, output.bytes⟩ = output := by
    intro output hmem
    have hwait : ¬ output.wait.isSome = true := List.any_eq_false.mp h output hmem
    have hnone : output.wait = none := by simpa using hwait
    obtain ⟨channel, streamOffset, bytes, wait⟩ := output
    cases hnone
    rfl
  have houts : t.toWire.outputs.map NetworkOutputV4.ofV1 = t.outputs := by
    unfold toWire
    rw [List.map_map]
    exact (List.map_congr_left houtp).trans (List.map_id t.outputs)
  unfold ofWire
  rw [houts]
  rfl

theorem encodeFramed_v4 (hvalid : t.validate = .ok ()) (hwaits : t.recordsSendWaits = true)
    (hcarr : bincode.v4.Carries t) :
    ∃ file, t.encodeFramed bincode = .ok file ∧ ReadsAs bincode file t := by
  obtain ⟨payload, henco, hdeco, hlen⟩ := hcarr
  refine ⟨_, ?_, readsAs_frame (by decide : networkTraceVersionV4 ∈ knownVersions) hlen
    (decodePayload_eq hdeco) (fun hlt => absurd hlt (by decide)) hvalid⟩
  unfold encodeFramed
  rw [hvalid, if_pos hwaits]
  exact encodeFrame_eq henco _

/-- A trace without send waits is written as v3 or v2, and loses nothing. -/
theorem encodeFramed_wire (hvalid : t.validate = .ok ()) (hwaits : t.recordsSendWaits = false)
    (hcarr : bincode.wire.Carries t.toWire) :
    ∃ file, t.encodeFramed bincode = .ok file ∧ ReadsAs bincode file t := by
  obtain ⟨payload, henco, hdeco, hlen⟩ := hcarr
  have hread : ∀ version ∈ [networkTraceVersionV2, networkTraceVersionV3],
      ofPayload bincode version payload = .ok t := by
    intro version hvers
    have hne : version ≠ networkTraceVersionV1 ∧ version ≠ networkTraceVersionV4 := by
      decide +revert
    unfold ofPayload
    rw [if_neg hne.1, if_neg hne.2]
    refine bind_eq_ok.mpr ⟨_, decodePayload_eq hdeco, ?_⟩
    rw [ofWire_toWire hwaits]
    rfl
  unfold encodeFramed
  rw [hvalid, hwaits]
  cases href : t.recordsRefusedSends with
  | true =>
    exact ⟨_, encodeFrame_eq henco _, readsAs_frame (by decide) hlen (hread _ (by decide))
      (fun hlt => absurd hlt (by decide)) hvalid⟩
  | false =>
    exact ⟨_, encodeFrame_eq henco _, readsAs_frame (by decide) hlen (hread _ (by decide))
      (fun _ => href) hvalid⟩

/-- **A valid trace is read back from its file.** Whichever version the writer picks,
    the reader returns the trace itself from the whole file, refuses every strict
    initial part of it as truncated, and every continuation of it for its trailing
    data; the codec need only carry the payload. -/
theorem framed_round_trip (bincode : Bincode EncodeError DecodeError) (t : NetworkTraceV2)
    (hvalid : t.validate = .ok ()) (hv4 : bincode.v4.Carries t)
    (hwire : bincode.wire.Carries t.toWire) :
    ∃ file, t.encodeFramed bincode = .ok file ∧ readFramed bincode file = .ok t ∧
      (∀ reader, reader <+: file → reader ≠ file → readFramed bincode reader = .error .truncated) ∧
      ∀ more, more ≠ [] → readFramed bincode (file ++ more) = .error .trailingData := by
  obtain ⟨file, hfile, hreads⟩ :
      ∃ file, t.encodeFramed bincode = .ok file ∧ ReadsAs bincode file t := by
    cases hwaits : t.recordsSendWaits with
    | true => exact encodeFramed_v4 hvalid hwaits hv4
    | false => exact encodeFramed_wire hvalid hwaits hwire
  exact ⟨file, hfile, hreads.whole, hreads.cut, hreads.longer⟩

/-- A connection on which a send was refused, so that it is written as v3. -/
def refusedOnce : NetworkTraceV2 where
  epoch := ⟨0, 0⟩
  channels := [⟨.newSocket 3 0, .tcp, .outboundClient, some (.inet4 ⟨#[127, 0, 0, 1], by decide⟩ 4000),
    .inet4 ⟨#[127, 0, 0, 1], by decide⟩ 80, 0⟩]
  inputs := []
  outputs := [⟨.newSocket 3 0, 0, [], none⟩]

/-- `refusedOnce.toWire` as bincode's standard configuration writes it: the epoch as a string, the
    length of a list before its items, and an integer in one byte, or behind the number 251 in two
    and behind 253 in eight. -/
def refusedOncePayload : Bytes :=
  let id := [6, 253, 0, 0, 0, 0, 0, 0, 0, 128]
  [20, 49, 57, 55, 48, 45, 48, 49, 45, 48, 49, 84, 48, 48, 58, 48, 48, 58, 48, 48, 90] ++
    1 :: id ++ [0, 0, 1, 0, 127, 0, 0, 1, 251, 160, 15, 0, 127, 0, 0, 1, 80, 0] ++
    0 :: 1 :: id ++ [0, 0]

/-- A codec at the one value that a file is written for. -/
def onePayload {α : Type} [DecidableEq α] (a : α) (payload : Bytes) : Codec Unit Unit α where
  encode b := if b = a then .ok payload else .error ()
  decode bytes := if bytes = payload then .ok (a, payload.length) else .error ()

theorem onePayload_carries {α : Type} [DecidableEq α] (a : α) (h : payload.length < 2 ^ 64) :
    (onePayload a payload).Carries a :=
  ⟨payload, if_pos rfl, if_pos rfl, h⟩

theorem framed_round_trip_refusedOnce : ∃ (bincode : Bincode Unit Unit) (file : Bytes),
    bincode.wire.encode refusedOnce.toWire = .ok refusedOncePayload ∧
    refusedOnce.encodeFramed bincode = .ok file ∧ readFramed bincode file = .ok refusedOnce ∧
    readFramed bincode (file.take 91) = .error .truncated ∧
    readFramed bincode (file ++ [0]) = .error .trailingData := by
  -- a v4 payload has one byte more, for the wait that the fragment does not have
  set bincode : Bincode Unit Unit := ⟨⟨fun _ => .error (), fun _ => .error ()⟩,
    onePayload refusedOnce.toWire refusedOncePayload,
    onePayload refusedOnce (refusedOncePayload ++ [0])⟩
  obtain ⟨file, hfile, hwhole, hcut, hlong⟩ := framed_round_trip bincode refusedOnce
    (by decide +kernel) (onePayload_carries _ (by decide)) (onePayload_carries _ (by decide))
  have hlen : file.length = 92 := by
    have hlens : (refusedOnce.encodeFramed bincode).map List.length = .ok 92 := by decide +kernel
    rw [hfile] at hlens
    exact Except.ok.inj hlens
  refine ⟨bincode, file, by simp [bincode, onePayload], hfile, hwhole,
    hcut _ (List.take_prefix _ _) ?_, hlong _ (by simp)⟩
  intro heq
  have := congrArg List.length heq
  rw [List.length_take] at this
  omega

end NetworkTraceV2

end RoundTrip

end Hermit.Network
