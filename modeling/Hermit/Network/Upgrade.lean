import Hermit.Network.Framing
import Hermit.Network.Recorder

/-!
# Reading a v1 trace

`read_framed` validates a v1 trace by the v1 rules, turns it into the multi-channel form
and validates that again. The v1 validator follows a single channel with plain counters, the
other keeps a cursor for each channel.

* `validateOutputV1_spec`: what an iteration of the v1 loop over the outputs accepts.
* `upgrade_valid`
-/

namespace Hermit.Network

open Hermit.Common

theorem NetworkAddressV1.isTraceablePeer_of_external {a : NetworkAddressV1}
    (h : a.isSupportedExternalPeer = true) : a.isTraceablePeer = true := by
  cases a with
  | inet4 =>
    simp only [isSupportedExternalPeer, isSupportedExternalIpv4, Bool.and_eq_true,
      Bool.not_eq_true'] at h
    simp [isTraceablePeer, isUnroutable, NetworkAddressV1.port, h, of_decide_eq_true h.1]
  | inet6 address port flowinfo scopeId =>
    simp only [isSupportedExternalPeer, isSupportedExternalIpv4, Bool.and_eq_true] at h
    cases hmapp : ipv6ToIpv4Mapped address with
    | none | some mapped =>
      simp only [hmapp, Bool.and_eq_true, Bool.not_eq_true'] at h
      simp [isTraceablePeer, isUnroutable, NetworkAddressV1.port, hmapp, h, of_decide_eq_true h.1]

theorem validateOutputV1_spec {id : OpenFileId} {offset offset' : ℕ} {output : NetworkOutputV1}
    (h : validateOutputV1 id offset output = .ok offset') :
    output.channel = id ∧ output.streamOffset = offset ∧
      offset' = offset + output.bytes.length ∧ offset' ≤ u64Max := by
  simp only [validateOutputV1, throwIf_eq_ok, okOr_eq_ok, not_not] at h
  obtain ⟨hid, -, hoff, hadd⟩ := h
  unfold checkedAdd at hadd
  split_ifs at hadd with hle
  cases hadd
  exact ⟨hid, hoff, rfl, hle⟩

theorem validateInputKind_of_v1 {offset offset' : ℕ} {terminal : Bool} {event : NetworkInputKindV1}
    (h : validateEventV1 offset false event = .ok (offset', terminal)) :
    validateInputKind event offset = .ok offset' ∧ terminal = !event.isBytes := by
  cases event with
  | inboundBytes =>
    simp only [validateEventV1, throwIf_eq_ok, bind_eq_ok] at h
    obtain ⟨hbyt, hoff, next, hadd, heq⟩ := h
    cases heq
    simp only [validateInputKind, throwIf_eq_ok]
    exact ⟨⟨hbyt, hoff, hadd⟩, rfl⟩
  | peerWriteClosed streamOffset =>
    simp only [validateEventV1, throwIf_eq_ok] at h
    obtain ⟨hoff, heq⟩ := h
    cases heq
    simp only [validateInputKind, throwIf_eq_ok]
    exact ⟨⟨hoff, rfl⟩, rfl⟩
  | socketError =>
    simp only [validateEventV1, throwIf_eq_ok] at h
    obtain ⟨hoff, hrange, hkind, heq⟩ := h
    cases heq
    simp only [validateInputKind, throwIf_eq_ok]
    exact ⟨⟨hoff, hrange, hkind, rfl⟩, rfl⟩

section Loops

variable {id : OpenFileId} {start : LogicalTime} {channels : OrdMap OpenFileId NetworkChannelV2}
  {r : NetworkChannelV2}

/-- The offset of the v1 output loop is that of its one channel. No fragment of a v1 trace has
    a wait, so the last wait stays at the epoch. -/
def SameTotal (id : OpenFileId) (start : LogicalTime) (offset : ℕ) (s : OutputCursors) : Prop :=
  s.totalOutput[id]?.getD 0 = offset ∧ ∀ i : OpenFileId, s.lastWait[i]?.getD start ≤ start

/-- A fragment the v1 loop accepts, the other one accepts. -/
theorem SameTotal.validateOutput {offset offset' : ℕ} {s : OutputCursors}
    {output : NetworkOutputV1} (hs : SameTotal id start offset s) (hr : channels[id]? = some r)
    (herr : r.connectErrno = 0) (h : validateOutputV1 id offset output = .ok offset') :
    ∃ s', validateOutput start channels s (.ofV1 output) = .ok s' ∧
      SameTotal id start offset' s' := by
  obtain ⟨hid, hat, rfl, hfits⟩ := validateOutputV1_spec h
  obtain ⟨channel, streamOffset, bytes⟩ := output
  obtain rfl : channel = id := hid
  obtain rfl : streamOffset = offset := hat
  obtain ⟨s', hok, htota, hlast⟩ := validateOutput_ok (.ofV1 ⟨channel, streamOffset, bytes⟩)
    hr herr hs.1.symm hfits le_rfl hs.2 nofun
  refine ⟨s', hok, ?_, hlast⟩
  rw [htota]
  exact congrArg (Option.getD · 0) (OrdMap.getElem?_insert_same _ _ _)

/-- The plain counters of the v1 input loop are the cursor of its one channel. -/
structure SameCursor (id : OpenFileId) (v1 : InputCursorV1) (s : InputCursors) : Prop where
  index : s.index = v1.index
  time : s.previousTime = v1.previousTime
  cursor : s.at id = ⟨v1.inboundOffset, v1.previousTxWatermark, v1.terminal⟩

/-- An input the v1 loop accepts, the other one accepts. -/
theorem SameCursor.validateInput {v1 v1' : InputCursorV1} {s : InputCursors}
    {totals : OrdMap OpenFileId ℕ} {total : ℕ} {input : NetworkInputEventV1}
    (hs : SameCursor id v1 s) (hr : channels[id]? = some r) (herr : r.connectErrno = 0)
    (htot : totals[id]?.getD 0 = total) (h : validateInputV1 id start total v1 input = .ok v1') :
    ∃ s', validateInput start channels totals s input = .ok s' ∧ SameCursor id v1' s' := by
  simp only [validateInputV1, throwIf_eq_ok, bind_eq_ok, not_not, not_or, not_lt] at h
  obtain ⟨hordi, hchan, hsta, ⟨htime, hwm⟩, hreach, hopen, ⟨offset, terminal⟩,
    hevt, heq⟩ := h
  cases heq
  rw [Bool.not_eq_true] at hopen
  rw [hopen] at hevt
  obtain ⟨hkind, rfl⟩ := validateInputKind_of_v1 hevt
  obtain ⟨ordinal, channel, ⟨now, tx⟩, event⟩ := input
  obtain rfl : ordinal = s.index := hordi.trans hs.index.symm
  obtain rfl : channel = id := hchan
  have hcur := hs.cursor
  have hkind' : validateInputKind event (s.at channel).offset = .ok offset := by rw [hcur, hkind]
  refine ⟨_, validateInput_ok hr herr hsta (hs.time ▸ htime) (hcur ▸ hwm)
    (htot ▸ hreach) (hcur ▸ hopen) hkind', ⟨congrArg (· + 1) hs.index, rfl, ?_⟩⟩
  rw [InputCursors.at_insert, if_pos rfl]

end Loops

/-- Every valid v1 trace is valid in the form that it is read into. -/
theorem upgrade_valid (t : NetworkTraceV1) (h : t.validate = .ok ()) :
    (NetworkTraceV2.ofV1 t).validate = .ok () := by
  unfold NetworkTraceV1.validate at h
  match hone : t.channels, h with
  | [], h => cases h
  | _ :: _ :: _, h => cases h
  | [channel], h =>
    obtain ⟨hsock, h⟩ := throwUnless_eq_ok.mp h
    obtain ⟨-, h⟩ := throwUnless_eq_ok.mp h
    obtain ⟨hfami, h⟩ := throwUnless_eq_ok.mp h
    obtain ⟨hpeer, h⟩ := throwUnless_eq_ok.mp h
    simp only [bind_eq_ok] at h
    obtain ⟨start, hepoch, total, houts, last, hinpu, -⟩ := h
    have htrac : (NetworkChannelV2.ofV1 channel).Traceable :=
      ⟨hsock, NetworkAddressV1.isTraceablePeer_of_external hpeer,
        fun l hl => by cases hl; exact hfami, le_rfl, Int.natCast_nonneg 4095, rfl⟩
    have hfrsh : (∅ : OrdMap OpenFileId NetworkChannelV2)[channel.id]? = none :=
      Std.ExtTreeMap.getElem?_empty
    have hchans := validateChannel_ok htrac hfrsh
    have hlist := OrdMap.getElem?_insert_same (∅ : OrdMap OpenFileId NetworkChannelV2)
      channel.id (.ofV1 channel)
    obtain ⟨cursors, houts', htot⟩ := foldlM_simulates (SameTotal channel.id start)
      NetworkOutputV4.ofV1 (c := ⟨∅, ∅⟩)
      (fun _ _ _ _ hs hstep => hs.validateOutput hlist rfl hstep) ⟨by simp, by simp⟩ houts
    obtain ⟨_, hinpu', -⟩ := foldlM_simulates (SameCursor channel.id) id (c := ⟨0, ∅, start⟩)
      (fun _ _ _ _ hs hstep => hs.validateInput hlist rfl htot.1 hstep)
      ⟨rfl, rfl, by simp [InputCursors.at]⟩ hinpu
    rw [List.map_id] at hinpu'
    refine bind_eq_ok.mpr ⟨start, hepoch, bind_eq_ok.mpr ⟨_, ?_,
      bind_eq_ok.mpr ⟨cursors, houts', bind_eq_ok.mpr ⟨_, hinpu', rfl⟩⟩⟩⟩
    show (t.channels.map NetworkChannelV2.ofV1).foldlM validateChannel ∅ = .ok _
    rw [hone]
    exact bind_eq_ok.mpr ⟨_, hchans, rfl⟩

/-- A request of two bytes and the answer to it, then the end of the stream. -/
def requestAndAnswer : NetworkTraceV1 where
  epoch := ⟨1, 0⟩
  channels := [⟨.newSocket 3 0, .tcp, .outboundClient, .inet4 #v[10, 0, 0, 2] 40000,
    .inet4 #v[93, 184, 216, 34] 80, true⟩]
  inputs := [⟨0, .newSocket 3 0, ⟨.clamp 2000000000, 2⟩, .inboundBytes 0 [7]⟩,
    ⟨1, .newSocket 3 0, ⟨.clamp 3000000000, 2⟩, .peerWriteClosed 1⟩]
  outputs := [⟨.newSocket 3 0, 0, [5, 6]⟩]

theorem upgrade_valid_requestAndAnswer :
    requestAndAnswer.validate = .ok () ∧ (NetworkTraceV2.ofV1 requestAndAnswer).validate = .ok () :=
  have h : requestAndAnswer.validate = .ok () := by decide +kernel
  ⟨h, upgrade_valid _ h⟩

end Hermit.Network
