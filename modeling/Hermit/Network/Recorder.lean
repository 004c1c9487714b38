import Hermit.Network.Outbound
import Hermit.Network.Simulation

/-!
# What the recorder writes

`finish` validates the trace of a recording before it returns it. The validator
checks addresses, offsets, release times and terminal events in three loops over
the finished trace; the recorder builds the same lists one request at a time.

* `validateChannel_ok`, `validateOutput_ok`, `validateInput_ok`: when one
  iteration of the validator accepts.
* `step_keeps`: every request of a recording keeps that.
* `recording_readable`, `accepted_unreadable`
-/

namespace Hermit.Network

open Hermit.Common OrdMap List

/-! ## What the validator accepts -/

/-- A record the channel loop accepts. -/
structure NetworkChannelV2.Traceable (r : NetworkChannelV2) : Prop where
  socket : r.id.isSocket = true
  peer : r.peerAddress.isTraceablePeer = true
  family : ∀ l, r.localAddress = some l → l.sameFamily r.peerAddress = true
  errno_nonneg : 0 ≤ r.connectErrno
  errno_le : r.connectErrno ≤ 4095
  connected : decide (r.connectErrno = 0) = r.localAddress.isSome

variable {channels : OrdMap OpenFileId NetworkChannelV2} {r : NetworkChannelV2}

theorem validateChannel_ok (h : r.Traceable) (hnew : channels[r.id]? = none) :
    validateChannel channels r = .ok (channels.insert r.id r) := by
  have hfami : ¬ (r.localAddress.any fun l => !l.sameFamily r.peerAddress) = true := by
    rw [Option.any_eq_true]
    rintro ⟨l, hl, hne⟩
    rw [h.family l hl] at hne
    cases hne
  have herr : ¬ (¬ (0 ≤ r.connectErrno ∧ r.connectErrno ≤ 4095) ∨
      decide (r.connectErrno = 0) ≠ r.localAddress.isSome) := by
    rintro (hrange | hconn)
    · exact hrange ⟨h.errno_nonneg, h.errno_le⟩
    · exact hconn h.connected
  have hcont : ¬ channels.contains r.id = true := by
    rw [(contains_eq_false _ _).mpr hnew]
    exact Bool.false_ne_true
  exact throwUnless_eq_ok.mpr ⟨h.socket, throwUnless_eq_ok.mpr ⟨h.peer,
    throwIf_eq_ok.mpr ⟨hfami, throwIf_eq_ok.mpr ⟨herr, throwIf_eq_ok.mpr ⟨hcont, rfl⟩⟩⟩⟩⟩

/-- The channel loop accepts records with different identities, and keeps each. -/
theorem validateChannels_ok (records : List NetworkChannelV2) :
    ∀ channels : OrdMap OpenFileId NetworkChannelV2, (∀ r ∈ records, r.Traceable) →
      records.Pairwise (·.id ≠ ·.id) → (∀ r ∈ records, channels[r.id]? = none) →
      ∃ channels', records.foldlM validateChannel channels = .ok channels' ∧
        (∀ r ∈ records, channels'[r.id]? = some r) ∧
        ∀ id : OpenFileId, (∀ r ∈ records, r.id ≠ id) → channels'[id]? = channels[id]? := by
  induction records with
  | nil => intro channels _ _ _; exact ⟨channels, rfl, by simp, fun _ _ => rfl⟩
  | cons r records ih =>
    intro channels htrac hdistinct hnew
    rw [forall_mem_cons] at htrac hnew
    rw [pairwise_cons] at hdistinct
    have hnew' : ∀ r' ∈ records, (channels.insert r.id r)[r'.id]? = none := by
      intro r' hr'
      rw [getElem?_insert_ne _ (hdistinct.1 r' hr')]
      exact hnew.2 r' hr'
    obtain ⟨channels', hloop, hkept, hoth⟩ := ih _ htrac.2 hdistinct.2 hnew'
    refine ⟨channels', ?_, ?_, ?_⟩
    · rw [foldlM_cons, validateChannel_ok htrac.1 hnew.1]
      exact hloop
    · rw [forall_mem_cons]
      refine ⟨?_, hkept⟩
      rw [hoth r.id fun r' hr' => (hdistinct.1 r' hr').symm, getElem?_insert_same]
    · intro id hid
      rw [forall_mem_cons] at hid
      rw [hoth id hid.2, getElem?_insert_ne _ hid.1]

theorem checkedAdd_of_le {a b : ℕ} (h : a + b ≤ u64Max) : checkedAdd a b = some (a + b) :=
  if_pos h

/-- The output loop accepts a fragment of an established channel at the offset that
    the channel has reached, with a wait that is not before the last one. -/
theorem validateOutput_ok {start now : LogicalTime} {s : OutputCursors} (output : NetworkOutputV4)
    (hr : channels[output.channel]? = some r) (herr : r.connectErrno = 0)
    (hoff : output.streamOffset = s.totalOutput[output.channel]?.getD 0)
    (hfits : output.streamOffset + output.bytes.length ≤ u64Max)
    (hsta : start ≤ now) (hlast : ∀ id : OpenFileId, s.lastWait[id]?.getD start ≤ now)
    (hwait : ∀ wait, output.wait = some wait →
      output.bytes ≠ [] ∧ wait.waits ≠ 0 ∧ wait.notBeforeGlobalTime = now) :
    ∃ s', validateOutput start channels s output = .ok s' ∧
      s'.totalOutput = s.totalOutput.insert output.channel
        (output.streamOffset + output.bytes.length) ∧
      ∀ id : OpenFileId, s'.lastWait[id]?.getD start ≤ now := by
  rw [hoff] at hfits ⊢
  have htot : okOr (checkedAdd (s.totalOutput[output.channel]?.getD 0) output.bytes.length)
      NetworkTraceValidationError.streamOffsetOverflow = .ok _ :=
    okOr_eq_ok.mpr (checkedAdd_of_le hfits)
  unfold validateOutput
  cases hw : output.wait with
  | none =>
    exact ⟨_, bind_eq_ok.mpr ⟨r, okOr_eq_ok.mpr hr, throwIf_eq_ok.mpr ⟨not_not.mpr herr,
      throwIf_eq_ok.mpr ⟨not_not.mpr hoff, bind_eq_ok.mpr ⟨_, htot, rfl⟩⟩⟩⟩, rfl, hlast⟩
  | some wait =>
    obtain ⟨hbyt, hwaits, hnow⟩ := hwait wait hw
    refine ⟨⟨_, s.lastWait.insert output.channel wait.notBeforeGlobalTime⟩,
      bind_eq_ok.mpr ⟨r, okOr_eq_ok.mpr hr, throwIf_eq_ok.mpr ⟨not_not.mpr herr,
      throwIf_eq_ok.mpr ⟨not_not.mpr hoff, bind_eq_ok.mpr ⟨_, htot,
      throwIf_eq_ok.mpr ⟨hbyt, throwIf_eq_ok.mpr ⟨hwaits, throwIf_eq_ok.mpr ⟨?_,
      throwIf_eq_ok.mpr ⟨?_, rfl⟩⟩⟩⟩⟩⟩⟩⟩, rfl, ?_⟩
    · rw [hnow]
      exact not_lt.mpr hsta
    · rw [hnow]
      exact not_lt.mpr (hlast _)
    · intro id
      rw [getElem?_insert_ite]
      split_ifs
      · exact le_of_eq hnow
      · exact hlast id

def NetworkArrival.Terminates : NetworkArrival → Prop
  | .error errno => 1 ≤ errno ∧ errno ≤ 4095 ∧ errno ≠ eagain ∧ errno ≠ eintr
  | _ => True

instance (arrival : NetworkArrival) : Decidable arrival.Terminates :=
  match arrival with
  | .bytes _ => inferInstanceAs (Decidable True)
  | .peerWriteClosed => inferInstanceAs (Decidable True)
  | .error errno =>
    inferInstanceAs (Decidable (1 ≤ errno ∧ errno ≤ 4095 ∧ errno ≠ eagain ∧ errno ≠ eintr))

theorem validateInputKind_ok {arrival : NetworkArrival} {offset : ℕ} (h : arrival.Terminates)
    (hne : arrival ≠ .bytes [])
    (hfits : offset + (NetworkEngine.arrivalEvent offset arrival).payload.length ≤ u64Max) :
    validateInputKind (NetworkEngine.arrivalEvent offset arrival) offset =
      .ok (offset + (NetworkEngine.arrivalEvent offset arrival).payload.length) := by
  unfold validateInputKind NetworkEngine.arrivalEvent at *
  cases arrival with
  | bytes bytes =>
    have hbyt : ¬ bytes = [] := by
      rintro rfl
      exact hne rfl
    refine throwIf_eq_ok.mpr ⟨hbyt, throwIf_eq_ok.mpr ⟨not_not.mpr rfl, ?_⟩⟩
    exact okOr_eq_ok.mpr (checkedAdd_of_le hfits)
  | peerWriteClosed =>
    refine throwIf_eq_ok.mpr ⟨not_not.mpr rfl, ?_⟩
    rfl
  | error errno =>
    obtain ⟨hlow, hhigh, heaga, heintr⟩ := h
    refine throwIf_eq_ok.mpr ⟨not_not.mpr rfl, throwIf_eq_ok.mpr ⟨not_not.mpr ⟨hlow, hhigh⟩,
      throwIf_eq_ok.mpr ⟨not_or.mpr ⟨heaga, heintr⟩, ?_⟩⟩⟩
    rfl

def InputCursors.at (s : InputCursors) (id : OpenFileId) : InboundCursor :=
  s.cursors[id]?.getD ⟨0, 0, false⟩

theorem InputCursors.at_insert (s : InputCursors) (id i : OpenFileId) (cursor : InboundCursor)
    (index : ℕ) (previous : LogicalTime) :
    InputCursors.at ⟨index, s.cursors.insert id cursor, previous⟩ i =
      if id = i then cursor else s.at i := by
  unfold InputCursors.at
  rw [getElem?_insert_ite]
  split_ifs <;> rfl

/-- The input loop accepts an input of an established channel that comes next, is
    released no earlier than what came before, and needs no more output than there
    is. -/
theorem validateInput_ok {start now : LogicalTime}
    {totalOutput : OrdMap OpenFileId ℕ} {s : InputCursors} {id : OpenFileId} {tx : ℕ}
    {event : NetworkInputKindV1} {offset : ℕ}
    (hr : channels[id]? = some r) (herr : r.connectErrno = 0) (hsta : start ≤ now)
    (hprev : s.previousTime ≤ now) (hwm : (s.at id).txWatermark ≤ tx)
    (htot : tx ≤ totalOutput[id]?.getD 0) (hopen : (s.at id).terminal = false)
    (hkind : validateInputKind event (s.at id).offset = .ok offset) :
    validateInput start channels totalOutput s ⟨s.index, id, ⟨now, tx⟩, event⟩ = .ok
      { index := s.index + 1
        cursors := s.cursors.insert id ⟨offset, tx, !event.isBytes⟩
        previousTime := now } := by
  have horder : ¬ (now < s.previousTime ∨ tx < (s.at id).txWatermark) :=
    not_or.mpr ⟨not_lt.mpr hprev, not_lt.mpr hwm⟩
  have hopen' : ¬ (s.at id).terminal = true := by
    rw [hopen]
    exact Bool.false_ne_true
  unfold validateInput
  exact throwIf_eq_ok.mpr ⟨not_not.mpr rfl, bind_eq_ok.mpr ⟨r, okOr_eq_ok.mpr hr,
    throwIf_eq_ok.mpr ⟨not_not.mpr herr, throwIf_eq_ok.mpr ⟨not_lt.mpr hsta,
    throwIf_eq_ok.mpr ⟨horder, throwIf_eq_ok.mpr ⟨not_lt.mpr htot,
    throwIf_eq_ok.mpr ⟨hopen', bind_eq_ok.mpr ⟨offset, hkind, rfl⟩⟩⟩⟩⟩⟩⟩⟩

/-! ## One channel of a recording -/

namespace Channel

/-- `c'` is `c` as far as the validator's cursors are concerned. -/
structure SameStream (c c' : Channel) : Prop where
  record : c'.record = c.record
  tx : c'.tx = c.tx
  rxEnd : c'.rxEnd = c.rxEnd
  inputEnded : c'.inputEnded = c.inputEnded

theorem SameStream.refl (c : Channel) : SameStream c c := ⟨rfl, rfl, rfl, rfl⟩

structure Recorded (c : Channel) : Prop where
  traceable : c.record.Traceable
  failed : c.record.connectErrno ≠ 0 → c.inputEnded = true

theorem Recorded.of_sameStream {c c' : Channel} (h : c.Recorded) (hsame : c.SameStream c') :
    c'.Recorded := by
  refine ⟨?_, ?_⟩
  · rw [hsame.record]
    exact h.traceable
  · rw [hsame.record, hsame.inputEnded]
    exact h.failed

theorem apply_rxEnd (c : Channel) (event : NetworkInputKindV1) :
    (c.apply event).rxEnd = c.rxEnd + event.payload.length := by
  cases event <;> rfl

theorem apply_inputEnded (c : Channel) (event : NetworkInputKindV1)
    (h : c.inputEnded = true ∨ event.isBytes = false) : (c.apply event).inputEnded = true := by
  cases event <;> simp_all [apply, inputEnded, NetworkInputKindV1.isBytes]

theorem connect_rxEnd (c : Channel) (nonblocking : Bool) :
    (c.connect nonblocking).1.rxEnd = c.rxEnd := by
  cases nonblocking <;> rfl

theorem connect_reset (c : Channel) (nonblocking : Bool) :
    (c.connect nonblocking).1.reset = c.reset := by
  cases nonblocking <;> rfl

variable {c : Channel} (hp : c.pendingInputs = [])

include hp

theorem recv_sameStream (now : LogicalTime) (maxLen target : ℕ) (peek : Bool) :
    SameStream c (c.recv now maxLen target peek).1 := by
  rw [recv, release_eq_self hp]
  rcases c.recvReleased_cases now maxLen target peek with
    ⟨len, h⟩ | ⟨-, errno, -, h⟩ | ⟨-, h⟩ | h <;> rw [h]
  · cases peek <;> exact ⟨rfl, rfl, rfl, rfl⟩
  · exact ⟨rfl, rfl, rfl, rfl⟩
  · exact .refl c
  · rw [orStalled_fst]
    exact .refl c

theorem readiness_sameStream (now : LogicalTime) (lowat : ℕ) :
    SameStream c (c.readiness now lowat).1 := by
  rw [readiness, orStalled_fst, release_eq_self hp]
  exact .refl c

theorem takeError_sameStream (now : LogicalTime) : SameStream c (c.takeError now).1 := by
  rw [takeError, release_eq_self hp]
  exact ⟨rfl, rfl, rfl, rfl⟩

theorem sendFailure_sameStream (now : LogicalTime) : SameStream c (c.sendFailure now).1 := by
  rw [sendFailure, release_eq_self hp]
  split_ifs
  · exact ⟨rfl, rfl, rfl, rfl⟩
  · exact .refl c

omit hp in
theorem shutdown_sameStream (how : ℤ) : SameStream c (c.shutdown how).1 := by
  unfold shutdown
  split_ifs <;> exact ⟨rfl, rfl, rfl, rfl⟩

end Channel

/-! ## The engine -/

/-- A part of the state of a channel, or `d` where there is none. -/
def fieldOf {α : Type} (f : Channel → α) (d : α) (channels : OrdMap OpenFileId Channel)
    (id : OpenFileId) : α := (channels[id]?.map f).getD d

/-- The bytes transmitted on a channel. -/
def txOf : OrdMap OpenFileId Channel → OpenFileId → ℕ := fieldOf Channel.tx 0

def rxEndOf : OrdMap OpenFileId Channel → OpenFileId → ℕ := fieldOf Channel.rxEnd 0

def endedOf : OrdMap OpenFileId Channel → OpenFileId → Bool := fieldOf Channel.inputEnded false

section fieldOf

variable {α : Type} {f : Channel → α} {d : α} {channels : OrdMap OpenFileId Channel}
  {id : OpenFileId} {c c' : Channel}

theorem fieldOf_some (h : channels[id]? = some c) : fieldOf f d channels id = f c := by
  rw [fieldOf, h]
  rfl

theorem fieldOf_none (h : channels[id]? = none) : fieldOf f d channels id = d := by
  rw [fieldOf, h]
  rfl

theorem fieldOf_insert (i : OpenFileId) :
    fieldOf f d (channels.insert id c) i = if id = i then f c else fieldOf f d channels i := by
  unfold fieldOf
  rw [getElem?_insert_ite]
  split_ifs <;> rfl

theorem fieldOf_insert_same (h : fieldOf f d channels id = f c') (i : OpenFileId) :
    fieldOf f d (channels.insert id c') i = fieldOf f d channels i := by
  rw [fieldOf_insert]
  split_ifs with hi
  · rw [← hi, h]
  · rfl

end fieldOf

namespace NetworkEngine

def recordedEpoch (e : NetworkEngine) : Option UtcDateTime :=
  match e.mode with
  | .record epoch _ _ => some epoch
  | .replay _ => none

/-- The offsets of all channels are values of their type, `u64`. -/
def Fits (e : NetworkEngine) : Prop :=
  ∀ id, txOf e.channels id ≤ u64Max ∧ rxEndOf e.channels id ≤ u64Max

theorem fits_iff {e : NetworkEngine} :
    e.Fits ↔ ∀ entry ∈ e.channels.toList, entry.2.tx ≤ u64Max ∧ entry.2.rxEnd ≤ u64Max := by
  constructor
  · rintro h ⟨id, c⟩ hmem
    have hc := (mem_toList _ id c).mp hmem
    have hid := h id
    rwa [txOf, rxEndOf, fieldOf_some hc, fieldOf_some hc] at hid
  · intro h id
    cases hc : e.channels[id]? with
    | none =>
      rw [txOf, rxEndOf, fieldOf_none hc, fieldOf_none hc]
      exact ⟨Nat.zero_le _, Nat.zero_le _⟩
    | some c =>
      rw [txOf, rxEndOf, fieldOf_some hc, fieldOf_some hc]
      exact h (id, c) ((mem_toList _ id c).mpr hc)

instance (e : NetworkEngine) : Decidable e.Fits := decidable_of_iff' _ fits_iff

def Lists (e : NetworkEngine) (records : OrdMap OpenFileId NetworkChannelV2) : Prop :=
  ∀ (id : OpenFileId) c, e.channels[id]? = some c → records[id]? = some c.record

/-- Where the output loop ends. -/
structure OutputsRead (start now : LogicalTime) (e : NetworkEngine) (s : OutputCursors) : Prop where
  total : ∀ id : OpenFileId, s.totalOutput[id]?.getD 0 = txOf e.channels id
  lastWait : ∀ id : OpenFileId, s.lastWait[id]?.getD start ≤ now

structure InputsRead (now : LogicalTime) (e : NetworkEngine) (s : InputCursors) : Prop where
  index : s.index = e.recordedInputs.length
  previous : s.previousTime ≤ now
  offset : ∀ id, (s.at id).offset = rxEndOf e.channels id
  watermark : ∀ id, (s.at id).txWatermark ≤ txOf e.channels id
  terminal : ∀ id, (s.at id).terminal = true → endedOf e.channels id = true

/-- The output loop accepts what `e` has recorded by `now`, with any records that
    have those of the channels: so it does when more has been connected. -/
def OutputsReadable (start now : LogicalTime) (e : NetworkEngine) : Prop :=
  ∀ records, e.Lists records →
    ∃ s, e.recordedOutputs.foldlM (validateOutput start records) ⟨∅, ∅⟩ = .ok s ∧
      OutputsRead start now e s

/-- The input loop accepts what `e` has recorded by `now`, with any records that
    have those of the channels and any output that reaches theirs: so it does when
    more has been connected and sent. -/
def InputsReadable (start now : LogicalTime) (e : NetworkEngine) : Prop :=
  ∀ records (totalOutput : OrdMap OpenFileId ℕ), e.Lists records →
    (∀ id : OpenFileId, txOf e.channels id ≤ totalOutput[id]?.getD 0) →
    ∃ s, e.recordedInputs.foldlM (validateInput start records totalOutput) ⟨0, ∅, start⟩ = .ok s ∧
      InputsRead now e s

structure Readable (start now : LogicalTime) (e : NetworkEngine) : Prop where
  start_le : start ≤ now
  channels : ∀ (id : OpenFileId) c, e.channels[id]? = some c → c.Recorded
  outputs : e.OutputsReadable start now
  inputs : e.InputsReadable start now

/-- From `e` to `e'` a recording goes on: its offsets grow, and while they are
    values of their type it stays readable. -/
structure Keeps (start now : LogicalTime) (e e' : NetworkEngine) : Prop where
  wellFormed : e'.WellFormed
  isRecord : e'.isRecord = true
  epoch : e'.recordedEpoch = e.recordedEpoch
  tx_le : ∀ id, txOf e.channels id ≤ txOf e'.channels id
  rxEnd_le : ∀ id, rxEndOf e.channels id ≤ rxEndOf e'.channels id
  readable : e'.Fits → e.Readable start now → e'.Readable start now

variable {start now : LogicalTime} {e e' e'' : NetworkEngine} {id : OpenFileId} {c c' : Channel}

theorem Keeps.fits (h : Keeps start now e e') (hfits : e'.Fits) : e.Fits := fun id =>
  ⟨(h.tx_le id).trans (hfits id).1, (h.rxEnd_le id).trans (hfits id).2⟩

theorem Keeps.refl (hwf : e.WellFormed) (hrec : e.isRecord = true) : Keeps start now e e :=
  ⟨hwf, hrec, rfl, fun _ => le_rfl, fun _ => le_rfl, fun _ h => h⟩

theorem Keeps.trans (h : Keeps start now e e') (h' : Keeps start now e' e'') :
    Keeps start now e e'' where
  wellFormed := h'.wellFormed
  isRecord := h'.isRecord
  epoch := h'.epoch.trans h.epoch
  tx_le id := (h.tx_le id).trans (h'.tx_le id)
  rxEnd_le id := (h.rxEnd_le id).trans (h'.rxEnd_le id)
  readable hfits hread := h'.readable hfits (h.readable (h'.fits hfits) hread)

variable {now' : LogicalTime}

theorem OutputsReadable.calm (h : e.OutputsReadable start now)
    (hnow : now ≤ now') (houts : e'.recordedOutputs = e.recordedOutputs)
    (htx : ∀ id, txOf e'.channels id = txOf e.channels id)
    (hlst : ∀ records, e'.Lists records → e.Lists records) : e'.OutputsReadable start now' := by
  intro records hrecs
  obtain ⟨s, hloop, hread⟩ := h records (hlst records hrecs)
  rw [houts]
  refine ⟨s, hloop, ?_, fun id => (hread.lastWait id).trans hnow⟩
  intro id
  rw [hread.total, htx]

theorem InputsReadable.calm (h : e.InputsReadable start now)
    (hnow : now ≤ now') (hinpu : e'.recordedInputs = e.recordedInputs)
    (htx : ∀ id, txOf e.channels id ≤ txOf e'.channels id)
    (hrx : ∀ id, rxEndOf e'.channels id = rxEndOf e.channels id)
    (hended : ∀ id, endedOf e.channels id = true → endedOf e'.channels id = true)
    (hlst : ∀ records, e'.Lists records → e.Lists records) : e'.InputsReadable start now' := by
  intro records totalOutput hrecs htot
  obtain ⟨s, hloop, hread⟩ := h records totalOutput (hlst records hrecs)
    fun id => (htx id).trans (htot id)
  refine ⟨s, ?_, ?_, hread.previous.trans hnow, ?_, ?_, ?_⟩
  · rw [hinpu]
    exact hloop
  · rw [hinpu, hread.index]
  · intro id
    rw [hread.offset, hrx]
  · intro id
    exact (hread.watermark id).trans (htx id)
  · intro id hterm
    exact hended id (hread.terminal id hterm)

theorem Readable.later (h : e.Readable start now) (hnow : now ≤ now') : e.Readable start now' where
  start_le := h.start_le.trans hnow
  channels := h.channels
  outputs := h.outputs.calm hnow rfl (fun _ => rfl) fun _ hlst => hlst
  inputs := h.inputs.calm hnow rfl (fun _ => le_rfl) (fun _ => rfl) (fun _ hended => hended)
    fun _ hlst => hlst

/-- A step that records nothing, and leaves the offsets as they are. -/
theorem keeps_calm (hwf : e'.WellFormed) (hrec : e'.isRecord = true) (hmode : e'.mode = e.mode)
    (htx : ∀ id, txOf e'.channels id = txOf e.channels id)
    (hrx : ∀ id, rxEndOf e'.channels id = rxEndOf e.channels id)
    (hended : ∀ id, endedOf e.channels id = true → endedOf e'.channels id = true)
    (hlst : ∀ records, e'.Lists records → e.Lists records)
    (hchans : (∀ (id : OpenFileId) c, e.channels[id]? = some c → c.Recorded) →
      ∀ (id : OpenFileId) c, e'.channels[id]? = some c → c.Recorded) : Keeps start now e e' where
  wellFormed := hwf
  isRecord := hrec
  epoch := by rw [recordedEpoch, hmode, recordedEpoch]
  tx_le id := (htx id).ge
  rxEnd_le id := (hrx id).ge
  readable _ hread := by
    have houts : e'.recordedOutputs = e.recordedOutputs := by
      rw [recordedOutputs, hmode, recordedOutputs]
    have hinpu : e'.recordedInputs = e.recordedInputs := by
      rw [recordedInputs, hmode, recordedInputs]
    exact ⟨hread.start_le, hchans hread.channels, hread.outputs.calm le_rfl houts htx hlst,
      hread.inputs.calm le_rfl hinpu (fun id => (htx id).ge) hrx hended hlst⟩

theorem lists_insert {mode : Mode} {records : OrdMap OpenFileId NetworkChannelV2}
    (hc : e.channels[id]? = some c) (hreco : c'.record = c.record)
    (h : Lists ⟨mode, e.channels.insert id c'⟩ records) : e.Lists records := by
  intro i d hd
  by_cases hi : id = i
  · subst hi
    rw [hc] at hd
    cases hd
    rw [← hreco]
    exact h id c' (getElem?_insert_same _ _ _)
  · exact h i d ((getElem?_insert_ne _ hi _).trans hd)

theorem recorded_insert {channels : OrdMap OpenFileId Channel} (hc' : c'.Recorded)
    (h : ∀ (id : OpenFileId) c, channels[id]? = some c → c.Recorded) (i : OpenFileId)
    (d : Channel) (hd : (channels.insert id c')[i]? = some d) : d.Recorded := by
  rw [getElem?_insert_ite] at hd
  split_ifs at hd
  · cases hd
    exact hc'
  · exact h i d hd

/-- Writing a channel that goes on as it was. -/
theorem keeps_insert (hrec : e.isRecord = true) (hc : e.channels[id]? = some c)
    (h : c.SameStream c') (hwf : WellFormed { e with channels := e.channels.insert id c' }) :
    Keeps start now e { e with channels := e.channels.insert id c' } := by
  refine keeps_calm hwf hrec rfl (fieldOf_insert_same ?_) (fieldOf_insert_same ?_) ?_
    (fun _ => lists_insert hc h.record) fun hchans => recorded_insert ?_ hchans
  · rw [fieldOf_some hc, h.tx]
  · rw [fieldOf_some hc, h.rxEnd]
  · intro i hended
    refine (fieldOf_insert_same ?_ i).trans hended
    rw [fieldOf_some hc, h.inputEnded]
  · exact (hchans id c hc).of_sameStream h

theorem onChannel_keeps {α : Type} (hwf : e.WellFormed) (hrec : e.isRecord = true)
    (id : OpenFileId) {f : Channel → Channel × Except NetworkEngineError α}
    (hf : ∀ c : Channel, c.pendingInputs = [] → c.SameStream (f c).1)
    (hwf' : (e.onChannel id f).1.WellFormed) : Keeps start now e (e.onChannel id f).1 := by
  unfold onChannel at hwf' ⊢
  split
  · exact .refl hwf hrec
  · rename_i c hc
    rw [hc] at hwf'
    exact keeps_insert hrec hc (hf c (hwf.released hrec id c (channelOf_connected hc))) hwf'

structure Connectable (id : OpenFileId) (peer : NetworkAddressV1)
    (localAddress : Option NetworkAddressV1) (errno : ℤ) : Prop where
  socket : id.isSocket = true
  errno_nonneg : 0 ≤ errno
  errno_le : errno ≤ 4095
  named : errno = 0 → localAddress.any (·.sameFamily peer) = true

instance (id : OpenFileId) (peer : NetworkAddressV1) (localAddress : Option NetworkAddressV1)
    (errno : ℤ) : Decidable (Connectable id peer localAddress errno) :=
  decidable_of_iff (id.isSocket = true ∧ 0 ≤ errno ∧ errno ≤ 4095 ∧
      (errno = 0 → localAddress.any (·.sameFamily peer) = true))
    ⟨fun ⟨hs, hn, hl, hl'⟩ => ⟨hs, hn, hl, hl'⟩, fun ⟨hs, hn, hl, hl'⟩ => ⟨hs, hn, hl, hl'⟩⟩

theorem Connectable.traceable {peer : NetworkAddressV1} {localAddress : Option NetworkAddressV1}
    {errno : ℤ} (h : Connectable id peer localAddress errno) (hpeer : peer.isTraceablePeer = true) :
    (connectRecord id peer localAddress errno).Traceable where
  socket := h.socket
  peer := hpeer
  family l hl := by
    unfold connectRecord at hl
    dsimp only at hl
    split_ifs at hl with herr
    have hfami := h.named herr
    rw [hl] at hfami
    exact hfami
  errno_nonneg := h.errno_nonneg
  errno_le := h.errno_le
  connected := by
    unfold connectRecord
    split_ifs with herr
    · obtain ⟨l, hl, -⟩ := (Option.any_eq_true _ _).mp (h.named herr)
      rw [hl, herr]
      rfl
    · simpa using herr

theorem recordConnect_keeps (hwf : e.WellFormed) (hrec : e.isRecord = true) {id : OpenFileId}
    {peer : NetworkAddressV1} {localAddress : Option NetworkAddressV1} {errno : ℤ}
    (h : Connectable id peer localAddress errno) (nonblocking : Bool) :
    Keeps start now e (e.recordConnect id peer localAddress errno nonblocking).1 := by
  have hwf' := (recordConnect_inflow hwf id peer localAddress errno nonblocking).wellFormed
  rcases e.recordConnect_cases id peer localAddress errno nonblocking with
    ⟨x, heq⟩ | ⟨-, hnew, hpeer, c, hc, heq⟩
  · rw [heq]
    exact .refl hwf hrec
  · rw [heq] at hwf' ⊢
    have hsame := (Channel.new (connectRecord id peer localAddress errno)).connect_sameOutput nonblocking
    rw [← hc] at hsame
    have hrx : c.1.rxEnd = 0 := by rw [hc, Channel.connect_rxEnd]; rfl
    have hrecor : c.1.Recorded := by
      refine ⟨?_, ?_⟩
      · rw [hsame.record]
        exact h.traceable hpeer
      · intro hfail
        rw [hsame.record] at hfail
        have hreset : c.1.reset = true := by
          rw [hc, Channel.connect_reset]
          exact decide_eq_true hfail
        rw [Channel.inputEnded, hreset, Bool.or_true]
    refine keeps_calm hwf' hrec rfl (fieldOf_insert_same ?_) (fieldOf_insert_same ?_) ?_ ?_
      (recorded_insert hrecor)
    · rw [fieldOf_none hnew, hsame.tx]
      rfl
    · rw [fieldOf_none hnew, hrx]
    · intro i hended
      have hne : id ≠ i := by
        rintro rfl
        rw [endedOf, fieldOf_none hnew] at hended
        cases hended
      rw [endedOf, fieldOf_insert, if_neg hne]
      exact hended
    · intro records hlst i d hd
      have hne : id ≠ i := by
        rintro rfl
        rw [hnew] at hd
        cases hd
      exact hlst i d ((getElem?_insert_ne _ hne _).trans hd)

section Recording

variable {epoch : UtcDateTime} {inputs : List NetworkInputEventV1} {outputs : List NetworkOutputV4}
  (hmode : e.mode = .record epoch inputs outputs) (hc : e.channels[id]? = some c)

include hc

theorem txOf_apply (event : NetworkInputKindV1) (i : OpenFileId) :
    txOf (e.channels.insert id (c.apply event)) i = txOf e.channels i :=
  fieldOf_insert_same (by rw [fieldOf_some hc, (c.apply_sameOutput event).tx]) i

omit hc in
theorem rxEndOf_apply (event : NetworkInputKindV1) (i : OpenFileId) :
    rxEndOf (e.channels.insert id (c.apply event)) i =
      if id = i then c.rxEnd + event.payload.length else rxEndOf e.channels i := by
  rw [rxEndOf, fieldOf_insert, Channel.apply_rxEnd]

include hmode

theorem InputsReadable.arrival (h : e.InputsReadable start now) (hsta : start ≤ now)
    (herr : c.record.connectErrno = 0) (hopen : c.inputEnded = false) {event : NetworkInputKindV1}
    (hkind : validateInputKind event c.rxEnd = .ok (c.rxEnd + event.payload.length)) :
    InputsReadable start now
      ⟨.record epoch (inputs ++ [⟨inputs.length, id, ⟨now, c.tx⟩, event⟩]) outputs,
        e.channels.insert id (c.apply event)⟩ := by
  intro records totalOutput hrecs htot
  have hinpu : e.recordedInputs = inputs := by rw [recordedInputs, hmode]
  have hlst := lists_insert hc (c.apply_sameOutput event).record hrecs
  have htot' : ∀ i : OpenFileId, txOf e.channels i ≤ totalOutput[i]?.getD 0 :=
    fun i => (txOf_apply hc event i).symm.trans_le (htot i)
  obtain ⟨s, hloop, hs⟩ := h records totalOutput hlst htot'
  have hoff : (s.at id).offset = c.rxEnd := by rw [hs.offset, rxEndOf, fieldOf_some hc]
  have hunen : (s.at id).terminal = false := by
    by_contra hterm
    have hended := hs.terminal id (by simpa using hterm)
    rw [endedOf, fieldOf_some hc, hopen] at hended
    cases hended
  have hwm := hs.watermark id
  have hreach := htot' id
  rw [txOf, fieldOf_some hc] at hwm hreach
  rw [← hoff] at hkind
  have hnext := validateInput_ok (hlst id c hc) herr hsta hs.previous hwm hreach hunen hkind
  rw [hs.index] at hnext
  rw [hinpu] at hloop hnext
  refine ⟨_, foldlM_snoc hloop hnext, ?_, le_rfl, ?_, ?_, ?_⟩
  · rw [recordedInputs, length_append, length_singleton]
  · intro i
    rw [InputCursors.at_insert, rxEndOf_apply]
    split_ifs
    · rw [hoff]
    · exact hs.offset i
  · intro i
    rw [InputCursors.at_insert, txOf_apply hc]
    split_ifs with hi
    · rw [← hi, txOf, fieldOf_some hc]
    · exact hs.watermark i
  · intro i hterm
    rw [InputCursors.at_insert] at hterm
    rw [endedOf, fieldOf_insert]
    split_ifs at hterm ⊢
    · exact c.apply_inputEnded event (.inr (by simpa using hterm))
    · exact hs.terminal i hterm

theorem OutputsReadable.send (h : e.OutputsReadable start now) (hsta : start ≤ now)
    (herr : c.record.connectErrno = 0) {bytes : Bytes} {wait : Option NetworkSendWaitV4}
    (hreco : c'.record = c.record) (htx : c'.tx = c.tx + bytes.length) (hfits : c'.tx ≤ u64Max)
    (hwait : ∀ w, wait = some w → bytes ≠ [] ∧ w.waits ≠ 0 ∧ w.notBeforeGlobalTime = now) :
    OutputsReadable start now
      ⟨.record epoch inputs (outputs ++ [⟨id, c.tx, bytes, wait⟩]), e.channels.insert id c'⟩ := by
  intro records hrecs
  have houts : e.recordedOutputs = outputs := by rw [recordedOutputs, hmode]
  have hlst := lists_insert hc hreco hrecs
  obtain ⟨s, hloop, hs⟩ := h records hlst
  have htot := hs.total id
  rw [txOf, fieldOf_some hc] at htot
  obtain ⟨s', hnext, htot', hlast⟩ := validateOutput_ok ⟨id, c.tx, bytes, wait⟩
    (hlst id c hc) herr htot.symm (htx.symm.trans_le hfits) hsta hs.lastWait hwait
  rw [houts] at hloop
  refine ⟨s', foldlM_snoc hloop hnext, ?_, hlast⟩
  intro i
  rw [htot', getElem?_insert_ite, txOf, fieldOf_insert]
  split_ifs
  · exact htx.symm
  · exact hs.total i

theorem output_keeps (hwf : e.WellFormed) {bytes : Bytes} {wait : Option NetworkSendWaitV4}
    (hpass : c.Passes c' []) (htx : c'.tx = c.tx + bytes.length) (hrx : c'.rxEnd = c.rxEnd)
    (hended : c'.inputEnded = c.inputEnded) (herr : c.record.connectErrno = 0)
    (hwait : ∀ w, wait = some w → bytes ≠ [] ∧ w.waits ≠ 0 ∧ w.notBeforeGlobalTime = now) :
    Keeps start now e
      ⟨.record epoch inputs (outputs ++ [⟨id, c.tx, bytes, wait⟩]), e.channels.insert id c'⟩ := by
  have hle : ∀ i, txOf e.channels i ≤ txOf (e.channels.insert id c') i := by
    intro i
    rw [txOf, fieldOf_insert]
    split_ifs with hi
    · rw [← hi, fieldOf_some hc, htx]
      exact Nat.le_add_right _ _
    · exact le_rfl
  have hrx' : ∀ i, rxEndOf (e.channels.insert id c') i = rxEndOf e.channels i :=
    fieldOf_insert_same (by rw [fieldOf_some hc, hrx])
  have hended' : ∀ i, endedOf (e.channels.insert id c') i = endedOf e.channels i :=
    fieldOf_insert_same (by rw [fieldOf_some hc, hended])
  refine ⟨(inflow_output hwf hmode hc hpass).wellFormed, rfl,
    by rw [recordedEpoch, recordedEpoch, hmode], hle, fun i => (hrx' i).ge, ?_⟩
  intro hfits hread
  have hroom := (hfits id).1
  rw [txOf, fieldOf_insert, if_pos rfl] at hroom
  refine ⟨hread.start_le, recorded_insert ⟨?_, ?_⟩ hread.channels,
    hread.outputs.send hmode hc hread.start_le herr hpass.record htx hroom hwait, ?_⟩
  · rw [hpass.record]
    exact (hread.channels id c hc).traceable
  · rw [hpass.record]
    exact fun hfail => absurd herr hfail
  · exact hread.inputs.calm le_rfl (by rw [recordedInputs, recordedInputs, hmode]) hle hrx'
      (fun i h => (hended' i).trans h) fun _ => lists_insert hc hpass.record

end Recording

theorem recordArrival_keeps (hwf : e.WellFormed) (hrec : e.isRecord = true) (id : OpenFileId)
    {arrival : NetworkArrival} (harri : arrival.Terminates) :
    Keeps start now e (e.recordArrival id now arrival).1 := by
  have hwf' := (recordArrival_inflow hwf id now arrival).wellFormed
  rcases e.recordArrival_cases id now arrival with
    ⟨x, heq⟩ | ⟨epoch, inputs, outputs, c, event, hmode, hc, hopen, hne, hevt, heq⟩
  · rw [heq]
    exact .refl hwf hrec
  · rw [heq] at hwf' ⊢
    refine ⟨hwf', rfl, by rw [recordedEpoch, recordedEpoch, hmode],
      fun i => (txOf_apply hc event i).ge, ?_, ?_⟩
    · intro i
      rw [rxEndOf_apply]
      split_ifs with hi
      · rw [← hi, rxEndOf, fieldOf_some hc]
        exact Nat.le_add_right _ _
      · exact le_rfl
    · intro hfits hread
      have hreco := (c.apply_sameOutput event).record
      have herr : c.record.connectErrno = 0 := by
        by_contra hfail
        rw [(hread.channels id c hc).failed hfail] at hopen
        cases hopen
      have hroom := (hfits id).2
      rw [rxEndOf_apply, if_pos rfl] at hroom
      have hkind : validateInputKind event c.rxEnd = .ok (c.rxEnd + event.payload.length) := by
        rw [hevt] at hroom ⊢
        exact validateInputKind_ok harri hne hroom
      refine ⟨hread.start_le, recorded_insert ⟨?_, ?_⟩ hread.channels,
        hread.outputs.calm le_rfl (by rw [recordedOutputs, recordedOutputs, hmode])
          (txOf_apply hc event) fun _ => lists_insert hc hreco,
        hread.inputs.arrival hmode hc hread.start_le herr hopen hkind⟩
      · rw [hreco]
        exact (hread.channels id c hc).traceable
      · rw [hreco]
        exact fun hfail => absurd herr hfail

theorem recordArrivals_keeps (id : OpenFileId) {arrivals : List NetworkArrival} :
    ∀ {e : NetworkEngine}, e.WellFormed → e.isRecord = true →
      (∀ arrival ∈ arrivals, arrival.Terminates) →
      Keeps start now e (recordArrivals id now e arrivals).1 := by
  induction arrivals with
  | nil => intro e hwf hrec _; exact .refl hwf hrec
  | cons arrival arrivals ih =>
    intro e hwf hrec harrs
    rw [forall_mem_cons] at harrs
    have hkeeps : Keeps start now e (e.recordArrival id now arrival).1 :=
      recordArrival_keeps hwf hrec id harrs.1
    rw [recordArrivals]
    split_ifs
    · exact .refl hwf hrec
    · split
      · rename_i e' x h
        rwa [h] at hkeeps
      · rename_i e' u h
        rw [h] at hkeeps
        exact hkeeps.trans (ih hkeeps.wellFormed hkeeps.isRecord harrs.2)

/-- The channel, if there is one, is one whose connect succeeded. -/
def Established (e : NetworkEngine) (id : OpenFileId) : Prop :=
  e.channels[id]?.all (·.record.connectErrno = 0) = true

instance (e : NetworkEngine) (id : OpenFileId) : Decidable (e.Established id) :=
  inferInstanceAs (Decidable (_ = true))

theorem Established.errno (h : e.Established id) (hc : e.channels[id]? = some c) :
    c.record.connectErrno = 0 := by
  rw [Established, hc] at h
  exact of_decide_eq_true h

theorem recordSend_keeps (hwf : e.WellFormed) (hrec : e.isRecord = true) (id : OpenFileId)
    (sent : Bytes) (mark : Option SendMark) (waits : ℕ) (h : sent ≠ [] → e.Established id) :
    Keeps start now e (e.recordSend id sent mark now waits).1 := by
  rcases e.recordSend_cases id sent mark now waits with
    ⟨r, heq, -⟩ | ⟨epoch, inputs, outputs, c, c', hmode, hc, hne, hc', heq⟩
  · rw [heq]
    exact .refl hwf hrec
  · rw [heq]
    subst hc'
    refine output_keeps hmode hc hwf ⟨rfl, fun hp => hp, rfl⟩ rfl rfl rfl ((h hne).errno hc) ?_
    intro w hw
    split_ifs at hw with hwaits
    cases hw
    exact ⟨hne, Nat.pos_iff_ne_zero.mp hwaits, rfl⟩

theorem recordRefusedSend_keeps (hwf : e.WellFormed) (hrec : e.isRecord = true) (id : OpenFileId)
    (h : e.Established id) : Keeps start now e (e.recordRefusedSend id).1 := by
  rcases e.recordRefusedSend_cases id with
    ⟨x, heq⟩ | ⟨epoch, inputs, outputs, c, hmode, hc, heq⟩
  · rw [heq]
    exact .refl hwf hrec
  · rw [heq]
    exact output_keeps hmode hc hwf ⟨rfl, fun hp => hp, rfl⟩ rfl rfl rfl (h.errno hc) nofun

/-! ## One request -/

theorem readinessEntry_keeps (hwf : e.WellFormed) (hrec : e.isRecord = true)
    {entry : OpenFileId × ℕ × List NetworkArrival} (h : ∀ arrival ∈ entry.2.2, arrival.Terminates) :
    Keeps start now e (e.readinessEntry now entry).1 := by
  have harr : Keeps start now e (recordArrivals entry.1 now e entry.2.2).1 :=
    recordArrivals_keeps entry.1 hwf hrec h
  unfold readinessEntry
  split
  · rename_i e' x heq
    rwa [heq] at harr
  · rename_i e' u heq
    rw [heq] at harr
    have hquiet := onChannel_quiet harr.wellFormed entry.1 fun c => c.readiness_passes now entry.2.1
    exact harr.trans (onChannel_keeps harr.wellFormed harr.isRecord entry.1
      (fun c hp => Channel.readiness_sameStream hp now entry.2.1) hquiet.wellFormed)

theorem readinessLoop_keeps {entries : List (OpenFileId × ℕ × List NetworkArrival)} :
    ∀ {e : NetworkEngine}, e.WellFormed → e.isRecord = true →
      (∀ entry ∈ entries, ∀ arrival ∈ entry.2.2, arrival.Terminates) →
      Keeps start now e (readinessLoop now e entries).1 := by
  induction entries with
  | nil => intro e hwf hrec _; exact .refl hwf hrec
  | cons entry entries ih =>
    intro e hwf hrec h
    rw [forall_mem_cons] at h
    have hent : Keeps start now e (e.readinessEntry now entry).1 :=
      readinessEntry_keeps hwf hrec h.1
    rw [readinessLoop]
    split
    · rename_i e' x heq
      rwa [heq] at hent
    · rename_i e' events heq
      rw [heq] at hent
      exact hent.trans (ih hent.wellFormed hent.isRecord h.2)

theorem recvRequest_keeps (hwf : e.WellFormed) (hrec : e.isRecord = true) (id : OpenFileId)
    {arrivals : List NetworkArrival} (maxLen target : ℕ) (peek : Bool)
    (h : ∀ arrival ∈ arrivals, arrival.Terminates) :
    Keeps start now e (e.recvRequest now id arrivals maxLen target peek).1 := by
  have harr : Keeps start now e (recordArrivals id now e arrivals).1 :=
    recordArrivals_keeps id hwf hrec h
  unfold recvRequest
  split
  · rename_i e' x heq
    rwa [heq] at harr
  · rename_i e' u heq
    rw [heq] at harr
    have hflow := onChannel_inflow harr.wellFormed id (Channel.consumed peek) (fun _ => rfl)
      fun c => c.recv_passes now maxLen target peek
    exact harr.trans (onChannel_keeps harr.wellFormed harr.isRecord id
      (fun c hp => Channel.recv_sameStream hp now maxLen target peek) hflow.wellFormed)

/-- A request such as the runtime makes: it connects sockets it has the address of,
    passes on errors that end a stream, and sends on established channels. -/
def Supported (e : NetworkEngine) : NetworkRequest → Prop
  | .recordConnect id peer localAddress errno _ => Connectable id peer localAddress errno
  | .recv _ arrivals _ _ _ => ∀ arrival ∈ arrivals, arrival.Terminates
  | .readiness channels => ∀ entry ∈ channels, ∀ arrival ∈ entry.2.2, arrival.Terminates
  | .recordSend id bytes _ _ => bytes ≠ [] → e.Established id
  | .recordRefusedSend id => e.Established id
  | _ => True

instance (e : NetworkEngine) (request : NetworkRequest) : Decidable (e.Supported request) :=
  match request with
  | .recordConnect id peer localAddress errno _ =>
    inferInstanceAs (Decidable (Connectable id peer localAddress errno))
  | .recv _ arrivals _ _ _ => inferInstanceAs (Decidable (∀ arrival ∈ arrivals, arrival.Terminates))
  | .readiness channels =>
    inferInstanceAs (Decidable (∀ entry ∈ channels, ∀ arrival ∈ entry.2.2, arrival.Terminates))
  | .recordSend id bytes _ _ => inferInstanceAs (Decidable (bytes ≠ [] → e.Established id))
  | .recordRefusedSend id => inferInstanceAs (Decidable (e.Established id))
  | .replayConnect _ _ _ => inferInstanceAs (Decidable True)
  | .takeError _ => inferInstanceAs (Decidable True)
  | .sendFailure _ => inferInstanceAs (Decidable True)
  | .replaySend _ _ _ _ => inferInstanceAs (Decidable True)
  | .shutdown _ _ => inferInstanceAs (Decidable True)
  | .addresses _ => inferInstanceAs (Decidable True)

theorem step_keeps (hwf : e.WellFormed) (hrec : e.isRecord = true) {request : NetworkRequest}
    (h : e.Supported request) {reply : Except NetworkEngineError NetworkReply}
    (hstep : e.step (now, request) = .ok (e', reply)) : Keeps start now e e' := by
  cases request with
  | recordConnect id peer localAddress errno nonblocking =>
    cases hstep
    exact recordConnect_keeps hwf hrec h nonblocking
  | replayConnect id peer nonblocking =>
    cases hstep
    rcases e.replayConnect_cases id peer nonblocking with ⟨x, heq⟩ | ⟨unconnected, c, hmode, -⟩
    · show Keeps start now e (e.replayConnect id peer nonblocking).1
      rw [heq]
      exact .refl hwf hrec
    · rw [isRecord, hmode] at hrec
      cases hrec
  | recv id arrivals maxLen target peek =>
    cases hstep
    exact recvRequest_keeps hwf hrec id maxLen target peek h
  | readiness channels =>
    cases hstep
    exact readinessLoop_keeps hwf hrec h
  | takeError id =>
    cases hstep
    exact onChannel_keeps hwf hrec id (fun c hp => Channel.takeError_sameStream hp now)
      (onChannel_quiet hwf id fun c => c.takeError_passes now).wellFormed
  | sendFailure id =>
    cases hstep
    exact onChannel_keeps hwf hrec id (fun c hp => Channel.sendFailure_sameStream hp now)
      (onChannel_quiet hwf id fun c => c.sendFailure_passes now).wellFormed
  | recordSend id bytes mark waits =>
    cases hstep
    exact recordSend_keeps hwf hrec id bytes mark waits h
  | recordRefusedSend id =>
    cases hstep
    exact recordRefusedSend_keeps hwf hrec id h
  | replaySend =>
    obtain ⟨⟨e₁, r⟩, hsend, heq⟩ := map_eq_ok.mp hstep
    cases heq
    rcases replaySend_eq_ok hsend with ⟨rfl, -⟩ | ⟨unconnected, c, c', hmode, -⟩
    · exact .refl hwf hrec
    · rw [isRecord, hmode] at hrec
      cases hrec
  | shutdown id how =>
    cases hstep
    exact onChannel_keeps hwf hrec id (fun c _ => Channel.shutdown_sameStream how)
      (onChannel_quiet hwf id fun c => c.shutdown_passes how).wellFormed
  | addresses id =>
    cases hstep
    exact .refl hwf hrec

/-! ## Whole recordings -/

theorem Readable.records (h : e.Readable start now) (hwf : e.WellFormed) :
    ∃ records, (e.channels.toList.map (·.2.record)).foldlM validateChannel ∅ = .ok records ∧
      e.Lists records := by
  have hkeyed : ∀ entry ∈ e.channels.toList, entry.2.record.id = entry.1 := by
    rintro ⟨id, c⟩ hmem
    exact hwf.keyed id c (channelOf_connected ((mem_toList _ id c).mp hmem))
  have htrac : ∀ r ∈ e.channels.toList.map (·.2.record), r.Traceable := by
    intro r hr
    obtain ⟨⟨id, c⟩, hmem, rfl⟩ := mem_map.mp hr
    exact (h.channels id c ((mem_toList _ id c).mp hmem)).traceable
  have hdistinct : (e.channels.toList.map (·.2.record)).Pairwise (·.id ≠ ·.id) := by
    rw [pairwise_map]
    refine List.Pairwise.imp_of_mem ?_ Std.ExtTreeMap.distinct_keys_toList
    intro a b ha hb hne heq
    rw [hkeyed a ha, hkeyed b hb] at heq
    exact hne (compare_eq_iff_eq.mpr heq)
  obtain ⟨records, hloop, hkept, -⟩ := validateChannels_ok _ ∅ htrac hdistinct (by simp)
  refine ⟨records, hloop, ?_⟩
  intro id c hc
  have hmem := (mem_toList _ id c).mpr hc
  have hkept' := hkept c.record (mem_map.mpr ⟨_, hmem, rfl⟩)
  rwa [hkeyed _ hmem] at hkept'

theorem Readable.finish {epoch : UtcDateTime} (h : e.Readable start now) (hwf : e.WellFormed)
    (hepoch : e.recordedEpoch = some epoch) (hsta : epochGlobalTime epoch = .ok start) :
    ∃ trace, e.finish = .ok trace ∧ trace.validate = .ok () := by
  obtain ⟨records, hchans, hlst⟩ := h.records hwf
  obtain ⟨s, houts, hread⟩ := h.outputs records hlst
  obtain ⟨s', hinpu, -⟩ := h.inputs records s.totalOutput hlst fun id => (hread.total id).ge
  unfold recordedEpoch at hepoch
  unfold recordedOutputs at houts
  unfold recordedInputs at hinpu
  unfold NetworkEngine.finish
  split at hepoch
  · rename_i epoch' inputs outputs hmode
    cases hepoch
    rw [hmode] at houts hinpu
    set trace : NetworkTraceV2 := ⟨epoch, e.channels.toList.map (·.2.record), inputs, outputs⟩
    have hvalid : trace.validate = .ok () := bind_eq_ok.mpr ⟨start, hsta, bind_eq_ok.mpr
      ⟨records, hchans, bind_eq_ok.mpr ⟨s, houts, bind_eq_ok.mpr ⟨s', hinpu, rfl⟩⟩⟩⟩
    rw [hmode]
    refine ⟨trace, ?_, hvalid⟩
    dsimp only
    split
    · rename_i herr
      cases hvalid.symm.trans herr
    · rfl
  · cases hepoch

structure Recording where
  engine : NetworkEngine
  clock : LogicalTime

namespace Recording

def new (epoch : UtcDateTime) (start : LogicalTime) : Recording := ⟨newRecord epoch, start⟩

def step (s : Recording) (r : LogicalTime × NetworkRequest) :
    Except Panic (Recording × Except NetworkEngineError NetworkReply) := do
  let (e, reply) ← s.engine.step r
  return (⟨e, r.1⟩, reply)

/-- A request such as the runtime makes, no earlier than the last one. -/
def Admits (s : Recording) (r : LogicalTime × NetworkRequest) : Prop :=
  s.clock ≤ r.1 ∧ s.engine.Supported r.2

instance (s : Recording) (r : LogicalTime × NetworkRequest) : Decidable (s.Admits r) :=
  inferInstanceAs (Decidable (_ ∧ _))

end Recording

theorem readable_newRecord (epoch : UtcDateTime) (start : LogicalTime) :
    (newRecord epoch).Readable start start := by
  refine ⟨le_rfl, by simp [newRecord], ?_, ?_⟩
  · intro records _
    refine ⟨⟨∅, ∅⟩, rfl, ?_, ?_⟩ <;> simp [newRecord, txOf, fieldOf]
  · intro records totalOutput _ _
    refine ⟨⟨0, ∅, start⟩, rfl, rfl, le_rfl, ?_, ?_, ?_⟩ <;>
      simp [newRecord, txOf, rxEndOf, fieldOf, InputCursors.at]

/-- A recording is readable in every state that requests lead to. -/
theorem reaches_readable {epoch : UtcDateTime} {start : LogicalTime} {s : Recording}
    (h : Reaches Recording.step Recording.Admits (.new epoch start) s) :
    s.engine.WellFormed ∧ s.engine.isRecord = true ∧ s.engine.recordedEpoch = some epoch ∧
      (s.engine.Fits → s.engine.Readable start s.clock) := by
  refine h.invariant (fun s => s.engine.WellFormed ∧ s.engine.isRecord = true ∧
    s.engine.recordedEpoch = some epoch ∧ (s.engine.Fits → s.engine.Readable start s.clock))
    ⟨Start.wellFormed (.record epoch), rfl, rfl, fun _ => readable_newRecord epoch start⟩ ?_
  rintro s ⟨now, request⟩ s' reply ⟨hwf, hrec, hepoch, hread⟩ ⟨hclk, hsupp⟩ hstep
  obtain ⟨⟨e', reply'⟩, hok, heq⟩ := bind_eq_ok.mp hstep
  cases heq
  have hkeeps : Keeps start now s.engine e' := step_keeps hwf hrec hsupp hok
  refine ⟨hkeeps.wellFormed, hkeeps.isRecord, hkeeps.epoch.trans hepoch, ?_⟩
  intro hfits
  exact hkeeps.readable hfits ((hread (hkeeps.fits hfits)).later hclk)

/-- **The recorder writes readable traces.** After every sequence of requests such as
    the runtime makes, at times that do not decrease from the epoch on, `finish`
    returns a trace that validates, as long as the offsets are values of their type. -/
theorem recording_readable {epoch : UtcDateTime} {start : LogicalTime} {s : Recording}
    (hepoch : epochGlobalTime epoch = .ok start)
    (hreach : Reaches Recording.step Recording.Admits (.new epoch start) s)
    (hfits : s.engine.Fits) : ∃ trace, s.engine.finish = .ok trace ∧ trace.validate = .ok () := by
  obtain ⟨hwf, -, hepoch', hread⟩ := reaches_readable hreach
  exact (hread hfits).finish hwf hepoch' hepoch

/-- Two channels, one of them refused; on the other a send that waited, a send that is
    refused, two inputs polled at once and the end of the stream. -/
def mixedTraffic : List (LogicalTime × NetworkRequest) :=
  [(.clamp 1, .recordConnect sampleSocket samplePeer (some sampleLocal) 0 false),
    (.clamp 1, .recordConnect (.newSocket 3 1) samplePeer none 111 true),
    (.clamp 2, .recordSend sampleSocket [1, 2] none 3),
    (.clamp 3, .recordRefusedSend sampleSocket),
    (.clamp 4, .readiness [(sampleSocket, 1, [.bytes [5], .bytes [6, 7]])]),
    (.clamp 4, .recv sampleSocket [.error 104] 10 1 false)]

theorem recording_readable_mixedTraffic : ∃ s : Recording,
    Reaches Recording.step Recording.Admits (.new ⟨0, 0⟩ .zero) s ∧
    s.engine.recordedInputs.length = 3 ∧ s.engine.recordedOutputs.length = 2 ∧
    ∃ trace, s.engine.finish = .ok trace ∧ trace.validate = .ok () := by
  obtain ⟨s, hreach, hinpu, houts, hfits⟩ := exists_reaches mixedTraffic
    (fun s : Recording => s.engine.recordedInputs.length = 3 ∧
      s.engine.recordedOutputs.length = 2 ∧ s.engine.Fits)
    (by decide +kernel : (arrive Recording.step Recording.Admits
      (.new ⟨0, 0⟩ .zero) mixedTraffic).any _ = true)
  exact ⟨s, hreach, hinpu, houts, recording_readable (by decide +kernel) hreach hfits⟩

/-- A connect that is refused, then a send on the channel. -/
def sentOnFailed : List (LogicalTime × NetworkRequest) :=
  [(.clamp 1, .recordConnect sampleSocket samplePeer none 111 false),
    (.clamp 2, .recordSend sampleSocket [7] none 0)]

/-- A connect that succeeds, without a local address. -/
def connectedUnnamed : List (LogicalTime × NetworkRequest) :=
  [(.clamp 1, .recordConnect sampleSocket samplePeer none 0 false)]

/-- What a recording from the epoch answers, and what its `finish` returns. -/
def recorded (requests : List (LogicalTime × NetworkRequest)) :
    Except Panic (List (Except NetworkEngineError NetworkReply) ×
      Except NetworkEngineError NetworkTraceV2) :=
  (run step (newRecord ⟨0, 0⟩) requests).map fun (e, replies) => (replies, e.finish)

/-- The engine accepts requests that no readable trace comes of: it does not look at
    the outcome of the connect when it records a send, nor for the local address when
    it records a connect. -/
theorem accepted_unreadable : recorded sentOnFailed =
      .ok ([.ok (.errno 111), .ok (.recorded ⟨1, 1⟩)], .error (.trace .trafficOnFailedChannel)) ∧
    recorded connectedUnnamed = .ok ([.ok (.errno 0)], .error (.trace .invalidErrno)) := by
  decide +kernel

end NetworkEngine

end Hermit.Network
