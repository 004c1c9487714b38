import Hermit.Network.Engine

/-!
# What a request can do

One lemma for each operation of the engine that has more than one way out: its
outcomes, with the state each leaves.

* `Channel.recvReleased_cases`, `Channel.replaySend_cases`: on one channel.
* `recordConnect_cases`, `replayConnect_cases`, `recordArrival_cases`,
  `recordSend_cases`, `recordRefusedSend_cases`: on the engine.
* `newReplay_mode`: the channels a new replay holds ready.
-/

namespace Hermit.Network

open Hermit.Common

namespace Channel

/-! ## Receiving -/

theorem orStalled_fst (c : Channel) (now : LogicalTime) {α : Type} (result : α) :
    (c.orStalled now result).1 = c := by
  unfold orStalled; split <;> rfl

theorem orStalled_ne_ok (c : Channel) (now : LogicalTime) {α : Type} {result other : α}
    (h : other ≠ result) : (c.orStalled now result).2 ≠ .ok other := by
  unfold orStalled
  split <;> intro h' <;> cases h'
  exact h rfl

/-- What a receive does once the inputs due are released: hand over buffered
    bytes, or report a pending error or the end of an empty buffer, or leave
    the channel alone. -/
theorem recvReleased_cases (c : Channel) (now : LogicalTime) (maxLen target : ℕ) (peek : Bool) :
    (∃ len, c.recvReleased now maxLen target peek =
      (if peek then c else { c with rx := c.rx.drop len }, .ok (.data (c.rx.take len)))) ∨
    (c.rx = [] ∧ ∃ errno, c.pendingError = some errno ∧ c.recvReleased now maxLen target peek =
        ({ c with pendingError := none }, .ok (.error errno))) ∨
    (c.rx = [] ∧ c.recvReleased now maxLen target peek = (c, .ok .eof)) ∨
    c.recvReleased now maxLen target peek = c.orStalled now .wouldBlock := by
  unfold recvReleased
  dsimp only
  split
  · exact .inl ⟨_, rfl⟩
  · split
    · rename_i hemp
      have hrx : c.rx = [] := List.length_eq_zero_iff.mp hemp
      split
      · rename_i errno herr
        exact .inr (.inl ⟨hrx, errno, herr, rfl⟩)
      · split
        · exact .inr (.inr (.inl ⟨hrx, rfl⟩))
        · exact .inr (.inr (.inr rfl))
    · exact .inr (.inr (.inr rfl))

/-! ## What the input side leaves alone -/

/-- `c'` is `c` as far as the record and the outbound stream are concerned. -/
structure SameOutput (c c' : Channel) : Prop where
  record : c'.record = c.record
  tx : c'.tx = c.tx
  outputEvents : c'.outputEvents = c.outputEvents
  expectedOutputs : c'.expectedOutputs = c.expectedOutputs

theorem SameOutput.refl (c : Channel) : SameOutput c c := ⟨rfl, rfl, rfl, rfl⟩

theorem SameOutput.trans {c c' c'' : Channel} (h : SameOutput c c') (h' : SameOutput c' c'') :
    SameOutput c c'' where
  record := h'.record.trans h.record
  tx := h'.tx.trans h.tx
  outputEvents := h'.outputEvents.trans h.outputEvents
  expectedOutputs := h'.expectedOutputs.trans h.expectedOutputs

theorem apply_sameOutput (c : Channel) (event : NetworkInputKindV1) :
    SameOutput c (c.apply event) := by
  cases event <;> exact ⟨rfl, rfl, rfl, rfl⟩

theorem connect_sameOutput (c : Channel) (nonblocking : Bool) :
    SameOutput c (c.connect nonblocking).1 := by
  unfold connect
  split_ifs <;> exact ⟨rfl, rfl, rfl, rfl⟩

theorem releaseLoop_sameOutput (now : LogicalTime) (inputs : List NetworkInputEventV1) :
    ∀ c : Channel, SameOutput c (releaseLoop now inputs c) := by
  induction inputs with
  | nil => intro c; exact ⟨rfl, rfl, rfl, rfl⟩
  | cons input rest ih =>
    intro c
    rw [releaseLoop]
    split_ifs
    · exact (c.apply_sameOutput input.event).trans (ih _)
    · exact ⟨rfl, rfl, rfl, rfl⟩

theorem release_sameOutput (c : Channel) (now : LogicalTime) : SameOutput c (c.release now) :=
  releaseLoop_sameOutput now c.pendingInputs c

theorem recv_sameOutput (c : Channel) (now : LogicalTime) (maxLen target : ℕ) (peek : Bool) :
    SameOutput c (c.recv now maxLen target peek).1 := by
  refine (c.release_sameOutput now).trans ?_
  rw [recv]
  rcases (c.release now).recvReleased_cases now maxLen target peek with
    ⟨len, h⟩ | ⟨-, errno, -, h⟩ | ⟨-, h⟩ | h <;> rw [h]
  · cases peek <;> exact ⟨rfl, rfl, rfl, rfl⟩
  · exact ⟨rfl, rfl, rfl, rfl⟩
  · exact SameOutput.refl _
  · rw [orStalled_fst]
    exact SameOutput.refl _

theorem readiness_sameOutput (c : Channel) (now : LogicalTime) (lowat : ℕ) :
    SameOutput c (c.readiness now lowat).1 := by
  rw [readiness, orStalled_fst]
  exact c.release_sameOutput now

theorem takeError_sameOutput (c : Channel) (now : LogicalTime) : SameOutput c (c.takeError now).1 :=
  (c.release_sameOutput now).trans ⟨rfl, rfl, rfl, rfl⟩

theorem sendFailure_sameOutput (c : Channel) (now : LogicalTime) :
    SameOutput c (c.sendFailure now).1 := by
  have hrel := c.release_sameOutput now
  unfold sendFailure
  dsimp only
  split_ifs
  · exact hrel.trans ⟨rfl, rfl, rfl, rfl⟩
  · exact hrel

theorem shutdown_sameOutput (c : Channel) (how : ℤ) : SameOutput c (c.shutdown how).1 := by
  unfold shutdown
  split_ifs <;> exact ⟨rfl, rfl, rfl, rfl⟩

/-! ## Replayed sends -/

/-- The outcomes of `replaySend`: an empty send, a send that fails or has to
    wait and leaves the channel alone, a refusal that is consumed, the two
    panics, and the match of a part of the first expected fragment. -/
inductive ReplaySendCases (c : Channel) (bytes : Bytes) (nonblocking : Bool) :
    Except Panic (Channel × Except NetworkEngineError ReplaySendOutcome) → Prop
  | empty (h : bytes = []) : ReplaySendCases c bytes nonblocking (.ok (c, .ok (.sent 0)))
  | failed (h : bytes ≠ []) (x : NetworkEngineError) :
      ReplaySendCases c bytes nonblocking (.ok (c, .error x))
  | notYet (h : bytes ≠ []) : ReplaySendCases c bytes nonblocking (.ok (c, .ok .notYet))
  | refused (h : bytes ≠ []) (fragment : NetworkOutputV4) (rest : List NetworkOutputV4)
      (hexp : c.expectedOutputs = fragment :: rest) (hbyt : fragment.bytes = []) :
      ReplaySendCases c bytes nonblocking
        (.ok ({ c with expectedOutputs := rest }, .ok .wouldBlock))
  | underflow (fragment : NetworkOutputV4) (rest : List NetworkOutputV4)
      (hexp : c.expectedOutputs = fragment :: rest) (hbyt : fragment.bytes ≠ [])
      (hlt : c.tx < fragment.streamOffset) :
      ReplaySendCases c bytes nonblocking (.error .subtractOverflow)
  | slice (fragment : NetworkOutputV4) (rest : List NetworkOutputV4)
      (hexp : c.expectedOutputs = fragment :: rest) (hbyt : fragment.bytes ≠ [])
      (hlt : fragment.bytes.length < c.tx - fragment.streamOffset) :
      ReplaySendCases c bytes nonblocking (.error .sliceOutOfRange)
  | sent (h : bytes ≠ []) (fragment : NetworkOutputV4) (rest : List NetworkOutputV4)
      (remaining : Bytes) (len : ℕ)
      (hexp : c.expectedOutputs = fragment :: rest) (hbyt : fragment.bytes ≠ [])
      (hrem : remaining = fragment.bytes.drop (c.tx - fragment.streamOffset))
      (hlen : len = min remaining.length bytes.length)
      (heq : remaining.take len = bytes.take len) :
      ReplaySendCases c bytes nonblocking (.ok ({ c with
        tx := c.tx + len
        expectedOutputs := if len = remaining.length then rest else c.expectedOutputs },
        .ok (.sent len)))

theorem matchFragment_cases {c : Channel} (id : OpenFileId) {bytes : Bytes} (nonblocking : Bool)
    {fragment : NetworkOutputV4} {rest : List NetworkOutputV4} (h : bytes ≠ [])
    (hexp : c.expectedOutputs = fragment :: rest) (hbyt : fragment.bytes ≠ []) :
    ReplaySendCases c bytes nonblocking (replaySend.matchFragment c id bytes
      (c.tx - fragment.streamOffset) c.tx fragment rest) := by
  unfold replaySend.matchFragment
  dsimp only
  split
  · rename_i hlt
    exact .slice fragment rest hexp hbyt hlt
  · split
    · exact .failed h _
    · rename_i heq
      exact .sent h fragment rest _ _ hexp hbyt rfl rfl (not_not.mp heq)

theorem replaySend_cases (c : Channel) (id : OpenFileId) (bytes : Bytes) (nonblocking : Bool)
    (now : LogicalTime) (waits : ℕ) :
    ReplaySendCases c bytes nonblocking (c.replaySend id bytes nonblocking now waits) := by
  unfold replaySend
  dsimp only
  split
  · rename_i h
    exact .empty h
  · rename_i h
    split
    · exact .failed h _
    · rename_i fragment rest hexp
      split
      · rename_i hbyt
        split
        · exact .failed h _
        · exact .refused h fragment rest hexp hbyt
      · rename_i hbyt
        have hmch := matchFragment_cases id nonblocking h hexp hbyt
        split
        · rename_i hlt
          exact .underflow fragment rest hexp hbyt hlt
        · split
          · split
            · exact .failed h _
            · split
              · exact .notYet h
              · exact hmch
          · exact hmch

end Channel

namespace NetworkEngine

/-! ## Connecting -/

theorem recordConnect_cases (e : NetworkEngine) (id : OpenFileId) (peer : NetworkAddressV1)
    (localAddress : Option NetworkAddressV1) (errno : ℤ) (nonblocking : Bool) :
    (∃ x, e.recordConnect id peer localAddress errno nonblocking = (e, .error x)) ∨
    (e.isRecord = true ∧ e.channels[id]? = none ∧ peer.isTraceablePeer = true ∧
      ∃ c, c = (Channel.new (connectRecord id peer localAddress errno)).connect nonblocking ∧
        e.recordConnect id peer localAddress errno nonblocking =
          ({ e with channels := e.channels.insert id c.1 }, .ok c.2)) := by
  unfold recordConnect
  split
  · exact .inl ⟨_, rfl⟩
  · split
    · exact .inl ⟨_, rfl⟩
    · split
      · exact .inl ⟨_, rfl⟩
      · refine .inr ⟨?_, ?_, ?_, _, rfl, rfl⟩ <;> simp_all

theorem replayConnect_cases (e : NetworkEngine) (id : OpenFileId) (peer : NetworkAddressV1)
    (nonblocking : Bool) :
    (∃ x, e.replayConnect id peer nonblocking = (e, .error x)) ∨
    (∃ unconnected c, e.mode = .replay unconnected ∧ e.channels[id]? = none ∧
      unconnected[id]? = some c ∧ c.record.peerAddress = peer ∧
        e.replayConnect id peer nonblocking = (⟨.replay (unconnected.erase id),
            e.channels.insert c.record.id (c.connect nonblocking).1⟩,
            .ok (c.connect nonblocking).2)) := by
  unfold replayConnect
  split
  · exact .inl ⟨_, rfl⟩
  · rename_i hnew
    split
    · exact .inl ⟨_, rfl⟩
    · rename_i unconnected hmode
      split
      · exact .inl ⟨_, rfl⟩
      · rename_i c hc
        dsimp only
        split
        · exact .inl ⟨_, rfl⟩
        · rename_i hpeer
          refine .inr ⟨unconnected, c, hmode, ?_, hc, not_not.mp hpeer, rfl⟩
          simpa using hnew

/-! ## Recording -/

theorem recordArrivals_replay {e : NetworkEngine} (h : e.isRecord = false) (id : OpenFileId)
    (now : LogicalTime) (arrivals : List NetworkArrival) :
    recordArrivals id now e arrivals = (e, .ok ()) := by
  cases arrivals with
  | nil => rfl
  | cons => simp [recordArrivals, needsPull, h]

theorem recordArrival_cases (e : NetworkEngine) (id : OpenFileId) (now : LogicalTime)
    (arrival : NetworkArrival) :
    (∃ x, e.recordArrival id now arrival = (e, .error x)) ∨
    (∃ epoch inputs outputs c event, e.mode = .record epoch inputs outputs ∧
      e.channels[id]? = some c ∧ c.inputEnded = false ∧ arrival ≠ .bytes [] ∧
      event = arrivalEvent c.rxEnd arrival ∧
      e.recordArrival id now arrival =
        (⟨.record epoch (inputs ++ [⟨inputs.length, id, ⟨now, c.tx⟩, event⟩]) outputs,
          e.channels.insert id (c.apply event)⟩, .ok ())) := by
  unfold recordArrival
  split
  · exact .inl ⟨_, rfl⟩
  · rename_i c hc
    split
    · exact .inl ⟨_, rfl⟩
    · rename_i epoch inputs outputs hmode
      split
      · exact .inl ⟨_, rfl⟩
      · rename_i hvalid
        obtain ⟨hended, hne⟩ := not_or.mp hvalid
        exact .inr ⟨epoch, inputs, outputs, c, _, hmode, hc, by simpa using hended, hne, rfl, rfl⟩

theorem recordSend_cases (e : NetworkEngine) (id : OpenFileId) (sent : Bytes)
    (mark : Option SendMark) (now : LogicalTime) (waits : ℕ) :
    (∃ r, e.recordSend id sent mark now waits = (e, r) ∧
      ∀ m, r = .ok m → sent = [] ∧ ∃ c, e.channels[id]? = some c) ∨
    (∃ epoch inputs outputs c c', e.mode = .record epoch inputs outputs ∧
      e.channels[id]? = some c ∧ sent ≠ [] ∧
      c' = { c with tx := c.tx + sent.length, outputEvents := c.outputEvents + 1 } ∧
      e.recordSend id sent mark now waits = (⟨.record epoch inputs (outputs ++
            [⟨id, c.tx, sent, if 0 < waits then some ⟨waits, now⟩ else none⟩]),
          e.channels.insert id c'⟩, .ok c'.sendMark)) := by
  unfold recordSend
  split
  · exact .inl ⟨_, rfl, by simp⟩
  · rename_i c hc
    split
    · exact .inl ⟨_, rfl, by simp⟩
    · rename_i epoch inputs outputs hmode
      split
      · exact .inl ⟨_, rfl, by simp⟩
      · split
        · rename_i hemp
          exact .inl ⟨_, rfl, fun _ _ => ⟨hemp, c, hc⟩⟩
        · rename_i hne
          exact .inr ⟨epoch, inputs, outputs, c, _, hmode, hc, hne, rfl, rfl⟩

theorem recordRefusedSend_cases (e : NetworkEngine) (id : OpenFileId) :
    (∃ x, e.recordRefusedSend id = (e, .error x)) ∨
    (∃ epoch inputs outputs c, e.mode = .record epoch inputs outputs ∧ e.channels[id]? = some c ∧
      e.recordRefusedSend id = (⟨.record epoch inputs (outputs ++ [⟨id, c.tx, [], none⟩]),
          e.channels.insert id { c with outputEvents := c.outputEvents + 1 }⟩, .ok ())) := by
  unfold recordRefusedSend
  split
  · exact .inl ⟨_, rfl⟩
  · rename_i c hc
    split
    · exact .inl ⟨_, rfl⟩
    · rename_i epoch inputs outputs hmode
      exact .inr ⟨epoch, inputs, outputs, c, hmode, hc, rfl⟩

theorem replaySend_eq_ok {e e' : NetworkEngine} {id : OpenFileId} {bytes : Bytes}
    {nonblocking : Bool} {now : LogicalTime} {waits : ℕ}
    {r : Except NetworkEngineError ReplaySendOutcome}
    (h : e.replaySend id bytes nonblocking now waits = .ok (e', r)) :
    (e' = e ∧ ∃ x, r = .error x) ∨
    (∃ unconnected c c', e.mode = .replay unconnected ∧ e.channels[id]? = some c ∧
      c.replaySend id bytes nonblocking now waits = .ok (c', r) ∧
      e' = { e with channels := e.channels.insert id c' }) := by
  unfold replaySend at h
  split at h
  · cases h
    exact .inl ⟨rfl, _, rfl⟩
  · rename_i hmode
    split at h
    · cases h
      exact .inl ⟨rfl, _, rfl⟩
    · rename_i c hc
      obtain ⟨⟨c', r'⟩, hsend, heq⟩ := bind_eq_ok.mp h
      cases heq
      unfold isRecord at hmode
      split at hmode
      · exact absurd rfl hmode
      · rename_i unconnected hm
        exact .inr ⟨unconnected, c, c', hm, hc, hsend, rfl⟩

/-! ## A new replay -/

theorem foldl_pushInput (inputs : List NetworkInputEventV1) (id : OpenFileId) :
    ∀ m : OrdMap OpenFileId Channel, (inputs.foldl pushInput m)[id]? =
      m[id]?.map fun c => { c with pendingInputs := c.pendingInputs ++ inputsOf id inputs } := by
  induction inputs with
  | nil => intro m; simp [inputsOf]
  | cons input inputs ih =>
    intro m
    rw [List.foldl_cons, ih, pushInput]
    by_cases hid : input.channel = id
    · subst hid
      cases hm : m[input.channel]? with
      | none => simp [hm]
      | some c => simp [inputsOf]
    · have hrest : inputsOf id (input :: inputs) = inputsOf id inputs := by
        simp [inputsOf, hid]
      rw [hrest]
      cases hm : m[input.channel]? with
      | none => rfl
      | some c => simp only [OrdMap.getElem?_insert_ne _ hid]

theorem foldl_pushOutput (outputs : List NetworkOutputV4) (id : OpenFileId) :
    ∀ m : OrdMap OpenFileId Channel, (outputs.foldl pushOutput m)[id]? =
      m[id]?.map fun c => { c with expectedOutputs := c.expectedOutputs ++ outputsOf id outputs } := by
  induction outputs with
  | nil => intro m; simp [outputsOf]
  | cons output outputs ih =>
    intro m
    rw [List.foldl_cons, ih, pushOutput]
    by_cases hid : output.channel = id
    · subst hid
      cases hm : m[output.channel]? with
      | none => simp [hm]
      | some c => simp [outputsOf]
    · have hrest : outputsOf id (output :: outputs) = outputsOf id outputs := by
        simp [outputsOf, hid]
      rw [hrest]
      cases hm : m[output.channel]? with
      | none => rfl
      | some c => simp only [OrdMap.getElem?_insert_ne _ hid]

theorem foldl_insert_new (channels : List NetworkChannelV2) (id : OpenFileId) :
    (channels.foldl (fun m record => m.insert record.id (Channel.new record))
      (∅ : OrdMap OpenFileId Channel))[id]? = (recordOf id channels).map Channel.new := by
  induction channels using List.reverseRecOn with
  | nil => simp [recordOf]
  | append_singleton channels record ih =>
    rw [List.foldl_append, List.foldl_cons, List.foldl_nil, OrdMap.getElem?_insert_ite, ih]
    by_cases hid : record.id = id
    · simp [recordOf, hid]
    · simp [recordOf, hid]

def replayChannel (trace : NetworkTraceV2) (id : OpenFileId) : Option Channel :=
  (recordOf id trace.channels).map fun record =>
    { Channel.new record with
      pendingInputs := inputsOf id trace.inputs
      expectedOutputs := outputsOf id trace.outputs }

theorem newReplay_mode (trace : NetworkTraceV2) :
    ∃ unconnected, newReplay trace = ⟨.replay unconnected, ∅⟩ ∧
      ∀ id : OpenFileId, unconnected[id]? = replayChannel trace id := by
  refine ⟨_, rfl, ?_⟩
  intro id
  rw [foldl_pushOutput, foldl_pushInput, foldl_insert_new, replayChannel]
  cases recordOf id trace.channels <;> rfl

end NetworkEngine

end Hermit.Network
