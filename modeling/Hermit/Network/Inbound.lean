import Hermit.Network.Cases

/-!
# The inbound byte stream

What the guest reads on a channel is the channel's inbound stream, whole and
in order, in record and in replay mode and whatever the requests.
-/

namespace Hermit.Network

open Hermit.Common List

/-! ## One channel -/

namespace Channel

/-- The inbound bytes of a channel the guest has still to receive: those
    buffered, then those of the inputs not yet released. -/
def unread (c : Channel) : Bytes := c.rx ++ payloads c.pendingInputs

theorem apply_rx (c : Channel) (event : NetworkInputKindV1) :
    (c.apply event).rx = c.rx ++ event.payload := by
  cases event <;> simp [apply, NetworkInputKindV1.payload]

@[simp] theorem apply_pendingInputs (c : Channel) (event : NetworkInputKindV1) :
    (c.apply event).pendingInputs = c.pendingInputs := by
  cases event <;> rfl

/-- `c'` is `c` after `got` has gone to the guest: the rest is still unread,
    and no input was scheduled. -/
structure Passes (c c' : Channel) (got : Bytes) : Prop where
  record : c'.record = c.record
  pending : c.pendingInputs = [] → c'.pendingInputs = []
  unread : got ++ c'.unread = c.unread

theorem Passes.refl (c : Channel) : Passes c c [] := ⟨rfl, id, rfl⟩

variable {c : Channel} {now : LogicalTime}

theorem Passes.trans {c' c'' : Channel} {got got' : Bytes} (h : Passes c c' got)
    (h' : Passes c' c'' got') : Passes c c'' (got ++ got') where
  record := h'.record.trans h.record
  pending hp := h'.pending (h.pending hp)
  unread := by rw [append_assoc, h'.unread, h.unread]

theorem connect_passes (c : Channel) (nonblocking : Bool) :
    Passes c (c.connect nonblocking).1 [] := by
  unfold connect
  split_ifs <;> exact ⟨rfl, id, rfl⟩

theorem releaseLoop_unread (now : LogicalTime) (inputs : List NetworkInputEventV1) :
    ∀ c : Channel, (releaseLoop now inputs c).unread = c.rx ++ payloads inputs := by
  induction inputs with
  | nil => intro c; rfl
  | cons input rest ih =>
    intro c
    rw [releaseLoop]
    split_ifs
    · rw [ih, apply_rx, append_assoc]; rfl
    · rfl

/-- Releasing inputs moves bytes into the buffer and loses none. -/
theorem release_passes (c : Channel) (now : LogicalTime) : Passes c (c.release now) [] where
  record := (c.release_sameOutput now).record
  pending hp := by rw [release, hp]; rfl
  unread := releaseLoop_unread now c.pendingInputs c

/-- The bytes an outcome hands over for good: none under `MSG_PEEK`. -/
def consumed (peek : Bool) : Except NetworkEngineError NetworkRecvOutcome → Bytes
  | .ok (.data bytes) => if peek then [] else bytes
  | _ => []

theorem consumed_orStalled (c : Channel) (now : LogicalTime) (peek : Bool) :
    consumed peek (c.orStalled now .wouldBlock).2 = [] := by
  unfold orStalled; split <;> rfl

theorem recvReleased_passes (c : Channel) (now : LogicalTime) (maxLen target : ℕ) (peek : Bool) :
    Passes c (c.recvReleased now maxLen target peek).1
      (consumed peek (c.recvReleased now maxLen target peek).2) := by
  rcases c.recvReleased_cases now maxLen target peek with
    ⟨len, h⟩ | ⟨-, errno, -, h⟩ | ⟨-, h⟩ | h <;> rw [h]
  · cases peek
    · refine ⟨rfl, id, ?_⟩
      show c.rx.take len ++ (c.rx.drop len ++ payloads c.pendingInputs) = c.unread
      rw [← append_assoc, take_append_drop, unread]
    · exact Passes.refl c
  · exact ⟨rfl, id, rfl⟩
  · exact Passes.refl c
  · rw [consumed_orStalled, orStalled_fst]
    exact Passes.refl c

/-- A receive takes the bytes it hands over from the front of the unread ones. -/
theorem recv_passes (c : Channel) (now : LogicalTime) (maxLen target : ℕ) (peek : Bool) :
    Passes c (c.recv now maxLen target peek).1
      (consumed peek (c.recv now maxLen target peek).2) :=
  (c.release_passes now).trans ((c.release now).recvReleased_passes now maxLen target peek)

/-- A peek leaves the bytes it returns at the front of the buffer. -/
theorem recv_peek {maxLen target : ℕ} {bytes : Bytes}
    (h : (c.recv now maxLen target true).2 = .ok (.data bytes)) :
    bytes <+: (c.recv now maxLen target true).1.rx := by
  unfold recv at h ⊢
  rcases (c.release now).recvReleased_cases now maxLen target true with
    ⟨len, h'⟩ | ⟨-, errno, -, h'⟩ | ⟨-, h'⟩ | h' <;> rw [h'] at h ⊢
  · cases h
    exact take_prefix _ _
  · cases h
  · cases h
  · exact absurd h (orStalled_ne_ok _ _ (by simp))

/-- End of file or an error comes only from an empty buffer. -/
theorem recv_terminal {maxLen target : ℕ} {peek : Bool}
    {out : NetworkRecvOutcome} (h : (c.recv now maxLen target peek).2 = .ok out)
    (hout : out = .eof ∨ ∃ errno, out = .error errno) :
    (c.recv now maxLen target peek).1.rx = [] := by
  have hne : out ≠ .wouldBlock := by
    rcases hout with rfl | ⟨errno, rfl⟩ <;> simp
  unfold recv at h ⊢
  rcases (c.release now).recvReleased_cases now maxLen target peek with
    ⟨len, h'⟩ | ⟨hrx, errno, -, h'⟩ | ⟨hrx, h'⟩ | h' <;> rw [h'] at h ⊢
  · cases h
    rcases hout with hout | ⟨errno, hout⟩ <;> cases hout
  · exact hrx
  · exact hrx
  · exact absurd h (orStalled_ne_ok _ _ hne)

theorem readiness_passes (c : Channel) (now : LogicalTime) (lowat : ℕ) :
    Passes c (c.readiness now lowat).1 [] := by
  rw [readiness, orStalled_fst]
  exact c.release_passes now

theorem takeError_passes (c : Channel) (now : LogicalTime) : Passes c (c.takeError now).1 [] :=
  (c.release_passes now).trans ⟨rfl, id, rfl⟩

theorem sendFailure_passes (c : Channel) (now : LogicalTime) :
    Passes c (c.sendFailure now).1 [] := by
  have hrel := c.release_passes now
  unfold sendFailure
  dsimp only
  split_ifs
  · exact hrel.trans ⟨rfl, id, rfl⟩
  · exact hrel

theorem shutdown_passes (c : Channel) (how : ℤ) : Passes c (c.shutdown how).1 [] := by
  unfold shutdown
  split_ifs <;> exact ⟨rfl, id, rfl⟩

theorem replaySend_passes {c' : Channel} {id : OpenFileId} {bytes : Bytes} {nonblocking : Bool}
    {waits : ℕ} {r : Except NetworkEngineError ReplaySendOutcome}
    (h : c.replaySend id bytes nonblocking now waits = .ok (c', r)) : Passes c c' [] := by
  have hc := c.replaySend_cases id bytes nonblocking now waits
  rw [h] at hc
  cases hc <;> exact ⟨rfl, fun hp => hp, rfl⟩

end Channel

/-! ## One request -/

namespace NetworkEngine

/-- The channel of an identity: connected, or recorded and not connected yet. -/
def channelOf (e : NetworkEngine) (id : OpenFileId) : Option Channel :=
  match e.channels[id]? with
  | some c => some c
  | none =>
    match e.mode with
    | .record .. => none
    | .replay unconnected => unconnected[id]?

/-- The inbound bytes the guest has still to receive on a channel. -/
def unread (e : NetworkEngine) (id : OpenFileId) : Bytes :=
  ((e.channelOf id).map Channel.unread).getD []

def recordedInputs (e : NetworkEngine) : List NetworkInputEventV1 :=
  match e.mode with
  | .record _ inputs _ => inputs
  | .replay _ => []

def received (id : OpenFileId) :
    (LogicalTime × NetworkRequest) × Except NetworkEngineError NetworkReply → Bytes
  | ((_, .recv id' _ _ _ false), .ok (.recv (.data bytes))) => if id' = id then bytes else []
  | _ => []

structure WellFormed (e : NetworkEngine) : Prop where
  keyed : ∀ id c, e.channelOf id = some c → c.record.id = id
  released : e.isRecord = true → ∀ id c, e.channelOf id = some c → c.pendingInputs = []

/-- From `e` to `e'` the guest received `got`: on every channel the bytes
    unread in `e`, with those of the inputs recorded since, are the bytes
    received and the bytes unread in `e'`. -/
structure Inflow (e e' : NetworkEngine) (got : OpenFileId → Bytes) : Prop where
  wellFormed : e'.WellFormed
  mode : e'.isRecord = e.isRecord
  flow : ∃ arrived, e'.recordedInputs = e.recordedInputs ++ arrived ∧
    ∀ id, e.unread id ++ payloads (inputsOf id arrived) = got id ++ e'.unread id

variable {e e' : NetworkEngine} {id : OpenFileId} {c c' : Channel}

theorem Inflow.refl (h : e.WellFormed) : Inflow e e fun _ => [] where
  wellFormed := h
  mode := rfl
  flow := ⟨[], by simp [inputsOf]⟩

theorem Inflow.trans {e'' : NetworkEngine} {got got' : OpenFileId → Bytes}
    (h : Inflow e e' got) (h' : Inflow e' e'' got') : Inflow e e'' fun id => got id ++ got' id where
  wellFormed := h'.wellFormed
  mode := h'.mode.trans h.mode
  flow := by
    obtain ⟨arrived, hrec, hflow⟩ := h.flow
    obtain ⟨arrived', hrec', hflow'⟩ := h'.flow
    refine ⟨arrived ++ arrived', by rw [hrec', hrec, append_assoc], ?_⟩
    intro id
    rw [inputsOf_append, payloads_append, ← append_assoc, hflow id, append_assoc,
      hflow' id, append_assoc]

theorem channelOf_connected (h : e.channels[id]? = some c) : e.channelOf id = some c := by
  rw [channelOf, h]

theorem inflow_update (hwf : e.WellFormed)
    {arrived : List NetworkInputEventV1} {got : Bytes} (hmode : e'.isRecord = e.isRecord)
    (hrec : e'.recordedInputs = e.recordedInputs ++ arrived)
    (harr : ∀ input ∈ arrived, input.channel = id)
    (hof : ∀ i, e'.channelOf i = if id = i then some c' else e.channelOf i)
    (hkey : c'.record.id = id) (hpend : e.isRecord = true → c'.pendingInputs = [])
    (hflow : e.unread id ++ payloads arrived = got ++ c'.unread) :
    Inflow e e' fun i => if id = i then got else [] where
  wellFormed := by
    refine ⟨?_, ?_⟩
    · intro i c hc
      rw [hof] at hc
      split_ifs at hc with hi
      · cases hc
        exact hkey.trans hi
      · exact hwf.keyed i c hc
    · intro hr i c hc
      rw [hmode] at hr
      rw [hof] at hc
      split_ifs at hc with hi
      · cases hc
        exact hpend hr
      · exact hwf.released hr i c hc
  mode := hmode
  flow := by
    refine ⟨arrived, hrec, ?_⟩
    intro i
    by_cases hi : id = i
    · subst hi
      have hall : inputsOf id arrived = arrived := by
        simpa [inputsOf, filter_eq_self] using harr
      have hun : e'.unread id = c'.unread := by simp [unread, hof]
      rw [hall, hun, if_pos rfl, hflow]
    · have hnone : inputsOf i arrived = [] := by
        rw [inputsOf, filter_eq_nil_iff]
        intro input hmem
        simpa [harr input hmem] using hi
      have hun : e'.unread i = e.unread i := by simp [unread, hof, hi]
      rw [hnone, hun, if_neg hi]
      simp

/-- As `inflow_update`, when the guest receives nothing. -/
theorem inflow_quiet (hwf : e.WellFormed)
    {arrived : List NetworkInputEventV1} (hmode : e'.isRecord = e.isRecord)
    (hrec : e'.recordedInputs = e.recordedInputs ++ arrived)
    (harr : ∀ input ∈ arrived, input.channel = id)
    (hof : ∀ i, e'.channelOf i = if id = i then some c' else e.channelOf i)
    (hkey : c'.record.id = id) (hpend : e.isRecord = true → c'.pendingInputs = [])
    (hflow : e.unread id ++ payloads arrived = c'.unread) : Inflow e e' fun _ => [] := by
  have h := inflow_update hwf hmode hrec harr hof hkey hpend (hflow.trans (nil_append _).symm)
  simpa using h

theorem unread_of_channelOf (h : e.channelOf id = some c) : e.unread id = c.unread := by
  simp [unread, h]

theorem channelOf_insert (e : NetworkEngine) (id id' : OpenFileId) (c : Channel) :
    channelOf { e with channels := e.channels.insert id c } id' =
      if id = id' then some c else e.channelOf id' := by
  unfold channelOf
  rw [OrdMap.getElem?_insert_ite]
  split_ifs <;> rfl

theorem inflow_insert (hwf : e.WellFormed)
    {got : Bytes} (hc : e.channelOf id = some c) (hp : c.Passes c' got) :
    Inflow e { e with channels := e.channels.insert id c' } fun i => if id = i then got else [] := by
  have hkey : c'.record.id = id := by rw [hp.record, hwf.keyed id c hc]
  have hflow : e.unread id ++ payloads [] = got ++ c'.unread := by
    rw [unread_of_channelOf hc, payloads_nil, append_nil, hp.unread]
  exact inflow_update hwf rfl (append_nil _).symm (by simp) (e.channelOf_insert id · c') hkey
    (fun hrec => hp.pending (hwf.released hrec id c hc)) hflow

theorem onChannel_inflow {α : Type} (hwf : e.WellFormed) (id : OpenFileId)
    {f : Channel → Channel × Except NetworkEngineError α}
    (got : Except NetworkEngineError α → Bytes) (hgot : ∀ x, got (.error x) = [])
    (hf : ∀ c, Channel.Passes c (f c).1 (got (f c).2)) :
    Inflow e (e.onChannel id f).1 fun i => if id = i then got (e.onChannel id f).2 else [] := by
  unfold onChannel
  split
  · simpa [hgot] using Inflow.refl hwf
  · rename_i c hc
    exact inflow_insert hwf (channelOf_connected hc) (hf c)

theorem onChannel_quiet {α : Type} (hwf : e.WellFormed) (id : OpenFileId)
    {f : Channel → Channel × Except NetworkEngineError α}
    (hf : ∀ c, Channel.Passes c (f c).1 []) : Inflow e (e.onChannel id f).1 fun _ => [] := by
  simpa using onChannel_inflow hwf id (fun _ => []) (fun _ => rfl) hf

theorem channelOf_eq_none (hrec : e.isRecord = true)
    (h : e.channels[id]? = none) : e.channelOf id = none := by
  unfold isRecord at hrec
  unfold channelOf
  rw [h]
  cases hmode : e.mode with
  | record => rfl
  | replay =>
    rw [hmode] at hrec
    cases hrec

theorem recordConnect_inflow (hwf : e.WellFormed) (id : OpenFileId)
    (peer : NetworkAddressV1) (localAddress : Option NetworkAddressV1) (errno : ℤ)
    (nonblocking : Bool) :
    Inflow e (e.recordConnect id peer localAddress errno nonblocking).1 fun _ => [] := by
  rcases e.recordConnect_cases id peer localAddress errno nonblocking with
    ⟨x, h⟩ | ⟨hrec, hnew, -, c, hc, h⟩
  · rw [h]
    exact Inflow.refl hwf
  · have hpass : Channel.Passes (Channel.new (connectRecord id peer localAddress errno)) c.1 [] := by
      rw [hc]
      exact Channel.connect_passes _ nonblocking
    have hflow : e.unread id ++ payloads [] = c.1.unread := by
      rw [← nil_append c.1.unread, hpass.unread, unread, channelOf_eq_none hrec hnew]
      rfl
    have hkey : c.1.record.id = id := by rw [hpass.record]; rfl
    rw [h]
    exact inflow_quiet hwf rfl (append_nil _).symm (by simp)
      (e.channelOf_insert id · c.1) hkey (fun _ => hpass.pending rfl) hflow

theorem replayConnect_inflow (hwf : e.WellFormed) (id : OpenFileId)
    (peer : NetworkAddressV1) (nonblocking : Bool) :
    Inflow e (e.replayConnect id peer nonblocking).1 fun _ => [] := by
  rcases e.replayConnect_cases id peer nonblocking with
    ⟨x, h⟩ | ⟨unconnected, c, hmode, hnew, hc, -, h⟩
  · rw [h]
    exact Inflow.refl hwf
  · have hof : e.channelOf id = some c := by
      unfold channelOf
      rw [hnew]
      simp only [hmode, hc]
    have hid : c.record.id = id := hwf.keyed id c hof
    have hrec : e.isRecord = false := by rw [isRecord, hmode]
    have hpass := c.connect_passes nonblocking
    have hflow : e.unread id ++ payloads [] = (c.connect nonblocking).1.unread := by
      rw [unread_of_channelOf hof, payloads_nil, append_nil, ← hpass.unread, nil_append]
    have hoth : ∀ i, channelOf ⟨.replay (unconnected.erase id),
        e.channels.insert id (c.connect nonblocking).1⟩ i =
          if id = i then some (c.connect nonblocking).1 else e.channelOf i := by
      intro i
      unfold channelOf
      rw [OrdMap.getElem?_insert_ite]
      split_ifs with hi
      · rfl
      · simp only [hmode, OrdMap.getElem?_erase_ne _ hi]
    rw [h, hid]
    exact inflow_quiet hwf hrec.symm (by simp [recordedInputs, hmode]) (by simp) hoth
      (hpass.record ▸ hid) (fun hr => by rw [hrec] at hr; cases hr) hflow

theorem recordArrival_inflow (hwf : e.WellFormed) (id : OpenFileId)
    (now : LogicalTime) (arrival : NetworkArrival) :
    Inflow e (e.recordArrival id now arrival).1 fun _ => [] := by
  rcases e.recordArrival_cases id now arrival with
    ⟨x, h⟩ | ⟨epoch, inputs, outputs, c, event, hmode, hc, -, -, -, h⟩
  · rw [h]
    exact Inflow.refl hwf
  · set input : NetworkInputEventV1 := ⟨inputs.length, id, ⟨now, c.tx⟩, event⟩ with hinput
    have hof := channelOf_connected hc
    have hrec : e.isRecord = true := by rw [isRecord, hmode]
    have hpend : c.pendingInputs = [] := hwf.released hrec id c hof
    have hoth : ∀ i, channelOf ⟨.record epoch (inputs ++ [input]) outputs,
        e.channels.insert id (c.apply event)⟩ i =
          if id = i then some (c.apply event) else e.channelOf i := by
      intro i
      unfold channelOf
      rw [OrdMap.getElem?_insert_ite]
      split_ifs
      · rfl
      · simp only [hmode]
    have hkey : (c.apply event).record.id = id := by
      rw [(c.apply_sameOutput event).record, hwf.keyed id c hof]
    have hflow : e.unread id ++ payloads [input] = (c.apply event).unread := by
      rw [unread_of_channelOf hof]
      simp [Channel.unread, Channel.apply_rx, hpend, payloads, hinput]
    rw [h]
    exact inflow_quiet hwf hrec.symm (by simp [recordedInputs, hmode]) (by simp [hinput])
      hoth hkey (fun _ => by rw [Channel.apply_pendingInputs, hpend]) hflow

theorem recordArrivals_inflow (id : OpenFileId) (now : LogicalTime)
    (arrivals : List NetworkArrival) : ∀ {e : NetworkEngine}, e.WellFormed →
      Inflow e (recordArrivals id now e arrivals).1 fun _ => [] := by
  induction arrivals with
  | nil => intro e hwf; exact Inflow.refl hwf
  | cons arrival arrivals ih =>
    intro e hwf
    rw [recordArrivals]
    split_ifs
    · exact Inflow.refl hwf
    · have harr := recordArrival_inflow hwf id now arrival
      split
      · rename_i e' x h
        rwa [h] at harr
      · rename_i e' u h
        rw [h] at harr
        exact harr.trans (ih harr.wellFormed)

theorem inflow_output (hwf : e.WellFormed) {epoch : UtcDateTime}
    {inputs : List NetworkInputEventV1} {outputs outputs' : List NetworkOutputV4}
    (hmode : e.mode = .record epoch inputs outputs)
    (hc : e.channels[id]? = some c) (hp : c.Passes c' []) :
    Inflow e ⟨.record epoch inputs outputs', e.channels.insert id c'⟩ fun _ => [] := by
  have hof := channelOf_connected hc
  have hrec : e.isRecord = true := by rw [isRecord, hmode]
  have hoth : ∀ i, channelOf ⟨.record epoch inputs outputs', e.channels.insert id c'⟩ i =
      if id = i then some c' else e.channelOf i := by
    intro i
    unfold channelOf
    rw [OrdMap.getElem?_insert_ite]
    split_ifs
    · rfl
    · simp only [hmode]
  have hkey : c'.record.id = id := by rw [hp.record, hwf.keyed id c hof]
  have hflow : e.unread id ++ payloads [] = c'.unread := by
    rw [unread_of_channelOf hof, payloads_nil, append_nil, ← hp.unread, nil_append]
  exact inflow_quiet hwf hrec.symm (by simp [recordedInputs, hmode]) (by simp) hoth hkey
    (fun _ => hp.pending (hwf.released hrec id c hof)) hflow

theorem recordSend_inflow (hwf : e.WellFormed) (id : OpenFileId) (sent : Bytes)
    (mark : Option SendMark) (now : LogicalTime) (waits : ℕ) :
    Inflow e (e.recordSend id sent mark now waits).1 fun _ => [] := by
  rcases e.recordSend_cases id sent mark now waits with
    ⟨r, h, -⟩ | ⟨epoch, inputs, outputs, c, c', hmode, hc, -, hc', h⟩
  · rw [h]
    exact Inflow.refl hwf
  · rw [h]
    exact inflow_output hwf hmode hc (by rw [hc']; exact ⟨rfl, fun hp => hp, rfl⟩)

theorem recordRefusedSend_inflow (hwf : e.WellFormed) (id : OpenFileId) :
    Inflow e (e.recordRefusedSend id).1 fun _ => [] := by
  rcases e.recordRefusedSend_cases id with
    ⟨x, h⟩ | ⟨epoch, inputs, outputs, c, hmode, hc, h⟩
  · rw [h]
    exact Inflow.refl hwf
  · rw [h]
    exact inflow_output hwf hmode hc ⟨rfl, fun hp => hp, rfl⟩

theorem readinessEntry_inflow (hwf : e.WellFormed) (now : LogicalTime)
    (entry : OpenFileId × ℕ × List NetworkArrival) :
    Inflow e (e.readinessEntry now entry).1 fun _ => [] := by
  have harr := recordArrivals_inflow entry.1 now entry.2.2 hwf
  unfold readinessEntry
  split
  · rename_i e' x h
    rwa [h] at harr
  · rename_i e' u h
    rw [h] at harr
    exact harr.trans (onChannel_quiet harr.wellFormed entry.1
      fun c => c.readiness_passes now entry.2.1)

theorem readinessLoop_inflow (now : LogicalTime)
    (entries : List (OpenFileId × ℕ × List NetworkArrival)) : ∀ {e : NetworkEngine},
      e.WellFormed → Inflow e (readinessLoop now e entries).1 fun _ => [] := by
  induction entries with
  | nil => intro e hwf; exact Inflow.refl hwf
  | cons entry entries ih =>
    intro e hwf
    have hent := readinessEntry_inflow hwf now entry
    rw [readinessLoop]
    split
    · rename_i e' x h
      rwa [h] at hent
    · rename_i e' events h
      rw [h] at hent
      exact hent.trans (ih hent.wellFormed)

theorem recvRequest_inflow (hwf : e.WellFormed) (now : LogicalTime)
    (id : OpenFileId) (arrivals : List NetworkArrival) (maxLen target : ℕ) (peek : Bool) :
    Inflow e (e.recvRequest now id arrivals maxLen target peek).1 fun i =>
      if id = i then Channel.consumed peek (e.recvRequest now id arrivals maxLen target peek).2
      else [] := by
  have harr := recordArrivals_inflow id now arrivals hwf
  unfold recvRequest
  split
  · rename_i e' x h
    rw [h] at harr
    simpa [Channel.consumed] using harr
  · rename_i e' u h
    rw [h] at harr
    exact harr.trans (onChannel_inflow harr.wellFormed id (Channel.consumed peek) (fun _ => rfl)
      fun c => c.recv_passes now maxLen target peek)

theorem received_recv (id i : OpenFileId) (now : LogicalTime) (arrivals : List NetworkArrival)
    (maxLen target : ℕ) (peek : Bool) (out : Except NetworkEngineError NetworkRecvOutcome) :
    received i ((now, .recv id arrivals maxLen target peek), out.map .recv) =
      if id = i then Channel.consumed peek out else [] := by
  cases peek <;> rcases out with x | (bytes | _ | errno | _) <;>
    simp [received, Channel.consumed, Except.map]

/-- **One request.** It moves inbound bytes only from the inputs it records to
    the channels' queues, and from the front of a queue to the guest. -/
theorem step_inflow (hwf : e.WellFormed) {r : LogicalTime × NetworkRequest}
    {reply : Except NetworkEngineError NetworkReply} (h : e.step r = .ok (e', reply)) :
    Inflow e e' fun id => received id (r, reply) := by
  obtain ⟨now, request⟩ := r
  cases request with
  | recordConnect id peer localAddress errno nonblocking =>
    cases h
    exact recordConnect_inflow hwf id peer localAddress errno nonblocking
  | replayConnect id peer nonblocking =>
    cases h
    exact replayConnect_inflow hwf id peer nonblocking
  | recv id arrivals maxLen target peek =>
    cases h
    simp only [received_recv]
    exact recvRequest_inflow hwf now id arrivals maxLen target peek
  | readiness channels =>
    cases h
    exact readinessLoop_inflow now channels hwf
  | takeError id =>
    cases h
    exact onChannel_quiet hwf id fun c => c.takeError_passes now
  | sendFailure id =>
    cases h
    exact onChannel_quiet hwf id fun c => c.sendFailure_passes now
  | recordSend id bytes mark waits =>
    cases h
    exact recordSend_inflow hwf id bytes mark now waits
  | recordRefusedSend id =>
    cases h
    exact recordRefusedSend_inflow hwf id
  | replaySend =>
    obtain ⟨⟨e₁, out⟩, hsend, heq⟩ := map_eq_ok.mp h
    cases heq
    rcases replaySend_eq_ok hsend with ⟨rfl, -⟩ | ⟨unconnected, c, c', -, hc, hs, rfl⟩
    · exact Inflow.refl hwf
    · have hins := inflow_insert hwf (channelOf_connected hc) (Channel.replaySend_passes hs)
      simpa [received] using hins
  | shutdown id how =>
    cases h
    exact onChannel_quiet hwf id fun c => c.shutdown_passes how
  | addresses id =>
    cases h
    exact Inflow.refl hwf

/-! ## Whole runs -/

/-- **A run.** From a well-formed engine, the bytes received along the run come
    from the front of the bytes unread at its start, followed by the payloads
    recorded on the way. -/
theorem run_inflow (hwf : e.WellFormed) {requests : List (LogicalTime × NetworkRequest)}
    {replies : List (Except NetworkEngineError NetworkReply)}
    (h : run step e requests = .ok (e', replies)) :
    Inflow e e' fun id => (requests.zip replies).flatMap (received id) := by
  refine run_history (fun e' hist => Inflow e e' fun id => hist.flatMap (received id)) ?_
    (Inflow.refl hwf) h
  intro s hist r s' reply hI hs
  simpa using hI.trans (step_inflow hI.wellFormed hs)

inductive Start
  | record (epoch : UtcDateTime)
  | replay (trace : NetworkTraceV2)

def Start.engine : Start → NetworkEngine
  | record epoch => newRecord epoch
  | replay trace => newReplay trace

def Start.inputs (e : NetworkEngine) : Start → List NetworkInputEventV1
  | record _ => e.recordedInputs
  | replay trace => trace.inputs

theorem channelOf_newReplay (trace : NetworkTraceV2) (id : OpenFileId) :
    (newReplay trace).channelOf id = replayChannel trace id := by
  obtain ⟨unconnected, h, hun⟩ := newReplay_mode trace
  rw [h]
  unfold channelOf
  simp [hun]

theorem Start.wellFormed (s : Start) : s.engine.WellFormed := by
  cases s with
  | record epoch =>
    refine ⟨?_, ?_⟩
    · intro id c h; simp [engine, newRecord, channelOf] at h
    · intro _ id c h; simp [engine, newRecord, channelOf] at h
  | replay trace =>
    refine ⟨?_, ?_⟩
    · intro id c h
      rw [engine, channelOf_newReplay, replayChannel] at h
      obtain ⟨record, hrec, rfl⟩ := Option.map_eq_some_iff.mp h
      exact (recordOf_id hrec).2
    · intro h; cases h

def Start.HasChannel (id : OpenFileId) : Start → Prop
  | record _ => True
  | replay trace => ∃ record ∈ trace.channels, record.id = id

theorem Start.run_stream (start : Start) {requests : List (LogicalTime × NetworkRequest)}
    {replies : List (Except NetworkEngineError NetworkReply)} (hid : start.HasChannel id)
    (hrun : run step start.engine requests = .ok (e, replies)) :
    (requests.zip replies).flatMap (received id) ++ e.unread id =
      payloads (inputsOf id (start.inputs e)) := by
  have hin := run_inflow start.wellFormed hrun
  obtain ⟨arrived, hrec, hflow⟩ := hin.flow
  rw [← hflow id]
  cases start with
  | record epoch =>
    have hall : e.recordedInputs = arrived := hrec
    rw [inputs, hall]
    rfl
  | replay trace =>
    have hnone : arrived = [] := by
      have hmode : e.isRecord = false := hin.mode
      have hemp : e.recordedInputs = [] := by
        unfold isRecord at hmode
        unfold recordedInputs
        cases hm : e.mode with
        | record => rw [hm] at hmode; cases hmode
        | replay => rfl
      rw [hemp] at hrec
      exact (append_eq_nil_iff.mp hrec.symm).2
    obtain ⟨record, hr⟩ := recordOf_isSome.mpr hid
    have hun : (newReplay trace).unread id = payloads (inputsOf id trace.inputs) := by
      rw [unread, channelOf_newReplay, replayChannel, hr]
      rfl
    rw [hnone, inputs, engine, hun]
    simp [inputsOf]

/-- What a receive leaves of the channel it is made on. -/
theorem recv_step {now : LogicalTime}
    {arrivals : List NetworkArrival} {maxLen target : ℕ} {peek : Bool} {out : NetworkRecvOutcome}
    (h : e.step (now, .recv id arrivals maxLen target peek) = .ok (e', .ok (.recv out))) :
    ∃ c', e'.channels[id]? = some c' ∧
      (peek = true → ∀ bytes, out = .data bytes → bytes <+: c'.rx) ∧
      ((out = .eof ∨ ∃ errno, out = .error errno) → c'.rx = []) := by
  have hreq : (e', Except.ok out) = e.recvRequest now id arrivals maxLen target peek := by
    have heq : replyWith .recv (e.recvRequest now id arrivals maxLen target peek) =
        (e', .ok (.recv out)) := Except.ok.inj h
    rcases hr : e.recvRequest now id arrivals maxLen target peek with ⟨e₁, x | out₁⟩ <;>
      rw [hr] at heq <;> cases heq
    rfl
  unfold recvRequest at hreq
  split at hreq
  · cases hreq
  · unfold onChannel at hreq
    split at hreq
    · cases hreq
    · rename_i c hc
      have hout : (c.recv now maxLen target peek).2 = .ok out := (Prod.mk.inj hreq).2.symm
      have he : e' = _ := (Prod.mk.inj hreq).1
      refine ⟨(c.recv now maxLen target peek).1, by rw [he]; simp, ?_, ?_⟩
      · rintro rfl bytes rfl
        exact Channel.recv_peek hout
      · exact Channel.recv_terminal hout

end NetworkEngine

end Hermit.Network
