import Hermit.Network.Inbound

/-!
# A replay repeats its recording

The trace of a recording, replayed with the same guest requests at the same
global times, gives the guest the same replies. A channel of the replay is the
recorded one with what is still to come queued on it (`Channel.view`).

* `replay_repeats_record`, `pollTwice_diverges`
-/

namespace Hermit.Network

open Hermit.Common OrdMap List

/-! ## Corresponding requests -/

def NetworkRequest.channels : NetworkRequest → List OpenFileId
  | .recordConnect id .. => [id]
  | .replayConnect id .. => [id]
  | .recv id .. => [id]
  | .readiness entries => entries.map (·.1)
  | .takeError id => [id]
  | .sendFailure id => [id]
  | .recordSend id .. => [id]
  | .recordRefusedSend id => [id]
  | .replaySend id .. => [id]
  | .shutdown id _ => [id]
  | .addresses id => [id]

def withoutArrivals (entry : OpenFileId × ℕ × List NetworkArrival) :
    OpenFileId × ℕ × List NetworkArrival := (entry.1, entry.2.1, [])

/-- The request a replaying guest makes where the recording one made `request`:
    without arrivals, and with a replayed send for a recorded one. Only a
    blocking send can have waited, and only a nonblocking send of some bytes
    can have been refused. -/
inductive ReplayOf : NetworkRequest → NetworkRequest → Prop
  | connect (id : OpenFileId) (peer : NetworkAddressV1) (localAddress : Option NetworkAddressV1)
      (errno : ℤ) (nonblocking : Bool) :
      ReplayOf (.recordConnect id peer localAddress errno nonblocking)
        (.replayConnect id peer nonblocking)
  | recv (id : OpenFileId) (arrivals : List NetworkArrival) (maxLen target : ℕ) (peek : Bool) :
      ReplayOf (.recv id arrivals maxLen target peek) (.recv id [] maxLen target peek)
  | readiness (entries : List (OpenFileId × ℕ × List NetworkArrival)) :
      ReplayOf (.readiness entries) (.readiness (entries.map withoutArrivals))
  | takeError (id : OpenFileId) : ReplayOf (.takeError id) (.takeError id)
  | sendFailure (id : OpenFileId) : ReplayOf (.sendFailure id) (.sendFailure id)
  | send (id : OpenFileId) (bytes : Bytes) (mark : Option SendMark) (waits : ℕ)
      (nonblocking : Bool) (h : 0 < waits → nonblocking = false) :
      ReplayOf (.recordSend id bytes mark waits) (.replaySend id bytes nonblocking waits)
  | refused (id : OpenFileId) (bytes : Bytes) (waits : ℕ) (h : bytes ≠ []) :
      ReplayOf (.recordRefusedSend id) (.replaySend id bytes true waits)
  | shutdown (id : OpenFileId) (how : ℤ) : ReplayOf (.shutdown id how) (.shutdown id how)
  | addresses (id : OpenFileId) : ReplayOf (.addresses id) (.addresses id)

def guestReply : NetworkRequest → NetworkReply → NetworkReply
  | .recordSend _ bytes _ _, .recorded _ => .sent bytes.length
  | _, reply => reply

/-- No entry of a poll carries arrivals for a channel that an earlier entry of
    it already reported. -/
def NetworkRequest.NoLateArrival : NetworkRequest → Prop
  | .readiness entries => entries.Pairwise fun a b => a.1 = b.1 → b.2.2 = []
  | _ => True

/-! ## One channel -/

namespace Channel

/-- The channel of a replay that stands for the recorded channel `c`, with the
    inputs and fragments still to come. -/
def view (c : Channel) (inputs : List NetworkInputEventV1) (outputs : List NetworkOutputV4) :
    Channel :=
  { c with outputEvents := 0, pendingInputs := inputs, expectedOutputs := outputs }

@[simp] theorem view_record (c : Channel) (inputs : List NetworkInputEventV1)
    (outputs : List NetworkOutputV4) : (c.view inputs outputs).record = c.record := rfl

def applyAll (inputs : List NetworkInputEventV1) (c : Channel) : Channel :=
  inputs.foldl (fun c input => c.apply input.event) c

theorem apply_view (c : Channel) (inputs : List NetworkInputEventV1)
    (outputs : List NetworkOutputV4) (event : NetworkInputKindV1) :
    (c.view inputs outputs).apply event = (c.apply event).view inputs outputs := by
  cases event <;> rfl

/-- The inputs that a request at `now` cannot release yet. -/
def Later (now : LogicalTime) (inputs : List NetworkInputEventV1) : Prop :=
  ∀ input ∈ inputs, now < input.release.notBeforeGlobalTime

variable {now : LogicalTime} {later : List NetworkInputEventV1} {c : Channel}

theorem releaseLoop_later {inputs : List NetworkInputEventV1} (h : Later now inputs) (c : Channel) :
    releaseLoop now inputs c = { c with pendingInputs := inputs } := by
  cases inputs with
  | nil => rfl
  | cons input rest =>
    have hlt : now < input.release.notBeforeGlobalTime := h input mem_cons_self
    have hnot : input.release.isEligible now c.tx = false := by
      simp [NetworkReleaseV1.isEligible, not_le.mpr hlt]
    simp [releaseLoop, hnot]

theorem releaseLoop_due (hlat : Later now later) (due : List NetworkInputEventV1) :
    ∀ c : Channel, (∀ input ∈ due, input.release.isEligible now c.tx = true) →
      releaseLoop now (due ++ later) c = { applyAll due c with pendingInputs := later } := by
  induction due with
  | nil => intro c _; exact releaseLoop_later hlat c
  | cons input due ih =>
    intro c hdue
    have hhead := hdue input mem_cons_self
    rw [cons_append, releaseLoop, if_pos hhead, ih]
    · rfl
    · intro i hi
      rw [(c.apply_sameOutput input.event).tx]
      exact hdue i (mem_cons_of_mem _ hi)

theorem applyAll_view (due : List NetworkInputEventV1) (inputs : List NetworkInputEventV1)
    (outputs : List NetworkOutputV4) : ∀ c : Channel,
      applyAll due (c.view inputs outputs) = (applyAll due c).view inputs outputs := by
  induction due with
  | nil => intro c; rfl
  | cons input due ih =>
    intro c
    show applyAll due ((c.view inputs outputs).apply input.event) = _
    rw [apply_view, ih]
    rfl

/-- **Release.** A replay at `now` releases the inputs recorded at `now` and
    stops before those recorded later. -/
theorem release_view {due : List NetworkInputEventV1}
    (hdue : ∀ input ∈ due, input.release.isEligible now c.tx = true) (hlat : Later now later)
    (outputs : List NetworkOutputV4) :
    (c.view (due ++ later) outputs).release now = (applyAll due c).view later outputs := by
  have hrel := releaseLoop_due hlat due (c.view (due ++ later) outputs) hdue
  show releaseLoop now (due ++ later) (c.view (due ++ later) outputs) = _
  rw [hrel, applyAll_view]
  rfl

theorem release_eq_self (h : c.pendingInputs = []) (now : LogicalTime) : c.release now = c := by
  rw [release, h, releaseLoop, ← h]

theorem checkStalled_later (h : Later now c.pendingInputs) : c.checkStalled now = .ok () := by
  unfold checkStalled
  split
  · rfl
  · rename_i input rest heq
    have hlt : now < input.release.notBeforeGlobalTime := h input (by rw [heq]; exact mem_cons_self)
    rw [if_neg]
    rintro ⟨-, hle⟩
    rw [LogicalTime.lt_def] at hlt
    rw [LogicalTime.le_def, LogicalTime.add_nanos] at hle
    have hbd := input.release.notBeforeGlobalTime.nanos_le
    have hmax := now.nanos_le
    omega

theorem orStalled_later (h : Later now c.pendingInputs)
    {α : Type} (result : α) : c.orStalled now result = (c, .ok result) := by
  rw [orStalled, checkStalled_later h]

/-- An operation that does to the view of a channel what it does to the
    channel, when the inputs still to come lie later than `now`. -/
def Commutes {α : Type} (now : LogicalTime)
    (f : Channel → Channel × Except NetworkEngineError α) : Prop :=
  ∀ (c : Channel) later outputs, c.pendingInputs = [] → Later now later →
    f (c.view later outputs) = ((f c).1.view later outputs, (f c).2)

theorem release_view_later (c : Channel) (hlat : Later now later) (outputs : List NetworkOutputV4) :
    (c.view later outputs).release now = c.view later outputs :=
  releaseLoop_later hlat _

theorem recvReleased_view (hp : c.pendingInputs = [])
    (hlat : Later now later) (outputs : List NetworkOutputV4) (maxLen target : ℕ) (peek : Bool) :
    (c.view later outputs).recvReleased now maxLen target peek =
      ((c.recvReleased now maxLen target peek).1.view later outputs,
        (c.recvReleased now maxLen target peek).2) := by
  have hc : Later now c.pendingInputs := by rw [hp]; intro i hi; cases hi
  have hv : Later now (c.view later outputs).pendingInputs := hlat
  have hrx : (c.view later outputs).rx = c.rx := rfl
  have hend : (c.view later outputs).inputEnded = c.inputEnded := rfl
  have hshut : (c.view later outputs).shutRd = c.shutRd := rfl
  have herr : (c.view later outputs).pendingError = c.pendingError := rfl
  unfold recvReleased
  simp only [orStalled_later hc, orStalled_later hv, hrx, hend, hshut, herr]
  split_ifs
  · rfl
  · rfl
  · cases c.pendingError <;> rfl
  · cases c.pendingError <;> rfl
  · rfl

theorem recv_commutes (now : LogicalTime) (maxLen target : ℕ) (peek : Bool) :
    Commutes now fun c => c.recv now maxLen target peek := by
  intro c later outputs hp hlat
  dsimp only
  rw [recv, recv, release_view_later c hlat, release_eq_self hp]
  exact recvReleased_view hp hlat outputs maxLen target peek

theorem readiness_commutes (now : LogicalTime) (lowat : ℕ) :
    Commutes now fun c => c.readiness now lowat := by
  intro c later outputs hp hlat
  have hc : Later now c.pendingInputs := by rw [hp]; intro i hi; cases hi
  have hv : Later now (c.view later outputs).pendingInputs := hlat
  simp only [readiness, release_view_later c hlat, release_eq_self hp, orStalled_later hc,
    orStalled_later hv]
  rfl

theorem takeError_commutes (now : LogicalTime) : Commutes now fun c => c.takeError now := by
  intro c later outputs hp hlat
  simp only [takeError, release_view_later c hlat, release_eq_self hp]
  rfl

theorem sendFailure_commutes (now : LogicalTime) : Commutes now fun c => c.sendFailure now := by
  intro c later outputs hp hlat
  simp only [sendFailure, release_view_later c hlat, release_eq_self hp]
  change (if (c.reset || c.shutWr) = true then _ else _) = _
  split_ifs <;> rfl

theorem shutdown_commutes (now : LogicalTime) (how : ℤ) : Commutes now fun c => c.shutdown how := by
  intro c later outputs _ _
  dsimp only [shutdown]
  by_cases herr : c.record.connectErrno = 0
  · simp only [view_record, herr, ne_eq, not_true_eq_false, if_false]
    split_ifs <;> rfl
  · simp only [view_record, herr, ne_eq, not_false_eq_true, if_true]

theorem connect_view (c : Channel) (inputs : List NetworkInputEventV1)
    (outputs : List NetworkOutputV4) (nonblocking : Bool) :
    (c.view inputs outputs).connect nonblocking =
      ((c.connect nonblocking).1.view inputs outputs, (c.connect nonblocking).2) := by
  cases nonblocking <;> rfl

theorem replaySend_recorded (c : Channel) (id : OpenFileId) {bytes : Bytes} (hne : bytes ≠ [])
    {nonblocking : Bool} (now : LogicalTime) {waits : ℕ} (hwait : 0 < waits → nonblocking = false)
    (inputs : List NetworkInputEventV1) (rest : List NetworkOutputV4) :
    (c.view inputs (⟨id, c.tx, bytes, if 0 < waits then some ⟨waits, now⟩ else none⟩ :: rest)
      ).replaySend id bytes nonblocking now waits =
      .ok ({ c with tx := c.tx + bytes.length, outputEvents := c.outputEvents + 1 }.view inputs rest,
        .ok (.sent bytes.length)) := by
  have hmch : ∀ d : Channel, d.expectedOutputs = ⟨id, c.tx, bytes,
      if 0 < waits then some ⟨waits, now⟩ else none⟩ :: rest → d.tx = c.tx →
      replaySend.matchFragment d id bytes 0 c.tx ⟨id, c.tx, bytes,
        if 0 < waits then some ⟨waits, now⟩ else none⟩ rest =
      .ok ({ d with tx := c.tx + bytes.length, expectedOutputs := rest },
        .ok (.sent bytes.length)) := by
    intro d hexp htx
    simp [replaySend.matchFragment, htx]
  unfold replaySend
  simp only [hne, if_false, view, lt_irrefl, Nat.sub_self, if_true]
  by_cases hw : 0 < waits
  · simp only [hw, if_true, hwait hw, lt_irrefl, or_self, if_false, Bool.false_eq_true]
    exact hmch _ (by simp [hw]) rfl
  · simp only [hw, if_false]
    exact hmch _ (by simp [hw]) rfl

theorem replaySend_refused (c : Channel) (id : OpenFileId) {bytes : Bytes} (hne : bytes ≠ [])
    (now : LogicalTime) (waits : ℕ) (inputs : List NetworkInputEventV1)
    (rest : List NetworkOutputV4) :
    (c.view inputs (⟨id, c.tx, [], none⟩ :: rest)).replaySend id bytes true now waits =
      .ok ({ c with outputEvents := c.outputEvents + 1 }.view inputs rest, .ok .wouldBlock) := by
  simp [replaySend, hne, view]

end Channel

/-! ## The engines -/

namespace NetworkEngine

/-- The fragments a recording has sent so far. -/
def recordedOutputs (e : NetworkEngine) : List NetworkOutputV4 :=
  match e.mode with
  | .record _ _ outputs => outputs
  | .replay _ => []

variable {trace : NetworkTraceV2} {R R' R'' S S' : NetworkEngine} {id : OpenFileId}
  {now : LogicalTime} {ins ins' due : List NetworkInputEventV1}
  {outs outs' sent : List NetworkOutputV4}

structure Grows (P : NetworkInputEventV1 → Prop) (R R' : NetworkEngine)
    (ins : List NetworkInputEventV1) (outs : List NetworkOutputV4) : Prop where
  inputs : R'.recordedInputs = R.recordedInputs ++ ins
  outputs : R'.recordedOutputs = R.recordedOutputs ++ outs
  stamped : ∀ input ∈ ins, P input
  records : ∀ (id : OpenFileId) c, R.channels[id]? = some c →
    ∃ c', R'.channels[id]? = some c' ∧ c'.record = c.record

theorem Grows.refl (P : NetworkInputEventV1 → Prop) (R : NetworkEngine) : Grows P R R [] [] where
  inputs := (append_nil _).symm
  outputs := (append_nil _).symm
  stamped _ h := by cases h
  records _ c h := ⟨c, h, rfl⟩

theorem Grows.trans {P : NetworkInputEventV1 → Prop} (h : Grows P R R' ins outs)
    (h' : Grows P R' R'' ins' outs') : Grows P R R'' (ins ++ ins') (outs ++ outs') where
  inputs := by rw [h'.inputs, h.inputs, append_assoc]
  outputs := by rw [h'.outputs, h.outputs, append_assoc]
  stamped input hmem := (mem_append.mp hmem).elim (h.stamped input) (h'.stamped input)
  records id c hc := by
    obtain ⟨c', hc', hr⟩ := h.records id c hc
    obtain ⟨c'', hc'', hr'⟩ := h'.records id c' hc'
    exact ⟨c'', hc'', hr'.trans hr⟩

theorem Grows.mono {P Q : NetworkInputEventV1 → Prop} (h : Grows P R R' ins outs)
    (hPQ : ∀ input, P input → Q input) : Grows Q R R' ins outs :=
  ⟨h.inputs, h.outputs, fun input hmem => hPQ input (h.stamped input hmem), h.records⟩

/-- The channel a replay holds ready for a connect, with what is still to come. -/
def readyChannel (trace : NetworkTraceV2) (ins : List NetworkInputEventV1)
    (outs : List NetworkOutputV4) (id : OpenFileId) : Option Channel :=
  (recordOf id trace.channels).map fun record =>
    (Channel.new record).view (inputsOf id ins) (outputsOf id outs)

structure Simulates (trace : NetworkTraceV2) (R S : NetworkEngine)
    (ins : List NetworkInputEventV1) (outs : List NetworkOutputV4) : Prop where
  mode : ∃ unconnected, S.mode = .replay unconnected ∧ ∀ id : OpenFileId,
    R.channels[id]? = none → unconnected[id]? = readyChannel trace ins outs id
  channels : ∀ id : OpenFileId, S.channels[id]? =
    R.channels[id]?.map (·.view (inputsOf id ins) (outputsOf id outs))

theorem inputsOf_eq_self (h : ∀ input ∈ due, input.channel = id) : inputsOf id due = due := by
  simpa [inputsOf, filter_eq_self] using h

theorem inputsOf_eq_nil (h : ∀ input ∈ due, input.channel = id) {i : OpenFileId} (hne : id ≠ i) :
    inputsOf i due = [] := by
  rw [inputsOf, filter_eq_nil_iff]
  intro input hmem
  simpa [h input hmem] using hne

theorem outputsOf_eq_nil (h : ∀ output ∈ sent, output.channel = id) {i : OpenFileId}
    (hne : id ≠ i) : outputsOf i sent = [] := by
  rw [outputsOf, filter_eq_nil_iff]
  intro output hmem
  simpa [h output hmem] using hne

theorem outputsOf_append (id : OpenFileId) (a b : List NetworkOutputV4) :
    outputsOf id (a ++ b) = outputsOf id a ++ outputsOf id b := by
  simp [outputsOf]

theorem Simulates.update (h : Simulates trace R S (due ++ ins) (sent ++ outs)) {c' : Channel}
    (hdue : ∀ input ∈ due, input.channel = id) (hsent : ∀ output ∈ sent, output.channel = id)
    (hR : ∀ i : OpenFileId, R'.channels[i]? = if id = i then some c' else R.channels[i]?)
    (hS : S'.channels = S.channels.insert id (c'.view (inputsOf id ins) (outputsOf id outs)))
    (hmode : ∀ unconnected, S.mode = .replay unconnected → ∃ unconnected',
      S'.mode = .replay unconnected' ∧
        ∀ i : OpenFileId, id ≠ i → unconnected'[i]? = unconnected[i]?) :
    Simulates trace R' S' ins outs := by
  have hins : ∀ i, id ≠ i → inputsOf i (due ++ ins) = inputsOf i ins := by
    intro i hi
    rw [inputsOf_append, inputsOf_eq_nil hdue hi, nil_append]
  have houts : ∀ i, id ≠ i → outputsOf i (sent ++ outs) = outputsOf i outs := by
    intro i hi
    rw [outputsOf_append, outputsOf_eq_nil hsent hi, nil_append]
  refine ⟨?_, ?_⟩
  · obtain ⟨unconnected, hun, hready⟩ := h.mode
    obtain ⟨unconnected', hun', hsame⟩ := hmode unconnected hun
    refine ⟨unconnected', hun', ?_⟩
    intro i hi
    rw [hR] at hi
    split_ifs at hi with hid
    rw [hsame i hid, hready i hi, readyChannel, readyChannel, hins i hid, houts i hid]
  · intro i
    rw [hS, hR, getElem?_insert_ite]
    split_ifs with hid
    · subst hid
      rfl
    · rw [h.channels i, hins i hid, houts i hid]

/-! ## Arrivals -/

structure Arrives (id : OpenFileId) (now : LogicalTime) (R R' : NetworkEngine)
    (due : List NetworkInputEventV1) : Prop where
  inputs : R'.recordedInputs = R.recordedInputs ++ due
  outputs : R'.recordedOutputs = R.recordedOutputs
  channels : ∀ i : OpenFileId, R'.channels[i]? =
    if id = i then R.channels[i]?.map (Channel.applyAll due) else R.channels[i]?
  stamped : ∀ input ∈ due, input.channel = id ∧
    ∃ c, R.channels[id]? = some c ∧ input.release = ⟨now, c.tx⟩

theorem Arrives.refl (id : OpenFileId) (now : LogicalTime) (R : NetworkEngine) :
    Arrives id now R R [] where
  inputs := (append_nil _).symm
  outputs := rfl
  channels i := by
    split_ifs
    · cases R.channels[i]? <;> rfl
    · rfl
  stamped _ h := by cases h

theorem recordArrivals_arrives (id : OpenFileId) (now : LogicalTime)
    (arrivals : List NetworkArrival) : ∀ {R R' : NetworkEngine},
      recordArrivals id now R arrivals = (R', .ok ()) →
        ∃ due, Arrives id now R R' due ∧ (arrivals = [] → due = []) := by
  induction arrivals with
  | nil =>
    intro R R' h
    cases h
    exact ⟨[], Arrives.refl id now R, fun _ => rfl⟩
  | cons arrival arrivals ih =>
    intro R R' h
    rw [recordArrivals] at h
    split_ifs at h
    · cases h
      exact ⟨[], Arrives.refl id now R, fun _ => rfl⟩
    · rcases R.recordArrival_cases id now arrival with
        ⟨x, hx⟩ | ⟨epoch, inputs, outputs, c, event, hmode, hc, -, -, -, hx⟩
      · rw [hx] at h
        cases h
      · rw [hx] at h
        obtain ⟨due, harr, -⟩ := ih h
        refine ⟨⟨inputs.length, id, ⟨now, c.tx⟩, event⟩ :: due, ⟨?_, ?_, ?_, ?_⟩, by simp⟩
        · rw [harr.inputs]
          simp [recordedInputs, hmode]
        · rw [harr.outputs]
          simp [recordedOutputs, hmode]
        · intro i
          rw [harr.channels]
          split_ifs with hi
          · subst hi
            simp only [getElem?_insert_same, hc]
            rfl
          · simp only [getElem?_insert_ne _ hi]
        · intro input hmem
          rcases mem_cons.mp hmem with rfl | hmem
          · exact ⟨rfl, c, hc, rfl⟩
          · obtain ⟨hid, d, hd, hrel⟩ := harr.stamped input hmem
            simp only [getElem?_insert_same, Option.some.injEq] at hd
            subst hd
            exact ⟨hid, c, hc, hrel.trans (by rw [(c.apply_sameOutput event).tx])⟩

/-! ## Requests on one channel -/

variable {e : NetworkEngine} {c : Channel} {outputs : List NetworkOutputV4} {reply : NetworkReply}
    {request : NetworkRequest} {requests : List (LogicalTime × NetworkRequest)}

theorem onChannel_eq_ok {α : Type} {e' : NetworkEngine}
    {f : Channel → Channel × Except NetworkEngineError α} {a : α}
    (h : e.onChannel id f = (e', .ok a)) :
    ∃ c, e.channels[id]? = some c ∧ (f c).2 = .ok a ∧
      e' = { e with channels := e.channels.insert id (f c).1 } := by
  unfold onChannel at h
  split at h
  · cases h
  · rename_i c hc
    obtain ⟨he, ha⟩ := Prod.mk.inj h
    exact ⟨c, hc, ha, he.symm⟩

theorem applyAll_pendingInputs (due : List NetworkInputEventV1) :
    ∀ c : Channel, (Channel.applyAll due c).pendingInputs = c.pendingInputs := by
  induction due with
  | nil => intro c; rfl
  | cons input due ih =>
    intro c
    exact (ih _).trans (c.apply_pendingInputs input.event)

theorem applyAll_record (due : List NetworkInputEventV1) :
    ∀ c : Channel, (Channel.applyAll due c).record = c.record := by
  induction due with
  | nil => intro c; rfl
  | cons input due ih =>
    intro c
    exact (ih _).trans (c.apply_sameOutput input.event).record

/-- What a recording adds when it observes `due` on a channel and then performs
    an operation on it. -/
theorem Arrives.grows {α : Type} (harr : Arrives id now R R' due)
    {f : Channel → Channel × Except NetworkEngineError α}
    (hf : ∀ c, Channel.SameOutput c (f c).1) {a : α} (h : R'.onChannel id f = (R'', .ok a)) :
    Grows (fun input => input.release.notBeforeGlobalTime = now ∧ input.channel = id) R R'' due
      [] := by
  obtain ⟨d, hd, -, rfl⟩ := onChannel_eq_ok h
  refine ⟨harr.inputs, harr.outputs.trans (append_nil _).symm, ?_, ?_⟩
  · intro input hmem
    obtain ⟨hid, c, -, hrel⟩ := harr.stamped input hmem
    exact ⟨by rw [hrel], hid⟩
  · intro i c hc
    have hi := harr.channels i
    rw [getElem?_insert_ite]
    split_ifs with hid
    · subst hid
      rw [hd, if_pos rfl, hc] at hi
      cases hi
      exact ⟨_, rfl, ((hf _).record).trans (applyAll_record due c)⟩
    · rw [if_neg hid, hc] at hi
      exact ⟨c, hi, rfl⟩

/-- **One operation.** A replay at the same time, on the same channel, does what
    the recording did after its arrivals. -/
theorem Simulates.onChannel {α : Type} (h : Simulates trace R S (due ++ ins) outs)
    (hwf : R.WellFormed) (hrec : R.isRecord = true) (harr : Arrives id now R R' due)
    {f : Channel → Channel × Except NetworkEngineError α} (hf : Channel.Commutes now f)
    (hrele : ∀ (c : Channel) later outputs,
      (∀ input ∈ due, input.release.isEligible now c.tx = true) → Channel.Later now later →
        f (c.view (due ++ later) outputs) = f ((Channel.applyAll due c).view later outputs))
    (hlat : Channel.Later now (inputsOf id ins)) {a : α}
    (hstep : R'.onChannel id f = (R'', .ok a)) :
    ∃ S', S.onChannel id f = (S', .ok a) ∧ Simulates trace R'' S' ins outs := by
  obtain ⟨d, hd, ha, rfl⟩ := onChannel_eq_ok hstep
  have hid := harr.channels id
  rw [hd, if_pos rfl] at hid
  obtain ⟨c, hc, rfl⟩ := Option.map_eq_some_iff.mp hid.symm
  have hpend : (Channel.applyAll due c).pendingInputs = [] := by
    rw [applyAll_pendingInputs]
    exact hwf.released hrec id c (channelOf_connected hc)
  have hdue : ∀ input ∈ due, input.channel = id := fun input hmem => (harr.stamped input hmem).1
  have helig : ∀ input ∈ due, input.release.isEligible now c.tx = true := by
    intro input hmem
    obtain ⟨-, c', hc', hrel⟩ := harr.stamped input hmem
    rw [hc] at hc'
    cases hc'
    simp [NetworkReleaseV1.isEligible, hrel]
  have hSc : S.channels[id]? = some (c.view (due ++ inputsOf id ins) (outputsOf id outs)) := by
    rw [h.channels, hc, inputsOf_append, inputsOf_eq_self hdue]
    rfl
  have hfS : f (c.view (due ++ inputsOf id ins) (outputsOf id outs)) =
      ((f (Channel.applyAll due c)).1.view (inputsOf id ins) (outputsOf id outs), .ok a) := by
    rw [hrele c _ _ helig hlat, hf _ _ _ hpend hlat, ha]
  have h' : Simulates trace R S (due ++ ins) ([] ++ outs) := h
  refine ⟨⟨S.mode, S.channels.insert id
    ((f (Channel.applyAll due c)).1.view (inputsOf id ins) (outputsOf id outs))⟩, ?_, ?_⟩
  · rw [NetworkEngine.onChannel, hSc]
    simp only [hfS]
  · refine h'.update hdue (by simp) ?_ rfl fun unconnected hun => ⟨unconnected, hun, fun _ _ => rfl⟩
    intro i
    rw [getElem?_insert_ite]
    split_ifs with hi
    · rfl
    · rw [harr.channels, if_neg hi]

theorem Simulates.onChannel_quiet {α : Type} (h : Simulates trace R S ins outs)
    (hwf : R.WellFormed) (hrec : R.isRecord = true)
    {f : Channel → Channel × Except NetworkEngineError α} (hf : Channel.Commutes now f)
    (hlat : Channel.Later now (inputsOf id ins)) {a : α} (hstep : R.onChannel id f = (R', .ok a)) :
    ∃ S', S.onChannel id f = (S', .ok a) ∧ Simulates trace R' S' ins outs := by
  have h' : Simulates trace R S ([] ++ ins) outs := h
  exact h'.onChannel hwf hrec (Arrives.refl id now R) hf (fun _ _ _ _ _ => rfl) hlat hstep

theorem recv_release {later : List NetworkInputEventV1}
    (hdue : ∀ input ∈ due, input.release.isEligible now c.tx = true)
    (hlat : Channel.Later now later) (maxLen target : ℕ) (peek : Bool) :
    (c.view (due ++ later) outputs).recv now maxLen target peek =
      ((Channel.applyAll due c).view later outputs).recv now maxLen target peek := by
  rw [Channel.recv, Channel.recv, Channel.release_view hdue hlat, Channel.release_view_later _ hlat]

theorem readiness_release {later : List NetworkInputEventV1}
    (hdue : ∀ input ∈ due, input.release.isEligible now c.tx = true)
    (hlat : Channel.Later now later) (lowat : ℕ) :
    (c.view (due ++ later) outputs).readiness now lowat =
      ((Channel.applyAll due c).view later outputs).readiness now lowat := by
  rw [Channel.readiness, Channel.readiness, Channel.release_view hdue hlat,
    Channel.release_view_later _ hlat]

/-! ## Polls -/

theorem readinessEntry_eq_ok {entry : OpenFileId × ℕ × List NetworkArrival} {events : ℕ}
    (h : R.readinessEntry now entry = (R'', .ok events)) :
    ∃ R' due, Arrives entry.1 now R R' due ∧ (entry.2.2 = [] → due = []) ∧
      R'.onChannel entry.1 (fun c => c.readiness now entry.2.1) = (R'', .ok events) := by
  unfold readinessEntry at h
  split at h
  · cases h
  · rename_i R' u harr
    obtain ⟨due, hdue, hnil⟩ := recordArrivals_arrives entry.1 now entry.2.2 harr
    exact ⟨R', due, hdue, hnil, h⟩

theorem readinessLoop_cons_eq_ok {e' : NetworkEngine} {entry : OpenFileId × ℕ × List NetworkArrival}
    {entries : List (OpenFileId × ℕ × List NetworkArrival)} {events : List ℕ} :
    readinessLoop now e (entry :: entries) = (e', .ok events) ↔
      ∃ e₁ event rest, e.readinessEntry now entry = (e₁, .ok event) ∧
        readinessLoop now e₁ entries = (e', .ok rest) ∧ events = event :: rest := by
  rw [readinessLoop]
  rcases hent : e.readinessEntry now entry with ⟨e₁, x | event⟩
  · simp
  · rcases hloop : readinessLoop now e₁ entries with ⟨e₂, x | rest⟩
    · simp [Except.map, hloop]
    · simp only [hloop, Except.map, Prod.mk.injEq, Except.ok.injEq]
      constructor
      · rintro ⟨rfl, rfl⟩
        exact ⟨e₁, event, rest, ⟨rfl, rfl⟩, hloop, rfl⟩
      · rintro ⟨e₃, event', rest', ⟨rfl, rfl⟩, hloop', rfl⟩
        rw [hloop] at hloop'
        cases hloop'
        exact ⟨rfl, rfl⟩

/-- **Polls.** When no entry records input on a channel already reported, the
    replay finds at each entry what the recording found there. -/
theorem readinessLoop_mirrored (trace : NetworkTraceV2) (now : LogicalTime)
    (entries : List (OpenFileId × ℕ × List NetworkArrival)) :
    ∀ {R R' : NetworkEngine} {events : List ℕ}, R.WellFormed → R.isRecord = true →
      entries.Pairwise (fun a b => a.1 = b.1 → b.2.2 = []) →
      readinessLoop now R entries = (R', .ok events) →
      ∃ due, Grows (fun input => input.release.notBeforeGlobalTime = now ∧
          ∃ entry ∈ entries, entry.1 = input.channel ∧ entry.2.2 ≠ []) R R' due [] ∧
        ∀ S ins outs, Simulates trace R S (due ++ ins) outs →
          (∀ input ∈ ins, (∃ entry ∈ entries, entry.1 = input.channel) →
            now < input.release.notBeforeGlobalTime) →
          ∃ S', readinessLoop now S (entries.map withoutArrivals) = (S', .ok events) ∧
            Simulates trace R' S' ins outs := by
  induction entries with
  | nil =>
    intro R R' events _ _ _ h
    cases h
    exact ⟨[], Grows.refl _ R, fun S ins outs hsim _ => ⟨S, rfl, hsim⟩⟩
  | cons entry entries ih =>
    intro R R' events hwf hrec hnolate h
    obtain ⟨hfirst, hrest⟩ := pairwise_cons.mp hnolate
    obtain ⟨R₁, event, rest, hent, hloop, rfl⟩ := readinessLoop_cons_eq_ok.mp h
    have hflow := readinessEntry_inflow hwf now entry
    rw [hent] at hflow
    obtain ⟨Rₐ, due₁, harr, hnil, hon⟩ := readinessEntry_eq_ok hent
    obtain ⟨due₂, hgrow₂, hsim₂⟩ := ih hflow.wellFormed (hflow.mode.trans hrec) hrest hloop
    have hgrow₁ := harr.grows (fun c => c.readiness_sameOutput now entry.2.1) hon
    refine ⟨due₁ ++ due₂, ?_, ?_⟩
    · refine Grows.trans ⟨hgrow₁.inputs, hgrow₁.outputs, ?_, hgrow₁.records⟩ (hgrow₂.mono ?_)
      · intro input hmem
        obtain ⟨hnow, hid⟩ := hgrow₁.stamped input hmem
        refine ⟨hnow, entry, mem_cons_self, hid.symm, ?_⟩
        intro hemp
        rw [hnil hemp] at hmem
        cases hmem
      · rintro input ⟨hnow, e, hmem, he⟩
        exact ⟨hnow, e, mem_cons_of_mem _ hmem, he⟩
    · intro S ins outs hsim hlat
      rw [append_assoc] at hsim
      have hlat₁ : Channel.Later now (inputsOf entry.1 (due₂ ++ ins)) := by
        intro input hmem
        obtain ⟨hmem, hid⟩ := mem_filter.mp hmem
        have hid : input.channel = entry.1 := by simpa using hid
        rcases mem_append.mp hmem with hmem | hmem
        · -- A later entry with arrivals names another channel.
          obtain ⟨-, e, he, heid, hne⟩ := hgrow₂.stamped input hmem
          exact absurd (hfirst e he (hid.symm.trans heid.symm)) hne
        · exact hlat input hmem ⟨entry, mem_cons_self, hid.symm⟩
      obtain ⟨S₁, hS₁, hsim₁⟩ := hsim.onChannel hwf hrec harr
        (Channel.readiness_commutes now entry.2.1)
        (fun c later outputs hdue hl => readiness_release hdue hl entry.2.1) hlat₁ hon
      obtain ⟨S', hS', hsim'⟩ := hsim₂ S₁ ins outs hsim₁ fun input hmem ⟨e, he, heid⟩ =>
        hlat input hmem ⟨e, mem_cons_of_mem _ he, heid⟩
      exact ⟨S', readinessLoop_cons_eq_ok.mpr ⟨S₁, event, rest, hS₁, hS', rfl⟩, hsim'⟩

/-! ## One request -/

/-- What the recorded `request` at `now` adds to the trace, and that its replay
    `request'` gives the guest the same reply and keeps the relation. -/
def Mirrored (trace : NetworkTraceV2) (now : LogicalTime) (request request' : NetworkRequest)
    (reply : NetworkReply) (R R' : NetworkEngine) : Prop :=
  ∃ due sent, Grows (fun input => input.release.notBeforeGlobalTime = now ∧
      input.channel ∈ request.channels) R R' due sent ∧
    ∀ S ins outs, Simulates trace R S (due ++ ins) (sent ++ outs) →
      (∀ input ∈ ins, input.channel ∈ request.channels → now < input.release.notBeforeGlobalTime) →
      (∀ (id : OpenFileId) c, R'.channels[id]? = some c →
        recordOf id trace.channels = some c.record) →
      ∃ S', S.step (now, request') = .ok (S', .ok (guestReply request reply)) ∧
        Simulates trace R' S' ins outs

theorem replyWith_eq_ok {α : Type} {f : α → NetworkReply}
    {r : NetworkEngine × Except NetworkEngineError α} :
    replyWith f r = (e, .ok reply) ↔ ∃ a, r = (e, .ok a) ∧ f a = reply := by
  obtain ⟨e', x | a⟩ := r
  · simp [replyWith, Except.map]
  · simp [replyWith, Except.map]

theorem later_inputsOf (h : ∀ input ∈ ins, input.channel ∈ [id] →
    now < input.release.notBeforeGlobalTime) : Channel.Later now (inputsOf id ins) := by
  intro input hmem
  obtain ⟨hmem, hid⟩ := mem_filter.mp hmem
  exact h input hmem (by simpa using hid)

theorem mirrored_onChannel {α : Type} (trace : NetworkTraceV2) (hwf : R.WellFormed)
    (hrec : R.isRecord = true)
    {g : α → NetworkReply} {f : Channel → Channel × Except NetworkEngineError α}
    (hf : Channel.Commutes now f) (hsame : ∀ c, Channel.SameOutput c (f c).1)
    (hchans : request.channels = [id]) (hguest : guestReply request reply = reply)
    (hreq : ∀ e : NetworkEngine, e.step (now, request) = .ok (replyWith g (e.onChannel id f)))
    (h : R.step (now, request) = .ok (R', .ok reply)) :
    Mirrored trace now request request reply R R' := by
  rw [hreq] at h
  obtain ⟨a, hon, rfl⟩ := replyWith_eq_ok.mp (Except.ok.inj h)
  refine ⟨[], [], ((Arrives.refl id now R).grows hsame hon).mono ?_, ?_⟩
  · rintro input ⟨hnow, hid⟩
    exact ⟨hnow, by rw [hchans, hid]; exact mem_singleton_self id⟩
  · intro S ins outs hsim hlat _
    rw [hchans] at hlat
    obtain ⟨S', hS', hsim'⟩ := hsim.onChannel_quiet hwf hrec hf (later_inputsOf hlat) hon
    refine ⟨S', ?_, hsim'⟩
    rw [hreq, hguest, hS']
    rfl

theorem recv_mirrored (trace : NetworkTraceV2) (hwf : R.WellFormed) (hrec : R.isRecord = true)
    (arrivals : List NetworkArrival) (maxLen target : ℕ) (peek : Bool)
    (h : R.step (now, .recv id arrivals maxLen target peek) = .ok (R', .ok reply)) :
    Mirrored trace now (.recv id arrivals maxLen target peek) (.recv id [] maxLen target peek)
      reply R R' := by
  obtain ⟨out, hreq, rfl⟩ := replyWith_eq_ok.mp (Except.ok.inj h)
  unfold recvRequest at hreq
  split at hreq
  · cases hreq
  · rename_i Rₐ u harr
    obtain ⟨due, harr, -⟩ := recordArrivals_arrives id now arrivals harr
    refine ⟨due, [], (harr.grows (fun c => c.recv_sameOutput now maxLen target peek) hreq).mono ?_,
      ?_⟩
    · rintro input ⟨hnow, hid⟩
      exact ⟨hnow, by rw [hid]; exact mem_singleton_self id⟩
    · intro S ins outs hsim hlat _
      obtain ⟨S', hS', hsim'⟩ := hsim.onChannel hwf hrec harr
        (Channel.recv_commutes now maxLen target peek)
        (fun c later outputs hdue hl => recv_release hdue hl maxLen target peek)
        (later_inputsOf hlat) hreq
      refine ⟨S', ?_, hsim'⟩
      show Except.ok (replyWith .recv (S.onChannel id fun c => c.recv now maxLen target peek)) = _
      rw [hS']
      rfl

theorem readiness_mirrored (trace : NetworkTraceV2) (hwf : R.WellFormed)
    (hrec : R.isRecord = true) {entries : List (OpenFileId × ℕ × List NetworkArrival)}
    (hnolate : NetworkRequest.NoLateArrival (.readiness entries))
    (h : R.step (now, .readiness entries) = .ok (R', .ok reply)) :
    Mirrored trace now (.readiness entries) (.readiness (entries.map withoutArrivals)) reply
      R R' := by
  obtain ⟨events, hloop, rfl⟩ := replyWith_eq_ok.mp (Except.ok.inj h)
  obtain ⟨due, hgrow, hsim⟩ := readinessLoop_mirrored trace now entries hwf hrec hnolate hloop
  refine ⟨due, [], hgrow.mono ?_, ?_⟩
  · rintro input ⟨hnow, entry, hmem, hid, -⟩
    exact ⟨hnow, mem_map.mpr ⟨entry, hmem, hid⟩⟩
  · intro S ins outs hS hlat _
    obtain ⟨S', hS', hsim'⟩ := hsim S ins outs hS fun input hmem ⟨entry, he, hid⟩ =>
      hlat input hmem (mem_map.mpr ⟨entry, he, hid⟩)
    refine ⟨S', ?_, hsim'⟩
    show Except.ok (replyWith .events (readinessLoop now S (entries.map withoutArrivals))) = _
    rw [hS']
    rfl

theorem connect_mirrored (trace : NetworkTraceV2) (peer : NetworkAddressV1)
    (localAddress : Option NetworkAddressV1) (errno : ℤ) (nonblocking : Bool)
    (h : R.step (now, .recordConnect id peer localAddress errno nonblocking) =
      .ok (R', .ok reply)) :
    Mirrored trace now (.recordConnect id peer localAddress errno nonblocking)
      (.replayConnect id peer nonblocking) reply R R' := by
  obtain ⟨result, hreq, rfl⟩ := replyWith_eq_ok.mp (Except.ok.inj h)
  rcases R.recordConnect_cases id peer localAddress errno nonblocking with
    ⟨x, hx⟩ | ⟨-, hnew, -, c, hc, hx⟩
  · rw [hx] at hreq
    cases hreq
  · rw [hx] at hreq
    cases hreq
    have hreco : c.1.record = connectRecord id peer localAddress errno := by
      rw [hc, (Channel.connect_sameOutput _ nonblocking).record]
      rfl
    refine ⟨[], [], ⟨(append_nil _).symm, (append_nil _).symm, by simp, ?_⟩, ?_⟩
    · intro i d hd
      have hne : id ≠ i := by
        rintro rfl
        rw [hnew] at hd
        cases hd
      exact ⟨d, by rw [← hd]; exact getElem?_insert_ne _ hne _, rfl⟩
    · intro S ins outs hsim _ htrace
      obtain ⟨unconnected, hmode, hready⟩ := hsim.mode
      have hid := htrace id c.1 (getElem?_insert_same _ _ _)
      have hwait : unconnected[id]? = some ((Channel.new (connectRecord id peer localAddress errno)
          ).view (inputsOf id ins) (outputsOf id outs)) := by
        rw [hready id hnew, readyChannel, hid, hreco]
        rfl
      have hnone : S.channels[id]? = none := by
        rw [hsim.channels, hnew]
        rfl
      have hcont : S.channels.contains id = false := (contains_eq_false _ _).mpr hnone
      refine ⟨⟨.replay (unconnected.erase id), S.channels.insert id
        (c.1.view (inputsOf id ins) (outputsOf id outs))⟩, ?_, ?_⟩
      · show Except.ok (replyWith .errno (S.replayConnect id peer nonblocking)) = _
        unfold replayConnect
        simp only [hcont, hmode, hwait, connected, Channel.connect_view]
        rw [hc]
        simp [replyWith, Except.map, guestReply, connectRecord, Channel.new]
      · have hsim' : Simulates trace R S ([] ++ ins) ([] ++ outs) := hsim
        refine hsim'.update (by simp) (by simp) ?_ rfl ?_
        · intro i
          exact getElem?_insert_ite R.channels id i c.1
        · intro unconnected' hun
          rw [hmode] at hun
          cases hun
          exact ⟨_, rfl, fun i hi => getElem?_erase_ne unconnected hi⟩

theorem mirrored_output (trace : NetworkTraceV2)
    {bytes : Bytes} {nonblocking : Bool} {waits : ℕ} {epoch : UtcDateTime}
    {inputs : List NetworkInputEventV1} {output : NetworkOutputV4}
    {c' : Channel} (out : ReplaySendOutcome) (hmode : R.mode = .record epoch inputs outputs)
    (hc : R.channels[id]? = some c)
    (hR' : R' = ⟨.record epoch inputs (outputs ++ [output]), R.channels.insert id c'⟩)
    (hout : output.channel = id) (hreco : c'.record = c.record)
    (hsend : ∀ ins rest, (c.view ins (output :: rest)).replaySend id bytes nonblocking now waits =
      .ok (c'.view ins rest, .ok out)) (hreply : replaySendReply out = guestReply request reply) :
    Mirrored trace now request (.replaySend id bytes nonblocking waits) reply R R' := by
  subst hR'
  refine ⟨[], [output], ⟨?_, ?_, by simp, ?_⟩, ?_⟩
  · simp [recordedInputs, hmode]
  · simp [recordedOutputs, hmode]
  · intro i d hd
    rw [getElem?_insert_ite]
    split_ifs with hi
    · subst hi
      rw [hc] at hd
      cases hd
      exact ⟨c', rfl, hreco⟩
    · exact ⟨d, hd, rfl⟩
  · intro S ins outs hsim _ _
    obtain ⟨unconnected, hreplay, -⟩ := hsim.mode
    have hof : outputsOf id ([output] ++ outs) = output :: outputsOf id outs := by
      simp [outputsOf, hout]
    have hSc : S.channels[id]? =
        some (c.view (inputsOf id ins) (output :: outputsOf id outs)) := by
      rw [hsim.channels, hc, hof]
      rfl
    refine ⟨⟨S.mode, S.channels.insert id (c'.view (inputsOf id ins) (outputsOf id outs))⟩, ?_, ?_⟩
    · show (S.replaySend id bytes nonblocking now waits).map (replyWith replaySendReply) = _
      rw [NetworkEngine.replaySend, isRecord, hreplay]
      simp only [hSc, hsend]
      rw [← hreply]
      rfl
    · refine hsim.update (by simp) (by simpa using hout) ?_ rfl
        fun unconnected hun => ⟨unconnected, hun, fun _ _ => rfl⟩
      intro i
      exact getElem?_insert_ite R.channels id i c'

theorem send_mirrored (trace : NetworkTraceV2) (bytes : Bytes) (mark : Option SendMark)
    (waits : ℕ) {nonblocking : Bool} (hwait : 0 < waits → nonblocking = false)
    (h : R.step (now, .recordSend id bytes mark waits) = .ok (R', .ok reply)) :
    Mirrored trace now (.recordSend id bytes mark waits) (.replaySend id bytes nonblocking waits)
      reply R R' := by
  obtain ⟨m, hreq, rfl⟩ := replyWith_eq_ok.mp (Except.ok.inj h)
  rcases R.recordSend_cases id bytes mark now waits with
    ⟨r, hr, hemp⟩ | ⟨epoch, inputs, outputs, c, c', hmode, hc, hne, hc', hr⟩
  · rw [hr] at hreq
    obtain ⟨rfl, rfl⟩ := Prod.mk.inj hreq
    obtain ⟨rfl, c, hc⟩ := hemp m rfl
    refine ⟨[], [], Grows.refl _ R, ?_⟩
    intro S ins outs hsim _ _
    obtain ⟨unconnected, hreplay, -⟩ := hsim.mode
    have hSc := hsim.channels id
    rw [hc] at hSc
    refine ⟨⟨S.mode, S.channels.insert id (c.view (inputsOf id ins) (outputsOf id outs))⟩, ?_, ?_⟩
    · show (S.replaySend id [] nonblocking now waits).map (replyWith replaySendReply) = _
      rw [NetworkEngine.replaySend, isRecord, hreplay]
      simp only [hSc, Option.map_some]
      rfl
    · have hsim' : Simulates trace R S ([] ++ ins) ([] ++ outs) := hsim
      refine hsim'.update (by simp) (by simp) ?_ rfl
        fun unconnected hun => ⟨unconnected, hun, fun _ _ => rfl⟩
      intro i
      split_ifs with hi
      · rw [← hi, hc]
      · rfl
  · rw [hr] at hreq
    obtain ⟨rfl, -⟩ := Prod.mk.inj hreq
    refine mirrored_output trace (.sent bytes.length) hmode hc rfl rfl (by rw [hc']) ?_ rfl
    intro ins rest
    rw [hc']
    exact Channel.replaySend_recorded c id hne now hwait ins rest

theorem refused_mirrored (trace : NetworkTraceV2) {bytes : Bytes} (hne : bytes ≠ []) (waits : ℕ)
    (h : R.step (now, .recordRefusedSend id) = .ok (R', .ok reply)) :
    Mirrored trace now (.recordRefusedSend id) (.replaySend id bytes true waits) reply R R' := by
  obtain ⟨u, hreq, rfl⟩ := replyWith_eq_ok.mp (Except.ok.inj h)
  rcases R.recordRefusedSend_cases id with
    ⟨x, hr⟩ | ⟨epoch, inputs, outputs, c, hmode, hc, hr⟩
  · rw [hr] at hreq
    cases hreq
  · rw [hr] at hreq
    obtain ⟨rfl, -⟩ := Prod.mk.inj hreq
    refine mirrored_output trace .wouldBlock hmode hc rfl rfl rfl ?_ rfl
    intro ins rest
    exact Channel.replaySend_refused c id hne now waits ins rest

/-- **One request.** -/
theorem step_mirrored (trace : NetworkTraceV2) (hwf : R.WellFormed) (hrec : R.isRecord = true)
    {request' : NetworkRequest} (hreplay : ReplayOf request request')
    (hnolate : request.NoLateArrival) (h : R.step (now, request) = .ok (R', .ok reply)) :
    Mirrored trace now request request' reply R R' := by
  cases hreplay with
  | connect id peer localAddress errno nonblocking =>
    exact connect_mirrored trace peer localAddress errno nonblocking h
  | recv id arrivals maxLen target peek =>
    exact recv_mirrored trace hwf hrec arrivals maxLen target peek h
  | readiness entries => exact readiness_mirrored trace hwf hrec hnolate h
  | takeError id =>
    exact mirrored_onChannel trace hwf hrec (Channel.takeError_commutes now)
      (fun c => c.takeError_sameOutput now) rfl rfl (fun _ => rfl) h
  | sendFailure id =>
    exact mirrored_onChannel trace hwf hrec (Channel.sendFailure_commutes now)
      (fun c => c.sendFailure_sameOutput now) rfl rfl (fun _ => rfl) h
  | send id bytes mark waits nonblocking hwait => exact send_mirrored trace bytes mark waits hwait h
  | refused id bytes waits hne => exact refused_mirrored trace hne waits h
  | shutdown id how =>
    exact mirrored_onChannel trace hwf hrec (Channel.shutdown_commutes now how)
      (fun c => c.shutdown_sameOutput how) rfl rfl (fun _ => rfl) h
  | addresses id =>
    obtain ⟨rfl, hreply⟩ := Prod.mk.inj (Except.ok.inj h)
    refine ⟨[], [], Grows.refl _ R, ?_⟩
    intro S ins outs hsim _ _
    refine ⟨S, ?_, hsim⟩
    rw [← Except.ok.inj hreply]
    show Except.ok (S, Except.ok (NetworkReply.addresses (S.addresses id))) = _
    have haddr : S.addresses id = R.addresses id := by
      rw [addresses, addresses, hsim.channels]
      cases R.channels[id]? <;> rfl
    rw [haddr]
    rfl

/-! ## Whole runs -/

def ReplayRequests (requests requests' : List (LogicalTime × NetworkRequest)) : Prop :=
  List.Forall₂ (fun r r' => r'.1 = r.1 ∧ ReplayOf r.2 r'.2) requests requests'

def IncreasingTimes (requests : List (LogicalTime × NetworkRequest)) : Prop :=
  requests.Pairwise fun r r' => (∃ id, id ∈ r.2.channels ∧ id ∈ r'.2.channels) → r.1 < r'.1

def guestReplies (requests : List (LogicalTime × NetworkRequest)) (replies : List NetworkReply) :
    List (Except NetworkEngineError NetworkReply) :=
  zipWith (fun r reply => .ok (guestReply r.2 reply)) requests replies

/-- **A run.** From related engines, with what the rest of the recording adds
    still to come, the replay of the rest gives the same replies. -/
theorem run_mirrored (trace : NetworkTraceV2) {requests' : List (LogicalTime × NetworkRequest)}
    (hreplay : ReplayRequests requests requests') :
    ∀ {R R' : NetworkEngine} {replies : List NetworkReply}, R.WellFormed → R.isRecord = true →
      run step R requests = .ok (R', replies.map .ok) → IncreasingTimes requests →
      (∀ r ∈ requests, r.2.NoLateArrival) →
      ∃ ins outs, Grows (fun input => ∃ r ∈ requests, input.release.notBeforeGlobalTime = r.1 ∧
          input.channel ∈ r.2.channels) R R' ins outs ∧
        ∀ S, Simulates trace R S ins outs → (∀ (id : OpenFileId) c, R'.channels[id]? = some c →
            recordOf id trace.channels = some c.record) →
          ∃ S', run step S requests' = .ok (S', guestReplies requests replies) := by
  induction hreplay with
  | nil =>
    intro R R' replies _ _ h _ _
    cases replies with
    | nil =>
      cases h
      exact ⟨[], [], Grows.refl _ R, fun S _ _ => ⟨S, rfl⟩⟩
    | cons => cases h
  | @cons r r' requests requests' hr hrest ih =>
    intro R R' replies hwf hrec h htimes hnolate
    obtain ⟨hfirst, htimes'⟩ := pairwise_cons.mp htimes
    obtain ⟨R₁, o, os, hstep, hrun, heq⟩ := run_cons_eq_ok.mp h
    cases replies with
    | nil => cases heq
    | cons =>
      obtain ⟨rfl, rfl⟩ := cons.inj heq
      have hflow := step_inflow hwf hstep
      obtain ⟨due, sent, hgrow, hsim⟩ :=
        step_mirrored trace hwf hrec hr.2 (hnolate r mem_cons_self) hstep
      obtain ⟨ins, outs, hgrow', hsim'⟩ := ih hflow.wellFormed (hflow.mode.trans hrec) hrun htimes'
        fun q hq => hnolate q (mem_cons_of_mem _ hq)
      refine ⟨due ++ ins, sent ++ outs, (hgrow.mono ?_).trans (hgrow'.mono ?_), ?_⟩
      · rintro input ⟨hnow, hid⟩
        exact ⟨r, mem_cons_self, hnow, hid⟩
      · rintro input ⟨q, hq, hnow, hid⟩
        exact ⟨q, mem_cons_of_mem _ hq, hnow, hid⟩
      · intro S hS htrace
        -- Inputs of later requests on these channels lie later.
        have hlat : ∀ input ∈ ins, input.channel ∈ r.2.channels →
            r.1 < input.release.notBeforeGlobalTime := by
          intro input hmem hid
          obtain ⟨q, hq, hnow, hid'⟩ := hgrow'.stamped input hmem
          rw [hnow]
          exact hfirst q hq ⟨input.channel, hid, hid'⟩
        have htrace₁ : ∀ (id : OpenFileId) c, R₁.channels[id]? = some c →
            recordOf id trace.channels = some c.record := by
          intro id c hc
          obtain ⟨c', hc', hreco⟩ := hgrow'.records id c hc
          rw [htrace id c' hc', hreco]
        obtain ⟨S₁, hS₁, hsim₁⟩ := hsim S ins outs hS hlat htrace₁
        obtain ⟨S', hS'⟩ := hsim' S₁ hsim₁ htrace
        refine ⟨S', run_cons_eq_ok.mpr ⟨S₁, _, _, ?_, hS', rfl⟩⟩
        obtain ⟨t', request'⟩ := r'
        obtain rfl : t' = r.1 := hr.1
        exact hS₁

theorem finish_eq_ok {trace : NetworkTraceV2} (hwf : e.WellFormed) (h : e.finish = .ok trace) :
    trace.inputs = e.recordedInputs ∧ trace.outputs = e.recordedOutputs ∧
      ∀ (id : OpenFileId) c, e.channels[id]? = some c →
        recordOf id trace.channels = some c.record := by
  unfold finish at h
  split at h
  · cases h
  · rename_i epoch inputs outputs hmode
    dsimp only at h
    split at h
    · cases h
    · cases h
      refine ⟨by rw [recordedInputs, hmode], by rw [recordedOutputs, hmode], ?_⟩
      intro id c hc
      have hkey := hwf.keyed id c (channelOf_connected hc)
      have hmem : c.record ∈ e.channels.toList.map (·.2.record) :=
        mem_map.mpr ⟨(id, c), (mem_toList _ id c).mpr hc, rfl⟩
      obtain ⟨record, hreco⟩ := recordOf_isSome.mpr ⟨c.record, hmem, hkey⟩
      obtain ⟨hin, hid⟩ := recordOf_id hreco
      obtain ⟨⟨id', c'⟩, hc', rfl⟩ := mem_map.mp hin
      have hc' := (mem_toList _ id' c').mp hc'
      have hid' : id' = id := (hwf.keyed id' c' (channelOf_connected hc')).symm.trans hid
      rw [hid', hc] at hc'
      cases hc'
      exact hreco

theorem simulates_newReplay {epoch : UtcDateTime} (trace : NetworkTraceV2) :
    Simulates trace (newRecord epoch) (newReplay trace) trace.inputs trace.outputs := by
  obtain ⟨unconnected, hmode, hun⟩ := newReplay_mode trace
  rw [hmode]
  refine ⟨⟨unconnected, rfl, ?_⟩, ?_⟩
  · intro id _
    rw [hun, replayChannel, readyChannel]
    cases recordOf id trace.channels <;> rfl
  · intro id
    simp [newRecord]

/-- **A replay repeats its recording.** For requests whose times strictly
    increase on each channel, none of them a poll that records input on a
    channel it has already reported: the replay of the recording's trace, with
    the same requests at the same times, answers every request, and gives the
    guest the replies it had. -/
theorem replay_repeats_record {epoch : UtcDateTime} {e : NetworkEngine} {trace : NetworkTraceV2}
    {requests requests' : List (LogicalTime × NetworkRequest)} {replies : List NetworkReply}
    (hrun : run step (newRecord epoch) requests = .ok (e, replies.map .ok))
    (hfinish : e.finish = .ok trace) (htimes : IncreasingTimes requests)
    (hreplay : ReplayRequests requests requests') (hnolate : ∀ r ∈ requests, r.2.NoLateArrival) :
    ∃ s, run step (newReplay trace) requests' = .ok (s, guestReplies requests replies) := by
  have hwf := Start.wellFormed (.record epoch)
  obtain ⟨ins, outs, hgrow, hsim⟩ := run_mirrored trace hreplay hwf rfl hrun htimes hnolate
  obtain ⟨hins, houts, htrace⟩ := finish_eq_ok (run_inflow hwf hrun).wellFormed hfinish
  have hinpu : trace.inputs = ins := hins.trans hgrow.inputs
  have houtp : trace.outputs = outs := houts.trans hgrow.outputs
  refine hsim (newReplay trace) ?_ htrace
  rw [← hinpu, ← houtp]
  exact simulates_newReplay trace

def records (requests : List (LogicalTime × NetworkRequest)) (replies : List NetworkReply)
    (trace : NetworkTraceV2) : Bool :=
  match run step (newRecord trace.epoch) requests with
  | .ok (e, outs) => outs = replies.map .ok ∧ e.finish = .ok trace
  | .error _ => false

theorem records_sound
    {replies : List NetworkReply} {trace : NetworkTraceV2} (h : records requests replies trace = true) :
    ∃ e, run step (newRecord trace.epoch) requests = .ok (e, replies.map .ok) ∧
      e.finish = .ok trace := by
  unfold records at h
  split at h
  · rename_i e outs hrun
    obtain ⟨rfl, hfinish⟩ := of_decide_eq_true h
    exact ⟨e, hrun, hfinish⟩
  · cases h

def replays (trace : NetworkTraceV2) (requests : List (LogicalTime × NetworkRequest))
    (replies : List NetworkReply) : Bool :=
  match run step (newReplay trace) requests with
  | .ok (_, outs) => outs = replies.map .ok
  | .error _ => false

theorem replays_sound {trace : NetworkTraceV2}
    {replies : List NetworkReply} (h : replays trace requests replies = true) :
    ∃ s, run step (newReplay trace) requests = .ok (s, replies.map .ok) := by
  unfold replays at h
  split at h
  · rename_i s outs hrun
    obtain rfl := of_decide_eq_true h
    exact ⟨s, hrun⟩
  · cases h

theorem increasingTimes_pair {r r' : LogicalTime × NetworkRequest} (h : r.1 < r'.1) :
    IncreasingTimes [r, r'] := by
  simpa [IncreasingTimes] using fun _ _ _ => h

/-! ### A poll that names a channel twice -/

/-- The guest polls one connection through two descriptors. The recorder pulls
    nothing for the first and one byte for the second. -/
def pollTwice : List (LogicalTime × NetworkRequest) :=
  [(.clamp 1, .recordConnect sampleSocket samplePeer (some sampleLocal) 0 false),
   (.clamp 2, .readiness [(sampleSocket, 1, []), (sampleSocket, 1, [.bytes [7]])])]

def pollTwiceReplayed : List (LogicalTime × NetworkRequest) :=
  [(.clamp 1, .replayConnect sampleSocket samplePeer false),
   (.clamp 2, .readiness [(sampleSocket, 1, []), (sampleSocket, 1, [])])]

def pollTwiceTrace : NetworkTraceV2 where
  epoch := ⟨0, 0⟩
  channels := [connectRecord sampleSocket samplePeer (some sampleLocal) 0]
  inputs := [⟨0, sampleSocket, ⟨.clamp 2, 0⟩, .inboundBytes 0 [7]⟩]
  outputs := []

/-- The recording reports the first descriptor as writable only (260) and the
    second as readable too (325); the replay releases the byte at the first
    entry and reports both as readable. -/
theorem pollTwice_diverges : ∃ e s, run step (newRecord ⟨0, 0⟩) pollTwice =
        .ok (e, [NetworkReply.errno 0, .events [260, 325]].map .ok) ∧
      e.finish = .ok pollTwiceTrace ∧ IncreasingTimes pollTwice ∧
      ReplayRequests pollTwice pollTwiceReplayed ∧
      run step (newReplay pollTwiceTrace) pollTwiceReplayed =
        .ok (s, [NetworkReply.errno 0, .events [325, 325]].map .ok) ∧
      [NetworkReply.errno 0, .events [325, 325]].map .ok ≠
        guestReplies pollTwice [.errno 0, .events [260, 325]] := by
  have hreco : records pollTwice [.errno 0, .events [260, 325]] pollTwiceTrace = true := by
    decide +kernel
  have hreplay : replays pollTwiceTrace pollTwiceReplayed [.errno 0, .events [325, 325]] = true := by
    decide +kernel
  obtain ⟨e, hrun, hfinish⟩ := records_sound hreco
  obtain ⟨s, hrun'⟩ := replays_sound hreplay
  refine ⟨e, s, hrun, hfinish, increasingTimes_pair (by decide), ?_, hrun', by decide⟩
  exact .cons ⟨rfl, .connect _ _ _ _ _⟩ (.cons ⟨rfl, .readiness _⟩ .nil)

def pollFirst : List (LogicalTime × NetworkRequest) :=
  [(.clamp 1, .recordConnect sampleSocket samplePeer (some sampleLocal) 0 false),
   (.clamp 2, .readiness [(sampleSocket, 1, [.bytes [7]]), (sampleSocket, 1, [])])]

theorem replay_repeats_record_pollFirst :
    ∃ s, run step (newReplay pollTwiceTrace) pollTwiceReplayed =
      .ok (s, guestReplies pollFirst [.errno 0, .events [325, 325]]) := by
  have hreco : records pollFirst [.errno 0, .events [325, 325]] pollTwiceTrace = true := by
    decide +kernel
  obtain ⟨e, hrun, hfinish⟩ := records_sound hreco
  refine replay_repeats_record hrun hfinish (increasingTimes_pair (by decide))
    (.cons ⟨rfl, .connect _ _ _ _ _⟩ (.cons ⟨rfl, .readiness _⟩ .nil)) ?_
  intro r hr
  fin_cases hr <;> simp [NetworkRequest.NoLateArrival]

end NetworkEngine

end Hermit.Network
