import Hermit.Network.Recorder

/-!
# What arrives is received

A recording logs, channel by channel, what the runtime pulled from the host and
handed in with a request, up to the end of the stream. Of a request that is
refused it logs only what comes before.

* `step_seen`: what one request adds to the log.
* `inbound_stream`: the log is the stream that the guest receives.
-/

namespace Hermit.Network

open Hermit.Common OrdMap List

def NetworkArrival.ends : NetworkArrival → Bool
  | .bytes _ => false
  | _ => true

/-- The arrival that an input was recorded for. -/
def NetworkInputKindV1.arrival : NetworkInputKindV1 → NetworkArrival
  | .inboundBytes _ bytes => .bytes bytes
  | .peerWriteClosed _ => .peerWriteClosed
  | .socketError _ errno => .error errno

/-- The arrivals up to the first that ends the stream. -/
def upToEnd : List NetworkArrival → List NetworkArrival
  | [] => []
  | arrival :: rest => arrival :: if arrival.ends then [] else upToEnd rest

theorem upToEnd_append (a b : List NetworkArrival) :
    upToEnd (a ++ b) = upToEnd a ++ if a.any NetworkArrival.ends then [] else upToEnd b := by
  induction a with
  | nil => rfl
  | cons arrival a ih => cases h : arrival.ends <;> simp [upToEnd, h, ih]

namespace NetworkEngine

/-- The arrivals that a request hands in for a channel. -/
def handed (id : OpenFileId) : NetworkRequest → List NetworkArrival
  | .recv i arrivals _ _ _ => if i = id then arrivals else []
  | .readiness channels => channels.flatMap fun entry => if entry.1 = id then entry.2.2 else []
  | _ => []

/-- All that was handed in was taken; or the request was refused, at an empty arrival on the
    channel or for the sake of another one. -/
structure Takes {α : Type} (id : OpenFileId) (handed taken : List NetworkArrival)
    (reply : Except NetworkEngineError α) : Prop where
  before : taken <+: handed
  all : reply.isOk = true → taken = handed
  refused : reply = .error (.invalidArrival id) → taken ++ [.bytes []] <+: handed

theorem Takes.map {α β : Type} {id : OpenFileId} {handed taken : List NetworkArrival}
    {reply : Except NetworkEngineError α} {f : α → β} (h : Takes id handed taken reply) :
    Takes id handed taken (reply.map f) := by
  refine ⟨h.before, ?_, ?_⟩ <;> cases reply <;> intro hreply <;> cases hreply
  · exact h.all rfl
  · exact h.refused rfl

/-- What was taken of a request. -/
def Took (id : OpenFileId)
    (r : (LogicalTime × NetworkRequest) × Except NetworkEngineError NetworkReply)
    (taken : List NetworkArrival) : Prop :=
  handed id r.1.2 = [] ∧ taken = [] ∨ Takes id (handed id r.1.2) taken r.2

/-- What a recording has logged of a channel. -/
def logged (e : NetworkEngine) (id : OpenFileId) : List NetworkArrival :=
  (inputsOf id e.recordedInputs).map (·.event.arrival)

/-- A recording in which the arrivals `taken` came in on a channel. -/
structure Seen (id : OpenFileId) (e : NetworkEngine) (taken : List NetworkArrival) : Prop where
  wellFormed : e.WellFormed
  record : e.isRecord = true
  absent : e.channels[id]? = none → taken = [] ∧ e.logged id = []
  present : ∀ c, e.channels[id]? = some c →
    e.logged id = (if c.record.connectErrno = 0 then upToEnd taken else []) ∧
    c.inputEnded = (c.record.connectErrno ≠ 0 || taken.any NetworkArrival.ends)

variable {e e' : NetworkEngine} {id i : OpenFileId} {taken : List NetworkArrival} {c c' : Channel}

section Insert

variable {mode : Mode} (hwf : WellFormed ⟨mode, e.channels.insert i c'⟩)
  (hrec : isRecord ⟨mode, e.channels.insert i c'⟩ = true)

include hwf hrec

theorem Seen.elsewhere (h : Seen id e taken) (hi : i ≠ id)
    (hlog : logged ⟨mode, e.channels.insert i c'⟩ id = e.logged id) :
    Seen id ⟨mode, e.channels.insert i c'⟩ taken := by
  refine ⟨hwf, hrec, ?_, ?_⟩ <;> rw [getElem?_insert_ne _ hi, hlog]
  · exact h.absent
  · exact h.present

theorem seen_insert (hlog : logged ⟨mode, e.channels.insert i c'⟩ i =
      if c'.record.connectErrno = 0 then upToEnd taken else [])
    (hend : c'.inputEnded = (c'.record.connectErrno ≠ 0 || taken.any NetworkArrival.ends)) :
    Seen i ⟨mode, e.channels.insert i c'⟩ taken := by
  refine ⟨hwf, hrec, by simp, ?_⟩
  intro c₁ hc₁
  obtain rfl : c' = c₁ := by simpa using hc₁
  exact ⟨hlog, hend⟩

/-- A channel is put back with the stream it had. -/
theorem Seen.insert (h : Seen id e taken) (hc : e.channels[i]? = some c)
    (hlog : recordedInputs ⟨mode, e.channels.insert i c'⟩ = e.recordedInputs)
    (hkey : c'.record = c.record) (hend : c'.inputEnded = c.inputEnded) :
    Seen id ⟨mode, e.channels.insert i c'⟩ taken := by
  by_cases hi : i = id
  · subst hi
    obtain ⟨hlogged, hends⟩ := h.present c hc
    rw [← hkey] at hlogged hends
    exact seen_insert hwf hrec (by rw [logged, hlog, ← logged, hlogged]) (hend.trans hends)
  · exact h.elsewhere hwf hrec hi (by rw [logged, hlog, logged])

end Insert

/-- What is handed in after the end of a stream is left. -/
theorem Seen.ended (h : Seen id e taken) (hc : e.channels[id]? = some c)
    (hended : c.inputEnded = true) (t : List NetworkArrival) : Seen id e (taken ++ t) := by
  refine ⟨h.wellFormed, h.record, by simp [hc], ?_⟩
  intro c₁ hc₁
  cases hc.symm.trans hc₁
  obtain ⟨hlog, hends⟩ := h.present c hc
  rw [hended] at hends
  rw [hlog, hended, upToEnd_append]
  by_cases herr : c.record.connectErrno = 0
  · have hany : taken.any NetworkArrival.ends = true := by simpa [herr] using hends.symm
    simp [herr, hany]
  · simp [herr]

theorem Seen.stay (h : Seen id e taken)
    {r : (LogicalTime × NetworkRequest) × Except NetworkEngineError NetworkReply}
    (hnone : handed id r.1.2 = []) : ∃ t, Took id r t ∧ Seen id e (taken ++ t) :=
  ⟨[], .inl ⟨hnone, rfl⟩, by rwa [append_nil]⟩

theorem recordArrival_eq_error {now : LogicalTime} {arrival : NetworkArrival}
    {x : NetworkEngineError} (hpull : e.needsPull i = true)
    (h : e.recordArrival i now arrival = (e', .error x)) :
    e' = e ∧ x = .invalidArrival i ∧ arrival = .bytes [] := by
  unfold needsPull isRecord at hpull
  unfold recordArrival at h
  cases hc : e.channels[i]? <;> cases hmode : e.mode <;> simp [hc, hmode] at hpull h
  split_ifs at h with hbad
  · simp_all
  · cases h

section Arrive

variable {α : Type} {f : Channel → Channel × Except NetworkEngineError α}

/-- What arrived is recorded, then the channel is asked. -/
def arrive (f : Channel → Channel × Except NetworkEngineError α) (i : OpenFileId)
    (now : LogicalTime) (e : NetworkEngine) (arrivals : List NetworkArrival) :
    NetworkEngine × Except NetworkEngineError α :=
  match recordArrivals i now e arrivals with
  | (e, .error x) => (e, .error x)
  | (e, .ok _) => e.onChannel i f

variable (hf : ∀ c : Channel, c.pendingInputs = [] → c.SameStream (f c).1)
  (herr : ∀ c, (f c).2 ≠ .error (.invalidArrival id))

include hf

theorem onChannel_seen (h : Seen id e taken) (hwf : (e.onChannel i f).1.WellFormed) :
    Seen id (e.onChannel i f).1 taken := by
  unfold onChannel at hwf ⊢
  split at hwf
  next => exact h
  next c hc =>
    have hsame := hf c (h.wellFormed.released h.record i c (channelOf_connected hc))
    exact h.insert hwf h.record hc rfl hsame.record hsame.inputEnded

omit hf in
theorem recordArrival_seen (h : Seen id e taken) {now : LogicalTime} {arrival : NetworkArrival}
    {u : Unit} (hok : e.recordArrival i now arrival = (e', .ok u)) :
    Seen id e' (taken ++ if i = id then [arrival] else []) := by
  have hin := recordArrival_inflow h.wellFormed i now arrival
  rcases e.recordArrival_cases i now arrival with
    ⟨x, heq⟩ | ⟨epoch, inputs, outputs, c, event, hmode, hc, hopen, -, hevent, heq⟩
  · cases hok.symm.trans heq
  · cases hok.symm.trans heq
    rw [heq] at hin
    have hrec : isRecord ⟨_, _⟩ = true := hin.mode.trans h.record
    by_cases hi : i = id
    · subst hi
      obtain ⟨hlog, hends⟩ := h.present c hc
      have hnot : c.record.connectErrno = 0 ∧ taken.any NetworkArrival.ends = false := by
        simpa [hopen] using hends.symm
      simp only [logged, recordedInputs, hmode, hnot] at hlog
      refine seen_insert hin.wellFormed hrec ?_ ?_ <;>
        rw [(c.apply_sameOutput event).record, hevent] <;> cases arrival <;>
        simp_all [logged, recordedInputs, upToEnd_append, inputsOf, arrivalEvent, upToEnd,
          NetworkInputKindV1.arrival, Channel.apply, Channel.inputEnded, NetworkArrival.ends]
    · rw [if_neg hi, append_nil]
      exact h.elsewhere hin.wellFormed hrec hi (by simp [logged, recordedInputs, hmode, inputsOf, hi])

include herr

theorem arrive_seen (now : LogicalTime) (arrivals : List NetworkArrival) :
    ∀ {e taken}, Seen id e taken → (arrive f i now e arrivals).1.WellFormed →
      ∃ t, Takes id (if i = id then arrivals else []) t (arrive f i now e arrivals).2 ∧
        Seen id (arrive f i now e arrivals).1 (taken ++ t) := by
  have hasked : ∀ e : NetworkEngine, (e.onChannel i f).2 ≠ .error (.invalidArrival id) := by
    intro e
    unfold onChannel
    split
    · simp
    · exact herr _
  induction arrivals with
  | nil =>
    intro e taken h hwf
    refine ⟨[], ⟨List.nil_prefix, fun _ => (ite_self _).symm, fun hx => absurd hx (hasked e)⟩, ?_⟩
    rw [append_nil]
    exact onChannel_seen hf h hwf
  | cons arrival arrivals ih =>
    intro e taken h hwf
    by_cases hpull : e.needsPull i = true
    · have harrive : arrive f i now e (arrival :: arrivals) =
          match e.recordArrival i now arrival with
          | (e, .error x) => (e, .error x)
          | (e, .ok _) => arrive f i now e arrivals := by
        simp only [arrive, recordArrivals, hpull]
        rcases e.recordArrival i now arrival with ⟨e', x | u⟩ <;> rfl
      rw [harrive] at hwf ⊢
      rcases harr : e.recordArrival i now arrival with ⟨e', x | u⟩
      · obtain ⟨rfl, rfl, rfl⟩ := recordArrival_eq_error hpull harr
        refine ⟨[], ⟨List.nil_prefix, fun hok => (by cases hok), ?_⟩, by rwa [append_nil]⟩
        rintro ⟨⟩
        rw [if_pos rfl]
        exact ⟨arrivals, rfl⟩
      · rw [harr] at hwf
        obtain ⟨t, ht, hs⟩ := ih (recordArrival_seen h harr) hwf
        refine ⟨(if i = id then [arrival] else []) ++ t, ?_, by rwa [← append_assoc]⟩
        split_ifs at ht ⊢
        · exact ⟨by simpa using ht.before, fun hok => by simpa using ht.all hok,
            fun hx => by simpa using ht.refused hx⟩
        · exact ht
    · have harrive : arrive f i now e (arrival :: arrivals) = e.onChannel i f := by
        simp [arrive, recordArrivals, hpull]
      rw [harrive] at hwf ⊢
      have hx := hasked e
      cases hc : e.channels[i]? with
      | none =>
        refine ⟨[], ⟨List.nil_prefix, ?_, fun h => absurd h hx⟩, ?_⟩
        · simp [onChannel, hc, Except.isOk, Except.toBool]
        · rw [append_nil]
          exact onChannel_seen hf h hwf
      | some c =>
        refine ⟨_, ⟨prefix_rfl, fun _ => rfl, fun h => absurd h hx⟩, onChannel_seen hf ?_ hwf⟩
        split_ifs with hi
        · subst hi
          exact h.ended hc (by simpa [needsPull, h.record, hc] using hpull) _
        · rwa [append_nil]

end Arrive

theorem orStalled_ne_error (c : Channel) (now : LogicalTime) {α : Type} (result : α) :
    (c.orStalled now result).2 ≠ .error (.invalidArrival id) := by
  grind [Channel.orStalled, Channel.checkStalled]

theorem recv_ne_error (c : Channel) (now : LogicalTime) (maxLen target : ℕ) (peek : Bool) :
    (c.recv now maxLen target peek).2 ≠ .error (.invalidArrival id) := by
  rw [Channel.recv]
  rcases (c.release now).recvReleased_cases now maxLen target peek with
    ⟨len, h⟩ | ⟨-, errno, -, h⟩ | ⟨-, h⟩ | h <;> rw [h]
  · simp
  · simp
  · simp
  · exact orStalled_ne_error _ now _

theorem readinessLoop_seen (now : LogicalTime)
    (entries : List (OpenFileId × ℕ × List NetworkArrival)) : ∀ {e taken}, Seen id e taken →
      ∃ t, Takes id (handed id (.readiness entries)) t (readinessLoop now e entries).2 ∧
        Seen id (readinessLoop now e entries).1 (taken ++ t) := by
  induction entries with
  | nil =>
    intro e taken h
    refine ⟨[], ⟨prefix_rfl, fun _ => rfl, fun hx => (by cases hx)⟩, ?_⟩
    rwa [append_nil]
  | cons entry entries ih =>
    intro e taken h
    obtain ⟨t, ⟨hpre, hall, href⟩, hs⟩ : ∃ t, Takes id (if entry.1 = id then entry.2.2 else []) t
        (e.readinessEntry now entry).2 ∧ Seen id (e.readinessEntry now entry).1 (taken ++ t) :=
      arrive_seen (fun c hp => Channel.readiness_sameStream hp now entry.2.1)
        (fun c => orStalled_ne_error _ now _) now entry.2.2 h
        (readinessEntry_inflow h.wellFormed now entry).wellFormed
    rw [readinessLoop]
    split
    next e' x heq =>
      rw [heq] at hs href
      refine ⟨t, ⟨hpre.trans (prefix_append _ _), fun hok => (by cases hok), fun hx => ?_⟩, hs⟩
      cases hx
      exact (href rfl).trans (prefix_append _ _)
    next e' events heq =>
      rw [heq] at hs hall
      obtain ⟨t', ⟨hpre', hall', href'⟩, hs'⟩ := ih hs
      obtain rfl := hall rfl
      refine ⟨_ ++ t', .map ⟨(prefix_append_right_inj _).mpr hpre', fun hok => ?_, fun hx => ?_⟩, ?_⟩
      · rw [hall' hok]
        rfl
      · rw [append_assoc]
        exact (prefix_append_right_inj _).mpr (href' hx)
      · rwa [← append_assoc]

theorem recordConnect_seen (h : Seen id e taken) (peer : NetworkAddressV1)
    (localAddress : Option NetworkAddressV1) (errno : ℤ) (nonblocking : Bool) :
    Seen id (e.recordConnect i peer localAddress errno nonblocking).1 taken := by
  have hin := recordConnect_inflow h.wellFormed i peer localAddress errno nonblocking
  rcases e.recordConnect_cases i peer localAddress errno nonblocking with
    ⟨x, heq⟩ | ⟨-, hnone, -, c, hc, heq⟩ <;> rw [heq] at hin ⊢
  · exact h
  · by_cases hi : i = id
    · subst hi
      obtain ⟨rfl, hlog⟩ := h.absent hnone
      refine seen_insert hin.wellFormed h.record (hlog.trans (ite_self _).symm) ?_
      rw [hc, (Channel.connect_sameOutput _ _).record, Channel.inputEnded, Channel.connect_reset]
      cases nonblocking <;> simp [Channel.connect, Channel.new]
    · exact h.elsewhere hin.wellFormed h.record hi rfl

/-- **One request.** -/
theorem step_seen (h : Seen id e taken) {r : LogicalTime × NetworkRequest}
    {reply : Except NetworkEngineError NetworkReply} (hstep : e.step r = .ok (e', reply)) :
    ∃ t, Took id (r, reply) t ∧ Seen id e' (taken ++ t) := by
  have hwf := (step_inflow h.wellFormed hstep).wellFormed
  have hrec := h.record
  obtain ⟨now, request⟩ := r
  cases request with
  | recordConnect i peer localAddress errno nonblocking =>
    cases hstep
    exact (recordConnect_seen h peer localAddress errno nonblocking).stay rfl
  | replayConnect i peer nonblocking =>
    cases hstep
    rcases e.replayConnect_cases i peer nonblocking with ⟨x, heq⟩ | ⟨unconnected, c, hmode, -⟩
    · simp only [heq]
      exact h.stay rfl
    · rw [isRecord, hmode] at hrec
      cases hrec
  | recv i arrivals maxLen target peek =>
    cases hstep
    obtain ⟨t, ht, hs⟩ := arrive_seen
      (fun c hp => Channel.recv_sameStream hp now maxLen target peek)
      (fun c => recv_ne_error c now maxLen target peek) now arrivals h hwf
    exact ⟨t, .inr ht.map, hs⟩
  | readiness channels =>
    cases hstep
    obtain ⟨t, ht, hs⟩ := readinessLoop_seen now channels h
    exact ⟨t, .inr ht.map, hs⟩
  | takeError i =>
    cases hstep
    exact (onChannel_seen (fun c hp => Channel.takeError_sameStream hp now) h hwf).stay rfl
  | sendFailure i =>
    cases hstep
    exact (onChannel_seen (fun c hp => Channel.sendFailure_sameStream hp now) h hwf).stay rfl
  | recordSend i bytes mark waits =>
    cases hstep
    refine Seen.stay ?_ rfl
    rcases e.recordSend_cases i bytes mark now waits with
      ⟨r, heq, -⟩ | ⟨epoch, inputs, outputs, c, c', hmode, hc, -, hc', heq⟩ <;>
      simp only [heq] at hwf ⊢
    · exact h
    · subst hc'
      exact h.insert hwf rfl hc (by simp [recordedInputs, hmode]) rfl rfl
  | recordRefusedSend i =>
    cases hstep
    refine Seen.stay ?_ rfl
    rcases e.recordRefusedSend_cases i with
      ⟨x, heq⟩ | ⟨epoch, inputs, outputs, c, hmode, hc, heq⟩ <;>
      simp only [heq] at hwf ⊢
    · exact h
    · exact h.insert hwf rfl hc (by simp [recordedInputs, hmode]) rfl rfl
  | replaySend =>
    obtain ⟨⟨e₁, r⟩, hsend, heq⟩ := map_eq_ok.mp hstep
    cases heq
    rcases replaySend_eq_ok hsend with ⟨rfl, -⟩ | ⟨unconnected, c, c', hmode, -⟩
    · exact h.stay rfl
    · rw [isRecord, hmode] at hrec
      cases hrec
  | shutdown i how =>
    cases hstep
    exact (onChannel_seen (fun c _ => Channel.shutdown_sameStream how) h hwf).stay rfl
  | addresses i =>
    cases hstep
    exact h.stay rfl

theorem run_seen {epoch : UtcDateTime} {requests : List (LogicalTime × NetworkRequest)}
    {replies : List (Except NetworkEngineError NetworkReply)}
    (hrun : run step (newRecord epoch) requests = .ok (e, replies)) :
    ∃ taken, Forall₂ (Took id) (requests.zip replies) taken ∧
      Seen id e taken.flatten := by
  refine run_history (fun e hist => ∃ taken,
    Forall₂ (Took id) hist taken ∧ Seen id e taken.flatten)
    ?_ ?_ hrun
  · rintro s hist r s' reply ⟨taken, htaken, hs⟩ hstep
    obtain ⟨t, ht, hs'⟩ := step_seen hs hstep
    exact ⟨taken ++ [t], rel_append htaken (.cons ht .nil), by simpa using hs'⟩
  · refine ⟨[], .nil, (Start.record epoch).wellFormed, rfl, ?_, ?_⟩ <;>
      simp [newRecord, logged, recordedInputs, inputsOf]

/-- **The inbound stream.** In a recording and in a replay, after any requests:
    the bytes received on a channel, then those buffered, then those of the
    inputs not yet released (none in a recording), are the payloads of its
    inputs in order. The inputs of a recording are what was handed in with the
    requests and taken, up to the end of the stream; a connect that failed has
    none. A peek leaves what it returns in the buffer, and end of file or an
    error is returned only when all released bytes were received. -/
theorem inbound_stream (start : Start) {id : OpenFileId} {e : NetworkEngine} {c : Channel}
    {requests : List (LogicalTime × NetworkRequest)}
    {replies : List (Except NetworkEngineError NetworkReply)} (hid : start.HasChannel id)
    (hrun : run step start.engine requests = .ok (e, replies)) (hc : e.channelOf id = some c) :
    (requests.zip replies).flatMap (received id) ++ c.rx ++ payloads c.pendingInputs =
        payloads (inputsOf id (start.inputs e)) ∧
      (e.isRecord = true → c.pendingInputs = []) ∧
      (∀ epoch, start = .record epoch → ∃ taken,
        Forall₂ (Took id) (requests.zip replies) taken ∧
        e.logged id = if c.record.connectErrno = 0 then upToEnd taken.flatten else []) ∧
      ∀ now arrivals maxLen target peek e' out,
        e.step (now, .recv id arrivals maxLen target peek) = .ok (e', .ok (.recv out)) →
        ∃ c', e'.channels[id]? = some c' ∧
          (peek = true → ∀ bytes, out = .data bytes → bytes <+: c'.rx) ∧
          ((out = .eof ∨ ∃ errno, out = .error errno) → c'.rx = [] ∧
            (requests.zip replies).flatMap (received id) ++ payloads c'.pendingInputs =
              payloads (inputsOf id (start.inputs e'))) := by
  refine ⟨?_, ?_, ?_, ?_⟩
  · rw [← start.run_stream hid hrun, unread_of_channelOf hc, Channel.unread, append_assoc]
  · intro hrec
    exact (run_inflow start.wellFormed hrun).wellFormed.released hrec id c hc
  · rintro epoch rfl
    obtain ⟨taken, htaken, hs⟩ := run_seen hrun
    refine ⟨taken, htaken, (hs.present c ?_).1⟩
    cases hch : e.channels[id]? with
    | none => cases (channelOf_eq_none hs.record hch).symm.trans hc
    | some c' => rwa [channelOf_connected hch] at hc
  · intro now arrivals maxLen target peek e' out hstep
    obtain ⟨c', hc', hpeek, hterm⟩ := recv_step hstep
    refine ⟨c', hc', hpeek, fun hout => ⟨hterm hout, ?_⟩⟩
    have hstre := start.run_stream hid (run_snoc hrun hstep)
    have hnone : received id ((now, .recv id arrivals maxLen target peek), .ok (.recv out)) = [] := by
      rcases hout with rfl | ⟨errno, rfl⟩ <;> cases peek <;> rfl
    rw [zip_append (run_length hrun).symm, flatMap_append] at hstre
    rw [← hstre, unread_of_channelOf (channelOf_connected hc'), Channel.unread, hterm hout]
    simp [hnone]

/-- Two bytes, the peer's close and a byte that is left arrive, and one byte is received. -/
def sampleReceive : List (LogicalTime × NetworkRequest) :=
  [(⟨1, by decide⟩, .recordConnect sampleSocket samplePeer (some sampleLocal) 0 false),
   (⟨2, by decide⟩, .recv sampleSocket [.bytes [7, 8], .peerWriteClosed, .bytes [9]] 1 1 false)]

theorem inbound_stream_sampleReceive :
    ∃ e replies c, run step (newRecord ⟨0, 0⟩) sampleReceive = .ok (e, replies) ∧
      e.channelOf sampleSocket = some c ∧
      (sampleReceive.zip replies).flatMap (received sampleSocket) = [7] ∧ c.rx = [8] ∧
      e.logged sampleSocket = [.bytes [7, 8], .peerWriteClosed] ∧
      (sampleReceive.zip replies).flatMap (received sampleSocket) ++ c.rx ++
        payloads c.pendingInputs = payloads (inputsOf sampleSocket e.recordedInputs) := by
  have hrun : ∃ e replies c, run step (newRecord ⟨0, 0⟩) sampleReceive = .ok (e, replies) ∧
      e.channelOf sampleSocket = some c ∧
      (sampleReceive.zip replies).flatMap (received sampleSocket) = [7] ∧ c.rx = [8] ∧
      e.logged sampleSocket = [.bytes [7, 8], .peerWriteClosed] := by
    refine ⟨_, _, _, rfl, rfl, ?_, ?_, ?_⟩
    · decide
    · decide
    · decide +kernel
  obtain ⟨e, replies, c, hrun, hc, hgot, hrx, hlog⟩ := hrun
  exact ⟨e, replies, c, hrun, hc, hgot, hrx, hlog,
    (inbound_stream (.record ⟨0, 0⟩) trivial hrun hc).1⟩

end NetworkEngine

end Hermit.Network
