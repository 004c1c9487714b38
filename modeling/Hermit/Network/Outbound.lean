import Hermit.Network.Cases

/-!
# The outbound byte stream of a replay

A replay accepts a guest send only where it repeats the recording
(`replay_outbound`).
-/

namespace Hermit.Network

open Hermit.Common OrdMap List

/-! ## The recorded stream -/

def outbound (fragments : List NetworkOutputV4) : Bytes := fragments.flatMap (·.bytes)

def refusals (fragments : List NetworkOutputV4) : ℕ := fragments.countP (·.bytes = [])

/-- Each fragment starts where the ones before it end. -/
def Contiguous (fragments : List NetworkOutputV4) : Prop :=
  ∀ done fragment rest, fragments = done ++ fragment :: rest →
    fragment.streamOffset = (outbound done).length

theorem outbound_append (a b : List NetworkOutputV4) :
    outbound (a ++ b) = outbound a ++ outbound b := by
  simp [outbound]

theorem outbound_cons (f : NetworkOutputV4) (rest : List NetworkOutputV4) :
    outbound (f :: rest) = f.bytes ++ outbound rest := rfl

theorem refusals_append (a b : List NetworkOutputV4) :
    refusals (a ++ b) = refusals a + refusals b := countP_append

theorem contiguous_snoc {fragments : List NetworkOutputV4} {fragment : NetworkOutputV4}
    (h : Contiguous fragments) (hoff : fragment.streamOffset = (outbound fragments).length) :
    Contiguous (fragments ++ [fragment]) := by
  intro done f rest heq
  rcases eq_nil_or_concat rest with rfl | ⟨rest', g, rfl⟩
  · obtain ⟨rfl, hf⟩ := append_inj' heq rfl
    cases hf
    exact hoff
  · have hspl : fragments ++ [fragment] = (done ++ f :: rest') ++ [g] := by simpa using heq
    exact h done f rest' (append_inj' hspl rfl).1

theorem okOr_eq_ok {ε α : Type} {o : Option α} {x : ε} {a : α} : okOr o x = .ok a ↔ o = some a := by
  cases o <;> simp [okOr]

theorem validateOutput_eq_ok {epochStart : LogicalTime}
    {channels : OrdMap OpenFileId NetworkChannelV2} {s s' : OutputCursors}
    {output : NetworkOutputV4} (h : validateOutput epochStart channels s output = .ok s') :
    output.streamOffset = s.totalOutput[output.channel]?.getD 0 ∧
      output.streamOffset + output.bytes.length ≤ u64Max ∧
      s'.totalOutput = s.totalOutput.insert output.channel
        (output.streamOffset + output.bytes.length) := by
  unfold validateOutput at h
  simp only [bind_eq_ok, throwIf_eq_ok, okOr_eq_ok, not_not] at h
  obtain ⟨channel, -, -, hoff, total, hadd, hwait⟩ := h
  obtain ⟨rfl, hle⟩ := checkedAdd_eq_some hadd
  refine ⟨hoff, by rw [hoff]; exact hle, ?_⟩
  rw [hoff]
  cases hw : output.wait with
  | none =>
    rw [hw] at hwait
    cases hwait
    rfl
  | some wait =>
    rw [hw] at hwait
    simp only [throwIf_eq_ok] at hwait
    obtain ⟨-, -, -, -, hs⟩ := hwait
    cases hs
    rfl

theorem validate_contiguous {trace : NetworkTraceV2} (h : trace.validate = .ok ())
    (id : OpenFileId) : Contiguous (outputsOf id trace.outputs) ∧
      (outbound (outputsOf id trace.outputs)).length ≤ u64Max := by
  obtain ⟨epochStart, -, h⟩ := bind_eq_ok.mp h
  obtain ⟨channels, -, h⟩ := bind_eq_ok.mp h
  obtain ⟨cursors, hout, -⟩ := bind_eq_ok.mp h
  have hinv : Contiguous (outputsOf id trace.outputs) ∧
      (outbound (outputsOf id trace.outputs)).length ≤ u64Max ∧
      cursors.totalOutput[id]?.getD 0 = (outbound (outputsOf id trace.outputs)).length := by
    refine foldlM_history (fun (s : OutputCursors) outputs =>
      Contiguous (outputsOf id outputs) ∧ (outbound (outputsOf id outputs)).length ≤ u64Max ∧
        s.totalOutput[id]?.getD 0 = (outbound (outputsOf id outputs)).length) ?_ ?_ hout
    · rintro s outputs output s' ⟨hcont, hle, hlen⟩ hstep
      obtain ⟨hoff, hmax, htot⟩ := validateOutput_eq_ok hstep
      have hof : outputsOf id (outputs ++ [output]) =
          outputsOf id outputs ++ if output.channel = id then [output] else [] := by
        by_cases hid : output.channel = id <;> simp [outputsOf, hid]
      rw [hof, htot]
      by_cases hid : output.channel = id
      · rw [if_pos hid, outbound_append, hid, getElem?_insert_same]
        rw [hid, hlen] at hoff
        have hend : (outbound (outputsOf id outputs) ++ outbound [output]).length =
            output.streamOffset + output.bytes.length := by simp [outbound, hoff]
        rw [hend]
        exact ⟨contiguous_snoc hcont hoff, hmax, rfl⟩
      · rw [if_neg hid, append_nil, getElem?_insert_ne _ hid]
        exact ⟨hcont, hle, hlen⟩
    · refine ⟨?_, Nat.zero_le _, by simp [outputsOf, outbound]⟩
      intro done fragment rest heq
      simp [outputsOf] at heq
  exact ⟨hinv.1, hinv.2.1⟩

/-! ## How far a channel has got -/

def PartOf (part : Bytes) : List NetworkOutputV4 → Prop
  | [] => part = []
  | fragment :: _ => part <+: fragment.bytes ∧ (part = [] ∨ part.length < fragment.bytes.length)

/-- The channel has accepted the bytes `accepted` and `refused` refusals of
    the fragments `all`: it is past `done`, and `part` of the next one. -/
def Sending (all : List NetworkOutputV4) (accepted : Bytes) (refused : ℕ) (c : Channel) : Prop :=
  ∃ done part, all = done ++ c.expectedOutputs ∧ accepted = outbound done ++ part ∧
    c.tx = accepted.length ∧ refused = refusals done ∧ PartOf part c.expectedOutputs

theorem partOf_nil (fragments : List NetworkOutputV4) : PartOf [] fragments := by
  cases fragments with
  | nil => rfl
  | cons => exact ⟨List.nil_prefix, .inl rfl⟩

theorem Sending.of_sameOutput {all : List NetworkOutputV4} {accepted : Bytes} {refused : ℕ}
    {c c' : Channel} (h : Sending all accepted refused c) (hs : c.SameOutput c') :
    Sending all accepted refused c' := by
  unfold Sending
  rw [hs.expectedOutputs, hs.tx]
  exact h

theorem Sending.accepted_isInitial {all : List NetworkOutputV4} {accepted : Bytes} {refused : ℕ} {c : Channel}
    (h : Sending all accepted refused c) : accepted <+: outbound all := by
  obtain ⟨done, part, hall, hacc, -, -, hpart⟩ := h
  rw [hall, hacc, outbound_append]
  refine (prefix_append_right_inj _).mpr ?_
  cases hexp : c.expectedOutputs with
  | nil =>
    rw [hexp] at hpart
    rw [hpart]
    exact nil_prefix
  | cons =>
    rw [hexp] at hpart
    rw [outbound_cons]
    exact hpart.1.trans (prefix_append _ _)

theorem Sending.done_iff {all : List NetworkOutputV4} {accepted : Bytes} {refused : ℕ}
    {c : Channel} (h : Sending all accepted refused c) :
    c.expectedOutputs = [] ↔ accepted = outbound all ∧ refused = refusals all := by
  obtain ⟨done, part, hall, hacc, -, href, hpart⟩ := h
  constructor
  · intro hexp
    rw [hexp] at hall hpart
    have hp : part = [] := hpart
    rw [hall, hacc, href, hp]
    simp
  · rintro ⟨hbyt, hcnt⟩
    cases hexp : c.expectedOutputs with
    | nil => rfl
    | cons fragment rest =>
      exfalso
      rw [hexp] at hall hpart
      rw [hall, hacc, outbound_append, outbound_cons] at hbyt
      rw [hall, href, refusals_append] at hcnt
      have hlen : part.length = fragment.bytes.length + (outbound rest).length := by
        have := congrArg length (append_cancel_left hbyt)
        simpa using this
      by_cases hemp : fragment.bytes = []
      · have : 0 < refusals (fragment :: rest) := by simp [refusals, hemp]
        omega
      · have hpos : 0 < fragment.bytes.length := length_pos_of_ne_nil hemp
        rcases hpart.2 with rfl | hlt
        · simp at hlen
          omega
        · omega

def acceptedBy (bytes : Bytes) : Except NetworkEngineError ReplaySendOutcome → Bytes
  | .ok (.sent count) => bytes.take count
  | _ => []

def refusedBy : Except NetworkEngineError ReplaySendOutcome → ℕ
  | .ok .wouldBlock => 1
  | _ => 0

/-- **One send.** On contiguous fragments a send never panics, and moves the
    channel on by what it accepts. -/
theorem replaySend_sending {all : List NetworkOutputV4} (hcont : Contiguous all) {accepted : Bytes}
    {refused : ℕ} {c : Channel} (hc : Sending all accepted refused c) (id : OpenFileId)
    (bytes : Bytes) (nonblocking : Bool) (now : LogicalTime) (waits : ℕ) :
    ∃ c' r, c.replaySend id bytes nonblocking now waits = .ok (c', r) ∧ c'.record = c.record ∧
      Sending all (accepted ++ acceptedBy bytes r) (refused + refusedBy r) c' := by
  have hcases := c.replaySend_cases id bytes nonblocking now waits
  -- The fragment at the front starts where the consumed ones end.
  have hfr : ∀ fragment rest, c.expectedOutputs = fragment :: rest →
      ∃ done part, all = done ++ fragment :: rest ∧ accepted = outbound done ++ part ∧
        refused = refusals done ∧ part <+: fragment.bytes ∧
        fragment.streamOffset + part.length = c.tx := by
    intro fragment rest hexp
    obtain ⟨done, part, hall, hacc, htx, href, hpart⟩ := hc
    rw [hexp] at hall hpart
    have hoff := hcont done fragment rest hall
    refine ⟨done, part, hall, hacc, href, hpart.1, ?_⟩
    rw [htx, hacc, length_append, hoff]
  generalize c.replaySend id bytes nonblocking now waits = x at hcases
  cases hcases with
  | empty | failed | notYet => exact ⟨c, _, rfl, rfl, by simpa [acceptedBy, refusedBy] using hc⟩
  | refused h fragment rest hexp hemp =>
    obtain ⟨done, part, hall, hacc, href, hpre, hoff⟩ := hfr fragment rest hexp
    rw [hemp, prefix_nil] at hpre
    refine ⟨_, _, rfl, rfl, done ++ [fragment], [], by simp [hall], ?_, ?_, ?_, ?_⟩
    · simp [acceptedBy, hacc, hpre, outbound, hemp]
    · obtain ⟨-, -, -, -, htx, -⟩ := hc
      simpa [acceptedBy] using htx
    · simp [refusedBy, href, refusals, hemp]
    · exact partOf_nil rest
  | underflow fragment rest hexp hne hlt =>
    obtain ⟨done, part, -, -, -, -, hoff⟩ := hfr fragment rest hexp
    omega
  | slice fragment rest hexp hne hlt =>
    obtain ⟨done, part, -, -, -, hpre, hoff⟩ := hfr fragment rest hexp
    have := hpre.length_le
    omega
  | sent h fragment rest remaining len hexp hne hrem hlen heq =>
    obtain ⟨done, part, hall, hacc, href, hpre, hoff⟩ := hfr fragment rest hexp
    have hsta : c.tx - fragment.streamOffset = part.length := by omega
    obtain ⟨remaining', hspl⟩ := hpre
    have hrema : remaining = remaining' := by
      rw [hrem, hsta, ← hspl, drop_left]
    subst hrema
    have hbyt : (bytes.take len).length = len := by
      rw [length_take]
      omega
    have htx : c.tx + len = (accepted ++ bytes.take len).length := by
      obtain ⟨-, -, -, -, htx, -⟩ := hc
      rw [length_append, hbyt, htx]
    by_cases hwhole : len = remaining.length
    · -- The fragment is complete.
      refine ⟨_, _, rfl, rfl, done ++ [fragment], [], ?_, ?_, htx, ?_, ?_⟩
      · simp [hwhole, hall]
      · have hall' : bytes.take len = remaining := by rw [← heq, hwhole, take_length]
        simp [acceptedBy, hall', hacc, outbound, ← hspl]
      · simp [refusedBy, href, refusals, hne]
      · simp only [if_pos hwhole]
        exact partOf_nil rest
    · refine ⟨_, _, rfl, rfl, done, part ++ bytes.take len, ?_, ?_, htx, ?_, ?_⟩
      · simp [hwhole, hall, hexp]
      · simp [acceptedBy, hacc]
      · simp [refusedBy, href]
      · simp only [if_neg hwhole, hexp]
        rw [← heq]
        refine ⟨?_, .inr ?_⟩
        · rw [← hspl]
          exact (prefix_append_right_inj _).mpr (List.take_prefix _ _)
        · rw [← hspl, length_append, length_append, length_take]
          omega

/-! ## The engine -/

namespace NetworkEngine

def accepted (id : OpenFileId) :
    (LogicalTime × NetworkRequest) × Except NetworkEngineError NetworkReply → Bytes
  | ((_, .replaySend id' bytes _ _), .ok (.sent count)) => if id' = id then bytes.take count else []
  | _ => []

def refusedSend (id : OpenFileId) :
    (LogicalTime × NetworkRequest) × Except NetworkEngineError NetworkReply → Bool
  | ((_, .replaySend id' _ _ _), .ok .wouldBlock) => id' = id
  | _ => false

def connects (id : OpenFileId) :
    (LogicalTime × NetworkRequest) × Except NetworkEngineError NetworkReply → Bool
  | ((_, .replayConnect id' _ _), .ok _) => id' = id
  | _ => false

/-- `e'` differs from `e` in no connection and in nothing a channel has sent
    or has still to send. -/
structure SameOutputs (e e' : NetworkEngine) : Prop where
  mode : e'.mode = e.mode
  channels : ∀ id : OpenFileId, Option.Rel Channel.SameOutput e.channels[id]? e'.channels[id]?

theorem SameOutputs.refl (e : NetworkEngine) : SameOutputs e e where
  mode := rfl
  channels id := by
    cases e.channels[id]? with
    | none => exact .none
    | some c => exact .some (Channel.SameOutput.refl c)

theorem SameOutputs.trans {e e' e'' : NetworkEngine} (h : SameOutputs e e')
    (h' : SameOutputs e' e'') : SameOutputs e e'' where
  mode := h'.mode.trans h.mode
  channels id := by
    have h1 := h.channels id
    have h2 := h'.channels id
    revert h1 h2
    generalize e.channels[id]? = a
    generalize e'.channels[id]? = b
    generalize e''.channels[id]? = c
    rintro (h1 | _) h2
    · cases h2 with
      | some h2 => exact .some (h1.trans h2)
    · cases h2
      exact .none

theorem onChannel_sameOutputs {α : Type} (e : NetworkEngine) (id : OpenFileId)
    {f : Channel → Channel × Except NetworkEngineError α}
    (hf : ∀ c, Channel.SameOutput c (f c).1) : SameOutputs e (e.onChannel id f).1 := by
  unfold onChannel
  split
  · exact SameOutputs.refl e
  · rename_i c hc
    refine ⟨rfl, ?_⟩
    intro i
    rw [getElem?_insert_ite]
    split_ifs with hi
    · rw [← hi, hc]
      exact .some (hf c)
    · exact (SameOutputs.refl e).channels i

theorem recvRequest_sameOutputs {e : NetworkEngine} (hrec : e.isRecord = false)
    (now : LogicalTime) (id : OpenFileId) (arrivals : List NetworkArrival) (maxLen target : ℕ)
    (peek : Bool) : SameOutputs e (e.recvRequest now id arrivals maxLen target peek).1 := by
  rw [recvRequest, recordArrivals_replay hrec]
  exact e.onChannel_sameOutputs id fun c => c.recv_sameOutput now maxLen target peek

theorem readinessLoop_sameOutputs (now : LogicalTime)
    (entries : List (OpenFileId × ℕ × List NetworkArrival)) : ∀ {e : NetworkEngine},
      e.isRecord = false → SameOutputs e (readinessLoop now e entries).1 := by
  induction entries with
  | nil => intro e _; exact SameOutputs.refl e
  | cons entry entries ih =>
    intro e hrec
    have hent : SameOutputs e (e.readinessEntry now entry).1 := by
      rw [readinessEntry, recordArrivals_replay hrec]
      exact e.onChannel_sameOutputs entry.1 fun c => c.readiness_sameOutput now entry.2.1
    rw [readinessLoop]
    split
    · rename_i e' x h
      rwa [h] at hent
    · rename_i e' events h
      rw [h] at hent
      have hrec' : e'.isRecord = false := by rw [isRecord, hent.mode]; exact hrec
      exact hent.trans (ih hrec')

/-! ## A replay along its history -/

variable {trace : NetworkTraceV2} {e e' : NetworkEngine}
  {hist : List ((LogicalTime × NetworkRequest) × Except NetworkEngineError NetworkReply)}

structure Replaying (trace : NetworkTraceV2) (unconnected : OrdMap OpenFileId Channel)
    (e : NetworkEngine)
    (hist : List ((LogicalTime × NetworkRequest) × Except NetworkEngineError NetworkReply)) :
    Prop where
  mode : e.mode = .replay unconnected
  waiting : ∀ id : OpenFileId, e.channels[id]? = none →
    unconnected[id]? = replayChannel trace id ∧ hist.any (connects id) = false ∧
      hist.flatMap (accepted id) = [] ∧ hist.countP (refusedSend id) = 0
  connected : ∀ (id : OpenFileId) c, e.channels[id]? = some c →
    unconnected[id]? = none ∧ hist.any (connects id) = true ∧
      (∃ record ∈ trace.channels, record.id = id) ∧
      Sending (outputsOf id trace.outputs) (hist.flatMap (accepted id))
        (hist.countP (refusedSend id)) c

theorem replaying_newReplay (trace : NetworkTraceV2) :
    ∃ unconnected, Replaying trace unconnected (newReplay trace) [] := by
  obtain ⟨unconnected, h, hun⟩ := newReplay_mode trace
  refine ⟨unconnected, by rw [h], ?_, ?_⟩
  · intro id _
    exact ⟨hun id, rfl, rfl, rfl⟩
  · intro id c hc
    rw [h] at hc
    simp at hc

theorem Replaying.quiet {unconnected : OrdMap OpenFileId Channel}
    (h : Replaying trace unconnected e hist) (hs : SameOutputs e e')
    {x : (LogicalTime × NetworkRequest) × Except NetworkEngineError NetworkReply}
    (hx : ∀ id, accepted id x = [] ∧ refusedSend id x = false ∧ connects id x = false) :
    Replaying trace unconnected e' (hist ++ [x]) := by
  refine ⟨hs.mode.trans h.mode, ?_, ?_⟩
  · intro id hnone
    have hrel := hs.channels id
    rw [hnone] at hrel
    have hold : e.channels[id]? = none := by
      generalize e.channels[id]? = a at hrel
      cases hrel
      rfl
    simpa [hx id] using h.waiting id hold
  · intro id c' hc'
    have hrel := hs.channels id
    rw [hc'] at hrel
    obtain ⟨c, hc, hsame⟩ : ∃ c, e.channels[id]? = some c ∧ c.SameOutput c' := by
      generalize e.channels[id]? = a at hrel
      cases hrel with
      | some hsame => exact ⟨_, rfl, hsame⟩
    obtain ⟨hun, hconn, hrec, hsend⟩ := h.connected id c hc
    refine ⟨hun, by simp [hconn], hrec, ?_⟩
    simpa [hx id] using hsend.of_sameOutput hsame

theorem sending_replayChannel {id : OpenFileId} {c : Channel}
    (h : replayChannel trace id = some c) :
    c.record.id = id ∧ (∃ record ∈ trace.channels, record.id = id) ∧
      Sending (outputsOf id trace.outputs) [] 0 c := by
  obtain ⟨record, hrec, rfl⟩ := Option.map_eq_some_iff.mp h
  have hid := recordOf_id hrec
  exact ⟨hid.2, ⟨record, hid⟩, [], [], rfl, rfl, rfl, rfl, partOf_nil _⟩

theorem Replaying.connect {unconnected : OrdMap OpenFileId Channel}
    (h : Replaying trace unconnected e hist) (now : LogicalTime) (id : OpenFileId)
    (peer : NetworkAddressV1) (nonblocking : Bool) :
    ∃ e' reply unconnected', e.step (now, .replayConnect id peer nonblocking) = .ok (e', reply) ∧
      Replaying trace unconnected' e'
        (hist ++ [((now, .replayConnect id peer nonblocking), reply)]) := by
  rcases e.replayConnect_cases id peer nonblocking with
    ⟨x, hx⟩ | ⟨unconnected₁, c, hmode, hnone, hc, -, hx⟩
  · refine ⟨e, .error x, unconnected, ?_, h.quiet (SameOutputs.refl e) fun _ => ⟨rfl, rfl, rfl⟩⟩
    show Except.ok (replyWith .errno (e.replayConnect id peer nonblocking)) = _
    rw [hx]
    rfl
  · have hun : unconnected₁ = unconnected := by
      rw [h.mode] at hmode
      cases hmode
      rfl
    subst hun
    obtain ⟨hready, hnever, hacc, hcnt⟩ := h.waiting id hnone
    obtain ⟨hid, hreco, hsend⟩ := sending_replayChannel (hready.symm.trans hc)
    rw [hid] at hx
    refine ⟨⟨.replay (unconnected₁.erase id), e.channels.insert id (c.connect nonblocking).1⟩,
      .ok (.errno (c.connect nonblocking).2), unconnected₁.erase id, ?_, rfl, ?_, ?_⟩
    · show Except.ok (replyWith .errno (e.replayConnect id peer nonblocking)) = _
      rw [hx]
      rfl
    · intro i hi
      have hne : id ≠ i := by
        rintro rfl
        simp at hi
      rw [getElem?_insert_ne _ hne] at hi
      rw [getElem?_erase_ne _ hne]
      simpa [accepted, refusedSend, connects, hne] using h.waiting i hi
    · intro i d hd
      rw [getElem?_insert_ite] at hd
      split_ifs at hd with hi
      · cases hd
        subst hi
        refine ⟨getElem?_erase_same _ _, by simp [connects], hreco, ?_⟩
        simpa [accepted, refusedSend, hacc, hcnt] using
          hsend.of_sameOutput (c.connect_sameOutput nonblocking)
      · obtain ⟨hun, hconn, hrec, hs⟩ := h.connected i d hd
        refine ⟨by rw [getElem?_erase_ne _ hi, hun], by simp [hconn], hrec, ?_⟩
        simpa [accepted, refusedSend] using hs

theorem accepted_replaySend (now : LogicalTime) (id i : OpenFileId) (bytes : Bytes)
    (nonblocking : Bool) (waits : ℕ) (out : Except NetworkEngineError ReplaySendOutcome) :
    accepted i ((now, .replaySend id bytes nonblocking waits), out.map replaySendReply) =
      if id = i then acceptedBy bytes out else [] := by
  rcases out with x | (count | _ | _) <;> simp [accepted, acceptedBy, Except.map, replaySendReply]

theorem refusedSend_replaySend (now : LogicalTime) (id i : OpenFileId) (bytes : Bytes)
    (nonblocking : Bool) (waits : ℕ) (out : Except NetworkEngineError ReplaySendOutcome) :
    countP (refusedSend i)
        [((now, .replaySend id bytes nonblocking waits), out.map replaySendReply)] =
      if id = i then refusedBy out else 0 := by
  rcases out with x | (count | _ | _) <;>
    simp [refusedSend, refusedBy, Except.map, replaySendReply, countP_cons]

theorem Replaying.send {unconnected : OrdMap OpenFileId Channel}
    (h : Replaying trace unconnected e hist)
    (hcont : ∀ id, Contiguous (outputsOf id trace.outputs)) (now : LogicalTime) (id : OpenFileId)
    (bytes : Bytes) (nonblocking : Bool) (waits : ℕ) :
    ∃ e' reply, e.step (now, .replaySend id bytes nonblocking waits) = .ok (e', reply) ∧
      Replaying trace unconnected e'
        (hist ++ [((now, .replaySend id bytes nonblocking waits), reply)]) := by
  have hrec : e.isRecord = false := by rw [isRecord, h.mode]
  have hstep : e.step (now, .replaySend id bytes nonblocking waits) =
      (e.replaySend id bytes nonblocking now waits).map (replyWith replaySendReply) := rfl
  rw [hstep, replaySend, hrec, if_neg Bool.false_ne_true]
  cases hc : e.channels[id]? with
  | none =>
    exact ⟨e, _, rfl, h.quiet (SameOutputs.refl e) fun _ => ⟨rfl, rfl, rfl⟩⟩
  | some c =>
    obtain ⟨hun, hconn, hreco, hs⟩ := h.connected id c hc
    obtain ⟨c', out, hsend, -, hs'⟩ := replaySend_sending (hcont id) hs id bytes nonblocking now waits
    refine ⟨{ e with channels := e.channels.insert id c' }, out.map replaySendReply, ?_, h.mode,
      ?_, ?_⟩
    · simp only [hsend]
      rfl
    · intro i hi
      have hne : id ≠ i := by
        rintro rfl
        simp at hi
      rw [getElem?_insert_ne _ hne] at hi
      rw [flatMap_append, countP_append, refusedSend_replaySend, flatMap_singleton,
        accepted_replaySend, if_neg hne, if_neg hne]
      simpa [connects] using h.waiting i hi
    · intro i d hd
      rw [getElem?_insert_ite] at hd
      rw [flatMap_append, countP_append, refusedSend_replaySend, flatMap_singleton,
        accepted_replaySend]
      split_ifs at hd ⊢ with hi
      · cases hd
        subst hi
        exact ⟨hun, by simp [hconn], hreco, hs'⟩
      · simpa [connects] using h.connected i d hd

/-- **One request.** On a trace with contiguous fragments, a request of a
    replay always gets a reply. -/
theorem Replaying.step {unconnected : OrdMap OpenFileId Channel}
    (h : Replaying trace unconnected e hist)
    (hcont : ∀ id, Contiguous (outputsOf id trace.outputs)) (r : LogicalTime × NetworkRequest) :
    ∃ e' reply unconnected', e.step r = .ok (e', reply) ∧
      Replaying trace unconnected' e' (hist ++ [(r, reply)]) := by
  have hrec : e.isRecord = false := by rw [isRecord, h.mode]
  obtain ⟨now, request⟩ := r
  cases request with
  | recordConnect id peer localAddress errno nonblocking =>
    refine ⟨e, .error .wrongMode, unconnected, ?_,
      h.quiet (SameOutputs.refl e) fun _ => ⟨rfl, rfl, rfl⟩⟩
    show Except.ok (replyWith .errno (e.recordConnect id peer localAddress errno nonblocking)) = _
    rw [recordConnect, hrec]
    rfl
  | replayConnect id peer nonblocking => exact h.connect now id peer nonblocking
  | recv id arrivals maxLen target peek =>
    exact ⟨_, _, unconnected, rfl,
      h.quiet (recvRequest_sameOutputs hrec now id arrivals maxLen target peek)
        fun _ => ⟨rfl, rfl, rfl⟩⟩
  | readiness channels =>
    exact ⟨_, _, unconnected, rfl, h.quiet (readinessLoop_sameOutputs now channels hrec)
      fun _ => ⟨rfl, rfl, rfl⟩⟩
  | takeError id =>
    exact ⟨_, _, unconnected, rfl, h.quiet (e.onChannel_sameOutputs id
      fun c => c.takeError_sameOutput now) fun _ => ⟨rfl, rfl, rfl⟩⟩
  | sendFailure id =>
    exact ⟨_, _, unconnected, rfl, h.quiet (e.onChannel_sameOutputs id
      fun c => c.sendFailure_sameOutput now) fun _ => ⟨rfl, rfl, rfl⟩⟩
  | recordSend id bytes mark waits =>
    rcases e.recordSend_cases id bytes mark now waits with
      ⟨r, hr, -⟩ | ⟨epoch, inputs, outputs, c, c', hmode, -⟩
    · refine ⟨e, r.map .recorded, unconnected, ?_,
        h.quiet (SameOutputs.refl e) fun _ => ⟨rfl, rfl, rfl⟩⟩
      show Except.ok (replyWith .recorded (e.recordSend id bytes mark now waits)) = _
      rw [hr]
      rfl
    · rw [h.mode] at hmode
      cases hmode
  | recordRefusedSend id =>
    rcases e.recordRefusedSend_cases id with ⟨x, hx⟩ | ⟨epoch, inputs, outputs, c, hmode, -⟩
    · refine ⟨e, .error x, unconnected, ?_, h.quiet (SameOutputs.refl e) fun _ => ⟨rfl, rfl, rfl⟩⟩
      show Except.ok (replyWith (fun _ => .wouldBlock) (e.recordRefusedSend id)) = _
      rw [hx]
      rfl
    · rw [h.mode] at hmode
      cases hmode
  | replaySend id bytes nonblocking waits =>
    obtain ⟨e', reply, hstep, hr⟩ := h.send hcont now id bytes nonblocking waits
    exact ⟨e', reply, unconnected, hstep, hr⟩
  | shutdown id how =>
    exact ⟨_, _, unconnected, rfl, h.quiet (e.onChannel_sameOutputs id
      fun c => c.shutdown_sameOutput how) fun _ => ⟨rfl, rfl, rfl⟩⟩
  | addresses id =>
    exact ⟨e, _, unconnected, rfl, h.quiet (SameOutputs.refl e) fun _ => ⟨rfl, rfl, rfl⟩⟩

/-! ## The end of a replay -/

/-- `finish_replay` succeeds when nothing waits to be connected or sent. -/
theorem finishReplay_eq_ok {unconnected : OrdMap OpenFileId Channel}
    (hmode : e.mode = .replay unconnected) :
    e.finishReplay = .ok () ↔ (∀ id : OpenFileId, unconnected[id]? = none) ∧
        ∀ (id : OpenFileId) c, e.channels[id]? = some c → c.expectedOutputs = [] := by
  have hkeys : unconnected.keys = [] ↔ ∀ id : OpenFileId, unconnected[id]? = none := by
    rw [eq_nil_iff_forall_not_mem]
    refine forall_congr' fun id => ?_
    rw [Std.ExtTreeMap.mem_keys, Std.ExtTreeMap.mem_iff_isSome_getElem?]
    simp
  unfold finishReplay
  rw [hmode]
  dsimp only
  cases hk : unconnected.keys with
  | cons id ids =>
    have hsome : ¬ ∀ id : OpenFileId, unconnected[id]? = none := by
      rw [← hkeys, hk]
      simp
    exact iff_of_false (by simp) fun h => hsome h.1
  | nil =>
    rw [forM_eq_ok]
    have hnone := hkeys.mp hk
    constructor
    · intro hall
      refine ⟨hnone, ?_⟩
      intro id c hc
      have hone := hall (id, c) ((mem_toList _ id c).mpr hc)
      cases hlast : c.expectedOutputs.getLast? with
      | none => exact getLast?_eq_none_iff.mp hlast
      | some last => simp [hlast] at hone
    · rintro ⟨-, hall⟩ ⟨id, c⟩ hmem
      simp [hall id c ((mem_toList _ id c).mp hmem)]

/-- **The outbound stream.** On a valid trace, whatever the requests: every
    request gets a reply (no subtraction or slice fails), the bytes accepted on
    a channel are a prefix of its recorded stream, and `finish_replay` succeeds
    exactly when each recorded channel was connected, all its bytes accepted and
    all its refused sends repeated. -/
theorem replay_outbound {trace : NetworkTraceV2} (hvalid : trace.validate = .ok ())
    (requests : List (LogicalTime × NetworkRequest)) :
    ∃ e replies, run step (newReplay trace) requests = .ok (e, replies) ∧
      (∀ id, (requests.zip replies).flatMap (accepted id) <+:
        outbound (outputsOf id trace.outputs)) ∧
      (e.finishReplay = .ok () ↔ ∀ record ∈ trace.channels,
        (requests.zip replies).any (connects record.id) = true ∧
        (requests.zip replies).flatMap (accepted record.id) =
          outbound (outputsOf record.id trace.outputs) ∧
        (requests.zip replies).countP (refusedSend record.id) =
          refusals (outputsOf record.id trace.outputs)) := by
  have hcont := fun id => (validate_contiguous hvalid id).1
  obtain ⟨e, replies, hrun, unconnected, hr⟩ := run_isOk
    (fun e hist => ∃ unconnected, Replaying trace unconnected e hist)
    (fun e hist r ⟨unconnected, h⟩ => by
      obtain ⟨e', reply, unconnected', hstep, h'⟩ := h.step hcont r
      exact ⟨e', reply, hstep, unconnected', h'⟩)
    requests (replaying_newReplay trace)
  rw [nil_append] at hr
  refine ⟨e, replies, hrun, ?_, ?_⟩
  · intro id
    cases hc : e.channels[id]? with
    | none =>
      rw [(hr.waiting id hc).2.2.1]
      exact nil_prefix
    | some c => exact (hr.connected id c hc).2.2.2.accepted_isInitial
  · rw [finishReplay_eq_ok hr.mode]
    constructor
    · rintro ⟨hnone, hdone⟩ record hreco
      cases hc : e.channels[record.id]? with
      | none =>
        -- A channel that waits would still be in `unconnected`.
        obtain ⟨r, hr'⟩ := recordOf_isSome.mpr ⟨record, hreco, rfl⟩
        have hready := (hr.waiting record.id hc).1
        rw [hnone record.id, replayChannel, hr'] at hready
        cases hready
      | some c =>
        obtain ⟨-, hconn, -, hs⟩ := hr.connected record.id c hc
        exact ⟨hconn, hs.done_iff.mp (hdone record.id c hc)⟩
    · intro hall
      refine ⟨?_, ?_⟩
      · intro id
        cases hc : e.channels[id]? with
        | none =>
          obtain ⟨hready, hnever, -⟩ := hr.waiting id hc
          cases hrec : recordOf id trace.channels with
          | none => rw [hready, replayChannel, hrec]; rfl
          | some record =>
            obtain ⟨hmem, hid⟩ := recordOf_id hrec
            have hconn := (hall record hmem).1
            rw [hid, hnever] at hconn
            cases hconn
        | some c => exact (hr.connected id c hc).1
      · intro id c hc
        obtain ⟨-, -, ⟨record, hmem, hid⟩, hs⟩ := hr.connected id c hc
        have hthis := (hall record hmem).2
        rw [hid] at hthis
        exact hs.done_iff.mpr hthis

/-- Three bytes, then a refused send. -/
def sampleTrace : NetworkTraceV2 where
  epoch := ⟨0, 0⟩
  channels := [connectRecord sampleSocket samplePeer (some sampleLocal) 0]
  inputs := []
  outputs := [⟨sampleSocket, 0, [1, 2, 3], none⟩, ⟨sampleSocket, 3, [], none⟩]

/-- The guest splits the fragment, then runs into the refusal. -/
def sampleSends : List (LogicalTime × NetworkRequest) :=
  [(.clamp 1, .replayConnect sampleSocket samplePeer false),
   (.clamp 2, .replaySend sampleSocket [1] false 0),
   (.clamp 3, .replaySend sampleSocket [2, 3, 4] true 0),
   (.clamp 4, .replaySend sampleSocket [4] true 0)]

theorem replay_outbound_sampleTrace : sampleTrace.validate = .ok () ∧
      ∃ e replies, run step (newReplay sampleTrace) sampleSends = .ok (e, replies) ∧
        ∀ id, (sampleSends.zip replies).flatMap (accepted id) <+:
          outbound (outputsOf id sampleTrace.outputs) := by
  have hvalid : sampleTrace.validate = .ok () := by decide +kernel
  obtain ⟨e, replies, hrun, hpre, -⟩ := replay_outbound hvalid sampleSends
  exact ⟨hvalid, e, replies, hrun, hpre⟩

end NetworkEngine

end Hermit.Network
