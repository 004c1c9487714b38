import Hermit.Common.Keyed
import Hermit.Races.Channels

/-!
# Which writes a pipe read returned

The edges of `data_edges_in` through pipes are exact: with the writes of a pipe
laid end to end in entry order and its reads in return order, a read gets an
edge from a write exactly if their byte ranges overlap.

The offsets saturate at `u64::MAX`, so this holds for a pipe through which fewer
bytes than that were written; a trace with more is in
`saturated_pipe_loses_edge`.

Results:
* `dataEdges_of_pipe`
-/

namespace Hermit.Races

open Hermit.Common OrdMap List

/-! ## Specification -/

def writesTo (id : ChannelId) (step : Step) : Bool := decide (step.id = id) && step.write

def readsFrom (id : ChannelId) (step : Step) : Bool := decide (step.id = id) && !step.write

def bytes (p : Step → Bool) (steps : List Step) : ℕ := ((steps.filter p).map (·.count)).sum

/-- No read of the channel returned more than had been written before it. -/
def Covered (id : ChannelId) (steps : List Step) : Prop :=
  ∀ seen step, seen ++ [step] <+: steps → readsFrom id step = true →
    bytes (readsFrom id) seen + step.count ≤ bytes (writesTo id) seen

def IsPipe (syscalls : List SyscallRecord) (id : ChannelId) : Prop :=
  ∀ step ∈ channelSteps syscalls, step.id = id → step.kind = .pipe

/-- The event numbers of the calls are different. -/
def DistinctEvents (syscalls : List SyscallRecord) : Prop :=
  (syscalls.flatMap fun sys => sys.pre :: sys.post.toList).Nodup

/-! ## The admission rules -/

theorem contains_orInsert (untracked : OrdMap ChannelKey Untracked) (key key' : ChannelKey)
    (why : Why) : (orInsert untracked key why).contains key' = true ↔
      key = key' ∨ untracked.contains key' = true := by
  rw [orInsert]
  split
  · rename_i h
    refine ⟨.inr, ?_⟩
    rintro (rfl | h')
    · exact h
    · exact h'
  · rw [Std.ExtTreeMap.contains_insert]
    simp

/-- What each pass of a loop may add holds after it if some pass adds it. -/
theorem foldl_iff {σ α : Type*} {f : σ → α → σ} {P : σ → Prop} {p : α → Prop}
    (h : ∀ s a, P (f s a) ↔ P s ∨ p a) (as : List α) (s : σ) :
    P (as.foldl f s) ↔ P s ∨ ∃ a ∈ as, p a := by
  induction as generalizing s with
  | nil => simp
  | cons a as ih =>
    rw [foldl_cons, ih, h]
    simp only [mem_cons, exists_eq_or_imp, or_assoc]

theorem contains_foldl_leaveOut (syscalls : List SyscallRecord) (untyped : Option Why)
    (id : ChannelId) (steps : List Step) (untracked : OrdMap ChannelKey Untracked) :
    (steps.foldl (leaveOut syscalls untyped) untracked).contains (.shared id) = true ↔
      untracked.contains (.shared id) = true ∨
        ∃ step ∈ steps, step.id = id ∧ rejection syscalls untyped step ≠ none := by
  refine foldl_iff (P := (·.contains (.shared id) = true)) (fun m step => ?_) steps untracked
  rw [leaveOut]
  cases rejection syscalls untyped step with
  | none => simp
  | some why =>
    rw [contains_orInsert, ChannelKey.shared.injEq, or_comm]
    simp

theorem foldl_catchAll_eq_none : ∀ (accesses : List Access) (all : Option Why),
    accesses.foldl catchAll all = none ↔ all = none ∧
      ∀ access ∈ accesses, (∀ openFile op, access ≠ .channel openFile none .pipe op) ∧
        ∀ openFile id op, access ≠ .channel openFile id .fifo op := by
  intro accesses
  induction accesses with
  | nil => simp
  | cons access accesses ih =>
    intro all
    rw [foldl_cons, ih, forall_mem_cons, ← and_assoc]
    refine and_congr_left fun _ => ?_
    rcases access with ⟨openFile, op⟩ | ⟨openFile, _ | id, kind, op⟩ | _
    · simp [catchAll]
    · cases kind <;> cases all <;> simp [catchAll]
    · cases kind <;> cases all <;> simp [catchAll]
    · simp [catchAll]

theorem contains_arriveOne (created : OrdMap OpenFileId ChannelId) (pipes : OrdMap ChannelId Why)
    (openFile : OpenFileId) (id : ChannelId) :
    (arriveOne created pipes openFile).contains id = true ↔
      pipes.contains id = true ∨ created[openFile]? = some id := by
  rw [arriveOne]
  cases created[openFile]? with
  | none => simp
  | some other =>
    rw [Option.some.injEq]
    dsimp only
    split
    · rename_i hin
      refine ⟨.inl, ?_⟩
      rintro (h | rfl)
      · exact h
      · exact hin
    · rw [Std.ExtTreeMap.contains_insert, Bool.or_eq_true, beq_iff_eq, compare_eq_iff_eq, or_comm]

theorem contains_foldl_arrivals (created : OrdMap OpenFileId ChannelId) (id : ChannelId)
    (syscalls : List SyscallRecord) (pipes : OrdMap ChannelId Why) :
    (syscalls.foldl (arrivals created) pipes).contains id = true ↔
      pipes.contains id = true ∨ ∃ sys ∈ syscalls, sys.creates = false ∧
        ∃ openFile ∈ sys.opens, created[openFile]? = some id := by
  refine foldl_iff (P := (·.contains id = true)) (fun m sys => ?_) syscalls pipes
  rw [arrivals]
  cases sys.creates with
  | true => simp
  | false =>
    simp only [Bool.false_eq_true, if_false, true_and]
    exact foldl_iff (P := (·.contains id = true))
      (fun m openFile => contains_arriveOne created m openFile id) sys.opens m

theorem unfollowedPipes_all (syscalls : List SyscallRecord) :
    (unfollowedPipes syscalls).all = none ↔ ∀ sys ∈ syscalls, ∀ access ∈ sys.accesses,
        (∀ openFile op, access ≠ .channel openFile none .pipe op) ∧
          ∀ openFile id op, access ≠ .channel openFile id .fifo op := by
  rw [unfollowedPipes, foldl_catchAll_eq_none]
  simp only [mem_flatMap, true_and]
  exact ⟨fun h sys hsys access ha => h access ⟨sys, hsys, ha⟩,
    fun h access ⟨sys, hsys, ha⟩ => h sys hsys access ha⟩

theorem unfollowedPipes_pipes (syscalls : List SyscallRecord) (id : ChannelId) :
    (unfollowedPipes syscalls).pipes[id]? = none ↔
      ∀ sys ∈ syscalls, sys.creates = false → ∀ openFile ∈ sys.opens,
        (created syscalls)[openFile]? ≠ some id := by
  rw [← contains_eq_false, ← Bool.not_eq_true, unfollowedPipes, contains_foldl_arrivals]
  simp only [Std.ExtTreeMap.contains_empty, Bool.false_eq_true, false_or, not_exists, not_and]

/-- The loops reject a pipe exactly if it breaks a rule. -/
theorem leftOut_iff_not_admitted {syscalls : List SyscallRecord} {untyped : Option Why}
    {id : ChannelId} (hpipe : IsPipe syscalls id)
    (hsome : ∃ step ∈ channelSteps syscalls, step.id = id) :
    (leftOut syscalls untyped).contains (.shared id) = false ↔ Admitted syscalls untyped id := by
  have hreje : ∀ step ∈ channelSteps syscalls, step.id = id →
      (rejection syscalls untyped step = none ↔ createdInTrace syscalls id = true ∧
        untyped = none ∧ (unfollowedPipes syscalls).all = none ∧
        (unfollowedPipes syscalls).pipes[id]? = none ∧ id ∉ teed syscalls ∧
        vmspliced syscalls = false ∧ id ∉ packetPipes syscalls ∧ id ∉ largePipes syscalls) := by
    intro step hstep hid
    have hkind := hpipe step hstep hid
    subst hid
    rw [rejection]
    simp only [hkind, if_true, and_true]
    cases createdInTrace syscalls step.id <;> cases untyped <;>
      cases (unfollowedPipes syscalls).all <;>
      cases (unfollowedPipes syscalls).pipes[step.id]? <;> simp
    split_ifs <;> simp_all
  rw [← Bool.not_eq_true, leftOut, contains_foldl_leaveOut, not_or, Bool.not_eq_true]
  obtain ⟨step, hstep, hid⟩ := hsome
  constructor
  · rintro ⟨hlost, hnone⟩
    have hr : rejection syscalls untyped step = none := by
      by_contra h
      exact hnone ⟨step, hstep, hid, h⟩
    obtain ⟨h1, h2, h3, h4, h5, h6, h7, h8⟩ := (hreje step hstep hid).mp hr
    have h3 := (unfollowedPipes_all syscalls).mp h3
    exact ⟨h1, h2, fun sys hs a ha => (h3 sys hs a ha).1, fun sys hs a ha => (h3 sys hs a ha).2,
      (unfollowedPipes_pipes syscalls id).mp h4, h5, h6, h7, h8, hlost⟩
  · intro h
    refine ⟨h.notSocket, ?_⟩
    rintro ⟨step', hstep', hid', hr⟩
    exact hr ((hreje step' hstep' hid').mpr ⟨h.created, h.typed,
      (unfollowedPipes_all syscalls).mpr fun sys hs a ha =>
        ⟨h.paired sys hs a ha, h.noFifo sys hs a ha⟩,
      (unfollowedPipes_pipes syscalls id).mpr h.followed, h.notTeed, h.noVmsplice, h.notPacket,
      h.placed⟩)

/-! ## The steps -/

theorem moment_eq_some {sys : SyscallRecord} {op : ChannelOp} {write : Bool} {atEvent : ℕ}
    (h : moment sys op = some (write, atEvent)) :
    (write = true → atEvent = sys.pre) ∧ (write = false → sys.post = some atEvent) := by
  cases op with
  | write =>
    cases h
    exact ⟨fun _ => rfl, fun h => by cases h⟩
  | read =>
    obtain ⟨post, hpost, heq⟩ := Option.map_eq_some_iff.mp h
    cases heq
    exact ⟨fun h => (by cases h), fun _ => hpost⟩
  | shutdown => cases h
  | close => cases h

/-- A step moved a positive count, a write at its call's entry and a read at its
    return. -/
theorem mem_channelSteps {syscalls : List SyscallRecord} {step : Step}
    (h : step ∈ channelSteps syscalls) : step.sys ∈ syscalls ∧ 0 < step.count ∧
      (step.write = true → step.atEvent = step.sys.pre) ∧
      (step.write = false → step.sys.post = some step.atEvent) := by
  rw [channelSteps, mem_insertionSort, mem_filterMap] at h
  obtain ⟨moved, hmem, hstep⟩ := h
  obtain ⟨sys, hsys, hmoved⟩ := mem_flatMap.mp hmem
  cases moved with
  | lost => cases hstep
  | step moved =>
    cases hstep
    rw [movesOf] at hmoved
    cases hr : sys.result with
    | none => simp [hr] at hmoved
    | some r =>
      rw [hr] at hmoved
      dsimp only at hmoved
      split at hmoved
      · rename_i hpos
        obtain ⟨access, -, hacce⟩ := mem_filterMap.mp hmoved
        rcases access with _ | ⟨openFile, id, kind, op⟩ | _
        · cases hacce
        · rw [movedBy, Option.map_eq_some_iff] at hacce
          obtain ⟨⟨write, atEvent⟩, hmome, heq⟩ := hacce
          have hstep : step = ⟨atEvent, sys, openFile, step.id, kind, write, r.toNat⟩ := by
            rcases id with _ | id
            · cases heq
            · cases kind <;> cases heq <;> rfl
          rw [hstep]
          exact ⟨hsys, Int.pos_iff_toNat_pos.mp hpos, moment_eq_some hmome⟩
        · cases hacce
      · simp at hmoved

theorem channelSteps_sorted (syscalls : List SyscallRecord) :
    (channelSteps syscalls).Pairwise fun a b => a.atEvent ≤ b.atEvent := by
  exact pairwise_insertionSort_key _

/-! ## Bytes -/

theorem bytes_append (p : Step → Bool) (xs ys : List Step) :
    bytes p (xs ++ ys) = bytes p xs + bytes p ys := by
  simp [bytes]

theorem bytes_singleton (p : Step → Bool) (x : Step) :
    bytes p [x] = if p x then x.count else 0 := by
  by_cases h : p x <;> simp [bytes, h]

theorem covered_snoc {id : ChannelId} {seen : List Step} {step : Step} :
    Covered id (seen ++ [step]) ↔ Covered id seen ∧ (readsFrom id step = true →
        bytes (readsFrom id) seen + step.count ≤ bytes (writesTo id) seen) := by
  constructor
  · intro h
    exact ⟨fun before r hpre => h before r (hpre.trans (prefix_append _ _)),
      h seen step (prefix_refl _)⟩
  · rintro ⟨h, hstep⟩ before r hpre
    rcases prefix_concat_iff.mp hpre with heq | hpre
    · obtain ⟨rfl, hr⟩ := append_inj' heq rfl
      cases hr
      exact hstep
    · exact h before r hpre

/-! ## The replay of one pipe -/

def pipeKey (id : ChannelId) : StreamKey := toLex (id, ⊥)

structure Follows (id : ChannelId) (s : Replay) (seen : List Step) : Prop where
  tracked : s.untracked.contains (.shared id) = false
  only : ∀ (key : StreamKey) (stream : Stream), s.streams[key]? = some stream →
    (ofLex key).1 = id → key = pipeKey id
  missing : s.streams[pipeKey id]? = none → bytes (writesTo id) seen = 0
  written : (s.streams[pipeKey id]?.getD {}).written = bytes (writesTo id) seen
  read : (s.streams[pipeKey id]?.getD {}).read = bytes (readsFrom id) seen
  pending : (s.streams[pipeKey id]?.getD {}).pending =
    (unread (·.count) (bytes (readsFrom id) seen) 0 (seen.filter (writesTo id))).map
      fun p => (p.1, p.2.here)

structure SamePipe (id : ChannelId) (s s' : Replay) : Prop where
  streams : ∀ key : StreamKey, (ofLex key).1 = id → s'.streams[key]? = s.streams[key]?
  untracked : s'.untracked.contains (.shared id) = s.untracked.contains (.shared id)

theorem Follows.congr {id : ChannelId} {s s' : Replay} {seen seen' : List Step}
    (h : Follows id s seen) (hsame : SamePipe id s s')
    (hwri : seen'.filter (writesTo id) = seen.filter (writesTo id))
    (hreads : seen'.filter (readsFrom id) = seen.filter (readsFrom id)) : Follows id s' seen' := by
  have hkey := hsame.streams (pipeKey id) rfl
  have hw : bytes (writesTo id) seen' = bytes (writesTo id) seen := by rw [bytes, hwri, bytes]
  have hr : bytes (readsFrom id) seen' = bytes (readsFrom id) seen := by rw [bytes, hreads, bytes]
  refine ⟨hsame.untracked.trans h.tracked, fun key stream hs hid => ?_, ?_, ?_, ?_, ?_⟩
  · exact h.only key stream (by rwa [← hsame.streams key hid]) hid
  · rw [hkey, hw]
    exact h.missing
  · rw [hkey, hw]
    exact h.written
  · rw [hkey, hr]
    exact h.read
  · rw [hkey, hr, hwri]
    exact h.pending

theorem streamOf_id {streams : OrdMap StreamKey Stream} {step : Step} {key : StreamKey}
    {stream : Stream} (h : streamOf streams step = some (key, stream)) :
    streams[key]? = some stream ∧ (ofLex key).1 = step.id := by
  have hmem := mem_of_find?_eq_some h
  have hp := find?_some h
  simp only [Bool.and_eq_true, decide_eq_true_eq] at hp
  exact ⟨(mem_toList _ _ _).mp hmem, hp.1⟩

theorem lose_samePipe {id : ChannelId} {s : Replay} {step : Step} (h : step.id ≠ id) :
    SamePipe id s (s.lose step) := by
  refine ⟨fun _ _ => rfl, ?_⟩
  rw [Replay.lose, Std.ExtTreeMap.contains_insert]
  simp [h]

theorem step_samePipe {id : ChannelId} (s : Replay) {step : Step} (h : step.id ≠ id) :
    SamePipe id s (s.step step).1 := by
  have hrefl : SamePipe id s s := ⟨fun _ _ => rfl, rfl⟩
  rw [Replay.step]
  split
  · exact hrefl
  · split
    · refine ⟨fun key hkey => getElem?_insert_ne _ ?_ _, rfl⟩
      rintro rfl
      exact h hkey
    · rw [Replay.readStep]
      split
      · exact hrefl
      · split
        · exact lose_samePipe h
        · rename_i key stream hfnd
          split
          · refine ⟨fun key' hkey' => getElem?_insert_ne _ ?_ _, rfl⟩
            rintro rfl
            exact h ((streamOf_id hfnd).2.symm.trans hkey')
          · exact lose_samePipe h

theorem step_lost {id : ChannelId} {s : Replay} (hs : s.untracked.contains (.shared id) = true)
    (step : Step) : (s.step step).1.untracked.contains (.shared id) = true ∧
      (step.id = id → (s.step step).2 = []) := by
  by_cases hid : step.id = id
  · rw [Replay.step, hid, if_pos hs]
    exact ⟨hs, fun _ => rfl⟩
  · exact ⟨(step_samePipe s hid).untracked.trans hs, fun h => absurd h hid⟩

section Pipe

variable {id : ChannelId} {s : Replay} {seen : List Step} {step : Step}

theorem Covered.read_le {id : ChannelId} {seen : List Step} (h : Covered id seen) :
    bytes (readsFrom id) seen ≤ bytes (writesTo id) seen := by
  induction seen using reverseRecOn with
  | nil => simp [bytes]
  | append_singleton seen step ih =>
    obtain ⟨hseen, hstep⟩ := covered_snoc.mp h
    have := ih hseen
    rw [bytes_append, bytes_append, bytes_singleton, bytes_singleton]
    by_cases hr : readsFrom id step
    · rw [if_pos hr]
      have := hstep hr
      omega
    · rw [if_neg hr]
      omega

theorem streamOf_pipe (h : Follows id s seen) (hid : step.id = id) (hkind : step.kind = .pipe) :
    streamOf s.streams step = s.streams[pipeKey id]?.map (pipeKey id, ·) := by
  have htwo : step.kind.twoWay = false := by rw [hkind]; rfl
  cases hfnd : streamOf s.streams step with
  | some found =>
    obtain ⟨hget, hkey⟩ := streamOf_id hfnd
    have heq := h.only found.1 found.2 hget (hkey.trans hid)
    rw [← heq, hget]
    rfl
  | none =>
    cases hget : s.streams[pipeKey id]? with
    | none => rfl
    | some stream =>
      have := find?_eq_none.mp hfnd _ ((mem_toList _ _ _).mpr hget)
      simp [htwo, hid, pipeKey] at this

theorem writesTo_of_write (hid : step.id = id) (hwrite : step.write = true) :
    writesTo id step = true ∧ readsFrom id step = false := by
  simp [writesTo, readsFrom, hid, hwrite]

theorem readsFrom_of_read (hid : step.id = id) (hread : step.write = false) :
    writesTo id step = false ∧ readsFrom id step = true := by
  simp [writesTo, readsFrom, hid, hread]

theorem size_pipe (hkind : step.kind = .pipe) : step.size = step.count := by
  rw [Step.size, hkind]
  rfl

theorem Follows.write (h : Follows id s seen) (hid : step.id = id) (hkind : step.kind = .pipe)
    (hwrite : step.write = true) (hpos : 0 < step.count) (hcove : Covered id seen)
    (hbyt : bytes (writesTo id) seen + step.count ≤ u64Max) :
    Follows id (s.writeStep step) (seen ++ [step]) := by
  obtain ⟨hw, hr⟩ := writesTo_of_write hid hwrite
  have hkey : (toLex (step.id, step.writer) : StreamKey) = pipeKey id := by
    rw [Step.writer, hkind, hid]
    rfl
  have hget : (s.writeStep step).streams[pipeKey id]? =
      some ((s.streams[pipeKey id]?.getD {}).push step) := by
    rw [Replay.writeStep]
    rw [hkey, getElem?_insert_same]
  have hwrit : satAdd u64Max (s.streams[pipeKey id]?.getD {}).written step.size =
      bytes (writesTo id) seen + step.count := by
    rw [h.written, size_pipe hkind, satAdd]
    omega
  have hbytesw : bytes (writesTo id) (seen ++ [step]) = bytes (writesTo id) seen + step.count := by
    rw [bytes_append, bytes_singleton, if_pos hw]
  have hbyte : bytes (readsFrom id) (seen ++ [step]) = bytes (readsFrom id) seen := by
    rw [bytes_append, bytes_singleton, hr]
    rfl
  refine ⟨h.tracked, fun key stream hs hk => ?_, fun hn => ?_, ?_, ?_, ?_⟩
  · rw [Replay.writeStep] at hs
    rw [hkey, getElem?_insert_ite] at hs
    split at hs
    · rename_i heq
      exact heq.symm
    · exact h.only key stream hs hk
  · rw [hget] at hn
    cases hn
  · rw [hget, hbytesw]
    exact hwrit
  · rw [hget, hbyte]
    exact h.read
  · rw [hget, hbyte, filter_append, unread_append, map_append]
    have hle := hcove.read_le
    have hlast : unread (·.count) (bytes (readsFrom id) seen) (bytes (writesTo id) seen) [step] =
        [(bytes (writesTo id) seen + step.count, step)] := by
      rw [unread_cons, if_pos (by omega)]
      rfl
    show _ ++ [_] = _
    rw [hwrit, h.pending, filter_singleton, hw, Nat.zero_add]
    simp only [Bool.cond_true]
    rw [show ((seen.filter (writesTo id)).map (·.count)).sum = bytes (writesTo id) seen from rfl,
      hlast]
    rfl

theorem lastFed_pipe (hkind : step.kind = .pipe) (found : Option (StreamKey × Stream)) :
    lastFed step found = none := by
  rw [lastFed, hkind]
  rfl

theorem upto_pipe (hkind : step.kind = .pipe) (stream : Stream) :
    stream.upto step = satAdd u64Max stream.read step.count := by
  rw [Stream.upto, size_pipe hkind, hkind]
  rfl

theorem Follows.readStep (h : Follows id s seen) (hid : step.id = id) (hkind : step.kind = .pipe)
    (hread : step.write = false) (hpos : 0 < step.count) (hseen : ∀ x ∈ seen, 0 < x.count)
    (hle : bytes (readsFrom id) seen + step.count ≤ bytes (writesTo id) seen)
    (hbyt : bytes (writesTo id) seen < u64Max) :
    (s.readStep step).2 = (overlapping (·.count) (bytes (readsFrom id) seen)
        (bytes (readsFrom id) seen + step.count) 0 (seen.filter (writesTo id))).map
          (fun w => step.edgeFrom w.here) ∧
      Follows id (s.readStep step).1 (seen ++ [step]) := by
  obtain ⟨hw, hr⟩ := readsFrom_of_read hid hread
  cases hget : s.streams[pipeKey id]? with
  | none =>
    have := h.missing hget
    omega
  | some stream =>
    have hstre : s.streams[pipeKey id]?.getD {} = stream := by rw [hget]; rfl
    have hwrit : stream.written = bytes (writesTo id) seen := by rw [← hstre]; exact h.written
    have hrea : stream.read = bytes (readsFrom id) seen := by rw [← hstre]; exact h.read
    have hpend := h.pending
    rw [hstre] at hpend
    have hupto : stream.upto step = bytes (readsFrom id) seen + step.count := by
      rw [upto_pipe hkind, hrea, satAdd]
      omega
    have hcons : consume (stream.upto step) stream.pending =
        ((overlapping (·.count) (bytes (readsFrom id) seen) (bytes (readsFrom id) seen + step.count)
            0 (seen.filter (writesTo id))).map Step.here,
          (unread (·.count) (bytes (readsFrom id) seen + step.count) 0
            (seen.filter (writesTo id))).map fun p => (p.1, p.2.here)) := by
      rw [hupto, hpend, consume_map, consume_unread (by omega)
        (fun x hx => hseen x (mem_of_mem_filter hx)) (by omega)
        (by rw [Nat.zero_add]; exact hle)]
    rw [Replay.readStep, streamOf_pipe h hid hkind, hget, lastFed_pipe hkind]
    dsimp only [Option.map_some]
    rw [if_pos (by rw [hupto, hrea, hwrit]; omega), hcons]
    have hbytesw : bytes (writesTo id) (seen ++ [step]) = bytes (writesTo id) seen := by
      rw [bytes_append, bytes_singleton, hw]
      rfl
    have hbyte : bytes (readsFrom id) (seen ++ [step]) = bytes (readsFrom id) seen + step.count := by
      rw [bytes_append, bytes_singleton, if_pos hr]
    have hflt : (seen ++ [step]).filter (writesTo id) = seen.filter (writesTo id) := by
      rw [filter_append, filter_singleton, hw]
      exact append_nil _
    refine ⟨map_map, h.tracked, fun key stream' hs hk => ?_, fun hn => ?_, ?_, ?_, ?_⟩
    · rw [getElem?_insert_ite] at hs
      split at hs
      · rename_i heq
        exact heq.symm
      · exact h.only key stream' hs hk
    · rw [getElem?_insert_same] at hn
      cases hn
    · rw [getElem?_insert_same, hbytesw]
      exact hwrit
    · rw [getElem?_insert_same, hbyte]
      exact hupto
    · rw [getElem?_insert_same, hbyte, hflt]
      rfl

theorem contains_lose (s : Replay) (hid : step.id = id) :
    (s.lose step).untracked.contains (.shared id) = true := by
  rw [Replay.lose, Std.ExtTreeMap.contains_insert, hid]
  simp

theorem Follows.readStep_lost (h : Follows id s seen) (hid : step.id = id)
    (hkind : step.kind = .pipe)
    (hlt : bytes (writesTo id) seen < bytes (readsFrom id) seen + step.count)
    (hbyt : bytes (writesTo id) seen < u64Max) :
    (s.readStep step).2 = [] ∧ (s.readStep step).1.untracked.contains (.shared id) = true := by
  rw [Replay.readStep, streamOf_pipe h hid hkind, lastFed_pipe hkind]
  have hwrit := h.written
  have hread := h.read
  cases hget : s.streams[pipeKey id]? with
  | none => exact ⟨rfl, contains_lose s hid⟩
  | some stream =>
    rw [hget] at hwrit hread
    dsimp only [Option.map_some, Option.getD_some] at hwrit hread ⊢
    rw [if_neg]
    · exact ⟨rfl, contains_lose s hid⟩
    · rw [upto_pipe hkind, hread, hwrit, satAdd]
      omega

end Pipe

/-! ## The replay of a trace -/

def Replay.after (s : Replay) (steps : List Step) : Replay :=
  steps.foldl (fun s step => (s.step step).1) s

theorem Replay.after_snoc (s : Replay) (steps : List Step) (step : Step) :
    s.after (steps ++ [step]) = ((s.after steps).step step).1 := by
  simp [Replay.after]

theorem getElem?_replayChannels (step : Step) (later : List Step) :
    ∀ (seen : List Step) (s : Replay), (replayChannels s (seen ++ step :: later))[seen.length]? =
        some ((s.after seen).step step).2 := by
  intro seen
  induction seen with
  | nil => exact fun s => rfl
  | cons x seen ih =>
    intro s
    rw [cons_append, replayChannels, length_cons, getElem?_cons_succ, ih]
    rfl

def replayAfter (syscalls : List SyscallRecord) (untyped : Option Why) (seen : List Step) : Replay :=
  Replay.after ⟨∅, leftOut syscalls untyped⟩ seen

/-- What the replay knows of a pipe after a prefix of the steps: it follows the
    pipe as long as the pipe is admitted and its reads are covered, and has lost
    it otherwise. -/
theorem pipe_after {syscalls : List SyscallRecord} (untyped : Option Why) {id : ChannelId}
    (hpipe : IsPipe syscalls id) (hsome : ∃ step ∈ channelSteps syscalls, step.id = id)
    (hbyt : bytes (writesTo id) (channelSteps syscalls) < u64Max) {seen : List Step}
    (hseen : seen <+: channelSteps syscalls) :
    (Admitted syscalls untyped id ∧ Covered id seen ∧
        Follows id (replayAfter syscalls untyped seen) seen) ∨
      (¬ (Admitted syscalls untyped id ∧ Covered id seen) ∧
        (replayAfter syscalls untyped seen).untracked.contains (.shared id) = true) := by
  induction seen using reverseRecOn with
  | nil =>
    have hiff : (leftOut syscalls untyped).contains (.shared id) = false ↔
        Admitted syscalls untyped id := leftOut_iff_not_admitted hpipe hsome
    cases hleft : (leftOut syscalls untyped).contains (.shared id) with
    | false =>
      refine .inl ⟨hiff.mp hleft, ?_, hleft, ?_, ?_, ?_, ?_, ?_⟩
      · intro before step hpre
        exact absurd (prefix_nil.mp hpre) (by simp)
      · intro key stream h
        simp [replayAfter, Replay.after] at h
      all_goals simp [replayAfter, Replay.after, bytes, unread, laid]
    | true =>
      refine .inr ⟨fun h => ?_, hleft⟩
      rw [hiff.mpr h.1] at hleft
      cases hleft
  | append_singleton seen step ih =>
    have hpref : seen <+: channelSteps syscalls := (prefix_append _ _).trans hseen
    have hmem : ∀ x ∈ seen ++ [step], x ∈ channelSteps syscalls := fun x hx => hseen.subset hx
    have hstep := hmem step (by simp)
    have hpos := (mem_channelSteps hstep).2.1
    have htot : bytes (writesTo id) (seen ++ [step]) < u64Max := by
      obtain ⟨rest, hrest⟩ := hseen
      rw [← hrest, bytes_append] at hbyt
      omega
    have haft : replayAfter syscalls untyped (seen ++ [step]) =
        ((replayAfter syscalls untyped seen).step step).1 := Replay.after_snoc _ _ _
    rw [haft, covered_snoc]
    rcases ih hpref with ⟨hadm, hcov, hfol⟩ | ⟨hnot, hlost⟩
    · rw [bytes_append, bytes_singleton] at htot
      by_cases hid : step.id = id
      · have hkind := hpipe step hstep hid
        rw [Replay.step, hid, hfol.tracked, if_neg (by simp)]
        cases hwrite : step.write with
        | true =>
          obtain ⟨hw, hr⟩ := writesTo_of_write hid hwrite
          rw [if_pos hw] at htot
          refine .inl ⟨hadm, ⟨hcov, fun h => ?_⟩, ?_⟩
          · rw [hr] at h
            cases h
          · exact hfol.write hid hkind hwrite hpos hcov htot.le
        | false =>
          obtain ⟨hw, hr⟩ := readsFrom_of_read hid hwrite
          rw [hw] at htot
          by_cases hle : bytes (readsFrom id) seen + step.count ≤ bytes (writesTo id) seen
          · refine .inl ⟨hadm, ⟨hcov, fun _ => hle⟩, ?_⟩
            exact (hfol.readStep hid hkind hwrite hpos
              (fun x hx => (mem_channelSteps (hmem x (by simp [hx]))).2.1) hle (by simpa using htot)).2
          · refine .inr ⟨fun h => hle (h.2.2 hr), ?_⟩
            exact (hfol.readStep_lost hid hkind (not_le.mp hle) (by simpa using htot)).2
      · have hw : writesTo id step = false := by simp [writesTo, hid]
        have hr : readsFrom id step = false := by simp [readsFrom, hid]
        refine .inl ⟨hadm, ⟨hcov, fun h => ?_⟩, ?_⟩
        · rw [hr] at h
          cases h
        · refine hfol.congr (step_samePipe _ hid) ?_ ?_
          · rw [filter_append, filter_singleton, hw]
            exact append_nil _
          · rw [filter_append, filter_singleton, hr]
            exact append_nil _
    · exact .inr ⟨fun h => hnot ⟨h.1, h.2.1⟩, (step_lost hlost step).1⟩

theorem pipe_edges {syscalls : List SyscallRecord} {untyped : Option Why} {id : ChannelId}
    (hpipe : IsPipe syscalls id) (hbyt : bytes (writesTo id) (channelSteps syscalls) < u64Max)
    {seen later : List Step} {step : Step} (hsteps : channelSteps syscalls = seen ++ step :: later)
    (hid : step.id = id) (e : HbEdge) :
    e ∈ ((replayAfter syscalls untyped seen).step step).2 ↔
      step.write = false ∧ Admitted syscalls untyped id ∧ Covered id (seen ++ [step]) ∧
        ∃ w start, (w, start) ∈ laid (·.count) 0 ((channelSteps syscalls).filter (writesTo id)) ∧
          start < bytes (readsFrom id) seen + step.count ∧
          bytes (readsFrom id) seen < start + w.count ∧
          e = ⟨w.here, step.here, .channelBytes⟩ := by
  have hmem : ∀ x ∈ seen ++ [step], x ∈ channelSteps syscalls := by
    intro x hx
    rw [hsteps]
    simp only [mem_append, mem_cons, not_mem_nil, or_false] at hx ⊢
    tauto
  have hstep := hmem step (by simp)
  have hkind := hpipe step hstep hid
  have hpos := (mem_channelSteps hstep).2.1
  have hbef : bytes (writesTo id) seen < u64Max := by
    rw [hsteps, bytes_append] at hbyt
    omega
  rw [covered_snoc]
  have hpref : seen <+: channelSteps syscalls := by
    rw [hsteps]
    exact prefix_append _ _
  rcases pipe_after untyped hpipe ⟨step, hstep, hid⟩ hbyt hpref with
    ⟨hadm, hcov, hfol⟩ | ⟨hnot, hlost⟩
  · rw [Replay.step, hid, hfol.tracked, if_neg (by simp)]
    cases hwrite : step.write with
    | true => simp
    | false =>
      obtain ⟨hw, hr⟩ := readsFrom_of_read hid hwrite
      rw [if_neg (by simp)]
      by_cases hle : bytes (readsFrom id) seen + step.count ≤ bytes (writesTo id) seen
      · rw [(hfol.readStep hid hkind hwrite hpos
          (fun x hx => (mem_channelSteps (hmem x (by simp [hx]))).2.1) hle hbef).1]
        -- Writes from the read on start where what was written before it ends.
        have hrest : overlapping (·.count) (bytes (readsFrom id) seen)
            (bytes (readsFrom id) seen + step.count) 0 (seen.filter (writesTo id)) =
            overlapping (·.count) (bytes (readsFrom id) seen)
              (bytes (readsFrom id) seen + step.count) 0
              ((channelSteps syscalls).filter (writesTo id)) := by
          have hnil : overlapping (·.count) (bytes (readsFrom id) seen)
              (bytes (readsFrom id) seen + step.count)
              ((seen.filter (writesTo id)).map (·.count)).sum
              ((step :: later).filter (writesTo id)) = [] := overlapping_eq_nil hle _
          rw [hsteps, filter_append, overlapping_append, Nat.zero_add, hnil, append_nil]
        have hedge : ∀ w : Step, step.edgeFrom w.here = ⟨w.here, step.here, .channelBytes⟩ := by
          intro w
          rw [Step.edgeFrom, hkind]
          rfl
        rw [hrest]
        simp only [overlapping, map_map, mem_map, mem_filter, decide_eq_true_eq,
          Function.comp_apply, hedge, Prod.exists, true_and]
        constructor
        · rintro ⟨w, start, ⟨hlaid, hsta, hend⟩, rfl⟩
          exact ⟨hadm, ⟨hcov, fun _ => hle⟩, w, start, hlaid, hsta, hend, rfl⟩
        · rintro ⟨-, -, w, start, hlaid, hsta, hend, rfl⟩
          exact ⟨w, start, ⟨hlaid, hsta, hend⟩, rfl⟩
      · rw [(hfol.readStep_lost hid hkind (not_le.mp hle) hbef).1]
        exact ⟨fun h => (by cases h), fun h => absurd (h.2.2.1.2 hr) hle⟩
  · rw [(step_lost hlost step).2 hid]
    exact ⟨fun h => (by cases h), fun h => absurd ⟨h.2.1, h.2.2.1.1⟩ hnot⟩

/-! ## Edges run forward -/

def WrittenAt (seen : List Step) (ref : EventRef) : Prop :=
  ∃ w ∈ seen, w.write = true ∧ ref = w.here

/-- Every stream holds writes that were seen. -/
def Fed (s : Replay) (seen : List Step) : Prop :=
  ∀ (key : StreamKey) (stream : Stream), s.streams[key]? = some stream →
    (∀ p ∈ stream.pending, WrittenAt seen p.2) ∧
      ∀ ref, stream.lastWrite = some ref → WrittenAt seen ref

theorem WrittenAt.snoc {seen : List Step} {ref : EventRef} (h : WrittenAt seen ref) (step : Step) :
    WrittenAt (seen ++ [step]) ref := by
  obtain ⟨w, hw, hwrite, rfl⟩ := h
  exact ⟨w, mem_append_left _ hw, hwrite, rfl⟩

theorem Fed.snoc {s s' : Replay} {seen : List Step} (h : Fed s seen)
    (hs : s'.streams = s.streams) (step : Step) : Fed s' (seen ++ [step]) := by
  intro key stream hstre
  rw [hs] at hstre
  obtain ⟨hp, hl⟩ := h key stream hstre
  exact ⟨fun p hp' => (hp p hp').snoc step, fun ref hr => (hl ref hr).snoc step⟩

theorem Fed.insert {s s' : Replay} {seen : List Step} (h : Fed s seen) {step : Step}
    {key : StreamKey} {stream : Stream} (hs : s'.streams = s.streams.insert key stream)
    (hpend : ∀ p ∈ stream.pending, WrittenAt (seen ++ [step]) p.2)
    (hlast : ∀ ref, stream.lastWrite = some ref → WrittenAt (seen ++ [step]) ref) :
    Fed s' (seen ++ [step]) := by
  intro key' stream' hstre
  rw [hs, getElem?_insert_ite] at hstre
  split at hstre
  · cases hstre
    exact ⟨hpend, hlast⟩
  · exact (h.snoc rfl step : Fed s (seen ++ [step])) key' stream' hstre

theorem Fed.step {s : Replay} {seen : List Step} (h : Fed s seen) (step : Step) :
    Fed (s.step step).1 (seen ++ [step]) ∧
      ∀ e ∈ (s.step step).2, step.write = false ∧ e.target = step.here ∧
        WrittenAt seen e.source := by
  rw [Replay.step]
  split
  · exact ⟨h.snoc rfl step, by simp⟩
  · split
    · rename_i hwrite
      refine ⟨h.insert rfl ?_ ?_, by simp⟩
      · intro p hp
        rcases mem_append.mp hp with hp | hp
        · cases hget : s.streams[(toLex (step.id, step.writer) : StreamKey)]? with
          | none => simp [hget] at hp
          | some stream =>
            rw [hget] at hp
            exact ((h _ stream hget).1 p hp).snoc step
        · rw [mem_singleton.mp hp]
          exact ⟨step, by simp, hwrite, rfl⟩
      · rintro ref ⟨⟩
        exact ⟨step, by simp, hwrite, rfl⟩
    · rename_i hwrite
      have hread : step.write = false := by simpa using hwrite
      rw [Replay.readStep]
      split
      · rename_i source hfed
        refine ⟨h.snoc rfl step, fun e he => ?_⟩
        rw [mem_singleton.mp he]
        refine ⟨hread, rfl, ?_⟩
        rw [lastFed] at hfed
        split at hfed
        · obtain ⟨found, hfnd, hlast⟩ := Option.bind_eq_some_iff.mp hfed
          have hget := (streamOf_id (Option.filter_eq_some_iff.mp hfnd).1).1
          exact (h _ _ hget).2 source hlast
        · cases hfed
      · split
        · exact ⟨h.snoc rfl step, by simp⟩
        · rename_i key stream hfnd
          obtain ⟨hp, hl⟩ := h key stream (streamOf_id hfnd).1
          split
          · obtain ⟨htak, hrest⟩ := mem_of_mem_consume (stream.upto step) stream.pending
            refine ⟨h.insert rfl (fun p hp' => (hp p (hrest p hp')).snoc step)
              (fun ref hr => (hl ref hr).snoc step), fun e he => ?_⟩
            obtain ⟨source, hsrc, rfl⟩ := mem_map.mp he
            obtain ⟨stop, hmem⟩ := htak source hsrc
            exact ⟨hread, rfl, hp _ hmem⟩
          · exact ⟨h.snoc rfl step, by simp⟩

theorem mem_flatten_replayChannels {e : HbEdge} : ∀ {steps : List Step} {s : Replay},
    e ∈ (replayChannels s steps).flatten →
      ∃ seen step later, steps = seen ++ step :: later ∧ e ∈ ((s.after seen).step step).2 := by
  intro steps
  induction steps with
  | nil => simp [replayChannels]
  | cons step steps ih =>
    intro s h
    rw [replayChannels, flatten_cons, mem_append] at h
    rcases h with h | h
    · exact ⟨[], step, steps, rfl, h⟩
    · obtain ⟨seen, step', later, rfl, hmem⟩ := ih h
      exact ⟨step :: seen, step', later, rfl, hmem⟩

theorem fed_after (s : Replay) (hs : s.streams = ∅) (seen : List Step) : Fed (s.after seen) seen := by
  induction seen using reverseRecOn with
  | nil =>
    intro key stream h
    simp [Replay.after, hs] at h
  | append_singleton seen step ih =>
    rw [Replay.after_snoc]
    exact (ih.step step).1

/-- Neither call returns where the other enters. -/
def Apart (x y : SyscallRecord) : Prop := x.post ≠ some y.pre ∧ y.post ≠ some x.pre

/-- The entry of one call is never the return of another, or of the same. -/
theorem DistinctEvents.post_ne {syscalls : List SyscallRecord} (h : DistinctEvents syscalls)
    {sys sys' : SyscallRecord} (hsys : sys ∈ syscalls) (hsys' : sys' ∈ syscalls) :
    sys.post ≠ some sys'.pre := by
  obtain ⟨hinner, hpairs⟩ := nodup_flatMap.mp h
  have : Std.Symm Apart := ⟨fun _ _ h => h.symm⟩
  have hself : ∀ x ∈ syscalls, Apart x x := by
    intro x hx
    have hne : x.post ≠ some x.pre := by
      intro hp
      exact (nodup_cons.mp (hinner x hx)).1 (by simp [hp])
    exact ⟨hne, hne⟩
  have hapart : syscalls.Pairwise Apart := by
    refine hpairs.imp fun {x y} hdisj => ⟨fun hp => ?_, fun hp => ?_⟩
    · have hx : y.pre ∈ x.pre :: x.post.toList := by simp [hp]
      exact hdisj hx (by simp)
    · have hy : x.pre ∈ y.pre :: y.post.toList := by simp [hp]
      exact hdisj (by simp) hy
  exact (hapart.forall_of_forall hself hsys hsys').1

theorem dataEdges_forward {syscalls : List SyscallRecord} {untyped : Option Why}
    (hdistinct : DistinctEvents syscalls) {e : HbEdge} (he : e ∈ dataEdges syscalls untyped) :
    e.Forward := by
  obtain ⟨seen, step, later, hsteps, he⟩ := mem_flatten_replayChannels he
  obtain ⟨hread, htgt, w, hw, hwrite, hsrc⟩ :=
    ((fed_after _ rfl seen).step step).2 e he
  have hsort := channelSteps_sorted syscalls
  rw [hsteps] at hsort
  have hle : w.atEvent ≤ step.atEvent := (pairwise_append.mp hsort).2.2 w hw step (by simp)
  have hwmem : w ∈ channelSteps syscalls := by
    rw [hsteps]
    simp [hw]
  have hrmem : step ∈ channelSteps syscalls := by
    rw [hsteps]
    simp
  obtain ⟨hwsys, -, hpre, -⟩ := mem_channelSteps hwmem
  obtain ⟨hrsys, -, -, hpost⟩ := mem_channelSteps hrmem
  have hne : w.atEvent ≠ step.atEvent := by
    intro heq
    exact hdistinct.post_ne hrsys hwsys (by rw [hpost hread, ← heq, hpre hwrite])
  show e.source.event < e.target.event
  rw [hsrc, htgt]
  exact lt_of_le_of_ne hle hne

/-! ## The edges of a trace -/

/-- For a trace with distinct event numbers: at each step of a pipe through
    which fewer than `u64::MAX` bytes were written, the edges given are those
    from the writes whose bytes overlap what the step read, if the pipe is
    admitted and no read so far returned more than had been written before it;
    and every edge runs forward. -/
theorem dataEdges_of_pipe (syscalls : List SyscallRecord) (untyped : Option Why)
    (hdistinct : DistinctEvents syscalls) :
    (∀ id, IsPipe syscalls id → bytes (writesTo id) (channelSteps syscalls) < u64Max →
      ∀ seen step later, channelSteps syscalls = seen ++ step :: later → step.id = id →
        ∃ edges, (edgesByStep syscalls untyped)[seen.length]? = some edges ∧ ∀ e, e ∈ edges ↔
            step.write = false ∧ Admitted syscalls untyped id ∧ Covered id (seen ++ [step]) ∧
              ∃ w start,
                (w, start) ∈ laid (·.count) 0 ((channelSteps syscalls).filter (writesTo id)) ∧
                start < bytes (readsFrom id) seen + step.count ∧
                bytes (readsFrom id) seen < start + w.count ∧
                e = ⟨w.here, step.here, .channelBytes⟩) ∧
      ∀ e ∈ dataEdges syscalls untyped, e.Forward := by
  refine ⟨fun id hpipe hbyt seen step later hsteps hid => ?_,
    fun e he => dataEdges_forward hdistinct he⟩
  refine ⟨_, ?_, pipe_edges hpipe hbyt hsteps hid⟩
  rw [edgesByStep, hsteps]
  exact getElem?_replayChannels step later seen _

/-! ## Two traces -/

def pipeCreated : SyscallRecord where
  pre := 0
  post := some 1
  tid := 3
  sysno := .pipe2
  args := 0
  result := some 0
  accesses := [.fd (some ⟨3, 1⟩) .open, .fd (some ⟨3, 2⟩) .open]

def thePipe : ChannelId := .pair ⟨3, 1⟩

def writeAt (pre : ℕ) (count : ℤ) : SyscallRecord where
  pre := pre
  post := some (pre + 1)
  tid := 3
  sysno := .write
  args := 1
  result := some count
  accesses := [.fd (some ⟨3, 2⟩) .use, .channel ⟨3, 2⟩ (some thePipe) .pipe .write]

def readAt (post : ℕ) (count : ℤ) : SyscallRecord where
  pre := post - 1
  post := some post
  tid := 5
  sysno := .other 0
  args := 1
  result := some count
  accesses := [.fd (some ⟨3, 1⟩) .use, .channel ⟨3, 1⟩ (some thePipe) .pipe .read]

def twoWrites : List SyscallRecord := [pipeCreated, writeAt 2 5, writeAt 4 3, readAt 7 6]

theorem dataEdges_of_pipe_twoWrites : DistinctEvents twoWrites ∧ Admitted twoWrites none thePipe ∧
      dataEdges twoWrites none =
        [⟨⟨3, 2⟩, ⟨5, 7⟩, .channelBytes⟩, ⟨⟨3, 4⟩, ⟨5, 7⟩, .channelBytes⟩] ∧
      ∀ e ∈ dataEdges twoWrites none, e.Forward := by
  have hdistinct : DistinctEvents twoWrites := by
    unfold DistinctEvents
    decide +kernel
  obtain ⟨hpipe, hfwd⟩ := dataEdges_of_pipe twoWrites none hdistinct
  refine ⟨hdistinct, ?_, by decide +kernel, hfwd⟩
  obtain ⟨edges, hget, hedges⟩ := hpipe thePipe (by unfold IsPipe; decide +kernel)
    (by decide +kernel) ((channelSteps twoWrites).take 2)
    ⟨7, readAt 7 6, ⟨3, 1⟩, thePipe, .pipe, false, 6⟩ [] (by decide +kernel) rfl
  have hsome : (edgesByStep twoWrites none)[2]? =
      some [⟨⟨3, 2⟩, ⟨5, 7⟩, .channelBytes⟩, ⟨⟨3, 4⟩, ⟨5, 7⟩, .channelBytes⟩] := by decide +kernel
  rw [show ((channelSteps twoWrites).take 2).length = 2 by decide +kernel, hsome] at hget
  cases hget
  exact ((hedges ⟨⟨3, 2⟩, ⟨5, 7⟩, .channelBytes⟩).mp (by simp)).2.1

theorem covered_of_take {id : ChannelId} {steps : List Step}
    (h : ∀ i < steps.length, (steps[i]?.all fun step => !readsFrom id step ||
      decide (bytes (readsFrom id) (steps.take i) + step.count ≤
        bytes (writesTo id) (steps.take i))) = true) : Covered id steps := by
  rintro seen step ⟨rest, rfl⟩ hr
  have hget : (seen ++ [step] ++ rest)[seen.length]? = some step := by simp
  have hstep := h seen.length (by simp)
  rw [hget, Option.all_some, hr] at hstep
  simpa using hstep

/-- Three writes that returned 2^63 - 1 bytes each, more than their length, and
    reads of nearly 2^64 of these bytes and of one byte more. -/
def saturatedPipe : List SyscallRecord :=
  [pipeCreated, writeAt 2 (2 ^ 63 - 1), writeAt 4 (2 ^ 63 - 1), writeAt 6 (2 ^ 63 - 1),
    readAt 9 (2 ^ 63 - 1), readAt 11 (2 ^ 63 - 1), readAt 13 1, readAt 15 1]

/-- The last read returned a byte of the third write, but the offset that ends at
    `u64::MAX` gives no edge to it. -/
theorem saturated_pipe_loses_edge : DistinctEvents saturatedPipe ∧ IsPipe saturatedPipe thePipe ∧
      Admitted saturatedPipe none thePipe ∧ Covered thePipe (channelSteps saturatedPipe) ∧
      (edgesByStep saturatedPipe none)[6]? = some [] ∧
      ∃ w r start, (channelSteps saturatedPipe)[6]? = some r ∧ r.write = false ∧
        (w, start) ∈ laid (·.count) 0 ((channelSteps saturatedPipe).filter (writesTo thePipe)) ∧
        start < bytes (readsFrom thePipe) ((channelSteps saturatedPipe).take 6) + r.count ∧
        bytes (readsFrom thePipe) ((channelSteps saturatedPipe).take 6) < start + w.count := by
  have hpipe : IsPipe saturatedPipe thePipe := by
    unfold IsPipe
    decide +kernel
  have hadmi : Admitted saturatedPipe none thePipe :=
    (leftOut_iff_not_admitted hpipe ⟨⟨15, readAt 15 1, ⟨3, 1⟩, thePipe, .pipe, false, 1⟩,
      by decide +kernel, rfl⟩).mp (by decide +kernel)
  refine ⟨by unfold DistinctEvents; decide +kernel, hpipe, hadmi,
    covered_of_take (by decide +kernel), by decide +kernel, ?_⟩
  refine ⟨⟨6, writeAt 6 (2 ^ 63 - 1), ⟨3, 2⟩, thePipe, .pipe, true, 2 ^ 63 - 1⟩,
    ⟨15, readAt 15 1, ⟨3, 1⟩, thePipe, .pipe, false, 1⟩, 2 ^ 64 - 2, ?_⟩
  decide +kernel

end Hermit.Races
