import Hermit.Preemptions.Record

/-!
# Records that validate

`validate` runs its checks one after another. This file says what they check together: a record
validates when it is `Sound`, which does not look at which slice ends are marked stopless, and
when it may hold the marks it does (`stopless_lowering_refusal`).

A callback checkpoint is a point of its thread's progress (the sum of the counts of its events)
and names the operation that ends there, which the events up to the point settle.

Main results:

* `validateCallbackCheckpoints_eq_ok`: the checkpoints that are accepted.
* `validate_eq_ok_iff`: the records that validate.
-/

namespace Hermit.Preemptions

open Common Scheduler List

/-! ## Progress -/

def progressOf (tid : DetTid) (events : List SchedEvent) : ℕ :=
  ((events.filter (·.dettid = tid)).map (·.count)).sum

theorem progressOf_singleton (tid : DetTid) (event : SchedEvent) :
    progressOf tid [event] = if event.dettid = tid then event.count else 0 := by
  by_cases h : event.dettid = tid <;> simp [progressOf, h]

theorem progressOf_append (tid : DetTid) (events rest : List SchedEvent) :
    progressOf tid (events ++ rest) = progressOf tid events + progressOf tid rest := by
  simp [progressOf]

theorem progressOf_take_le (tid : DetTid) (events : List SchedEvent) (len : ℕ) :
    progressOf tid (events.take len) ≤ progressOf tid events := by
  conv_rhs => rw [← take_append_drop len events, progressOf_append]
  exact Nat.le_add_right _ _

def EndsAt (tid : DetTid) : List SchedEvent → ℕ → Op → Prop
  | [], _, _ => False
  | event :: events, progress, op =>
    (event.dettid = tid ∧ 0 < event.count ∧ progress = event.count ∧ op = event.op) ∨
      ∃ later, EndsAt tid events later op ∧ progress = progressOf tid [event] + later

variable {tid : DetTid} {events : List SchedEvent} {progress : ℕ} {op : Op}

theorem endsAt_append {rest : List SchedEvent} :
    EndsAt tid (events ++ rest) progress op ↔ EndsAt tid events progress op ∨
      ∃ later, EndsAt tid rest later op ∧ progress = progressOf tid events + later := by
  induction events generalizing progress with
  | nil => simp [EndsAt, progressOf]
  | cons event events ih =>
    have hspl : progressOf tid (event :: events) =
        progressOf tid [event] + progressOf tid events :=
      progressOf_append tid [event] events
    rw [cons_append, EndsAt, EndsAt, hspl, or_assoc]
    refine or_congr_right ?_
    constructor
    · rintro ⟨later, hlat, rfl⟩
      rcases ih.mp hlat with hleft | ⟨last, hlast, rfl⟩
      · exact .inl ⟨later, hleft, rfl⟩
      · exact .inr ⟨last, hlast, by omega⟩
    · rintro (⟨later, hleft, rfl⟩ | ⟨last, hlast, rfl⟩)
      · exact ⟨later, ih.mpr (.inl hleft), rfl⟩
      · exact ⟨_, ih.mpr (.inr ⟨last, hlast, rfl⟩), by omega⟩

theorem endsAt_singleton {event : SchedEvent} : EndsAt tid [event] progress op ↔
      event.dettid = tid ∧ 0 < event.count ∧ progress = event.count ∧ op = event.op := by
  simp [EndsAt]

theorem EndsAt.pos (h : EndsAt tid events progress op) : 0 < progress := by
  induction events generalizing progress with
  | nil => exact h.elim
  | cons event events ih =>
    rcases h with ⟨-, hcnt, rfl, -⟩ | ⟨later, hlat, rfl⟩
    · exact hcnt
    · have := ih hlat
      omega

theorem EndsAt.le (h : EndsAt tid events progress op) : progress ≤ progressOf tid events := by
  induction events generalizing progress with
  | nil => exact h.elim
  | cons event events ih =>
    have hspl : progressOf tid (event :: events) =
        progressOf tid [event] + progressOf tid events :=
      progressOf_append tid [event] events
    rcases h with ⟨htid, -, rfl, -⟩ | ⟨later, hlat, rfl⟩
    · rw [hspl, progressOf_singleton, if_pos htid]
      omega
    · have := ih hlat
      omega

theorem endsAt_append_of_le {rest : List SchedEvent} (hle : progress ≤ progressOf tid events) :
    EndsAt tid (events ++ rest) progress op ↔ EndsAt tid events progress op := by
  rw [endsAt_append]
  refine or_iff_left ?_
  rintro ⟨later, hlat, rfl⟩
  have := hlat.pos
  omega

/-! ## Endpoints -/

namespace PreemptionRecord

structure Endpoints.Follows (checkpoints : OrdMap DetTid (List Checkpoint)) (ends : Endpoints)
    (events : List SchedEvent) : Prop where
  progress : ∀ tid, checkpoints.contains tid → ends.progress tid = progressOf tid events
  bounded : ∀ tid, checkpoints.contains tid → progressOf tid events ≤ u64Max
  op : ∀ tid, checkpoints.contains tid → ∀ progress op,
    ends.op tid progress = some op ↔ EndsAt tid events progress op

variable {checkpoints : OrdMap DetTid (List Checkpoint)}

theorem Endpoints.follows_nil : Endpoints.Follows checkpoints {} [] where
  progress _ _ := rfl
  bounded _ _ := Nat.zero_le _
  op _ _ _ _ := by simp [EndsAt]

variable {ends : Endpoints} {events : List SchedEvent} {event : SchedEvent}
    {record : PreemptionRecord}

/-- An event that no thread with checkpoints moves by changes nothing. -/
theorem Endpoints.Follows.skip (h : ends.Follows checkpoints events)
    (hskip : ¬ (0 < event.count ∧ checkpoints.contains event.dettid)) :
    ends.Follows checkpoints (events ++ [event]) := by
  have hzero : ∀ tid, checkpoints.contains tid → progressOf tid [event] = 0 := by
    intro tid htid
    rw [progressOf_singleton]
    split_ifs with heq
    · rw [heq] at hskip
      by_contra hcnt
      exact hskip ⟨Nat.pos_of_ne_zero hcnt, htid⟩
    · rfl
  have hnone : ∀ tid, checkpoints.contains tid → ∀ progress op,
      ¬ EndsAt tid [event] progress op := by
    intro tid htid progress op hends
    obtain ⟨heq, hcnt, -⟩ := endsAt_singleton.mp hends
    exact hskip ⟨hcnt, heq ▸ htid⟩
  constructor
  · intro tid htid
    rw [progressOf_append, hzero tid htid, h.progress tid htid, Nat.add_zero]
  · intro tid htid
    rw [progressOf_append, hzero tid htid]
    exact h.bounded tid htid
  · intro tid htid progress op
    rw [h.op tid htid, endsAt_append]
    refine (or_iff_left ?_).symm
    rintro ⟨later, hlat, -⟩
    exact hnone tid htid later op hlat

theorem Endpoints.Follows.advance (h : ends.Follows checkpoints events) (hcnt : 0 < event.count)
    (hle : progressOf event.dettid events + event.count ≤ u64Max) :
    Endpoints.Follows checkpoints
      { progress := Function.update ends.progress event.dettid
          (progressOf event.dettid events + event.count)
        op := Function.update ends.op event.dettid (Function.update (ends.op event.dettid)
          (progressOf event.dettid events + event.count) (some event.op)) }
      (events ++ [event]) := by
  constructor
  · intro tid htid
    dsimp only
    rw [progressOf_append, progressOf_singleton]
    by_cases heq : tid = event.dettid
    · rw [heq, Function.update_self, if_pos rfl]
    · rw [Function.update_of_ne heq, h.progress tid htid, if_neg (Ne.symm heq), Nat.add_zero]
  · intro tid htid
    rw [progressOf_append, progressOf_singleton]
    split_ifs with heq
    · rw [← heq]
      exact hle
    · exact h.bounded tid htid
  · intro tid htid progress op
    dsimp only
    rw [endsAt_append]
    by_cases heq : tid = event.dettid
    · subst heq
      rw [Function.update_self]
      by_cases hprog : progress = progressOf event.dettid events + event.count
      · subst hprog
        have hbef : ¬ EndsAt event.dettid events
            (progressOf event.dettid events + event.count) op := by
          intro hends
          have := hends.le
          omega
        rw [Function.update_self, or_iff_right hbef]
        constructor
        · intro hop
          exact ⟨event.count,
            endsAt_singleton.mpr ⟨rfl, hcnt, rfl, (Option.some.inj hop).symm⟩, rfl⟩
        · rintro ⟨later, hlat, -⟩
          rw [(endsAt_singleton.mp hlat).2.2.2]
      · rw [Function.update_of_ne hprog, h.op _ htid]
        refine (or_iff_left ?_).symm
        rintro ⟨later, hlat, rfl⟩
        exact hprog (congrArg _ (endsAt_singleton.mp hlat).2.2.1)
    · rw [Function.update_of_ne heq, h.op tid htid]
      refine (or_iff_left ?_).symm
      rintro ⟨later, hlat, -⟩
      exact heq (endsAt_singleton.mp hlat).1.symm

theorem Endpoints.Follows.observe {ends' : Endpoints} (h : ends.Follows checkpoints events)
    (hstep : ends.observe checkpoints event = .ok ends') :
    ends'.Follows checkpoints (events ++ [event]) := by
  unfold Endpoints.observe at hstep
  split at hstep
  case isFalse hskip =>
    cases hstep
    exact h.skip hskip
  case isTrue hmoves =>
    rw [h.progress _ hmoves.2] at hstep
    split at hstep
    · cases hstep
    next count hadd =>
      obtain ⟨rfl, hle⟩ := checkedAdd_eq_some hadd
      cases hstep
      exact h.advance hmoves.1 hle

theorem Endpoints.follows_of_foldlM
    (h : events.foldlM (Endpoints.observe checkpoints) {} = .ok ends) :
    ends.Follows checkpoints events :=
  foldlM_history (fun ends events => Endpoints.Follows checkpoints ends events)
    (fun _ _ _ _ hfol hstep => hfol.observe hstep) Endpoints.follows_nil h

theorem exists_endpoints (events : List SchedEvent)
    (hboun : ∀ tid, checkpoints.contains tid → progressOf tid events ≤ u64Max) :
    ∃ ends, events.foldlM (Endpoints.observe checkpoints) {} = .ok ends := by
  induction events using reverseRecOn with
  | nil => exact ⟨{}, rfl⟩
  | append_singleton events event ih =>
    have hbef : ∀ tid, checkpoints.contains tid → progressOf tid events ≤ u64Max := by
      intro tid htid
      have hle := hboun tid htid
      rw [progressOf_append] at hle
      omega
    obtain ⟨ends, hends⟩ := ih hbef
    have hfol := Endpoints.follows_of_foldlM hends
    have hstep : ∃ ends', ends.observe checkpoints event = .ok ends' := by
      unfold Endpoints.observe
      split_ifs with hmoves
      · have hle := hboun _ hmoves.2
        rw [progressOf_append, progressOf_singleton, if_pos rfl] at hle
        rw [hfol.progress _ hmoves.2]
        simp only [checkedAdd, if_pos hle]
        exact ⟨_, rfl⟩
      · exact ⟨ends, rfl⟩
    obtain ⟨ends', hends'⟩ := hstep
    exact ⟨ends', foldlM_snoc hends hends'⟩

/-! ## Checkpoints -/

/-- The checkpoint is at its row of the history, and names what ends at its progress. -/
def Fits (history : ThreadHistory) (op : ℕ → Option Op) (point : Checkpoint) : Prop :=
  history.prioChanges[point.historyIndex]?.map Prod.fst = some point.origin.time ∧
    history.preemptionRcbs[point.historyIndex]? = some point.origin.rcbs ∧
    if point.origin.progress = 0 then point.origin.lastOp = none
    else op point.origin.progress = point.origin.lastOp ∧ point.origin.lastOp.isSome

def Earlier (point next : Checkpoint) : Prop :=
  point.historyIndex < next.historyIndex ∧ point.origin.progress ≤ next.origin.progress

theorem checkCheckpoints_eq_ok {tid : DetTid} {history : ThreadHistory} {op : ℕ → Option Op}
    {previous : Option (ℕ × ℕ)} {points : List Checkpoint} :
    checkCheckpoints tid history op previous points = .ok () ↔
      (∀ point ∈ points, Fits history op point) ∧ points.Pairwise Earlier ∧
      ∀ last ∈ previous, ∀ point ∈ points,
        last.1 < point.historyIndex ∧ last.2 ≤ point.origin.progress := by
  induction points generalizing previous with
  | nil => simp [checkCheckpoints]
  | cons point points ih =>
    have hany : (previous.any fun last =>
          point.historyIndex ≤ last.1 ∨ point.origin.progress < last.2) = true ↔
        ¬ ∀ last ∈ previous, last.1 < point.historyIndex ∧ last.2 ≤ point.origin.progress := by
      cases previous with
      | none => simp
      | some last =>
        simp only [Option.any_some, decide_eq_true_eq, Option.mem_def, Option.some.injEq,
          forall_eq']
        omega
    rw [checkCheckpoints, forall_mem_cons, pairwise_cons]
    simp only [hany]
    by_cases hrow : (¬ ∀ last ∈ previous,
          last.1 < point.historyIndex ∧ last.2 ≤ point.origin.progress) ∨
        history.prioChanges[point.historyIndex]?.map Prod.fst ≠ some point.origin.time ∨
        history.preemptionRcbs[point.historyIndex]? ≠ some point.origin.rcbs
    · rw [if_pos hrow]
      simp only [reduceCtorEq, false_iff]
      rintro ⟨⟨hfit, -⟩, -, hprev⟩
      rcases hrow with hrow | hrow | hrow
      · exact hrow fun last hlast => hprev last hlast point mem_cons_self
      · exact hrow hfit.1
      · exact hrow hfit.2.1
    rw [if_neg hrow]
    push Not at hrow
    obtain ⟨hlast, htime, hrcbs⟩ := hrow
    by_cases hend : if point.origin.progress = 0 then point.origin.lastOp = none
        else op point.origin.progress = point.origin.lastOp ∧ point.origin.lastOp.isSome
    · rw [if_pos hend, ih]
      constructor
      · rintro ⟨hfits, hpairs, hnext⟩
        have hnext := hnext _ rfl
        refine ⟨⟨⟨htime, hrcbs, hend⟩, hfits⟩, ⟨hnext, hpairs⟩, fun last hmem => ?_⟩
        have hbef := hlast last hmem
        refine forall_mem_cons.mpr ⟨hbef, fun next hmem' => ?_⟩
        have := hnext next hmem'
        omega
      · rintro ⟨⟨-, hfits⟩, ⟨hnext, hpairs⟩, -⟩
        refine ⟨hfits, hpairs, ?_⟩
        intro last hmem
        cases hmem
        exact hnext
    · rw [if_neg hend]
      simp only [reduceCtorEq, false_iff]
      rintro ⟨⟨hfit, -⟩, -⟩
      exact hend hfit.2.2

theorem checkThreadCheckpoints_eq_ok {tid : DetTid} {points : List Checkpoint} :
    record.checkThreadCheckpoints ends (tid, points) = .ok () ↔
      ∃ history, record.perThread[tid]? = some history ∧
        (∀ point ∈ points, Fits history (ends.op tid) point) ∧ points.Pairwise Earlier := by
  unfold checkThreadCheckpoints
  cases hhis : record.perThread[tid]? with
  | none => simp
  | some history => simp [checkCheckpoints_eq_ok]

theorem validateCallbackCheckpoints_eq_ok : record.validateCallbackCheckpoints = .ok () ↔
      ∃ ends, record.global.foldlM (Endpoints.observe record.callbackCheckpoints) {} = .ok ends ∧
        ∀ tid points, record.callbackCheckpoints[tid]? = some points →
          ∃ history, record.perThread[tid]? = some history ∧
            (∀ point ∈ points, Fits history (ends.op tid) point) ∧ points.Pairwise Earlier := by
  unfold validateCallbackCheckpoints
  rw [bind_eq_ok]
  refine exists_congr fun ends => and_congr_right fun _ => ?_
  rw [forM_eq_ok]
  constructor
  · intro h tid points hpoin
    exact checkThreadCheckpoints_eq_ok.mp (h _ ((OrdMap.mem_toList _ _ _).mpr hpoin))
  · rintro h ⟨tid, points⟩ hmem
    exact checkThreadCheckpoints_eq_ok.mpr (h tid points ((OrdMap.mem_toList _ _ _).mp hmem))

/-! ## Sound records -/

structure Sound (record : PreemptionRecord) : Prop where
  starts : record.checkBackgroundStarts = .ok ()
  unnoted : record.backgroundStartsUnnoted →
    record.backgroundStarts = [] ∧ record.formatVersion = some 6
  noted : record.backgroundStarts ≠ [] → record.notesBackgroundStarts
  rejoins : record.checkRejoins = .ok ()
  rowsAlone : record.rowsAlone → record.global = []
  checkpoints : record.validateCallbackCheckpoints = .ok ()
  histories : record.validateHistories = .ok ()
  skips : record.checkTimeSkips = .ok ()
  offsets : record.rowsCarryInstructionOffsets → record.formatVersion = some 6
  marks : ∀ event ∈ record.global, event.stoplessMarkRefusal = none
  reads : readsFormat record.formatVersion
  skipsListed : record.timeSkips.getD [] ≠ [] → record.listsItsTimeSkips
  skipsOrdered : record.checkTimeSkipOrder = .ok ()

theorem not_all_lt_six {format : Option ℕ} (h : readsFormat format) :
    ¬ format.all (· < instructionOffsetRowsFormat) ↔ format = some 6 := by
  cases format with
  | none => simp
  | some format =>
    have hrange : 2 ≤ format ∧ format ≤ 6 := of_decide_eq_true h
    show ¬ decide (format < 6) = true ↔ _
    rw [decide_eq_true_iff, Option.some.injEq]
    omega

theorem checkUnnoted_eq_ok (hreads : readsFormat record.formatVersion) :
    record.checkUnnoted = .ok () ↔ (record.backgroundStartsUnnoted →
      (record.backgroundStarts = [] ∧ record.formatVersion = some 6) ∧
        stoplessCount record.global = 0) := by
  rw [← not_all_lt_six hreads, ← Nat.le_zero, ← not_lt]
  unfold checkUnnoted
  split_ifs <;> simp_all

theorem checkStoplessMarks_eq_ok : record.checkStoplessMarks = .ok () ↔
      ∀ event ∈ record.global, event.stoplessMarkRefusal = none := by
  unfold checkStoplessMarks
  split
  next index refusal hfnd =>
    simp only [reduceCtorEq, false_iff]
    intro hmarks
    obtain ⟨⟨event, i⟩, hmem, hsome⟩ := exists_of_findSome?_eq_some hfnd
    have hevt : event ∈ record.global := fst_mem_of_mem_zipIdx hmem
    simp [hmarks event hevt] at hsome
  next hnone =>
    simp only [true_iff]
    intro event hmem
    obtain ⟨i, hi⟩ := mem_iff_getElem?.mp hmem
    have hent : (event, i) ∈ record.global.zipIdx := mem_zipIdx_iff_getElem?.mpr hi
    have hrefu := findSome?_eq_none_iff.mp hnone _ hent
    simpa using hrefu

theorem checkFormat_eq_ok : record.checkFormat = .ok () ↔ readsFormat record.formatVersion ∧
      (record.timeSkips.getD [] ≠ [] → record.listsItsTimeSkips) := by
  unfold checkFormat
  dsimp only
  split_ifs with href
  · tauto
  · tauto

theorem checkOffsetsFormat_eq_ok (hreads : readsFormat record.formatVersion) :
    record.checkOffsetsFormat = .ok () ↔
      (record.rowsCarryInstructionOffsets → record.formatVersion = some 6) := by
  rw [← not_all_lt_six hreads]
  unfold checkOffsetsFormat
  split_ifs <;> simp_all

theorem checkStartsNoted_eq_ok : record.checkStartsNoted = .ok () ↔
      (record.backgroundStarts ≠ [] → record.notesBackgroundStarts) := by
  unfold checkStartsNoted
  split_ifs <;> simp_all

theorem checkRowsAlone_eq_ok :
    record.checkRowsAlone = .ok () ↔ (record.rowsAlone → record.global = []) := by
  unfold checkRowsAlone
  split_ifs <;> simp_all

theorem Sound.validate_eq (h : record.Sound) :
    record.validate = record.stoplessLoweringRefusal := by
  have hnoted := checkStartsNoted_eq_ok.mpr h.noted
  have halone := checkRowsAlone_eq_ok.mpr h.rowsAlone
  have hoffs := (checkOffsetsFormat_eq_ok h.reads).mpr h.offsets
  have hmarks := checkStoplessMarks_eq_ok.mpr h.marks
  have hfmt := checkFormat_eq_ok.mpr ⟨h.reads, h.skipsListed⟩
  by_cases href : 0 < stoplessCount record.global ∧ record.backgroundStartsUnnoted
  · have hunno : record.checkUnnoted = .error (.unnotedStopless (stoplessCount record.global)) := by
      obtain ⟨hstas, hsix⟩ := h.unnoted href.2
      have habove := (not_all_lt_six h.reads).mpr hsix
      unfold checkUnnoted
      rw [if_pos ⟨href.2, h.reads⟩, if_neg (not_not.mpr hstas), if_neg habove, if_pos href.1]
    unfold validate validateContents stoplessLoweringRefusal
    rw [h.starts, hunno]
    rw [if_pos href]
    rfl
  · have hunno : record.checkUnnoted = .ok () := by
      refine (checkUnnoted_eq_ok h.reads).mpr fun hsays => ⟨h.unnoted hsays, ?_⟩
      by_contra hcnt
      exact href ⟨Nat.pos_of_ne_zero hcnt, hsays⟩
    have hcont : record.validateContents = .ok () := by
      unfold validateContents
      rw [h.starts, hunno, hnoted, h.rejoins, halone, h.checkpoints, h.histories]
      rfl
    unfold validate validateFormat stoplessLoweringRefusal
    rw [hcont, h.skips, hoffs, hmarks, hfmt, h.skipsOrdered]
    rw [if_neg href]
    unfold checkStoplessFormat
    split_ifs <;> rfl

theorem validate_eq_ok_iff :
    record.validate = .ok () ↔ record.Sound ∧ record.stoplessLoweringRefusal = .ok () := by
  constructor
  · intro h
    have hsound : record.Sound := by
      have hall := h
      unfold validate validateContents validateFormat at hall
      simp only [bind_eq_ok] at hall
      obtain ⟨_, ⟨_, hstas, _, hunno, _, hnoted, _, hrejo, _, halone, _, hcps,
        hhist⟩, _, hskips, _, hoffs, _, hmarks, _, -, _, hfmt, hordered⟩ := hall
      obtain ⟨hreads, hlist⟩ := checkFormat_eq_ok.mp hfmt
      exact
        { starts := hstas
          unnoted := fun hsays => ((checkUnnoted_eq_ok hreads).mp hunno hsays).1
          noted := checkStartsNoted_eq_ok.mp hnoted
          rejoins := hrejo
          rowsAlone := checkRowsAlone_eq_ok.mp halone
          checkpoints := hcps
          histories := hhist
          skips := hskips
          offsets := (checkOffsetsFormat_eq_ok hreads).mp hoffs
          marks := checkStoplessMarks_eq_ok.mp hmarks
          reads := hreads
          skipsListed := hlist
          skipsOrdered := hordered }
    exact ⟨hsound, hsound.validate_eq ▸ h⟩
  · rintro ⟨hsound, hok⟩
    rw [hsound.validate_eq]
    exact hok

theorem stoplessLoweringRefusal_eq_ok : record.stoplessLoweringRefusal = .ok () ↔
      (0 < stoplessCount record.global → record.belowStoplessFormat = false) := by
  unfold stoplessLoweringRefusal belowStoplessFormat
  dsimp only
  split_ifs <;> simp_all

end PreemptionRecord

end Hermit.Preemptions
