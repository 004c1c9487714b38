import Hermit.Preemptions.Soundness

/-!
# Editors keep records valid

`strip_contents`, `preemptions_only`, `clone_preemptions_only` and `with_current_format` make a
record that validates from one that does. So does `schedule_prefix`, at every length, unless the
prefix keeps a stopless mark that it may not hold: one on a slice end that would not be found
without it, because the next event is an operation of the same thread.

Main results:

* `Sound.restated`, `Sound.forgetStoplessMarks`, `Sound.cut`: the steps of the editors.
* `editors_keep_valid`
-/

namespace Hermit.Preemptions

open Common OrdMap Scheduler List

namespace PreemptionRecord

/-! ## Stopless marks -/

/-- A stopless mark on a slice end that is not found without it. -/
def HidesSliceEnd (events : List SchedEvent) : Prop :=
  ∃ i event following, events[i]? = some event ∧ events[i + 1]? = some following ∧
    event.stopless = true ∧ following.op ≠ .branch ∧ following.dettid = event.dettid

@[simp] theorem length_forgetVisibleMarks (events : List SchedEvent) :
    (forgetVisibleMarks events).length = events.length := by
  induction events with
  | nil => rfl
  | cons event events ih => simp [forgetVisibleMarks, ih]

variable {events : List SchedEvent} {record : PreemptionRecord} {format : Option ℕ}
    {starts : List BackgroundStart} {len : ℕ}

theorem mem_forgetVisibleMarks {event : SchedEvent} (h : event ∈ forgetVisibleMarks events) :
    event ∈ events ∨ event.stopless = false := by
  induction events with
  | nil => exact .inl h
  | cons first events ih =>
    rcases mem_cons.mp h with rfl | hmem
    · split_ifs
      · exact .inr rfl
      · exact .inl mem_cons_self
    · exact (ih hmem).imp_left (mem_cons_of_mem _)

theorem stoplessCount_forgetVisibleMarks_le (events : List SchedEvent) :
    stoplessCount (forgetVisibleMarks events) ≤ stoplessCount events := by
  unfold stoplessCount
  induction events with
  | nil => exact le_rfl
  | cons =>
    rw [forgetVisibleMarks, countP_cons, countP_cons]
    split_ifs <;> simp_all
    all_goals omega

theorem foldlM_forgetVisibleMarks (checkpoints : OrdMap DetTid (List Checkpoint))
    (events : List SchedEvent) (ends : Endpoints) :
    (forgetVisibleMarks events).foldlM (Endpoints.observe checkpoints) ends =
      events.foldlM (Endpoints.observe checkpoints) ends := by
  induction events generalizing ends with
  | nil => rfl
  | cons event events ih =>
    rw [forgetVisibleMarks, foldlM_cons, foldlM_cons]
    have hsame : ends.observe checkpoints (if event.stopless ∧ endStaysVisible event events.head?
        then { event with stopless := false } else event) = ends.observe checkpoints event := by
      split_ifs <;> rfl
    rw [hsame]
    exact bind_congr fun ends => ih ends

theorem head?_forgetVisibleMarks {event : SchedEvent}
    (h : events.head? = some event) : ∃ kept, (forgetVisibleMarks events)[0]? = some kept ∧
      kept.op = event.op ∧ kept.dettid = event.dettid := by
  cases events with
  | nil => cases h
  | cons =>
    cases h
    refine ⟨_, rfl, ?_⟩
    split_ifs <;> exact ⟨rfl, rfl⟩

theorem hidesSliceEnd_forgetVisibleMarks (h : 0 < stoplessCount (forgetVisibleMarks events)) :
    HidesSliceEnd (forgetVisibleMarks events) := by
  induction events with
  | nil => exact absurd h (by decide)
  | cons event events ih =>
    unfold stoplessCount at h ih
    rw [forgetVisibleMarks, countP_cons] at h
    by_cases htail : 0 < (forgetVisibleMarks events).countP (·.stopless)
    · obtain ⟨i, marked, following, hi, hnext, hmark⟩ := ih htail
      exact ⟨i + 1, marked, following, hi, hnext, hmark⟩
    · by_cases hvisi : event.stopless ∧ endStaysVisible event events.head?
      · simp [hvisi, htail] at h
      · have hmar : event.stopless = true := by
          by_contra hmar
          simp [hmar, htail] at h
        have hhidd : ¬ endStaysVisible event events.head? = true := fun hstays =>
          hvisi ⟨hmar, hstays⟩
        cases hhead : events.head? with
        | none => exact absurd (by rw [hhead]; rfl) hhidd
        | some following =>
          rw [hhead] at hhidd
          have hfol : ¬ (following.op = .branch ∨ following.dettid ≠ event.dettid) :=
            fun hor => hhidd (decide_eq_true hor)
          push Not at hfol
          obtain ⟨kept, hkept, hop, htid⟩ := head?_forgetVisibleMarks hhead
          refine ⟨0, event, kept, ?_, hkept, hmar, hop ▸ hfol.1, htid.trans hfol.2⟩
          show some _ = some event
          rw [if_neg hvisi]

theorem stoplessCount_forgetStoplessMarks_le (record : PreemptionRecord) :
    stoplessCount record.forgetStoplessMarks.global ≤ stoplessCount record.global := by
  unfold forgetStoplessMarks
  split_ifs
  · exact stoplessCount_forgetVisibleMarks_le record.global
  · exact le_rfl

@[simp] theorem belowStoplessFormat_forgetStoplessMarks (record : PreemptionRecord) :
    record.forgetStoplessMarks.belowStoplessFormat = record.belowStoplessFormat := by
  unfold forgetStoplessMarks
  split_ifs <;> rfl

theorem hidesSliceEnd_of_refused (h : record.forgetStoplessMarks.stoplessLoweringRefusal ≠ .ok ()) :
    HidesSliceEnd record.forgetStoplessMarks.global := by
  rw [Ne, stoplessLoweringRefusal_eq_ok, belowStoplessFormat_forgetStoplessMarks] at h
  push Not at h
  obtain ⟨hcnt, hblw⟩ := h
  have hglob : record.forgetStoplessMarks.global = forgetVisibleMarks record.global := by
    unfold forgetStoplessMarks
    rw [if_pos (by simpa using hblw)]
  rw [hglob] at hcnt ⊢
  exact hidesSliceEnd_forgetVisibleMarks hcnt

theorem Sound.forgetStoplessMarks (h : record.Sound) : record.forgetStoplessMarks.Sound := by
  unfold PreemptionRecord.forgetStoplessMarks
  split_ifs
  · refine { h with starts := ?_, rowsAlone := ?_, checkpoints := ?_, marks := ?_ }
    · have hstas := h.starts
      unfold checkBackgroundStarts at hstas ⊢
      rw [length_forgetVisibleMarks]
      exact hstas
    · intro halone
      have hnil := h.rowsAlone halone
      show forgetVisibleMarks record.global = []
      rw [hnil]
      rfl
    · have hcps := h.checkpoints
      unfold validateCallbackCheckpoints at hcps ⊢
      rw [foldlM_forgetVisibleMarks]
      exact hcps
    · intro event hmem
      rcases mem_forgetVisibleMarks hmem with hmem | hunma
      · exact h.marks event hmem
      · simp [SchedEvent.stoplessMarkRefusal, hunma]
  · exact h

theorem Sound.validate_of_nil (h : record.Sound)
    (hnil : record.global = []) : record.validate = .ok () := by
  refine validate_eq_ok_iff.mpr ⟨h, stoplessLoweringRefusal_eq_ok.mpr fun hcnt => ?_⟩
  rw [hnil] at hcnt
  exact absurd hcnt (by decide)

/-! ## Formats -/

def restated (record : PreemptionRecord) (format : Option ℕ) (starts : List BackgroundStart) :
    PreemptionRecord :=
  { record with
    formatVersion := if record.rowsCarryInstructionOffsets then some 6 else format
    backgroundStarts := starts
    backgroundStartsUnnoted := record.rowsCarryInstructionOffsets &&
      !format.any (backgroundStartsFormat ≤ ·) && !record.rowsAlone }

theorem raiseFormat_offsets (hreads : readsFormat record.formatVersion) :
    record.raiseFormat instructionOffsetRowsFormat = { record with
      formatVersion := some 6
      backgroundStartsUnnoted := if ¬ record.notesBackgroundStarts ∧ ¬ record.rowsAlone then true
        else record.backgroundStartsUnnoted } := by
  have hread : readsFormat (some 6) = true ∧ backgroundStartsFormat ≤ 6 := by decide
  have hsix : instructionOffsetRowsFormat = 6 := rfl
  unfold raiseFormat
  cases hfmt : record.formatVersion with
  | none => simp only [hread, hsix, and_true]
  | some stated =>
    rw [hfmt] at hreads
    have hrange : 2 ≤ stated ∧ stated ≤ 6 := of_decide_eq_true hreads
    simp only [if_neg (not_not.mpr hreads), hread, hsix, max_eq_right hrange.2, and_true]

theorem adoptOffsetsFormat_eq_restated (record : PreemptionRecord)
    (starts : List BackgroundStart) (hreads : readsFormat format) :
    ({ record with
        formatVersion := format
        backgroundStarts := starts
        backgroundStartsUnnoted := false } : PreemptionRecord).adoptOffsetsFormat =
      record.restated format starts := by
  unfold adoptOffsetsFormat
  rw [raiseFormat_offsets hreads]
  unfold restated notesBackgroundStarts rowsCarryInstructionOffsets
  cases (values record.perThread).any ThreadHistory.hasInstructionOffsets with
  | false => rfl
  | true =>
    cases format.any (backgroundStartsFormat ≤ ·) <;> cases record.rowsAlone <;> rfl

theorem checkBackgroundStarts_nil
    (h : record.backgroundStarts = []) : record.checkBackgroundStarts = .ok () := by
  unfold checkBackgroundStarts
  rw [h]
  rfl

theorem Sound.rowsAlone_of_offsets (h : record.Sound)
    (hskips : record.timeSkips.getD [] ≠ []) (hcarry : record.rowsCarryInstructionOffsets) :
    record.rowsAlone = false := by
  by_contra halone
  rw [Bool.not_eq_false] at halone
  have hlst := h.skipsListed hskips
  unfold listsItsTimeSkips timingFormat at hlst
  rw [h.offsets hcarry, if_pos ⟨halone, rfl⟩] at hlst
  exact Bool.noConfusion hlst

theorem Sound.restated (h : record.Sound) (hreads : readsFormat format) (hblw : format ≠ some 6)
    (hstas : starts = [] ∨ starts = record.backgroundStarts ∧
      (starts ≠ [] → format.any (backgroundStartsFormat ≤ ·)))
    (hlst : record.timeSkips.getD [] ≠ [] → listsTimeSkipsIn format) :
    (record.restated format starts).Sound := by
  refine { h with
    starts := ?_, unnoted := ?_, noted := ?_, offsets := ?_, reads := ?_, skipsListed := ?_ }
  · rcases hstas with rfl | ⟨rfl, -⟩
    · exact checkBackgroundStarts_nil rfl
    · exact h.starts
  · intro hunno
    simp only [PreemptionRecord.restated, Bool.and_eq_true] at hunno ⊢
    obtain ⟨⟨hcarry, hnotes⟩, -⟩ := hunno
    rw [if_pos hcarry]
    refine ⟨?_, rfl⟩
    rcases hstas with hnil | ⟨-, hnoted⟩
    · exact hnil
    · by_contra hne
      rw [hnoted hne] at hnotes
      exact Bool.noConfusion hnotes
  · intro hne
    rcases hstas with hnil | ⟨hsame, hnoted⟩
    · exact absurd hnil hne
    · have hany := hnoted hne
      have hnotes := h.noted (hsame ▸ hne)
      unfold notesBackgroundStarts at hnotes ⊢
      simp only [Bool.and_eq_true] at hnotes
      simp only [PreemptionRecord.restated, hany, hnotes.2, Bool.not_true, Bool.and_false,
        Bool.not_false, Bool.and_true]
      split_ifs
      · rfl
      · exact hany
  · intro hcarry
    exact if_pos hcarry
  · show readsFormat (if record.rowsCarryInstructionOffsets then some 6 else format) = true
    split_ifs
    · rfl
    · exact hreads
  · intro hskips
    unfold listsItsTimeSkips timingFormat
    by_cases hcarry : record.rowsCarryInstructionOffsets
    · have halone := h.rowsAlone_of_offsets hskips hcarry
      simp [PreemptionRecord.restated, hcarry, halone, listsTimeSkipsIn, timeSkipsFormat]
    · have hlow : ¬ (record.rowsAlone ∧ format.any (fun format =>
          instructionOffsetRowsFormat ≤ format ∧ format ≤ preemptionRecordFormatMax) = true) := by
        rintro ⟨-, hsix⟩
        cases format with
        | none => cases hsix
        | some format =>
          have hrange : 6 ≤ format ∧ format ≤ 6 := of_decide_eq_true hsix
          exact hblw (congrArg some (Nat.le_antisymm hrange.2 hrange.1))
      simp only [PreemptionRecord.restated, if_neg hcarry, if_neg hlow]
      exact hlst hskips

theorem formatWithoutBackgroundStarts_reads (h : readsFormat format) :
    readsFormat (formatWithoutBackgroundStarts format) ∧
      formatWithoutBackgroundStarts format ≠ some 6 ∧
      (listsTimeSkipsIn format → listsTimeSkipsIn (formatWithoutBackgroundStarts format)) := by
  cases format with
  | none => decide
  | some format =>
    have hrange : 2 ≤ format ∧ format ≤ 6 := of_decide_eq_true h
    obtain ⟨hlow, hhigh⟩ := hrange
    interval_cases format <;> decide

theorem Sound.lists_formatVersion (h : record.Sound)
    (hskips : record.timeSkips.getD [] ≠ []) : listsTimeSkipsIn record.formatVersion := by
  have hlst := h.skipsListed hskips
  unfold listsItsTimeSkips timingFormat at hlst
  split_ifs at hlst
  · exact Bool.noConfusion hlst
  · exact hlst

theorem forgetBackgroundStarts_eq
    (hreads : readsFormat record.formatVersion) : record.forgetBackgroundStarts =
      (record.restated (formatWithoutBackgroundStarts record.formatVersion) []).forgetStoplessMarks :=
  congrArg PreemptionRecord.forgetStoplessMarks (adoptOffsetsFormat_eq_restated record []
    (formatWithoutBackgroundStarts_reads hreads).1)

theorem Sound.forgetBackgroundStarts (h : record.Sound) : record.forgetBackgroundStarts.Sound := by
  obtain ⟨hreads, hblw, hlst⟩ := formatWithoutBackgroundStarts_reads h.reads
  rw [forgetBackgroundStarts_eq h.reads]
  apply Sound.forgetStoplessMarks
  exact h.restated hreads hblw (.inl rfl) fun hskips => hlst (h.lists_formatVersion hskips)

/-! ## Editors of whole records -/

theorem validateCallbackCheckpoints_empty
    (h : record.callbackCheckpoints = ∅) : record.validateCallbackCheckpoints = .ok () := by
  have hnone : ∀ tid, ¬ record.callbackCheckpoints.contains tid := by
    intro tid
    simp [h]
  obtain ⟨ends, hends⟩ := exists_endpoints record.global fun tid htid => absurd htid (hnone tid)
  refine validateCallbackCheckpoints_eq_ok.mpr ⟨ends, hends, fun tid points hpoin => ?_⟩
  simp [h] at hpoin

theorem Sound.forgetRunPoints (h : record.Sound) : record.forgetRunPoints.Sound := by
  apply Sound.forgetBackgroundStarts
  exact { h with rejoins := rfl, checkpoints := validateCallbackCheckpoints_empty rfl }

theorem forgetStoplessMarks_eq (record : PreemptionRecord) :
    ∃ events, record.forgetStoplessMarks = { record with global := events } := by
  unfold PreemptionRecord.forgetStoplessMarks
  split_ifs
  · exact ⟨_, rfl⟩
  · exact ⟨record.global, rfl⟩

theorem forgetRunPoints_fields (hreads : readsFormat record.formatVersion) :
    record.forgetRunPoints.backgroundStarts = [] ∧
      record.forgetRunPoints.callbackCheckpoints = ∅ := by
  let bare : PreemptionRecord := { record with callbackCheckpoints := ∅, rejoins := none }
  have hread : readsFormat bare.formatVersion := hreads
  have hforg : record.forgetRunPoints = _ := forgetBackgroundStarts_eq hread
  obtain ⟨events, heven⟩ := forgetStoplessMarks_eq
    (bare.restated (formatWithoutBackgroundStarts bare.formatVersion) [])
  rw [hforg, heven]
  exact ⟨rfl, rfl⟩

theorem Sound.emptied (h : record.Sound)
    (hstas : record.backgroundStarts = []) (hcps : record.callbackCheckpoints = ∅) :
    ({ record with global := [] } : PreemptionRecord).Sound :=
  { h with
    starts := checkBackgroundStarts_nil hstas
    rowsAlone := fun _ => rfl
    checkpoints := validateCallbackCheckpoints_empty hcps
    marks := fun _ hmem => absurd hmem not_mem_nil }

theorem validateHistory_stripped (tid : DetTid) :
    validateHistory (tid, strippedHistory) = .ok () := rfl

theorem validate_stripContents (h : record.Sound) : record.stripContents.validate = .ok () := by
  obtain ⟨hstas, hcps⟩ := forgetRunPoints_fields h.reads
  have hsound : record.stripContents.Sound := by
    have hemp := h.forgetRunPoints.emptied hstas hcps
    refine { hemp with
      checkpoints := validateCallbackCheckpoints_empty hcps, histories := ?_, offsets := ?_ }
    · refine forM_eq_ok.mpr ?_
      rintro ⟨tid, history⟩ hmem
      have hget := (mem_toList _ _ _).mp hmem
      rw [stripContents, Std.ExtTreeMap.getElem?_map, Option.map_eq_some_iff] at hget
      obtain ⟨-, -, rfl⟩ := hget
      exact validateHistory_stripped tid
    · intro hcarry
      obtain ⟨history, hmem, hoffs⟩ := any_eq_true.mp hcarry
      obtain ⟨tid, hget⟩ := (mem_values _ _).mp hmem
      rw [stripContents, Std.ExtTreeMap.getElem?_map, Option.map_eq_some_iff] at hget
      obtain ⟨-, -, rfl⟩ := hget
      exact Bool.noConfusion hoffs
  exact hsound.validate_of_nil rfl

theorem validate_preemptionsOnly (h : record.Sound) : record.preemptionsOnly.validate = .ok () := by
  obtain ⟨hstas, hcps⟩ := forgetRunPoints_fields h.reads
  have hemp := h.forgetRunPoints.emptied hstas hcps
  unfold preemptionsOnly
  dsimp only
  split_ifs with hcarry
  · refine Sound.validate_of_nil ?_ rfl
    exact { hemp with
      unnoted := fun hunno => Bool.noConfusion hunno
      noted := fun hne => absurd hstas hne
      rowsAlone := fun _ => rfl
      skips := rfl
      offsets := fun _ => rfl
      reads := rfl
      skipsListed := fun hskips => absurd rfl hskips
      skipsOrdered := rfl }
  · exact hemp.validate_of_nil rfl

theorem validate_clonePreemptionsOnly (h : record.Sound) :
    record.clonePreemptionsOnly.validate = .ok () := by
  refine Sound.validate_of_nil ?_ rfl
  refine { h with
    starts := rfl
    unnoted := fun hunno => Bool.noConfusion hunno
    noted := fun hne => absurd rfl hne
    rejoins := rfl
    rowsAlone := fun _ => rfl
    checkpoints := validateCallbackCheckpoints_empty rfl
    skips := rfl
    offsets := fun hcarry => if_pos hcarry
    marks := fun _ hmem => absurd hmem not_mem_nil
    reads := ?_
    skipsListed := fun hskips => absurd rfl hskips
    skipsOrdered := rfl }
  show readsFormat (if record.rowsCarryInstructionOffsets then _ else none) = true
  split_ifs <;> rfl

theorem withFormat_eq (hreads : readsFormat format) : record.withFormat format =
      (record.restated format record.backgroundStarts).forgetStoplessMarks :=
  congrArg PreemptionRecord.forgetStoplessMarks
    (adoptOffsetsFormat_eq_restated record record.backgroundStarts hreads)

theorem Sound.notes_of_stopless (h : record.Sound) (hrefu : record.stoplessLoweringRefusal = .ok ())
    (hcnt : 0 < stoplessCount record.global) : record.notesBackgroundStarts := by
  have hblw := stoplessLoweringRefusal_eq_ok.mp hrefu hcnt
  unfold belowStoplessFormat at hblw
  rw [Bool.or_eq_false_iff] at hblw
  have halone : record.rowsAlone = false := by
    by_contra halone
    rw [h.rowsAlone (Bool.not_eq_false _ ▸ halone)] at hcnt
    exact absurd hcnt (by decide)
  unfold notesBackgroundStarts
  rw [hblw.1, halone]
  cases hfmt : record.formatVersion with
  | none => simp [hfmt] at hblw
  | some format =>
    rw [hfmt] at hblw
    have hfive : ¬ format < 5 := of_decide_eq_false hblw.2
    simp only [Option.any_some, Bool.not_false, Bool.and_true]
    exact decide_eq_true (show 4 ≤ format by omega)

theorem validate_withCurrentFormat (h : record.Sound)
    (hrefu : record.stoplessLoweringRefusal = .ok ()) :
    record.withCurrentFormat.validate = .ok () := by
  unfold withCurrentFormat
  have hfive : formatWithoutInstructionOffsets (some preemptionRecordFormatMax) = some 5 := rfl
  have hthree : formatWithoutBackgroundStarts (some 5) = some 3 := rfl
  rw [if_neg (not_not.mpr h.reads), hfive]
  dsimp only
  rw [hthree]
  by_cases hnotes : record.notesBackgroundStarts
  · rw [if_pos hnotes, withFormat_eq (by decide)]
    have hrest : (record.restated (some 5) record.backgroundStarts).Sound :=
      h.restated (by decide) (by decide) (.inr ⟨rfl, fun _ => rfl⟩) fun _ => rfl
    refine validate_eq_ok_iff.mpr ⟨hrest.forgetStoplessMarks, ?_⟩
    refine stoplessLoweringRefusal_eq_ok.mpr fun _ => ?_
    rw [belowStoplessFormat_forgetStoplessMarks]
    unfold belowStoplessFormat PreemptionRecord.restated
    split_ifs <;> simp [backgroundStartsFormat, stoplessSliceEndsFormat]
  · rw [if_neg hnotes, withFormat_eq (by decide)]
    have hnone : record.backgroundStarts = [] := by
      by_contra hne
      exact hnotes (h.noted hne)
    have hrest : (record.restated (some 3) record.backgroundStarts).Sound :=
      h.restated (by decide) (by decide) (.inl hnone) fun _ => rfl
    refine validate_eq_ok_iff.mpr ⟨hrest.forgetStoplessMarks, ?_⟩
    refine stoplessLoweringRefusal_eq_ok.mpr fun hcnt => ?_
    have hle := stoplessCount_forgetStoplessMarks_le
      (record.restated (some 3) record.backgroundStarts)
    exact absurd (h.notes_of_stopless hrefu (hcnt.trans_le hle)) hnotes

/-! ## Prefixes -/

theorem reached_append_singleton (events : List SchedEvent) (event : SchedEvent) :
    reached (events ++ [event]) = (reached events).bind fun reached =>
      (if 0 < event.count then checkedAdd ((reached event.dettid).getD 0) event.count
        else some ((reached event.dettid).getD 0)).map fun count =>
      Function.update reached event.dettid (some count) := by
  unfold reached
  rw [foldlM_append]
  refine bind_congr fun reached => ?_
  rw [foldlM_cons]
  exact bind_pure _

theorem reached_spec (events : List SchedEvent) :
    match reached events with
    | none => ∃ tid, u64Max < progressOf tid events
    | some reached => ∀ tid, (reached tid).getD 0 = progressOf tid events := by
  induction events using reverseRecOn with
  | nil => exact fun _ => rfl
  | append_singleton events event ih =>
    rw [reached_append_singleton]
    cases hrch : reached events with
    | none =>
      rw [hrch] at ih
      obtain ⟨tid, htid⟩ := ih
      refine ⟨tid, ?_⟩
      rw [progressOf_append]
      omega
    | some reached =>
      rw [hrch] at ih
      rw [Option.bind_some, ih]
      by_cases hover : 0 < event.count ∧ u64Max < progressOf event.dettid events + event.count
      · rw [if_pos hover.1, checkedAdd, if_neg (Nat.not_le.mpr hover.2)]
        refine ⟨event.dettid, ?_⟩
        rw [progressOf_append, progressOf_singleton, if_pos rfl]
        exact hover.2
      · have hcnt : (if 0 < event.count
            then checkedAdd (progressOf event.dettid events) event.count
            else some (progressOf event.dettid events)) =
              some (progressOf event.dettid events + event.count) := by
          split_ifs with hpos
          · exact if_pos (Nat.not_lt.mp fun hlt => hover ⟨hpos, hlt⟩)
          · rw [Nat.eq_zero_of_not_pos hpos, Nat.add_zero]
        rw [hcnt]
        intro tid
        dsimp only
        rw [progressOf_append, progressOf_singleton]
        by_cases heq : tid = event.dettid
        · rw [heq, Function.update_self, if_pos rfl, Option.getD_some]
        · rw [Function.update_of_ne heq, if_neg (Ne.symm heq), ih, Nat.add_zero]

/-- A prefix, before its formats and marks are settled. -/
def cut (record : PreemptionRecord) (len : ℕ) (starts : List BackgroundStart)
    (reached : DetTid → Option ℕ) : PreemptionRecord :=
  let followed : Bool := len < record.global.length
  { record with
    global := record.global.take len
    postCrash := if followed then none else record.postCrash
    callbackCheckpoints := record.callbackCheckpoints.filterMap
      (keptCheckpoints reached (runningThread (record.global.take len) followed))
    storeExclusiveFailures := 0
    timeSkips := keptTimeSkips record.timeSkips len
    rejoins := if followed then none else record.rejoins
    backgroundStarts := starts }

theorem schedulePrefix_eq (record : PreemptionRecord) (len : ℕ) :
    record.schedulePrefix len = (reached (record.global.take len)).map fun reached =>
      (if len < record.global.length then (record.cut len [] reached).forgetBackgroundStarts
        else record.cut len record.backgroundStarts reached).forgetStoplessMarks := by
  refine congrArg (Option.map · _) ?_
  funext reached
  unfold cut
  simp only [decide_eq_true_eq]
  split_ifs <;> rfl

theorem keptCheckpoints_eq_some {reached : DetTid → Option ℕ} {running : Option DetTid}
    {tid : DetTid} {points kept : List Checkpoint}
    (h : keptCheckpoints reached running tid points = some kept) :
    kept.Sublist points ∧
      ∀ point ∈ kept, point.origin.progress ≤ (reached tid).getD 0 := by
  obtain ⟨progress, hprog, hkept⟩ := Option.bind_eq_some_iff.mp h
  rw [hprog, Option.getD_some]
  dsimp only at hkept
  split_ifs at hkept with hrunn
  · cases hkept
    refine ⟨filter_sublist, fun point hmem => ?_⟩
    exact (of_decide_eq_true (mem_filter.mp hmem).2).le
  · cases hkept
    refine ⟨filter_sublist, fun point hmem => ?_⟩
    exact of_decide_eq_true (mem_filter.mp hmem).2

/-- A checkpoint within a prefix names what ends there in the prefix. -/
theorem Fits.of_follows {history : ThreadHistory} {op op' : ℕ → Option Op} {point : Checkpoint}
    (h : Fits history op point)
    (hsame : ∀ last, op point.origin.progress = some last → op' point.origin.progress = some last) :
    Fits history op' point := by
  refine ⟨h.1, h.2.1, ?_⟩
  have hend := h.2.2
  split_ifs at hend ⊢
  · exact hend
  · obtain ⟨hop, hsome⟩ := hend
    obtain ⟨last, hlast⟩ := Option.isSome_iff_exists.mp hsome
    rw [hlast] at hop ⊢
    exact ⟨hsame last hop, rfl⟩

theorem Sound.cut_checkpoints (h : record.Sound) {progress : DetTid → Option ℕ}
    (hrch : reached (record.global.take len) = some progress) :
    (record.cut len starts progress).validateCallbackCheckpoints = .ok () := by
  have hspec := reached_spec (record.global.take len)
  rw [hrch] at hspec
  obtain ⟨ends, hends, hpoin⟩ := validateCallbackCheckpoints_eq_ok.mp h.checkpoints
  have hfol := Endpoints.follows_of_foldlM hends
  -- a thread with checkpoints in the prefix has checkpoints in the record
  have hkept : ∀ tid kept, (record.cut len starts progress).callbackCheckpoints[tid]? = some kept →
      ∃ points, record.callbackCheckpoints[tid]? = some points ∧ kept.Sublist points ∧
        ∀ point ∈ kept, point.origin.progress ≤ progressOf tid (record.global.take len) := by
    intro tid kept hget
    rw [PreemptionRecord.cut, Std.ExtTreeMap.getElem?_filterMap'] at hget
    obtain ⟨points, hpoin, hkept⟩ := Option.bind_eq_some_iff.mp hget
    obtain ⟨hsub, hle⟩ := keptCheckpoints_eq_some hkept
    rw [hspec] at hle
    exact ⟨points, hpoin, hsub, hle⟩
  have hcont : ∀ tid, (record.cut len starts progress).callbackCheckpoints.contains tid →
      record.callbackCheckpoints.contains tid := by
    intro tid htid
    obtain ⟨kept, hget⟩ := (contains_iff _ _).mp htid
    obtain ⟨points, hpoin, -⟩ := hkept tid kept hget
    exact (contains_iff _ _).mpr ⟨points, hpoin⟩
  have hboun : ∀ tid, (record.cut len starts progress).callbackCheckpoints.contains tid →
      progressOf tid (record.global.take len) ≤ u64Max := fun tid htid =>
    (progressOf_take_le tid record.global len).trans (hfol.bounded tid (hcont tid htid))
  obtain ⟨ends', hends'⟩ := exists_endpoints (record.global.take len) hboun
  have hfol' := Endpoints.follows_of_foldlM hends'
  refine validateCallbackCheckpoints_eq_ok.mpr ⟨ends', hends', fun tid kept hget => ?_⟩
  obtain ⟨points, hmem, hsub, hle⟩ := hkept tid kept hget
  obtain ⟨history, hhist, hfits, hpairs⟩ := hpoin tid points hmem
  refine ⟨history, hhist, fun point hpoint => ?_, hpairs.sublist hsub⟩
  refine (hfits point (hsub.subset hpoint)).of_follows fun last hlast => ?_
  have hcont' := (contains_iff _ _).mpr ⟨kept, hget⟩
  have hend := (hfol.op tid (hcont tid hcont') _ _).mp hlast
  rw [← take_append_drop len record.global, endsAt_append_of_le (hle point hpoint)] at hend
  exact (hfol'.op tid hcont' _ _).mpr hend

theorem keptTimeSkips_getD (skips : Option (List TimeSkip)) (len : ℕ) :
    (keptTimeSkips skips len).getD [] = (skips.getD []).takeWhile (·.event ≤ len) := by
  cases skips with
  | none => rfl
  | some skips =>
    unfold keptTimeSkips
    rw [Option.map_some, Option.getD_some, Option.filter_some]
    split_ifs with hne
    · rfl
    · simpa using (by simpa using hne : skips.takeWhile (·.event ≤ len) = []).symm

theorem keptTimeSkips_ne_nil (skips : Option (List TimeSkip)) (len : ℕ) :
    keptTimeSkips skips len ≠ some [] := by
  intro h
  have := (Option.filter_eq_some_iff.mp h).2
  simp at this

theorem checkTimeSkips_eq_ok : record.checkTimeSkips = .ok () ↔
      (∀ skip ∈ record.timeSkips.getD [], skip.target ≠ LogicalTime.max) ∧
        record.timeSkips ≠ some [] := by
  unfold checkTimeSkips
  split
  next skip hfnd =>
    simp only [reduceCtorEq, false_iff]
    rintro ⟨hdefi, -⟩
    have hmax := find?_some hfnd
    exact hdefi skip (mem_of_find?_eq_some hfnd) (of_decide_eq_true hmax)
  next hnone =>
    have hdefi : ∀ skip ∈ record.timeSkips.getD [], skip.target ≠ LogicalTime.max := by
      intro skip hmem hmax
      exact find?_eq_none.mp hnone skip hmem (decide_eq_true hmax)
    split_ifs with hemp
    · simp [hemp]
    · simp only [true_iff]
      exact ⟨hdefi, hemp⟩

theorem checkTimeSkipOrder_eq_ok : record.checkTimeSkipOrder = .ok () ↔
      ∀ pair ∈ (record.timeSkips.getD []).zip (record.timeSkips.getD []).tail,
        ¬ (pair.2.event < pair.1.event ∨ pair.2.target ≤ pair.1.target) := by
  unfold checkTimeSkipOrder
  dsimp only
  split
  next pair hfnd =>
    simp only [reduceCtorEq, false_iff]
    intro hordered
    have hbad := find?_some hfnd
    exact hordered pair (mem_of_find?_eq_some hfnd) (of_decide_eq_true hbad)
  next hnone =>
    simp only [true_iff]
    intro pair hmem hbad
    exact find?_eq_none.mp hnone pair hmem (decide_eq_true hbad)

theorem mem_zip_tail_append {α : Type*} {xs ys : List α} {pair : α × α}
    (h : pair ∈ xs.zip xs.tail) : pair ∈ (xs ++ ys).zip (xs ++ ys).tail := by
  induction xs with
  | nil => cases h
  | cons x xs ih =>
    cases xs with
    | nil => cases h
    | cons y xs =>
      rcases mem_cons.mp h with rfl | hmem
      · exact mem_cons_self
      · exact mem_cons_of_mem _ (ih hmem)

theorem Sound.cut_timeSkips (h : record.Sound) (len : ℕ)
    (starts : List BackgroundStart) (progress : DetTid → Option ℕ) :
    (record.cut len starts progress).checkTimeSkips = .ok () ∧
      (record.cut len starts progress).checkTimeSkipOrder = .ok () := by
  have hgetD : (record.cut len starts progress).timeSkips.getD [] =
      (record.timeSkips.getD []).takeWhile (·.event ≤ len) := keptTimeSkips_getD _ _
  constructor
  · refine checkTimeSkips_eq_ok.mpr ⟨fun skip hmem => ?_, keptTimeSkips_ne_nil _ _⟩
    rw [hgetD] at hmem
    exact (checkTimeSkips_eq_ok.mp h.skips).1 skip (takeWhile_subset _ hmem)
  · refine checkTimeSkipOrder_eq_ok.mpr fun pair hmem => ?_
    obtain ⟨rest, hrest⟩ := takeWhile_prefix (l := record.timeSkips.getD []) (·.event ≤ len)
    rw [hgetD] at hmem
    refine checkTimeSkipOrder_eq_ok.mp h.skipsOrdered pair ?_
    rw [← hrest]
    exact mem_zip_tail_append hmem

theorem Sound.cut (h : record.Sound) {progress : DetTid → Option ℕ}
    (hrch : reached (record.global.take len) = some progress)
    (hstas : starts = [] ∨ starts = record.backgroundStarts ∧ record.global.length ≤ len) :
    (record.cut len starts progress).Sound := by
  obtain ⟨hskips, hordered⟩ := h.cut_timeSkips len starts progress
  have hwhole : starts ≠ [] →
      starts = record.backgroundStarts ∧ record.global.take len = record.global := by
    intro hne
    rcases hstas with hnil | ⟨hsame, hlen⟩
    · exact absurd hnil hne
    · exact ⟨hsame, take_of_length_le hlen⟩
  exact { h with
    starts := by
      by_cases hne : starts = []
      · exact checkBackgroundStarts_nil hne
      · obtain ⟨hsame, htake⟩ := hwhole hne
        have hkept := h.starts
        simp only [PreemptionRecord.cut, hsame, htake]
        exact hkept
    unnoted := by
      intro hunno
      obtain ⟨hnil, hsix⟩ := h.unnoted hunno
      refine ⟨?_, hsix⟩
      by_contra hne
      exact hne ((hwhole hne).1.trans hnil)
    noted := fun hne => h.noted ((hwhole hne).1 ▸ hne)
    rejoins := by
      have hrejo := h.rejoins
      simp only [PreemptionRecord.cut]
      split_ifs
      · rfl
      · exact hrejo
    rowsAlone := by
      intro halone
      show record.global.take len = []
      rw [h.rowsAlone halone, take_nil]
    checkpoints := h.cut_checkpoints hrch
    skips := hskips
    marks := fun event hmem => h.marks event (mem_of_mem_take hmem)
    skipsListed := by
      intro hne
      refine h.skipsListed fun hnil => hne ?_
      show (keptTimeSkips record.timeSkips len).getD [] = []
      rw [keptTimeSkips_getD, hnil]
      rfl
    skipsOrdered := hordered }

theorem Sound.schedulePrefix {shorter : PreemptionRecord} (h : record.Sound)
    (hshor : record.schedulePrefix len = some shorter) :
    shorter.Sound ∧ ∃ whole : PreemptionRecord, shorter = whole.forgetStoplessMarks := by
  rw [schedulePrefix_eq] at hshor
  obtain ⟨progress, hrch, rfl⟩ := Option.map_eq_some_iff.mp hshor
  refine ⟨Sound.forgetStoplessMarks ?_, _, rfl⟩
  split_ifs with hfoll
  · exact (h.cut hrch (.inl rfl)).forgetBackgroundStarts
  · exact h.cut hrch (.inr ⟨rfl, Nat.not_lt.mp hfoll⟩)

/-- From a record that validates every editor makes one that does, except for a prefix with a mark
    it may not hold: that is refused for it, and the mark hides a slice end. There is no prefix
    where the progress of a thread overflows. -/
theorem editors_keep_valid (record : PreemptionRecord) (hvalid : record.validate = .ok ()) :
    record.stripContents.validate = .ok () ∧ record.preemptionsOnly.validate = .ok () ∧
      record.clonePreemptionsOnly.validate = .ok () ∧
      record.withCurrentFormat.validate = .ok () ∧
      ∀ len, (record.schedulePrefix len = none ∧
          ∃ tid, u64Max < progressOf tid (record.global.take len)) ∨
        ∃ shorter, record.schedulePrefix len = some shorter ∧ (shorter.validate = .ok () ∨
            shorter.validate = shorter.stoplessLoweringRefusal ∧ HidesSliceEnd shorter.global) := by
  obtain ⟨h, hrefu⟩ := validate_eq_ok_iff.mp hvalid
  refine ⟨validate_stripContents h, validate_preemptionsOnly h, validate_clonePreemptionsOnly h,
    validate_withCurrentFormat h hrefu, fun len => ?_⟩
  cases hshor : record.schedulePrefix len with
  | none =>
    refine .inl ⟨rfl, ?_⟩
    have hspec := reached_spec (record.global.take len)
    rw [schedulePrefix_eq, Option.map_eq_none_iff] at hshor
    rw [hshor] at hspec
    exact hspec
  | some shorter =>
    refine .inr ⟨shorter, rfl, ?_⟩
    obtain ⟨hsound, whole, rfl⟩ := h.schedulePrefix hshor
    by_cases hok : whole.forgetStoplessMarks.stoplessLoweringRefusal = .ok ()
    · exact .inl (hsound.validate_eq.trans hok)
    · exact .inr ⟨hsound.validate_eq, hidesSliceEnd_of_refused hok⟩

/-- A slice of thread 3 that ended without a stop, and two calls after it. -/
def stoplessSlice : PreemptionRecord :=
  { formatVersion := some 5
    global := [{ dettid := 3, op := .branch, count := 5, stopless := true },
      { dettid := 3, op := .syscall ⟨0⟩ .prehook, count := 1 },
      { dettid := 3, op := .syscall ⟨0⟩ .posthook, count := 1 }] }

/-- The prefix up to the first call has no format for the mark, which only the call needs. -/
theorem editors_keep_valid_stopless : stoplessSlice.validate = .ok () ∧
    ∃ shorter, stoplessSlice.schedulePrefix 2 = some shorter ∧
      shorter.validate = .error (.stoplessBelowFormat (some 3) 1) ∧
      HidesSliceEnd shorter.global := by
  have hvalid : stoplessSlice.validate = .ok () := by decide +kernel
  obtain ⟨-, -, -, -, hshor⟩ := editors_keep_valid stoplessSlice hvalid
  refine ⟨hvalid, ?_⟩
  have href : (stoplessSlice.schedulePrefix 2).map validate =
      some (.error (.stoplessBelowFormat (some 3) 1)) := by decide +kernel
  rcases hshor 2 with ⟨hnone, -⟩ | ⟨shorter, hsome, hor⟩
  · rw [hnone] at href
    cases href
  · rw [hsome] at href
    have href := Option.some.inj href
    rw [href] at hor
    exact ⟨shorter, hsome, href, (hor.resolve_left (by simp)).2⟩

end PreemptionRecord

end Hermit.Preemptions
