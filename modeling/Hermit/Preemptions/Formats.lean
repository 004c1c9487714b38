import Hermit.Preemptions.Soundness

/-!
# Formats that are not read

A record that states a format this version does not read (0, 1 or one above the newest) is
refused by `validate_format`. The editors of a record lower and raise the format it states, but
keep one that is not read.

Two editors do not: `clone_preemptions_only` states no format for rows without instruction
offsets, whatever the record stated, and `with_format` states the format it is given.

Main results:

* `unread_format_stays_refused`, `clone_reads_unread_format`
-/

namespace Hermit.Preemptions

open Common Scheduler

namespace PreemptionRecord

/-- The record states a format that is not read. -/
def Unread (record : PreemptionRecord) : Prop := readsFormat record.formatVersion = false

variable {record result : PreemptionRecord}

theorem Unread.of_eq {edited : PreemptionRecord} (h : record.Unread)
    (heq : edited.formatVersion = record.formatVersion) : edited.Unread := by
  unfold Unread
  rw [heq]
  exact h

/-- A format that is not read is refused, if nothing else is. -/
theorem Unread.validateFormat_ne_ok (h : record.Unread) : record.validateFormat ≠ .ok () := by
  intro hok
  unfold validateFormat at hok
  simp only [bind_eq_ok] at hok
  obtain ⟨_, -, _, -, _, -, _, -, _, hfmt, -⟩ := hok
  unfold checkFormat at hfmt
  rw [if_pos (.inl (by rw [h]; exact Bool.false_ne_true))] at hfmt
  cases hfmt

theorem Unread.validate_ne_ok (h : record.Unread) : record.validate ≠ .ok () := by
  intro hok
  obtain ⟨_, -, hfmt⟩ := bind_eq_ok.mp hok
  exact h.validateFormat_ne_ok hfmt

/-! ## What the editors do to the format -/

theorem readsFormat_some {format : ℕ} :
    readsFormat (some format) = true ↔ 2 ≤ format ∧ format ≤ 6 := by
  show decide (2 ≤ format ∧ format ≤ 6) = true ↔ _
  exact decide_eq_true_iff

theorem formatWithoutBackgroundStarts_of_unread {format : Option ℕ}
    (h : readsFormat format = false) : formatWithoutBackgroundStarts format = format := by
  cases format with
  | none => rfl
  | some format =>
    have hnot : ¬ (4 ≤ format ∧ format ≤ 6) := by
      intro hrange
      rw [readsFormat_some.mpr ⟨by omega, by omega⟩] at h
      exact Bool.noConfusion h
    exact congrArg some (if_neg hnot)

theorem Unread.raiseFormat (h : record.Unread) (format : ℕ) :
    (record.raiseFormat format).Unread := by
  unfold Unread at h ⊢
  cases hfmt : record.formatVersion with
  | none =>
    rw [hfmt] at h
    exact Bool.noConfusion h
  | some stated =>
    rw [hfmt] at h
    have hkept : (record.raiseFormat format).formatVersion = some stated := by
      simp [PreemptionRecord.raiseFormat, hfmt, h]
    rw [hkept]
    exact h

theorem Unread.adoptOffsetsFormat (h : record.Unread) : record.adoptOffsetsFormat.Unread := by
  unfold PreemptionRecord.adoptOffsetsFormat
  split_ifs
  · exact h.raiseFormat _
  · exact h

@[simp] theorem forgetStoplessMarks_formatVersion (record : PreemptionRecord) :
    record.forgetStoplessMarks.formatVersion = record.formatVersion := by
  unfold forgetStoplessMarks
  split_ifs <;> rfl

section

variable (h : record.Unread)
include h

theorem Unread.forgetStoplessMarks :
    record.forgetStoplessMarks.Unread := h.of_eq record.forgetStoplessMarks_formatVersion

theorem Unread.forgetBackgroundStarts : record.forgetBackgroundStarts.Unread := by
  apply Unread.forgetStoplessMarks
  apply Unread.adoptOffsetsFormat
  exact h.of_eq (formatWithoutBackgroundStarts_of_unread h)

theorem Unread.forgetRunPoints : record.forgetRunPoints.Unread :=
  Unread.forgetBackgroundStarts (h.of_eq rfl)

theorem Unread.schedulePrefix {shorter : PreemptionRecord} {len : ℕ}
    (hshor : record.schedulePrefix len = some shorter) : shorter.Unread := by
  obtain ⟨reached, -, rfl⟩ := Option.map_eq_some_iff.mp hshor
  apply Unread.forgetStoplessMarks
  split_ifs
  · exact Unread.forgetBackgroundStarts (h.of_eq rfl)
  · exact h.of_eq rfl

theorem Unread.withSchedule (events : List SchedEvent) : record.withSchedule events = none := by
  have hedi : ({ record with global := events } : PreemptionRecord).forgetStoplessMarks.Unread :=
    Unread.forgetStoplessMarks (h.of_eq rfl)
  exact if_neg hedi.validate_ne_ok

theorem Unread.withTimeSkips (skips : List TimeSkip) : (record.withTimeSkips skips).Unread := by
  simp only [PreemptionRecord.withTimeSkips]
  split_ifs <;> first | exact Unread.raiseFormat (h.of_eq rfl) _ | exact h.of_eq rfl

theorem Unread.withCurrentFormat : record.withCurrentFormat.Unread := by
  unfold PreemptionRecord.withCurrentFormat
  rw [if_pos (by rw [h]; exact Bool.false_ne_true)]
  exact h

end

theorem unread_withFormat (record : PreemptionRecord) {format : Option ℕ}
    (h : readsFormat format = false) : (record.withFormat format).Unread := by
  apply Unread.forgetStoplessMarks
  apply Unread.adoptOffsetsFormat
  exact h

theorem Unread.stripContents (h : record.Unread) :
    record.stripContents.Unread := h.forgetRunPoints.of_eq rfl

theorem Unread.preemptionsOnly (h : record.Unread) : record.preemptionsOnly.Unread := by
  have hedi : ({ record.forgetRunPoints with global := [] } : PreemptionRecord).Unread :=
    h.forgetRunPoints.of_eq rfl
  simp only [PreemptionRecord.preemptionsOnly]
  rw [if_neg fun hread => by rw [hedi] at hread; exact Bool.noConfusion hread.2]
  exact hedi

/-- Both inputs of an interpolation are validated first. -/
theorem interpolateEvents_ne_ok {other : PreemptionRecord}
    {events : List SchedEvent} (h : record.Unread ∨ other.Unread) :
    record.interpolateEvents other events ≠ .ok result := by
  intro hok
  obtain ⟨_, hfirst, hok⟩ := bind_eq_ok.mp hok
  obtain ⟨_, hseco, -⟩ := bind_eq_ok.mp hok
  rcases h with h | h
  · exact h.validate_ne_ok (mapError_eq_ok.mp hfirst)
  · exact h.validate_ne_ok (mapError_eq_ok.mp hseco)

/-! ## What passes -/

/-- The record with a format stated, and raised for its rows. -/
def stating (record : PreemptionRecord) (format : Option ℕ) : PreemptionRecord :=
  ({ record with formatVersion := format, backgroundStartsUnnoted := false } :
    PreemptionRecord).adoptOffsetsFormat

/-- What `validate_format` asks besides the format when this one is given: jumps in time that are
    in order, not indefinite, no empty list, and listed in the format; and `stopless` marks that
    can stand or are forgotten. -/
def PassesIn (record : PreemptionRecord) (format : Option ℕ) : Prop :=
  let stated := record.stating format
  let marked := if stated.belowStoplessFormat then forgetVisibleMarks record.global
    else record.global
  record.checkTimeSkips = .ok () ∧ (∀ event ∈ marked, event.stoplessMarkRefusal = none) ∧
    ¬ (0 < stoplessCount marked ∧ stated.formatVersion.all (· < stoplessSliceEndsFormat)) ∧
    (record.timeSkips.getD [] ≠ [] → stated.listsItsTimeSkips) ∧ record.checkTimeSkipOrder = .ok ()

theorem validateFormat_eq_ok : record.validateFormat = .ok () ↔ record.checkTimeSkips = .ok () ∧
      record.checkOffsetsFormat = .ok () ∧ record.checkStoplessMarks = .ok () ∧
      record.checkStoplessFormat = .ok () ∧ record.checkFormat = .ok () ∧
      record.checkTimeSkipOrder = .ok () := by
  unfold validateFormat
  simp only [bind_eq_ok, Unique.exists_iff]

theorem checkStoplessFormat_eq_ok : record.checkStoplessFormat = .ok () ↔
      ¬ (0 < stoplessCount record.global ∧
        record.formatVersion.all (· < stoplessSliceEndsFormat)) := by
  unfold checkStoplessFormat
  split_ifs with h <;> simp [h]

theorem validateFormat_withFormat {format : Option ℕ} (hreads : readsFormat format) :
    (record.withFormat format).validateFormat = .ok () ↔ record.PassesIn format := by
  unfold PassesIn
  dsimp only
  obtain ⟨stated, hstated⟩ : ∃ stated, record.stating format = stated := ⟨_, rfl⟩
  have hformat : stated.timeSkips = record.timeSkips ∧ stated.global = record.global ∧
      readsFormat stated.formatVersion ∧
      (stated.rowsCarryInstructionOffsets → stated.formatVersion = some 6) := by
    subst hstated
    unfold stating adoptOffsetsFormat
    split_ifs with hrows
    · cases format with
      | none => exact ⟨rfl, rfl, rfl, fun _ => rfl⟩
      | some format =>
        simp [raiseFormat, hreads, instructionOffsetRowsFormat, (readsFormat_some.mp hreads).2]
        rfl
    · exact ⟨rfl, rfl, hreads, fun h => absurd h hrows⟩
  obtain ⟨hskips, hglob, hreads, hoffs⟩ := hformat
  have hoffsets := (checkOffsetsFormat_eq_ok hreads).mpr hoffs
  have hchecks : record.checkTimeSkips = stated.checkTimeSkips ∧
      record.checkTimeSkipOrder = stated.checkTimeSkipOrder := by
    simp only [checkTimeSkips, checkTimeSkipOrder, hskips, and_self]
  change (record.stating format).forgetStoplessMarks.validateFormat = _ ↔ _
  rw [hstated, forgetStoplessMarks, validateFormat_eq_ok, checkStoplessMarks_eq_ok,
    checkStoplessFormat_eq_ok, checkFormat_eq_ok, hchecks.1, hchecks.2, ← hskips, ← hglob]
  split_ifs <;>
    exact ⟨fun ⟨hskip, _, hmarks, hcount, hlist, hord⟩ => ⟨hskip, hmarks, hcount, hlist.2, hord⟩,
      fun ⟨hskip, hmarks, hcount, hlist, hord⟩ =>
        ⟨hskip, hoffsets, hmarks, hcount, ⟨hreads, hlist⟩, hord⟩⟩

/-- The rows alone pass in the format that they are copied with. -/
theorem validateFormat_clonePreemptionsOnly (record : PreemptionRecord) :
    record.clonePreemptionsOnly.validateFormat = .ok () := by
  have hreads : readsFormat record.clonePreemptionsOnly.formatVersion := by
    unfold clonePreemptionsOnly
    dsimp only
    split_ifs <;> rfl
  have hoffs := (checkOffsetsFormat_eq_ok hreads).mpr fun hrows => if_pos hrows
  exact validateFormat_eq_ok.mpr
    ⟨rfl, hoffs, rfl, rfl, checkFormat_eq_ok.mpr ⟨hreads, fun h => absurd rfl h⟩, rfl⟩

/-! ## Edits -/

inductive Edit
  | schedulePrefix (len : ℕ)
  | withSchedule (events : List SchedEvent)
  | withTimeSkips (skips : List TimeSkip)
  | withCurrentFormat
  | withFormat (format : Option ℕ)
  | stripContents
  | preemptionsOnly
  | clonePreemptionsOnly
  /-- `interpolate_events` with the record first, and then with it second -/
  | interpolateWith (other : PreemptionRecord) (events : List SchedEvent)
  | interpolateFrom (first : PreemptionRecord) (events : List SchedEvent)

def Edit.apply (record : PreemptionRecord) : Edit → Option PreemptionRecord
  | .schedulePrefix len => record.schedulePrefix len
  | .withSchedule events => record.withSchedule events
  | .withTimeSkips skips => some (record.withTimeSkips skips)
  | .withCurrentFormat => some record.withCurrentFormat
  | .withFormat format => some (record.withFormat format)
  | .stripContents => some record.stripContents
  | .preemptionsOnly => some record.preemptionsOnly
  | .clonePreemptionsOnly => some record.clonePreemptionsOnly
  | .interpolateWith other events => (record.interpolateEvents other events).toOption
  | .interpolateFrom first events => (first.interpolateEvents record events).toOption

def Edit.KeepsUnread : Edit → Prop
  | .clonePreemptionsOnly => False
  | .withFormat format => readsFormat format = false
  | _ => True

/-- After this edit a record whose format is not read is still refused. -/
def Edit.KeepsRefused (record : PreemptionRecord) : Edit → Prop
  | .clonePreemptionsOnly => False
  | .withFormat format => readsFormat format = false ∨ ¬ record.PassesIn format
  | _ => True

theorem Unread.apply (h : record.Unread) {edit : Edit}
    (hkeeps : edit.KeepsUnread) (hedit : edit.apply record = some result) : result.Unread := by
  -- an interpolation that gives a record has validated both inputs
  have hnone : ∀ {first second : PreemptionRecord} {events : List SchedEvent},
      first.Unread ∨ second.Unread →
      (first.interpolateEvents second events).toOption ≠ some result := by
    intro first second events hunread hsome
    cases hinte : first.interpolateEvents second events with
    | error e =>
      rw [hinte] at hsome
      cases hsome
    | ok mixed => exact interpolateEvents_ne_ok hunread hinte
  cases edit with
  | schedulePrefix len => exact h.schedulePrefix hedit
  | withSchedule events =>
    have href := h.withSchedule events
    rw [Edit.apply, href] at hedit
    cases hedit
  | withTimeSkips skips =>
    cases hedit
    exact h.withTimeSkips skips
  | withCurrentFormat =>
    cases hedit
    exact h.withCurrentFormat
  | withFormat format =>
    cases hedit
    exact unread_withFormat record hkeeps
  | stripContents =>
    cases hedit
    exact h.stripContents
  | preemptionsOnly =>
    cases hedit
    exact h.preemptionsOnly
  | clonePreemptionsOnly => exact hkeeps.elim
  | interpolateWith => exact absurd hedit (hnone (.inl h))
  | interpolateFrom => exact absurd hedit (hnone (.inr h))

theorem Unread.applyAll {edits : List Edit}
    (h : record.Unread) (hkeeps : ∀ edit ∈ edits, edit.KeepsUnread)
    (hedits : edits.foldlM Edit.apply record = some result) : result.Unread := by
  induction edits generalizing record with
  | nil =>
    cases hedits
    exact h
  | cons edit edits ih =>
    rw [List.foldlM_cons] at hedits
    obtain ⟨edited, hedit, hrest⟩ := Option.bind_eq_some_iff.mp hedits
    obtain ⟨hhead, htail⟩ := List.forall_mem_cons.mp hkeeps
    exact ih (h.apply hhead hedit) htail hrest

/-- A record that states a format which is not read is refused after an edit, unless the edit
    copies the rows alone, or sets a format that is read and in which all else passes. So it is
    after every sequence of edits that copies no rows alone and sets no format that is read. -/
theorem unread_format_stays_refused (record : PreemptionRecord)
    (hunread : readsFormat record.formatVersion = false) :
    (∀ edit result, Edit.apply record edit = some result →
      (result.validateFormat ≠ .ok () ↔ edit.KeepsRefused record)) ∧
    ∀ (edits : List Edit) (result : PreemptionRecord), (∀ edit ∈ edits, edit.KeepsUnread) →
      edits.foldlM Edit.apply record = some result → result.validateFormat ≠ .ok () := by
  refine ⟨fun edit result hedit => ?_, fun edits result hkeeps hedits =>
    (Unread.applyAll hunread hkeeps hedits).validateFormat_ne_ok⟩
  have hrefused := fun hkeeps : edit.KeepsUnread =>
    (Unread.apply hunread hkeeps hedit).validateFormat_ne_ok
  cases edit with
  | clonePreemptionsOnly =>
    cases hedit
    exact iff_of_false (not_not.mpr record.validateFormat_clonePreemptionsOnly) not_false
  | withFormat format =>
    cases hreads : readsFormat format with
    | false => exact iff_of_true (hrefused hreads) (.inl hreads)
    | true =>
      cases hedit
      simp [Edit.KeepsRefused, hreads, validateFormat_withFormat hreads]
  | _ => exact iff_of_true (hrefused trivial) trivial

/-- A record in format 7 whose mark hides a slice end stays refused in format 3. A prefix of an
    empty one, stripped, is refused as well. -/
theorem unread_format_stays_refused_seven :
    (({ formatVersion := some 7, global := [⟨3, .branch, 1, none, none, none, true⟩,
        ⟨3, .rdtsc, 1, none, none, none, false⟩] } : PreemptionRecord).withFormat (some 3)).validateFormat
      ≠ .ok () ∧
    (({ formatVersion := some 7 } : PreemptionRecord).stripContents).validateFormat ≠ .ok () :=
  ⟨((unread_format_stays_refused _ rfl).1 (.withFormat (some 3)) _ rfl).mpr
      (.inr fun hpasses => hpasses.2.2.1 (by decide)),
    (unread_format_stays_refused { formatVersion := some 7 } rfl).2
      [.schedulePrefix 0, .stripContents] _ (by simp [Edit.KeepsUnread]) rfl⟩

/-- A copy of the rows of a record in format 7 states no format, and validates. So does the record
    in a format that is read. -/
theorem clone_reads_unread_format :
    ∃ record : PreemptionRecord, readsFormat record.formatVersion = false ∧
      record.validateFormat ≠ .ok () ∧ record.clonePreemptionsOnly.validate = .ok () ∧
      (record.withFormat (some 3)).validate = .ok () :=
  ⟨{ formatVersion := some 7 }, by decide, by decide +kernel, by decide +kernel, by decide +kernel⟩

end PreemptionRecord

end Hermit.Preemptions
