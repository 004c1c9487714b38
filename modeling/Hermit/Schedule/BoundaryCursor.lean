import Hermit.Schedule.Boundary

/-!
# Replaying slice-boundary schedules

The cursor of `detcore-model/src/schedule/boundary.rs` accepts exactly the streams that
agree with the stored one.

* `cursor_accepts_iff`
-/

namespace Hermit.Boundary

open Common List

/-! ## Agreement -/

def Shows {α : Type} (stored observed : Option α) : Prop := ∀ v, stored = some v → observed = some v

/-- The observed record equals the stored one on all evidence that the stored one holds. -/
def Record.Agrees : Record → Record → Prop
  | .event e, .event o =>
    o.dettid = e.dettid ∧ o.op = e.op ∧ o.count = e.count ∧ o.stopless = e.stopless ∧
      Shows e.startRip o.startRip ∧ Shows e.endRip o.endRip ∧ Shows e.endTime o.endTime
  | .timesliceEnd e, .timesliceEnd o =>
    o.identity = e.identity ∧ o.count = e.count ∧
      Shows e.startRip o.startRip ∧ Shows e.endRip o.endRip ∧ Shows e.endTime o.endTime
  | _, _ => False

theorem shows_iff {α : Type} {stored observed : Option α} :
    Shows stored observed ↔ stored = if stored.isNone then none else observed := by
  unfold Shows
  cases stored with
  | none => simp
  | some v => simp [eq_comm]

theorem eq_comparable_iff (expected observed : Record) :
    expected = expected.comparable observed ↔ expected.Agrees observed := by
  cases expected with
  | event e =>
    cases observed with
    | event o =>
      obtain ⟨dettid, op, count, startRip, endRip, endTime, stopless⟩ := e
      simp only [Record.comparable, Record.Agrees, shows_iff, Record.event.injEq, SchedEvent.mk.injEq]
      tauto
    | timesliceEnd o => exact ⟨by rintro ⟨⟩, by rintro ⟨⟩⟩
  | timesliceEnd e =>
    cases observed with
    | event o => exact ⟨by rintro ⟨⟩, by rintro ⟨⟩⟩
    | timesliceEnd o =>
      obtain ⟨identity, count, startRip, endRip, endTime⟩ := e
      simp only [Record.comparable, Record.Agrees, shows_iff, Record.timesliceEnd.injEq,
        TimesliceEnd.mk.injEq]
      tauto

theorem checkObservation_eq_ok {expected observed : Record} {index : ℕ} :
    expected.checkObservation index observed = .ok () ↔ expected.Agrees observed := by
  rw [← eq_comparable_iff]
  unfold Record.checkObservation
  split_ifs with h
  · exact ⟨nofun, fun heq => absurd heq h⟩
  · exact ⟨fun _ => not_not.mp h, fun _ => rfl⟩

/-! ## The cursor -/

theorem observe_error {cursor : Cursor} {observed : Record} {e : Error}
    (h : (cursor.observe observed).1 = .error e) : (cursor.observe observed).2 = cursor := by
  unfold Cursor.observe at h ⊢
  split
  · rfl
  · split
    · rfl
    · rename_i hexpe _ hcheck
      simp [hexpe, hcheck] at h

theorem replay_cons {cursor cursor' : Cursor} {result : Except Error Unit} {first : Record}
    (h : cursor.observe first = (result, cursor')) (rest : List Record) :
    cursor.replay (first :: rest) = result >>= fun _ => cursor'.replay rest := by
  unfold Cursor.replay
  rw [Cursor.drive, h]
  cases result <;> rfl

theorem replay_eq_ok_iff : ∀ (observed : List Record) (cursor : Cursor),
    cursor.replay observed = .ok () ↔
      List.Forall₂ Record.Agrees (cursor.schedule.records.drop cursor.next) observed := by
  intro observed
  induction observed with
  | nil =>
    intro cursor
    rw [forall₂_nil_right_iff, drop_eq_nil_iff, ← Nat.sub_eq_zero_iff_le]
    show cursor.finish = .ok () ↔ _
    by_cases h : cursor.schedule.records.length - cursor.next = 0
    · exact ⟨fun _ => h, fun _ => if_pos h⟩
    · have hfinish : cursor.finish = .error _ := if_neg h
      rw [hfinish]
      exact ⟨nofun, fun hzero => absurd hzero h⟩
  | cons first rest ih =>
    intro cursor
    cases hexpe : cursor.expected with
    | none =>
      have hobse : cursor.observe first = (.error (.exhausted cursor.next first), cursor) := by
        unfold Cursor.observe
        rw [hexpe]
      rw [replay_cons hobse, List.drop_eq_nil_iff.mpr (List.getElem?_eq_none_iff.mp hexpe)]
      exact ⟨nofun, nofun⟩
    | some expected =>
      have hdrop : cursor.schedule.records.drop cursor.next =
          expected :: cursor.schedule.records.drop (cursor.next + 1) := by
        obtain ⟨hlt, rfl⟩ := List.getElem?_eq_some_iff.mp hexpe
        exact List.drop_eq_getElem_cons hlt
      rw [hdrop, List.forall₂_cons]
      cases hcheck : expected.checkObservation cursor.next first with
      | error e =>
        have hobse : cursor.observe first = (.error e, cursor) := by
          unfold Cursor.observe
          simp only [hexpe, hcheck]
        rw [replay_cons hobse, ← checkObservation_eq_ok, hcheck]
        exact ⟨nofun, fun h => nomatch h.1⟩
      | ok _ =>
        have hobse : cursor.observe first = (.ok (), { cursor with next := cursor.next + 1 }) := by
          unfold Cursor.observe
          simp only [hexpe, hcheck]
        rw [replay_cons hobse]
        exact (ih _).trans (iff_and_self.mpr fun _ => checkObservation_eq_ok.mp hcheck)

/-! ## Schedules without times -/

theorem validateRecord_stripTime (seen : Seen) (record : Record) (index : ℕ) :
    seen.validateRecord (record.stripTime, index) = seen.validateRecord (record, index) := by
  cases record <;> rfl

/-- The validator does not look at times. -/
theorem validateRecords_stripTimes (schedule : Schedule) :
    validateRecords schedule.stripTimes.records = validateRecords schedule.records := by
  unfold validateRecords Schedule.stripTimes
  have hstep : (fun (seen : Seen) (x : Record × ℕ) => seen.validateRecord (Prod.map Record.stripTime id x)) =
      Seen.validateRecord :=
    funext₂ fun seen x => validateRecord_stripTime seen x.1 x.2
  rw [zipIdx_map, foldlM_map, hstep]

theorem agrees_stripTime (record : Record) : record.stripTime.Agrees record := by
  cases record with
  | event e => exact ⟨rfl, rfl, rfl, rfl, fun _ h => h, fun _ h => h, nofun⟩
  | timesliceEnd e => exact ⟨rfl, rfl, fun _ h => h, fun _ h => h, nofun⟩

/-- The cursor of a valid schedule accepts a stream, to its end, when it has the length of
    the schedule and each observation agrees with the stored record. A refused observation
    does not advance it. Without its times the schedule stays valid, and its cursor accepts
    the original records. -/
theorem cursor_accepts_iff {schedule : Schedule} (hvalid : schedule.Valid) :
    (∀ observed, schedule.cursor.replay observed = .ok () ↔
      observed.length = schedule.records.length ∧
        ∀ (i : ℕ) stored seen, schedule.records[i]? = some stored → observed[i]? = some seen →
          stored.Agrees seen) ∧
    (∀ (cursor : Cursor) (observed : Record) e, (cursor.observe observed).1 = .error e →
      (cursor.observe observed).2 = cursor) ∧
    schedule.stripTimes.Valid ∧ schedule.stripTimes.cursor.replay schedule.records = .ok () := by
  refine ⟨fun observed => ?_, fun cursor observed e h => observe_error h, ?_, ?_⟩
  · rw [replay_eq_ok_iff, List.forall₂_iff_get]
    show schedule.records.length = _ ∧ _ ↔ _
    refine and_congr eq_comm ⟨fun h i stored seen hstor hseen => ?_, fun h i h₁ h₂ => ?_⟩
    · obtain ⟨h₁, rfl⟩ := List.getElem?_eq_some_iff.mp hstor
      obtain ⟨h₂, rfl⟩ := List.getElem?_eq_some_iff.mp hseen
      exact h i h₁ h₂
    · exact h i _ _ (List.getElem?_eq_getElem h₁) (List.getElem?_eq_getElem h₂)
  · exact (validateRecords_stripTimes schedule).trans hvalid
  · rw [replay_eq_ok_iff]
    show List.Forall₂ Record.Agrees (schedule.records.map Record.stripTime) schedule.records
    rw [forall₂_map_left_iff, forall₂_same]
    exact fun record _ => agrees_stripTime record

/-- An event with its time, and the end of the slice. -/
def timedSchedule : Schedule where
  records := [
    .event { dettid := 3, op := .branch, count := 83, endTime := some LogicalTime.zero },
    .timesliceEnd {
      identity := ⟨⟨3, 0, 3, 0, 3, 0⟩, .pmuTimer, .posthook, .pmuTimer, 83, 1, 1⟩
      count := 1
      startRip := none
      endRip := some 4096
      endTime := some LogicalTime.zero }]

theorem cursor_accepts_iff_timed : timedSchedule.Valid ∧
    timedSchedule.stripTimes.cursor.replay timedSchedule.records = .ok () ∧
    timedSchedule.cursor.replay timedSchedule.stripTimes.records ≠ .ok () := by
  have hvalid : timedSchedule.Valid := by
    unfold Schedule.Valid
    decide +kernel
  obtain ⟨hiff, -, -, hreplay⟩ := cursor_accepts_iff hvalid
  refine ⟨hvalid, hreplay, fun hok => ?_⟩
  -- the stored records hold times that the observed ones lack
  have hagr := ((hiff _).mp hok).2 0 _ _ rfl rfl
  exact nomatch hagr.2.2.2.2.2.2 LogicalTime.zero rfl

end Hermit.Boundary
