import Hermit.Common.Keyed
import Hermit.Scheduler.Replayer

/-!
# Where the recorded background starts are

Over every sequence of observed events and taken starts, a recorded background start is in
exactly one place: taken, passed, due, or not yet due.

* `Accounted.observeEvent`, `Accounted.take`: the two calls keep it.
* `background_starts_accounted`
-/

namespace Hermit

open Common OrdMap List

def UntakenStart.start (untaken : UntakenStart) : BackgroundStart :=
  ⟨untaken.after, untaken.thread, untaken.call⟩

/-! ## The starts of one key -/

/-- A thread and call recorded after `after` events. -/
def startAt (after : ℕ) (start : DetTid × ℕ) : BackgroundStart := ⟨after, start.1, start.2⟩

def startsOf (entries : List (ℕ × List (DetTid × ℕ))) : List BackgroundStart :=
  entries.flatMap fun entry => entry.2.map (startAt entry.1)

theorem ofKey_map_startAt (after after' : ℕ) (calls : List (DetTid × ℕ)) :
    ofKey BackgroundStart.after after (calls.map (startAt after'))
      = if after' = after then calls.map (startAt after') else [] := by
  have haft : ∀ start ∈ calls.map (startAt after'), start.after = after' := by
    intro start hsta
    obtain ⟨call, -, rfl⟩ := mem_map.mp hsta
    rfl
  split_ifs with heq
  · exact filter_eq_self.mpr fun start hsta => by simpa using (haft start hsta).trans heq
  · exact filter_eq_nil_iff.mpr fun start hsta => by simpa [haft start hsta] using heq

theorem startsOf_cons (entry : ℕ × List (DetTid × ℕ)) (entries : List (ℕ × List (DetTid × ℕ))) :
    startsOf (entry :: entries) = entry.2.map (startAt entry.1) ++ startsOf entries := rfl

theorem ofKey_startsOf_eq_nil {entries : List (ℕ × List (DetTid × ℕ))} {after : ℕ}
    (h : ∀ entry ∈ entries, entry.1 ≠ after) :
    ofKey BackgroundStart.after after (startsOf entries) = [] := by
  induction entries with
  | nil => rfl
  | cons entry entries ih =>
    rw [startsOf_cons, ofKey_append, ofKey_map_startAt, if_neg (h entry mem_cons_self),
      ih fun e he => h e (mem_cons_of_mem _ he), nil_append]

theorem ofKey_startsOf_of_mem {entries : List (ℕ × List (DetTid × ℕ))}
    (hsort : entries.Pairwise fun a b => a.1 < b.1) {after : ℕ} {calls : List (DetTid × ℕ)}
    (h : (after, calls) ∈ entries) :
    ofKey BackgroundStart.after after (startsOf entries) = calls.map (startAt after) := by
  induction entries with
  | nil => exact absurd h not_mem_nil
  | cons entry entries ih =>
    obtain ⟨hlt, hsort⟩ := pairwise_cons.mp hsort
    rw [startsOf_cons, ofKey_append, ofKey_map_startAt]
    rcases mem_cons.mp h with rfl | hrest
    · rw [if_pos rfl, ofKey_startsOf_eq_nil fun e he => (hlt e he).ne', append_nil]
    · rw [if_neg (hlt _ hrest).ne, ih hsort hrest, nil_append]

theorem ofKey_startsOf_filter (starts : OrdMap ℕ (List (DetTid × ℕ))) (p : ℕ → Bool) (after : ℕ) :
    ofKey BackgroundStart.after after (startsOf (starts.toList.filter fun entry => p entry.1))
      = if p after then (starts[after]?.getD []).map (startAt after) else [] := by
  by_cases hp : p after
  · rw [if_pos hp]
    cases hent : starts[after]? with
    | none =>
      refine ofKey_startsOf_eq_nil fun entry hmem heq => ?_
      have hin := (mem_toList starts entry.1 entry.2).mp (mem_filter.mp hmem).1
      rw [heq, hent] at hin
      cases hin
    | some calls =>
      exact ofKey_startsOf_of_mem ((pairwise_toList starts).filter _)
        (mem_filter.mpr ⟨(mem_toList starts after calls).mpr hent, hp⟩)
  · rw [if_neg hp]
    refine ofKey_startsOf_eq_nil fun entry hmem heq => hp ?_
    rw [← heq]
    exact (mem_filter.mp hmem).2

/-! ## Accounting -/

def Replayer.notYetDue (r : Replayer) (after : ℕ) : List BackgroundStart :=
  (r.backgroundStarts[after]?.getD []).map (startAt after)

/-- The starts of each key: those taken, those passed, those due, and those not yet due. -/
def InPlaces (starts taken : List BackgroundStart) (r : Replayer) : Prop :=
  ∀ after, ofKey BackgroundStart.after after starts = ofKey BackgroundStart.after after taken ++
      (ofKey BackgroundStart.after after (r.passedStarts.map UntakenStart.start) ++
        (ofKey BackgroundStart.after after r.pendingStarts ++ r.notYetDue after))

structure Accounted (starts taken : List BackgroundStart) (r : Replayer) : Prop where
  places : InPlaces starts taken r
  due : ∀ start ∈ r.pendingStarts, start.after = r.recordPosition
  waiting : ∀ after calls, r.backgroundStarts[after]? = some calls → r.recordPosition < after
  passed : ∀ start ∈ r.passedStarts, start.after ≤ r.recordPosition
  /-- No start is passed while others of the same key are due. -/
  passed_lt : r.pendingStarts ≠ [] → ∀ start ∈ r.passedStarts, start.after < r.recordPosition

structure OnSchedule (schedule : List SchedEvent) (r : Replayer) : Prop where
  position : r.release = none → r.recordPosition + r.cursor.length = schedule.length
  released : r.release ≠ none → r.cursor = []

/-- The two replayers agree on what the accounting reads. -/
structure SamePlaces (r r' : Replayer) : Prop where
  cursor : r'.cursor = r.cursor
  position : r'.recordPosition = r.recordPosition
  release : r'.release = r.release
  background : r'.backgroundStarts = r.backgroundStarts
  pending : r'.pendingStarts = r.pendingStarts
  passed : r'.passedStarts = r.passedStarts

theorem SamePlaces.trans {r r' r'' : Replayer} (h : SamePlaces r r') (h' : SamePlaces r' r'') :
    SamePlaces r r'' :=
  ⟨h'.cursor.trans h.cursor, h'.position.trans h.position, h'.release.trans h.release,
    h'.background.trans h.background, h'.pending.trans h.pending, h'.passed.trans h.passed⟩

section Steps

variable {schedule : List SchedEvent} {starts taken : List BackgroundStart} {r r' : Replayer}

theorem Accounted.of_same (h : Accounted starts taken r) (hsame : SamePlaces r r') :
    Accounted starts taken r' := by
  obtain ⟨-, hpos, -, hbg, hpend, hpass⟩ := hsame
  refine ⟨?_, ?_, ?_, ?_, ?_⟩
  · intro after
    rw [Replayer.notYetDue, hbg, hpend, hpass]
    exact h.places after
  · rw [hpend, hpos]
    exact h.due
  · rw [hbg, hpos]
    exact h.waiting
  · rw [hpass, hpos]
    exact h.passed
  · rw [hpass, hpos, hpend]
    exact h.passed_lt

theorem OnSchedule.of_same (h : OnSchedule schedule r) (hsame : SamePlaces r r') :
    OnSchedule schedule r' := by
  constructor
  · rw [hsame.release, hsame.position, hsame.cursor]
    exact h.position
  · rw [hsame.release, hsame.cursor]
    exact h.released

theorem samePlaces_count (r : Replayer) (thread : DetTid) (change : DesyncStats → DesyncStats) :
    SamePlaces r (r.count thread change) := ⟨rfl, rfl, rfl, rfl, rfl, rfl⟩

theorem samePlaces_countObserved (r : Replayer) (observed : SchedEvent) :
    SamePlaces r (r.countObserved observed) := by
  unfold Replayer.countObserved Replayer.noteSyscallInFlight
  simp only
  split <;> exact ⟨rfl, rfl, rfl, rfl, rfl, rfl⟩

theorem samePlaces_noteDesync (r : Replayer) (observed expected : SchedEvent) (currentIx : ℕ) :
    SamePlaces r (r.noteDesync observed expected currentIx) := by
  unfold Replayer.noteDesync
  split_ifs <;> exact ⟨rfl, rfl, rfl, rfl, rfl, rfl⟩

theorem samePlaces_decide (r : Replayer) (observed : SchedEvent) (inHardDesyncMode : Bool) :
    SamePlaces r (r.decide observed inHardDesyncMode).1 := by
  unfold Replayer.decide
  simp only
  split <;> exact ⟨rfl, rfl, rfl, rfl, rfl, rfl⟩

/-! ### Passing starts -/

theorem foldl_passStart (position : ReplayPosition) (passed : List BackgroundStart) :
    ∀ r : Replayer, ∃ counts, passed.foldl (Replayer.passStart position) r = { r with
        desyncCounts := counts
        passedStarts := r.passedStarts ++
          passed.map fun start => ⟨start.thread, start.call, start.after, some position⟩ } := by
  induction passed with
  | nil => exact fun r => ⟨r.desyncCounts, by simp⟩
  | cons start passed ih =>
    intro r
    obtain ⟨counts, hrest⟩ := ih (Replayer.passStart position r start)
    refine ⟨counts, ?_⟩
    rw [foldl_cons, hrest]
    simp [Replayer.passStart, Replayer.countHard, Replayer.count]

/-- The starts still due are passed before the next event. -/
theorem Accounted.passPending (h : Accounted starts taken r) (currentIx : ℕ) :
    Accounted starts taken (r.passPending currentIx) := by
  obtain ⟨counts, heq⟩ := foldl_passStart ⟨currentIx, r.recordPosition⟩ r.pendingStarts
    { r with pendingStarts := [] }
  rw [Replayer.passPending, heq]
  refine ⟨?_, ?_, h.waiting, ?_, ?_⟩
  · intro after
    have hmap : (r.pendingStarts.map fun start =>
        (⟨start.thread, start.call, start.after, some ⟨currentIx, r.recordPosition⟩⟩ :
          UntakenStart)).map UntakenStart.start = r.pendingStarts := by
      rw [map_map]
      exact map_id _
    simp only [map_append, hmap, ofKey_append, append_assoc]
    exact h.places after
  · exact fun start hsta => absurd hsta not_mem_nil
  · intro start hsta
    rcases mem_append.mp hsta with hold | hnew
    · exact h.passed start hold
    · obtain ⟨due, hdue, rfl⟩ := mem_map.mp hnew
      exact (h.due due hdue).le
  · exact fun hne => absurd rfl hne

/-- A pass leaves no start due, and the place in the schedule as it is. -/
theorem passPending_fields (r : Replayer) (currentIx : ℕ) :
    (r.passPending currentIx).pendingStarts = [] ∧ (r.passPending currentIx).cursor = r.cursor ∧
      (r.passPending currentIx).release = r.release ∧
      (r.passPending currentIx).recordPosition = r.recordPosition := by
  obtain ⟨counts, heq⟩ := foldl_passStart ⟨currentIx, r.recordPosition⟩ r.pendingStarts
    { r with pendingStarts := [] }
  rw [Replayer.passPending, heq]
  exact ⟨rfl, rfl, rfl, rfl⟩

/-! ### Starts skipped by a fast-forward -/

structure Retired (past : List ℕ) (r r' : Replayer) : Prop where
  cursor : r'.cursor = r.cursor
  position : r'.recordPosition = r.recordPosition
  release : r'.release = r.release
  pending : r'.pendingStarts = r.pendingStarts
  dieOnDesync : r'.dieOnDesync = r.dieOnDesync
  background : ∀ after : ℕ, r'.backgroundStarts[after]?
    = if after ∈ past then none else r.backgroundStarts[after]?
  passed : ∀ start ∈ r'.passedStarts, start ∈ r.passedStarts ∨ start.after ∈ past

theorem retired_nil (r : Replayer) : Retired [] r r :=
  ⟨rfl, rfl, rfl, rfl, rfl, fun _ => (if_neg not_mem_nil).symm, fun _ h => .inl h⟩

theorem Retired.snoc {past : List ℕ} (h : Retired past r r') (position : ReplayPosition) (key : ℕ) :
    Retired (past ++ [key]) r (Replayer.retireKey position r' key) := by
  obtain ⟨counts, heq⟩ := foldl_passStart position (r'.notYetDue key)
    { r' with backgroundStarts := r'.backgroundStarts.erase key }
  have hkey : Replayer.retireKey position r' key = _ := heq
  rw [hkey]
  refine ⟨h.cursor, h.position, h.release, h.pending, h.dieOnDesync, ?_, ?_⟩
  · intro after
    show (r'.backgroundStarts.erase key)[after]? = _
    rw [getElem?_erase_ite, h.background after]
    by_cases haft : key = after
    · simp [haft]
    · simp [haft, Ne.symm haft]
  · intro start hsta
    rcases mem_append.mp hsta with hold | hnew
    · exact (h.passed start hold).imp_right (mem_append_left _)
    · obtain ⟨due, hdue, rfl⟩ := mem_map.mp hnew
      obtain ⟨call, -, rfl⟩ := mem_map.mp hdue
      exact .inr (mem_append_right _ (mem_singleton.mpr rfl))

/-- The starts of a key go from those not yet due to those passed. -/
theorem InPlaces.retireKey (h : InPlaces starts taken r) (hpend : r.pendingStarts = [])
    (position : ReplayPosition) (key : ℕ) :
    InPlaces starts taken (Replayer.retireKey position r key) := by
  obtain ⟨counts, heq⟩ := foldl_passStart position (r.notYetDue key)
    { r with backgroundStarts := r.backgroundStarts.erase key }
  have hkey : Replayer.retireKey position r key = _ := heq
  have hmap : ((r.notYetDue key).map fun start =>
      (⟨start.thread, start.call, start.after, some position⟩ : UntakenStart)).map
        UntakenStart.start = r.notYetDue key := by
    rw [map_map]
    exact map_id _
  intro after
  rw [h after, hkey]
  simp only [map_append, hmap, ofKey_append, hpend]
  unfold Replayer.notYetDue
  rw [ofKey_map_startAt, getElem?_erase_ite]
  by_cases haft : key = after
  · simp [haft, ofKey]
  · simp [haft, ofKey]

theorem Accounted.retireSkippedStarts (h : Accounted starts taken r) (hpend : r.pendingStarts = [])
    (dropped event : ℕ) :
    Accounted starts taken (r.retireSkippedStarts dropped event).1 ∧
      (r.retireSkippedStarts dropped event).1.pendingStarts = [] ∧
      (r.retireSkippedStarts dropped event).1.cursor = r.cursor ∧
      (r.retireSkippedStarts dropped event).1.release = r.release ∧
      (r.retireSkippedStarts dropped event).1.recordPosition = r.recordPosition + dropped := by
  unfold Replayer.retireSkippedStarts
  simp only
  obtain ⟨past, hpast⟩ : ∃ past, r.backgroundStarts.keys.filter (fun after =>
    r.recordPosition + 1 ≤ after ∧ after ≤ r.recordPosition + dropped) = past := ⟨_, rfl⟩
  rw [hpast]
  -- one key after the other
  have hfold : Retired past r (past.foldl (Replayer.retireKey ⟨event, r.recordPosition⟩) r) ∧
      InPlaces starts taken (past.foldl (Replayer.retireKey ⟨event, r.recordPosition⟩) r) := by
    clear hpast
    induction past using reverseRecOn with
    | nil => exact ⟨retired_nil r, h.places⟩
    | append_singleton past key ih =>
      rw [foldl_concat]
      exact ⟨ih.1.snoc _ key, ih.2.retireKey (ih.1.pending.trans hpend) _ key⟩
  obtain ⟨hret, hplac⟩ := hfold
  have hmem : ∀ after ∈ past, after ≤ r.recordPosition + dropped := by
    intro after haft
    rw [← hpast, mem_filter] at haft
    simpa using (of_decide_eq_true haft.2).2
  have hpos : ∀ r' : Replayer, { r' with skipped := r'.skipped + dropped }.recordPosition
      = r'.recordPosition + dropped := fun r' => (Nat.add_assoc ..).symm
  refine ⟨⟨hplac, ?_, ?_, ?_, ?_⟩, hret.pending.trans hpend, hret.cursor,
    hret.release, by rw [hpos, hret.position]⟩
  · intro start hsta
    rw [hret.pending, hpend] at hsta
    exact absurd hsta not_mem_nil
  · intro after calls haft
    rw [hpos, hret.position]
    rw [hret.background after] at haft
    split_ifs at haft with hin
    have hlt := h.waiting after calls haft
    by_contra hle
    refine hin ?_
    rw [← hpast, mem_filter]
    refine ⟨(mem_keys _ _).mpr ⟨calls, haft⟩, ?_⟩
    exact decide_eq_true (by omega)
  · intro start hsta
    rw [hpos, hret.position]
    rcases hret.passed start hsta with hold | hnew
    · exact (h.passed start hold).trans (Nat.le_add_right _ _)
    · exact hmem _ hnew
  · exact fun hne => absurd (hret.pending.trans hpend) hne

/-! ### Starts that come due -/

theorem takeWhile_eq_filter {α : Type*} {p : α → Bool} {l : List α}
    (h : l.Pairwise fun a b => p b → p a) : l.takeWhile p = l.filter p := by
  induction l with
  | nil => rfl
  | cons a l ih =>
    obtain ⟨ha, hl⟩ := pairwise_cons.mp h
    rw [takeWhile_cons, filter_cons]
    split_ifs with hp
    · rw [ih hl]
    · exact (filter_eq_nil_iff.mpr fun b hb hpb => hp (ha b hb hpb)).symm

theorem queueBackgroundStarts_spec (r : Replayer) :
    (∀ after : ℕ, r.queueBackgroundStarts.backgroundStarts[after]?
      = if after ≤ r.recordPosition then none else r.backgroundStarts[after]?) ∧
    ∃ due, r.queueBackgroundStarts.pendingStarts = r.pendingStarts ++ due ∧
      ∀ after, ofKey BackgroundStart.after after due
        = if after ≤ r.recordPosition then r.notYetDue after else [] := by
  have hflt : r.backgroundStarts.toList.takeWhile (fun entry => decide (entry.1 ≤ r.recordPosition))
      = r.backgroundStarts.toList.filter fun entry => decide (entry.1 ≤ r.recordPosition) := by
    refine takeWhile_eq_filter ((pairwise_toList _).imp fun {a b} hlt hle => ?_)
    exact decide_eq_true (hlt.le.trans (of_decide_eq_true hle))
  unfold Replayer.queueBackgroundStarts
  simp only [hflt]
  constructor
  · intro after
    rw [getElem?_foldl_erase]
    by_cases hle : after ≤ r.recordPosition
    · rw [if_pos hle]
      split_ifs with hin
      · rfl
      · -- nothing is recorded at a key that is not listed
        rw [Option.eq_none_iff_forall_ne_some]
        intro calls hcal
        refine hin ⟨(after, calls), mem_filter.mpr ⟨?_, decide_eq_true hle⟩, rfl⟩
        exact (mem_toList _ _ _).mpr hcal
    · rw [if_neg hle, if_neg]
      rintro ⟨entry, hmem, rfl⟩
      exact hle (of_decide_eq_true (mem_filter.mp hmem).2)
  · refine ⟨_, rfl, fun after => ?_⟩
    have hstas :=
      ofKey_startsOf_filter r.backgroundStarts (fun key => decide (key ≤ r.recordPosition)) after
    simp only [decide_eq_true_eq] at hstas
    exact hstas

theorem InPlaces.queueBackgroundStarts (h : InPlaces starts taken r) :
    InPlaces starts taken r.queueBackgroundStarts := by
  obtain ⟨hbg, due, hpend, hdue⟩ := queueBackgroundStarts_spec r
  intro after
  rw [h after, hpend, ofKey_append, hdue, Replayer.notYetDue, Replayer.notYetDue, hbg]
  show _ = _ ++ (ofKey _ after (r.passedStarts.map UntakenStart.start) ++ _)
  split_ifs
  · simp
  · simp

/-- One recorded event is consumed, and the starts recorded after it come due. -/
theorem Accounted.consume (h : Accounted starts taken r) (hpend : r.pendingStarts = []) :
    Accounted starts taken r.consume := by
  obtain ⟨hbg, due, hdue, hkeys⟩ := queueBackgroundStarts_spec { r with
      lastConsumed := some (r.scheduleLen - r.cursor.length)
      eventsPopped := r.eventsPopped + 1
      cursor := r.cursor.tail }
  have hpos : r.consume.recordPosition = r.recordPosition + 1 := Nat.add_right_comm ..
  have hplac : InPlaces starts taken { r with
        lastConsumed := some (r.scheduleLen - r.cursor.length)
        eventsPopped := r.eventsPopped + 1
        cursor := r.cursor.tail } := h.places
  refine ⟨hplac.queueBackgroundStarts, ?_, ?_, ?_, ?_⟩
  · intro start hsta
    rw [hpos]
    have hmem : start ∈ due := by
      have hin : start ∈ r.pendingStarts ++ due := hdue ▸ hsta
      rwa [hpend] at hin
    -- all keys were past the position, so that those due are just past it
    have hkey : start ∈ ofKey BackgroundStart.after start.after due := mem_ofKey.mpr ⟨hmem, rfl⟩
    rw [hkeys] at hkey
    split_ifs at hkey with hle
    · obtain ⟨call, hcall, -⟩ := mem_map.mp hkey
      cases hent : r.backgroundStarts[start.after]? with
      | none => simp [hent] at hcall
      | some calls =>
        have hlt := h.waiting _ _ hent
        have hle : start.after ≤ r.eventsPopped + 1 + r.skipped := hle
        unfold Replayer.recordPosition at hlt ⊢
        omega
    · exact absurd hkey not_mem_nil
  · intro after calls haft
    rw [hpos]
    have haft := (hbg after).symm.trans haft
    split_ifs at haft with hle
    have hle : ¬ after ≤ r.eventsPopped + 1 + r.skipped := hle
    unfold Replayer.recordPosition
    omega
  · intro start hsta
    rw [hpos]
    exact (h.passed start hsta).trans (Nat.le_succ _)
  · intro _ start hsta
    rw [hpos]
    exact Nat.lt_succ_of_le (h.passed start hsta)

/-! ### Observing an event -/

structure Kept (schedule : List SchedEvent) (starts taken : List BackgroundStart)
    (r r' : Replayer) : Prop where
  accounted : Accounted starts taken r'
  onSchedule : OnSchedule schedule r'
  release : r'.release = r.release ∨ ∃ event, r'.release = some ⟨event, r.cursor.length⟩

theorem Kept.of_same {r'' : Replayer} (h : Kept schedule starts taken r' r'')
    (hsame : SamePlaces r r') : Kept schedule starts taken r r'' := by
  obtain ⟨hacco, hsch, hrel⟩ := h
  rw [hsame.release, hsame.cursor] at hrel
  exact ⟨hacco, hsch, hrel⟩

theorem OnSchedule.consume (h : OnSchedule schedule r) (hcur : r.cursor ≠ []) :
    OnSchedule schedule r.consume := by
  have hrel : r.release = none := by
    by_contra hne
    exact hcur (h.released hne)
  refine ⟨fun _ => ?_, fun hne => absurd hrel hne⟩
  have hpos : r.consume.recordPosition = r.recordPosition + 1 := Nat.add_right_comm ..
  have htail : r.consume.cursor = r.cursor.tail := rfl
  have hlen := length_pos_of_ne_nil hcur
  have := h.position hrel
  rw [hpos, htail, length_tail]
  omega

theorem kept_consume (h : Accounted starts taken r) (hpend : r.pendingStarts = [])
    (hsch : OnSchedule schedule r) (hcur : r.cursor ≠ []) (observed : SchedEvent) :
    Kept schedule starts taken r (r.consume.decide observed false).1 := by
  have hsame := samePlaces_decide r.consume observed false
  exact ⟨(h.consume hpend).of_same hsame, (hsch.consume hcur).of_same hsame, .inl hsame.release⟩

theorem kept_leaveUnmatched (h : Accounted starts taken r) (hsch : OnSchedule schedule r)
    (observed : SchedEvent) (nonPollingIx : ℕ) :
    Kept schedule starts taken r (r.leaveUnmatched observed nonPollingIx).1 := by
  unfold Replayer.leaveUnmatched
  simp only
  split_ifs
  · have hsame := samePlaces_decide r observed true
    exact ⟨h.of_same hsame, hsch.of_same hsame, .inl hsame.release⟩
  · -- the rest of the schedule is dropped
    refine ⟨⟨h.places, h.due, h.waiting, h.passed, h.passed_lt⟩, ⟨?_, fun _ => rfl⟩,
      .inr ⟨nonPollingIx, rfl⟩⟩
    exact fun hnone => absurd hnone (Option.some_ne_none _)
  · have hcoun : SamePlaces r { r with unmatchedRun := r.unmatchedRun + 1 } :=
      ⟨rfl, rfl, rfl, rfl, rfl, rfl⟩
    have hsame := hcoun.trans (samePlaces_decide _ observed true)
    exact ⟨h.of_same hsame, hsch.of_same hsame, .inl hsame.release⟩

theorem checkFastForward_eq_some {observed : SchedEvent} {ix : ℕ}
    (h : r.checkFastForward observed = some (r', ix)) :
    ix < r.cursor.length ∧ ∃ change, r' = { r.count observed.dettid change with
      cursor := r.cursor.drop ix } := by
  obtain ⟨ix', hfind, heq⟩ := Option.map_eq_some_iff.mp h
  obtain ⟨rfl, rfl⟩ := Prod.mk.inj heq
  obtain ⟨hlt, -⟩ := findIdx?_eq_some_iff_getElem.mp hfind
  exact ⟨hlt.trans_le (length_take_le' ..), _, rfl⟩

theorem kept_resync (h : Accounted starts taken r) (hpend : r.pendingStarts = [])
    (hsch : OnSchedule schedule r) (hcur : r.cursor ≠ []) (observed : SchedEvent)
    (hard : Bool) (currentIx nonPollingIx : ℕ) :
    Kept schedule starts taken r (r.resync observed hard currentIx nonPollingIx).1 := by
  unfold Replayer.resync
  split
  · rename_i r' ix hfwd
    obtain ⟨hix, change, rfl⟩ := checkFastForward_eq_some hfwd
    simp only
    -- the events are dropped first, then the position moves past them
    generalize hdrop : Replayer.count _ _ _ = dropped
    have hplac : Accounted starts taken dropped := by
      subst hdrop
      exact ⟨h.places, h.due, h.waiting, h.passed, h.passed_lt⟩
    have hfiel : dropped.pendingStarts = [] ∧ dropped.cursor = r.cursor.drop ix ∧
        dropped.release = r.release ∧ dropped.recordPosition = r.recordPosition := by
      subst hdrop
      exact ⟨hpend, rfl, rfl, rfl⟩
    obtain ⟨hpend', hcur', hrel', hpos'⟩ := hfiel
    obtain ⟨hacco, hpend'', hcur'', hrel'', hpos''⟩ :=
      hplac.retireSkippedStarts hpend' ix currentIx
    generalize (dropped.retireSkippedStarts ix currentIx).2 = retired
    generalize (dropped.retireSkippedStarts ix currentIx).1 = forward at *
    have hleft : forward.cursor = r.cursor.drop ix := hcur''.trans hcur'
    have hne : forward.cursor ≠ [] := by
      rw [hleft, ne_eq, drop_eq_nil_iff]
      omega
    have hfwd : OnSchedule schedule forward := by
      refine ⟨fun hnone => ?_, fun hsome => ?_⟩
      · rw [hrel'', hrel'] at hnone
        have := hsch.position hnone
        rw [hpos'', hpos', hleft, length_drop]
        omega
      · rw [hrel'', hrel'] at hsome
        exact absurd (hsch.released hsome) hcur
    split_ifs
    · exact ⟨hacco, hfwd, .inl (hrel''.trans hrel')⟩
    · obtain ⟨hkept, hon, -⟩ := kept_consume hacco hpend'' hfwd hne observed
      have hsame := (samePlaces_decide forward.consume observed false).release
      exact ⟨hkept, hon, .inl (hsame.trans (hrel''.trans hrel'))⟩
  · split_ifs
    · exact kept_leaveUnmatched h hsch observed nonPollingIx
    · exact kept_consume h hpend hsch hcur observed

theorem kept_follow (h : Accounted starts taken r) (hpend : r.pendingStarts = [])
    (hsch : OnSchedule schedule r) (hcur : r.cursor ≠ []) (observed expected : SchedEvent)
    (currentIx nonPollingIx : ℕ) :
    Kept schedule starts taken r (r.follow observed expected currentIx nonPollingIx).1 := by
  -- the counts do not move anything
  have hresy : ∀ r', SamePlaces r r' → ∀ hard,
      Kept schedule starts taken r (r'.resync observed hard currentIx nonPollingIx).1 := by
    intro r' hsame hard
    refine Kept.of_same ?_ hsame
    exact kept_resync (h.of_same hsame) (hsame.pending.trans hpend) (hsch.of_same hsame)
      (fun heq => hcur (hsame.cursor ▸ heq)) observed hard currentIx nonPollingIx
  have hnoted := (samePlaces_noteDesync r observed expected currentIx).trans
    (samePlaces_count _ observed.dettid id)
  unfold Replayer.follow
  simp only
  split_ifs
  · exact ⟨h.of_same hnoted, hsch.of_same hnoted, .inl hnoted.release⟩
  · exact hresy _ ((hnoted.trans (samePlaces_count ..)).trans (samePlaces_count ..)) true
  · exact hresy _ ((hnoted.trans (samePlaces_count ..)).trans (samePlaces_count ..)) false
  · have hsame : SamePlaces r (r.countsNextRound observed.dettid false) := samePlaces_count ..
    refine Kept.of_same ?_ hsame
    exact kept_consume (h.of_same hsame) hpend (hsch.of_same hsame) hcur observed

theorem kept_observeEvent (h : Accounted starts taken r) (hsch : OnSchedule schedule r)
    (observed : SchedEvent) : Kept schedule starts taken r (r.observeEvent observed).1 := by
  have hcoun := samePlaces_countObserved r observed
  obtain ⟨hpend, hcur, hrel, hpos⟩ :=
    passPending_fields (r.countObserved observed) r.tracedEventCount
  have hpass := (h.of_same hcoun).passPending r.tracedEventCount
  unfold Replayer.observeEvent
  simp only
  generalize (r.countObserved observed).passPending r.tracedEventCount = passed at *
  rw [hcoun.cursor] at hcur
  rw [hcoun.release] at hrel
  rw [hcoun.position] at hpos
  have hon : OnSchedule schedule passed := by
    constructor
    · rw [hrel, hpos, hcur]
      exact hsch.position
    · rw [hrel, hcur]
      exact hsch.released
  have hstay : Kept schedule starts taken r passed := ⟨hpass, hon, .inl hrel⟩
  by_cases hdie : r.pendingStarts ≠ [] ∧ passed.dieOnDesync = true
  · rw [if_pos hdie]
    exact hstay
  · rw [if_neg hdie]
    cases hhead : passed.cursor.head? with
    | none =>
      split_ifs <;> exact hstay
    | some expected =>
      have hne : passed.cursor ≠ [] := by
        intro hnil
        rw [hnil] at hhead
        cases hhead
      obtain ⟨hkept, hkeptOn, hkep⟩ := kept_follow hpass hpend hon hne observed
        expected r.tracedEventCount r.observedNonPolling
      rw [hrel, hcur] at hkep
      exact ⟨hkept, hkeptOn, hkep⟩

/-! ### Taking a start -/

theorem exists_of_pendingBackgroundStart {thread : DetTid} {call : ℕ}
    (h : r.pendingBackgroundStart = some (thread, call)) :
    ∃ start rest, r.pendingStarts = start :: rest ∧ start.thread = thread ∧ start.call = call := by
  unfold Replayer.pendingBackgroundStart at h
  split_ifs at h
  cases hcases : r.pendingStarts with
  | nil => simp [hcases] at h
  | cons start rest =>
    simp only [hcases, head?_cons, Option.map_some, Option.some.injEq, Prod.mk.injEq] at h
    exact ⟨start, rest, rfl, h.1, h.2⟩

theorem Accounted.take (h : Accounted starts taken r) {start : BackgroundStart}
    {rest : List BackgroundStart} (hpend : r.pendingStarts = start :: rest) :
    Accounted starts (taken ++ [start]) { r with pendingStarts := rest } := by
  have hsta := h.due start (by simp [hpend])
  have hlt := h.passed_lt (by simp [hpend])
  refine ⟨fun after => ?_, fun due hdue => h.due due (by simp [hpend, hdue]), h.waiting,
    h.passed, fun _ => hlt⟩
  have hplac := h.places after
  rw [hpend] at hplac
  rw [hplac]
  show _ = _ ++ (_ ++ (ofKey _ after rest ++ r.notYetDue after))
  rw [ofKey_snoc, ofKey_cons]
  by_cases haft : start.after = after
  · -- none of the same key is passed yet
    have hnone : ofKey BackgroundStart.after after (r.passedStarts.map UntakenStart.start) = [] := by
      refine filter_eq_nil_iff.mpr fun passed hpass => ?_
      obtain ⟨untaken, hmem, rfl⟩ := mem_map.mp hpass
      have hne : untaken.start.after ≠ after := by
        rw [← haft, hsta]
        exact (hlt untaken hmem).ne
      simpa using hne
    rw [hnone]
    simp [haft]
  · simp [haft]

/-! ### The start of a replay -/

theorem getElem?_foldl_insert (starts : List BackgroundStart) (after : ℕ) :
    ∀ map : OrdMap ℕ (List (DetTid × ℕ)), ((starts.foldl (fun map start =>
          map.insert start.after (map[start.after]?.getD [] ++ [(start.thread, start.call)]))
          map)[after]?.getD []).map (startAt after)
        = (map[after]?.getD []).map (startAt after) ++ ofKey BackgroundStart.after after starts := by
  induction starts with
  | nil => simp [ofKey]
  | cons start starts ih =>
    intro map
    rw [foldl_cons, ih, ofKey_cons, getElem?_insert_ite]
    by_cases haft : start.after = after
    · subst haft
      simp [startAt]
    · simp [haft]

def Replayer.start (schedule : List SchedEvent) (starts : List BackgroundStart)
    (notesAll dieOnDesync replayExhaustedPanic : Bool) : Replayer :=
  { (Replayer.new schedule).withBackgroundStarts starts notesAll with
    dieOnDesync := dieOnDesync
    replayExhaustedPanic := replayExhaustedPanic }

theorem accounted_start (schedule : List SchedEvent) (starts : List BackgroundStart)
    (notesAll dieOnDesync replayExhaustedPanic : Bool) :
    Accounted starts [] (Replayer.start schedule starts notesAll dieOnDesync replayExhaustedPanic) ∧
      OnSchedule schedule
        (Replayer.start schedule starts notesAll dieOnDesync replayExhaustedPanic) := by
  obtain ⟨map, hmap⟩ : ∃ map : OrdMap ℕ (List (DetTid × ℕ)), starts.foldl (fun map start =>
        map.insert start.after (map[start.after]?.getD [] ++ [(start.thread, start.call)])) ∅ = map :=
    ⟨_, rfl⟩
  obtain ⟨hbg, due, hdue, hkeys⟩ := queueBackgroundStarts_spec
    { Replayer.new schedule with backgroundStarts := map, notesBackgroundStarts := notesAll }
  have hnotY : InPlaces starts []
      { Replayer.new schedule with backgroundStarts := map, notesBackgroundStarts := notesAll } := by
    intro after
    have hfold := getElem?_foldl_insert starts after ∅
    rw [hmap, Std.ExtTreeMap.getElem?_empty] at hfold
    exact hfold.symm
  have hsta : Replayer.start schedule starts notesAll dieOnDesync replayExhaustedPanic
      = { ({ Replayer.new schedule with
              backgroundStarts := map, notesBackgroundStarts := notesAll } : Replayer).queueBackgroundStarts with
          dieOnDesync := dieOnDesync, replayExhaustedPanic := replayExhaustedPanic } := by
    rw [← hmap]
    rfl
  rw [hsta]
  refine ⟨⟨hnotY.queueBackgroundStarts, ?_, ?_, ?_, ?_⟩, ?_⟩
  · intro start hmem
    have hmem : start ∈ due := by
      have hin : start ∈ [] ++ due := hdue ▸ hmem
      exact hin
    have hkey : start ∈ ofKey BackgroundStart.after start.after due := mem_ofKey.mpr ⟨hmem, rfl⟩
    rw [hkeys] at hkey
    split_ifs at hkey with hle
    · exact Nat.le_zero.mp hle
    · exact absurd hkey not_mem_nil
  · intro after calls haft
    have haft := (hbg after).symm.trans haft
    split_ifs at haft with hle
    exact not_le.mp hle
  · exact fun start hmem => absurd hmem not_mem_nil
  · exact fun _ start hmem => absurd hmem not_mem_nil
  · exact ⟨fun _ => Nat.zero_add _, fun hne => absurd rfl hne⟩

/-! ### The starts not taken -/

def recordOrder (starts : List BackgroundStart) : List BackgroundStart :=
  starts.insertionSort fun a b => a.after ≤ b.after

theorem Accounted.untaken_eq (h : Accounted starts taken r) :
    r.untakenBackgroundStarts.map UntakenStart.start = recordOrder (starts.diff taken) := by
  have hmap : r.untakenBackgroundStarts.map UntakenStart.start
      = recordOrder (r.passedStarts.map UntakenStart.start ++
        (r.pendingStarts ++ startsOf r.backgroundStarts.toList)) := by
    unfold Replayer.untakenBackgroundStarts recordOrder
    rw [map_insertionSort (fun a b : UntakenStart => a.after ≤ b.after)
      (fun a b : BackgroundStart => a.after ≤ b.after) _ _ fun _ _ _ _ => Iff.rfl]
    congr 1
    simp only [map_append, map_map, append_assoc, map_flatMap, startsOf]
    congr 2
    exact map_id _
  rw [hmap]
  refine eq_of_ofKey_eq (pairwise_insertionSort_key _) (pairwise_insertionSort_key _) fun after => ?_
  have hstas := ofKey_startsOf_filter r.backgroundStarts (fun _ => true) after
  rw [filter_true, if_pos rfl] at hstas
  unfold recordOrder
  rw [ofKey_insertionSort, ofKey_insertionSort, ofKey_append, ofKey_append, hstas, ofKey_diff,
    h.places after, append_diff_left]
  rfl

end Steps

/-! ## Runs -/

inductive ReplayCall
  | observe (event : SchedEvent)
  | take (thread : DetTid) (call : ℕ)

structure Replay where
  replayer : Replayer
  taken : List (BackgroundStart × ℕ) := []

namespace Replay

def step (s : Replay) : ReplayCall → Replay
  | .observe event => { s with replayer := (s.replayer.observeEvent event).1 }
  | .take thread call =>
    let (replayer, took) := s.replayer.takeBackgroundStart thread call
    { replayer := replayer
      taken := if took then
          s.taken ++ s.replayer.pendingStarts.head?.toList.map fun start =>
            (start, s.replayer.recordPosition)
        else s.taken }

def after (schedule : List SchedEvent) (starts : List BackgroundStart)
    (notesAll dieOnDesync replayExhaustedPanic : Bool) (calls : List ReplayCall) : Replay :=
  calls.foldl step
    { replayer := .start schedule starts notesAll dieOnDesync replayExhaustedPanic }

structure Sound (schedule : List SchedEvent) (starts : List BackgroundStart) (s : Replay) : Prop where
  accounted : Accounted starts (s.taken.map Prod.fst) s.replayer
  onSchedule : OnSchedule schedule s.replayer
  taken_at : ∀ entry ∈ s.taken, entry.2 = entry.1.after

theorem Sound.step {schedule : List SchedEvent} {starts : List BackgroundStart} {s : Replay}
    (h : Sound schedule starts s) (call : ReplayCall) : Sound schedule starts (s.step call) := by
  cases call with
  | observe event =>
    obtain ⟨hacco, hsch, -⟩ := kept_observeEvent h.accounted h.onSchedule event
    exact ⟨hacco, hsch, h.taken_at⟩
  | take thread call =>
    unfold Replay.step Replayer.takeBackgroundStart
    by_cases htake : s.replayer.pendingBackgroundStart = some (thread, call)
    · obtain ⟨start, rest, hpend, -, -⟩ := exists_of_pendingBackgroundStart htake
      simp only [if_pos htake, hpend, tail_cons, if_true, head?_cons,
        Option.toList_some, map_singleton]
      refine ⟨?_, ⟨h.onSchedule.position, h.onSchedule.released⟩, ?_⟩
      · rw [map_append, map_singleton]
        exact h.accounted.take hpend
      · intro entry hent
        rcases mem_append.mp hent with hold | hnew
        · exact h.taken_at entry hold
        · rw [mem_singleton.mp hnew]
          exact (h.accounted.due start (by simp [hpend])).symm
    · simp only [if_neg htake, Bool.false_eq_true, if_false]
      exact h

theorem sound_after (schedule : List SchedEvent) (starts : List BackgroundStart)
    (notesAll dieOnDesync replayExhaustedPanic : Bool) (calls : List ReplayCall) :
    Sound schedule starts
      (after schedule starts notesAll dieOnDesync replayExhaustedPanic calls) := by
  induction calls using reverseRecOn with
  | nil =>
    obtain ⟨hacco, hsch⟩ :=
      accounted_start schedule starts notesAll dieOnDesync replayExhaustedPanic
    exact ⟨hacco, hsch, fun entry hent => absurd hent not_mem_nil⟩
  | append_singleton calls call ih =>
    unfold after
    rw [foldl_concat]
    exact ih.step call

/-- After any calls, the starts recorded after each number of events are those taken, passed, due
    and not yet due, each in one place. The starts due are those recorded at the record position,
    the starts not yet due were recorded later and those passed no later; a start is taken only at
    the record position that it was recorded at; until a release the position and the events left make up the schedule, and a
    release reports the events left; and the starts not taken are listed in record order. -/
theorem background_starts_accounted (schedule : List SchedEvent) (starts : List BackgroundStart)
    (notesAll dieOnDesync replayExhaustedPanic : Bool) (calls : List ReplayCall) :
    let s := after schedule starts notesAll dieOnDesync replayExhaustedPanic calls
    (∀ key, ofKey BackgroundStart.after key starts
      = ofKey BackgroundStart.after key (s.taken.map Prod.fst) ++
        (ofKey BackgroundStart.after key (s.replayer.passedStarts.map UntakenStart.start) ++
          (ofKey BackgroundStart.after key s.replayer.pendingStarts ++ s.replayer.notYetDue key))) ∧
    (∀ start ∈ s.replayer.pendingStarts, start.after = s.replayer.recordPosition) ∧
    (∀ key, s.replayer.notYetDue key ≠ [] → s.replayer.recordPosition < key) ∧
    (∀ start ∈ s.replayer.passedStarts, start.after ≤ s.replayer.recordPosition) ∧
    (∀ entry ∈ s.taken, entry.2 = entry.1.after) ∧
    (s.replayer.release = none →
      s.replayer.recordPosition + s.replayer.cursor.length = schedule.length) ∧
    (s.replayer.release = none → ∀ call release, (s.step call).replayer.release = some release →
      release.unreplayed = s.replayer.cursor.length) ∧
    s.replayer.untakenBackgroundStarts.map UntakenStart.start
      = recordOrder (starts.diff (s.taken.map Prod.fst)) := by
  have hsound := sound_after schedule starts notesAll dieOnDesync replayExhaustedPanic calls
  intro s
  refine ⟨hsound.accounted.places, hsound.accounted.due, ?_, hsound.accounted.passed,
    hsound.taken_at, hsound.onSchedule.position, ?_, hsound.accounted.untaken_eq⟩
  · intro key hne
    cases hcalls : s.replayer.backgroundStarts[key]? with
    | none => exact absurd (by rw [Replayer.notYetDue, hcalls]; rfl) hne
    | some calls => exact hsound.accounted.waiting key calls hcalls
  intro hnone call release hrel
  cases call with
  | observe event =>
    obtain ⟨-, -, hsame | ⟨number, hsome⟩⟩ :=
      kept_observeEvent hsound.accounted hsound.onSchedule event
    · have hcont : some release = none := (hrel.symm.trans hsame).trans hnone
      cases hcont
    · cases hsome.symm.trans hrel
      rfl
  | take thread call =>
    have hkeep : (s.step (.take thread call)).replayer.release = s.replayer.release := by
      by_cases htake : s.replayer.pendingBackgroundStart = some (thread, call)
      · simp [Replay.step, Replayer.takeBackgroundStart, htake]
      · simp [Replay.step, Replayer.takeBackgroundStart, htake]
    rw [hkeep, hnone] at hrel
    cases hrel

/-- One event is replayed, and the start recorded after it is taken; the next is still to come. -/
theorem background_starts_accounted_taken :
    let s := after (replicate 2 ⟨3, .rdtsc, 1, none, none, none, false⟩) [⟨1, 3, 7⟩, ⟨2, 3, 8⟩]
      true true true [.observe ⟨3, .rdtsc, 1, none, none, none, false⟩, .take 3 7]
    s.taken = [(⟨1, 3, 7⟩, 1)] ∧
      s.replayer.untakenBackgroundStarts.map UntakenStart.start = [⟨2, 3, 8⟩] := by
  intro s
  have htaken : s.taken = [(⟨1, 3, 7⟩, 1)] := by decide +kernel
  obtain ⟨-, -, -, -, -, -, -, huntaken⟩ := background_starts_accounted
    (replicate 2 ⟨3, .rdtsc, 1, none, none, none, false⟩) [⟨1, 3, 7⟩, ⟨2, 3, 8⟩] true true true
    [.observe ⟨3, .rdtsc, 1, none, none, none, false⟩, .take 3 7]
  refine ⟨htaken, huntaken.trans ?_⟩
  rw [htaken]
  decide +kernel

end Replay

end Hermit
