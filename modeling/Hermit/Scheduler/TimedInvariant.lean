import Hermit.Scheduler.TimedWaiters

/-!
# The invariant of the timed events

The time-ordered map and the timer records are updated separately, and stay in
agreement: the pending events of a timer are those that its record calls for.

* `insertSignalTimer_spec` and the lemmas after it: the operations on one timer
  succeed and replace its record.
-/

namespace Hermit.Scheduler

open Hermit.Common

namespace TimedEvents

variable {s s' : TimedEvents} {id : SignalTimerId} {t : LogicalTime}

def Pending (s : TimedEvents) (t : LogicalTime) (evt : TimedEvent) : Prop := evt ∈ s.map.slot t

/-- The records call for an expiration of the timer at `t`: the timer is active
    with this deadline, or it is the alarm of a process with this controlled
    deadline. -/
def Calls (s : TimedEvents) (id : SignalTimerId) (t : LogicalTime) (target : SignalTarget)
    (sig : TimerSignal) : Prop :=
  (∃ state, s.signalTimers[id]? = some state ∧ state.phase = .active ∧ state.deadline = t ∧
    state.target = target ∧ state.sig = sig) ∨
  ∃ pid, id = .alarm pid ∧ s.controlledRealTimerDeadlines[pid]? = some t ∧
    target = .process pid ∧ sig = .send .sigalrm

structure Sound (controlled : DetPid → Bool) (s : TimedEvents) : Prop where
  tidy : s.map.Tidy
  thread : ∀ t t' tid, Pending s t (.threadEvt tid) → Pending s t' (.threadEvt tid) → t = t'
  signal : ∀ (id : SignalTimerId) t target sig, id.isChildExit = false →
    (Pending s t (.signalEvt id target sig) ↔ Calls s id t target sig)
  childExit : ∀ id : SignalTimerId, id.isChildExit = true → s.signalTimers[id]? = none
  legacy : ∀ pid, controlled pid = true → s.signalTimers[SignalTimerId.alarm pid]? = none
  real : ∀ pid, controlled pid = false → s.controlledRealTimerDeadlines[pid]? = none

/-- What the callers promise: a thread event is inserted only for a thread with
    none pending, and a process uses either its legacy alarm or its controlled
    one. -/
def Proper (controlled : DetPid → Bool) (s : TimedEvents) : TimedOp → Prop
  | .insert _ dt => s.threadDeadline dt = none
  | .insertAlarm _ dp _ _ _ => controlled dp = false
  | .insertControlledRealTimerDeadline _ pid => controlled pid = true
  | _ => True

theorem sound_new (controlled : DetPid → Bool) : Sound controlled new := by
  have hslot : ∀ t evt, ¬ Pending new t evt := by
    intro t evt h
    unfold Pending new at h
    rw [Agenda.slot_empty] at h
    exact absurd h (Finset.notMem_empty _)
  refine ⟨Agenda.tidy_empty, ?_, ?_, ?_, ?_, ?_⟩
  · intro t t' tid h
    exact absurd h (hslot t _)
  · intro id t target sig _
    constructor
    · intro h
      exact absurd h (hslot t _)
    · rintro (⟨state, hst, -⟩ | ⟨pid, -, hpid, -⟩)
      · simp [new] at hst
      · simp [new] at hpid
  · intro id _
    simp [new]
  · intro pid _
    simp [new]
  · intro pid _
    simp [new]

/-! ## Clearing a timer -/

theorem Sound.calls_unique {controlled : DetPid → Bool} (hs : Sound controlled s)
    {target target' : SignalTarget} {sig sig' : TimerSignal} {t' : LogicalTime}
    (h : Calls s id t target sig) (h' : Calls s id t' target' sig') :
    t = t' ∧ target = target' ∧ sig = sig' := by
  -- A process with a controlled deadline has no alarm record.
  have hdisj : ∀ pid t state, s.controlledRealTimerDeadlines[pid]? = some t →
      s.signalTimers[SignalTimerId.alarm pid]? = some state → False := by
    intro pid t state hpid hst
    cases hc : controlled pid with
    | true =>
      rw [hs.legacy pid hc] at hst
      cases hst
    | false =>
      rw [hs.real pid hc] at hpid
      cases hpid
  rcases h with ⟨state, hst, -, rfl, rfl, rfl⟩ | ⟨pid, rfl, hpid, rfl, rfl⟩
  · rcases h' with ⟨state', hst', -, rfl, rfl, rfl⟩ | ⟨pid, rfl, hpid, rfl, rfl⟩
    · rw [hst] at hst'
      cases hst'
      exact ⟨rfl, rfl, rfl⟩
    · exact absurd hst (fun h => hdisj pid t' state hpid h)
  · rcases h' with ⟨state', hst', -, rfl, rfl, rfl⟩ | ⟨pid', hid, hpid', rfl, rfl⟩
    · exact absurd hst' (fun h => hdisj pid t state' hpid h)
    · cases hid
      rw [hpid] at hpid'
      cases hpid'
      exact ⟨rfl, rfl, rfl⟩

structure Cleared (s s' : TimedEvents) (id : SignalTimerId) : Prop where
  tidy : s.map.Tidy → s'.map.Tidy
  pending : ∀ t evt, Pending s' t evt ↔ Pending s t evt ∧ evt.isTimer id = false
  timers : s'.signalTimers = s.signalTimers
  deadlines : s'.controlledRealTimerDeadlines = s.controlledRealTimerDeadlines

def Only (s : TimedEvents) (id : SignalTimerId) (t : LogicalTime) : Prop :=
  ∀ t' target sig, Pending s t' (.signalEvt id target sig) → t' = t ∧
    ∀ target' sig', Pending s t' (.signalEvt id target' sig') → target' = target ∧ sig' = sig

theorem eq_signalEvt_of_isTimer {evt : TimedEvent} (h : evt.isTimer id = true) :
    ∃ target sig, evt = .signalEvt id target sig := by
  cases evt with
  | signalEvt id' target sig =>
    have hid : id' = id := by simpa [TimedEvent.isTimer] using h
    exact ⟨target, sig, by rw [hid]⟩
  | threadEvt tid => simp [TimedEvent.isTimer] at h

variable {state : SignalTimerState} {new : Option SignalTimerState}

theorem clearOldSignalTimer_spec (hph : state.phase = .active) (honly : Only s id state.deadline) :
    ∃ s', s.clearOldSignalTimer id (some state) = .ok s' ∧ Cleared s s' id := by
  unfold clearOldSignalTimer
  dsimp only
  rw [if_neg (not_not.mpr hph)]
  cases hslot : s.map[state.deadline]? with
  | none =>
    refine ⟨s, rfl, fun htidy => htidy, ?_, rfl, rfl⟩
    intro t evt
    constructor
    · intro hpend
      refine ⟨hpend, ?_⟩
      cases htimer : evt.isTimer id with
      | false => rfl
      | true =>
        obtain ⟨target, sig, rfl⟩ := eq_signalEvt_of_isTimer htimer
        obtain ⟨rfl, -⟩ := honly t target sig hpend
        unfold Pending Agenda.slot at hpend
        rw [hslot] at hpend
        exact absurd hpend (Finset.notMem_empty _)
    · exact And.left
  | some set =>
    have hset := Agenda.slot_eq_of_getElem? hslot
    have hcard : (set.filter fun evt => evt.isTimer id).card ≤ 1 := by
      rw [Finset.card_le_one]
      intro a ha b hb
      rw [Finset.mem_filter] at ha hb
      obtain ⟨target, sig, rfl⟩ := eq_signalEvt_of_isTimer ha.2
      obtain ⟨target', sig', rfl⟩ := eq_signalEvt_of_isTimer hb.2
      have hpend : Pending s state.deadline (.signalEvt id target sig) := by
        unfold Pending
        rw [hset]
        exact ha.1
      have hpend' : Pending s state.deadline (.signalEvt id target' sig') := by
        unfold Pending
        rw [hset]
        exact hb.1
      obtain ⟨rfl, rfl⟩ := (honly _ target sig hpend).2 target' sig' hpend'
      rfl
    dsimp only
    rw [if_neg (by omega)]
    refine ⟨_, rfl, fun htidy => htidy.put _ _, ?_, rfl, rfl⟩
    intro t evt
    unfold Pending
    rw [Agenda.slot_put]
    split_ifs with ht
    · subst ht
      rw [hset, Finset.mem_filter]
      simp
    · constructor
      · intro hpend
        refine ⟨hpend, ?_⟩
        cases htimer : evt.isTimer id with
        | false => rfl
        | true =>
          obtain ⟨target, sig, rfl⟩ := eq_signalEvt_of_isTimer htimer
          exact absurd (honly t target sig hpend).1.symm ht
      · exact And.left

/-! ## What an operation replaces -/

structure Replaced (s s' : TimedEvents) (id : SignalTimerId) (new : Option SignalTimerState) :
    Prop where
  tidy : s'.map.Tidy
  pending : ∀ t evt, Pending s' t evt ↔ (Pending s t evt ∧ evt.isTimer id = false) ∨
    ∃ state, new = some state ∧ state.phase = .active ∧ t = state.deadline ∧
      evt = .signalEvt id state.target state.sig
  timers : ∀ id' : SignalTimerId,
    s'.signalTimers[id']? = if id' = id then new else s.signalTimers[id']?
  deadlines : s'.controlledRealTimerDeadlines = s.controlledRealTimerDeadlines

structure ReplacedReal (s s' : TimedEvents) (pid : DetPid) (new : Option LogicalTime) : Prop where
  tidy : s'.map.Tidy
  pending : ∀ t evt, Pending s' t evt ↔ (Pending s t evt ∧ evt.isTimer (.alarm pid) = false) ∨
    (new = some t ∧ evt = controlledEvt pid)
  timers : s'.signalTimers = s.signalTimers
  deadlines : ∀ pid' : DetPid, s'.controlledRealTimerDeadlines[pid']? =
    if pid' = pid then new else s.controlledRealTimerDeadlines[pid']?

structure Unrelated (s s' : TimedEvents) : Prop where
  tidy : s'.map.Tidy
  thread : ∀ t t' tid, Pending s' t (.threadEvt tid) → Pending s' t' (.threadEvt tid) → t = t'
  signal : ∀ (id : SignalTimerId) t target sig, id.isChildExit = false →
    (Pending s' t (.signalEvt id target sig) ↔ Pending s t (.signalEvt id target sig))
  timers : ∀ id : SignalTimerId, s'.signalTimers[id]? = s.signalTimers[id]?
  deadlines : ∀ pid : DetPid,
    s'.controlledRealTimerDeadlines[pid]? = s.controlledRealTimerDeadlines[pid]?

variable {controlled : DetPid → Bool}

theorem isTimer_signalEvt {id' : SignalTimerId} {target : SignalTarget} {sig : TimerSignal} :
    (TimedEvent.signalEvt id' target sig).isTimer id = decide (id' = id) := rfl

theorem Unrelated.sound (h : Unrelated s s') (hs : Sound controlled s) : Sound controlled s' := by
  refine ⟨h.tidy, h.thread, ?_, ?_, ?_, ?_⟩
  · intro id t target sig hid
    rw [h.signal id t target sig hid, hs.signal id t target sig hid]
    unfold Calls
    simp only [h.timers, h.deadlines]
  · intro id hid
    rw [h.timers, hs.childExit id hid]
  · intro pid hpid
    rw [h.timers, hs.legacy pid hpid]
  · intro pid hpid
    rw [h.deadlines, hs.real pid hpid]

theorem Replaced.sound (h : Replaced s s' id new)
    (hs : Sound controlled s) (hid : id.isChildExit = false)
    (hleg : ∀ pid, id = .alarm pid → controlled pid = false) : Sound controlled s' := by
  refine ⟨h.tidy, ?_, ?_, ?_, ?_, ?_⟩
  · intro t t' tid ht ht'
    have hthd : ∀ t, Pending s' t (.threadEvt tid) → Pending s t (.threadEvt tid) := by
      intro t ht
      rcases (h.pending t _).mp ht with ⟨ht, -⟩ | ⟨state, -, -, -, hevt⟩
      · exact ht
      · cases hevt
    exact hs.thread t t' tid (hthd t ht) (hthd t' ht')
  · intro id' t target sig hid'
    rw [h.pending, isTimer_signalEvt]
    unfold Calls
    rw [h.timers, h.deadlines]
    by_cases heq : id' = id
    · subst heq
      rw [if_pos rfl]
      constructor
      · rintro (⟨-, hne⟩ | ⟨state, hnew, hph, rfl, hevt⟩)
        · simp at hne
        · cases hevt
          exact .inl ⟨state, hnew, hph, rfl, rfl, rfl⟩
      · rintro (⟨state, hnew, hph, rfl, rfl, rfl⟩ | ⟨pid, hpid, hdl, -⟩)
        · exact .inr ⟨state, hnew, hph, rfl, rfl⟩
        · rw [hs.real pid (hleg pid hpid)] at hdl
          cases hdl
    · rw [if_neg heq, hs.signal id' t target sig hid']
      constructor
      · rintro (⟨hcal, -⟩ | ⟨state, -, -, -, hevt⟩)
        · exact hcal
        · cases hevt
          exact absurd rfl heq
      · intro hcal
        exact .inl ⟨hcal, by simpa using heq⟩
  · intro id' hid'
    rw [h.timers, if_neg, hs.childExit id' hid']
    rintro rfl
    rw [hid] at hid'
    cases hid'
  · intro pid hpid
    rw [h.timers, if_neg, hs.legacy pid hpid]
    intro heq
    rw [hleg pid heq.symm] at hpid
    cases hpid
  · intro pid hpid
    rw [h.deadlines, hs.real pid hpid]

theorem ReplacedReal.sound {pid : DetPid} {new : Option LogicalTime} (h : ReplacedReal s s' pid new)
    (hs : Sound controlled s) (hreal : controlled pid = true) : Sound controlled s' := by
  refine ⟨h.tidy, ?_, ?_, ?_, ?_, ?_⟩
  · intro t t' tid ht ht'
    have hthd : ∀ t, Pending s' t (.threadEvt tid) → Pending s t (.threadEvt tid) := by
      intro t ht
      rcases (h.pending t _).mp ht with ⟨ht, -⟩ | ⟨-, hevt⟩
      · exact ht
      · cases hevt
    exact hs.thread t t' tid (hthd t ht) (hthd t' ht')
  · intro id t target sig hid
    rw [h.pending, isTimer_signalEvt]
    unfold Calls
    rw [h.timers]
    by_cases heq : id = .alarm pid
    · subst heq
      rw [hs.legacy pid hreal]
      constructor
      · rintro (⟨-, hne⟩ | ⟨hnew, hevt⟩)
        · simp at hne
        · cases hevt
          exact .inr ⟨pid, rfl, by rw [h.deadlines, if_pos rfl, hnew], rfl, rfl⟩
      · rintro (⟨state, hst, -⟩ | ⟨pid', hpid, hdl, rfl, rfl⟩)
        · cases hst
        · cases hpid
          rw [h.deadlines, if_pos rfl] at hdl
          exact .inr ⟨hdl, rfl⟩
    · rw [hs.signal id t target sig hid]
      constructor
      · rintro (⟨hcal, -⟩ | ⟨-, hevt⟩)
        · rcases hcal with hrec | ⟨pid', rfl, hdl, hrest⟩
          · exact .inl hrec
          · refine .inr ⟨pid', rfl, ?_, hrest⟩
            rw [h.deadlines, if_neg (fun hpp => heq (by rw [hpp])), hdl]
        · cases hevt
          exact absurd rfl heq
      · rintro (hrec | ⟨pid', rfl, hdl, hrest⟩)
        · exact .inl ⟨.inl hrec, by simpa using heq⟩
        · rw [h.deadlines, if_neg (fun hpp => heq (by rw [hpp]))] at hdl
          exact .inl ⟨.inr ⟨pid', rfl, hdl, hrest⟩, by simpa using heq⟩
  · intro id hid
    rw [h.timers, hs.childExit id hid]
  · intro pid' hpid'
    rw [h.timers, hs.legacy pid' hpid']
  · intro pid' hpid'
    rw [h.deadlines, if_neg, hs.real pid' hpid']
    rintro rfl
    rw [hreal] at hpid'
    cases hpid'

/-! ## Timers -/

section

variable (hs : Sound controlled s)
include hs

theorem Sound.only (hst : s.signalTimers[id]? = some state) (hph : state.phase = .active) :
    Only s id state.deadline := by
  have hid : id.isChildExit = false := by
    cases hc : id.isChildExit with
    | false => rfl
    | true =>
      rw [hs.childExit id hc] at hst
      cases hst
  intro t target sig hpend
  have hcal := (hs.signal id t target sig hid).mp hpend
  have hrec : Calls s id state.deadline state.target state.sig :=
    .inl ⟨state, hst, hph, rfl, rfl, rfl⟩
  refine ⟨(hs.calls_unique hcal hrec).1, ?_⟩
  intro target' sig' hpend'
  have hcal' := (hs.signal id t target' sig' hid).mp hpend'
  exact (hs.calls_unique hcal' hcal).2

theorem Sound.no_event (hid : id.isChildExit = false)
    (hleg : ∀ pid, id = .alarm pid → controlled pid = false)
    (hidle : ∀ state, s.signalTimers[id]? = some state → state.phase ≠ .active) :
    ∀ t evt, Pending s t evt → evt.isTimer id = false := by
  intro t evt hpend
  cases htimer : evt.isTimer id with
  | false => rfl
  | true =>
    obtain ⟨target, sig, rfl⟩ := eq_signalEvt_of_isTimer htimer
    rcases (hs.signal id t target sig hid).mp hpend with ⟨state, hst, hph, -⟩ | ⟨pid, hpid, hd, -⟩
    · exact absurd hph (hidle state hst)
    · rw [hs.real pid (hleg pid hpid)] at hd
      cases hd

theorem Sound.legacy_of_record (hst : s.signalTimers[id]? = some state) :
    id.isChildExit = false ∧ ∀ pid, id = .alarm pid → controlled pid = false := by
  constructor
  · cases hc : id.isChildExit with
    | false => rfl
    | true =>
      rw [hs.childExit id hc] at hst
      cases hst
  · rintro pid rfl
    cases hc : controlled pid with
    | false => rfl
    | true =>
      rw [hs.legacy pid hc] at hst
      cases hst

theorem Sound.cleared_idle (hid : id.isChildExit = false)
    (hleg : ∀ pid, id = .alarm pid → controlled pid = false)
    (hidle : ∀ state, s.signalTimers[id]? = some state → state.phase ≠ .active)
    {s₀ : TimedEvents} (hmap : s₀.map = s.map) : Cleared s₀ s₀ id := by
  refine ⟨fun htidy => htidy, ?_, rfl, rfl⟩
  intro t evt
  unfold Pending
  rw [hmap]
  constructor
  · intro h
    exact ⟨h, hs.no_event hid hleg hidle t evt h⟩
  · exact And.left

theorem Sound.clear (hid : id.isChildExit = false)
    (hleg : ∀ pid, id = .alarm pid → controlled pid = false) (s₀ : TimedEvents)
    (hmap : s₀.map = s.map) :
    ∃ s', s₀.clearOldSignalTimer id s.signalTimers[id]? = .ok s' ∧ Cleared s₀ s' id := by
  cases hold : s.signalTimers[id]? with
  | none =>
    refine ⟨s₀, rfl, hs.cleared_idle hid hleg ?_ hmap⟩
    intro state hst
    rw [hold] at hst
    cases hst
  | some state =>
    by_cases hph : state.phase = .active
    · refine clearOldSignalTimer_spec hph ?_
      intro t target sig
      unfold Pending
      rw [hmap]
      exact hs.only hold hph t target sig
    · refine ⟨s₀, ?_, hs.cleared_idle hid hleg ?_ hmap⟩
      · unfold clearOldSignalTimer
        dsimp only
        rw [if_pos hph]
        rfl
      · intro state' hst'
        rw [hold] at hst'
        cases hst'
        exact hph

end

/-! ## Storing a record -/

def scheduled (map : Agenda LogicalTime TimedEvent) (id : SignalTimerId) :
    Option SignalTimerState → Agenda LogicalTime TimedEvent
  | none => map
  | some state =>
    if state.phase = .active then map.add state.deadline (.signalEvt id state.target state.sig)
    else map

theorem mem_slot_scheduled {map : Agenda LogicalTime TimedEvent}
    {evt : TimedEvent} : evt ∈ (scheduled map id new).slot t ↔ evt ∈ map.slot t ∨
      ∃ state, new = some state ∧ state.phase = .active ∧ t = state.deadline ∧
        evt = .signalEvt id state.target state.sig := by
  cases new with
  | none => simp [scheduled]
  | some state =>
    unfold scheduled
    dsimp only
    by_cases hph : state.phase = .active
    · rw [if_pos hph, Agenda.mem_slot_add]
      constructor
      · rintro (⟨ht, hevt⟩ | h)
        · exact .inr ⟨state, rfl, hph, ht, hevt⟩
        · exact .inl h
      · rintro (h | ⟨state', hst, -, ht, hevt⟩)
        · exact .inr h
        · cases hst
          exact .inl ⟨ht, hevt⟩
    · rw [if_neg hph]
      constructor
      · exact .inl
      · rintro (h | ⟨state', hst, hacti, -⟩)
        · exact h
        · cases hst
          exact absurd hacti hph

theorem tidy_scheduled {map : Agenda LogicalTime TimedEvent} (h : map.Tidy)
    (new : Option SignalTimerState) : (scheduled map id new).Tidy := by
  cases new with
  | none => exact h
  | some state =>
    unfold scheduled
    dsimp only
    split_ifs
    · exact h.add _ _
    · exact h

theorem Cleared.replaced {s₀ s₁ : TimedEvents}
    (h : Cleared s₀ s₁ id) (hmap : s₀.map = s.map) (htidy : s.map.Tidy)
    (hmap' : s'.map = scheduled s₁.map id new) (htime : ∀ id' : SignalTimerId,
      s'.signalTimers[id']? = if id' = id then new else s.signalTimers[id']?)
    (hdead : s'.controlledRealTimerDeadlines = s.controlledRealTimerDeadlines) :
    Replaced s s' id new := by
  have htidy₁ : s₁.map.Tidy := h.tidy (by rw [hmap]; exact htidy)
  refine ⟨?_, ?_, htime, hdead⟩
  · rw [hmap']
    exact tidy_scheduled htidy₁ new
  · intro t evt
    have hclr := h.pending t evt
    unfold Pending at hclr ⊢
    rw [hmap', mem_slot_scheduled, hclr, hmap]

theorem getElem?_insert_record (timers : OrdMap SignalTimerId SignalTimerState)
    (id id' : SignalTimerId) (state : SignalTimerState) :
    (timers.insert id state)[id']? = if id' = id then some state else timers[id']? := by
  rw [OrdMap.getElem?_insert_ite]
  simp only [eq_comm]

theorem getElem?_erase_record (timers : OrdMap SignalTimerId SignalTimerState)
    (id id' : SignalTimerId) :
    (timers.erase id)[id']? = if id' = id then none else timers[id']? := by
  rw [OrdMap.getElem?_erase_ite]
  simp only [eq_comm]

theorem insertSignalTimer_spec (hs : Sound controlled s) (hid : id.isChildExit = false)
    (hleg : ∀ pid, id = .alarm pid → controlled pid = false) (ns : LogicalTime)
    (target : SignalTarget) (sig : TimerSignal) (interval : LogicalTime) :
    ∃ s', s.insertSignalTimer id ns target sig interval = .ok (s', s.signalTimers[id]?) ∧
      Replaced s s' id (some ⟨ns, interval, .active, target, sig⟩) := by
  obtain ⟨s₁, hclear, hclr⟩ := hs.clear hid hleg { s with
    signalTimers := s.signalTimers.insert id ⟨ns, interval, .active, target, sig⟩ } rfl
  have hnew : .signalEvt id target sig ∉ s₁.map.slot ns := by
    intro hmem
    have htimer := ((hclr.pending ns _).mp hmem).2
    simp [isTimer_signalEvt] at htimer
  refine ⟨{ s₁ with map := s₁.map.add ns (.signalEvt id target sig) }, ?_, ?_⟩
  · refine bind_eq_ok.mpr ⟨s₁, hclear, ?_⟩
    exact throwIf_eq_ok.mpr ⟨hnew, rfl⟩
  · refine hclr.replaced rfl hs.tidy rfl ?_ hclr.deadlines
    intro id'
    show s₁.signalTimers[id']? = _
    rw [hclr.timers, getElem?_insert_record]

theorem removeSignalTimer_spec (hs : Sound controlled s) (hid : id.isChildExit = false)
    (hleg : ∀ pid, id = .alarm pid → controlled pid = false) :
    ∃ s', s.removeSignalTimer id = .ok (s', s.signalTimers[id]?) ∧ Replaced s s' id none := by
  obtain ⟨s₁, hclear, hclr⟩ :=
    hs.clear hid hleg { s with signalTimers := s.signalTimers.erase id } rfl
  refine ⟨s₁, bind_eq_ok.mpr ⟨s₁, hclear, rfl⟩, ?_⟩
  refine hclr.replaced rfl hs.tidy rfl ?_ hclr.deadlines
  intro id'
  rw [hclr.timers, getElem?_erase_record]

/-! ## Firing and re-arming -/

def afterFire (firedAt : LogicalTime) (inactiveWithCopy : Option Bool) (now : LogicalTime)
    (state : SignalTimerState) : SignalTimerState :=
  if state.phase ≠ .active ∨ state.interval = .zero ∨ state.deadline ≠ firedAt + state.interval then
    state
  else
    match inactiveWithCopy with
    | some copy => { state with deadline := firedAt, phase := .inactive copy }
    | none => { state with deadline := gridAfter firedAt state.interval now }

def rearmAfter (t : LogicalTime) (state : SignalTimerState) : SignalTimerState :=
  match state.phase with
  | .active => state
  | .inactive _ => { state with deadline := gridAfter state.deadline state.interval t, phase := .active }

def setCopy (copy : Bool) (state : SignalTimerState) : SignalTimerState :=
  match state.phase with
  | .active => state
  | .inactive _ => { state with phase := .inactive copy }

/-- What the expiration of a timer makes of its record. -/
def recurred (state : SignalTimerState) : Option SignalTimerState :=
  if state.interval = .zero then none
  else some { state with deadline := state.deadline + state.interval }

/-- An operation that leaves everything as it is replaces a record with itself. -/
theorem Sound.replaced_self (hs : Sound controlled s)
    (hst : s.signalTimers[id]? = some state) : Replaced s s id (some state) := by
  obtain ⟨hid, hleg⟩ := hs.legacy_of_record hst
  refine ⟨hs.tidy, ?_, ?_, rfl⟩
  · intro t evt
    constructor
    · intro hpend
      cases htimer : evt.isTimer id with
      | false => exact .inl ⟨hpend, rfl⟩
      | true =>
        obtain ⟨target, sig, rfl⟩ := eq_signalEvt_of_isTimer htimer
        rcases (hs.signal id t target sig hid).mp hpend with
          ⟨state', hst', hph, rfl, rfl, rfl⟩ | ⟨pid, hpid, hd, -⟩
        · rw [hst] at hst'
          cases hst'
          exact .inr ⟨state, rfl, hph, rfl, rfl⟩
        · rw [hs.real pid (hleg pid hpid)] at hd
          cases hd
    · rintro (⟨hpend, -⟩ | ⟨state', hst', hph, rfl, rfl⟩)
      · exact hpend
      · cases hst'
        exact (hs.signal id _ _ _ hid).mpr (.inl ⟨state, hst, hph, rfl, rfl, rfl⟩)
  · intro id'
    by_cases heq : id' = id
    · rw [if_pos heq, heq, hst]
    · rw [if_neg heq]

theorem signalTimerAfterFire_spec (hs : Sound controlled s)
    (hst : s.signalTimers[id]? = some state) (firedAt : LogicalTime)
    (inactiveWithCopy : Option Bool) (now : LogicalTime) :
    ∃ s', s.signalTimerAfterFire id firedAt inactiveWithCopy now = .ok s' ∧
      Replaced s s' id (some (afterFire firedAt inactiveWithCopy now state)) := by
  unfold signalTimerAfterFire
  rw [hst]
  dsimp only
  unfold afterFire
  by_cases hskip : state.phase ≠ .active ∨ state.interval = .zero ∨
      state.deadline ≠ firedAt + state.interval
  · rw [if_pos hskip, if_pos hskip]
    exact ⟨s, rfl, hs.replaced_self hst⟩
  · rw [if_neg hskip, if_neg hskip]
    obtain ⟨hid, hleg⟩ := hs.legacy_of_record hst
    obtain ⟨s₁, hclear, hclr⟩ := hs.clear hid hleg s rfl
    rw [hst] at hclear
    have hst₁ : s₁.signalTimers[id]? = some state := by
      rw [hclr.timers, hst]
    have hrec : ∀ state' id', (s₁.signalTimers.insert id state')[id']? =
        if id' = id then some state' else s.signalTimers[id']? := by
      intro state' id'
      rw [hclr.timers, getElem?_insert_record]
    have hacti : state.phase = .active := by
      by_contra hne
      exact hskip (.inl hne)
    cases inactiveWithCopy with
    | some copy =>
      refine ⟨{ s₁ with
        signalTimers := s₁.signalTimers.insert id
          { state with deadline := firedAt, phase := .inactive copy } }, ?_, ?_⟩
      · refine bind_eq_ok.mpr ⟨s₁, hclear, ?_⟩
        rw [hst₁]
        rfl
      · exact hclr.replaced rfl hs.tidy rfl (hrec _) hclr.deadlines
    | none =>
      refine ⟨{ s₁ with
        signalTimers := s₁.signalTimers.insert id
          { state with deadline := gridAfter firedAt state.interval now }
        map := s₁.map.add (gridAfter firedAt state.interval now)
          (.signalEvt id state.target state.sig) }, ?_, ?_⟩
      · refine bind_eq_ok.mpr ⟨s₁, hclear, ?_⟩
        rw [hst₁]
        rfl
      · refine hclr.replaced rfl hs.tidy ?_ (hrec _) hclr.deadlines
        unfold scheduled
        dsimp only
        rw [if_pos hacti]

theorem signalTimerRearmAfter_spec (hs : Sound controlled s)
    (hst : s.signalTimers[id]? = some state) (t : LogicalTime) :
    Replaced s (s.signalTimerRearmAfter id t).1 id (some (rearmAfter t state)) ∧
      (s.signalTimerRearmAfter id t).2 =
        if state.phase = .active then none else some (rearmAfter t state).deadline := by
  unfold signalTimerRearmAfter rearmAfter
  rw [hst]
  dsimp only
  cases hph : state.phase with
  | active => exact ⟨hs.replaced_self hst, rfl⟩
  | inactive copy =>
    obtain ⟨hid, hleg⟩ := hs.legacy_of_record hst
    have hidle : Cleared s s id := by
      refine hs.cleared_idle hid hleg ?_ rfl
      intro state' hst'
      rw [hst] at hst'
      cases hst'
      rw [hph]
      nofun
    refine ⟨hidle.replaced rfl hs.tidy rfl ?_ rfl, rfl⟩
    exact fun id' => getElem?_insert_record _ _ id' _

theorem alarmSetCopy_spec (hs : Sound controlled s) {dp : DetPid}
    (hst : s.signalTimers[SignalTimerId.alarm dp]? = some state) (copy : Bool) :
    Replaced s (s.alarmSetCopy dp copy) (.alarm dp) (some (setCopy copy state)) := by
  unfold alarmSetCopy setCopy
  rw [hst]
  dsimp only
  cases hph : state.phase with
  | active => exact hs.replaced_self hst
  | inactive old =>
    obtain ⟨hid, hleg⟩ := hs.legacy_of_record hst
    have hidle : Cleared s s (.alarm dp) := by
      refine hs.cleared_idle hid hleg ?_ rfl
      intro state' hst'
      rw [hst] at hst'
      cases hst'
      rw [hph]
      nofun
    refine hidle.replaced rfl hs.tidy rfl ?_ rfl
    exact fun id' => getElem?_insert_record _ _ id' _

end TimedEvents

end Hermit.Scheduler
