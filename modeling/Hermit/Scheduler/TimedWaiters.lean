import Hermit.Common.Agenda
import Hermit.Common.Run
import Hermit.Signal
import Hermit.Time.LogicalTime

/-!
# Timed events

The timed events of `detcore/src/scheduler/timed_waiters.rs`: a time-ordered map
of pending events, the records of `alarm`/`setitimer` and POSIX timers, and the
deadlines of controlled real timers.

Every `panic!`, `assert!`, `unwrap` and `expect` is a `TimedPanic`, except two
that cannot fail: `clear_old_signal_timer` removes an event, and `pop_if_before`
looks a timer up, that it has just found.
-/

namespace Hermit.Scheduler

open Hermit.Common

/-! ## Timers and events -/

inductive SignalTimerId
  | alarm (pid : DetPid)
  | posix (pid : DetPid) (timerId : ℤ)
  | childExit (child parent : DetPid)

namespace SignalTimerId

/-- The fields in the order in which the derived `Ord` compares them. -/
def fields : SignalTimerId → List ℤ
  | alarm pid => [0, pid, 0]
  | posix pid timerId => [1, pid, timerId]
  | childExit child parent => [2, child, parent]

theorem fields_injective : Function.Injective fields := by
  rintro (_ | _ | _) (_ | _ | _) h <;> simp_all [fields]

theorem length_fields (id : SignalTimerId) : id.fields.length = 3 := by
  cases id <;> rfl

/-- The derived order. -/
instance : LinearOrder SignalTimerId := LinearOrder.lift' fields fields_injective

def isChildExit : SignalTimerId → Bool
  | childExit .. => true
  | _ => false

def owner : SignalTimerId → Option DetPid
  | alarm pid => some pid
  | posix pid _ => some pid
  | childExit .. => none

end SignalTimerId

inductive SignalTarget
  | process (tid : DetTid)
  | thread (tid : DetTid)

namespace SignalTarget

/-- The fields in the order in which the derived `Ord` compares them. -/
def fields : SignalTarget → List ℤ
  | process tid => [0, tid]
  | thread tid => [1, tid]

theorem fields_injective : Function.Injective fields := by
  rintro (_ | _) (_ | _) h <;> simp_all [fields]

theorem length_fields (target : SignalTarget) : target.fields.length = 2 := by
  cases target <;> rfl

/-- The derived order. -/
instance : LinearOrder SignalTarget := LinearOrder.lift' fields fields_injective

end SignalTarget

inductive TimedEvent
  | signalEvt (id : SignalTimerId) (target : SignalTarget) (sig : TimerSignal)
  | threadEvt (tid : DetTid)

namespace TimedEvent

/-- The fields in the order in which the derived `Ord` compares them. -/
def fields : TimedEvent → List ℤ
  | signalEvt id target sig => 0 :: (id.fields ++ (target.fields ++ sig.fields))
  | threadEvt tid => [1, tid]

theorem fields_injective : Function.Injective fields := by
  rintro (⟨id, target, sig⟩ | tid) (⟨id', target', sig'⟩ | tid') h
  · simp only [fields, List.cons.injEq, true_and] at h
    obtain ⟨hid, h⟩ := List.append_inj h (by rw [id.length_fields, id'.length_fields])
    obtain ⟨htgt, hsig⟩ :=
      List.append_inj h (by rw [target.length_fields, target'.length_fields])
    rw [SignalTimerId.fields_injective hid, SignalTarget.fields_injective htgt,
      TimerSignal.fields_injective hsig]
  · simp [fields] at h
  · simp [fields] at h
  · simpa [fields] using h

/-- The derived order. -/
instance : LinearOrder TimedEvent := LinearOrder.lift' fields fields_injective

def isTimer (id : SignalTimerId) : TimedEvent → Bool
  | signalEvt id' _ _ => id' = id
  | threadEvt _ => false

end TimedEvent

inductive AlarmPhase
  /-- A deadline is queued in the timed map. -/
  | active
  /-- The last expiry fired and the timer waits for a dequeue. -/
  | inactive (copy : Bool)
deriving DecidableEq

structure SignalTimerState where
  /-- The pending deadline while active; the last expiry while inactive. -/
  deadline : LogicalTime
  interval : LogicalTime
  phase : AlarmPhase
  target : SignalTarget
  sig : TimerSignal

/-- Why an operation stops. -/
inductive TimedPanic
  /-- `insert` of a thread that is already in the set -/
  | duplicateThread
  /-- `insert_signal_timer` of an event that is already in the set -/
  | duplicateSignal
  /-- A controlled deadline for a process with a legacy alarm -/
  | legacyAlarm
  /-- Two events of one timer in a slot -/
  | twoEvents
  /-- A timer that was found and is gone -/
  | missingTimer
  /-- An empty slot -/
  | emptySlot
  /-- `remove` finds a thread in two slots -/
  | multipleEntries
deriving DecidableEq

/-! ## The grid of a periodic timer -/

def checkedGridAfter (last : LogicalTime) (interval : ℕ) (t : LogicalTime) : Option ℕ := do
  let k ← checkedAdd ((t.nanos - last.nanos) / interval) 1
  let step ← checkedMul k interval
  checkedAdd last.nanos step

/-- `grid_after`; a checked sum fits, so it is not clamped. -/
def gridAfter (last interval t : LogicalTime) : LogicalTime :=
  let interval := if interval.nanos = 0 then 1 else interval.nanos
  .clamp ((checkedGridAfter last interval t).getD u64Max)

/-! ## Operations -/

structure TimedEvents where
  map : Agenda LogicalTime TimedEvent
  signalTimers : OrdMap SignalTimerId SignalTimerState
  controlledRealTimerDeadlines : OrdMap DetPid LogicalTime

namespace TimedEvents

def new : TimedEvents := ⟨∅, ∅, ∅⟩

def insert (s : TimedEvents) (ns : LogicalTime) (dt : DetTid) : Except TimedPanic TimedEvents :=
  if .threadEvt dt ∈ s.map.slot ns then throw .duplicateThread
  else return { s with map := s.map.add ns (.threadEvt dt) }

def clearOldSignalTimer (s : TimedEvents) (id : SignalTimerId) (old : Option SignalTimerState) :
    Except TimedPanic TimedEvents :=
  match old with
  | none => return s
  | some state =>
    if state.phase ≠ .active then return s
    else
      match s.map[state.deadline]? with
      | none => return s
      | some set =>
        if 1 < (set.filter fun evt => evt.isTimer id).card then throw .twoEvents
        else
          return { s with
            map := s.map.put state.deadline (set.filter fun evt => ¬ evt.isTimer id) }

def insertSignalTimer (s : TimedEvents) (id : SignalTimerId) (ns : LogicalTime)
    (target : SignalTarget) (sig : TimerSignal) (interval : LogicalTime) :
    Except TimedPanic (TimedEvents × Option SignalTimerState) := do
  let old := s.signalTimers[id]?
  let s := { s with signalTimers := s.signalTimers.insert id ⟨ns, interval, .active, target, sig⟩ }
  let s ← s.clearOldSignalTimer id old
  if .signalEvt id target sig ∈ s.map.slot ns then throw .duplicateSignal
  return ({ s with map := s.map.add ns (.signalEvt id target sig) }, old)

def insertAlarm (s : TimedEvents) (ns : LogicalTime) (dp : DetPid) (dt : DetTid) (sig : Signal)
    (interval : LogicalTime) :
    Except TimedPanic (TimedEvents × Option (LogicalTime × LogicalTime)) := do
  let (s, old) ← s.insertSignalTimer (.alarm dp) ns (.process dt) (.send sig) interval
  return (s, old.map fun state => (state.deadline, state.interval))

def controlledEvt (pid : DetPid) : TimedEvent :=
  .signalEvt (.alarm pid) (.process pid) (.send .sigalrm)

def removeControlledRealTimerDeadline (s : TimedEvents) (pid : DetPid) :
    Except TimedPanic TimedEvents :=
  let old := s.controlledRealTimerDeadlines[pid]?.map fun deadline =>
    (⟨deadline, .zero, .active, .process pid, .send .sigalrm⟩ : SignalTimerState)
  { s with controlledRealTimerDeadlines := s.controlledRealTimerDeadlines.erase pid }
    |>.clearOldSignalTimer (.alarm pid) old

def insertControlledRealTimerDeadline (s : TimedEvents) (deadline : LogicalTime) (pid : DetPid) :
    Except TimedPanic TimedEvents := do
  if s.signalTimers.contains (.alarm pid) then throw .legacyAlarm
  let s ← s.removeControlledRealTimerDeadline pid
  return { s with
    controlledRealTimerDeadlines := s.controlledRealTimerDeadlines.insert pid deadline
    map := s.map.add deadline (controlledEvt pid) }

def threadDeadline (s : TimedEvents) (tid : DetTid) : Option LogicalTime :=
  s.map.toList.findSome? fun (deadline, events) =>
    if .threadEvt tid ∈ events then some deadline else none

def removeSignalTimer (s : TimedEvents) (id : SignalTimerId) :
    Except TimedPanic (TimedEvents × Option SignalTimerState) := do
  let old := s.signalTimers[id]?
  let s ← { s with signalTimers := s.signalTimers.erase id }.clearOldSignalTimer id old
  return (s, old)

def removeAlarm (s : TimedEvents) (dp : DetPid) :
    Except TimedPanic (TimedEvents × Option (LogicalTime × LogicalTime)) := do
  let (s, old) ← s.removeSignalTimer (.alarm dp)
  return (s, old.map fun state => (state.deadline, state.interval))

def insertChildExit (s : TimedEvents) (ns : LogicalTime) (child parent : DetPid)
    (parentTid : DetTid) : TimedEvents :=
  { s with
    map := s.map.add ns (.signalEvt (.childExit child parent) (.process parentTid) (.send .sigchld)) }

def insertPosixTimer (s : TimedEvents) (ns : LogicalTime) (dp : DetPid) (target : SignalTarget)
    (timerId : ℤ) (sig : TimerSignal) (interval : LogicalTime) : Except TimedPanic TimedEvents := do
  let (s, _) ← s.insertSignalTimer (.posix dp timerId) ns target sig interval
  return s

def removeSignalTimers (s : TimedEvents) (ids : List SignalTimerId) :
    Except TimedPanic TimedEvents :=
  ids.foldlM (fun s id => do
    let (s, _) ← s.removeSignalTimer id
    return s) s

def removePosixTimer (s : TimedEvents) (dp : DetPid) (timerId : ℤ) :
    Except TimedPanic TimedEvents := do
  let (s, _) ← s.removeSignalTimer (.posix dp timerId)
  return s

def removePosixTimers (s : TimedEvents) (dp : DetPid) : Except TimedPanic TimedEvents :=
  s.removeSignalTimers (s.signalTimers.keys.filter fun id =>
    match id with
    | .posix pid _ => pid = dp
    | _ => false)

def removeProcessTimers (s : TimedEvents) (dp : DetPid) : Except TimedPanic TimedEvents := do
  let s ← s.removeControlledRealTimerDeadline dp
  s.removeSignalTimers (s.signalTimers.keys.filter fun id => id.owner = some dp)

def signalTimerAfterFire (s : TimedEvents) (id : SignalTimerId) (firedAt : LogicalTime)
    (inactiveWithCopy : Option Bool) (now : LogicalTime) : Except TimedPanic TimedEvents :=
  match s.signalTimers[id]? with
  | none => return s
  | some state =>
    if state.phase ≠ .active ∨ state.interval = .zero ∨ state.deadline ≠ firedAt + state.interval then
      return s
    else do
      let s ← s.clearOldSignalTimer id (some state)
      match s.signalTimers[id]? with
      | none => throw .missingTimer
      | some entry =>
        match inactiveWithCopy with
        | some copy =>
          return { s with
            signalTimers := s.signalTimers.insert id
              { entry with deadline := firedAt, phase := .inactive copy } }
        | none =>
          let next := gridAfter firedAt state.interval now
          return { s with
            signalTimers := s.signalTimers.insert id { entry with deadline := next }
            map := s.map.add next (.signalEvt id state.target state.sig) }

def signalTimerRearmAfter (s : TimedEvents) (id : SignalTimerId) (t : LogicalTime) :
    TimedEvents × Option LogicalTime :=
  match s.signalTimers[id]? with
  | none => (s, none)
  | some state =>
    match state.phase with
    | .active => (s, none)
    | .inactive _ =>
      let next := gridAfter state.deadline state.interval t
      ({ s with
        signalTimers := s.signalTimers.insert id { state with deadline := next, phase := .active }
        map := s.map.add next (.signalEvt id state.target state.sig) }, some next)

def alarmSetCopy (s : TimedEvents) (dp : DetPid) (copy : Bool) : TimedEvents :=
  match s.signalTimers[SignalTimerId.alarm dp]? with
  | none => s
  | some state =>
    match state.phase with
    | .active => s
    | .inactive _ =>
      { s with signalTimers := s.signalTimers.insert (.alarm dp) { state with phase := .inactive copy } }

def recur (s : TimedEvents) (time : LogicalTime) (id : SignalTimerId) (evt : TimedEvent) :
    TimedEvents :=
  match s.signalTimers[id]? with
  | none => s
  | some state =>
    if state.deadline ≠ time then s
    else if state.interval = .zero then { s with signalTimers := s.signalTimers.erase id }
    else
      let next := time + state.interval
      { s with
        signalTimers := s.signalTimers.insert id { state with deadline := next }
        map := s.map.add next evt }

def afterPop (s : TimedEvents) (time : LogicalTime) (evt : TimedEvent) : TimedEvents :=
  match evt with
  | .threadEvt _ => s
  | .signalEvt (.alarm pid) _ _ =>
    if s.controlledRealTimerDeadlines[pid]? = some time then
      { s with controlledRealTimerDeadlines := s.controlledRealTimerDeadlines.erase pid }
    else s.recur time (.alarm pid) evt
  | .signalEvt id _ _ => s.recur time id evt

def popIfBefore (s : TimedEvents) (currentTime : LogicalTime) :
    Except TimedPanic (TimedEvents × Option (LogicalTime × TimedEvent)) :=
  match s.map.toList.head? with
  | none => return (s, none)
  | some (time, set) =>
    if time ≤ currentTime then
      match first set with
      | none => throw .emptySlot
      | some evt =>
        return ({ s with map := s.map.put time (set.erase evt) }.afterPop time evt, some (time, evt))
    else return (s, none)

def pop (s : TimedEvents) : Except TimedPanic (TimedEvents × Option (LogicalTime × TimedEvent)) :=
  s.popIfBefore .max

/-- One iteration of the loop of `remove`, on the map, the time of an emptied slot and
    whether the thread was found. -/
def removeOne (dettid : DetTid) (acc : Agenda LogicalTime TimedEvent × Option LogicalTime × Bool)
    (entry : LogicalTime × Finset TimedEvent) :
    Except TimedPanic (Agenda LogicalTime TimedEvent × Option LogicalTime × Bool) := do
  let removed := decide (.threadEvt dettid ∈ entry.2)
  if removed ∧ acc.2.2 then throw .multipleEntries
  let set := entry.2.erase (.threadEvt dettid)
  return (acc.1.insert entry.1 set, if set = ∅ then some entry.1 else acc.2.1, acc.2.2 || removed)

def remove (s : TimedEvents) (dettid : DetTid) : Except TimedPanic TimedEvents := do
  let (map, toRemove, _) ← s.map.toList.foldlM (removeOne dettid) (s.map, none, false)
  return { s with
    map := match toRemove with
      | some time => map.erase time
      | none => map }

end TimedEvents

/-! ## Operations as a machine -/

/-- The mutating operations of `TimedEvents`. -/
inductive TimedOp
  | insert (ns : LogicalTime) (dt : DetTid)
  | insertAlarm (ns : LogicalTime) (dp : DetPid) (dt : DetTid) (sig : Signal) (interval : LogicalTime)
  | insertControlledRealTimerDeadline (deadline : LogicalTime) (pid : DetPid)
  | removeControlledRealTimerDeadline (pid : DetPid)
  | removeAlarm (dp : DetPid)
  | insertChildExit (ns : LogicalTime) (child parent : DetPid) (parentTid : DetTid)
  | insertPosixTimer (ns : LogicalTime) (dp : DetPid) (target : SignalTarget) (timerId : ℤ)
      (sig : TimerSignal) (interval : LogicalTime)
  | removePosixTimer (dp : DetPid) (timerId : ℤ)
  | removePosixTimers (dp : DetPid)
  | signalTimerAfterFire (id : SignalTimerId) (firedAt : LogicalTime)
      (inactiveWithCopy : Option Bool) (now : LogicalTime)
  | signalTimerRearmAfter (id : SignalTimerId) (t : LogicalTime)
  | alarmSetCopy (dp : DetPid) (copy : Bool)
  | removeProcessTimers (dp : DetPid)
  | popIfBefore (currentTime : LogicalTime)
  | pop
  | remove (dettid : DetTid)

/-- What an operation returns. -/
inductive TimedOut
  | unit
  | previous (state : Option (LogicalTime × LogicalTime))
  | rearmed (deadline : Option LogicalTime)
  | popped (event : Option (LogicalTime × TimedEvent))
deriving DecidableEq

def TimedOut.event : TimedOut → Option (LogicalTime × TimedEvent)
  | popped event => event
  | _ => none

namespace TimedEvents

/-- Perform one operation. -/
def step (s : TimedEvents) : TimedOp → Except TimedPanic (TimedEvents × TimedOut)
  | .insert ns dt => (s.insert ns dt).map (·, .unit)
  | .insertAlarm ns dp dt sig interval =>
    (s.insertAlarm ns dp dt sig interval).map fun (s, old) => (s, .previous old)
  | .insertControlledRealTimerDeadline deadline pid =>
    (s.insertControlledRealTimerDeadline deadline pid).map (·, .unit)
  | .removeControlledRealTimerDeadline pid =>
    (s.removeControlledRealTimerDeadline pid).map (·, .unit)
  | .removeAlarm dp => (s.removeAlarm dp).map fun (s, old) => (s, .previous old)
  | .insertChildExit ns child parent parentTid =>
    .ok (s.insertChildExit ns child parent parentTid, .unit)
  | .insertPosixTimer ns dp target timerId sig interval =>
    (s.insertPosixTimer ns dp target timerId sig interval).map (·, .unit)
  | .removePosixTimer dp timerId => (s.removePosixTimer dp timerId).map (·, .unit)
  | .removePosixTimers dp => (s.removePosixTimers dp).map (·, .unit)
  | .signalTimerAfterFire id firedAt inactiveWithCopy now =>
    (s.signalTimerAfterFire id firedAt inactiveWithCopy now).map (·, .unit)
  | .signalTimerRearmAfter id t =>
    .ok ((s.signalTimerRearmAfter id t).1, .rearmed (s.signalTimerRearmAfter id t).2)
  | .alarmSetCopy dp copy => .ok (s.alarmSetCopy dp copy, .unit)
  | .removeProcessTimers dp => (s.removeProcessTimers dp).map (·, .unit)
  | .popIfBefore currentTime => (s.popIfBefore currentTime).map fun (s, event) => (s, .popped event)
  | .pop => s.pop.map fun (s, event) => (s, .popped event)
  | .remove dettid => (s.remove dettid).map (·, .unit)

end TimedEvents

end Hermit.Scheduler
