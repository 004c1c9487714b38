import Hermit.Schedule.Event

/-!
# The schedule replayer

The replayer of `detcore/src/scheduler/replayer.rs`: it compares each observed event with the
next recorded one, resynchronizes by dropping recorded events, releases the schedule after a
long run of unmatched events, and makes the recorded background starts due at their places.
-/

namespace Hermit

open Common

/-- `LogicalTime::from_rcbs` (`time.rs`): ten nanoseconds a branch. A count is a `u32`, so
    that the product is exact in `f64`. -/
def LogicalTime.fromRcbs (n : ℕ) : LogicalTime := .clamp (n * 10)

structure ReplayPosition where
  event : ℕ
  recordEvent : ℕ
deriving DecidableEq

def lookaheadWindow : ℕ := 10

def unmatchedEventsBeforeRelease : ℕ := 1000

structure Release where
  event : ℕ
  unreplayed : ℕ
deriving DecidableEq

structure UntakenStart where
  thread : DetTid
  call : ℕ
  after : ℕ
  passedAt : Option ReplayPosition
deriving DecidableEq

structure FirstDesync where
  event : ℕ
  recordEvent : ℕ
  observed : DetTid
  expected : DetTid
  hard : Bool
deriving DecidableEq

structure DesyncStats where
  soft : ℕ := 0
  hard : ℕ := 0
  atContextSwitch : ℕ := 0
  resyncInsertions : ℕ := 0
  resyncDeletions : ℕ := 0
  fastForwards : ℕ := 0
  lastWasDesync : Bool := false
deriving DecidableEq

inductive StopReason
  | fatalDesync
  | replayExausted
deriving DecidableEq

structure ReplayedSliceEnd where
  length : LogicalTime
  stopless : Bool
deriving DecidableEq

def ReplayedSliceEnd.withAStop (end' : ReplayedSliceEnd) : ReplayedSliceEnd :=
  { end' with stopless := false }

inductive ReplayAction
  | continue (sliceEnd : Option ReplayedSliceEnd)
  | stop (reason : StopReason)
  | contextSwitch (immediate : Bool) (next : DetTid) (sliceEnd : Option ReplayedSliceEnd)
deriving DecidableEq

/-! ## Comparing events -/

namespace SchedEvent

def isTerminalPosthook (event : SchedEvent) : Bool :=
  event.op = .syscall .exit .posthook || event.op = .syscall .exit_group .posthook

def isDesync (observed expected : SchedEvent) : Bool :=
  (observed.dettid, observed.op, observed.count) ≠ (expected.dettid, expected.op, expected.count) ||
    (expected.endTime.isSome && expected.endTime ≠ observed.endTime) ||
    (expected.startRip.isSome && observed.startRip ≠ expected.startRip) ||
    (expected.endRip.isSome && observed.endRip ≠ expected.endRip)

def eventsMatch (observed expected : SchedEvent) : Bool := !isDesync observed expected

/-- `is_hard_desync`: the events differ in more than what the trace leaves open, the
    counts, the end times and how a slice end was taken. -/
def isHardDesync (observed expected : SchedEvent) : Bool :=
  let startRip := if expected.startRip.isNone then none else observed.startRip
  let endRip := if expected.endRip.isNone || expected.stopless then none else observed.endRip
  { observed with
      endTime := none, count := 0, startRip := startRip, endRip := endRip, stopless := false } ≠
    { expected with endTime := none, count := 0, stopless := false }

/-- An unsuccessful attempt of a system call. -/
def isPolling (event : SchedEvent) : Bool :=
  match event.op with
  | .syscall _ .polling => true
  | _ => false

def isPrehook (event : SchedEvent) : Bool :=
  match event.op with
  | .syscall _ .prehook => true
  | _ => false

end SchedEvent

/-! ## The replayer -/

structure Replayer where
  cursor : List SchedEvent
  tracedEventCount : ℕ := 0
  eventsPopped : ℕ := 0
  scheduleLen : ℕ
  lastConsumed : Option ℕ := none
  exhaustedFrom : Option ℕ := none
  unmatchedRun : ℕ := 0
  observedNonPolling : ℕ := 0
  release : Option Release := none
  desyncCounts : OrdMap DetTid DesyncStats := ∅
  replayExhaustedPanic : Bool := false
  dieOnDesync : Bool := false
  syscallsInFlight : OrdMap DetTid (Option Sysno × Option Sysno) := ∅
  backgroundStarts : OrdMap ℕ (List (DetTid × ℕ)) := ∅
  pendingStarts : List BackgroundStart := []
  passedStarts : List UntakenStart := []
  notesBackgroundStarts : Bool := false
  skipped : ℕ := 0
  firstDesync : Option FirstDesync := none

namespace Replayer

def new (schedule : List SchedEvent) : Replayer where
  cursor := schedule
  scheduleLen := schedule.length

def recordPosition (r : Replayer) : ℕ := r.eventsPopped + r.skipped

def count (r : Replayer) (thread : DetTid) (change : DesyncStats → DesyncStats) : Replayer :=
  { r with desyncCounts := r.desyncCounts.insert thread (change (r.desyncCounts[thread]?.getD {})) }

def countHard (r : Replayer) (thread : DetTid) : Replayer :=
  r.count thread fun stats => { stats with hard := stats.hard + 1 }

/-! ### Background starts -/

/-- `queue_background_starts`: the first entries of the map, as long as their key is not
    past the position. -/
def queueBackgroundStarts (r : Replayer) : Replayer :=
  let due := r.backgroundStarts.toList.takeWhile fun entry => entry.1 ≤ r.recordPosition
  { r with
    backgroundStarts := due.foldl (fun starts entry => starts.erase entry.1) r.backgroundStarts
    pendingStarts := r.pendingStarts ++
      due.flatMap fun entry => entry.2.map fun start => ⟨entry.1, start.1, start.2⟩ }

def withBackgroundStarts (r : Replayer) (starts : List BackgroundStart) (notesAll : Bool) : Replayer :=
  let backgroundStarts := starts.foldl
    (fun map start => map.insert start.after (map[start.after]?.getD [] ++ [(start.thread, start.call)]))
    r.backgroundStarts
  { r with backgroundStarts := backgroundStarts, notesBackgroundStarts := notesAll }.queueBackgroundStarts

def passStart (position : ReplayPosition) (r : Replayer) (start : BackgroundStart) : Replayer :=
  { r.countHard start.thread with
    passedStarts := r.passedStarts ++ [⟨start.thread, start.call, start.after, some position⟩] }

def retireKey (position : ReplayPosition) (r : Replayer) (after : ℕ) : Replayer :=
  let starts := r.backgroundStarts[after]?.getD []
  (starts.map fun start => ⟨after, start.1, start.2⟩).foldl (passStart position)
    { r with backgroundStarts := r.backgroundStarts.erase after }

def retireSkippedStarts (r : Replayer) (dropped event : ℕ) : Replayer × ℕ :=
  let position := r.recordPosition
  let past := r.backgroundStarts.keys.filter fun after =>
    position + 1 ≤ after ∧ after ≤ position + dropped
  let retired := (past.map fun after => (r.backgroundStarts[after]?.getD []).length).sum
  let r := past.foldl (retireKey ⟨event, position⟩) r
  ({ r with skipped := r.skipped + dropped }, retired)

def released (r : Replayer) : Bool := r.release.isSome

def pendingBackgroundStart (r : Replayer) : Option (DetTid × ℕ) :=
  if r.released then none else r.pendingStarts.head?.map fun start => (start.thread, start.call)

def takeBackgroundStart (r : Replayer) (thread : DetTid) (call : ℕ) : Replayer × Bool :=
  if r.pendingBackgroundStart = some (thread, call) then
    ({ r with pendingStarts := r.pendingStarts.tail }, true)
  else (r, false)

def untakenBackgroundStarts (r : Replayer) : List UntakenStart :=
  let untaken := r.passedStarts ++
    (r.pendingStarts.map fun start => ⟨start.thread, start.call, start.after, none⟩) ++
    r.backgroundStarts.toList.flatMap fun entry =>
      entry.2.map fun start => ⟨start.1, start.2, entry.1, none⟩
  untaken.insertionSort fun a b => a.after ≤ b.after

/-! ### Slice ends -/

def timerPreemptionBranches (r : Replayer) (next : SchedEvent) : Option ℕ :=
  if next.op = .branch ∧ (next.endRip.isSome ∨
      ∃ following ∈ r.cursor[1]?, following.op = .branch ∨ following.dettid ≠ next.dettid) then
    some next.count
  else none

def resolveTimeToRun (r : Replayer) (next : SchedEvent) : Option ReplayedSliceEnd :=
  let branches := if next.stopless then some next.count else r.timerPreemptionBranches next
  branches.map fun count =>
    let sliceEnd : ReplayedSliceEnd := ⟨.fromRcbs count, next.stopless⟩
    let endStaysVisible : Bool := match r.cursor[1]? with
      | none => true
      | some following => following.op = .branch || following.dettid ≠ next.dettid
    if next.stopless && !endStaysVisible then sliceEnd.withAStop else sliceEnd

def nextSliceEnd (r : Replayer) : Option (DetTid × Option ReplayedSliceEnd) :=
  match r.pendingBackgroundStart with
  | some (thread, _) => some (thread, none)
  | none => r.cursor.head?.map fun next => (next.dettid, r.resolveTimeToRun next)

def checkContextSwitch (r : Replayer) (observed : SchedEvent) (popped : Bool) : Option ReplayAction :=
  match r.nextSliceEnd with
  | none => some (.continue none)
  | some (next, timeslice) =>
    let withAStop := timeslice.map ReplayedSliceEnd.withAStop
    if observed.endTime.isNone then none
    else if next ≠ observed.dettid then
      some (.contextSwitch (!(observed.isPrehook || observed.isTerminalPosthook)) next withAStop)
    else if popped then some (.continue timeslice)
    else some (.continue withAStop)

/-! ### Observing an event -/

def popNext (r : Replayer) : Replayer :=
  { r with eventsPopped := r.eventsPopped + 1, cursor := r.cursor.tail }.queueBackgroundStarts

def noteSyscallInFlight (r : Replayer) (observed : SchedEvent) : Replayer :=
  let calls := r.syscallsInFlight
  let tid := observed.dettid
  match observed.op with
  | .syscall sysno .prehook => { r with syscallsInFlight := calls.insert tid (some sysno, none) }
  | .syscall sysno .polling =>
    { r with syscallsInFlight := calls.insert tid ((calls[tid]?.getD (none, none)).1, some sysno) }
  | .syscall _ .posthook => { r with syscallsInFlight := calls.erase tid }
  | _ => r

def releaseSchedule (r : Replayer) (currentIx : ℕ) : Replayer × ReplayAction :=
  let dropped := r.cursor.length
  ({ r with cursor := [], release := some ⟨currentIx, dropped⟩ },
    if r.replayExhaustedPanic then .stop .replayExausted else .continue none)

def countsNextRound (r : Replayer) (mytid : DetTid) (isDesync : Bool) : Replayer :=
  r.count mytid fun stats =>
    if isDesync then { stats with lastWasDesync := true }
    else
      { stats with
        resyncInsertions := stats.resyncInsertions + if stats.lastWasDesync then 1 else 0
        lastWasDesync := false }

def checkFastForward (r : Replayer) (observed : SchedEvent) : Option (Replayer × ℕ) :=
  ((r.cursor.take lookaheadWindow).findIdx? fun expected => observed.eventsMatch expected).map
    fun ix =>
      ({ r.count observed.dettid fun stats => { stats with fastForwards := stats.fastForwards + 1 } with
          cursor := r.cursor.drop ix }, ix)

def countObserved (r : Replayer) (observed : SchedEvent) : Replayer :=
  let counted := { r with
    tracedEventCount := r.tracedEventCount + 1
    observedNonPolling := if observed.isPolling then r.observedNonPolling else r.observedNonPolling + 1
    lastConsumed := none
    exhaustedFrom :=
      if r.cursor.isEmpty && r.release.isNone && r.exhaustedFrom.isNone then some r.tracedEventCount
      else r.exhaustedFrom }
  counted.noteSyscallInFlight observed

/-- The starts that are still due before the observed event are not taken any more. -/
def passPending (r : Replayer) (currentIx : ℕ) : Replayer :=
  r.pendingStarts.foldl (passStart ⟨currentIx, r.recordPosition⟩) { r with pendingStarts := [] }

def noteDesync (r : Replayer) (observed expected : SchedEvent) (currentIx : ℕ) : Replayer :=
  let desync : FirstDesync :=
    { event := currentIx
      recordEvent := r.recordPosition
      observed := observed.dettid
      expected := expected.dettid
      hard := observed.isHardDesync expected }
  if r.firstDesync.isNone then { r with firstDesync := some desync } else r

/-- The observed event consumes the next recorded one. -/
def consume (r : Replayer) : Replayer :=
  let consumed := { r with lastConsumed := some (r.scheduleLen - r.cursor.length) }
  { consumed.popNext with unmatchedRun := 0 }

def decide (r : Replayer) (observed : SchedEvent) (inHardDesyncMode : Bool) :
    Replayer × Option ReplayAction :=
  let action := r.checkContextSwitch observed !inHardDesyncMode
  match action, inHardDesyncMode with
  | some (.contextSwitch ..), true =>
    (r.count observed.dettid fun stats => { stats with atContextSwitch := stats.atContextSwitch + 1 },
      action)
  | _, _ => (r, action)

def leaveUnmatched (r : Replayer) (observed : SchedEvent) (nonPollingIx : ℕ) :
    Replayer × Option ReplayAction :=
  if observed.isPolling then r.decide observed true
  else
    let r := { r with unmatchedRun := r.unmatchedRun + 1 }
    if unmatchedEventsBeforeRelease ≤ r.unmatchedRun then
      let (r, action) := r.releaseSchedule nonPollingIx
      (r, some action)
    else r.decide observed true

/-- An event that desynchronizes, once it is counted: forward to a recorded event that
    matches it, if one is near. -/
def resync (r : Replayer) (observed : SchedEvent) (hard : Bool) (currentIx nonPollingIx : ℕ) :
    Replayer × Option ReplayAction :=
  match r.checkFastForward observed with
  | some (r, ix) =>
    let r := r.count observed.dettid fun stats =>
      { stats with resyncDeletions := stats.resyncDeletions + 1 }
    let (r, retired) := r.retireSkippedStarts ix currentIx
    if 0 < retired ∧ r.dieOnDesync then (r, some (.stop .fatalDesync))
    else r.consume.decide observed false
  | none => if hard then r.leaveUnmatched observed nonPollingIx else r.consume.decide observed false

def follow (r : Replayer) (observed expected : SchedEvent) (currentIx nonPollingIx : ℕ) :
    Replayer × Option ReplayAction :=
  if observed.isDesync expected then
    let r := (r.noteDesync observed expected currentIx).count observed.dettid id
    if observed.isHardDesync expected then
      if r.dieOnDesync then (r, some (.stop .fatalDesync))
      else ((r.countHard observed.dettid).countsNextRound observed.dettid true).resync observed true
        currentIx nonPollingIx
    else
      let r := r.count observed.dettid fun stats => { stats with soft := stats.soft + 1 }
      (r.countsNextRound observed.dettid true).resync observed false currentIx nonPollingIx
  else (r.countsNextRound observed.dettid false).consume.decide observed false

/-- `observe_event`: the replayer afterwards, and the action. There is none where the
    observed event has no time for a context switch, a panic of the source. -/
def observeEvent (r : Replayer) (observed : SchedEvent) : Replayer × Option ReplayAction :=
  let currentIx := r.tracedEventCount
  let nonPollingIx := r.observedNonPolling
  let untaken := r.pendingStarts
  let r := (r.countObserved observed).passPending currentIx
  if untaken ≠ [] ∧ r.dieOnDesync then (r, some (.stop .fatalDesync))
  else
    match r.cursor.head? with
    | some expected => r.follow observed expected currentIx nonPollingIx
    | none =>
      if r.replayExhaustedPanic then (r, some (.stop .replayExausted)) else (r, some (.continue none))

end Replayer

end Hermit
