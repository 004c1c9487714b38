import Hermit.Schedule.Event
import Hermit.Scheduler.RunQueue

/-!
# Preemption records

`PreemptionRecord` of `detcore/src/preemptions.rs`: the recorded schedule of a run, with each
thread's priority history and the points of the run that its replay needs, in one of the formats
1 to 6. This file has the record, what makes it well formed (`validate`), and its editors.

The texts of the errors are constructors of `RecordError` that hold what each text names. A
function that panics returns `none`.
-/

namespace Hermit.Preemptions

open Common Scheduler

/-! ## Formats -/

def timeSkipsFormat : ℕ := 2

def backgroundStartsFormat : ℕ := 4

def stoplessSliceEndsFormat : ℕ := 5

def instructionOffsetRowsFormat : ℕ := 6

def preemptionRecordFormatMax : ℕ := instructionOffsetRowsFormat

def preemptionRecordFormatWithoutOffsets : ℕ := instructionOffsetRowsFormat - 1

def formatWithoutBackgroundStarts (format : Option ℕ) : Option ℕ :=
  format.map fun format =>
    if backgroundStartsFormat ≤ format ∧ format ≤ preemptionRecordFormatMax then
      backgroundStartsFormat - 1
    else format

def formatWithoutInstructionOffsets (format : Option ℕ) : Option ℕ :=
  format.map fun format =>
    if instructionOffsetRowsFormat ≤ format ∧ format ≤ preemptionRecordFormatMax then
      preemptionRecordFormatWithoutOffsets
    else format

def listsTimeSkipsIn (timing : Option ℕ) : Bool := timing.any (timeSkipsFormat ≤ ·)

def readsFormat (format : Option ℕ) : Bool :=
  format.all fun format => timeSkipsFormat ≤ format ∧ format ≤ preemptionRecordFormatMax

/-! ## The record -/

/-- `InstructionOffset` (`detcore/src/resources.rs`). -/
structure InstructionOffset where
  rcbTarget : ℕ
  instructions : ℕ
deriving DecidableEq

/-- `ChaosEpochTransition` (`detcore/src/resources.rs`): the factor in its units. -/
structure ChaosEpochTransition where
  logicalTime : LogicalTime
  epoch : ℕ
  factor : ℕ
deriving DecidableEq

structure ThreadHistory where
  finalPrio : Priority
  prioChanges : List (LogicalTime × Priority) := []
  preemptionRcbs : List ℕ := []
  preemptionInstructionOffsets : List (Option InstructionOffset) := []
  chaosEpochs : List ChaosEpochTransition := []
deriving DecidableEq

def ThreadHistory.hasInstructionOffsets (history : ThreadHistory) : Bool :=
  history.preemptionInstructionOffsets.any Option.isSome

/-- `callback_history::Origin`, without the callback and its site. -/
structure Origin where
  progress : ℕ
  lastOp : Option Op
  time : LogicalTime
  rcbs : ℕ
deriving DecidableEq

structure Checkpoint where
  historyIndex : ℕ
  origin : Origin
deriving DecidableEq

inductive TimeSkipReason
  | fifoOpenAlone
  | idleGuestPollers
deriving DecidableEq

structure TimeSkip where
  event : ℕ
  target : LogicalTime
  reason : TimeSkipReason
deriving DecidableEq

/-- `rejoin_log::Rejoin`, without the timed events popped before it. -/
structure Rejoin where
  turn : ℕ
  wakes : ℕ
  calls : List (DetTid × ℕ)
deriving DecidableEq

structure PostCrashSwitch where
  dtid : DetTid
  signal : ℤ
  execBy : Option DetTid
  turn : ℕ
  bound : ℕ
deriving DecidableEq

/-- `GuestIds` (`detcore-model/src/pid.rs`). -/
inductive GuestIds
  | namespace
  | host
  | chosen (base : ℤ) (refuseHostIds : Bool)
deriving DecidableEq

/-- Whether Detcore chooses the IDs. -/
def GuestIds.isChosen : GuestIds → Bool
  | .chosen _ _ => true
  | _ => false

structure ReservedInputLayout where
  contract : String
  base : String
  pageBytes : ℕ
  abi : String
deriving DecidableEq

inductive ReservedInputMetadata
  | missing
  | layout (layout : ReservedInputLayout)
  | other (json : String)
deriving DecidableEq

inductive RewriteExclusivesMode
  | overlay
  | memory
deriving DecidableEq

structure RewriteExclusives where
  mode : RewriteExclusivesMode
  formatVersion : ℕ
deriving DecidableEq

structure PreemptionRecord where
  perThread : OrdMap DetTid ThreadHistory := ∅
  global : List SchedEvent := []
  epoch : Option ℤ := none
  pipeWakeLatency : Option ℕ := none
  signalStateCopy : Option Bool := none
  capPreemptionCharge : Bool := false
  chaosTimeslice : Option ℕ := none
  guestIds : Option GuestIds := none
  replayDepartedAt : Option ℕ := none
  reservedInput : ReservedInputMetadata := .missing
  postCrashTimeslice : Option ℕ := none
  postCrash : Option (List PostCrashSwitch) := none
  uncappedSlices : Option ℕ := none
  callbackCheckpoints : OrdMap DetTid (List Checkpoint) := ∅
  rngSeed : Option ℕ := none
  expiredWaitRunsChargedOnce : Bool := false
  hostInputs : Option String := none
  queuedSleepsRegisteredAtFirstPass : Bool := false
  storeExclusiveFailures : ℕ := 0
  formatVersion : Option ℕ := none
  timeSkips : Option (List TimeSkip) := none
  rejoins : Option (List Rejoin) := none
  backgroundStarts : List BackgroundStart := []
  rewriteExclusivesInMemory : Bool := false
  rowsAlone : Bool := false
  backgroundStartsUnnoted : Bool := false
  rewriteExclusives : Option RewriteExclusives := none
  rewriteExclusivesStrippedHeuristic : Bool := false
deriving DecidableEq

/-! ## Validation -/

/-- What `validate` refuses, with what its texts name. -/
inductive RecordError
  | backgroundStartOutOfOrder (start : BackgroundStart) (events : ℕ)
  | unnotedHoldsStarts (starts : ℕ)
  | unnotedBelowFormat (format : ℕ)
  | unnotedStopless (stopless : ℕ)
  | startsBelowFormat (format : ℕ)
  | rejoinsOutOfOrder (turn previous : ℕ)
  | rowsAloneWithTrace
  | callbackProgressOverflow
  | callbackHistoryWithoutThread
  | callbackHistoryRow (tid : DetTid) (row : ℕ)
  | callbackHistoryEndpoint (tid : DetTid) (row : ℕ)
  | finalPriority (tid : DetTid) (prio : Priority)
  | preemptionPriority (count : ℕ) (tid : DetTid) (prio : Priority)
  | changePointOrder (tid : DetTid) (point : ℕ) (time : LogicalTime) (before : ℕ)
      (last : LogicalTime)
  | rcbTargets (tid : DetTid) (times targets : ℕ)
  | instructionOffsets (tid : DetTid) (times offsets : ℕ)
  | offsetsWithoutRcbTargets (tid : DetTid)
  | zeroOffset (tid : DetTid)
  | offsetPastRow (tid : DetTid)
  | rcbTargetsDecrease (tid : DetTid)
  | chaosFactor (tid : DetTid)
  | chaosTimes (tid : DetTid)
  | chaosEpochs (tid : DetTid)
  | indefiniteTimeSkip (skip : TimeSkip)
  | emptyTimeSkips
  | offsetsBelowFormat (format : Option ℕ)
  | stoplessMark (event : ℕ) (refusal : String)
  | stoplessBelowFormat (format : Option ℕ) (stopless : ℕ)
  | format (format : Option ℕ) (skips : ℕ)
  | timeSkipOrder (first second : TimeSkip)
deriving DecidableEq

def stoplessCount (events : List SchedEvent) : ℕ := events.countP (·.stopless)

namespace PreemptionRecord

def rowsCarryInstructionOffsets (record : PreemptionRecord) : Bool :=
  (OrdMap.values record.perThread).any ThreadHistory.hasInstructionOffsets

def notesBackgroundStarts (record : PreemptionRecord) : Bool :=
  record.formatVersion.any (backgroundStartsFormat ≤ ·) && !record.backgroundStartsUnnoted &&
    !record.rowsAlone

def timingFormat (record : PreemptionRecord) : Option ℕ :=
  if record.rowsAlone ∧ record.formatVersion.any
      (fun format => instructionOffsetRowsFormat ≤ format ∧ format ≤ preemptionRecordFormatMax) then
    none
  else record.formatVersion

def listsItsTimeSkips (record : PreemptionRecord) : Bool := listsTimeSkipsIn record.timingFormat

def checkBackgroundStarts (record : PreemptionRecord) : Except RecordError Unit :=
  let events := record.global.length
  let starts := record.backgroundStarts
  let outOfOrder := ((starts.zip starts.tail).find? fun pair => pair.2.after < pair.1.after).map
    Prod.snd
  match outOfOrder.or (starts.find? (events < ·.after)) with
  | some start => .error (.backgroundStartOutOfOrder start events)
  | none => .ok ()

/-- A record that says it notes no starts. -/
def checkUnnoted (record : PreemptionRecord) : Except RecordError Unit :=
  if record.backgroundStartsUnnoted ∧ readsFormat record.formatVersion then
    if record.backgroundStarts ≠ [] then
      .error (.unnotedHoldsStarts record.backgroundStarts.length)
    else if record.formatVersion.all (· < instructionOffsetRowsFormat) then
      .error (.unnotedBelowFormat (record.formatVersion.getD 1))
    else if 0 < stoplessCount record.global then
      .error (.unnotedStopless (stoplessCount record.global))
    else .ok ()
  else .ok ()

/-- Starts need a format that notes them. -/
def checkStartsNoted (record : PreemptionRecord) : Except RecordError Unit :=
  if record.backgroundStarts ≠ [] ∧ ¬ record.notesBackgroundStarts then
    .error (.startsBelowFormat (record.formatVersion.getD 1))
  else .ok ()

/-- `rejoin_log::ordered`, for the readmissions there are. -/
def checkRejoins (record : PreemptionRecord) : Except RecordError Unit :=
  let rejoins := record.rejoins.getD []
  match (rejoins.zip rejoins.tail).find? fun pair =>
      toLex (pair.2.turn, pair.2.wakes) < toLex (pair.1.turn, pair.1.wakes) with
  | some pair => .error (.rejoinsOutOfOrder pair.2.turn pair.1.turn)
  | none => .ok ()

def checkRowsAlone (record : PreemptionRecord) : Except RecordError Unit :=
  if record.rowsAlone ∧ record.global ≠ [] then .error .rowsAloneWithTrace else .ok ()

/-- The maps of `validate_callback_checkpoints`: for each thread its progress, and the
    operation that ends at each progress. -/
structure Endpoints where
  progress : DetTid → ℕ := fun _ => 0
  op : DetTid → ℕ → Option Op := fun _ _ => none

def Endpoints.observe (checkpoints : OrdMap DetTid (List Checkpoint)) (ends : Endpoints)
    (event : SchedEvent) : Except RecordError Endpoints :=
  if 0 < event.count ∧ checkpoints.contains event.dettid then
    match checkedAdd (ends.progress event.dettid) event.count with
    | none => .error .callbackProgressOverflow
    | some count => .ok
      { progress := Function.update ends.progress event.dettid count
        op := Function.update ends.op event.dettid
          (Function.update (ends.op event.dettid) count (some event.op)) }
  else .ok ends

def checkCheckpoints (tid : DetTid) (history : ThreadHistory) (op : ℕ → Option Op) :
    Option (ℕ × ℕ) → List Checkpoint → Except RecordError Unit
  | _, [] => .ok ()
  | previous, checkpoint :: rest =>
    let row := checkpoint.historyIndex
    let origin := checkpoint.origin
    if (previous.any fun last => row ≤ last.1 ∨ origin.progress < last.2) ∨
        history.prioChanges[row]?.map Prod.fst ≠ some origin.time ∨
        history.preemptionRcbs[row]? ≠ some origin.rcbs then
      .error (.callbackHistoryRow tid row)
    else if (if origin.progress = 0 then origin.lastOp = none
        else op origin.progress = origin.lastOp ∧ origin.lastOp.isSome) then
      checkCheckpoints tid history op (some (row, origin.progress)) rest
    else .error (.callbackHistoryEndpoint tid row)

def checkThreadCheckpoints (record : PreemptionRecord) (ends : Endpoints)
    (entry : DetTid × List Checkpoint) : Except RecordError Unit :=
  match record.perThread[entry.1]? with
  | none => .error .callbackHistoryWithoutThread
  | some history => checkCheckpoints entry.1 history (ends.op entry.1) none entry.2

def validateCallbackCheckpoints (record : PreemptionRecord) : Except RecordError Unit := do
  let ends ← record.global.foldlM (Endpoints.observe record.callbackCheckpoints) {}
  record.callbackCheckpoints.toList.forM (record.checkThreadCheckpoints ends)

def checkChangePoints (tid : DetTid) :
    Option LogicalTime → ℕ → List (LogicalTime × Priority) → Except RecordError Unit
  | _, _, [] => .ok ()
  | none, count, (time, _) :: rest => checkChangePoints tid (some time) (count + 1) rest
  | some last, count, (time, prio) :: rest =>
    if ¬ isOrdinaryPriority prio then .error (.preemptionPriority count tid prio)
    else if time ≤ last then .error (.changePointOrder tid (count + 1) time count last)
    else checkChangePoints tid (some time) (count + 1) rest

def checkChaosEpochs (tid : DetTid) :
    Option (LogicalTime × ℕ) → List ChaosEpochTransition → Except RecordError Unit
  | _, [] => .ok ()
  | last, transition :: rest =>
    if transition.factor = 0 then .error (.chaosFactor tid)
    else if last.any (transition.logicalTime ≤ ·.1) then .error (.chaosTimes tid)
    else if last.any (transition.epoch ≤ ·.2) then .error (.chaosEpochs tid)
    else checkChaosEpochs tid (some (transition.logicalTime, transition.epoch)) rest

def checkRows (tid : DetTid) (history : ThreadHistory) : Except RecordError Unit :=
  let times := history.prioChanges.length
  let rcbs := history.preemptionRcbs
  let offsets := history.preemptionInstructionOffsets
  if rcbs ≠ [] ∧ rcbs.length ≠ times then .error (.rcbTargets tid times rcbs.length)
  else if offsets ≠ [] ∧ offsets.length ≠ times then
    .error (.instructionOffsets tid times offsets.length)
  else if offsets ≠ [] ∧ rcbs = [] then .error (.offsetsWithoutRcbTargets tid)
  else if offsets.reduceOption.any (·.instructions = 0) then .error (.zeroOffset tid)
  else if (offsets.zip rcbs).any fun row => row.1.any (row.2 < ·.rcbTarget) then
    .error (.offsetPastRow tid)
  else if (rcbs.zip rcbs.tail).any fun pair => pair.2 < pair.1 then
    .error (.rcbTargetsDecrease tid)
  else .ok ()

def validateHistory (entry : DetTid × ThreadHistory) : Except RecordError Unit := do
  let (tid, history) := entry
  if ¬ isOrdinaryPriority history.finalPrio then
    throw (.finalPriority tid history.finalPrio)
  checkChangePoints tid none 0 history.prioChanges
  checkRows tid history
  checkChaosEpochs tid none history.chaosEpochs

def validateHistories (record : PreemptionRecord) : Except RecordError Unit :=
  record.perThread.toList.forM validateHistory

def validateContents (record : PreemptionRecord) : Except RecordError Unit := do
  record.checkBackgroundStarts
  record.checkUnnoted
  record.checkStartsNoted
  record.checkRejoins
  record.checkRowsAlone
  record.validateCallbackCheckpoints
  record.validateHistories

/-- No jump goes to the indefinite deadline, and an empty list of jumps is no list. -/
def checkTimeSkips (record : PreemptionRecord) : Except RecordError Unit :=
  match (record.timeSkips.getD []).find? (·.target = LogicalTime.max) with
  | some skip => .error (.indefiniteTimeSkip skip)
  | none => if record.timeSkips = some [] then .error .emptyTimeSkips else .ok ()

def checkOffsetsFormat (record : PreemptionRecord) : Except RecordError Unit :=
  if readsFormat record.formatVersion ∧ record.rowsCarryInstructionOffsets ∧
      record.formatVersion.all (· < instructionOffsetRowsFormat) then
    .error (.offsetsBelowFormat record.formatVersion)
  else .ok ()

def checkStoplessMarks (record : PreemptionRecord) : Except RecordError Unit :=
  match record.global.zipIdx.findSome? fun entry =>
      entry.1.stoplessMarkRefusal.map fun refusal => (entry.2, refusal) with
  | some (index, refusal) => .error (.stoplessMark index refusal)
  | none => .ok ()

def checkStoplessFormat (record : PreemptionRecord) : Except RecordError Unit :=
  if 0 < stoplessCount record.global ∧ record.formatVersion.all (· < stoplessSliceEndsFormat) then
    .error (.stoplessBelowFormat record.formatVersion (stoplessCount record.global))
  else .ok ()

/-- The format is read, and lists the jumps there are. -/
def checkFormat (record : PreemptionRecord) : Except RecordError Unit :=
  let skips := record.timeSkips.getD []
  if ¬ readsFormat record.formatVersion ∨ (skips ≠ [] ∧ ¬ record.listsItsTimeSkips) then
    .error (.format record.formatVersion skips.length)
  else .ok ()

def checkTimeSkipOrder (record : PreemptionRecord) : Except RecordError Unit :=
  let skips := record.timeSkips.getD []
  match (skips.zip skips.tail).find? fun pair =>
      pair.2.event < pair.1.event ∨ pair.2.target ≤ pair.1.target with
  | some pair => .error (.timeSkipOrder pair.1 pair.2)
  | none => .ok ()

def validateFormat (record : PreemptionRecord) : Except RecordError Unit := do
  record.checkTimeSkips
  record.checkOffsetsFormat
  record.checkStoplessMarks
  record.checkStoplessFormat
  record.checkFormat
  record.checkTimeSkipOrder

def validate (record : PreemptionRecord) : Except RecordError Unit := do
  record.validateContents
  record.validateFormat

/-! ## Editors -/

def raiseFormat (record : PreemptionRecord) (format : ℕ) : PreemptionRecord :=
  let raised := match record.formatVersion with
    | none => format
    | some stated => if ¬ readsFormat (some stated) then stated else max stated format
  { record with
    formatVersion := some raised
    backgroundStartsUnnoted :=
      if ¬ record.notesBackgroundStarts ∧ ¬ record.rowsAlone ∧ readsFormat (some raised) ∧
          backgroundStartsFormat ≤ raised then true
      else record.backgroundStartsUnnoted }

def adoptOffsetsFormat (record : PreemptionRecord) : PreemptionRecord :=
  if record.rowsCarryInstructionOffsets then record.raiseFormat instructionOffsetRowsFormat
  else record

/-- Whether a slice end is found without its mark: the event after it is a branch or
    another thread's, or there is none. -/
def endStaysVisible (event : SchedEvent) (following : Option SchedEvent) : Bool :=
  following.all fun following => following.op = .branch ∨ following.dettid ≠ event.dettid

def forgetVisibleMarks : List SchedEvent → List SchedEvent
  | [] => []
  | event :: events =>
    (if event.stopless ∧ endStaysVisible event events.head? then { event with stopless := false }
      else event) :: forgetVisibleMarks events

def belowStoplessFormat (record : PreemptionRecord) : Bool :=
  record.backgroundStartsUnnoted || record.formatVersion.all (· < stoplessSliceEndsFormat)

def forgetStoplessMarks (record : PreemptionRecord) : PreemptionRecord :=
  if record.belowStoplessFormat then
    { record with global := forgetVisibleMarks record.global }
  else record

def forgetBackgroundStarts (record : PreemptionRecord) : PreemptionRecord :=
  ({ record with
      backgroundStarts := []
      backgroundStartsUnnoted := false
      formatVersion := formatWithoutBackgroundStarts record.formatVersion } :
    PreemptionRecord).adoptOffsetsFormat.forgetStoplessMarks

def forgetRunPoints (record : PreemptionRecord) : PreemptionRecord :=
  ({ record with callbackCheckpoints := ∅, rejoins := none } :
    PreemptionRecord).forgetBackgroundStarts

/-- The progress of each thread of the events, where it does not overflow. -/
def reached (events : List SchedEvent) : Option (DetTid → Option ℕ) :=
  events.foldlM (fun reached event =>
    let count := (reached event.dettid).getD 0
    (if 0 < event.count then checkedAdd count event.count else some count).map fun count =>
      Function.update reached event.dettid (some count)) fun _ => none

/-- The thread whose slice goes on at the end of a prefix. -/
def runningThread (events : List SchedEvent) (followed : Bool) : Option DetTid :=
  (events.getLast?.filter fun last => followed && decide (0 < last.count)).map (·.dettid)

def keptCheckpoints (reached : DetTid → Option ℕ) (running : Option DetTid) (tid : DetTid)
    (points : List Checkpoint) : Option (List Checkpoint) :=
  (reached tid).bind fun reached =>
    let kept := points.filter fun point =>
      if running = some tid then point.origin.progress < reached
      else point.origin.progress ≤ reached
    if kept = [] then none else some kept

/-- The jumps that a prefix reaches. -/
def keptTimeSkips (skips : Option (List TimeSkip)) (len : ℕ) : Option (List TimeSkip) :=
  (skips.map (List.takeWhile (·.event ≤ len))).filter (· ≠ [])

def schedulePrefix (record : PreemptionRecord) (len : ℕ) : Option PreemptionRecord :=
  let followed : Bool := len < record.global.length
  let global := record.global.take len
  (reached global).map fun reached =>
    let kept := { record with
      global := global
      postCrash := if followed then none else record.postCrash
      callbackCheckpoints := record.callbackCheckpoints.filterMap
        (keptCheckpoints reached (runningThread global followed))
      storeExclusiveFailures := 0
      timeSkips := keptTimeSkips record.timeSkips len
      rejoins := if followed then none else record.rejoins }
    (if followed then kept.forgetBackgroundStarts else kept).forgetStoplessMarks

def stoplessLoweringRefusal (record : PreemptionRecord) : Except RecordError Unit :=
  let stopless := stoplessCount record.global
  if 0 < stopless ∧ record.backgroundStartsUnnoted then .error (.unnotedStopless stopless)
  else if 0 < stopless ∧ record.formatVersion.all (· < stoplessSliceEndsFormat) then
    .error (.stoplessBelowFormat record.formatVersion stopless)
  else .ok ()

def withSchedule (record : PreemptionRecord) (events : List SchedEvent) : Option PreemptionRecord :=
  let edited := ({ record with global := events } : PreemptionRecord).forgetStoplessMarks
  if edited.validate = .ok () then some edited else none

def withTimeSkips (record : PreemptionRecord) (skips : List TimeSkip) : PreemptionRecord :=
  let listed := { record with timeSkips := if skips = [] then none else some skips }
  if skips ≠ [] ∧ ¬ listed.listsItsTimeSkips then listed.raiseFormat timeSkipsFormat else listed

def withFormat (record : PreemptionRecord) (format : Option ℕ) : PreemptionRecord :=
  ({ record with formatVersion := format, backgroundStartsUnnoted := false } :
    PreemptionRecord).adoptOffsetsFormat.forgetStoplessMarks

def withCurrentFormat (record : PreemptionRecord) : PreemptionRecord :=
  if ¬ readsFormat record.formatVersion then record
  else
    let withoutOffsets := formatWithoutInstructionOffsets (some preemptionRecordFormatMax)
    record.withFormat (if record.notesBackgroundStarts then withoutOffsets
      else formatWithoutBackgroundStarts withoutOffsets)

/-- A history without its contents. -/
def strippedHistory : ThreadHistory := { finalPrio := 1000 }

def stripContents (record : PreemptionRecord) : PreemptionRecord :=
  let edited := record.forgetRunPoints
  { edited with
    perThread := edited.perThread.map fun _ _ => strippedHistory
    global := [] }

def preemptionsOnly (record : PreemptionRecord) : PreemptionRecord :=
  let edited := { record.forgetRunPoints with global := [] }
  if edited.rowsCarryInstructionOffsets ∧ readsFormat edited.formatVersion then
    { edited with
      formatVersion := some instructionOffsetRowsFormat
      rowsAlone := true
      backgroundStartsUnnoted := false
      timeSkips := none }
  else edited

def clonePreemptionsOnly (record : PreemptionRecord) : PreemptionRecord :=
  { record with
    global := []
    postCrash := none
    callbackCheckpoints := ∅
    storeExclusiveFailures := 0
    formatVersion :=
      if record.rowsCarryInstructionOffsets then some instructionOffsetRowsFormat else none
    timeSkips := none
    rejoins := none
    backgroundStarts := []
    rowsAlone := record.rowsCarryInstructionOffsets
    backgroundStartsUnnoted := false }

/-- What `interpolate_events` refuses. -/
inductive InterpolationError
  | invalid (error : RecordError)
  | reservedInput
  | formats (first second : Option ℕ)
  | timeJumps
  | checkpoints
  | metadata
deriving DecidableEq

def recognized : ReservedInputMetadata → Option ReservedInputLayout
  | .layout layout =>
    if layout.contract = "sealed-private-input-v1" ∧ layout.base = "0x71010000" ∧
        (layout.abi = "x86_64" ∨ layout.abi = "aarch64") ∧
        (layout.pageBytes = 4096 ∨ layout.pageBytes = 16384 ∨ layout.pageBytes = 65536) then
      some layout
    else none
  | _ => none

def combinedReservedInputs (record other : PreemptionRecord) : Bool :=
  (!record.guestIds.any GuestIds.isChosen && !other.guestIds.any GuestIds.isChosen) ||
    ((recognized record.reservedInput).isSome &&
      recognized record.reservedInput == recognized other.reservedInput)

def interpolationMetadata (source : PreemptionRecord) : PreemptionRecord :=
  ({ source with global := [], perThread := ∅ } : PreemptionRecord).forgetRunPoints

def listsNoTimeSkips (skips : Option (List TimeSkip)) : Bool := skips.all List.isEmpty

/-- The record of a mixed order. The counts of failed store-exclusives, which records do
    not compare, are compared beside them there. -/
def mixedRecord (record other : PreemptionRecord) (events : List SchedEvent) :
    Except InterpolationError PreemptionRecord :=
  let edited := record.interpolationMetadata
  let reserved :=
    if ¬ record.guestIds.any GuestIds.isChosen ∧ ¬ other.guestIds.any GuestIds.isChosen then
      edited.reservedInput
    else other.reservedInput
  if edited ≠ { other.interpolationMetadata with reservedInput := reserved } then .error .metadata
  else
    let result := ({ edited with global := events } : PreemptionRecord).forgetStoplessMarks
    (result.validate.mapError .invalid).map fun _ => result

def interpolateEvents (record other : PreemptionRecord) (events : List SchedEvent) :
    Except InterpolationError PreemptionRecord := do
  record.validate.mapError .invalid
  other.validate.mapError .invalid
  if ¬ record.combinedReservedInputs other then throw .reservedInput
  else if record.formatVersion ≠ other.formatVersion ∨ record.timingFormat ≠ other.timingFormat then
    throw (.formats record.formatVersion other.formatVersion)
  else if events = record.global then pure record
  else if events = other.global then pure other
  else if ¬ listsNoTimeSkips record.timeSkips ∨ ¬ listsNoTimeSkips other.timeSkips then
    throw .timeJumps
  else if ¬ record.callbackCheckpoints.isEmpty ∨ ¬ other.callbackCheckpoints.isEmpty then
    throw .checkpoints
  else record.mixedRecord other events

/-! ## Flat histories -/

/-- `DEFAULT_PRIORITY` (`scheduler/runqueue.rs`). -/
def defaultPriority : Priority := 1000

def asVecFrom (time : LogicalTime) (finalPrio : Priority) :
    List (LogicalTime × Priority) → List (LogicalTime × Priority)
  | [] => [(time, finalPrio)]
  | (next, prio) :: changes => (time, prio) :: asVecFrom next finalPrio changes

def asVec (history : ThreadHistory) : List (LogicalTime × Priority) :=
  asVecFrom LogicalTime.zero history.finalPrio history.prioChanges

def changesOf : List (LogicalTime × Priority) → List (LogicalTime × Priority)
  | (_, prio) :: (next, nextPrio) :: rest => (next, prio) :: changesOf ((next, nextPrio) :: rest)
  | _ => []

def historyOf (vec : List (LogicalTime × Priority)) : ThreadHistory :=
  { finalPrio := (vec.getLast?.map Prod.snd).getD defaultPriority
    prioChanges := changesOf vec }

def fromVecs (vecs : OrdMap DetTid (List (LogicalTime × Priority))) : Option PreemptionRecord :=
  if (OrdMap.values vecs).all fun vec => vec.getLast?.all fun last => isOrdinaryPriority last.2 then
    some { perThread := vecs.map fun _ vec => historyOf vec }
  else none

def withGuestIds (record : PreemptionRecord) (ids : GuestIds) : PreemptionRecord :=
  { record with guestIds := if ids ≠ .namespace then some ids else none }

def withReservedInput (record : PreemptionRecord) (metadata : ReservedInputMetadata) :
    PreemptionRecord := { record with reservedInput := metadata }

def withRewriteExclusives (record : PreemptionRecord) (rewrite : Option RewriteExclusives) :
    PreemptionRecord :=
  { record with
    rewriteExclusives := rewrite
    rewriteExclusivesInMemory := rewrite.any (·.mode = .memory) }

end PreemptionRecord

end Hermit.Preemptions
