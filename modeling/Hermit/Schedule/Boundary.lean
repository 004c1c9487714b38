import Hermit.Common.Run
import Hermit.Schedule.Event

/-!
# Slice-boundary schedules

The slice-boundary protocol of `detcore-model/src/schedule/boundary.rs`: a stream of
ordinary events and slice boundaries, the decoder that validates it, and the cursor that
replays it.
-/

namespace Hermit

def Sysno.sched_yield : Sysno := ⟨24⟩

namespace Boundary

open Common

/-! ## Records -/

structure Owner where
  tid : DetTid
  threadGeneration : ℕ
  birthTid : DetTid
  birthGeneration : ℕ
  addressSpaceCreator : DetTid
  addressSpaceGeneration : ℕ
deriving DecidableEq

namespace Owner

def fields (owner : Owner) : ℤ ×ₗ ℕ ×ₗ ℤ ×ₗ ℕ ×ₗ ℤ ×ₗ ℕ :=
  toLex (owner.tid, toLex (owner.threadGeneration, toLex (owner.birthTid,
    toLex (owner.birthGeneration, toLex (owner.addressSpaceCreator, owner.addressSpaceGeneration)))))

theorem fields_injective : Function.Injective fields := by
  rintro ⟨⟩ ⟨⟩ h
  cases h
  rfl

/-- The derived order. -/
instance : LinearOrder Owner := LinearOrder.lift' fields fields_injective

def birth (owner : Owner) : DetTid ×ₗ ℕ := toLex (owner.birthTid, owner.birthGeneration)

end Owner

inductive Phase
  | prehook
  | posthook
  | timerMaximum
deriving DecidableEq

inductive Cause
  | softwareCheckin
  | pmuTimer
  | noRcbTimer
  | explicitSchedYield
deriving DecidableEq

inductive Entry
  | syscall (syscall : Sysno) (occurrence : ℕ)
  | rdtsc
  | cpuid
  | pmuTimer
  | noRcbTimer
  | threadStart
  | exec
  | signalEntry (signal : SigWrapper) (occurrence : ℕ) (announced : Bool)
  | signal (signal : SigWrapper) (occurrence : ℕ) (announced : Bool) (delivery : ℕ)
deriving DecidableEq

structure Identity where
  owner : Owner
  cause : Cause
  phase : Phase
  entry : Entry
  committedRcbs : ℕ
  checkin : ℕ
  slice : ℕ
deriving DecidableEq

/-- `Boundary`. -/
structure TimesliceEnd where
  identity : Identity
  count : ℕ
  startRip : Option InstructionPointer
  endRip : Option InstructionPointer
  endTime : Option LogicalTime
deriving DecidableEq

inductive Record
  | event (event : SchedEvent)
  | timesliceEnd (boundary : TimesliceEnd)
deriving DecidableEq

/-- `Error`, without the refusal of edits. -/
inductive Error
  | unsupportedProtocol (protocol : String) (version : ℕ)
  | recordCount (declared actual : ℕ)
  | boundaryCount (declared actual : ℕ)
  | invalidBoundary (index : ℕ) (reason : String)
  | invalidEvent (index : ℕ) (reason : String)
  | mismatch (index : ℕ) (expected observed : Record)
  | exhausted (index : ℕ) (observed : Record)
  | incomplete (index remaining : ℕ)
deriving DecidableEq

/-! ## The validator -/

def Entry.hasZero : Entry → Bool
  | .syscall _ occurrence => occurrence = 0
  | .signal _ occurrence _ delivery => delivery = 0 || occurrence = 0
  | .signalEntry _ occurrence _ => occurrence = 0
  | _ => false

def Entry.signal? : Entry → Option SigWrapper
  | .signal sig _ _ _ => some sig
  | .signalEntry sig _ _ => some sig
  | _ => none

def Entry.phaseMatches (phase : Phase) : Entry → Bool
  | .signalEntry _ _ _ => phase = .prehook
  | .signal _ _ _ _ => phase = .posthook
  | _ => true

def Cause.matches (entry : Entry) : Cause → Bool
  | .pmuTimer => entry = .pmuTimer
  | .noRcbTimer => entry = .noRcbTimer
  | .explicitSchedYield =>
    match entry with
    | .syscall syscall _ => syscall = .sched_yield
    | _ => false
  | .softwareCheckin => entry ≠ .pmuTimer && entry ≠ .noRcbTimer

def TimesliceEnd.validateShape (boundary : TimesliceEnd) (index : ℕ) : Except Error Unit := do
  let id := boundary.identity
  let invalid := Error.invalidBoundary index
  if boundary.count ≠ 1 then throw (invalid "boundary count must be one")
  if id.owner.tid ≤ 0 ∨ id.owner.birthTid ≤ 0 ∨ id.owner.addressSpaceCreator ≤ 0 ∨ id.checkin = 0 ∨
      id.slice = 0 then
    throw (invalid "nonpositive owner or zero occurrence")
  if id.entry.hasZero then throw (invalid "zero syscall or signal occurrence")
  if id.entry.signal?.any fun signal => ¬ (1 ≤ signal.raw ∧ signal.raw ≤ 64) then
    throw (invalid "invalid logical signal")
  if ¬ id.entry.phaseMatches id.phase then
    throw (invalid "signal entry/delivery phase mismatch")
  if id.phase = .timerMaximum ∧ id.entry ≠ .noRcbTimer then
    throw (invalid "maximum-body phase requires the actual no-RCB timer")
  if ¬ id.cause.matches id.entry then
    throw (invalid "cause disagrees with actual semantic entry")
  return ()

/-- What `validate_records` knows of the records before the current one. -/
structure Seen where
  previous : OrdMap Owner Identity := ∅
  latestOwner : OrdMap DetTid Owner := ∅
  latestBirth : OrdMap (DetTid ×ₗ ℕ) Owner := ∅

/-- The owner comes before one that had the same thread ID. -/
def Owner.movedBackwards (owner last : Owner) : Prop :=
  owner.threadGeneration < last.threadGeneration ∨ owner.threadGeneration = last.threadGeneration ∧
      (owner.birthTid ≠ last.birthTid ∨ owner.birthGeneration ≠ last.birthGeneration ∨
        owner.addressSpaceGeneration < last.addressSpaceGeneration ∨
        owner.addressSpaceGeneration = last.addressSpaceGeneration ∧
          owner.addressSpaceCreator ≠ last.addressSpaceCreator)
deriving Decidable

/-- The owner cannot follow one with the same birth identity. -/
def Owner.movedWithoutExec (owner last : Owner) : Prop :=
  owner.addressSpaceGeneration < last.addressSpaceGeneration ∨
    owner.addressSpaceGeneration = last.addressSpaceGeneration ∧ owner ≠ last
deriving Decidable

def Identity.checkPrevious (id : Identity) (invalid : String → Error) :
    Option Identity → Except Error Unit
  | some last => do
    if checkedAdd last.slice 1 ≠ some id.slice then
      throw (invalid "missing, duplicated or reordered slice occurrence")
    if id.checkin < last.checkin ∨ id.committedRcbs < last.committedRcbs then
      throw (invalid "check-in or guest RCB count moved backwards")
    if id.checkin = last.checkin ∧
        (id.entry ≠ last.entry ∨ id.phase ≠ last.phase ∨ id.committedRcbs ≠ last.committedRcbs) then
      throw (invalid "one semantic check-in has conflicting identities")
    return ()
  | none =>
    if id.slice ≠ 1 then throw (invalid "first completed slice must be one") else return ()

def validateEvent (index : ℕ) (event : SchedEvent) : Except Error Unit := do
  if event.dettid ≤ 0 ∨ event.count = 0 then
    throw (.invalidEvent index "event owner and count must be positive")
  if event.stopless then
    throw (.invalidEvent index "a slice-boundary recording marks no event `stopless`")
  return ()

def Seen.validateBoundary (seen : Seen) (index : ℕ) (boundary : TimesliceEnd) :
    Except Error Seen := do
  let id := boundary.identity
  let invalid := Error.invalidBoundary index
  boundary.validateShape index
  if seen.latestOwner[id.owner.tid]?.any fun last => id.owner.movedBackwards last then
    throw (invalid "owner generation moved backwards")
  if seen.latestBirth[id.owner.birth]?.any fun last => id.owner.movedWithoutExec last then
    throw (invalid "logical survivor moved without a new exec incarnation")
  id.checkPrevious invalid seen.previous[id.owner]?
  return {
    previous := seen.previous.insert id.owner id
    latestOwner := seen.latestOwner.insert id.owner.tid id.owner
    latestBirth := seen.latestBirth.insert id.owner.birth id.owner }

def Seen.validateRecord (seen : Seen) : Record × ℕ → Except Error Seen
  | (.event event, index) => do
    validateEvent index event
    return seen
  | (.timesliceEnd boundary, index) => seen.validateBoundary index boundary

def validateRecords (records : List Record) : Except Error Unit := do
  let _ ← records.zipIdx.foldlM Seen.validateRecord {}
  return ()

/-! ## Schedules -/

structure Schedule where
  records : List Record
deriving DecidableEq

def Schedule.new (records : List Record) : Except Error Schedule := do
  validateRecords records
  return ⟨records⟩

def Schedule.Valid (schedule : Schedule) : Prop := validateRecords schedule.records = .ok ()

structure Wire where
  protocol : String
  version : ℕ
  recordCount : ℕ
  boundaryCount : ℕ
  records : List Record

def Record.identity? : Record → Option Identity
  | .event _ => none
  | .timesliceEnd boundary => some boundary.identity

def boundaryCount (records : List Record) : ℕ := records.countP (·.identity?.isSome)

def Schedule.tryFrom (wire : Wire) : Except Error Schedule := do
  if wire.protocol ≠ "hermit-slice-boundaries" ∨ wire.version ≠ 1 then
    throw (.unsupportedProtocol wire.protocol wire.version)
  if wire.recordCount ≠ wire.records.length then
    throw (.recordCount wire.recordCount wire.records.length)
  if wire.boundaryCount ≠ Boundary.boundaryCount wire.records then
    throw (.boundaryCount wire.boundaryCount (Boundary.boundaryCount wire.records))
  Schedule.new wire.records

def Record.stripTime : Record → Record
  | .event e => .event { e with endTime := none }
  | .timesliceEnd e => .timesliceEnd { e with endTime := none }

def Schedule.stripTimes (schedule : Schedule) : Schedule := ⟨schedule.records.map Record.stripTime⟩

/-! ## The cursor -/

/-- The evidence that the stored record does not hold is dropped from the observed one. -/
def Record.comparable : Record → Record → Record
  | .event e, .event o => .event {
      o with
      endTime := if e.endTime.isNone then none else o.endTime
      startRip := if e.startRip.isNone then none else o.startRip
      endRip := if e.endRip.isNone then none else o.endRip }
  | .timesliceEnd e, .timesliceEnd o => .timesliceEnd {
      o with
      endTime := if e.endTime.isNone then none else o.endTime
      startRip := if e.startRip.isNone then none else o.startRip
      endRip := if e.endRip.isNone then none else o.endRip }
  | _, observed => observed

def Record.checkObservation (expected : Record) (index : ℕ) (observed : Record) :
    Except Error Unit :=
  if expected ≠ expected.comparable observed then .error (.mismatch index expected observed)
  else .ok ()

structure Cursor where
  schedule : Schedule
  next : ℕ

def Schedule.cursor (schedule : Schedule) : Cursor := ⟨schedule, 0⟩

def Cursor.expected (cursor : Cursor) : Option Record := cursor.schedule.records[cursor.next]?

def Cursor.observe (cursor : Cursor) (observed : Record) : Except Error Unit × Cursor :=
  match cursor.expected with
  | none => (.error (.exhausted cursor.next observed), cursor)
  | some expected =>
    match expected.checkObservation cursor.next observed with
    | .error e => (.error e, cursor)
    | .ok () => (.ok (), { cursor with next := cursor.next + 1 })

def Cursor.finish (cursor : Cursor) : Except Error Unit :=
  let remaining := cursor.schedule.records.length - cursor.next
  if remaining = 0 then .ok () else .error (.incomplete cursor.next remaining)

def Cursor.drive (cursor : Cursor) : List Record → Except Error Unit × Cursor
  | [] => (.ok (), cursor)
  | observed :: rest =>
    match cursor.observe observed with
    | (.error e, cursor) => (.error e, cursor)
    | (.ok (), cursor) => cursor.drive rest

def Cursor.replay (cursor : Cursor) (observed : List Record) : Except Error Unit :=
  match cursor.drive observed with
  | (.error e, _) => .error e
  | (.ok (), cursor) => cursor.finish

end Boundary

end Hermit
