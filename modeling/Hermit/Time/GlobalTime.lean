import Hermit.Common.Run
import Hermit.Ids
import Hermit.Time.LogicalTime

/-!
# Global time

`GlobalTime` of `detcore-model/src/time.rs` (lines 759-1043): the sum of the work
of all threads and of the time that the scheduler adds, kept as a running total
beside the components that it is the sum of.

Every `panic!` and `assert!` is a `ClockPanic`, and so is the debug assertion that
the running total equals the sum (`sanity`) and a `u64` subtraction below zero. A
turn that would pass the end of time is refused with `ClockExhausted`.
-/

namespace Hermit

open Hermit.Common

/-- Why an operation on the global clock stops. -/
inductive ClockPanic
  /-- A thread time before the start of the container -/
  | beforeStart
  /-- A thread time before the one it had -/
  | wentBack
  /-- A thread that inherits more time than it has -/
  | inheritedBeyond
  /-- `reassign_thread` of a thread without a clock -/
  | missingThread
  /-- A subtraction below zero -/
  | underflow
  /-- The running total differs from the sum -/
  | sanity
deriving DecidableEq

def LogicalTime.sub (a b : LogicalTime) : Except ClockPanic LogicalTime :=
  if b ≤ a then return ⟨a.nanos - b.nanos, (Nat.sub_le _ _).trans a.nanos_le⟩
  else throw .underflow

/-- `GlobalTime`. The multiplier is read only for the charge of a turn without a
    configured cost, `(NANOS_PER_SCHED * multiplier) as u64`, which is `defaultCharge`
    here. -/
structure GlobalTime where
  startingNanos : LogicalTime
  timeVector : OrdMap DetTid LogicalTime
  inheritedTime : OrdMap DetTid LogicalTime
  extraTime : LogicalTime
  total : LogicalTime
  defaultCharge : ℕ
  schedulerTurnCharge : Option ℕ

structure ClockExhausted where
  charge : ℕ
  total : LogicalTime
deriving DecidableEq

namespace GlobalTime

def new (startingNanos : LogicalTime) (defaultCharge : ℕ) (schedulerTurnCharge : Option ℕ) :
    GlobalTime :=
  ⟨startingNanos, ∅, ∅, .zero, startingNanos, defaultCharge, schedulerTurnCharge⟩

def inheritedDuration (g : GlobalTime) (dtid : DetTid) : LogicalTime :=
  g.inheritedTime[dtid]?.getD .zero

/-- `sum_up`. The entries of the hash map come in key order here; their order does not
    matter to a saturating sum. -/
def sumUp (g : GlobalTime) : Except ClockPanic LogicalTime := do
  let sum ← g.timeVector.toList.foldlM (fun sum entry => do
    let own ← LogicalTime.sub entry.2 (g.inheritedDuration entry.1)
    return sum + own) g.startingNanos
  return sum + g.extraTime

def sanity (g : GlobalTime) : Except ClockPanic GlobalTime := do
  let sum ← g.sumUp
  if sum ≠ g.total then throw .sanity
  return g

def bumpTotal (g : GlobalTime) (delta : ℕ) : Except ClockPanic GlobalTime :=
  sanity { g with total := g.total + .clamp delta }

def updateGlobalTime (g : GlobalTime) (tid : DetTid) (newtime inherited : LogicalTime) :
    Except ClockPanic GlobalTime := do
  if newtime < g.startingNanos then throw .beforeStart
  let newtime ← newtime.sub g.startingNanos
  match g.timeVector[tid]? with
  | some old =>
    if newtime < old then throw .wentBack
    let diff ← newtime.sub old
    bumpTotal { g with timeVector := g.timeVector.insert tid newtime } diff.nanos
  | none =>
    if newtime < inherited then throw .inheritedBeyond
    let own ← newtime.sub inherited
    bumpTotal { g with
      timeVector := g.timeVector.insert tid newtime
      inheritedTime := g.inheritedTime.insert tid inherited } own.nanos

def addExtraTime (g : GlobalTime) (delta : ℕ) : Except ClockPanic (GlobalTime × LogicalTime) := do
  let g ← bumpTotal { g with extraTime := g.extraTime + .clamp delta } delta
  return (g, g.total)

def charge (g : GlobalTime) (cap : ℕ) : ℕ :=
  min (g.schedulerTurnCharge.getD g.defaultCharge) (max cap 1)

def addCappedSchedulerTime (g : GlobalTime) (cap : ℕ) :
    Except ClockPanic (GlobalTime × Except ClockExhausted LogicalTime) := do
  let charge := g.charge cap
  if g.schedulerTurnCharge.isSome ∧ checkedAdd g.total.nanos charge = none then
    return (g, .error ⟨charge, g.total⟩)
  else
    let (g, time) ← g.addExtraTime charge
    return (g, .ok time)

def addSchedulerTime (g : GlobalTime) :
    Except ClockPanic (GlobalTime × Except ClockExhausted LogicalTime) :=
  g.addCappedSchedulerTime u64Max

def retireThread (g : GlobalTime) (dtid : DetTid) : Except ClockPanic GlobalTime := do
  let inherited := g.inheritedDuration dtid
  let g := { g with inheritedTime := g.inheritedTime.erase dtid }
  match g.timeVector[dtid]? with
  | some time =>
    let own ← time.sub inherited
    sanity { g with
      timeVector := g.timeVector.erase dtid
      extraTime := g.extraTime + own }
  | none => sanity g

def reassignThread (g : GlobalTime) (from' to' : DetTid) : Except ClockPanic GlobalTime := do
  if from' = to' then return g
  else
    let g ← g.retireThread to'
    match g.timeVector[from']? with
    | none => throw .missingThread
    | some survivorTime =>
      let survivorInherited := g.inheritedDuration from'
      sanity { g with
        timeVector := (g.timeVector.erase from').insert to' survivorTime
        inheritedTime := (g.inheritedTime.erase from').insert to' survivorInherited }

end GlobalTime

/-! ## Operations as a machine -/

inductive ClockOp
  | updateGlobalTime (tid : DetTid) (newtime inherited : LogicalTime)
  | addSchedulerTime
  | addCappedSchedulerTime (cap : ℕ)
  | addExtraTime (delta : ℕ)
  | reassignThread (from' to' : DetTid)
  | retireThread (dtid : DetTid)

/-- What an operation returns. -/
inductive ClockOut
  | unit
  | time (now : LogicalTime)
  | exhausted (e : ClockExhausted)
deriving DecidableEq

/-- The result of a scheduler turn. -/
def ClockOut.ofTurn : Except ClockExhausted LogicalTime → ClockOut
  | .ok now => .time now
  | .error e => .exhausted e

/-- Perform one operation. -/
def GlobalTime.step (g : GlobalTime) : ClockOp → Except ClockPanic (GlobalTime × ClockOut)
  | .updateGlobalTime tid newtime inherited =>
    (g.updateGlobalTime tid newtime inherited).map (·, .unit)
  | .addSchedulerTime => g.addSchedulerTime.map fun (g, turn) => (g, .ofTurn turn)
  | .addCappedSchedulerTime cap =>
    (g.addCappedSchedulerTime cap).map fun (g, turn) => (g, .ofTurn turn)
  | .addExtraTime delta => (g.addExtraTime delta).map fun (g, time) => (g, .time time)
  | .reassignThread from' to' => (g.reassignThread from' to').map (·, .unit)
  | .retireThread dtid => (g.retireThread dtid).map (·, .unit)

end Hermit
