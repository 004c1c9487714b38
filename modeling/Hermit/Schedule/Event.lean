import Hermit.Ids
import Hermit.Time.LogicalTime

/-!
# Scheduled events

`SchedEvent` of `detcore-model/src/schedule.rs`: an action of one thread, as it is
recorded and replayed.
-/

namespace Hermit

structure Sysno where
  number : ℕ
deriving DecidableEq

def Sysno.exit : Sysno := ⟨60⟩
def Sysno.exit_group : Sysno := ⟨231⟩

inductive SyscallPhase
  | prehook
  | polling
  | posthook
deriving DecidableEq

structure SigWrapper where
  raw : ℤ
deriving DecidableEq

abbrev InstructionPointer := ℕ+

inductive Op
  | branch
  | rdtsc
  | cpuid
  | syscall (sysno : Sysno) (phase : SyscallPhase)
  | otherInstructions
  | signalReceived (signal : SigWrapper)
deriving DecidableEq

structure SchedEvent where
  dettid : DetTid
  op : Op
  count : ℕ
  startRip : Option InstructionPointer := none
  endRip : Option InstructionPointer := none
  endTime : Option LogicalTime := none
  stopless : Bool := false
deriving DecidableEq

namespace SchedEvent

def stoplessMarkRefusal (e : SchedEvent) : Option String :=
  if !e.stopless then none
  else if e.op ≠ .branch then
    some "only the branches up to a timeslice end may be marked `stopless`"
  else if e.endRip.isSome then
    some "a timeslice end marked `stopless` has no end RIP: the guest was not stopped there"
  else none

end SchedEvent

/-- `BackgroundStart` (`detcore/src/preemptions.rs`): the turn that began a call which the
    kernel runs, after the first `after` events of the schedule. -/
structure BackgroundStart where
  after : ℕ
  thread : DetTid
  call : ℕ
deriving DecidableEq

end Hermit
