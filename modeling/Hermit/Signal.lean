import Hermit.Ids

/-!
# Signals

The signals of `nix::sys::signal::Signal` on Linux x86-64, in the order of their
numbers, and what a signal timer sends when it expires
(`detcore/src/scheduler/timed_waiters.rs`, lines 122-130).
-/

namespace Hermit

inductive Signal
  | sighup | sigint | sigquit | sigill | sigtrap | sigabrt | sigbus | sigfpe | sigkill | sigusr1
  | sigsegv | sigusr2 | sigpipe | sigalrm | sigterm | sigstkflt | sigchld | sigcont | sigstop
  | sigtstp | sigttin | sigttou | sigurg | sigxcpu | sigxfsz | sigvtalrm | sigprof | sigwinch
  | sigio | sigpwr | sigsys
deriving DecidableEq

namespace Signal

def number (signal : Signal) : ℤ := signal.ctorIdx + 1

theorem number_injective : Function.Injective number := by
  intro a b h
  have hidx : a.ctorIdx = b.ctorIdx := by
    unfold number at h
    omega
  rw [← ofNat_ctorIdx a, ← ofNat_ctorIdx b, hidx]

end Signal

inductive TimerSignal
  | send (signal : Signal)
  /-- End the run with a named refusal of this real-time signal. -/
  | refuseRealTime (signo : ℤ)

namespace TimerSignal

/-- The fields in the order in which the derived `Ord` compares them. -/
def fields : TimerSignal → List ℤ
  | send signal => [0, signal.number]
  | refuseRealTime signo => [1, signo]

theorem fields_injective : Function.Injective fields := by
  rintro (a | a) (b | b) h
  · have hnumb : a.number = b.number := by simpa [fields] using h
    rw [Signal.number_injective hnumb]
  · simp [fields] at h
  · simp [fields] at h
  · simpa [fields] using h

/-- The derived order. -/
instance : LinearOrder TimerSignal := LinearOrder.lift' fields fields_injective

end TimerSignal

end Hermit
