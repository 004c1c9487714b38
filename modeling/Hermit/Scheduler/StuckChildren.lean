import Hermit.Common.Loop
import Hermit.Scheduler.TimedWaiters

/-!
# Child waits that can never end

The loop of `child_waits_wait_only_on_stuck_children` (`detcore/src/scheduler.rs`) looks for the
processes that run again only after some other thread does. From the empty set it recomputes the
whole set until nothing changes.

`Derivation` is what the set is meant to hold: processes found one after the other, each from those
before it. A set that contains more makes more processes stuck (`StuckAfter.mono`), so that the
loop only adds to its set.

* `stuckProcesses_least`
-/

namespace Hermit.Scheduler

open Hermit.Common List

inductive ChildWaitSelector where
  | exact (child : DetPid)
  | any
  | processGroup (group : DetPid)

inductive ChildWaitExitClass where
  | sigchld
  | clone
  | any

structure ChildWaitSpec where
  selector : ChildWaitSelector
  owner : Option DetTid
  exitClass : ChildWaitExitClass

def sigchld : ℤ := 17

structure ProcessWaitMetadata where
  waitParent : Option DetPid
  waitOwner : DetTid
  exitSignal : ℤ
  processGroup : DetPid

/-- What the search reads of the scheduler. The last three are methods of other parts. -/
structure ChildWaits where
  processWait : OrdMap DetPid ProcessWaitMetadata
  childWaiters : OrdMap DetTid (DetPid × ChildWaitSpec)
  timedWaiters : TimedEvents
  /-- The threads parked at a gate, in a happens-before run. -/
  hbParked : Option (List DetTid)
  /-- The registered threads: the keys of `next_turns`. -/
  nextTurns : List DetTid
  committedExits : List DetTid
  threadGroupLeaders : List DetTid
  logicallyExitedProcesses : List DetPid
  sigkilledProcesses : List DetPid
  hostTimedSignals : DetTid → ℕ
  processThreads : DetTid → List DetTid
  parkedFutexWaiter : DetTid → Bool

namespace ChildWaits

variable (s : ChildWaits)

def childMatchesWait (parent child : DetPid) (spec : ChildWaitSpec) : Bool :=
  s.processWait[child]?.any fun metadata =>
    metadata.waitParent = some parent && spec.owner.all (metadata.waitOwner = ·) &&
      (match spec.exitClass with
        | .sigchld => metadata.exitSignal == sigchld
        | .clone => metadata.exitSignal != sigchld
        | .any => true) &&
      match spec.selector with
        | .exact expected => child == expected
        | .any => true
        | .processGroup group => metadata.processGroup == group

def childWaitIsStuck (parent : DetPid) (spec : ChildWaitSpec) (stuck : List DetPid) : Bool :=
  let children := s.processWait.keys.filter (s.childMatchesWait parent · spec)
  !children.isEmpty && children.all (· ∈ stuck)

/-- A live thread that runs again only after some other thread does. -/
def threadIsStuck (stuck : List DetPid) (tid : DetTid) : Bool :=
  s.hbParked.any (tid ∈ ·) || s.parkedFutexWaiter tid ||
    s.timedWaiters.threadDeadline tid = some .max ||
    s.childWaiters[tid]?.any fun (parent, spec) => s.childWaitIsStuck parent spec stuck

/-- The process may count as stuck: it has not exited, and no SIGKILL can end it (bit 8). -/
def mayBeStuck (child : DetPid) : Bool :=
  !(child ∈ s.logicallyExitedProcesses || child ∈ s.sigkilledProcesses ||
    child ∉ s.threadGroupLeaders || (s.hostTimedSignals child).testBit 8)

def childIsStuck (child : DetPid) (stuck : List DetPid) : Bool :=
  let (live, gone) := (s.processThreads child).partition (· ∈ s.nextTurns)
  s.mayBeStuck child && gone.all (· ∈ s.committedExits) && !live.isEmpty &&
    live.all (s.threadIsStuck stuck)

def nextStuck (stuck : List DetPid) : List DetPid :=
  s.processWait.keys.filter (s.childIsStuck · stuck)

/-- One round of the loop. The keys are in order, so equal sets are equal lists. -/
def round (stuck : List DetPid) : List DetPid ⊕ List DetPid :=
  if s.nextStuck stuck = stuck then .inr stuck else .inl (s.nextStuck stuck)

def stuckProcesses (fuel : ℕ) : Option (List DetPid) := loop s.round fuel []

/-! ## Derivations -/

structure StuckAfter (earlier : List DetPid) (child : DetPid) : Prop where
  may : s.mayBeStuck child
  gone : ∀ tid ∈ s.processThreads child, tid ∉ s.nextTurns → tid ∈ s.committedExits
  live : ∃ tid ∈ s.processThreads child, tid ∈ s.nextTurns
  waits : ∀ tid ∈ s.processThreads child, tid ∈ s.nextTurns →
    (∃ parked, s.hbParked = some parked ∧ tid ∈ parked) ∨ s.parkedFutexWaiter tid ∨
    s.timedWaiters.threadDeadline tid = some .max ∨
    ∃ parent spec, s.childWaiters[tid]? = some (parent, spec) ∧
      (∃ c, s.childMatchesWait parent c spec) ∧
      ∀ c, s.childMatchesWait parent c spec → c ∈ earlier

inductive Derivation : List DetPid → Prop
  | nil : Derivation []
  | snoc {earlier : List DetPid} {child : DetPid} (before : Derivation earlier)
      (known : child ∈ s.processWait.keys) (stuck : s.StuckAfter earlier child) :
      Derivation (earlier ++ [child])

variable {s} {stuck earlier later : List DetPid} {child parent : DetPid} {spec : ChildWaitSpec}

theorem mem_keys_of_matches (h : s.childMatchesWait parent child spec) :
    child ∈ s.processWait.keys := by
  rw [OrdMap.mem_keys]
  unfold childMatchesWait at h
  cases hget : s.processWait[child]? with
  | none => simp [hget] at h
  | some metadata => exact ⟨metadata, rfl⟩

theorem childWaitIsStuck_iff : s.childWaitIsStuck parent spec stuck ↔
    (∃ c, s.childMatchesWait parent c spec) ∧
      ∀ c, s.childMatchesWait parent c spec → c ∈ stuck := by
  have hkeys : ∀ c, s.childMatchesWait parent c spec → c ∈ s.processWait.keys :=
    fun c => mem_keys_of_matches
  simp only [childWaitIsStuck, Bool.and_eq_true, Bool.not_eq_true', mem_filter,
    isEmpty_eq_false_iff_exists_mem, all_eq_true, decide_eq_true_eq]
  grind

theorem threadIsStuck_iff {tid : DetTid} : s.threadIsStuck stuck tid ↔
    (∃ parked, s.hbParked = some parked ∧ tid ∈ parked) ∨ s.parkedFutexWaiter tid ∨
    s.timedWaiters.threadDeadline tid = some .max ∨
    ∃ parent spec, s.childWaiters[tid]? = some (parent, spec) ∧
      (∃ c, s.childMatchesWait parent c spec) ∧
      ∀ c, s.childMatchesWait parent c spec → c ∈ stuck := by
  simp only [threadIsStuck, Bool.or_eq_true, Option.any_eq_true, decide_eq_true_eq, Prod.exists,
    childWaitIsStuck_iff, or_assoc]

theorem childIsStuck_iff : s.childIsStuck child stuck ↔ s.StuckAfter stuck child := by
  have hlive : (∃ tid, tid ∈ s.processThreads child ∧ tid ∈ s.nextTurns) ↔
      ((s.processThreads child).filter (· ∈ s.nextTurns)).isEmpty = false := by
    simp
  simp only [childIsStuck, partition_eq_filter_filter, Bool.and_eq_true, Bool.not_eq_true',
    ← hlive, all_eq_true, mem_filter, threadIsStuck_iff, decide_eq_true_eq, and_imp,
    Function.comp_apply, decide_eq_false_iff_not]
  constructor
  · rintro ⟨⟨⟨hmay, hgone⟩, hlive⟩, hwaits⟩
    exact ⟨hmay, hgone, hlive, hwaits⟩
  · rintro ⟨hmay, hgone, hlive, hwaits⟩
    exact ⟨⟨⟨hmay, hgone⟩, hlive⟩, hwaits⟩

theorem mem_nextStuck : child ∈ s.nextStuck stuck ↔
    child ∈ s.processWait.keys ∧ s.StuckAfter stuck child := by
  rw [nextStuck, mem_filter, childIsStuck_iff]

theorem StuckAfter.mono (h : s.StuckAfter earlier child) (hsub : earlier ⊆ later) :
    s.StuckAfter later child := by
  refine { h with waits := fun tid hmem hlive => ?_ }
  obtain hheld | hfutex | hdl | ⟨parent, spec, hget, hsome, hall⟩ := h.waits tid hmem hlive
  · exact .inl hheld
  · exact .inr (.inl hfutex)
  · exact .inr (.inr (.inl hdl))
  · exact .inr (.inr (.inr ⟨parent, spec, hget, hsome, fun c hc => hsub (hall c hc)⟩))

theorem nextStuck_sublist (hsub : earlier ⊆ later) :
    (s.nextStuck earlier).Sublist (s.nextStuck later) :=
  monotone_filter_right _ fun _ h => childIsStuck_iff.mpr ((childIsStuck_iff.mp h).mono hsub)

/-- All that one round finds can be found one after the other. -/
theorem Derivation.append (h : s.Derivation earlier)
    (hall : ∀ c ∈ later, c ∈ s.processWait.keys ∧ s.StuckAfter earlier c) :
    s.Derivation (earlier ++ later) := by
  induction later using reverseRecOn with
  | nil => rwa [append_nil]
  | append_singleton later child ih =>
    rw [← append_assoc]
    obtain ⟨hknown, hstuck⟩ := hall child (by simp)
    have hbef := ih fun c hc => hall c (mem_append_left _ hc)
    exact .snoc hbef hknown (hstuck.mono (subset_append_left _ _))

/-- Every closed set contains what has a derivation. -/
theorem Derivation.subset (h : s.Derivation earlier) (hcls : s.nextStuck stuck ⊆ stuck) :
    earlier ⊆ stuck := by
  induction h with
  | nil => exact nil_subset _
  | snoc _ hknown hstuck ih =>
    have hmem := hcls (mem_nextStuck.mpr ⟨hknown, hstuck.mono ih⟩)
    exact append_subset.mpr ⟨ih, by simpa using hmem⟩

/-- The set grows with every round, and all of it has a derivation. -/
def Growing (s : ChildWaits) (stuck : List DetPid) : Prop :=
  stuck.Sublist (s.nextStuck stuck) ∧ ∃ found, s.Derivation found ∧ stuck ⊆ found

theorem Growing.next (h : s.Growing stuck) : s.Growing (s.nextStuck stuck) := by
  obtain ⟨hsub, found, hfnd, hmem⟩ := h
  refine ⟨nextStuck_sublist hsub.subset, found ++ s.nextStuck stuck, hfnd.append ?_, ?_⟩
  · intro c hc
    obtain ⟨hknown, hstuck⟩ := mem_nextStuck.mp hc
    exact ⟨hknown, hstuck.mono hmem⟩
  · exact subset_append_right _ _

/-- The loop returns, at the latest after one round for each process, with the least set that a
    round does not change: the processes that have a derivation. -/
theorem stuckProcesses_least (s : ChildWaits) : ∃ stuck,
    (∀ fuel, s.processWait.keys.length < fuel → s.stuckProcesses fuel = some stuck) ∧
    s.nextStuck stuck = stuck ∧ (∀ closed, s.nextStuck closed ⊆ closed → stuck ⊆ closed) ∧
    ∀ child, child ∈ stuck ↔ ∃ found, s.Derivation found ∧ child ∈ found := by
  have hstep : ∀ stuck stuck', s.Growing stuck → s.round stuck = .inl stuck' → s.Growing stuck' ∧
        s.processWait.keys.length - stuck'.length < s.processWait.keys.length - stuck.length := by
    intro stuck stuck' hgrow hround
    unfold round at hround
    split_ifs at hround with heq
    cases hround
    refine ⟨hgrow.next, ?_⟩
    have hlt : stuck.length < (s.nextStuck stuck).length :=
      lt_of_le_of_ne hgrow.1.length_le fun hlen => heq (hgrow.1.eq_of_length hlen).symm
    have hle : (s.nextStuck stuck).length ≤ s.processWait.keys.length :=
      length_filter_le _ _
    omega
  have hnone : s.Growing [] := ⟨nil_sublist _, [], .nil, nil_subset _⟩
  obtain ⟨stuck, hretu⟩ := loop_returns s.Growing _ hstep _ hnone (Nat.lt_succ_self _)
  obtain ⟨last, ⟨-, found, hfnd, hsub⟩, hround⟩ :=
    loop_invariant s.Growing (fun _ _ hgrow h => (hstep _ _ hgrow h).1) _ hnone hretu
  unfold round at hround
  split_ifs at hround with hfixed
  cases hround
  refine ⟨stuck, fun fuel hfuel => loop_mono hretu hfuel, hfixed, ?_, ?_⟩
  · exact fun closed hcls => List.Subset.trans hsub (hfnd.subset hcls)
  · refine fun child => ⟨fun hmem => ⟨found, hfnd, hsub hmem⟩, ?_⟩
    rintro ⟨found, hfnd, hmem⟩
    exact hfnd.subset (fun c hc => hfixed ▸ hc) hmem

end ChildWaits

end Hermit.Scheduler
