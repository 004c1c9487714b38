import Hermit.Scheduler.QueueEntries

/-!
# The chaos starvation bound

Under `--chaos` a thread draws a new priority at every change point, and a
thread that never runs never draws. `Scheduler::bound_chaos_starvation` of
`detcore/src/scheduler.rs` counts, for every queued thread, the change points
that passed it over since its last committed turn, and makes the changing
thread take a worse priority than it drew rather than pass a thread over
`CHAOS_PASSOVER_BOUND` times.

`ChaosState` is what the bound reads and writes: the run queue, the priority
map, the counts and the two switches. The operations are the change point and
everything else in the scheduler that writes one of these.

Results:
* `chaos_starvation_bounded`
-/

namespace Hermit.Scheduler

open Hermit.Common OrdMap List

/-! ## Model -/

def chaosPassoverBound : ℕ := 2

def QueueValue.isNonPolling (v : QueueValue) : Bool := v.pollUpgrade.isNone && !v.deadlineRestored

def RunQueue.canBePassedOver {R : Prng} (q : RunQueue R) (tid : DetTid) : Bool :=
  q.entries.any fun (_, v) => decide (v.tid = tid) && (v.isNonPolling || v.upgradedInPlace)

/-- Why the scheduler stops. -/
inductive ChaosPanic
  /-- An assertion of the run queue -/
  | queue (panic : QueuePanic)
  /-- `assert!(is_ordinary_priority(new_priority))` -/
  | badPriority
  /-- `get_priority` of a thread without one -/
  | noPriority
  /-- `assert_eq!(dettid, popped)` -/
  | wrongThread
deriving DecidableEq

/-- The priorities the scheduler hands out to the threads it registers. -/
abbrev OrdinaryPriority := { priority : Priority // isOrdinaryPriority priority = true }

structure ChaosState (R : Prng) where
  runQueue : RunQueue R
  priorities : OrdMap DetTid Priority
  chaosPassedOver : OrdMap DetTid ℕ
  chaosBoundsStarvation : Bool
  /-- `schedule_replay_dictates_turns` -/
  dictatesTurns : Bool

namespace ChaosState

variable {R : Prng}

def new (strategy : SchedHeuristic) (prng : R.State) (bounds dictates : Bool) : ChaosState R where
  runQueue := .new strategy prng
  priorities := ∅
  chaosPassedOver := ∅
  chaosBoundsStarvation := bounds
  dictatesTurns := dictates

def passedOver (s : ChaosState R) (tid : DetTid) : ℕ := s.chaosPassedOver[tid]?.getD 0

/-- The threads other than the changing one that a change point can pass over, with their
    priorities (`queued`). -/
def queued (s : ChaosState R) (dettid : DetTid) : List (DetTid × Priority) :=
  s.priorities.toList.filter fun (tid, _) =>
    decide (tid ≠ dettid) && s.runQueue.canBePassedOver tid

def starvingThreads (s : ChaosState R) (dettid : DetTid) (drawn : Priority) :
    List (DetTid × Priority) :=
  (s.queued dettid).filter fun (tid, prio) =>
    decide (drawn < prio) && decide (chaosPassoverBound ≤ s.passedOver tid + 1)

def takenPriority (s : ChaosState R) (dettid : DetTid) (drawn : Priority) : Priority :=
  match ((s.starvingThreads dettid drawn).map (·.2)).max? with
  | none => drawn
  | some prio => min (prio + 1) lastPriority

/-- One iteration of the counting loop. -/
def countOne (priority : Priority) (counts : OrdMap DetTid ℕ) (thread : DetTid × Priority) :
    OrdMap DetTid ℕ :=
  if priority < thread.2 then counts.insert thread.1 (counts[thread.1]?.getD 0 + 1) else counts

def boundChaosStarvation (s : ChaosState R) (dettid : DetTid) (drawn : Priority) :
    ChaosState R × Priority :=
  if !s.chaosBoundsStarvation || s.dictatesTurns then (s, drawn)
  else
    let priority := s.takenPriority dettid drawn
    ({ s with chaosPassedOver := (s.queued dettid).foldl (countOne priority) s.chaosPassedOver },
      priority)

def onQueue {α : Type} (s : ChaosState R) (r : Except QueuePanic (RunQueue R × α)) :
    Except ChaosPanic (ChaosState R × α) :=
  (r.map fun (q, a) => ({ s with runQueue := q }, a)).mapError .queue

def getPriority (s : ChaosState R) (dettid : DetTid) : Except ChaosPanic Priority :=
  match s.priorities[dettid]? with
  | none => throw .noPriority
  | some priority => return priority

def runqueuePushBack (s : ChaosState R) (dettid : DetTid) : Except ChaosPanic (ChaosState R) := do
  let priority ← s.getPriority dettid
  let (s, _) ← s.onQueue (s.runQueue.pushBack dettid priority)
  return s

def runqueuePushFront (s : ChaosState R) (dettid : DetTid) : Except ChaosPanic (ChaosState R) := do
  let priority ← s.getPriority dettid
  let (s, _) ← s.onQueue (s.runQueue.pushFront dettid priority)
  return s

def setPriority (s : ChaosState R) (dettid : DetTid) (priority : Priority) : ChaosState R :=
  { s with priorities := s.priorities.insert dettid priority }

def clearPassedOver (s : ChaosState R) (dettid : DetTid) : ChaosState R :=
  { s with chaosPassedOver := s.chaosPassedOver.erase dettid }

def dropPriority (s : ChaosState R) (dettid : DetTid) : ChaosState R :=
  { s with priorities := s.priorities.erase dettid }

def endYieldEpoch (s : ChaosState R) : ChaosState R := { s with runQueue := s.runQueue.endYieldEpoch }

def performPriorityChangepoint (s : ChaosState R) (dettid : DetTid) (newPriority : Priority) :
    Except ChaosPanic (ChaosState R × Priority) := do
  if ¬ isOrdinaryPriority newPriority then throw .badPriority
  let (s, newPriority) := s.boundChaosStarvation dettid newPriority
  let s := s.setPriority dettid newPriority
  let (s, popped) ← s.onQueue s.runQueue.commitTentativePop
  let s := s.endYieldEpoch
  if dettid ≠ popped then throw .wrongThread
  let s ← s.runqueuePushBack dettid
  return (s, newPriority)

def requeueWithNewPriority (s : ChaosState R) (dettid : DetTid) (newPriority : Priority) :
    Except ChaosPanic (ChaosState R) := do
  if ¬ isOrdinaryPriority newPriority then throw .badPriority
  let s := s.setPriority dettid newPriority
  let (s, present) ← s.onQueue (s.runQueue.removeTid dettid)
  if present then s.runqueuePushBack dettid else return s

/-- What `Scheduler::force_unblock_thread_at` does here: `remove_blocking_entries`, which
    forgets the count, and a push. -/
def forceUnblockThreadAt (s : ChaosState R) (dettid : DetTid) (front : Bool) :
    Except ChaosPanic (ChaosState R) :=
  let s := s.clearPassedOver dettid
  if front then s.runqueuePushFront dettid else s.runqueuePushBack dettid

/-- What `Scheduler::logically_kill_thread` does here. Its removal from the run queue is a
    later operation of its own. -/
def logicallyKillThread (s : ChaosState R) (dettid : DetTid) : ChaosState R :=
  (s.clearPassedOver dettid).dropPriority dettid

end ChaosState

/-- What happens to the scheduler. -/
inductive ChaosOp
  /-- A change point of the selected thread, with the priority it drew -/
  | changePoint (tid : DetTid) (drawn : Priority)
  /-- A committed turn -/
  | commit (tid : DetTid)
  /-- A registration, a release of the replayed priorities, or an exec that
      moves a priority to the new leader -/
  | setPriority (tid : DetTid) (priority : OrdinaryPriority)
  | requeue (tid : DetTid) (priority : Priority)
  | forceUnblock (tid : DetTid) (front : Bool)
  | kill (tid : DetTid)
  | queue (op : QueueOp)
  /-- The replayed schedule begins or ceases to dictate turns -/
  | dictate (dictates : Bool)
deriving DecidableEq

namespace ChaosState

variable {R : Prng}

def step (s : ChaosState R) :
    ChaosOp → Except ChaosPanic (ChaosState R × Option (DetTid × Priority))
  | .changePoint tid drawn =>
    (s.performPriorityChangepoint tid drawn).map fun (s, priority) => (s, some (tid, priority))
  | .commit tid => .ok (s.clearPassedOver tid, none)
  | .setPriority tid priority => .ok (s.setPriority tid priority, none)
  | .requeue tid priority => (s.requeueWithNewPriority tid priority).map (·, none)
  | .forceUnblock tid front => (s.forceUnblockThreadAt tid front).map (·, none)
  | .kill tid => .ok (s.logicallyKillThread tid, none)
  | .queue op =>
    (s.onQueue ((QueueState.step ⟨s.runQueue, []⟩ op).map fun (t, _) => (t.queue, ()))).map
      fun (s, _) => (s, none)
  | .dictate dictates => .ok ({ s with dictatesTurns := dictates }, none)

/-! ## Specification -/

structure Waits (tid : DetTid) (priority : Priority) (s : ChaosState R) : Prop where
  canBePassedOver : s.runQueue.canBePassedOver tid = true
  priority_eq : s.priorities[tid]? = some priority
  bounds : s.chaosBoundsStarvation = true
  dictates : s.dictatesTurns = false

instance (tid : DetTid) (priority : Priority) :
    DecidablePred (Waits (R := R) tid priority) := fun s =>
  decidable_of_iff (s.runQueue.canBePassedOver tid = true ∧ s.priorities[tid]? = some priority ∧
      s.chaosBoundsStarvation = true ∧ s.dictatesTurns = false)
    ⟨fun ⟨h1, h2, h3, h4⟩ => ⟨h1, h2, h3, h4⟩, fun ⟨h1, h2, h3, h4⟩ => ⟨h1, h2, h3, h4⟩⟩

/-- A change point that leaves its thread with a strictly better priority. -/
def passes (priority : Priority) : Option (DetTid × Priority) → Bool
  | some (_, taken) => decide (taken < priority)
  | none => false

/-- What holds between operations. -/
structure Valid (s : ChaosState R) : Prop where
  passedOver_lt : ∀ tid, s.passedOver tid < chaosPassoverBound
  ordinary : ∀ (tid : DetTid) (priority : Priority), s.priorities[tid]? = some priority →
    isOrdinaryPriority priority = true

/-! ## The counting loop -/

theorem getElem?_foldl_countOne (priority : Priority) (tid : DetTid) :
    ∀ (threads : List (DetTid × Priority)) (counts : OrdMap DetTid ℕ),
      (threads.foldl (countOne priority) counts)[tid]?.getD 0 = counts[tid]?.getD 0 +
          threads.countP fun e => decide (e.1 = tid) && decide (priority < e.2) := by
  intro threads
  induction threads with
  | nil => simp
  | cons e threads ih =>
    intro counts
    rw [foldl_cons, ih, countP_cons, countOne]
    by_cases hlt : priority < e.2
    · rw [if_pos hlt]
      by_cases htid : e.1 = tid
      · subst htid
        simp [hlt]
        omega
      · rw [getElem?_insert_ne _ htid]
        simp [htid]
    · simp [hlt]

variable {s t : ChaosState R} {tid : DetTid} {priority drawn : Priority}

theorem mem_queued {dettid : DetTid} : (tid, priority) ∈ s.queued dettid ↔
      s.priorities[tid]? = some priority ∧ tid ≠ dettid ∧
        s.runQueue.canBePassedOver tid = true := by
  simp [queued]

/-- A thread has one priority, so the loop counts it at most once. -/
theorem countP_queued_le_one (s : ChaosState R) (dettid tid : DetTid) (priority : Priority) :
    (s.queued dettid).countP (fun e => decide (e.1 = tid) && decide (priority < e.2)) ≤ 1 := by
  have hkeys : (s.priorities.toList.map Prod.fst).Nodup := by
    rw [Std.ExtTreeMap.map_fst_toList_eq_keys]
    exact Std.ExtTreeMap.nodup_keys
  calc (s.queued dettid).countP (fun e => decide (e.1 = tid) && decide (priority < e.2))
      ≤ s.priorities.toList.countP
          (fun e => decide (e.1 = tid) && decide (priority < e.2)) :=
        filter_sublist.countP_le
    _ ≤ s.priorities.toList.countP (fun e => e.1 == tid) :=
        countP_mono_left fun e _ h => by simp_all
    _ = (s.priorities.toList.map Prod.fst).count tid := by
        rw [count, countP_map]
        rfl
    _ ≤ 1 := nodup_iff_count_le_one.mp hkeys tid

/-! ## The priority taken -/

theorem ordinary_le (h : isOrdinaryPriority priority = true) :
    priority ≤ lastPriority := (of_decide_eq_true h).2

/-- The bound never improves on the draw, stays within the last band, and is
    not better than any thread already passed over as often as allowed. -/
theorem takenPriority_spec (hs : s.Valid) (dettid : DetTid)
    (hdrawn : isOrdinaryPriority drawn = true) :
    drawn ≤ s.takenPriority dettid drawn ∧
      isOrdinaryPriority (s.takenPriority dettid drawn) = true ∧
      ∀ e ∈ s.queued dettid, chaosPassoverBound ≤ s.passedOver e.1 + 1 →
        e.2 ≤ s.takenPriority dettid drawn := by
  obtain ⟨hfirst, hlast⟩ : firstPriority ≤ drawn ∧ drawn ≤ lastPriority := of_decide_eq_true hdrawn
  have hmem : ∀ e ∈ s.queued dettid, chaosPassoverBound ≤ s.passedOver e.1 + 1 → drawn < e.2 →
      e.2 ∈ (s.starvingThreads dettid drawn).map (·.2) := by
    intro e he hcnt hlt
    exact mem_map.mpr ⟨e, mem_filter.mpr ⟨he, by simp [hcnt, hlt]⟩, rfl⟩
  rw [takenPriority]
  split
  · rename_i hnone
    refine ⟨le_rfl, hdrawn, fun e he hcnt => ?_⟩
    by_contra hlt
    have := hmem e he hcnt (not_le.mp hlt)
    rw [max?_eq_none_iff.mp hnone] at this
    simp at this
  · rename_i worst hsome
    obtain ⟨hworst, hmax⟩ := max?_eq_some_iff.mp hsome
    obtain ⟨e, he, rfl⟩ := mem_map.mp hworst
    have hlt : drawn < e.2 := by
      have := (mem_filter.mp he).2
      simp only [Bool.and_eq_true, decide_eq_true_eq] at this
      exact this.1
    have hdrawn_le : drawn ≤ min (e.2 + 1) lastPriority :=
      le_min (Nat.le_succ_of_le hlt.le) hlast
    refine ⟨hdrawn_le, decide_eq_true ⟨hfirst.trans hdrawn_le, min_le_right _ _⟩, ?_⟩
    intro f hf hcnt
    have hf' : f.2 ≤ lastPriority := ordinary_le (hs.ordinary f.1 f.2 (mem_queued.mp hf).1)
    by_cases hdf : drawn < f.2
    · exact le_min (Nat.le_succ_of_le (hmax _ (hmem f hf hcnt hdf))) hf'
    · exact (not_lt.mp hdf).trans hdrawn_le

theorem boundChaosStarvation_passedOver (s : ChaosState R) (dettid tid : DetTid)
    (drawn : Priority) :
    (s.boundChaosStarvation dettid drawn).1.passedOver tid = s.passedOver tid ∨
      ∃ priority, (tid, priority) ∈ s.queued dettid ∧
        (s.boundChaosStarvation dettid drawn).2 < priority ∧
        (s.boundChaosStarvation dettid drawn).2 = s.takenPriority dettid drawn ∧
        (s.boundChaosStarvation dettid drawn).1.passedOver tid = s.passedOver tid + 1 := by
  rw [boundChaosStarvation]
  split
  · exact .inl rfl
  · have hcnt := getElem?_foldl_countOne (s.takenPriority dettid drawn) tid (s.queued dettid)
      s.chaosPassedOver
    have hone := s.countP_queued_le_one dettid tid (s.takenPriority dettid drawn)
    rcases Nat.le_one_iff_eq_zero_or_eq_one.mp hone with hzero | hone
    · exact .inl (by rw [passedOver, hcnt, hzero]; rfl)
    · obtain ⟨e, he, hp⟩ := countP_pos_iff.mp (hone ▸ Nat.one_pos)
      simp only [Bool.and_eq_true, decide_eq_true_eq] at hp
      obtain ⟨rfl, hlt⟩ := hp
      exact .inr ⟨e.2, he, hlt, rfl, by rw [passedOver, hcnt, hone]; rfl⟩

theorem boundChaosStarvation_ordinary (hs : s.Valid) (dettid : DetTid)
    (hdrawn : isOrdinaryPriority drawn = true) :
    isOrdinaryPriority (s.boundChaosStarvation dettid drawn).2 = true := by
  rw [boundChaosStarvation]
  split
  · exact hdrawn
  · exact (takenPriority_spec hs dettid hdrawn).2.1

theorem boundChaosStarvation_priorities (s : ChaosState R) (dettid : DetTid) (drawn : Priority) :
    (s.boundChaosStarvation dettid drawn).1.priorities = s.priorities := by
  rw [boundChaosStarvation]
  split <;> rfl

theorem boundChaosStarvation_lt (hs : s.Valid) (dettid tid : DetTid)
    (hdrawn : isOrdinaryPriority drawn = true) :
    (s.boundChaosStarvation dettid drawn).1.passedOver tid < chaosPassoverBound := by
  have hlt := hs.passedOver_lt tid
  rcases s.boundChaosStarvation_passedOver dettid tid drawn with h | ⟨priority, hmem, hp, heq, h⟩
  · omega
  · rw [heq] at hp
    by_contra hge
    exact absurd ((takenPriority_spec hs dettid hdrawn).2.2 _ hmem (by rw [h] at hge; simp; omega))
      (not_le.mpr hp)

theorem Waits.passedOver_add {dettid : DetTid}
    (h : s.Waits tid priority) (hne : tid ≠ dettid) (drawn : Priority) :
    s.passedOver tid +
        (if passes priority (some (dettid, (s.boundChaosStarvation dettid drawn).2)) then 1 else 0) ≤
      (s.boundChaosStarvation dettid drawn).1.passedOver tid := by
  have hcnt := getElem?_foldl_countOne (s.takenPriority dettid drawn) tid (s.queued dettid)
    s.chaosPassedOver
  have hbd : s.boundChaosStarvation dettid drawn = (_, s.takenPriority dettid drawn) :=
    if_neg (by simp [h.bounds, h.dictates])
  simp only [hbd, passedOver, hcnt]
  split
  · rename_i hp
    have hlt : s.takenPriority dettid drawn < priority := of_decide_eq_true hp
    have : 0 < (s.queued dettid).countP
        fun e => decide (e.1 = tid) && decide (s.takenPriority dettid drawn < e.2) :=
      countP_pos_iff.mpr ⟨(tid, priority),
        mem_queued.mpr ⟨h.priority_eq, hne, h.canBePassedOver⟩, by simp [hlt]⟩
    omega
  · omega

/-! ## Operations that leave the counts alone -/

structure SameCounts (s t : ChaosState R) : Prop where
  passedOver : t.chaosPassedOver = s.chaosPassedOver
  priorities : t.priorities = s.priorities

theorem SameCounts.trans {u : ChaosState R} (h : s.SameCounts t) (h' : t.SameCounts u) :
    s.SameCounts u :=
  ⟨h'.passedOver.trans h.passedOver, h'.priorities.trans h.priorities⟩

theorem onQueue_sameCounts {α : Type} {a : α}
    {r : Except QueuePanic (RunQueue R × α)} (h : s.onQueue r = .ok (t, a)) :
    s.SameCounts t ∧ r = .ok (t.runQueue, a) := by
  obtain ⟨⟨q, b⟩, hr, heq⟩ := map_eq_ok.mp (mapError_eq_ok.mp h)
  cases heq
  exact ⟨⟨rfl, rfl⟩, hr⟩

theorem runqueuePushBack_spec
    (h : s.runqueuePushBack tid = .ok t) : s.SameCounts t ∧ ¬ Holds s.runQueue.queue tid := by
  obtain ⟨priority, -, h⟩ := bind_eq_ok.mp h
  obtain ⟨⟨u, key⟩, hpush, h⟩ := bind_eq_ok.mp h
  cases h
  obtain ⟨hsame, hpush⟩ := onQueue_sameCounts hpush
  exact ⟨hsame, (RunQueue.pushBack_eq_ok.mp hpush).2.1⟩

theorem runqueuePushFront_spec
    (h : s.runqueuePushFront tid = .ok t) : s.SameCounts t ∧ ¬ Holds s.runQueue.queue tid := by
  obtain ⟨priority, -, h⟩ := bind_eq_ok.mp h
  obtain ⟨⟨u, key⟩, hpush, h⟩ := bind_eq_ok.mp h
  cases h
  obtain ⟨hsame, hpush⟩ := onQueue_sameCounts hpush
  exact ⟨hsame, (RunQueue.pushFront_eq_ok hpush).2.1⟩

theorem Valid.congr (hs : s.Valid) (h : s.SameCounts t) : t.Valid where
  passedOver_lt tid := by
    rw [passedOver, h.passedOver]
    exact hs.passedOver_lt tid
  ordinary tid priority := by
    rw [h.priorities]
    exact hs.ordinary tid priority

theorem Valid.setPriority (hs : s.Valid) (tid : DetTid)
    (hp : isOrdinaryPriority priority = true) : (s.setPriority tid priority).Valid where
  passedOver_lt := hs.passedOver_lt
  ordinary tid' priority' h := by
    rw [ChaosState.setPriority, getElem?_insert_ite] at h
    split at h
    · cases h
      exact hp
    · exact hs.ordinary tid' priority' h

theorem passedOver_clearPassedOver (s : ChaosState R) (tid tid' : DetTid) :
    (s.clearPassedOver tid).passedOver tid' = if tid = tid' then 0 else s.passedOver tid' := by
  rw [passedOver, clearPassedOver, getElem?_erase_ite]
  split <;> rfl

theorem Valid.clearPassedOver (hs : s.Valid) (tid : DetTid) : (s.clearPassedOver tid).Valid where
  passedOver_lt tid' := by
    have := hs.passedOver_lt tid'
    rw [passedOver_clearPassedOver]
    split <;> omega
  ordinary := hs.ordinary

theorem Valid.dropPriority (hs : s.Valid) (tid : DetTid) : (s.dropPriority tid).Valid where
  passedOver_lt := hs.passedOver_lt
  ordinary tid' priority h := by
    rw [ChaosState.dropPriority, getElem?_erase_ite] at h
    split at h
    · cases h
    · exact hs.ordinary tid' priority h

/-! ## One operation -/

theorem performPriorityChangepoint_spec
    {taken : Priority} (h : s.performPriorityChangepoint tid drawn = .ok (t, taken)) :
    isOrdinaryPriority drawn = true ∧ taken = (s.boundChaosStarvation tid drawn).2 ∧
      ((s.boundChaosStarvation tid drawn).1.setPriority tid taken).SameCounts t := by
  rw [performPriorityChangepoint] at h
  obtain ⟨hdrawn, h⟩ := throwIf_eq_ok.mp h
  obtain ⟨⟨u, popped⟩, hpop, h⟩ := bind_eq_ok.mp h
  obtain ⟨-, h⟩ := throwIf_eq_ok.mp h
  obtain ⟨v, hpush, h⟩ := bind_eq_ok.mp h
  cases h
  have hyield : u.SameCounts u.endYieldEpoch := ⟨rfl, rfl⟩
  exact ⟨not_not.mp hdrawn, rfl,
    ((onQueue_sameCounts hpop).1.trans hyield).trans (runqueuePushBack_spec hpush).1⟩

theorem requeueWithNewPriority_spec (h : s.requeueWithNewPriority tid priority = .ok t) :
    isOrdinaryPriority priority = true ∧ (s.setPriority tid priority).SameCounts t := by
  rw [requeueWithNewPriority] at h
  obtain ⟨hp, h⟩ := throwIf_eq_ok.mp h
  obtain ⟨⟨u, present⟩, hrmv, h⟩ := bind_eq_ok.mp h
  have hu := (onQueue_sameCounts hrmv).1
  refine ⟨not_not.mp hp, ?_⟩
  cases present with
  | true => exact hu.trans (runqueuePushBack_spec h).1
  | false =>
    cases h
    exact hu

theorem forceUnblockThreadAt_spec {front : Bool} (h : s.forceUnblockThreadAt tid front = .ok t) :
    (s.clearPassedOver tid).SameCounts t ∧ ¬ Holds s.runQueue.queue tid := by
  rw [forceUnblockThreadAt] at h
  split at h
  · exact runqueuePushFront_spec h
  · exact runqueuePushBack_spec h

/-- No operation brings a count to the bound. -/
theorem step_valid {op : ChaosOp} {o : Option (DetTid × Priority)}
    (hs : s.Valid) (h : s.step op = .ok (t, o)) : t.Valid := by
  cases op with
  | changePoint tid drawn =>
    obtain ⟨⟨u, taken⟩, hpoint, heq⟩ := map_eq_ok.mp h
    cases heq
    obtain ⟨hdrawn, rfl, hsame⟩ := performPriorityChangepoint_spec hpoint
    have hbd : (s.boundChaosStarvation tid drawn).1.Valid :=
      ⟨fun tid' => boundChaosStarvation_lt hs tid tid' hdrawn, by
        rw [boundChaosStarvation_priorities]
        exact hs.ordinary⟩
    exact (hbd.setPriority tid (boundChaosStarvation_ordinary hs tid hdrawn)).congr hsame
  | commit tid =>
    cases h
    exact hs.clearPassedOver tid
  | setPriority tid priority =>
    cases h
    exact hs.setPriority tid priority.2
  | requeue tid priority =>
    obtain ⟨u, hrequ, heq⟩ := map_eq_ok.mp h
    cases heq
    obtain ⟨hp, hsame⟩ := requeueWithNewPriority_spec hrequ
    exact (hs.setPriority tid hp).congr hsame
  | forceUnblock tid front =>
    obtain ⟨u, hforce, heq⟩ := map_eq_ok.mp h
    cases heq
    exact (hs.clearPassedOver tid).congr (forceUnblockThreadAt_spec hforce).1
  | kill tid =>
    cases h
    exact (hs.clearPassedOver tid).dropPriority tid
  | queue op =>
    obtain ⟨⟨u, ⟨⟩⟩, hq, heq⟩ := map_eq_ok.mp h
    cases heq
    exact hs.congr (onQueue_sameCounts hq).1
  | dictate dictates =>
    cases h
    exact hs.congr ⟨rfl, rfl⟩

theorem holds_of_canBePassedOver {q : RunQueue R}
    (h : q.canBePassedOver tid = true) : Holds q.queue tid := by
  obtain ⟨e, he, hv⟩ := any_eq_true.mp h
  simp only [Bool.and_eq_true, decide_eq_true_eq] at hv
  exact ⟨e.1, e.2, RunQueue.mem_entries.mp he, hv.1⟩

theorem passedOver_step {op : ChaosOp} {o : Option (DetTid × Priority)}
    (hs : s.Waits tid priority) (ht : t.Waits tid priority)
    (hop : op ≠ .commit tid) (h : s.step op = .ok (t, o)) :
    s.passedOver tid + (if passes priority o then 1 else 0) ≤ t.passedOver tid := by
  cases op with
  | changePoint dettid drawn =>
    obtain ⟨⟨u, taken⟩, hpoint, heq⟩ := map_eq_ok.mp h
    cases heq
    obtain ⟨-, rfl, hsame⟩ := performPriorityChangepoint_spec hpoint
    have hcnt : t.passedOver tid = (s.boundChaosStarvation dettid drawn).1.passedOver tid := by
      rw [passedOver, hsame.passedOver]
      rfl
    rw [hcnt]
    by_cases hne : tid = dettid
    · -- The thread's own change point leaves it at the priority it waits at.
      subst hne
      have hp := ht.priority_eq
      rw [hsame.priorities, setPriority, getElem?_insert_same] at hp
      cases hp
      rcases s.boundChaosStarvation_passedOver tid tid drawn with h | ⟨_, hmem, -⟩
      · simp [passes, h]
      · exact absurd rfl (mem_queued.mp hmem).2.1
    · exact hs.passedOver_add hne drawn
  | commit dettid =>
    cases h
    have hne : dettid ≠ tid := fun h => hop (by rw [h])
    rw [passedOver_clearPassedOver, if_neg hne]
    rfl
  | setPriority =>
    cases h
    exact le_rfl
  | requeue =>
    obtain ⟨u, hrequ, heq⟩ := map_eq_ok.mp h
    cases heq
    rw [passedOver, passedOver, (requeueWithNewPriority_spec hrequ).2.passedOver]
    exact le_rfl
  | forceUnblock dettid front =>
    obtain ⟨u, hforce, heq⟩ := map_eq_ok.mp h
    cases heq
    obtain ⟨hsame, hfree⟩ := forceUnblockThreadAt_spec hforce
    -- A forced wake pushes its thread, so it is not the one that is queued.
    have hne : dettid ≠ tid := by
      rintro rfl
      exact hfree (holds_of_canBePassedOver hs.canBePassedOver)
    have hcnt : t.passedOver tid = (s.clearPassedOver dettid).passedOver tid := by
      rw [passedOver, hsame.passedOver]
      rfl
    rw [hcnt, passedOver_clearPassedOver, if_neg hne]
    exact le_rfl
  | kill dettid =>
    cases h
    have hne : dettid ≠ tid := by
      rintro rfl
      have hp := ht.priority_eq
      rw [logicallyKillThread, dropPriority, getElem?_erase_same] at hp
      cases hp
    have hcnt : (s.logicallyKillThread dettid).passedOver tid =
        (s.clearPassedOver dettid).passedOver tid := rfl
    rw [hcnt, passedOver_clearPassedOver, if_neg hne]
    exact le_rfl
  | queue op =>
    obtain ⟨⟨u, ⟨⟩⟩, hq, heq⟩ := map_eq_ok.mp h
    cases heq
    rw [passedOver, passedOver, (onQueue_sameCounts hq).1.passedOver]
    exact le_rfl
  | dictate dictates =>
    cases h
    exact le_rfl

/-! ## Whole runs -/

theorem valid_new (strategy : SchedHeuristic) (prng : R.State) (bounds dictates : Bool) :
    (new strategy prng bounds dictates).Valid where
  passedOver_lt _ := by
    simp [new, passedOver, chaosPassoverBound]
  ordinary _ _ h := by simp [new] at h

theorem run_valid {ops : List ChaosOp} {os : List (Option (DetTid × Priority))}
    (hs : s.Valid) (h : run step s ops = .ok (t, os)) : t.Valid :=
  run_history (fun s _ => s.Valid) (fun _ _ _ _ _ => step_valid) hs h

/-- In every run of the scheduler every count stays below the bound. From any
    state of it on, while a thread waits at a fixed priority without a
    committed turn, fewer than `chaosPassoverBound` change points leave their
    thread with a strictly better priority; and once `chaosPassoverBound - 1`
    did, every later one leaves it with the same or a worse priority. -/
theorem chaos_starvation_bounded (strategy : SchedHeuristic) (prng : R.State)
    (bounds dictates : Bool) {ops : List ChaosOp} {s : ChaosState R}
    {os : List (Option (DetTid × Priority))}
    (h : run step (new strategy prng bounds dictates) ops = .ok (s, os)) :
    (∀ tid, s.passedOver tid < chaosPassoverBound) ∧
      ∀ (tid : DetTid) (priority : Priority) (later : List ChaosOp) (s' : ChaosState R)
        (os' : List (Option (DetTid × Priority))),
        run step s later = .ok (s', os') → Throughout step (Waits tid priority) s later →
        ChaosOp.commit tid ∉ later →
        os'.countP (passes priority) ≤ chaosPassoverBound - 1 ∧
        ∀ before after dettid taken, os' = before ++ some (dettid, taken) :: after →
          before.countP (passes priority) = chaosPassoverBound - 1 → priority ≤ taken := by
  have hvalid := run_valid (valid_new strategy prng bounds dictates) h
  refine ⟨hvalid.passedOver_lt, fun tid priority later s' os' hrun hwaits hcmt => ?_⟩
  have hcnt : s.passedOver tid + os'.countP (passes priority) ≤ s'.passedOver tid :=
    run_countP_le Valid (Waits tid priority) (· ≠ .commit tid) (passedOver · tid)
      (passes priority) (fun _ _ _ _ => step_valid)
      (fun _ _ _ _ _ hs ht hop hstep => passedOver_step hs ht hop hstep) hvalid hwaits
      (fun op hop => by rintro rfl; exact hcmt hop) hrun
  have hlt := (run_valid hvalid hrun).passedOver_lt tid
  refine ⟨by omega, ?_⟩
  rintro before after dettid taken rfl hbef
  by_contra hbett
  have hpass : passes priority (some (dettid, taken)) = true :=
    decide_eq_true (not_le.mp hbett)
  rw [countP_append, countP_cons, if_pos hpass] at hcnt
  omega

def spinnerAndWaiter : List ChaosOp :=
  [.setPriority 1 ⟨500, rfl⟩, .queue (.pushBack 1 500), .setPriority 2 ⟨9820, rfl⟩,
    .queue (.pushBack 2 9820)]

def twoChangePoints : List ChaosOp :=
  [.queue .tentativePopNext, .changePoint 1 136, .queue .tentativePopNext, .changePoint 1 7043]

theorem chaos_starvation_bounded_spinner : ∃ (s s' : ChaosState Prng.first) (os os' : List _),
    run step (new .none () true false) spinnerAndWaiter = .ok (s, os) ∧
      run step s twoChangePoints = .ok (s', os') ∧
      Throughout step (Waits 2 9820) s twoChangePoints ∧
      os' = [none, some (1, 136), none, some (1, 9821)] ∧
      os'.countP (passes 9820) ≤ chaosPassoverBound - 1 ∧ (9820 : Priority) ≤ 9821 := by
  obtain ⟨s, os, hrun, hwaits, hlat⟩ := exists_run step
    (new (R := Prng.first) .none () true false) spinnerAndWaiter
    (fun s _ => Throughout step (Waits 2 9820) s twoChangePoints ∧
      (run step s twoChangePoints).toOption.map (·.2) =
        some [none, some (1, 136), none, some (1, 9821)]) (by decide +kernel)
  cases hrest : run step s twoChangePoints with
  | error e =>
    rw [hrest] at hlat
    cases hlat
  | ok r =>
    rw [hrest] at hlat
    have hos : r.2 = [none, some (1, 136), none, some (1, 9821)] := Option.some.inj hlat
    obtain ⟨-, hboun⟩ := chaos_starvation_bounded (R := Prng.first) .none () true false hrun
    obtain ⟨hcnt, hworse⟩ := hboun 2 9820 twoChangePoints r.1 r.2 hrest hwaits (by decide)
    exact ⟨s, r.1, os, r.2, hrun, hrest, hwaits, hos, hcnt,
      hworse [none, some (1, 136), none] [] 1 9821 hos (by decide)⟩

end ChaosState

end Hermit.Scheduler
