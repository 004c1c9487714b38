import Hermit.PiFutex.Deadlock

/-!
# What plain wakes and requeues take

`take_futex_wakees` and `requeue_futex_waiters` (`detcore/src/scheduler.rs`) with what they
answer, and which waiters they take off a queue, as slices of it.

* `takeFutexWakees_fst`: a wake takes the first matching waiters before the first lock waiter.
-/

namespace Hermit.PiFutex

open Common OrdMap List

namespace State

/-! ## Wakes -/

/-- The waiters queued before the first lock waiter. -/
def plainFront (waiters : List FutexWaiter) : List FutexWaiter :=
  waiters.takeWhile fun waiter => !waiter.pi

def matchesMask (wakeMask : Word) (waiter : FutexWaiter) : Bool :=
  decide (waiter.bitset &&& wakeMask ≠ 0)

theorem pickWakees_fst (most : ℕ) (mask : Word) (waiters : List FutexWaiter) :
    (pickWakees most mask waiters).1 = (waiters.filter (matchesMask mask)).take most := by
  induction waiters generalizing most with
  | nil => exact take_nil.symm
  | cons w rest ih =>
    unfold pickWakees
    dsimp only
    by_cases hmch : w.bitset &&& mask ≠ 0
    · have hw : matchesMask mask w = true := decide_eq_true hmch
      rw [filter_cons_of_pos hw]
      cases most with
      | zero =>
        rw [if_neg (by simp), ih, take_zero, take_zero]
      | succ most =>
        rw [if_pos ⟨Nat.succ_pos most, hmch⟩, take_succ_cons, ih, Nat.add_sub_cancel]
    · have hw : ¬ matchesMask mask w = true := by simpa [matchesMask] using hmch
      rw [if_neg fun h => hmch h.2, filter_cons_of_neg hw, ih]

theorem pickWakees_snd (most : ℕ) (mask : Word) {waiters : List FutexWaiter}
    (hnodup : waiters.Nodup) :
    (pickWakees most mask waiters).2 =
      waiters.filter fun w => decide (w ∉ (pickWakees most mask waiters).1) := by
  induction waiters generalizing most with
  | nil => rfl
  | cons w rest ih =>
    obtain ⟨hw, hrest⟩ := nodup_cons.mp hnodup
    have hsub : ∀ n, ∀ v ∈ (pickWakees n mask rest).1, v ∈ rest := by
      intro n v hv
      exact (pickWakees_perm n mask rest).subset (mem_append_left _ hv)
    unfold pickWakees
    by_cases htake : 0 < most ∧ w.bitset &&& mask ≠ 0
    · rw [if_pos htake]
      rw [filter_cons_of_neg (by simp), ih (most - 1) hrest]
      refine filter_congr fun v hv => ?_
      have hne : v ≠ w := fun heq => hw (heq ▸ hv)
      simp [hne]
    · rw [if_neg htake]
      have hkept : decide (w ∉ (pickWakees most mask rest).1) = true :=
        decide_eq_true fun hmem => hw (hsub most w hmem)
      rw [filter_cons, if_pos hkept, ← ih most hrest]

def takeFutexWakees (s : State) (futex : FutexID) (maxToWake : ℤ) (wakeMask : Word) :
    List FutexWaiter × Bool :=
  let most := if maxToWake ≤ 0 then 1 else maxToWake.toNat
  if s.piFutexHandOverPending futex then ([], true)
  else
    let waiters := s.queue futex
    let beyond := waiters.dropWhile fun waiter => !waiter.pi
    let picked := pickWakees most wakeMask (plainFront waiters)
    (picked.1, decide (picked.1.length < most) && !beyond.isEmpty)

theorem maxToWake_eq (count : ℤ) : (if count ≤ 0 then 1 else count.toNat) = max 1 count.toNat := by
  split_ifs <;> omega

variable {s : State} {f : FutexID} {nrWake nrRequeue : ℕ}

theorem takeFutexWakees_fst (count : ℤ) (mask : Word) (h : s.piFutexHandOverPending f = false) :
    (s.takeFutexWakees f count mask).1 =
      ((plainFront (s.queue f)).filter (matchesMask mask)).take (max 1 count.toNat) := by
  simp only [takeFutexWakees, h, Bool.false_eq_true, if_false, pickWakees_fst, maxToWake_eq]

theorem wakeFutexWaiters_of_pending (count : ℤ) (mask : Word)
    (h : s.piFutexHandOverPending f = true) : s.wakeFutexWaiters f count mask = s := by
  simp only [wakeFutexWaiters, h, if_true]

/-! ## What wakes do to calls -/

@[simp] theorem queue_foldl_wakeFutexWaiter (waiters : List FutexWaiter) (s : State)
    (f : FutexID) : (waiters.foldl wakeFutexWaiter s).queue f = s.queue f := by
  induction waiters generalizing s with
  | nil => rfl
  | cons w waiters ih => rw [foldl_cons, ih, queue_wakeFutexWaiter]

/-- The thread sleeps in a futex call. -/
def Parked (s : State) (thread : DetTid) : Prop := ∃ pi, s.nextTurns[thread]? = some (.parked pi)

def wokenCall : Call → Call
  | .parked pi => .answered pi .go
  | call => call

theorem nextTurns_wakeFutexWaiter (s : State) (waiter : FutexWaiter) (t : DetTid) :
    (s.wakeFutexWaiter waiter).nextTurns[t]? =
      if t = waiter.dettid then s.nextTurns[t]?.map wokenCall else s.nextTurns[t]? := by
  unfold wakeFutexWaiter
  split_ifs with ht
  · subst ht
    split
    next pi hcall =>
      rw [hcall]
      exact getElem?_insert_same _ _ _
    next hcall =>
      cases h : s.nextTurns[waiter.dettid]? with
      | none => rfl
      | some call =>
        cases call with
        | parked pi => exact absurd h (hcall pi)
        | running => rfl
        | answered => rfl
  · split
    next => exact getElem?_insert_ne _ (Ne.symm ht) _
    next => rfl

theorem nextTurns_foldl_wakeFutexWaiter (waiters : List FutexWaiter) (s : State) (t : DetTid) :
    (waiters.foldl wakeFutexWaiter s).nextTurns[t]? =
      if t ∈ waiters.map (·.dettid) then s.nextTurns[t]?.map wokenCall else s.nextTurns[t]? := by
  have htwice : ∀ call, wokenCall (wokenCall call) = wokenCall call := by
    intro call
    cases call <;> rfl
  induction waiters generalizing s with
  | nil => rfl
  | cons w waiters ih =>
    rw [foldl_cons, ih, nextTurns_wakeFutexWaiter, map_cons]
    by_cases ht : t = w.dettid
    · rw [if_pos ht, if_pos (mem_cons.mpr (.inl ht))]
      split_ifs
      · rw [Option.map_map]
        congr 1
        exact funext htwice
      · rfl
    · rw [if_neg ht]
      simp only [mem_cons, ht, false_or]

/-! ## Requeues -/

structure RequeueScan where
  woken : List FutexWaiter := []
  moved : List FutexWaiter := []
  kept : List FutexWaiter := []
  taskCount : ℕ := 0
  metPi : Bool := false

def countsRunOut (nrWake nrRequeue taskCount : ℕ) : Bool :=
  decide ((taskCount : ℤ) - nrWake ≥ nrRequeue)

/-- The body of the loop. -/
def requeueVisit (sameKey : Bool) (nrWake nrRequeue : ℕ) (scan : RequeueScan)
    (waiter : FutexWaiter) : RequeueScan :=
  if scan.metPi || countsRunOut nrWake nrRequeue scan.taskCount then
    { scan with kept := scan.kept ++ [waiter] }
  else if waiter.pi then { scan with metPi := true, kept := scan.kept ++ [waiter] }
  else
    let scan := { scan with taskCount := scan.taskCount + 1 }
    if scan.taskCount ≤ nrWake then { scan with woken := scan.woken ++ [waiter] }
    else if sameKey then { scan with kept := scan.kept ++ [waiter] }
    else { scan with moved := scan.moved ++ [waiter] }

/-- The loop over a queue. -/
def requeueScan (sameKey : Bool) (nrWake nrRequeue : ℕ) (waiters : List FutexWaiter) :
    RequeueScan :=
  waiters.foldl (requeueVisit sameKey nrWake nrRequeue) {}

/-- What `requeue_futex_waiters` answers: the numbers woken and moved, and whether a lock waiter
was met before the counts ran out. -/
def requeueAnswer (s : State) (source target : FutexID) (nrWake nrRequeue : ℕ) : ℕ × ℕ × Bool :=
  if s.piFutexHandOverPending source then (0, 0, !countsRunOut nrWake nrRequeue 0)
  else
    let scan := requeueScan (decide (source = target)) nrWake nrRequeue (s.queue source)
    (scan.woken.length, scan.taskCount - scan.woken.length, scan.metPi)

theorem countsRunOut_iff {taskCount : ℕ} :
    countsRunOut nrWake nrRequeue taskCount = true ↔ nrWake + nrRequeue ≤ taskCount := by
  unfold countsRunOut
  rw [decide_eq_true_eq]
  omega

/-- Once the walk has stopped, every waiter left keeps its place. -/
theorem foldl_requeueVisit_of_stopped {sameKey : Bool}
    (waiters : List FutexWaiter) (scan : RequeueScan)
    (h : (scan.metPi || countsRunOut nrWake nrRequeue scan.taskCount) = true) :
    waiters.foldl (requeueVisit sameKey nrWake nrRequeue) scan =
      { scan with kept := scan.kept ++ waiters } := by
  induction waiters generalizing scan with
  | nil => simp
  | cons w rest ih =>
    rw [foldl_cons, requeueVisit, if_pos h]
    refine (ih { scan with kept := scan.kept ++ [w] } h).trans ?_
    rw [append_assoc, singleton_append]

/-- The loop, from any point at which it still walks: the waiters before the first lock waiter
are counted until the counts run out. -/
theorem foldl_requeueVisit {sameKey : Bool} (waiters : List FutexWaiter)
    (scan : RequeueScan) (hpi : scan.metPi = false) :
    let front := (plainFront waiters).take (nrWake + nrRequeue - scan.taskCount)
    let left := front.drop (nrWake - scan.taskCount)
    waiters.foldl (requeueVisit sameKey nrWake nrRequeue) scan =
      { woken := scan.woken ++ front.take (nrWake - scan.taskCount)
        moved := scan.moved ++ (if sameKey then [] else left)
        kept := scan.kept ++ (if sameKey then left else []) ++ waiters.drop front.length
        taskCount := scan.taskCount + front.length
        metPi := decide (front.length < nrWake + nrRequeue - scan.taskCount) &&
          waiters.any (·.pi) } := by
  induction waiters generalizing scan with
  | nil =>
    cases scan
    cases hpi
    simp [plainFront]
  | cons w rest ih =>
    dsimp only at ih ⊢
    rw [foldl_cons]
    by_cases hout : nrWake + nrRequeue ≤ scan.taskCount
    · -- the counts have run out
      have hstop : (scan.metPi || countsRunOut nrWake nrRequeue scan.taskCount) = true := by
        rw [countsRunOut_iff.mpr hout, Bool.or_true]
      rw [← foldl_cons, foldl_requeueVisit_of_stopped _ _ hstop, Nat.sub_eq_zero_of_le hout]
      simp [hpi]
    · have hgo : ¬ (scan.metPi || countsRunOut nrWake nrRequeue scan.taskCount) = true := by
        rw [hpi, Bool.false_or, countsRunOut_iff]
        exact hout
      cases hw : w.pi with
      | true =>
        -- a lock waiter ends the walk
        have hvisit : requeueVisit sameKey nrWake nrRequeue scan w =
            { scan with metPi := true, kept := scan.kept ++ [w] } := by
          rw [requeueVisit, if_neg hgo, if_pos hw]
        rw [hvisit, foldl_requeueVisit_of_stopped rest _ (by rfl)]
        have hfr : plainFront (w :: rest) = [] := by simp [plainFront, hw]
        simp only [hfr, take_nil, drop_nil, length_nil, append_nil, ite_self,
          drop_zero, Nat.add_zero, append_assoc, singleton_append, any_cons, hw,
          Bool.true_or, Bool.and_true]
        congr 1
        rw [decide_eq_true (by omega)]
      | false =>
        have hfr : plainFront (w :: rest) = w :: plainFront rest := by simp [plainFront, hw]
        have hmore : nrWake + nrRequeue - scan.taskCount =
            nrWake + nrRequeue - (scan.taskCount + 1) + 1 := by omega
        have hany : (w :: rest).any (·.pi) = rest.any (·.pi) := by simp [hw]
        rw [hfr, hmore, take_succ_cons, length_cons, drop_succ_cons, hany]
        by_cases hwake : scan.taskCount + 1 ≤ nrWake
        · have hvisit : requeueVisit sameKey nrWake nrRequeue scan w =
              { scan with taskCount := scan.taskCount + 1, woken := scan.woken ++ [w] } := by
            rw [requeueVisit, if_neg hgo, hw, if_neg Bool.false_ne_true, if_pos hwake]
          have hnext : nrWake - scan.taskCount = nrWake - (scan.taskCount + 1) + 1 := by omega
          rw [hvisit, ih _ (by exact hpi), hnext, take_succ_cons, drop_succ_cons]
          simp [Nat.add_assoc, Nat.add_comm 1]
        · have hzero : nrWake - scan.taskCount = 0 := by omega
          have hzero' : nrWake - (scan.taskCount + 1) = 0 := by omega
          cases sameKey with
          | true =>
            have hvisit : requeueVisit true nrWake nrRequeue scan w =
                { scan with taskCount := scan.taskCount + 1, kept := scan.kept ++ [w] } := by
              rw [requeueVisit, if_neg hgo, hw, if_neg Bool.false_ne_true, if_neg hwake, if_pos rfl]
            rw [hvisit, ih _ (by exact hpi)]
            simp [hzero, hzero', Nat.add_assoc, Nat.add_comm 1]
          | false =>
            have hvisit : requeueVisit false nrWake nrRequeue scan w =
                { scan with taskCount := scan.taskCount + 1, moved := scan.moved ++ [w] } := by
              rw [requeueVisit, if_neg hgo, hw, if_neg Bool.false_ne_true, if_neg hwake,
                if_neg Bool.false_ne_true]
            rw [hvisit, ih _ (by exact hpi)]
            simp [hzero, hzero', Nat.add_assoc, Nat.add_comm 1]

def counted (nrWake nrRequeue : ℕ) (waiters : List FutexWaiter) : List FutexWaiter :=
  (plainFront waiters).take (nrWake + nrRequeue)

theorem take_counted (nrWake nrRequeue : ℕ) (waiters : List FutexWaiter) :
    (counted nrWake nrRequeue waiters).take nrWake = (plainFront waiters).take nrWake := by
  rw [counted, take_take, Nat.min_eq_left (Nat.le_add_right _ _)]

theorem drop_counted (nrWake nrRequeue : ℕ) (waiters : List FutexWaiter) :
    (counted nrWake nrRequeue waiters).drop nrWake =
      ((plainFront waiters).drop nrWake).take nrRequeue := by
  rw [counted, drop_take, Nat.add_sub_cancel_left]

theorem exists_counted_append (nrWake nrRequeue : ℕ) (waiters : List FutexWaiter) :
    ∃ rest, counted nrWake nrRequeue waiters ++ rest = waiters := by
  refine ⟨(plainFront waiters).drop (nrWake + nrRequeue) ++ waiters.dropWhile fun w => !w.pi, ?_⟩
  rw [counted, ← append_assoc, take_append_drop]
  exact takeWhile_append_dropWhile

theorem counted_drop_append (nrWake nrRequeue : ℕ) (waiters : List FutexWaiter) :
    (counted nrWake nrRequeue waiters).drop nrWake ++
        waiters.drop (counted nrWake nrRequeue waiters).length =
      waiters.drop ((counted nrWake nrRequeue waiters).take nrWake).length := by
  obtain ⟨rest, hrest⟩ := exists_counted_append nrWake nrRequeue waiters
  generalize counted nrWake nrRequeue waiters = front at hrest ⊢
  have hspl : front.take nrWake ++ (front.drop nrWake ++ rest) = waiters := by
    rw [← append_assoc, take_append_drop, hrest]
  conv_rhs => rw [← hspl, drop_left]
  rw [← hrest, drop_left]

theorem requeueScan_eq (sameKey : Bool) (nrWake nrRequeue : ℕ) (waiters : List FutexWaiter) :
    let front := counted nrWake nrRequeue waiters
    requeueScan sameKey nrWake nrRequeue waiters =
      { woken := front.take nrWake
        moved := if sameKey then [] else front.drop nrWake
        kept := (if sameKey then front.drop nrWake else []) ++ waiters.drop front.length
        taskCount := front.length
        metPi := decide (front.length < nrWake + nrRequeue) && waiters.any (·.pi) } := by
  refine (foldl_requeueVisit waiters {} rfl).trans ?_
  simp [counted]

/-- The queues after a requeue are those the loop leaves. -/
theorem sortRequeued_eq (sameKey : Bool) (nrWake nrRequeue taskCount : ℕ)
    (waiters : List FutexWaiter) :
    let front := (plainFront waiters).take (nrWake + nrRequeue - taskCount)
    let left := front.drop (nrWake - taskCount)
    sortRequeued sameKey nrWake nrRequeue taskCount waiters =
      { woken := front.take (nrWake - taskCount)
        moved := if sameKey then [] else left
        kept := (if sameKey then left else []) ++ waiters.drop front.length } := by
  induction waiters generalizing taskCount with
  | nil => simp [sortRequeued, plainFront]
  | cons w rest ih =>
    unfold sortRequeued
    dsimp only
    by_cases hstop : (taskCount : ℤ) - nrWake ≥ nrRequeue ∨ w.pi = true
    · rw [if_pos hstop]
      have hfr : (plainFront (w :: rest)).take (nrWake + nrRequeue - taskCount) = [] := by
        rcases hstop with hout | hw
        · have hzero : nrWake + nrRequeue - taskCount = 0 := by omega
          rw [hzero, take_zero]
        · simp [plainFront, hw]
      simp [hfr]
    · rw [if_neg hstop]
      rw [not_or] at hstop
      have hw : w.pi = false := Bool.eq_false_of_not_eq_true hstop.2
      have hfr : plainFront (w :: rest) = w :: plainFront rest := by simp [plainFront, hw]
      have hmore : nrWake + nrRequeue - taskCount = nrWake + nrRequeue - (taskCount + 1) + 1 := by
        omega
      rw [hfr, hmore, take_succ_cons, length_cons, drop_succ_cons, ih]
      by_cases hwake : taskCount + 1 ≤ nrWake
      · have hnext : nrWake - taskCount = nrWake - (taskCount + 1) + 1 := by omega
        rw [if_pos hwake, hnext, take_succ_cons, drop_succ_cons]
      · have hzero : nrWake - taskCount = 0 := by omega
        have hzero' : nrWake - (taskCount + 1) = 0 := by omega
        rw [if_neg hwake, hzero, hzero']
        cases sameKey <;> simp

theorem sortRequeued_zero (sameKey : Bool) (nrWake nrRequeue : ℕ) (waiters : List FutexWaiter) :
    let front := counted nrWake nrRequeue waiters
    sortRequeued sameKey nrWake nrRequeue 0 waiters =
      { woken := front.take nrWake
        moved := if sameKey then [] else front.drop nrWake
        kept := (if sameKey then front.drop nrWake else []) ++ waiters.drop front.length } :=
  sortRequeued_eq sameKey nrWake nrRequeue 0 waiters

/-! ## The queues afterwards -/

theorem queue_wakeFutexWaiters (hs : Placed s) (count : ℤ) (mask : Word)
    (h : s.piFutexHandOverPending f = false) (g : FutexID) :
    (s.wakeFutexWaiters f count mask).queue g =
      if g = f then
        (s.queue f).filter fun w => decide (w ∉ (s.takeFutexWakees f count mask).1)
      else s.queue g := by
  have hnodup : (s.queue f).Nodup := (hs.nodup f).of_map _
  have hspl : plainFront (s.queue f) ++ (s.queue f).dropWhile (fun w => !w.pi) = s.queue f :=
    takeWhile_append_dropWhile
  rw [← hspl, nodup_append] at hnodup
  obtain ⟨hfr, -, hdisj⟩ := hnodup
  simp only [wakeFutexWaiters, takeFutexWakees, h, Bool.false_eq_true, if_false,
    queue_foldl_wakeFutexWaiter]
  generalize (if count ≤ 0 then 1 else count.toNat) = most
  have hkept : ((s.queue f).filter fun w =>
      decide (w ∉ (pickWakees most mask (plainFront (s.queue f))).1)) =
      (pickWakees most mask (plainFront (s.queue f))).2 ++
        (s.queue f).dropWhile fun w => !w.pi := by
    rw [pickWakees_snd most mask hfr]
    generalize htak : (pickWakees most mask (plainFront (s.queue f))).1 = taken
    have hbeyo : (((s.queue f).dropWhile fun w => !w.pi).filter fun w => decide (w ∉ taken)) =
        (s.queue f).dropWhile fun w => !w.pi := by
      refine filter_eq_self.mpr fun w hw => decide_eq_true fun hmem => ?_
      rw [← htak] at hmem
      have hmem' := (pickWakees_perm most mask _).subset (mem_append_left _ hmem)
      exact hdisj w hmem' w hw rfl
    conv_lhs => rw [← hspl, filter_append, hbeyo]
  rw [hkept]
  exact queue_setQueue _ _ _ _

theorem nextTurns_wakeFutexWaiters (count : ℤ) (mask : Word)
    (h : s.piFutexHandOverPending f = false) (t : DetTid) :
    (s.wakeFutexWaiters f count mask).nextTurns[t]? =
      if t ∈ (s.takeFutexWakees f count mask).1.map (·.dettid) then
        s.nextTurns[t]?.map wokenCall
      else s.nextTurns[t]? := by
  simp only [wakeFutexWaiters, takeFutexWakees, h, Bool.false_eq_true, if_false,
    nextTurns_foldl_wakeFutexWaiter]
  rfl

theorem queue_requeueFutexWaiters {source target : FutexID} (hne : source ≠ target)
    (nrWake nrRequeue : ℕ) (h : s.piFutexHandOverPending source = false) (g : FutexID) :
    (s.requeueFutexWaiters source target nrWake nrRequeue).queue g =
      if g = source then
        (s.queue source).drop (counted nrWake nrRequeue (s.queue source)).length
      else if g = target then
        s.queue target ++ (counted nrWake nrRequeue (s.queue source)).drop nrWake
      else s.queue g := by
  simp only [requeueFutexWaiters, h, Bool.false_eq_true, if_false, queue_foldl_wakeFutexWaiter,
    sortRequeued_zero, decide_eq_false hne, nil_append]
  refine (queue_setQueue _ _ _ _).trans ?_
  rw [queue_setQueue, queue_setQueue]
  by_cases hg : g = target
  · subst hg
    rw [if_pos rfl, if_neg (Ne.symm hne), if_neg (Ne.symm hne), if_pos rfl]
    rfl
  · rw [if_neg hg, if_neg hg]
    rfl

/-- A requeue onto the same futex: those not woken keep their places. -/
theorem queue_requeueFutexWaiters_same (nrWake nrRequeue : ℕ)
    (h : s.piFutexHandOverPending f = false) (g : FutexID) :
    (s.requeueFutexWaiters f f nrWake nrRequeue).queue g =
      if g = f then
        (s.queue f).drop ((counted nrWake nrRequeue (s.queue f)).take nrWake).length
      else s.queue g := by
  simp only [requeueFutexWaiters, h, Bool.false_eq_true, if_false, queue_foldl_wakeFutexWaiter,
    sortRequeued_zero, decide_true, if_true]
  refine (queue_setQueue _ _ _ _).trans ?_
  rw [queue_setQueue, queue_setQueue, if_pos rfl, append_nil, counted_drop_append]
  by_cases hg : g = f
  · rw [if_pos hg, if_pos hg]
  · rw [if_neg hg, if_neg hg, if_neg hg]
    rfl

theorem nextTurns_requeueFutexWaiters {source target : FutexID}
    (nrWake nrRequeue : ℕ) (h : s.piFutexHandOverPending source = false) (t : DetTid) :
    (s.requeueFutexWaiters source target nrWake nrRequeue).nextTurns[t]? =
      if t ∈ ((counted nrWake nrRequeue (s.queue source)).take nrWake).map (·.dettid) then
        s.nextTurns[t]?.map wokenCall
      else s.nextTurns[t]? := by
  simp only [requeueFutexWaiters, h, Bool.false_eq_true, if_false, sortRequeued_zero,
    nextTurns_foldl_wakeFutexWaiter]

end State

end Hermit.PiFutex
