import Hermit.Scheduler.QueueSelection

/-!
# Undoing a tentative pop

`undo_tentative_pop` is to forget the tentative pop as though it never happened
(`detcore/src/scheduler/runqueue.rs`, line 997). It releases the transaction.
What the pop did besides stays done: a pop that finds the yield epoch over ends
it, and a pop that draws advances the generator and may cache its draw.

* `undo_forgets`, `undo_endsEpoch`
-/

namespace Hermit.Scheduler

open Hermit.Common

namespace RunQueue

variable {R : Prng} {q q' : RunQueue R} {tid : DetTid}

/-- The next pop finds its thread without a draw: it goes by priority, or it
    has a sticky selection that it may take again. -/
def DrawsNothing (q : RunQueue R) : Prop :=
  q.schedStrategy = .none ∨ q.schedStrategy = .connectBind ∨
    (q.schedStrategy = .stickyRandom ∧ ∃ tid, q.stickyRandomSelection = some tid ∧
      tid ∈ q.candidates)

theorem select_drawsNothing (hover : q.epochOver = false) (hlen : q.len ≠ 0)
    (hd : Distinct q.queue) (hdraw : DrawsNothing q) :
    ∃ tid, q.select (q.excluded q.pendingSkip) =
      .ok ({ q with tentativeSelection := some tid }, some tid) := by
  have hchk : q.epochChecked = q := by
    unfold epochChecked
    rw [hover]
    rfl
  have hbarr : q.barred = q.excluded q.pendingSkip := by
    unfold barred
    rw [hchk]
  have hcand : q.candidates = q.eligible (q.excluded q.pendingSkip) := by
    unfold candidates
    rw [hchk, hbarr]
  have hne := candidates_ne_nil hd hlen
  rw [hcand] at hne
  obtain ⟨first, rest, hcons⟩ := List.exists_cons_of_ne_nil hne
  have hhead : (q.eligible (q.excluded q.pendingSkip)).head? = some first := by
    rw [hcons]
    rfl
  unfold select
  rcases hdraw with hnone | hbind | ⟨hstic, tid, htid, hmem⟩
  · rw [hnone]
    exact ⟨first, by rw [hhead]; rfl⟩
  · rw [hbind]
    exact ⟨first, by rw [hhead]; rfl⟩
  · obtain ⟨hq, hout⟩ := mem_candidates.mp hmem
    rw [hbarr] at hout
    have htids : q.tids ≠ [] := List.ne_nil_of_mem (mem_tids.mpr hq)
    have hflt : (q.stickyRandomSelection.filter fun tid =>
        decide (tid ∉ q.excluded q.pendingSkip) && q.containsTid tid) = some tid := by
      rw [htid, Option.filter_eq_some_iff]
      refine ⟨rfl, ?_⟩
      rw [Bool.and_eq_true, decide_eq_true_eq, containsTid_iff]
      exact ⟨hout, hq⟩
    rw [hstic]
    dsimp only
    rw [if_neg htids, hflt]
    exact ⟨tid, rfl⟩

/-- Such a pop, once undone, leaves the queue as it was. -/
theorem undo_pop (hs : Settled q) (hunlocked : q.tentativeSelection = none) (hlen : q.len ≠ 0)
    (hover : q.epochOver = false) (hdraw : DrawsNothing q) :
    ∃ q' tid, q.tentativePopNext = .ok (q', some tid) ∧ q'.undoTentativePop = .ok q := by
  obtain ⟨tid, hsel⟩ := select_drawsNothing hover hlen hs.distinct hdraw
  have hex := hs.not_exact hunlocked
  have hchk : q.epochChecked = q := by
    unfold epochChecked
    rw [hover]
    rfl
  refine ⟨{ q with tentativeSelection := some tid }, tid, ?_, ?_⟩
  · rw [tentativePopNext_eq_ok, hchk]
    exact ⟨hex, hsel⟩
  · show Except.ok { q with tentativeSelection := none, tentativeSelectionIsExact := false } = .ok q
    rw [← hunlocked, ← hex]

end RunQueue

namespace QueueState

open RunQueue

variable {R : Prng} {s : QueueState R}

/-- **Main theorem**: in every reachable state between transactions, if the
    queue is nonempty, its yield epoch is not over and the pop draws nothing,
    then a pop and its undo change nothing: every later sequence of operations
    has the outcome that it has without them. -/
theorem undo_forgets (strategy : SchedHeuristic) (prng : R.State)
    (hreach : Reaches step Orderly (QueueState.new strategy prng) s)
    (hunlocked : s.queue.tentativeSelection = none) (hlen : s.queue.len ≠ 0)
    (hover : s.queue.epochOver = false) (hdraw : DrawsNothing s.queue) (ops : List QueueOp) :
    ∃ tid, run step s (.tentativePopNext :: .undoTentativePop :: ops) =
      (run step s ops).map fun (s', outs) => (s', .selected (some tid) :: .unit :: outs) := by
  obtain ⟨q', tid, hpop, hundo⟩ := undo_pop (reaches_settled hreach) hunlocked hlen hover hdraw
  have hstep : s.step .tentativePopNext = .ok (⟨q', s.suspended⟩, .selected (some tid)) :=
    lift_eq_ok.mpr ⟨q', some tid, hpop, rfl, rfl⟩
  have hstep' : QueueState.step ⟨q', s.suspended⟩ .undoTentativePop = .ok (s, .unit) :=
    lift_unit_eq_ok.mpr ⟨s.queue, hundo, rfl, rfl⟩
  refine ⟨tid, ?_⟩
  rw [run, hstep]
  show (run step ⟨q', s.suspended⟩ (.undoTentativePop :: ops) >>= fun r =>
    pure (r.1, QueueOut.selected (some tid) :: r.2)) = _
  rw [run, hstep']
  show ((run step s ops >>= fun r => pure (r.1, QueueOut.unit :: r.2)) >>= fun r =>
    pure (r.1, QueueOut.selected (some tid) :: r.2)) = _
  cases run step s ops <;> rfl

def bothYielded : List QueueOp :=
  [.pushBack 1 1000, .pushBack 2 1000,
    .tentativePopNext, .commitTentativePopYield, .pushYieldedIntoEpoch 1 1000,
    .tentativePopNext, .commitTentativePopYield, .pushYieldedIntoEpoch 2 1000,
    .tentativePopNext, .commitTentativePopYield, .pushYieldedIntoEpoch 1 1000,
    .tentativePopNext, .commitTentativePopYield, .pushYieldedIntoEpoch 2 1000]

/-- A third thread becomes runnable, at a lesser priority. -/
def laterPush : List QueueOp := [.pushBack 3 2000, .tentativePopNext]

/-- The pop finds the epoch over and ends it, and the undo does not bring it
    back. Without the pair the thread that comes next is the one outside the
    epoch; with it, the one that has yielded. -/
theorem undo_endsEpoch : ∃ s : QueueState Prng.first,
    Reaches step Orderly (QueueState.new .none ()) s ∧
    s.queue.tentativeSelection = none ∧
    (run step s laterPush).toOption.map (·.2) = some [.order ⟨2000, 7⟩, .selected (some 3)] ∧
    (run step s (.tentativePopNext :: .undoTentativePop :: laterPush)).toOption.map (·.2) =
      some [.selected (some 1), .unit, .order ⟨2000, 7⟩, .selected (some 1)] := by
  obtain ⟨s, hreach, hs⟩ := exists_reaches bothYielded
    (fun s : QueueState Prng.first => s.queue.tentativeSelection = none ∧
      (run step s laterPush).toOption.map (·.2) = some [.order ⟨2000, 7⟩, .selected (some 3)] ∧
      (run step s (.tentativePopNext :: .undoTentativePop :: laterPush)).toOption.map (·.2) =
        some [.selected (some 1), .unit, .order ⟨2000, 7⟩, .selected (some 1)])
    (by decide +kernel : (arrive step Orderly (QueueState.new .none ()) bothYielded).any _ = true)
  exact ⟨s, hreach, hs⟩

/-- The pair is forgotten before the second of the two threads has yielded. -/
theorem undo_forgets_laterPush : ∃ s : QueueState Prng.first,
    Reaches step Orderly (QueueState.new .none ()) s ∧
    (s.queue.tentativeSelection = none ∧ s.queue.yieldEpoch ≠ none) ∧
    ∃ tid, run step s (.tentativePopNext :: .undoTentativePop :: laterPush) =
      (run step s laterPush).map fun (s', outs) => (s', .selected (some tid) :: .unit :: outs) := by
  obtain ⟨s, hreach, hs, hlen, hover, hstra⟩ := exists_reaches (bothYielded.take 11)
    (fun s : QueueState Prng.first =>
      (s.queue.tentativeSelection = none ∧ s.queue.yieldEpoch ≠ none) ∧ s.queue.len ≠ 0 ∧
        s.queue.epochOver = false ∧ s.queue.schedStrategy = .none)
    (by decide +kernel :
      (arrive step Orderly (QueueState.new .none ()) (bothYielded.take 11)).any _ = true)
  exact ⟨s, hreach, hs, undo_forgets .none () hreach hs.1 hlen hover (.inl hstra) laterPush⟩

end QueueState

end Hermit.Scheduler
