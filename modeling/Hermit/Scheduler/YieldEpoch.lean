import Hermit.Scheduler.QueueKeys
import Hermit.Scheduler.QueueSelection

/-!
# The chaos yield epoch

A thread that yields twice under chaos joins the yield epoch and waits there
until every other thread that can run has joined it too. So threads that only
yield bypass another a bounded number of times.

The argument is a ranking. Outside the epoch a thread has at most two yields
left before it joins (`weight`), selection prefers threads outside the epoch,
and the rank of a waiting thread `T` adds up what the others have left, plus a
second round if `T` itself is in the epoch.

* `bounded_bypass`
-/

namespace Hermit.Scheduler

open Hermit.Common QueueState List

/-! ## Epoch and streaks -/

namespace RunQueue

variable {R : Prng} {q q' : RunQueue R} {tid : DetTid}

/-- The members of the yield epoch. -/
def members (q : RunQueue R) : Finset DetTid := q.yieldEpoch.getD ∅

/-- How often the thread has yielded in a row. -/
def streak (q : RunQueue R) (tid : DetTid) : ℕ := q.yieldStreaks[tid]?.getD 0

/-- A thread that yielded more than once in a row is in the epoch. -/
def StreakSound (q : RunQueue R) : Prop :=
  ∀ tid, plainYieldsBeforeEpoch < q.streak tid → tid ∈ q.members

inductive YieldStep (q q' : RunQueue R) : Prop
  | same (hepoch : q'.yieldEpoch = q.yieldEpoch) (hstr : q'.yieldStreaks = q.yieldStreaks)
  | ended (hepoch : q'.yieldEpoch = none) (hstr : q'.yieldStreaks = ∅)
  | counted (tid : DetTid) (hepoch : q'.yieldEpoch = (q.countYield tid).yieldEpoch)
      (hstr : q'.yieldStreaks = (q.countYield tid).yieldStreaks)
  | removed (tid : DetTid) (hepoch : q'.yieldEpoch = q.yieldEpoch.map (·.erase tid))
      (hstr : q'.yieldStreaks = q.yieldStreaks.erase tid)

theorem streak_empty (hstr : q.yieldStreaks = ∅) (tid : DetTid) : q.streak tid = 0 := by
  unfold streak
  rw [hstr]
  simp

theorem countYield_streak (hoth : q.tids.any (· ≠ tid) = true) (t : DetTid) :
    (q.countYield tid).streak t = if t = tid then q.streak tid + 1 else q.streak t := by
  unfold countYield
  rw [if_pos hoth]
  unfold streak
  rw [OrdMap.getElem?_insert_ite]
  by_cases ht : t = tid
  · rw [if_pos ht.symm, if_pos ht]
    rfl
  · rw [if_neg (Ne.symm ht), if_neg ht]

theorem countYield_members (hoth : q.tids.any (· ≠ tid) = true) : (q.countYield tid).members =
      if plainYieldsBeforeEpoch < q.streak tid + 1 then insert tid q.members else q.members := by
  unfold countYield
  rw [if_pos hoth]
  unfold members streak
  dsimp only
  split_ifs <;> rfl

theorem countYield_alone (halone : ¬ q.tids.any (· ≠ tid) = true) : q.countYield tid = q := by
  unfold countYield
  rw [if_neg halone]

theorem countYield_streakSound (hs : StreakSound q) (tid : DetTid) :
    StreakSound (q.countYield tid) := by
  by_cases hoth : q.tids.any (· ≠ tid) = true
  · intro t ht
    rw [countYield_streak hoth] at ht
    rw [countYield_members hoth]
    by_cases heq : t = tid
    · rw [if_pos heq] at ht
      rw [if_pos ht, heq]
      exact Finset.mem_insert_self _ _
    · rw [if_neg heq] at ht
      have hmem := hs t ht
      split_ifs
      · exact Finset.mem_insert_of_mem hmem
      · exact hmem
  · rw [countYield_alone hoth]
    exact hs

theorem YieldStep.streakSound (h : YieldStep q q') (hs : StreakSound q) : StreakSound q' := by
  cases h with
  | same hepoch hstr =>
    intro t ht
    unfold streak at ht
    unfold members
    rw [hstr] at ht
    rw [hepoch]
    exact hs t ht
  | ended _ hstr =>
    intro t ht
    rw [streak_empty hstr] at ht
    omega
  | counted tid hepoch hstr =>
    have hc := countYield_streakSound hs tid
    intro t ht
    unfold streak at ht
    unfold members
    rw [hstr] at ht
    rw [hepoch]
    exact hc t ht
  | removed tid hepoch hstr =>
    intro t ht
    unfold streak at ht
    rw [hstr, OrdMap.getElem?_erase_ite] at ht
    split_ifs at ht with heq
    · simp at ht
    · have hmem := hs t ht
      unfold members at hmem ⊢
      rw [hepoch]
      cases hq : q.yieldEpoch with
      | none =>
        rw [hq] at hmem
        simp at hmem
      | some epoch =>
        rw [hq] at hmem
        exact Finset.mem_erase.mpr ⟨fun h => heq h.symm, hmem⟩

theorem Added.skip {q₀ : RunQueue R} {key : PrioritizedOrder} {value : QueueValue}
    (h : Added q₀ q' key value) : q'.yieldedSkip = q₀.yieldedSkip := by
  obtain ⟨-, m, n, -, hq'⟩ := h
  rw [hq']

theorem commitSelection_yields (h : q.commitSelection = .ok (q', tid)) :
    q'.yieldEpoch = q.yieldEpoch ∧ q'.yieldStreaks = q.yieldStreaks := by
  obtain ⟨-, key, value, prng, sticky, -, -, rfl⟩ := commitSelection_eq_ok h
  exact ⟨rfl, rfl⟩

end RunQueue

namespace QueueState

open RunQueue

variable {R : Prng} {s s' : QueueState R} {op : QueueOp} {out : QueueOut}

/-- Every operation changes the epoch and the streaks in one of the ways of
    `YieldStep`. -/
theorem step_yields (h : s.step op = .ok (s', out)) : YieldStep s.queue s'.queue := by
  cases hop : op.transacts with
  | false =>
    obtain ⟨hepoch, hstr, -, -⟩ := (step_frame hop h).2
    cases op with
    | pushYieldedIntoEpoch tid _ => exact .counted tid hepoch hstr
    | removeTid tid => exact .removed tid hepoch hstr
    | endYieldEpoch => exact .ended hepoch hstr
    | _ => exact .same hepoch hstr
  | true =>
    cases op with
    | tentativePopNext =>
      obtain ⟨q, selection, hq, rfl, -⟩ := lift_eq_ok.mp h
      obtain ⟨tentative, prng, sticky, rfl⟩ := select_frame (tentativePopNext_eq_ok.mp hq).2
      unfold epochChecked
      split_ifs
      · exact .ended rfl rfl
      · exact .same rfl rfl
    | tentativePopTid tid =>
      obtain ⟨q, selection, hq, rfl, -⟩ := lift_eq_ok.mp h
      obtain ⟨⟨⟩, -, hq⟩ := bind_eq_ok.mp hq
      split_ifs at hq
      · cases hq
        exact .same rfl rfl
      · cases hq
        exact .same rfl rfl
    | commitTentativePop =>
      obtain ⟨q, tid, hq, rfl, -⟩ := lift_eq_ok.mp h
      obtain ⟨hepoch, hstr⟩ := commitSelection_yields hq
      exact .same hepoch hstr
    | commitTentativePopYield =>
      obtain ⟨q, tid, hq, rfl, -⟩ := lift_eq_ok.mp h
      obtain ⟨q₁, hq₁, rfl⟩ := commitTentativePopYield_eq_ok hq
      obtain ⟨hepoch, hstr⟩ := commitSelection_yields hq₁
      exact .same hepoch hstr
    | commitTentativePopCompletedTurn =>
      obtain ⟨q, tid, hq, rfl, -⟩ := lift_eq_ok.mp h
      obtain ⟨q₁, hq₁, rfl⟩ := commitTentativePopCompletedTurn_eq_ok hq
      exact .ended rfl rfl
    | undoTentativePop =>
      obtain ⟨q', hq', rfl, -⟩ := lift_unit_eq_ok.mp h
      unfold undoTentativePop at hq'
      split_ifs at hq'
      cases hq'
      exact .same rfl rfl
    | _ => cases hop

theorem step_streakSound (hs : StreakSound s.queue) (h : s.step op = .ok (s', out)) :
    StreakSound s'.queue :=
  (step_yields h).streakSound hs

theorem streakSound_new (strategy : SchedHeuristic) (prng : R.State) :
    StreakSound (new strategy prng).queue := by
  intro tid htid
  rw [streak_empty rfl] at htid
  omega

end QueueState

/-! ## A yield turn -/

namespace RunQueue

variable {R : Prng} {q q' : RunQueue R} {tid : DetTid}

def yieldTurn (q : RunQueue R) (priority : Priority) : Except QueuePanic (RunQueue R × DetTid) := do
  let (q, _) ← q.tentativePopNext
  let (q, tid) ← q.commitTentativePopYield
  let (q, _) ← q.pushYieldedIntoEpoch tid priority
  return (q, tid)

variable {priority : Priority} {T : DetTid}

theorem yieldTurn_eq_ok : q.yieldTurn priority = .ok (q', tid) ↔
    ∃ q₁ selection q₂ key, q.tentativePopNext = .ok (q₁, selection) ∧
      q₁.commitTentativePopYield = .ok (q₂, tid) ∧
      q₂.pushYieldedIntoEpoch tid priority = .ok (q', key) := by
  unfold yieldTurn
  simp only [bind_eq_ok, Prod.exists]
  constructor
  · rintro ⟨q₁, selection, h1, q₂, t, h2, q₃, key, h3, h⟩
    cases h
    exact ⟨q₁, selection, q₂, key, h1, h2, h3⟩
  · rintro ⟨q₁, selection, q₂, key, h1, h2, h3⟩
    exact ⟨q₁, selection, h1, q₂, tid, h2, q', key, h3, rfl⟩

structure TakenOut (q q₂ : RunQueue R) (tid : DetTid) : Prop where
  candidate : tid ∈ q.candidates
  holds : ∀ t, Holds q₂.queue t ↔ t ≠ tid ∧ Holds q.queue t
  sub : Entries.Sub q₂.queue q.queue
  kept : ∀ (k : PrioritizedOrder) v, q.queue[k]? = some v → v.tid ≠ tid → q₂.queue[k]? = some v
  epoch : q₂.yieldEpoch = q.epochChecked.yieldEpoch
  streaks : q₂.yieldStreaks = q.epochChecked.yieldStreaks
  skip : q₂.yieldedSkip = none
  unlocked : q₂.tentativeSelection = none
  back : q₂.lastBackTurn = q.lastBackTurn
  front : q₂.lastFrontTurn = q.lastFrontTurn

theorem takenOut {q₁ q₂ : RunQueue R} {selection : Option DetTid} (hs : Settled q)
    (hpop : q.tentativePopNext = .ok (q₁, selection))
    (hcmt : q₁.commitTentativePopYield = .ok (q₂, tid)) : TakenOut q q₂ tid := by
  obtain ⟨q₃, hsele, rfl⟩ := commitTentativePopYield_eq_ok hcmt
  obtain ⟨hsel, key, value, prng, sticky, hkey, htid, rfl⟩ := commitSelection_eq_ok hsele
  have hex := (tentativePopNext_eq_ok.mp hpop).1
  have hlen : q.len ≠ 0 := by
    intro hzero
    have hnone := (tentativePopNext_empty hs hzero hpop).2
    rw [hnone] at hsel
    cases hsel
  obtain ⟨q', got, hpop', hmem, prng', sticky', -, hq'⟩ := tentativePopNext_spec hs hlen hex
  rw [hpop] at hpop'
  cases hpop'
  subst hq'
  cases hsel
  rw [epochChecked_queue] at hkey
  refine ⟨hmem, ?_, ?_, ?_, rfl, rfl, rfl, rfl, ?_, ?_⟩
  · intro t
    show Holds (q.epochChecked.queue.erase key) t ↔ _
    rw [epochChecked_queue, holds_erase hs.distinct hkey, htid]
  · show Entries.Sub (q.epochChecked.queue.erase key) q.queue
    rw [epochChecked_queue]
    exact Entries.sub_erase _ _
  · intro k v hk hne
    show (q.epochChecked.queue.erase key)[k]? = some v
    have hkk : key ≠ k := by
      rintro rfl
      rw [hkey] at hk
      cases hk
      exact hne htid
    rw [epochChecked_queue, OrdMap.getElem?_erase_ne _ hkk, hk]
  · obtain ⟨epoch, streaks, hframe⟩ := epochChecked_frame q
    show q.epochChecked.lastBackTurn = q.lastBackTurn
    rw [hframe]
  · obtain ⟨epoch, streaks, hframe⟩ := epochChecked_frame q
    show q.epochChecked.lastFrontTurn = q.lastFrontTurn
    rw [hframe]

structure Yields (q q' : RunQueue R) (tid : DetTid) : Prop where
  candidate : tid ∈ q.candidates
  holds : ∀ t, Holds q'.queue t ↔ Holds q.queue t
  follows : ∀ (k : PrioritizedOrder) v, q.queue[k]? = some v → v.tid ≠ tid →
    ∃ (k' : PrioritizedOrder) (v' : QueueValue), q'.queue[k']? = some v' ∧ Follows k v k' v'
  skip : q'.yieldedSkip = none
  /-- With others queued the yield counts. -/
  streak : ∀ other, Holds q.queue other → other ≠ tid → ∀ t,
    q'.streak t = if t = tid then q.epochChecked.streak tid + 1 else q.epochChecked.streak t
  members : ∀ other, Holds q.queue other → other ≠ tid →
    q'.members = if plainYieldsBeforeEpoch < q.epochChecked.streak tid + 1 then
      insert tid q.epochChecked.members else q.epochChecked.members

theorem yieldTurn_yields (hs : Settled q)
    (h : q.yieldTurn priority = .ok (q', tid)) : Yields q q' tid := by
  obtain ⟨q₁, selection, q₂, key, hpop, hcmt, hpush⟩ := yieldTurn_eq_ok.mp h
  have hout := takenOut hs hpop hcmt
  obtain ⟨-, hnew, -, hinner⟩ := pushBack_eq_ok.mp hpush
  obtain ⟨hadd, -⟩ := pushBackInner_eq_ok hinner
  obtain ⟨hepoch, hstr, -, -⟩ := hadd.sameFrame
  have hskip := hadd.skip
  have hstre : ∀ t, q₂.streak t = q.epochChecked.streak t := by
    intro t
    unfold RunQueue.streak
    rw [hout.streaks]
  have hmemb : q₂.members = q.epochChecked.members := by
    unfold RunQueue.members
    rw [hout.epoch]
  have hany : ∀ other, Holds q.queue other → other ≠ tid → q₂.tids.any (· ≠ tid) = true := by
    intro other hoth hne
    exact any_eq_true.mpr ⟨other, mem_tids.mpr ((hout.holds other).mpr ⟨hne, hoth⟩),
      by simpa using hne⟩
  refine ⟨hout.candidate, ?_, ?_, ?_, ?_, ?_⟩
  · intro t
    rw [hadd.holds]
    show tid = t ∨ Holds (q₂.countYield tid).queue t ↔ _
    rw [countYield_queue, hout.holds]
    constructor
    · rintro (rfl | ⟨-, ht⟩)
      · exact (mem_candidates.mp hout.candidate).1
      · exact ht
    · intro ht
      by_cases heq : tid = t
      · exact .inl heq
      · exact .inr ⟨fun h => heq h.symm, ht⟩
  · intro k v hk hne
    obtain ⟨hfree, m, n, hrel, hq'⟩ := hadd
    have hk₂ : (q₂.countYield tid).queue[k]? = some v := by
      rw [countYield_queue]
      exact hout.kept k v hk hne
    have hkey : (⟨priority, (q₂.countYield tid).lastBackTurn + 1⟩ : PrioritizedOrder) ≠ k := by
      rintro rfl
      rw [hk₂] at hfree
      cases hfree
    have hins : ((q₂.countYield tid).queue.insert ⟨priority, (q₂.countYield tid).lastBackTurn + 1⟩
        ⟨tid, none, false, false⟩)[k]? = some v := by
      rw [OrdMap.getElem?_insert_ne _ hkey, hk₂]
    obtain ⟨k', v', hk', hf⟩ := hrel.fwd k v hins
    exact ⟨k', v', by rw [hq']; exact hk', hf⟩
  · rw [hskip]
    show (q₂.countYield tid).yieldedSkip = none
    unfold countYield
    split_ifs <;> exact hout.skip
  · intro other hoth hne t
    have hcnt := countYield_streak (hany other hoth hne) t
    rw [hstre, hstre] at hcnt
    rw [← hcnt]
    unfold RunQueue.streak
    rw [hstr]
  · intro other hoth hne
    have hcnt := countYield_members (hany other hoth hne)
    rw [hstre, hmemb] at hcnt
    rw [← hcnt]
    unfold RunQueue.members
    rw [hepoch]

theorem yieldTurn_steps (h : q.yieldTurn priority = .ok (q', tid))
    (pool : List SuspendedRunQueueEntry) : ∃ q₁ q₂ o₁ o₂ o₃,
      step ⟨q, pool⟩ .tentativePopNext = .ok (⟨q₁, pool⟩, o₁) ∧
      step ⟨q₁, pool⟩ .commitTentativePopYield = .ok (⟨q₂, pool⟩, o₂) ∧
      step ⟨q₂, pool⟩ (.pushYieldedIntoEpoch tid priority) = .ok (⟨q', pool⟩, o₃) := by
  obtain ⟨q₁, selection, q₂, key, hpop, hcmt, hpush⟩ := yieldTurn_eq_ok.mp h
  refine ⟨q₁, q₂, .selected selection, .committed tid, .order key, ?_, ?_, ?_⟩
  · exact lift_eq_ok.mpr ⟨q₁, selection, hpop, rfl, rfl⟩
  · exact lift_eq_ok.mpr ⟨q₂, tid, hcmt, rfl, rfl⟩
  · exact lift_eq_ok.mpr ⟨q', key, hpush, rfl, rfl⟩

theorem yieldTurn_settled (hs : Settled q)
    (h : q.yieldTurn priority = .ok (q', tid)) : Settled q' := by
  obtain ⟨q₁, q₂, o₁, o₂, o₃, h1, h2, h3⟩ := yieldTurn_steps h []
  have ho₁ : QueueState.Orderly (⟨q, []⟩ : QueueState R) .tentativePopNext := by
    rintro (h | h) <;> cases h
  have ho₂ : QueueState.Orderly (⟨q₁, []⟩ : QueueState R) .commitTentativePopYield := by
    rintro (h | h) <;> cases h
  have ho₃ : QueueState.Orderly (⟨q₂, []⟩ : QueueState R) (.pushYieldedIntoEpoch tid priority) := by
    rintro (h | h) <;> cases h
  have hs₁ := step_settled hs ho₁ h1
  have hs₂ := step_settled hs₁ ho₂ h2
  exact step_settled hs₂ ho₃ h3

theorem yieldTurn_streakSound (hs : StreakSound q)
    (h : q.yieldTurn priority = .ok (q', tid)) : StreakSound q' := by
  obtain ⟨q₁, q₂, o₁, o₂, o₃, h1, h2, h3⟩ := yieldTurn_steps h []
  have hs₁ := step_streakSound (s := ⟨q, []⟩) hs h1
  have hs₂ := step_streakSound hs₁ h2
  exact step_streakSound hs₂ h3

/-! ## The rank of a waiting thread -/

/-- How many yields the thread has left before it is in the epoch. -/
def weight (q : RunQueue R) (t : DetTid) : ℕ :=
  if t ∈ q.members then 0 else plainYieldsBeforeEpoch + 1 - q.streak t

def others (q : RunQueue R) (T : DetTid) : Finset DetTid := q.tids.toFinset.erase T

/-- What the others have left, and another round of them if `T` waits in the
    epoch. -/
def rank (T : DetTid) (q : RunQueue R) : ℕ :=
  ∑ t ∈ q.others T, q.weight t + if T ∈ q.members then 2 * (q.others T).card else 0

theorem weight_le (q : RunQueue R) (t : DetTid) : q.weight t ≤ 2 := by
  unfold weight plainYieldsBeforeEpoch
  split_ifs <;> omega

theorem mem_others {t : DetTid} : t ∈ q.others T ↔ t ≠ T ∧ Holds q.queue t := by
  unfold others
  rw [Finset.mem_erase, mem_toFinset, mem_tids]

theorem others_congr (h : ∀ t, Holds q'.queue t ↔ Holds q.queue t) : q'.others T = q.others T := by
  ext t
  rw [mem_others, mem_others, h]

theorem card_others (hd : Distinct q.queue) (hT : Holds q.queue T) :
    (q.others T).card = q.len - 1 := by
  unfold others
  rw [Finset.card_erase_of_mem (mem_toFinset.mpr (mem_tids.mpr hT)),
    toFinset_card_of_nodup (tids_nodup hd), length_tids]

theorem sum_weight_le (q : RunQueue R) (T : DetTid) :
    ∑ t ∈ q.others T, q.weight t ≤ 2 * (q.others T).card := by
  calc ∑ t ∈ q.others T, q.weight t
      ≤ (q.others T).card • 2 := Finset.sum_le_card_nsmul _ _ _ fun t _ => q.weight_le t
    _ = 2 * (q.others T).card := by rw [smul_eq_mul, mul_comm]

/-- `T` is queued and not a poller backed off all the way. -/
def Waits (q : RunQueue R) (T : DetTid) : Prop :=
  ∃ (k : PrioritizedOrder) (v : QueueValue), q.queue[k]? = some v ∧ v.tid = T ∧
    v.isFullyBackedOffPoller k.priority = false

theorem Waits.holds (h : Waits q T) : Holds q.queue T := by
  obtain ⟨k, v, hk, htid, -⟩ := h
  exact ⟨k, v, hk, htid⟩

theorem Waits.mem_of_epochOver (h : Waits q T) (hover : q.epochOver = true) : T ∈ q.members := by
  obtain ⟨k, v, hk, rfl, hpoller⟩ := h
  unfold epochOver at hover
  unfold members
  cases hepoch : q.yieldEpoch with
  | none =>
    rw [hepoch] at hover
    cases hover
  | some epoch =>
    rw [hepoch, Option.any_some, all_eq_true] at hover
    have hent := hover (k, v) (mem_entries.mpr hk)
    simpa [hpoller] using hent

/-- Ending the epoch starts the second round that `T` was given. -/
theorem rank_epochChecked_le (hT : Waits q T) : rank T q.epochChecked ≤ rank T q := by
  by_cases hover : q.epochOver = true
  · have hmem := hT.mem_of_epochOver hover
    have hchk : q.epochChecked = q.endYieldEpoch := by
      unfold epochChecked
      rw [if_pos hover]
    have hle := sum_weight_le q.endYieldEpoch T
    have hcard : q.endYieldEpoch.others T = q.others T := others_congr fun _ => Iff.rfl
    have hemp : T ∉ q.endYieldEpoch.members := by
      unfold members endYieldEpoch
      simp
    rw [hchk]
    unfold rank
    rw [if_neg hemp, if_pos hmem, ← hcard]
    omega
  · have hchk : q.epochChecked = q := by
      unfold epochChecked
      rw [if_neg hover]
    rw [hchk]

/-- Selection takes a thread outside the epoch: a thread that can run is outside
    it, or the epoch has ended. -/
theorem candidate_notMem_members (hskip : q.yieldedSkip = none) (hcand : tid ∈ q.candidates) :
    tid ∉ q.epochChecked.members := by
  by_cases hover : q.epochOver = true
  · have hchk : q.epochChecked = q.endYieldEpoch := by
      unfold epochChecked
      rw [if_pos hover]
    rw [hchk]
    unfold members endYieldEpoch
    simp
  · have hchk : q.epochChecked = q := by
      unfold epochChecked
      rw [if_neg hover]
    rw [hchk]
    unfold members
    cases hepoch : q.yieldEpoch with
    | none => simp
    | some epoch =>
      unfold epochOver at hover
      rw [hepoch, Option.any_some, Bool.not_eq_true, all_eq_false] at hover
      obtain ⟨e, he, hout⟩ := hover
      simp only [Bool.or_eq_true, decide_eq_true_eq, not_or, Bool.not_eq_true] at hout
      refine candidate_notMem_epoch hcand hepoch (mem_entries.mp he) hout.1 ?_ hout.2
      rw [hskip]
      intro h
      cases h

theorem epochChecked_streakSound (hs : StreakSound q) : StreakSound q.epochChecked := by
  unfold epochChecked
  split_ifs
  · intro t ht
    rw [streak_empty rfl] at ht
    omega
  · exact hs

theorem yieldTurn_rank (hs : Settled q) (hstre : StreakSound q)
    (hskip : q.yieldedSkip = none) (hT : Waits q T)
    (h : q.yieldTurn priority = .ok (q', tid)) (hne : tid ≠ T) : rank T q' < rank T q := by
  have hy := yieldTurn_yields hs h
  have hout := candidate_notMem_members hskip hy.candidate
  have hsound := epochChecked_streakSound hstre
  have hstre' := hy.streak T hT.holds hne.symm
  have hmemb' := hy.members T hT.holds hne.symm
  have hothe : q'.others T = q.epochChecked.others T := by
    refine others_congr fun t => ?_
    rw [hy.holds, epochChecked_queue]
  have hmemT : T ∈ q'.members ↔ T ∈ q.epochChecked.members := by
    rw [hmemb']
    split_ifs
    · rw [Finset.mem_insert]
      exact ⟨fun h => h.resolve_left hne.symm, .inr⟩
    · rfl
  -- The thread that yielded has one yield fewer left; the others have what they had.
  have hself : q'.weight tid < q.epochChecked.weight tid := by
    have hle : ¬ plainYieldsBeforeEpoch < q.epochChecked.streak tid := fun hlt =>
      hout (hsound tid hlt)
    unfold weight
    rw [if_neg hout, hstre', if_pos rfl, hmemb']
    unfold plainYieldsBeforeEpoch at hle ⊢
    by_cases hlt : 1 < q.epochChecked.streak tid + 1
    · rw [if_pos hlt, if_pos (Finset.mem_insert_self _ _)]
      omega
    · rw [if_neg hlt, if_neg hout]
      omega
  have hrest : ∀ t, t ≠ tid → q'.weight t = q.epochChecked.weight t := by
    intro t ht
    have hmem : t ∈ q'.members ↔ t ∈ q.epochChecked.members := by
      rw [hmemb']
      split_ifs
      · rw [Finset.mem_insert]
        exact ⟨fun h => h.resolve_left ht, .inr⟩
      · rfl
    unfold weight
    rw [hstre', if_neg ht]
    simp only [hmem]
  have hsum : ∑ t ∈ q.epochChecked.others T, q'.weight t <
      ∑ t ∈ q.epochChecked.others T, q.epochChecked.weight t := by
    refine Finset.sum_lt_sum ?_ ⟨tid, ?_, hself⟩
    · intro t _
      by_cases ht : t = tid
      · rw [ht]
        exact hself.le
      · exact (hrest t ht).le
    · rw [mem_others, epochChecked_queue]
      exact ⟨hne, (mem_candidates.mp hy.candidate).1⟩
  have hround : rank T q' < rank T q.epochChecked := by
    unfold rank
    rw [hothe]
    simp only [hmemT]
    omega
  exact hround.trans_le (rank_epochChecked_le hT)

theorem rank_le (hd : Distinct q.queue) (hT : Holds q.queue T) :
    rank T q ≤ (if T ∈ q.members then 4 else 2) * (q.len - 1) := by
  have hle := sum_weight_le q T
  have hcard := card_others hd hT
  unfold rank
  rw [hcard] at hle ⊢
  split_ifs <;> omega

theorem yieldTurn_waits (hs : Settled q) (hT : Waits q T)
    (h : q.yieldTurn priority = .ok (q', tid)) (hne : tid ≠ T) : Waits q' T := by
  obtain ⟨k, v, hk, htid, hpoller⟩ := hT
  obtain ⟨k', v', hk', hf⟩ := (yieldTurn_yields hs h).follows k v hk (by rw [htid]; exact hne.symm)
  exact ⟨k', v', hk', hf.tid.trans htid, hf.backedOff hpoller⟩

theorem yieldRun_bypass (hs : Settled q) (hstre : StreakSound q)
    (hskip : q.yieldedSkip = none) (hT : Waits q T) {priorities : List Priority}
    {tids : List DetTid} (h : run yieldTurn q priorities = .ok (q', tids)) :
    (tids.takeWhile (· ≠ T)).length ≤ rank T q := by
  refine run_takeWhile_le (fun q => Settled q ∧ StreakSound q ∧ q.yieldedSkip = none ∧ Waits q T)
    (rank T) _ ?_ ⟨hs, hstre, hskip, hT⟩ h
  rintro q priority q' tid ⟨hs, hstre, hskip, hT⟩ hturn hne
  have hne : tid ≠ T := by simpa using hne
  exact ⟨⟨yieldTurn_settled hs hturn, yieldTurn_streakSound hstre hturn,
    (yieldTurn_yields hs hturn).skip, yieldTurn_waits hs hT hturn hne⟩,
    yieldTurn_rank hs hstre hskip hT hturn hne⟩

/-! ## Turns that go through -/

theorem yieldTurn_isOk {pool : List SuspendedRunQueueEntry}
    (hk : QueueState.Keyed (⟨q, pool⟩ : QueueState R)) (hs : Settled q) (hlen : q.len ≠ 0)
    (hex : q.tentativeSelectionIsExact = false) (hcnt : q.turnCounter + 1 < 2 ^ 61)
    (hprio : isOrdinaryPriority priority = true) :
    ∃ q' tid, q.yieldTurn priority = .ok (q', tid) ∧
      QueueState.Keyed (⟨q', pool⟩ : QueueState R) ∧ q'.len ≠ 0 ∧
      q'.tentativeSelectionIsExact = false ∧ q'.turnCounter = q.turnCounter + 1 := by
  obtain ⟨q₁, tid, hpop, hmem, hsel⟩ := tentativePopNext_spec hs hlen hex
  have hs₁ := hsel.settled hs hmem
  have hlock : q₁.tentativeSelection = some tid := by
    obtain ⟨prng, sticky, -, rfl⟩ := hsel
    rfl
  obtain ⟨key, value, -, -, -, ⟨q₂, hcmt, -⟩, -⟩ := hs₁.commits hlock
  have hout := takenOut hs hpop hcmt
  -- The turn counters and the owners of the turns carry over to the push.
  have h1 : step ⟨q, pool⟩ .tentativePopNext = .ok (⟨q₁, pool⟩, .selected (some tid)) :=
    lift_eq_ok.mpr ⟨q₁, some tid, hpop, rfl, rfl⟩
  have h2 : step ⟨q₁, pool⟩ .commitTentativePopYield = .ok (⟨q₂, pool⟩, .committed tid) :=
    lift_eq_ok.mpr ⟨q₂, tid, hcmt, rfl, rfl⟩
  have hk₁ := step_keyed hk (promised_of_quiet rfl rfl rfl) h1
  have hk₂ := step_keyed hk₁ (promised_of_quiet rfl rfl rfl) h2
  have hcnt₂ : q₂.turnCounter + 1 < 2 ^ 61 := by
    unfold turnCounter at hcnt ⊢
    rw [hout.back, hout.front]
    exact hcnt
  have hnew : ¬ Holds q₂.queue tid := fun h => ((hout.holds tid).mp h).1 rfl
  set q₃ : RunQueue R := { q₂.countYield tid with queuedByYield := insert tid q₂.queuedByYield }
    with hq₃
  have hque : q₃.queue = q₂.queue := countYield_queue q₂ tid
  obtain ⟨⟨q', key⟩, hinner⟩ := hk₂.pushBackInner_isOk hcnt₂ hque
    ⟨countYield_lastBackTurn q₂ tid, countYield_lastFrontTurn q₂ tid⟩ (by rwa [hque]) priority none
  have hpush : q₂.pushYieldedIntoEpoch tid priority = .ok (q', key) :=
    pushBack_eq_ok.mpr ⟨(countYield_tentativeSelection q₂ tid).trans hout.unlocked,
      by rwa [hque], hprio, hinner⟩
  have hturn : q.yieldTurn priority = .ok (q', tid) :=
    yieldTurn_eq_ok.mpr ⟨q₁, some tid, q₂, key, hpop, hcmt, hpush⟩
  have h3 : step ⟨q₂, pool⟩ (.pushYieldedIntoEpoch tid priority) =
      .ok (⟨q', pool⟩, .order key) := lift_eq_ok.mpr ⟨q', key, hpush, rfl, rfl⟩
  have hp : QueueState.Promised ⟨q₂, pool⟩ (.pushYieldedIntoEpoch tid priority) := by
    refine ⟨fun _ => hcnt₂, ?_, by intro e he; cases he⟩
    intro t ht
    cases ht
    exact hnew
  have hk' := step_keyed hk₂ hp h3
  obtain ⟨hadd, hback, hfr⟩ := pushBackInner_eq_ok hinner
  refine ⟨q', tid, hturn, hk', ?_, ?_, ?_⟩
  · have hmem' := mem_tids.mpr ((hadd.holds tid).mpr (.inl rfl))
    rw [← length_tids]
    exact length_pos_of_mem hmem' |>.ne'
  · have hlock := (pushBack_eq_ok.mp hpush).1
    exact (yieldTurn_settled hs hturn).not_exact (hadd.sameFrame.selection.trans hlock)
  · have hle : 0 ≤ q.lastBackTurn := hk.back
    unfold turnCounter
    rw [hback, hfr, hq₃]
    rw [countYield_lastBackTurn, countYield_lastFrontTurn, hout.back, hout.front]
    omega

theorem yieldRun_isOk {pool : List SuspendedRunQueueEntry} (priorities : List Priority)
    (hprio : ∀ p ∈ priorities, isOrdinaryPriority p = true) :
    ∀ {q : RunQueue R}, QueueState.Keyed (⟨q, pool⟩ : QueueState R) → Settled q → q.len ≠ 0 →
      q.tentativeSelectionIsExact = false → q.turnCounter + priorities.length < 2 ^ 61 →
      ∃ r, run yieldTurn q priorities = .ok r := by
  induction priorities with
  | nil =>
    intro q _ _ _ _ _
    exact ⟨_, rfl⟩
  | cons p priorities ih =>
    intro q hk hs hlen hex hcnt
    rw [length_cons] at hcnt
    obtain ⟨q', tid, hturn, hk', hlen', hex', hcnt'⟩ :=
      yieldTurn_isOk hk hs hlen hex (by omega) (hprio p mem_cons_self)
    obtain ⟨⟨q'', tids⟩, hrun⟩ := ih (fun p' hp' => hprio p' (mem_cons_of_mem _ hp')) hk'
      (yieldTurn_settled hs hturn) hlen' hex' (by omega)
    exact ⟨_, run_cons_eq_ok.mpr ⟨q', tid, tids, hturn, hrun, rfl⟩⟩

end RunQueue

namespace QueueState

open RunQueue

variable {R : Prng} {s : QueueState R}

/-- **Main theorem**: from every reachable state without a pending skip, in
    every run of chaos yields, a queued thread that is not a poller backed off
    all the way is selected after at most `4 (n - 1)` turns of other threads,
    where `n` threads are queued, and after at most `2 (n - 1)` if it starts
    outside the epoch. Such a run goes through as long as there are turns to
    hand out. -/
theorem bounded_bypass (strategy : SchedHeuristic) (prng : R.State)
    (hreach : Reaches step Orderly (new strategy prng) s)
    (hskip : s.queue.yieldedSkip = none) {k : PrioritizedOrder} {v : QueueValue}
    (hT : s.queue.queue[k]? = some v) (hpoller : v.isFullyBackedOffPoller k.priority = false)
    {priorities : List Priority} (hprio : ∀ p ∈ priorities, isOrdinaryPriority p = true) :
    (∀ q' tids, run yieldTurn s.queue priorities = .ok (q', tids) →
      (tids.takeWhile (· ≠ v.tid)).length ≤
        (if v.tid ∈ s.queue.members then 4 else 2) * (s.queue.len - 1)) ∧
    (Reaches step Promised (new strategy prng) s → s.queue.tentativeSelectionIsExact = false →
      s.queue.turnCounter + priorities.length < 2 ^ 61 →
      ∃ r, run yieldTurn s.queue priorities = .ok r) := by
  have hs := reaches_settled hreach
  have hwaits : Waits s.queue v.tid := ⟨k, v, hT, rfl, hpoller⟩
  have hstre : StreakSound s.queue := by
    refine hreach.invariant (fun t => StreakSound t.queue) (streakSound_new strategy prng) ?_
    intro t op t' out ht _ hstep
    exact step_streakSound ht hstep
  refine ⟨?_, ?_⟩
  · intro q' tids hrun
    exact (yieldRun_bypass hs hstre hskip hwaits hrun).trans (rank_le hs.distinct hwaits.holds)
  · intro hprom hex hcnt
    have hlen : s.queue.len ≠ 0 := by
      rw [← length_tids]
      exact (length_pos_of_mem (mem_tids.mpr hwaits.holds)).ne'
    exact yieldRun_isOk priorities hprio (reaches_keyed hprom) hs hlen hex hcnt

/-- Thread 3 waits behind two threads of a better band. -/
def lowWaiter : List QueueOp := [.pushBack 1 1000, .pushBack 2 1000, .pushBack 3 2000]

/-- The bound is reached: each of the others yields twice first. -/
theorem bounded_bypass_lowWaiter : ∃ s : QueueState Prng.first,
    Reaches step Orderly (new .none ()) s ∧
    Reaches step Promised (new .none ()) s ∧
    (run yieldTurn s.queue [1000, 1000, 1000, 1000, 1000]).toOption.map (·.2) =
      some [1, 2, 1, 2, 3] ∧
    (∀ q' tids, run yieldTurn s.queue [1000, 1000, 1000, 1000, 1000] = .ok (q', tids) →
      (tids.takeWhile (· ≠ 3)).length ≤
        (if (3 : DetTid) ∈ s.queue.members then 4 else 2) * (s.queue.len - 1)) ∧
    (if (3 : DetTid) ∈ s.queue.members then 4 else 2) * (s.queue.len - 1) = 4 ∧
    ∃ r, run yieldTurn s.queue [1000, 1000, 1000, 1000, 1000] = .ok r := by
  obtain ⟨s, hreach, hskip, hT, hex, hcnt, hrun, hbd⟩ := exists_reaches lowWaiter
    (fun s : QueueState Prng.first => s.queue.yieldedSkip = none ∧
      s.queue.queue[(⟨2000, 3⟩ : PrioritizedOrder)]? = some ⟨3, none, false, false⟩ ∧
      s.queue.tentativeSelectionIsExact = false ∧ s.queue.turnCounter + 5 < 2 ^ 61 ∧
      (run yieldTurn s.queue [1000, 1000, 1000, 1000, 1000]).toOption.map (·.2) =
        some [1, 2, 1, 2, 3] ∧
      (if (3 : DetTid) ∈ s.queue.members then 4 else 2) * (s.queue.len - 1) = 4)
    (by decide +kernel : (arrive step (fun s op => Orderly s op ∧ Promised s op)
      (new .none ()) lowWaiter).any _ = true)
  have hprio : ∀ p ∈ [1000, 1000, 1000, 1000, 1000], isOrdinaryPriority p = true := by decide
  have horde := hreach.mono fun _ _ h => h.1
  have hprom := hreach.mono fun _ _ h => h.2
  have hbypa := bounded_bypass .none () horde hskip hT rfl hprio
  exact ⟨s, horde, hprom, hrun, hbypa.1, hbd, hbypa.2 hprom hex hcnt⟩

end QueueState

end Hermit.Scheduler
