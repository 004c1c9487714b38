import Hermit.Scheduler.QueueEntries

/-!
# Selection from the run queue

Three mechanisms keep threads out of a selection: the one-turn skip, the yield
epoch and, for the sticky strategy, the cached selection. Together they never
exclude every queued thread, and a transaction commits the thread it selected.

* `selection_safe`, `reachable_drains`
-/

namespace Hermit.Scheduler

open Hermit.Common List

namespace RunQueue

variable {R : Prng} {q q' : RunQueue R} {tid : DetTid}

/-! ## Candidates -/

@[simp] theorem epochChecked_queue (q : RunQueue R) : q.epochChecked.queue = q.queue := by
  unfold epochChecked
  split_ifs <;> rfl

@[simp] theorem epochChecked_yieldedSkip (q : RunQueue R) :
    q.epochChecked.yieldedSkip = q.yieldedSkip := by
  unfold epochChecked
  split_ifs <;> rfl

@[simp] theorem epochChecked_tentativeSelection (q : RunQueue R) :
    q.epochChecked.tentativeSelection = q.tentativeSelection := by
  unfold epochChecked
  split_ifs <;> rfl

@[simp] theorem epochChecked_tentativeSelectionIsExact (q : RunQueue R) :
    q.epochChecked.tentativeSelectionIsExact = q.tentativeSelectionIsExact := by
  unfold epochChecked
  split_ifs <;> rfl

/-- The threads that `tentative_pop_next` excludes. -/
def barred (q : RunQueue R) : Finset DetTid := q.epochChecked.excluded q.pendingSkip

/-- The threads that `tentative_pop_next` may select. -/
def candidates (q : RunQueue R) : List DetTid := q.epochChecked.eligible q.barred

theorem mem_eligible {out : Finset DetTid} :
    tid ∈ q.eligible out ↔ Holds q.queue tid ∧ tid ∉ out := by
  unfold eligible
  rw [mem_filter, mem_tids, decide_eq_true_eq]

theorem mem_candidates : tid ∈ q.candidates ↔ Holds q.queue tid ∧ tid ∉ q.barred := by
  unfold candidates
  rw [mem_eligible, epochChecked_queue]

theorem length_tids (q : RunQueue R) : q.tids.length = q.len := by
  unfold tids entries len
  rw [length_map]
  exact Std.ExtTreeMap.length_toList

theorem exists_holds (hlen : q.len ≠ 0) : ∃ tid, Holds q.queue tid := by
  have hne : q.tids ≠ [] := by
    intro hnil
    rw [← length_tids, hnil] at hlen
    exact hlen rfl
  obtain ⟨tid, htid⟩ := exists_mem_of_ne_nil _ hne
  exact ⟨tid, mem_tids.mp htid⟩

theorem exists_other (hd : Distinct q.queue) (hlen : 1 < q.len) (tid : DetTid) :
    ∃ other, Holds q.queue other ∧ other ≠ tid := by
  by_contra hnone
  have hall : ∀ t ∈ q.tids, t = tid := by
    intro t ht
    by_contra hne
    exact hnone ⟨t, mem_tids.mp ht, hne⟩
  have hle : q.tids.length ≤ 1 := by
    have hrep := eq_replicate_of_mem hall
    have hnodup := tids_nodup hd
    rw [hrep] at hnodup
    exact nodup_replicate.mp hnodup
  rw [length_tids] at hle
  omega

theorem pendingSkip_eq_some {skip : DetTid} : q.pendingSkip = some skip ↔
    q.yieldedSkip = some skip ∧ 1 < q.len ∧ Holds q.queue skip := by
  unfold pendingSkip
  rw [Option.filter_eq_some_iff, Bool.and_eq_true, decide_eq_true_eq, containsTid_iff]

/-- The skip and the epoch never exclude every thread together: the epoch counts
    only while some thread is in neither. -/
theorem candidates_ne_nil (hd : Distinct q.queue) (hlen : q.len ≠ 0) : q.candidates ≠ [] := by
  have hskip : ∃ tid, Holds q.queue tid ∧ tid ∉ q.pendingSkip.toFinset := by
    cases hp : q.pendingSkip with
    | none =>
      obtain ⟨tid, htid⟩ := exists_holds hlen
      exact ⟨tid, htid, by simp⟩
    | some skip =>
      obtain ⟨-, hlt, -⟩ := pendingSkip_eq_some.mp hp
      obtain ⟨tid, htid, hne⟩ := exists_other hd hlt skip
      exact ⟨tid, htid, by simpa using hne⟩
  have hfree : ∃ tid, Holds q.queue tid ∧ tid ∉ q.barred := by
    unfold barred excluded
    split
    · exact hskip
    · split_ifs with hany
      · obtain ⟨tid, htid, hout⟩ := any_eq_true.mp hany
        refine ⟨tid, ?_, by simpa using hout⟩
        rw [mem_tids, epochChecked_queue] at htid
        exact htid
      · exact hskip
  obtain ⟨tid, htid⟩ := hfree
  exact ne_nil_of_mem (mem_candidates.mpr htid)

theorem candidate_ne_skip (hcand : tid ∈ q.candidates) {skip other : DetTid}
    (hskip : q.yieldedSkip = some skip) (hoth : Holds q.queue other) (hne : other ≠ skip) :
    tid ≠ skip := by
  rintro rfl
  obtain ⟨hq, hout⟩ := mem_candidates.mp hcand
  have hlen : 1 < q.len := by
    rw [← length_tids]
    by_contra hle
    have hmem := mem_tids.mpr hq
    have hmem' := mem_tids.mpr hoth
    match hl : q.tids with
    | [] => rw [hl] at hmem; cases hmem
    | [a] =>
      rw [hl, mem_singleton] at hmem hmem'
      exact hne (hmem'.trans hmem.symm)
    | a :: b :: l =>
      rw [hl] at hle
      simp at hle
  have hp : q.pendingSkip = some tid := pendingSkip_eq_some.mpr ⟨hskip, hlen, hq⟩
  apply hout
  unfold barred excluded
  rw [hp]
  split
  · simp
  · split_ifs <;> simp

/-- No candidate is a member of the epoch while another thread could run. -/
theorem candidate_notMem_epoch (hcand : tid ∈ q.candidates) {epoch : Finset DetTid}
    {k : PrioritizedOrder} {v : QueueValue} (hepoch : q.yieldEpoch = some epoch)
    (hk : q.queue[k]? = some v) (hout : v.tid ∉ epoch) (hskip : q.yieldedSkip ≠ some v.tid)
    (hpoller : v.isFullyBackedOffPoller k.priority = false) : tid ∉ epoch := by
  have hover : q.epochOver = false := by
    unfold epochOver
    rw [hepoch, Option.any_some, all_eq_false]
    refine ⟨(k, v), mem_entries.mpr hk, ?_⟩
    simp [hout, hpoller]
  have hchk : q.epochChecked = q := by
    unfold epochChecked
    rw [hover]
    rfl
  have hany : q.tids.any (· ∉ q.pendingSkip.toFinset ∪ epoch) = true := by
    refine any_eq_true.mpr ⟨v.tid, mem_tids.mpr ⟨k, v, hk, rfl⟩, ?_⟩
    have hpend : v.tid ∉ q.pendingSkip.toFinset := by
      rw [Option.mem_toFinset]
      intro hp
      exact hskip (pendingSkip_eq_some.mp hp).1
    simp only [decide_eq_true_eq, Finset.mem_union, not_or]
    exact ⟨hpend, hout⟩
  have hbarr : q.barred = q.pendingSkip.toFinset ∪ epoch := by
    unfold barred excluded
    rw [hchk, hepoch]
    dsimp only
    rw [if_pos hany]
  obtain ⟨-, hnot⟩ := mem_candidates.mp hcand
  rw [hbarr, Finset.mem_union, not_or] at hnot
  exact hnot.2

/-! ## Selecting a candidate -/

theorem length_eligible (q : RunQueue R) (out : Finset DetTid) :
    q.len - (q.tids.filter (· ∈ out)).length = (q.eligible out).length := by
  have hspl := length_eq_length_filter_add (l := q.tids) (fun t => decide (t ∈ out))
  have heq : (q.tids.filter fun t => !decide (t ∈ out)) = q.eligible out := by
    congr 1
    funext t
    simp
  rw [length_tids, heq] at hspl
  omega

theorem draw_spec {out : Finset DetTid} (hne : q.eligible out ≠ []) :
    ∃ prng selection, q.draw out = .ok ({ q with prng := prng }, some selection) ∧
      selection ∈ q.eligible out := by
  have hpos : 0 < (q.eligible out).length := length_pos_of_ne_nil hne
  set index := (R.randomIndex q.prng (q.eligible out).length).1 with hidx
  have hlt : index < (q.eligible out).length := R.randomIndex_lt q.prng _ hpos
  obtain ⟨selection, hsel⟩ : ∃ t, (q.eligible out)[index]? = some t :=
    ⟨_, getElem?_eq_getElem hlt⟩
  refine ⟨(R.randomIndex q.prng (q.eligible out).length).2, selection, ?_, mem_of_getElem? hsel⟩
  unfold draw
  dsimp only
  rw [length_eligible, if_neg (by omega), ← hidx, hsel]
  rfl

/-- `q'` is `q` with a transaction for `selection` underway. -/
def Selects (q q' : RunQueue R) (selection : DetTid) : Prop :=
  ∃ prng sticky, (q.schedStrategy = .stickyRandom → sticky = some selection) ∧ q' = { q with
      tentativeSelection := some selection
      prng := prng
      stickyRandomSelection := sticky }

/-- Selection by any strategy takes an eligible thread; a random transaction that
    is underway keeps its thread. -/
theorem select_spec {out : Finset DetTid} (hne : q.eligible out ≠ [])
    (hkept : ∀ tid, q.tentativeSelection = some tid → tid ∈ q.eligible out) :
    ∃ q' selection, q.select out = .ok (q', some selection) ∧ selection ∈ q.eligible out ∧
      Selects q q' selection := by
  have htids : q.tids ≠ [] := by
    intro hnil
    exact hne (by unfold eligible; rw [hnil]; rfl)
  have hoth : q.schedStrategy ≠ .stickyRandom → ∀ {sticky selection : Option DetTid},
      q.schedStrategy = .stickyRandom → sticky = selection :=
    fun hne _ _ heq => absurd heq hne
  obtain ⟨first, rest, hcons⟩ := exists_cons_of_ne_nil hne
  have hhead : (q.eligible out).head? = some first := by rw [hcons]; rfl
  unfold select
  split
  · rename_i hstra
    exact ⟨_, first, by rw [hhead]; rfl, mem_of_head? hhead, q.prng, q.stickyRandomSelection,
      hoth (by rw [hstra]; decide), rfl⟩
  · rename_i hstra
    exact ⟨_, first, by rw [hhead]; rfl, mem_of_head? hhead, q.prng, q.stickyRandomSelection,
      hoth (by rw [hstra]; decide), rfl⟩
  · rename_i hstra
    rw [if_neg htids]
    split
    · rename_i tid hloc
      refine ⟨q, tid, rfl, hkept tid hloc, q.prng, q.stickyRandomSelection,
        hoth (by rw [hstra]; decide), ?_⟩
      rw [← hloc]
    · obtain ⟨prng, selection, hdraw, hmem⟩ := draw_spec hne
      exact ⟨_, selection, bind_eq_ok.mpr ⟨_, hdraw, rfl⟩, hmem, prng, q.stickyRandomSelection,
        hoth (by rw [hstra]; decide), rfl⟩
  · rw [if_neg htids]
    split
    · rename_i tid hstic
      obtain ⟨hsel, hcond⟩ := Option.filter_eq_some_iff.mp hstic
      rw [Bool.and_eq_true, decide_eq_true_eq, containsTid_iff] at hcond
      exact ⟨_, tid, rfl, mem_eligible.mpr ⟨hcond.2, hcond.1⟩, q.prng, q.stickyRandomSelection,
        fun _ => hsel, rfl⟩
    · obtain ⟨prng, selection, hdraw, hmem⟩ := draw_spec hne
      exact ⟨_, selection, bind_eq_ok.mpr ⟨_, hdraw, rfl⟩, hmem, prng, some selection, fun _ => rfl,
        rfl⟩

/-! ## Transactions -/

/-- What holds of a queue between and within transactions: a thread that is
    selected is queued, and one that a pop selected could be selected again. -/
structure Settled (q : RunQueue R) : Prop where
  distinct : Distinct q.queue
  exact : q.tentativeSelectionIsExact = true → q.tentativeSelection ≠ none
  queued : ∀ tid, q.tentativeSelection = some tid → Holds q.queue tid
  chosen : ∀ tid, q.tentativeSelection = some tid → q.tentativeSelectionIsExact = false →
    tid ∉ q.barred ∧ (q.schedStrategy = .stickyRandom → q.stickyRandomSelection = some tid)

theorem settled_of_unlocked (hd : Distinct q.queue) (hunlocked : q.tentativeSelection = none)
    (hex : q.tentativeSelectionIsExact = false) : Settled q where
  distinct := hd
  exact := by rw [hex]; intro h; cases h
  queued := by rw [hunlocked]; intro tid h; cases h
  chosen := by rw [hunlocked]; intro tid h; cases h

theorem Settled.not_exact (hs : Settled q) (hunlocked : q.tentativeSelection = none) :
    q.tentativeSelectionIsExact = false := by
  cases hex : q.tentativeSelectionIsExact with
  | false => rfl
  | true => exact absurd hunlocked (hs.exact hex)

theorem epochChecked_epochChecked (q : RunQueue R) : q.epochChecked.epochChecked = q.epochChecked := by
  by_cases hover : q.epochOver = true
  · have hchk : q.epochChecked = q.endYieldEpoch := by
      unfold epochChecked
      rw [if_pos hover]
    rw [hchk]
    rfl
  · have hchk : q.epochChecked = q := by
      unfold epochChecked
      rw [if_neg hover]
    rw [hchk, hchk]

theorem pendingSkip_epochChecked (q : RunQueue R) : q.epochChecked.pendingSkip = q.pendingSkip := by
  unfold pendingSkip len containsTid tids entries
  rw [epochChecked_queue, epochChecked_yieldedSkip]

theorem barred_congr (hque : q'.queue = q.queue) (hskip : q'.yieldedSkip = q.yieldedSkip)
    (hepoch : q'.yieldEpoch = q.yieldEpoch) : q'.barred = q.barred := by
  have hover : q'.epochOver = q.epochOver := by
    unfold epochOver entries
    rw [hque, hepoch]
  have hpen : q'.pendingSkip = q.pendingSkip := by
    unfold pendingSkip len containsTid tids entries
    rw [hque, hskip]
  have hchk : q'.epochChecked.yieldEpoch = q.epochChecked.yieldEpoch := by
    unfold epochChecked
    rw [hover]
    split_ifs
    · rfl
    · exact hepoch
  have htids : q'.epochChecked.tids = q.epochChecked.tids := by
    unfold tids entries
    rw [epochChecked_queue, epochChecked_queue, hque]
  unfold barred excluded
  rw [hchk, htids, hpen]

theorem barred_epochChecked (q : RunQueue R) : q.epochChecked.barred = q.barred := by
  unfold barred
  rw [epochChecked_epochChecked, pendingSkip_epochChecked]

theorem tentativePopNext_spec (hs : Settled q) (hlen : q.len ≠ 0)
    (hex : q.tentativeSelectionIsExact = false) :
    ∃ q' selection, q.tentativePopNext = .ok (q', some selection) ∧ selection ∈ q.candidates ∧
      Selects q.epochChecked q' selection := by
  have hne := candidates_ne_nil hs.distinct hlen
  have hkept : ∀ tid, q.epochChecked.tentativeSelection = some tid →
      tid ∈ q.epochChecked.eligible q.barred := by
    intro tid htid
    rw [epochChecked_tentativeSelection] at htid
    exact mem_candidates.mpr ⟨hs.queued tid htid, (hs.chosen tid htid hex).1⟩
  obtain ⟨q', selection, hsele, hmem, hsel⟩ := select_spec hne hkept
  exact ⟨q', selection, tentativePopNext_eq_ok.mpr ⟨hex, hsele⟩, hmem, hsel⟩

theorem Selects.settled (hs : Settled q)
    {selection : DetTid} (hmem : selection ∈ q.candidates) (h : Selects q.epochChecked q' selection) :
    Settled q' := by
  obtain ⟨prng, sticky, hstic, hq'⟩ := h
  obtain ⟨hq, hout⟩ := mem_candidates.mp hmem
  have hbarr : q'.barred = q.barred := by
    rw [← barred_epochChecked q]
    exact barred_congr (by rw [hq']) (by rw [hq']) (by rw [hq'])
  subst hq'
  refine ⟨?_, ?_, ?_, ?_⟩
  · rw [epochChecked_queue]
    exact hs.distinct
  · intro _ h
    cases h
  · intro tid htid
    cases htid
    rw [epochChecked_queue]
    exact hq
  · intro tid htid _
    cases htid
    refine ⟨?_, hstic⟩
    rw [hbarr]
    exact hout

theorem tentativePopNext_empty (hs : Settled q) (hlen : q.len = 0) {selection : Option DetTid}
    (h : q.tentativePopNext = .ok (q', selection)) :
    selection = none ∧ q'.tentativeSelection = none := by
  obtain ⟨-, hsele⟩ := tentativePopNext_eq_ok.mp h
  have htids : q.epochChecked.tids = [] := by
    unfold tids entries
    rw [epochChecked_queue]
    exact eq_nil_of_length_eq_zero (by rw [← hlen]; exact length_tids q)
  have hnone : q.epochChecked.tentativeSelection = none := by
    rw [epochChecked_tentativeSelection]
    cases hsel : q.tentativeSelection with
    | none => rfl
    | some tid =>
      have hmem := mem_tids.mpr (hs.queued tid hsel)
      have hnil : q.tids = [] := eq_nil_of_length_eq_zero (by rw [length_tids, hlen])
      rw [hnil] at hmem
      cases hmem
  have helig : ∀ out, q.epochChecked.eligible out = [] := by
    intro out
    unfold eligible
    rw [htids]
    rfl
  unfold select at hsele
  split at hsele
  · rw [helig] at hsele
    cases hsele
    exact ⟨rfl, rfl⟩
  · rw [helig] at hsele
    cases hsele
    exact ⟨rfl, rfl⟩
  · rw [if_pos htids] at hsele
    cases hsele
    exact ⟨rfl, hnone⟩
  · rw [if_pos htids] at hsele
    cases hsele
    exact ⟨rfl, hnone⟩

/-! ## Commits -/

theorem removeFirst_spec (hq : Holds q.queue tid) :
    ∃ (key : PrioritizedOrder) (value : QueueValue), q.queue[key]? = some value ∧ value.tid = tid ∧
      q.removeFirst tid = .ok ({ q with queue := q.queue.erase key }, tid) := by
  unfold removeFirst
  cases hfind : q.find tid with
  | none => exact absurd hq (find_eq_none.mp hfind)
  | some entry =>
    obtain ⟨key, value⟩ := entry
    obtain ⟨hkey, htid⟩ := find_eq_some hfind
    refine ⟨key, value, hkey, htid, ?_⟩
    rw [← htid]
    rfl

theorem commitSelection_spec (hs : Settled q) (hsel : q.tentativeSelection = some tid) :
    ∃ (key : PrioritizedOrder) (value : QueueValue) (q' : RunQueue R),
      q.queue[key]? = some value ∧ value.tid = tid ∧ q.commitSelection = .ok (q', tid) ∧
      q'.queue = q.queue.erase key := by
  have hrmv : ∃ (key : PrioritizedOrder) (value : QueueValue) (q₁ : RunQueue R),
      q.queue[key]? = some value ∧ value.tid = tid ∧
      { q with tentativeSelection := none, tentativeSelectionIsExact := false }.removeSelection tid
        q.tentativeSelectionIsExact = .ok (q₁, tid) ∧ q₁.queue = q.queue.erase key := by
    unfold removeSelection
    split_ifs with hcase
    · obtain ⟨key, value, hkey, htid, hrem⟩ := removeFirst_spec (q := { q with
        tentativeSelection := none, tentativeSelectionIsExact := false }) (hs.queued tid hsel)
      exact ⟨key, value, _, hkey, htid, hrem, rfl⟩
    · -- The sticky strategy removes what it has cached.
      simp only [ne_eq, Bool.or_eq_true, decide_eq_true_eq, not_or, not_not, Bool.not_eq_true]
        at hcase
      have hstic := (hs.chosen tid hsel hcase.1).2 hcase.2
      rw [hstic]
      obtain ⟨key, value, hkey, htid, hrem⟩ := removeFirst_spec (q := { q with
        tentativeSelection := none
        tentativeSelectionIsExact := false
        prng := (R.switches q.prng).2
        stickyRandomSelection := if (R.switches q.prng).1 then none else some tid })
        (hs.queued tid hsel)
      exact ⟨key, value, _, hkey, htid, hrem, rfl⟩
  obtain ⟨key, value, q₁, hkey, htid, hrem, hq₁⟩ := hrmv
  refine ⟨key, value, { q₁ with queuedByYield := q₁.queuedByYield.erase tid }, hkey, htid, ?_, hq₁⟩
  unfold commitSelection
  rw [hsel]
  refine bind_eq_ok.mpr ⟨(q₁, tid), hrem, ?_⟩
  exact throwIf_eq_ok.mpr ⟨not_not.mpr rfl, rfl⟩

/-- Each of the three commits returns `tid` and removes its entry, and no
    other. -/
def Commits (q : RunQueue R) (tid : DetTid) : Prop :=
  ∃ (key : PrioritizedOrder) (value : QueueValue), q.queue[key]? = some value ∧ value.tid = tid ∧
    (∃ q', q.commitTentativePop = .ok (q', tid) ∧ q'.queue = q.queue.erase key) ∧
    (∃ q', q.commitTentativePopYield = .ok (q', tid) ∧ q'.queue = q.queue.erase key) ∧
    ∃ q', q.commitTentativePopCompletedTurn = .ok (q', tid) ∧ q'.queue = q.queue.erase key

theorem Settled.commits (hs : Settled q) (hsel : q.tentativeSelection = some tid) :
    Commits q tid := by
  obtain ⟨key, value, q', hkey, htid, hcmt, hq'⟩ := commitSelection_spec hs hsel
  refine ⟨key, value, hkey, htid, ⟨q', hcmt, hq'⟩, ⟨q'.consumeYieldExclusion, ?_, hq'⟩,
    q'.consumeYieldExclusion.endYieldEpoch, ?_, hq'⟩
  · exact bind_eq_ok.mpr ⟨_, hcmt, rfl⟩
  · exact bind_eq_ok.mpr ⟨_, hcmt, rfl⟩

theorem Settled.commitSelection (hs : Settled q) (h : q.commitSelection = .ok (q', tid)) :
    Distinct q'.queue ∧ q'.tentativeSelection = none ∧ q'.tentativeSelectionIsExact = false := by
  obtain ⟨-, key, value, prng, sticky, -, -, rfl⟩ := commitSelection_eq_ok h
  exact ⟨hs.distinct.of_sub (Entries.sub_erase _ _), rfl, rfl⟩

/-! ## Operations outside transactions -/

/-- The yields and the transaction are as they were. -/
structure SameFrame (q q' : RunQueue R) : Prop where
  epoch : q'.yieldEpoch = q.yieldEpoch
  streaks : q'.yieldStreaks = q.yieldStreaks
  selection : q'.tentativeSelection = q.tentativeSelection
  exact : q'.tentativeSelectionIsExact = q.tentativeSelectionIsExact

theorem Added.sameFrame {q₀ : RunQueue R} {key : PrioritizedOrder} {value : QueueValue}
    (h : Added q₀ q' key value) : SameFrame q₀ q' := by
  obtain ⟨-, m, n, -, hq'⟩ := h
  rw [hq']
  exact ⟨rfl, rfl, rfl, rfl⟩

@[simp] theorem countYield_tentativeSelection (q : RunQueue R) (tid : DetTid) :
    (q.countYield tid).tentativeSelection = q.tentativeSelection := by
  unfold countYield
  split_ifs <;> rfl

@[simp] theorem countYield_tentativeSelectionIsExact (q : RunQueue R) (tid : DetTid) :
    (q.countYield tid).tentativeSelectionIsExact = q.tentativeSelectionIsExact := by
  unfold countYield
  split_ifs <;> rfl

end RunQueue

def QueueOp.transacts : QueueOp → Bool
  | .tentativePopNext | .tentativePopTid .. | .commitTentativePop | .commitTentativePopYield
  | .commitTentativePopCompletedTurn | .undoTentativePop => true
  | _ => false

/-- The queue with the yields that an operation outside transactions leaves. -/
def QueueOp.frame {R : Prng} (q : RunQueue R) : QueueOp → RunQueue R
  | .pushYieldedIntoEpoch tid _ => q.countYield tid
  | .removeTid tid => { q with
      yieldEpoch := q.yieldEpoch.map (·.erase tid)
      yieldStreaks := q.yieldStreaks.erase tid }
  | .endYieldEpoch => q.endYieldEpoch
  | _ => q

theorem QueueOp.frame_selection {R : Prng} (q : RunQueue R) (op : QueueOp) :
    (op.frame q).tentativeSelection = q.tentativeSelection ∧
      (op.frame q).tentativeSelectionIsExact = q.tentativeSelectionIsExact := by
  cases op <;> simp [QueueOp.frame, RunQueue.endYieldEpoch]

namespace QueueState

open RunQueue

variable {R : Prng} {s s' : QueueState R} {op : QueueOp} {out : QueueOut}

/-- The epoch and the skip are dropped between transactions only. The scheduler
    commits or undoes a pop before it changes the queue otherwise; the other
    operations check that themselves. -/
def Orderly (s : QueueState R) (op : QueueOp) : Prop :=
  op = .endYieldEpoch ∨ op = .consumeYieldExclusion → s.queue.tentativeSelection = none

instance (s : QueueState R) (op : QueueOp) : Decidable (Orderly s op) :=
  inferInstanceAs (Decidable (_ → _))

theorem step_frame (hop : op.transacts = false) (h : s.step op = .ok (s', out)) :
    (Orderly s op → s.queue.tentativeSelection = none) ∧ SameFrame (op.frame s.queue) s'.queue := by
  cases op with
  | pushBack =>
    obtain ⟨q, key, hq, rfl, -⟩ := lift_eq_ok.mp h
    obtain ⟨hlock, -, -, hpush⟩ := pushBack_eq_ok.mp hq
    exact ⟨fun _ => hlock, (pushBackInner_eq_ok hpush).1.sameFrame⟩
  | pushYielded =>
    obtain ⟨q, key, hq, rfl, -⟩ := lift_eq_ok.mp h
    obtain ⟨hlock, -, -, hpush⟩ := pushBack_eq_ok.mp (pushYielded_eq_ok hq).2
    obtain ⟨hepoch, hstr, hsel, hex⟩ := (pushBackInner_eq_ok hpush).1.sameFrame
    exact ⟨fun _ => hlock, hepoch, hstr, hsel, hex⟩
  | pushYieldedIntoEpoch tid priority =>
    obtain ⟨q, key, hq, rfl, -⟩ := lift_eq_ok.mp h
    obtain ⟨hlock, -, -, hpush⟩ := pushBack_eq_ok.mp hq
    obtain ⟨hepoch, hstr, hsel, hex⟩ := (pushBackInner_eq_ok hpush).1.sameFrame
    rw [countYield_tentativeSelection] at hlock
    exact ⟨fun _ => hlock, hepoch, hstr, hsel, hex⟩
  | pushPoller =>
    obtain ⟨q, key, hq, rfl, -⟩ := lift_eq_ok.mp h
    obtain ⟨hlock, -, hpush⟩ := pushPoller_eq_ok hq
    exact ⟨fun _ => hlock, (pushBackInner_eq_ok hpush).1.sameFrame⟩
  | pushFront =>
    obtain ⟨q, key, hq, rfl, -⟩ := lift_eq_ok.mp h
    obtain ⟨hlock, -, hpush⟩ := pushFront_eq_ok hq
    exact ⟨fun _ => hlock, (pushFrontInner_eq_ok hpush).1.sameFrame⟩
  | pushEagerIoRepoll tid =>
    obtain ⟨q, key, hq, rfl, -⟩ := lift_eq_ok.mp h
    obtain ⟨hlock, -, hpush⟩ := pushEagerIoRepoll_eq_ok hq
    exact ⟨fun _ => hlock, (pushFrontInner_eq_ok hpush).1.sameFrame⟩
  | suspend =>
    obtain ⟨⟨q, entry⟩, hq, h⟩ := map_eq_ok.mp h
    cases h
    obtain ⟨hlock, ⟨rfl, rfl⟩ | ⟨key, value, -, -, rfl, rfl⟩⟩ := suspend_eq_ok hq
    · exact ⟨fun _ => hlock, rfl, rfl, rfl, rfl⟩
    · exact ⟨fun _ => hlock, rfl, rfl, rfl, rfl⟩
  | restore entry currentPriority =>
    obtain ⟨q', hq', rfl, -⟩ := lift_unit_eq_ok.mp h
    rcases hat : entry.atPriority currentPriority with ⟨key, value⟩
    obtain ⟨hlock, -, -, rfl⟩ := (restore_eq_ok hat).mp hq'
    exact ⟨fun _ => hlock, rfl, rfl, rfl, rfl⟩
  | orderByRunTime order =>
    obtain ⟨q', hq', rfl, -⟩ := lift_unit_eq_ok.mp h
    obtain ⟨⟨⟩, hlock, hq'⟩ := bind_eq_ok.mp hq'
    obtain ⟨r, -, hq'⟩ := bind_eq_ok.mp hq'
    cases hq'
    exact ⟨fun _ => checkUnlocked_eq_ok.mp hlock, rfl, rfl, rfl, rfl⟩
  | removeTid tid =>
    obtain ⟨q, found, hq, rfl, -⟩ := lift_eq_ok.mp h
    obtain ⟨⟨⟩, hlock, hq⟩ := bind_eq_ok.mp hq
    cases hq
    exact ⟨fun _ => checkUnlocked_eq_ok.mp hlock, rfl, rfl, rfl, rfl⟩
  | endYieldEpoch =>
    cases h
    exact ⟨fun ho => ho (.inl rfl), rfl, rfl, rfl, rfl⟩
  | consumeYieldExclusion =>
    cases h
    exact ⟨fun ho => ho (.inr rfl), rfl, rfl, rfl, rfl⟩
  | restorePollerPriority tid =>
    obtain ⟨q, outcome, hq, rfl, -⟩ := lift_eq_ok.mp h
    obtain ⟨hlock, rfl | ⟨key, value, priority, -, -, -, hadd, -⟩⟩ := restorePollerPriority_eq_ok hq
    · exact ⟨fun _ => hlock, rfl, rfl, rfl, rfl⟩
    · obtain ⟨hepoch, hstr, hsel, hex⟩ := hadd.sameFrame
      exact ⟨fun _ => hlock, hepoch, hstr, hsel, hex⟩
  | upgradePollers =>
    obtain ⟨q, restored, hq, rfl, -⟩ := lift_eq_ok.mp h
    obtain ⟨⟨⟩, hlock, hq⟩ := bind_eq_ok.mp hq
    obtain ⟨m, n, -, rfl⟩ := doPollUpgrade_relabels hq
    exact ⟨fun _ => checkUnlocked_eq_ok.mp hlock, rfl, rfl, rfl, rfl⟩
  | tentativePopNext | tentativePopTid | commitTentativePop | commitTentativePopYield
  | commitTentativePopCompletedTurn | undoTentativePop => cases hop

theorem step_settled (hs : Settled s.queue) (ho : Orderly s op) (h : s.step op = .ok (s', out)) :
    Settled s'.queue := by
  have hd := step_distinct h hs.distinct
  cases hop : op.transacts with
  | false =>
    obtain ⟨hlock, hframe⟩ := step_frame hop h
    obtain ⟨hsel, hex⟩ := QueueOp.frame_selection s.queue op
    exact settled_of_unlocked hd (hframe.selection.trans (hsel.trans (hlock ho)))
      (hframe.exact.trans (hex.trans (hs.not_exact (hlock ho))))
  | true =>
    cases op with
    | tentativePopNext =>
      obtain ⟨q, selection, hq, rfl, -⟩ := lift_eq_ok.mp h
      have hex := (tentativePopNext_eq_ok.mp hq).1
      by_cases hlen : s.queue.len = 0
      · have hnone := (tentativePopNext_empty hs hlen hq).2
        obtain ⟨tentative, prng, sticky, hframe⟩ := select_frame (tentativePopNext_eq_ok.mp hq).2
        refine settled_of_unlocked hd hnone ?_
        rw [hframe]
        exact (epochChecked_tentativeSelectionIsExact _).trans hex
      · obtain ⟨q', selection', hq', hmem, hsel⟩ := tentativePopNext_spec hs hlen hex
        rw [hq] at hq'
        cases hq'
        exact hsel.settled hs hmem
    | tentativePopTid tid =>
      obtain ⟨q, selection, hq, rfl, -⟩ := lift_eq_ok.mp h
      obtain ⟨⟨⟩, hlock, hq⟩ := bind_eq_ok.mp hq
      split_ifs at hq with hcont
      · cases hq
        refine ⟨hd, ?_, ?_, ?_⟩
        · intro _ h
          cases h
        · intro t ht
          cases ht
          exact containsTid_iff.mp hcont
        · intro t _ h
          cases h
      · cases hq
        exact hs
    | commitTentativePop =>
      obtain ⟨q, tid, hq, rfl, -⟩ := lift_eq_ok.mp h
      obtain ⟨-, hlock, hex⟩ := Settled.commitSelection hs hq
      exact settled_of_unlocked hd hlock hex
    | commitTentativePopYield =>
      obtain ⟨q, tid, hq, rfl, -⟩ := lift_eq_ok.mp h
      obtain ⟨q₁, hq₁, rfl⟩ := commitTentativePopYield_eq_ok hq
      obtain ⟨-, hlock, hex⟩ := Settled.commitSelection hs hq₁
      exact settled_of_unlocked hd hlock hex
    | commitTentativePopCompletedTurn =>
      obtain ⟨q, tid, hq, rfl, -⟩ := lift_eq_ok.mp h
      obtain ⟨q₁, hq₁, rfl⟩ := commitTentativePopCompletedTurn_eq_ok hq
      obtain ⟨-, hlock, hex⟩ := Settled.commitSelection hs hq₁
      exact settled_of_unlocked hd hlock hex
    | undoTentativePop =>
      obtain ⟨q', hq', rfl, -⟩ := lift_unit_eq_ok.mp h
      unfold undoTentativePop at hq'
      split_ifs at hq'
      cases hq'
      exact settled_of_unlocked hd rfl rfl
    | _ => cases hop

theorem settled_new (strategy : SchedHeuristic) (prng : R.State) :
    Settled (QueueState.new strategy prng).queue :=
  settled_of_unlocked distinct_empty rfl rfl

theorem reaches_settled {strategy : SchedHeuristic} {prng : R.State}
    (hreach : Reaches step Orderly (QueueState.new strategy prng) s) : Settled s.queue := by
  refine hreach.invariant (fun t => Settled t.queue) (settled_new strategy prng) ?_
  intro t op t' out ht ho hstep
  exact step_settled ht ho hstep

structure Respects (q : RunQueue R) (tid : DetTid) : Prop where
  queued : Holds q.queue tid
  /-- It is not the skipped thread while another is queued. -/
  skip : ∀ skip other, q.yieldedSkip = some skip → Holds q.queue other → other ≠ skip → tid ≠ skip
  /-- It is not in the yield epoch while a queued thread is neither in it, nor
      skipped, nor a poller backed off all the way. -/
  epoch : ∀ epoch (k : PrioritizedOrder) v, q.yieldEpoch = some epoch → q.queue[k]? = some v →
    v.tid ∉ epoch → q.yieldedSkip ≠ some v.tid → v.isFullyBackedOffPoller k.priority = false →
    tid ∉ epoch

/-- **Main theorem**: in every reachable state with a nonempty queue, a pop
    (unless an exact transaction is underway) has a thread to select and
    selects one that respects the skip and the epoch, and each commit then
    removes that thread and no other. A commit removes the selected thread in
    every transaction, the exact ones included. -/
theorem selection_safe (strategy : SchedHeuristic) (prng : R.State)
    (hreach : Reaches step Orderly (QueueState.new strategy prng) s) :
    (s.queue.len ≠ 0 → s.queue.tentativeSelectionIsExact = false →
      s.queue.candidates ≠ [] ∧ ∃ q' tid, s.queue.tentativePopNext = .ok (q', some tid) ∧
        tid ∈ s.queue.candidates ∧ Respects s.queue tid ∧ q'.queue = s.queue.queue ∧
        Commits q' tid) ∧
    ∀ tid, s.queue.tentativeSelection = some tid → Commits s.queue tid := by
  have hs := reaches_settled hreach
  refine ⟨?_, fun tid hsel => hs.commits hsel⟩
  intro hlen hex
  refine ⟨candidates_ne_nil hs.distinct hlen, ?_⟩
  obtain ⟨q', tid, hpop, hmem, hsel⟩ := tentativePopNext_spec hs hlen hex
  have hs' := hsel.settled hs hmem
  obtain ⟨prng, sticky, -, rfl⟩ := hsel
  refine ⟨_, tid, hpop, hmem, ⟨(mem_candidates.mp hmem).1, ?_, ?_⟩, epochChecked_queue _,
    hs'.commits rfl⟩
  · intro skip other hskip hoth hne
    exact candidate_ne_skip hmem hskip hoth hne
  · intro epoch k v hepoch hk hout hskip hpoller
    exact candidate_notMem_epoch hmem hepoch hk hout hskip hpoller

/-- The sticky thread 1 is suspended after an undone pop, thread 3 is to be
    skipped, and an exact transaction for thread 2 was undone. -/
def suspendedSticky : List QueueOp :=
  [.pushBack 1 1000, .pushBack 2 1000, .pushYielded 3 1000, .tentativePopNext, .undoTentativePop,
    .suspend 1 1000, .tentativePopTid 2, .undoTentativePop]

theorem selection_safe_suspendedSticky : ∃ s : QueueState Prng.first,
    Reaches step Orderly (QueueState.new .stickyRandom ()) s ∧
    (s.queue.tids = [2, 3] ∧ s.queue.stickyRandomSelection = some 1) ∧
    ∃ q' tid, s.queue.tentativePopNext = .ok (q', some tid) ∧ tid ∈ s.queue.candidates ∧
      Respects s.queue tid ∧ q'.queue = s.queue.queue ∧ Commits q' tid := by
  obtain ⟨s, hreach, hs, hlen, hex⟩ := exists_reaches suspendedSticky
    (fun s : QueueState Prng.first =>
      (s.queue.tids = [2, 3] ∧ s.queue.stickyRandomSelection = some 1) ∧ s.queue.len ≠ 0 ∧
        s.queue.tentativeSelectionIsExact = false)
    (by decide +kernel :
      (arrive step Orderly (QueueState.new .stickyRandom ()) suspendedSticky).any _ = true)
  exact ⟨s, hreach, hs, ((selection_safe .stickyRandom () hreach).1 hlen hex).2⟩

/-! ## Draining the queue -/

def commitOps : List QueueOp :=
  [.commitTentativePop, .commitTentativePopYield, .commitTentativePopCompletedTurn]

/-- A turn takes one thread out of the queue. -/
theorem turn_spec {commit : QueueOp} (hcmt : commit ∈ commitOps) (hs : Settled s.queue)
    (hunlocked : s.queue.tentativeSelection = none) (hlen : s.queue.len ≠ 0) :
    ∃ tid s₁ s', step s .tentativePopNext = .ok (s₁, .selected (some tid)) ∧
      step s₁ commit = .ok (s', .committed tid) ∧ Settled s'.queue ∧
      s'.queue.tentativeSelection = none ∧ s.queue.tids.Perm (tid :: s'.queue.tids) := by
  obtain ⟨q₁, tid, hpop, hmem, hsel⟩ := tentativePopNext_spec hs hlen (hs.not_exact hunlocked)
  have hs₁ := hsel.settled hs hmem
  obtain ⟨prng, sticky, -, rfl⟩ := hsel
  obtain ⟨key, value, q₂, hkey, rfl, hcommit, hq₂⟩ := commitSelection_spec hs₁ rfl
  obtain ⟨hd, hun, hex⟩ := hs₁.commitSelection hcommit
  rw [epochChecked_queue] at hkey hq₂
  have hperm : s.queue.tids.Perm (value.tid :: q₂.tids) := by
    have hback : s.queue.queue = q₂.queue.insert key value := by
      refine Std.ExtTreeMap.ext_getElem? fun {k} => ?_
      rw [hq₂, OrdMap.getElem?_insert_ite, OrdMap.getElem?_erase_ite]
      split_ifs with hk
      · rw [← hk, hkey]
      · rfl
    have hins := OrdMap.toList_insert_perm (hq₂ ▸ OrdMap.getElem?_erase_same _ _) value
    rw [← hback] at hins
    exact hins.map _
  have hpop' := lift_eq_ok (s := s) (f := .selected).mpr ⟨_, _, hpop, rfl, rfl⟩
  simp only [commitOps, mem_cons, not_mem_nil, or_false] at hcmt
  rcases hcmt with rfl | rfl | rfl
  · exact ⟨_, _, _, hpop', lift_eq_ok.mpr ⟨_, _, hcommit, rfl, rfl⟩,
      settled_of_unlocked hd hun hex, hun, hperm⟩
  all_goals exact ⟨_, _, _, hpop', lift_eq_ok.mpr ⟨_, _, bind_eq_ok.mpr ⟨_, hcommit, rfl⟩, rfl, rfl⟩,
    settled_of_unlocked hd hun hex, hun, hperm⟩

/-- Turns that end with `commits` select each queued thread once and leave none. -/
def Drains (s : QueueState R) (commits : List QueueOp) : Prop :=
  ∃ (order : List DetTid) (s' : QueueState R), s.queue.tids.Perm order ∧
    run step s (commits.flatMap fun commit => [.tentativePopNext, commit]) =
      .ok (s', order.flatMap fun tid => [.selected (some tid), .committed tid]) ∧
    s'.queue.tids = []

theorem drains_of_settled : ∀ (commits : List QueueOp) {s : QueueState R}, Settled s.queue →
    s.queue.tentativeSelection = none → commits.length = s.queue.len → commits ⊆ commitOps →
    s.Drains commits
  | [], s, _, _, hlen, _ => by
    have hnil : s.queue.tids = [] := length_eq_zero_iff.mp ((length_tids _).trans hlen.symm)
    exact ⟨[], s, hnil ▸ .nil, rfl, hnil⟩
  | commit :: commits, s, hs, hunlocked, hlen, hcmts => by
    rw [cons_subset] at hcmts
    obtain ⟨tid, s₁, s₂, hpop, hcmt, hs₂, hun, hperm⟩ :=
      turn_spec hcmts.1 hs hunlocked (hlen ▸ Nat.succ_ne_zero _)
    have hlen₂ : commits.length = s₂.queue.len := by
      have hsum := hperm.length_eq
      rw [length_cons, length_tids, length_tids, ← hlen] at hsum
      exact Nat.succ.inj hsum
    obtain ⟨order, s', horder, hrun, hnil⟩ := drains_of_settled commits hs₂ hun hlen₂ hcmts.2
    refine ⟨tid :: order, s', hperm.trans (horder.cons tid), ?_, hnil⟩
    exact run_cons_eq_ok.mpr ⟨_, _, _, hpop, run_cons_eq_ok.mpr ⟨_, _, _, hcmt, hrun, rfl⟩, rfl⟩

/-- **No queued thread is lost or selected twice**: in every reachable state outside a
    transaction, a turn for each queued thread drains the queue, whichever commits end them. -/
theorem reachable_drains (strategy : SchedHeuristic) (prng : R.State)
    (hreach : Reaches step Orderly (QueueState.new strategy prng) s)
    (hunlocked : s.queue.tentativeSelection = none) (commits : List QueueOp)
    (hlen : commits.length = s.queue.len) (hcmts : commits ⊆ commitOps) : s.Drains commits :=
  drains_of_settled commits (reaches_settled hreach) hunlocked hlen hcmts

theorem reachable_drains_suspendedSticky : ∃ s : QueueState Prng.first,
    Reaches step Orderly (QueueState.new .stickyRandom ()) s ∧ s.queue.tids = [2, 3] ∧
    s.Drains [.commitTentativePopYield, .commitTentativePopCompletedTurn] := by
  obtain ⟨s, hreach, hs, hlen, hunlocked⟩ := exists_reaches suspendedSticky
    (fun s : QueueState Prng.first => s.queue.tids = [2, 3] ∧ 2 = s.queue.len ∧
      s.queue.tentativeSelection = none)
    (by decide +kernel :
      (arrive step Orderly (QueueState.new .stickyRandom ()) suspendedSticky).any _ = true)
  exact ⟨s, hreach, hs, reachable_drains .stickyRandom () hreach hunlocked _ hlen (by decide)⟩

end QueueState

end Hermit.Scheduler
