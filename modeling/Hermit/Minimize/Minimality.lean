import Hermit.Minimize.Minimizer
import Hermit.Preemptions.Editors

/-!
# What the minimizer finds

Of the interventions of a thread the first ones are unknown yet, and of the rest some are critical
and the others are gone. So those of a trial are a part of the record's, in order, and its record
is well formed (`trialRecord_eq`).

A trial that fails gives the interventions back, as unknown or as critical ones. So the last trial
that matched had just those that are unknown or critical now, and at the end all of these are
critical. Where a set of interventions matches if a smaller one does, each of them is needed.

Main results:

* `minimize_finds_critical`
-/

namespace Hermit.Minimize

open Common OrdMap Scheduler Preemptions PreemptionRecord List

variable {σ ρ ε : Type}

/-! ## Interventions -/

def interventions (record : PreemptionRecord) : OrdMap DetTid (List Preempt) :=
  record.perThread.map fun _ history => asVec history

/-- The times of a thread increase, and its priorities are ordinary ones. -/
def Ordered (vec : List Preempt) : Prop :=
  vec.Pairwise (fun a b => a.1 < b.1) ∧ ∀ preempt ∈ vec, isOrdinaryPriority preempt.2 = true

/-- Of each thread some of its interventions. -/
def Within (sets whole : OrdMap DetTid (List Preempt)) : Prop :=
  ∀ tid : DetTid, (∃ set all, sets[tid]? = some set ∧ whole[tid]? = some all ∧ set.Sublist all) ∨
    sets[tid]? = none ∧ whole[tid]? = none

def recordOf (stamp : TrialStamp) (init : PreemptionRecord) (sets : OrdMap DetTid (List Preempt)) :
    PreemptionRecord :=
  stampedRecord stamp init { perThread := sets.map fun _ vec => historyOf vec }

variable {vec set vec' : List Preempt} {sets smaller : OrdMap DetTid (List Preempt)}
    {init : PreemptionRecord} {state next : State σ ρ} {tid : DetTid} {i : ℕ} {setup : Setup σ ρ ε}

theorem Ordered.sublist (h : Ordered vec) (hsub : set.Sublist vec) : Ordered set :=
  ⟨h.1.sublist hsub, fun preempt hmem => h.2 preempt (hsub.subset hmem)⟩

theorem Ordered.nodup (h : Ordered vec) : vec.Nodup :=
  h.1.imp fun hlt heq => absurd (congrArg Prod.fst heq) hlt.ne

theorem Within.trans {whole larger : OrdMap DetTid (List Preempt)} (h : Within sets whole)
    (hlarg : Within whole larger) : Within sets larger := by
  intro tid
  rcases h tid with ⟨set, all, hset, hall, hsub⟩ | ⟨hset, hall⟩
  · rcases hlarg tid with ⟨all', more, hall', hmore, hsub'⟩ | ⟨hnone, -⟩
    · rw [hall] at hall'
      cases hall'
      exact .inl ⟨set, more, hset, hmore, hsub.trans hsub'⟩
    · rw [hall] at hnone
      cases hnone
  · rcases hlarg tid with ⟨all, more, hall', -⟩ | ⟨-, hnone⟩
    · rw [hall] at hall'
      cases hall'
    · exact .inr ⟨hset, hnone⟩

/-! ## Sanity checks -/

/-- Of a vector whose times increase, only the priorities can fail the check. -/
theorem sanityFrom_eq (h : vec.Pairwise fun a b => a.1 < b.1) {last : Option LogicalTime}
    {seen : List LogicalTime} (hlast : ∀ time ∈ last, ∀ preempt ∈ vec, time < preempt.1)
    (hseen : ∀ time ∈ seen, ∀ preempt ∈ vec, time < preempt.1) :
    sanityFrom last seen vec = if vec.all fun preempt => isOrdinaryPriority preempt.2 then
      (.ok () : Except (Stop ε) Unit) else .error .assertion := by
  induction vec generalizing last seen with
  | nil => rfl
  | cons first vec ih =>
    obtain ⟨time, prio⟩ := first
    obtain ⟨hfirst, hpairs⟩ := pairwise_cons.mp h
    have haft : ¬ (last.any fun before => time ≤ before) = true := by
      cases last with
      | none => exact Bool.false_ne_true
      | some before =>
        have hlt : before < time := hlast before rfl _ mem_cons_self
        intro hle
        exact absurd (of_decide_eq_true hle) hlt.not_ge
    have hnew : time ∉ seen := fun hmem =>
      lt_irrefl time (hseen time hmem _ mem_cons_self)
    rw [sanityFrom, if_neg haft, all_cons]
    by_cases hordi : firstPriority ≤ prio ∧ prio ≤ lastPriority
    · rw [if_neg (by tauto), if_neg hnew, isOrdinaryPriority, decide_eq_true hordi, Bool.true_and]
      refine ih hpairs ?_ ?_
      · intro before hbef preempt hmem
        cases hbef
        exact hfirst preempt hmem
      · intro before hbef preempt hmem
        rcases mem_cons.mp hbef with rfl | hbef
        · exact hfirst preempt hmem
        · exact hseen before hbef preempt (mem_cons_of_mem _ hmem)
    · rw [if_pos (by tauto), isOrdinaryPriority, decide_eq_false hordi]
      rfl

theorem sanityPreempts_eq (h : vec.Pairwise fun a b => a.1 < b.1) :
    sanityPreempts vec = if vec.all fun preempt => isOrdinaryPriority preempt.2 then
      (.ok () : Except (Stop ε) Unit) else .error .assertion :=
  sanityFrom_eq h (by simp) (by simp)

theorem sanityPreempts_ok (h : Ordered vec) :
    sanityPreempts vec = (.ok () : Except (Stop ε) Unit) := by
  rw [sanityPreempts_eq h.1, if_pos (all_eq_true.mpr h.2)]

/-! ## Records of interventions -/

theorem changesOf_times (vec : List Preempt) :
    (changesOf vec).map Prod.fst = vec.tail.map Prod.fst := by
  fun_induction changesOf vec with
  | case1 _ _ _ _ _ ih => simpa using ih
  | case2 vec hshort =>
    match vec with
    | [] => rfl
    | [_] => rfl
    | (_, prio) :: (next, nextPrio) :: rest => exact absurd rfl (hshort _ prio next nextPrio rest)

theorem changesOf_prios {change : Preempt} (h : change ∈ changesOf vec) :
    ∃ preempt ∈ vec, change.2 = preempt.2 := by
  fun_induction changesOf vec with
  | case1 time prio next nextPrio rest ih =>
    rcases mem_cons.mp h with rfl | hmem
    · exact ⟨_, mem_cons_self, rfl⟩
    · obtain ⟨preempt, hpree, heq⟩ := ih hmem
      exact ⟨preempt, mem_cons_of_mem _ hpree, heq⟩
  | case2 vec hshort => cases h

theorem Ordered.changesOf (h : Ordered vec) : Ordered (changesOf vec) := by
  constructor
  · have htail : (vec.tail.map Prod.fst).Pairwise (· < ·) :=
      pairwise_map.mpr (h.1.sublist (tail_sublist vec))
    rw [← changesOf_times] at htail
    exact pairwise_map.mp htail
  · intro change hmem
    obtain ⟨preempt, hpree, heq⟩ := changesOf_prios hmem
    rw [heq]
    exact h.2 preempt hpree

theorem checkChangePoints_ok {changes : List Preempt} (h : Ordered changes) (tid : DetTid)
    (last : Option LogicalTime) (count : ℕ)
    (hlast : ∀ time ∈ last, ∀ change ∈ changes, time < change.1) :
    checkChangePoints tid last count changes = .ok () := by
  induction changes generalizing last count with
  | nil => cases last <;> rfl
  | cons change changes ih =>
    obtain ⟨time, prio⟩ := change
    obtain ⟨hpairs, hprios⟩ := h
    rw [pairwise_cons] at hpairs
    rw [forall_mem_cons] at hprios
    have hnext : checkChangePoints tid (some time) (count + 1) changes = .ok () := by
      refine ih ⟨hpairs.2, hprios.2⟩ _ _ ?_
      intro before hbef change hmem
      cases hbef
      exact hpairs.1 change hmem
    cases last with
    | none => exact hnext
    | some before =>
      have hlt : before < time := hlast before rfl _ mem_cons_self
      rw [checkChangePoints, if_neg (not_not.mpr hprios.1), if_neg hlt.not_ge]
      exact hnext

theorem validateHistory_historyOf (h : Ordered vec) (tid : DetTid) :
    validateHistory (tid, historyOf vec) = .ok () := by
  have hfinal : isOrdinaryPriority (historyOf vec).finalPrio = true := by
    unfold historyOf
    cases hlast : vec.getLast? with
    | none => rfl
    | some last => exact h.2 last (mem_of_getLast? hlast)
  have hchan : checkChangePoints tid none 0 (historyOf vec).prioChanges = .ok () :=
    checkChangePoints_ok h.changesOf tid none 0 (by simp)
  unfold validateHistory
  dsimp only
  rw [if_neg (not_not.mpr hfinal), hchan]
  rfl

theorem validate_stampedRecord (stamp : TrialStamp) (init record : PreemptionRecord) :
    (stampedRecord stamp init record).validate = record.validate := by
  unfold stampedRecord stampTrialRecord
  cases stamp.guestIds <;> rfl

theorem validate_recordOf {stamp : TrialStamp}
    (h : ∀ (tid : DetTid) (set : List Preempt), sets[tid]? = some set → Ordered set) :
    (recordOf stamp init sets).validate = .ok () := by
  unfold recordOf
  rw [validate_stampedRecord]
  refine Sound.validate_of_nil ?_ rfl
  have hget : ∀ {tid : DetTid} {history : ThreadHistory},
      (sets.map fun _ vec => historyOf vec)[tid]? = some history →
      ∃ set, sets[tid]? = some set ∧ historyOf set = history := by
    intro tid history hget
    rw [Std.ExtTreeMap.getElem?_map, Option.map_eq_some_iff] at hget
    exact hget
  exact
    { starts := rfl
      unnoted := fun hunno => Bool.noConfusion hunno
      noted := fun hne => absurd rfl hne
      rejoins := rfl
      rowsAlone := fun _ => rfl
      checkpoints := validateCallbackCheckpoints_empty rfl
      histories := by
        refine forM_eq_ok.mpr ?_
        rintro ⟨tid, history⟩ hmem
        obtain ⟨set, hset, rfl⟩ := hget ((mem_toList _ _ _).mp hmem)
        exact validateHistory_historyOf (h tid set hset) tid
      skips := rfl
      offsets := by
        intro hcarry
        obtain ⟨history, hmem, hoffs⟩ := any_eq_true.mp hcarry
        obtain ⟨tid, hhist⟩ := (mem_values _ _).mp hmem
        obtain ⟨set, -, rfl⟩ := hget hhist
        exact Bool.noConfusion hoffs
      marks := fun _ hmem => absurd hmem not_mem_nil
      reads := rfl
      skipsListed := fun hskips => absurd rfl hskips
      skipsOrdered := rfl }

theorem getElem?_withCritical (remaining critical : OrdMap DetTid (List Preempt)) (tid : DetTid) :
    (withCritical remaining critical)[tid]? =
      remaining[tid]?.map fun vec => vec ++ critical[tid]?.getD [] := by
  unfold withCritical
  rw [Std.ExtTreeMap.getElem?_map]

theorem trialRecord_eq {stamp : TrialStamp} {remaining critical : OrdMap DetTid (List Preempt)}
    (hordered : ∀ (tid : DetTid) (vec : List Preempt), (interventions init)[tid]? = some vec → Ordered vec)
    (hwin : Within (withCritical remaining critical) (interventions init)) :
    trialRecord stamp init remaining critical =
      (.ok (recordOf stamp init (withCritical remaining critical)) :
        Except (Stop ε) PreemptionRecord) := by
  have hset : ∀ (tid : DetTid) (set : List Preempt), (withCritical remaining critical)[tid]? = some set → Ordered set := by
    intro tid set hget
    rcases hwin tid with ⟨set', all, hset', hall, hsub⟩ | ⟨hnone, -⟩
    · rw [hget] at hset'
      cases hset'
      exact (hordered tid all hall).sublist hsub
    · rw [hget] at hnone
      cases hnone
  have hsane : remaining.toList.forM (sanityWithCritical critical) =
      (.ok () : Except (Stop ε) Unit) := by
    refine forM_eq_ok.mpr ?_
    rintro ⟨tid, vec⟩ hmem
    have hvec := (mem_toList _ _ _).mp hmem
    unfold sanityWithCritical
    cases hcrit : critical[tid]? with
    | none => rfl
    | some set =>
      refine sanityPreempts_ok (hset tid _ ?_)
      rw [getElem?_withCritical, hvec, hcrit]
      rfl
  have hvecs : fromVecs (withCritical remaining critical) =
      some { perThread := (withCritical remaining critical).map fun _ vec => historyOf vec } := by
    refine if_pos (all_eq_true.mpr ?_)
    intro vec hmem
    obtain ⟨tid, hget⟩ := (mem_values _ _).mp hmem
    cases hlast : vec.getLast? with
    | none => rfl
    | some last => exact (hset tid vec hget).2 last (mem_of_getLast? hlast)
  have hvalid : (recordOf stamp init (withCritical remaining critical)).validate = .ok () :=
    validate_recordOf hset
  unfold trialRecord
  rw [hsane, hvecs]
  show ((recordOf stamp init (withCritical remaining critical)).validate.mapError
    (Stop.corrupt : RecordError → Stop ε) >>= fun _ => pure (recordOf stamp init (withCritical remaining critical))) = _
  rw [hvalid]
  rfl

/-! ## The state of the loop -/

/-- The interventions that are unknown or critical. -/
def State.union (state : State σ ρ) : OrdMap DetTid (List Preempt) :=
  withCritical state.remainingUnknown state.criticalPreempts

/-- What holds before every round. -/
structure Inv (init : PreemptionRecord) (state : State σ ρ) : Prop where
  thread : ∀ (tid : DetTid) (vec : List Preempt), (interventions init)[tid]? = some vec → ∃ n ≤ vec.length,
    state.remainingUnknown[tid]? = some (vec.take n) ∧
      (state.criticalPreempts[tid]?.getD []).Sublist (vec.drop n)
  only : ∀ tid : DetTid, (interventions init)[tid]? = none → state.remainingUnknown[tid]? = none
  batch : ∀ (tid : DetTid) (vec : List Preempt), (interventions init)[tid]? = some vec →
    ∃ batch, state.batchSizes[tid]? = some batch ∧ 0 < batch
  nodup : state.remainingThreads.Nodup
  live : ∀ tid : DetTid, tid ∈ state.remainingThreads ↔
    ∃ vec, state.remainingUnknown[tid]? = some vec ∧ vec ≠ []

theorem Inv.union_within (h : Inv init state) : Within state.union (interventions init) := by
  intro tid
  unfold State.union
  rw [getElem?_withCritical]
  cases hvec : (interventions init)[tid]? with
  | none =>
    rw [h.only tid hvec]
    exact .inr ⟨rfl, rfl⟩
  | some vec =>
    obtain ⟨n, -, hrem, hcrit⟩ := h.thread tid vec hvec
    refine .inl ⟨_, vec, by rw [hrem]; rfl, rfl, ?_⟩
    conv_rhs => rw [← take_append_drop n vec]
    exact (List.Sublist.refl _).append hcrit

/-- Twice the interventions that are unknown, and the batch sizes. -/
def potential (state : State σ ρ) : ℕ :=
  sum state.remainingUnknown (fun _ vec => 2 * vec.length) +
    sum state.batchSizes fun _ batch => batch

/-- One key of a map is set. -/
def Updated {α : Type} (map map' : OrdMap DetTid α) (tid : DetTid) (value : α) : Prop :=
  map'[tid]? = some value ∧ ∀ other, other ≠ tid → map'[other]? = map[other]?

theorem Updated.insert {α : Type} (map : OrdMap DetTid α) (tid : DetTid) (value : α) :
    Updated map (map.insert tid value) tid value :=
  ⟨getElem?_insert_same map tid value, fun _ hne => getElem?_insert_ne map (Ne.symm hne) value⟩

theorem Updated.again {α : Type} {map map' : OrdMap DetTid α} {value : α}
    (h : Updated map map' tid value) (value' : α) :
    Updated map (map'.insert tid value') tid value' := by
  obtain ⟨hset, hoth⟩ := Updated.insert map' tid value'
  exact ⟨hset, fun other hne => (hoth other hne).trans (h.2 other hne)⟩

theorem potential_update {batch batch' : ℕ} (hvec : state.remainingUnknown[tid]? = some vec)
    (hbatch : state.batchSizes[tid]? = some batch)
    (hvec' : Updated state.remainingUnknown next.remainingUnknown tid vec')
    (hbatch' : Updated state.batchSizes next.batchSizes tid batch') :
    potential next + 2 * vec.length + batch = potential state + 2 * vec'.length + batch' := by
  have hrem := sum_update state.remainingUnknown next.remainingUnknown
    (fun _ vec => 2 * vec.length) tid hvec'.2
  have hbatc := sum_update state.batchSizes next.batchSizes (fun _ batch => batch) tid hbatch'.2
  unfold weight at hrem hbatc
  rw [hvec, hvec'.1] at hrem
  rw [hbatch, hbatch'.1] at hbatc
  simp only [Option.elim_some] at hrem hbatc
  unfold potential
  omega

theorem Inv.update (h : Inv init state) {m batch : ℕ}
    (hvec : (interventions init)[tid]? = some vec) (hm : m ≤ vec.length) (hpos : 0 < batch)
    (hrem : Updated state.remainingUnknown next.remainingUnknown tid (vec.take m))
    (hbatch : Updated state.batchSizes next.batchSizes tid batch) (hsame : ∀ other, other ≠ tid →
      next.criticalPreempts[other]? = state.criticalPreempts[other]?)
    (hcrit : (next.criticalPreempts[tid]?.getD []).Sublist (vec.drop m))
    (hnodup : next.remainingThreads.Nodup) (hlive : ∀ other, other ∈ next.remainingThreads ↔
      ∃ left, next.remainingUnknown[other]? = some left ∧ left ≠ []) : Inv init next where
  thread other all hall := by
    by_cases heq : other = tid
    · subst heq
      rw [hvec] at hall
      cases hall
      exact ⟨m, hm, hrem.1, hcrit⟩
    · rw [hrem.2 other heq, hsame other heq]
      exact h.thread other all hall
  only other hnone := by
    have hne : other ≠ tid := by
      rintro rfl
      rw [hvec] at hnone
      cases hnone
    rw [hrem.2 other hne]
    exact h.only other hnone
  batch other all hall := by
    by_cases heq : other = tid
    · subst heq
      exact ⟨batch, hbatch.1, hpos⟩
    · rw [hbatch.2 other heq]
      exact h.batch other all hall
  nodup := hnodup
  live := hlive

/-! ## Lists -/

theorem swapRemove_perm {α : Type} {xs : List α} (hi : i < xs.length) :
    (swapRemove xs i).Perm (xs.eraseIdx i) := by
  rcases eq_nil_or_concat' xs with rfl | ⟨ys, last, rfl⟩
  · simp at hi
  · unfold swapRemove
    rw [getLast?_concat]
    dsimp only
    rw [length_append, length_singleton] at hi
    by_cases hlt : i < ys.length
    · rw [set_append_left _ _ hlt, dropLast_concat, eraseIdx_append_of_lt_length hlt]
      refine (set_perm_cons_eraseIdx hlt last).trans ?_
      exact (perm_append_singleton last _).symm
    · have heq : i = ys.length := by omega
      subst heq
      rw [eraseIdx_append_of_length_le le_rfl, set_append_right _ _ le_rfl]
      simp

theorem mem_swapRemove {α : Type} [DecidableEq α] {xs : List α} (hnodup : xs.Nodup)
    (hi : i < xs.length) {x : α} : x ∈ swapRemove xs i ↔ x ≠ xs[i] ∧ x ∈ xs := by
  rw [(swapRemove_perm hi).mem_iff, ← hnodup.erase_getElem]
  exact hnodup.mem_erase_iff

theorem nodup_swapRemove {α : Type} {xs : List α} (hnodup : xs.Nodup)
    (hi : i < xs.length) : (swapRemove xs i).Nodup :=
  (swapRemove_perm hi).nodup_iff.mpr (hnodup.sublist (eraseIdx_sublist _ _))

/-- An intervention before all others is inserted in front of them. -/
theorem insertPreempt_eq_cons {preempt : Preempt}
    (h : ∀ other ∈ set, preempt.1 < other.1) : insertPreempt preempt set = preempt :: set := by
  cases set with
  | nil => rfl
  | cons other set =>
    unfold insertPreempt
    rw [orderedInsert_cons_of_le]
    exact (Prod.Lex.toLex_lt_toLex.mpr (.inl (h other mem_cons_self))).le

/-! ## A round -/

structure Shaved (init : PreemptionRecord) (state shaved : State σ ρ) (tid : DetTid)
    (vec : List Preempt) (n batch r : ℕ) : Prop where
  whole : (interventions init)[tid]? = some vec
  n_pos : 0 < n
  n_le : n ≤ vec.length
  batch_pos : 0 < batch
  r_eq : r = min batch n
  unknown : state.remainingUnknown[tid]? = some (vec.take n)
  critical : (state.criticalPreempts[tid]?.getD []).Sublist (vec.drop n)
  size : state.batchSizes[tid]? = some batch
  left : Updated state.remainingUnknown shaved.remainingUnknown tid (vec.take (n - r))
  sizes : Updated state.batchSizes shaved.batchSizes tid r
  nodup : shaved.remainingThreads.Nodup
  live : ∀ other : DetTid, other ∈ shaved.remainingThreads ↔
    ∃ left, shaved.remainingUnknown[other]? = some left ∧ left ≠ []
  same : shaved.criticalPreempts = state.criticalPreempts ∧
    shaved.lastMatching = state.lastMatching ∧ shaved.trials = state.trials ∧
    shaved.oracle = state.oracle ∧ shaved.round = state.round

theorem shave_spec (h : Inv init state)
    {selected : ℕ} (hseld : selected < state.remainingThreads.length) :
    ∃ tid vec n batch r, ∃ shaved : State σ ρ, shave state selected =
        (.ok (shaved, tid, r, (vec.take n).drop (n - r)) : Except (Stop ε) _) ∧
      Shaved init state shaved tid vec n batch r := by
  obtain ⟨left, hleft, hne⟩ := (h.live _).mp (getElem_mem hseld)
  generalize htid : state.remainingThreads[selected] = tid at hleft
  cases hvec : (interventions init)[tid]? with
  | none =>
    rw [h.only tid hvec] at hleft
    cases hleft
  | some vec =>
    obtain ⟨n, hn, hrem, hcrit⟩ := h.thread tid vec hvec
    obtain ⟨batch, hbatch, hpos⟩ := h.batch tid vec hvec
    rw [hrem] at hleft
    cases hleft
    have hleng : (vec.take n).length = n := length_take_of_le hn
    have hnpos : 0 < n := by
      rw [← hleng]
      exact length_pos_iff.mpr hne
    have hkept : (vec.take n).take (n - min batch n) = vec.take (n - min batch n) := by
      rw [take_take]
      congr 1
      omega
    refine ⟨tid, vec, n, batch, min batch n, { state with
      batchSizes := state.batchSizes.insert tid (min batch n)
      remainingUnknown := state.remainingUnknown.insert tid (vec.take (n - min batch n))
      remainingThreads := if vec.take (n - min batch n) = [] then
          swapRemove state.remainingThreads selected else state.remainingThreads }, ?_,
      { whole := hvec, n_pos := hnpos, n_le := hn, batch_pos := hpos, r_eq := rfl,
        unknown := hrem, critical := hcrit, size := hbatch,
        left := Updated.insert _ _ _, sizes := Updated.insert _ _ _, nodup := ?_, live := ?_,
        same := ⟨rfl, rfl, rfl, rfl, rfl⟩ }⟩
    · unfold shave
      rw [getElem?_eq_getElem hseld, htid]
      simp only [unwrap, assert, hbatch, hrem, hleng, hkept, bind, Except.bind, pure,
        Except.pure, decide_eq_true hpos, decide_eq_true hne, if_true]
    · split_ifs
      · exact nodup_swapRemove h.nodup hseld
      · exact h.nodup
    · intro other
      by_cases heq : other = tid
      · subst heq
        rw [getElem?_insert_same]
        split_ifs with hemp
        · rw [mem_swapRemove h.nodup hseld, htid]
          simp [hemp]
        · refine iff_of_true ?_ ⟨_, rfl, hemp⟩
          exact (h.live other).mpr ⟨_, hrem, hne⟩
      · rw [getElem?_insert_ne _ (Ne.symm heq), ← h.live other]
        split_ifs
        · rw [mem_swapRemove h.nodup hseld, htid]
          exact and_iff_right heq
        · exact Iff.rfl

structure Played (setup : Setup σ ρ ε) (init : PreemptionRecord) (state next : State σ ρ)
    (record : PreemptionRecord) (answer : Bool) : Prop where
  inv : Inv init next
  potential : potential next < potential state
  trials : next.trials = (record, answer) :: state.trials
  asked : ∃ oracle, setup.trialMatches state.oracle state.round record = .ok (answer, oracle)
  accepted : answer = true → next.lastMatching = some (record, state.round) ∧
    record = recordOf setup.stamp init next.union ∧
    next.criticalPreempts = state.criticalPreempts ∧ Within next.union state.union
  rejected : answer = false → next.lastMatching = state.lastMatching ∧ next.union = state.union ∧
    ∀ (tid : DetTid) (preempt : Preempt), preempt ∈ next.criticalPreempts[tid]?.getD [] →
      preempt ∈ state.criticalPreempts[tid]?.getD [] ∨
      ∃ sets, record = recordOf setup.stamp init sets ∧ Within sets (interventions init) ∧
        ∀ smaller, Within smaller state.union →
          (∀ set, smaller[tid]? = some set → preempt ∉ set) → Within smaller sets

/-- Maps of interventions agree where one thread's agree. -/
theorem union_eq_of_updated (hvec : state.remainingUnknown[tid]? = some vec)
    (hrem : Updated state.remainingUnknown next.remainingUnknown tid vec')
    (hsame : ∀ other, other ≠ tid → next.criticalPreempts[other]? = state.criticalPreempts[other]?)
    (heq : vec' ++ next.criticalPreempts[tid]?.getD [] =
      vec ++ state.criticalPreempts[tid]?.getD []) : next.union = state.union := by
  refine Std.ExtTreeMap.ext_getElem? fun {other} => ?_
  unfold State.union
  rw [getElem?_withCritical, getElem?_withCritical]
  by_cases hoth : other = tid
  · rw [hoth, hvec, hrem.1, Option.map_some, Option.map_some, heq]
  · rw [hrem.2 other hoth, hsame other hoth]

theorem within_of_updated (hvec : state.remainingUnknown[tid]? = some vec)
    (hrem : Updated state.remainingUnknown next.remainingUnknown tid vec')
    (hsame : next.criticalPreempts = state.criticalPreempts) (hwin : Within smaller state.union)
    (hsub : ∀ set, smaller[tid]? = some set →
      set.Sublist (vec ++ state.criticalPreempts[tid]?.getD []) →
      set.Sublist (vec' ++ state.criticalPreempts[tid]?.getD [])) : Within smaller next.union := by
  intro other
  have hoth := hwin other
  unfold State.union at hoth ⊢
  rw [getElem?_withCritical] at hoth ⊢
  rw [hsame]
  by_cases heq : other = tid
  · subst heq
    rw [hvec, Option.map_some] at hoth
    rw [hrem.1, Option.map_some]
    rcases hoth with ⟨set, all, hset, hall, hle⟩ | ⟨-, hnone⟩
    · cases hall
      exact .inl ⟨set, _, hset, rfl, hsub set hset hle⟩
    · cases hnone
  · rw [hrem.2 other heq]
    exact hoth

theorem sublist_of_not_mem {before after : List Preempt} {preempt : Preempt}
    (h : set.Sublist (before ++ preempt :: after)) (hnot : preempt ∉ set) :
    set.Sublist (before ++ after) := by
  have hflt := h.filter (· ≠ preempt)
  rw [filter_eq_self.mpr, filter_append, filter_cons_of_neg (by simp)] at hflt
  · exact hflt.trans (filter_sublist.append filter_sublist)
  · intro other hmem
    exact decide_eq_true fun heq => hnot (heq ▸ hmem)

section Shaved

variable {setup : Setup σ ρ ε} {init : PreemptionRecord} {state shaved : State σ ρ} {tid : DetTid}
  {vec : List Preempt} {n batch r : ℕ}

theorem Shaved.inv (h : Shaved init state shaved tid vec n batch r) (hinv : Inv init state) :
    Inv init shaved := by
  have hr := h.r_eq
  have hn := h.n_pos
  have hb := h.batch_pos
  refine hinv.update h.whole ((Nat.sub_le n r).trans h.n_le) (by omega) h.left h.sizes
    (fun _ _ => by rw [h.same.1]) ?_ h.nodup h.live
  rw [h.same.1]
  exact h.critical.trans (drop_sublist_drop_left vec (Nat.sub_le n r))

theorem take_append_cut (vec : List Preempt) (n r : ℕ) :
    vec.take (n - r) ++ (vec.take n).drop (n - r) = vec.take n := by
  have hkept : vec.take (n - r) = (vec.take n).take (n - r) := by
    rw [take_take, Nat.min_eq_left (Nat.sub_le n r)]
  rw [hkept, take_append_drop]

theorem Shaved.length_take (h : Shaved init state shaved tid vec n batch r) {m : ℕ} (hm : m ≤ n) :
    (vec.take m).length = m :=
  length_take_of_le (hm.trans h.n_le)

theorem Shaved.potential_lt (h : Shaved init state shaved tid vec n batch r) {next : State σ ρ}
    {m batch' : ℕ} (hm : m ≤ n)
    (hrem : Updated state.remainingUnknown next.remainingUnknown tid (vec.take m))
    (hbatch : Updated state.batchSizes next.batchSizes tid batch')
    (hlt : 2 * m + batch' < 2 * n + batch) : potential next < potential state := by
  have hsum := potential_update h.unknown h.size hrem hbatch
  rw [h.length_take le_rfl, h.length_take hm] at hsum
  omega

variable {record : PreemptionRecord} {oracle : σ}

section

variable (h : Shaved init state shaved tid vec n batch r)
include h

theorem Shaved.accept (hinv : Inv init state)
    (hrec : record = recordOf setup.stamp init shaved.union)
    (hasked : setup.trialMatches state.oracle state.round record = .ok (true, oracle)) :
    Played setup init state ((shaved.tried record true oracle).accept tid r record) record true := by
  have hr := h.r_eq
  have hn := h.n_pos
  have hb := h.batch_pos
  have hshav := h.inv hinv
  obtain ⟨hsame, -, htrials, -, hround⟩ := h.same
  refine ⟨?_, ?_, ?_, ⟨oracle, hasked⟩, fun _ => ⟨?_, hrec, hsame, ?_⟩,
    fun hfalse => Bool.noConfusion hfalse⟩
  · refine hshav.update h.whole ((Nat.sub_le n r).trans h.n_le) (Nat.succ_pos r)
      ⟨h.left.1, fun _ _ => rfl⟩ (Updated.insert _ _ _) (fun _ _ => rfl) ?_ h.nodup h.live
    show (shaved.criticalPreempts[tid]?.getD []).Sublist _
    rw [hsame]
    exact h.critical.trans (drop_sublist_drop_left vec (Nat.sub_le n r))
  · exact h.potential_lt (Nat.sub_le n r) h.left (h.sizes.again (r + 1)) (by omega)
  · show (record, true) :: shaved.trials = _
    rw [htrials]
  · show some (record, shaved.round) = _
    rw [hround]
  · intro other
    unfold State.union
    rw [getElem?_withCritical, getElem?_withCritical]
    show (∃ set all, shaved.remainingUnknown[other]?.map (· ++ shaved.criticalPreempts[other]?.getD [])
      = some set ∧ _) ∨ shaved.remainingUnknown[other]?.map _ = none ∧ _
    rw [hsame]
    by_cases heq : other = tid
    · subst heq
      rw [h.left.1, h.unknown]
      refine .inl ⟨_, _, rfl, rfl, ?_⟩
      exact (take_sublist_take_left (Nat.sub_le n r)).append_right _
    · rw [h.left.2 other heq]
      cases state.remainingUnknown[other]? with
      | none => exact .inr ⟨rfl, rfl⟩
      | some left => exact .inl ⟨_, _, rfl, rfl, List.Sublist.refl _⟩

/-- A trial that fails without one intervention. -/
theorem Shaved.conclude (hinv : Inv init state) (hordered : Ordered vec) (hone : r = 1)
    (hrec : record = recordOf setup.stamp init shaved.union)
    (hasked : setup.trialMatches state.oracle state.round record = .ok (false, oracle)) :
    ∃ next, (shaved.tried record false oracle).conclude tid ((vec.take n).drop (n - r)) =
        (.ok next : Except (Stop ε) (State σ ρ)) ∧
      Played setup init state next record false := by
  have hb := h.batch_pos
  obtain ⟨k, rfl⟩ : ∃ k, n = k + 1 := ⟨n - 1, by have := h.n_pos; omega⟩
  subst hone
  have hk : k < vec.length := h.n_le
  obtain ⟨hsame, hlast, htrials, -, -⟩ := h.same
  have hcrit := h.critical
  generalize hent : state.criticalPreempts[tid]?.getD [] = entry at hcrit
  have htake : vec.take (k + 1) = vec.take k ++ [vec[k]] := (take_concat_get' vec k hk).symm
  have hdrop : vec.drop k = vec[k] :: vec.drop (k + 1) := drop_eq_getElem_cons hk
  have hcut : (vec.take (k + 1)).drop (k + 1 - 1) = [vec[k]] := by
    rw [Nat.add_sub_cancel, htake]
    exact drop_left' (length_take_of_le hk.le)
  -- the intervention comes before all that are critical already
  have hbef : ∀ other ∈ entry, vec[k].1 < other.1 := by
    have hpairs := hordered.1.sublist (drop_sublist k vec)
    rw [hdrop, pairwise_cons] at hpairs
    exact fun other hmem => hpairs.1 other (hcrit.subset hmem)
  have hnew : vec[k] ∉ entry := fun hmem => lt_irrefl _ (hbef _ hmem)
  have hins := insertPreempt_eq_cons hbef
  have hleft : Updated state.remainingUnknown shaved.remainingUnknown tid (vec.take k) := h.left
  refine ⟨{ shaved.tried record false oracle with
    criticalPreempts := shaved.criticalPreempts.insert tid (vec[k] :: entry) }, ?_, ?_⟩
  · unfold State.conclude
    rw [hcut]
    simp only [unwrap, assert, State.tried, hsame, hent, hins, getLast?_singleton,
      dropLast_singleton, decide_true, decide_eq_true hnew, if_true, bind, Except.bind, pure,
      Except.pure]
  · have hset : Updated state.criticalPreempts
        (shaved.criticalPreempts.insert tid (vec[k] :: entry)) tid (vec[k] :: entry) := by
      rw [hsame]
      exact Updated.insert _ _ _
    refine ⟨?_, ?_, ?_, ⟨oracle, hasked⟩, fun htrue => Bool.noConfusion htrue, fun _ => ⟨?_, ?_, ?_⟩⟩
    · refine hinv.update h.whole hk.le Nat.one_pos hleft h.sizes hset.2 ?_ h.nodup h.live
      rw [hset.1, hdrop]
      exact hcrit.cons_cons vec[k]
    · exact h.potential_lt (Nat.le_succ k) hleft h.sizes (by omega)
    · show (record, false) :: shaved.trials = _
      rw [htrials]
    · exact hlast
    · refine union_eq_of_updated h.unknown hleft hset.2 ?_
      rw [hset.1, hent, htake, Option.getD_some, append_assoc]
      rfl
    · intro other preempt hmem
      by_cases heq : other = tid
      · subst heq
        rw [hset.1, Option.getD_some] at hmem
        rcases mem_cons.mp hmem with rfl | hmem
        · refine .inr ⟨shaved.union, hrec, (h.inv hinv).union_within, fun smaller hsmal hnot => ?_⟩
          refine within_of_updated h.unknown hleft hsame hsmal fun set hset hsub => ?_
          rw [htake, append_assoc] at hsub
          exact sublist_of_not_mem hsub (hnot set hset)
        · rw [hent]
          exact .inl hmem
      · rw [hset.2 other heq] at hmem
        exact .inl hmem

/-- A trial that fails without several interventions. -/
theorem Shaved.backtrack (hinv : Inv init state) (hone : r ≠ 1)
    (hasked : setup.trialMatches state.oracle state.round record = .ok (false, oracle)) :
    ∃ next, (shaved.tried record false oracle).backtrack tid r ((vec.take n).drop (n - r)) =
        (.ok next : Except (Stop ε) (State σ ρ)) ∧
      Played setup init state next record false := by
  have hr := h.r_eq
  have hn := h.n_pos
  have hb := h.batch_pos
  obtain ⟨hsame, hlast, htrials, -, -⟩ := h.same
  refine ⟨{ shaved.tried record false oracle with
    batchSizes := shaved.batchSizes.insert tid (r / 2)
    remainingUnknown := shaved.remainingUnknown.insert tid (vec.take n)
    remainingThreads := if tid ∈ shaved.remainingThreads then shaved.remainingThreads
      else shaved.remainingThreads ++ [tid] }, ?_, ?_⟩
  · unfold State.backtrack
    simp only [unwrap, State.tried, h.left.1, take_append_cut, bind, Except.bind, pure, Except.pure]
    rfl
  · have hleft := h.left.again (vec.take n)
    have hne : vec.take n ≠ [] := by
      rw [← length_pos_iff, h.length_take le_rfl]
      exact hn
    refine ⟨?_, ?_, ?_, ⟨oracle, hasked⟩, fun htrue => Bool.noConfusion htrue, fun _ => ⟨hlast, ?_, ?_⟩⟩
    · refine hinv.update h.whole h.n_le (by omega) hleft (h.sizes.again (r / 2))
        (fun _ _ => by show shaved.criticalPreempts[_]? = _; rw [hsame]) ?_ ?_ ?_
      · show (shaved.criticalPreempts[tid]?.getD []).Sublist _
        rw [hsame]
        exact h.critical
      · split_ifs with hmem
        · exact h.nodup
        · rw [← concat_eq_append]
          exact h.nodup.concat hmem
      · intro other
        by_cases heq : other = tid
        · subst heq
          rw [hleft.1]
          refine iff_of_true ?_ ⟨_, rfl, hne⟩
          split_ifs with hmem
          · exact hmem
          · exact mem_append_right _ mem_cons_self
        · rw [getElem?_insert_ne _ (Ne.symm heq), ← h.live other]
          split_ifs
          · exact Iff.rfl
          · simp [heq]
    · exact h.potential_lt le_rfl hleft (h.sizes.again (r / 2)) (by omega)
    · show (record, false) :: shaved.trials = _
      rw [htrials]
    · refine union_eq_of_updated h.unknown hleft (fun _ _ => ?_) ?_
      · show shaved.criticalPreempts[_]? = _
        rw [hsame]
      · show vec.take n ++ shaved.criticalPreempts[tid]?.getD [] = _
        rw [hsame]
    · intro other preempt hmem
      have hmem : preempt ∈ shaved.criticalPreempts[other]?.getD [] := hmem
      rw [hsame] at hmem
      exact .inl hmem

end

end Shaved

theorem playRound_spec (setup : Setup σ ρ ε) (hordered : ∀ (tid : DetTid) (vec : List Preempt),
      (interventions init)[tid]? = some vec → Ordered vec)
    (hinv : Inv init state) {selected : ℕ} (hseld : selected < state.remainingThreads.length) :
    (∃ error, playRound setup init state selected = .error (.trial error) ∧
        ∃ oracle round record, setup.trialMatches oracle round record = .error error) ∨
      ∃ next record answer, playRound setup init state selected = .ok next ∧
        Played setup init state next record answer := by
  obtain ⟨tid, vec, n, batch, r, shaved, hshave, h⟩ := shave_spec (ε := ε) hinv hseld
  generalize hrec : recordOf setup.stamp init shaved.union = record
  have htrial : trialRecord setup.stamp init shaved.remainingUnknown shaved.criticalPreempts =
      (.ok record : Except (Stop ε) PreemptionRecord) :=
    hrec ▸ trialRecord_eq hordered (h.inv hinv).union_within
  obtain ⟨-, -, -, horac, hround⟩ := h.same
  unfold playRound
  rw [hshave]
  dsimp only [bind, Except.bind]
  rw [htrial, horac, hround]
  dsimp only
  cases hasked : setup.trialMatches state.oracle state.round record with
  | error error => exact .inl ⟨error, rfl, _, _, _, hasked⟩
  | ok result =>
    obtain ⟨answer, oracle⟩ := result
    refine .inr ?_
    dsimp only [Except.mapError]
    cases answer with
    | true => exact ⟨_, record, true, rfl, h.accept hinv hrec.symm hasked⟩
    | false =>
      rw [if_neg Bool.false_ne_true]
      by_cases hone : r = 1
      · obtain ⟨next, hnext, hpla⟩ :=
          h.conclude (ε := ε) hinv (hordered tid vec h.whole) hone hrec.symm hasked
        rw [if_pos hone]
        exact ⟨next, record, false, hnext, hpla⟩
      · obtain ⟨next, hnext, hpla⟩ := h.backtrack (ε := ε) hinv hone hasked
        rw [if_neg hone]
        exact ⟨next, record, false, hnext, hpla⟩

/-! ## The loop -/

theorem minimizeLoop_spec (hordered : ∀ (tid : DetTid) (vec : List Preempt),
      (interventions init)[tid]? = some vec → Ordered vec) (J : State σ ρ → Prop)
    (hdraw : ∀ state round rng, J state → J { state with round := round, rng := rng })
    (hplay : ∀ state next record answer, Inv init state →
      Played setup init state next record answer → J state → J next)
    {fuel : ℕ} (hinv : Inv init state) (hJ : J state)
    (hfuel : potential state < fuel) :
    (∃ error, minimizeLoop setup init fuel state = some (.error (.trial error)) ∧
        ∃ oracle round record, setup.trialMatches oracle round record = .error error) ∨
      ∃ last, minimizeLoop setup init fuel state = some (.ok last) ∧ Inv init last ∧ J last ∧
        last.remainingThreads = [] := by
  induction fuel generalizing state with
  | zero => exact absurd hfuel (Nat.not_lt_zero _)
  | succ fuel ih =>
    rw [minimizeLoop]
    split
    next hthr =>
      exact .inr ⟨_, rfl, ⟨hinv.thread, hinv.only, hinv.batch, hinv.nodup, hinv.live⟩,
        hdraw state _ state.rng hJ, hthr⟩
    next first others hthr =>
      generalize setup.randomRange state.rng others.length = drawn
      obtain ⟨selected, rng⟩ := drawn
      have hinv' : Inv init { state with round := state.round + 1, rng := rng } :=
        ⟨hinv.thread, hinv.only, hinv.batch, hinv.nodup, hinv.live⟩
      have hseld : (selected : ℕ) < state.remainingThreads.length := by
        rw [hthr]
        exact selected.isLt
      rcases playRound_spec setup hordered hinv' hseld with
        ⟨error, herror, hasked⟩ | ⟨next, record, answer, hnext, hpla⟩
      · simp only [herror]
        exact .inl ⟨error, rfl, hasked⟩
      · simp only [hnext]
        have hless : potential next < potential state := hpla.potential
        refine ih hpla.inv (hplay _ next record answer hinv' hpla ?_) (by omega)
        exact hdraw state _ rng hJ

/-- More rounds than it takes change nothing. -/
theorem minimizeLoop_mono {fuel more : ℕ} {outcome : Except (Stop ε) (State σ ρ)}
    (h : minimizeLoop setup init fuel state = some outcome) (hle : fuel ≤ more) :
    minimizeLoop setup init more state = some outcome := by
  induction fuel generalizing state more with
  | zero => cases h
  | succ fuel ih =>
    obtain ⟨more, rfl⟩ : ∃ k, more = k + 1 := ⟨more - 1, by omega⟩
    rw [minimizeLoop] at h ⊢
    cases hthr : state.remainingThreads with
    | nil =>
      rw [hthr] at h
      exact h
    | cons =>
      rw [hthr] at h
      dsimp only at h ⊢
      split at h
      · exact h
      · exact ih h (by omega)

/-! ## What is found -/

/-- The last trial that matched had the interventions that are unknown or critical now. -/
def Matched (setup : Setup σ ρ ε) (init : PreemptionRecord) (state : State σ ρ) : Prop :=
  match state.lastMatching with
  | none => ∀ trial ∈ state.trials, trial.2 = false
  | some (record, _) =>
    (record, true) ∈ state.trials ∧ record = recordOf setup.stamp init state.union

theorem Played.matched {record : PreemptionRecord} {answer : Bool}
    (h : Played setup init state next record answer) (hmat : Matched setup init state) :
    Matched setup init next := by
  unfold Matched at hmat ⊢
  rw [h.trials]
  cases answer with
  | true =>
    obtain ⟨hlast, hrec, -⟩ := h.accepted rfl
    rw [hlast]
    exact ⟨mem_cons_self, hrec⟩
  | false =>
    obtain ⟨hlast, hunion, -⟩ := h.rejected rfl
    rw [hlast, hunion]
    cases hmatc : state.lastMatching with
    | none =>
      rw [hmatc] at hmat
      exact forall_mem_cons.mpr ⟨rfl, hmat⟩
    | some last =>
      rw [hmatc] at hmat
      exact ⟨mem_cons_of_mem _ hmat.1, hmat.2⟩

def Answers (setup : Setup σ ρ ε) (accepts : PreemptionRecord → Bool) : Prop :=
  ∀ oracle round record answer oracle',
    setup.trialMatches oracle round record = .ok (answer, oracle') → answer = accepts record

/-- A larger set of interventions is accepted if a smaller one is. -/
def UpwardClosed (stamp : TrialStamp) (init : PreemptionRecord)
    (accepts : PreemptionRecord → Bool) : Prop :=
  ∀ smaller larger, Within smaller larger → Within larger (interventions init) →
    accepts (recordOf stamp init smaller) = true → accepts (recordOf stamp init larger) = true

/-- No part of the interventions without a critical one is accepted. -/
def Needed (setup : Setup σ ρ ε) (init : PreemptionRecord) (accepts : PreemptionRecord → Bool)
    (state : State σ ρ) : Prop :=
  ∀ (tid : DetTid) (preempt : Preempt), preempt ∈ state.criticalPreempts[tid]?.getD [] →
    ∀ smaller, Within smaller state.union → (∀ set, smaller[tid]? = some set → preempt ∉ set) →
      accepts (recordOf setup.stamp init smaller) = false

theorem Played.needed {record : PreemptionRecord} {answer : Bool}
    (h : Played setup init state next record answer) {accepts : PreemptionRecord → Bool}
    (hansw : Answers setup accepts) (hupwa : UpwardClosed setup.stamp init accepts)
    (hneed : Needed setup init accepts state) : Needed setup init accepts next := by
  obtain ⟨oracle, hasked⟩ := h.asked
  have hans := hansw _ _ _ _ _ hasked
  cases answer with
  | true =>
    obtain ⟨-, -, hsame, hwin⟩ := h.accepted rfl
    intro tid preempt hmem smaller hsmal hnot
    rw [hsame] at hmem
    exact hneed tid preempt hmem smaller (hsmal.trans hwin) hnot
  | false =>
    obtain ⟨-, hunion, hcrit⟩ := h.rejected rfl
    intro tid preempt hmem smaller hsmal hnot
    rw [hunion] at hsmal
    rcases hcrit tid preempt hmem with hold | ⟨sets, rfl, hsets, hbd⟩
    · exact hneed tid preempt hold smaller hsmal hnot
    · -- the trial without it had all that `smaller` has
      by_contra hacce
      rw [Bool.not_eq_false] at hacce
      rw [hupwa smaller sets (hbd smaller hsmal hnot) hsets hacce] at hans
      exact Bool.noConfusion hans

def criticalOf (init : PreemptionRecord) (critical : OrdMap DetTid (List Preempt)) :
    OrdMap DetTid (List Preempt) :=
  init.perThread.map fun tid _ => critical[tid]?.getD []

theorem Inv.union_eq (h : Inv init state) (hthr : state.remainingThreads = []) :
    state.union = criticalOf init state.criticalPreempts := by
  refine Std.ExtTreeMap.ext_getElem? fun {tid} => ?_
  unfold State.union criticalOf
  rw [getElem?_withCritical, Std.ExtTreeMap.getElem?_map]
  have hvec : (interventions init)[tid]? = init.perThread[tid]?.map asVec := by
    unfold interventions
    rw [Std.ExtTreeMap.getElem?_map]
  cases hhist : init.perThread[tid]? with
  | none =>
    rw [hhist] at hvec
    rw [h.only tid hvec]
    rfl
  | some history =>
    rw [hhist] at hvec
    obtain ⟨n, -, hrem, -⟩ := h.thread tid _ hvec
    have hemp : (asVec history).take n = [] := by
      by_contra hne
      have hmem := (h.live tid).mpr ⟨_, hrem, hne⟩
      rw [hthr] at hmem
      cases hmem
    rw [hrem, hemp]
    rfl

/-- A part of the interventions that is not all of them lacks one. -/
theorem exists_missing (h : Within smaller sets)
    (hnodup : ∀ (tid : DetTid) (set : List Preempt), sets[tid]? = some set → set.Nodup)
    (hne : smaller ≠ sets) :
    ∃ (tid : DetTid) (preempt : Preempt) (set : List Preempt), sets[tid]? = some set ∧ preempt ∈ set ∧
      ∀ part, smaller[tid]? = some part → preempt ∉ part := by
  by_contra hall
  push Not at hall
  refine hne (Std.ExtTreeMap.ext_getElem? fun {tid} => ?_)
  rcases h tid with ⟨part, set, hpart, hset, hsub⟩ | ⟨hpart, hset⟩
  · rw [hpart, hset]
    have hsubs : set ⊆ part := by
      intro preempt hmem
      obtain ⟨part', hpart', hmem'⟩ := hall tid preempt set hset hmem
      rw [hpart] at hpart'
      cases hpart'
      exact hmem'
    have hle := ((hnodup tid set hset).subperm hsubs).length_le
    rw [hsub.eq_of_length_le hle]
  · rw [hpart, hset]

section

variable (hordered : ∀ (tid : DetTid) (vec : List Preempt), (interventions init)[tid]? = some vec → Ordered vec)
include hordered

/-- At the end every intervention is needed. -/
theorem not_accepted_of_needed {accepts : PreemptionRecord → Bool} {last : State σ ρ}
    (hinv : Inv init last) (hthr : last.remainingThreads = [])
    (hneed : Needed setup init accepts last)
    (hsmal : Within smaller (criticalOf init last.criticalPreempts))
    (hne : smaller ≠ criticalOf init last.criticalPreempts) :
    accepts (recordOf setup.stamp init smaller) = false := by
  have hunion := hinv.union_eq hthr
  have hwin := hinv.union_within
  rw [hunion] at hwin
  have hnodup : ∀ (tid : DetTid) (set : List Preempt),
      (criticalOf init last.criticalPreempts)[tid]? = some set → set.Nodup := by
    intro tid set hset
    rcases hwin tid with ⟨set', all, hset', hall, hsub⟩ | ⟨hnone, -⟩
    · rw [hset] at hset'
      cases hset'
      exact ((hordered tid all hall).sublist hsub).nodup
    · rw [hset] at hnone
      cases hnone
  obtain ⟨tid, preempt, set, hset, hmem, hmiss⟩ := exists_missing hsmal hnodup hne
  refine hneed tid preempt ?_ smaller (hunion ▸ hsmal) hmiss
  unfold criticalOf at hset
  rw [Std.ExtTreeMap.getElem?_map, Option.map_eq_some_iff] at hset
  obtain ⟨history, -, rfl⟩ := hset
  exact hmem

/-- What the loop starts with, from a record that is not refused. -/
theorem startState_ok {rng : ρ} {oracle : σ} (hcomplete : init.replayDepartedAt = none)
    (hreserved : init.combinedReservedInputs init = true) :
    ∃ state, startState init rng oracle = (.ok state : Except (Stop ε) (State σ ρ)) ∧
      Inv init state ∧ state.lastMatching = none ∧ state.trials = [] ∧
      state.criticalPreempts = ∅ ∧ state.remainingUnknown = interventions init := by
  have hsane : init.perThread.toList.forM (fun entry => sanityPreempts (asVec entry.2)) =
      (.ok () : Except (Stop ε) Unit) := by
    refine forM_eq_ok.mpr ?_
    rintro ⟨tid, history⟩ hmem
    refine sanityPreempts_ok (hordered tid _ ?_)
    unfold interventions
    rw [Std.ExtTreeMap.getElem?_map, (mem_toList _ _ _).mp hmem]
    rfl
  unfold startState
  rw [hcomplete]
  rw [if_neg (not_not.mpr hreserved), hsane]
  refine ⟨_, rfl, ⟨?_, ?_, ?_, ?_, ?_⟩, rfl, rfl, rfl, rfl⟩
  · intro tid vec hvec
    refine ⟨vec.length, le_rfl, ?_, ?_⟩
    · rw [take_length]
      exact hvec
    · simp
  · exact fun _ hnone => hnone
  · intro tid vec hvec
    refine ⟨max 1 (vec.length / 4), ?_, by omega⟩
    have hvec : (init.perThread.map fun _ history => asVec history)[tid]? = some vec := hvec
    rw [Std.ExtTreeMap.getElem?_map, hvec]
    rfl
  · have hkeys : ((init.perThread.map fun _ history => asVec history).toList.map
        Prod.fst).Nodup := by
      rw [Std.ExtTreeMap.map_fst_toList_eq_keys]
      exact Std.ExtTreeMap.nodup_keys
    exact hkeys.sublist (filter_sublist.map Prod.fst)
  · intro tid
    rw [mem_map]
    constructor
    · rintro ⟨⟨tid', vec⟩, hmem, rfl⟩
      obtain ⟨hmem, hpos⟩ := mem_filter.mp hmem
      exact ⟨vec, (mem_toList _ _ _).mp hmem, length_pos_iff.mp (of_decide_eq_true hpos)⟩
    · rintro ⟨vec, hvec, hne⟩
      exact ⟨(tid, vec), mem_filter.mpr ⟨(mem_toList _ _ _).mpr hvec,
        decide_eq_true (length_pos_iff.mpr hne)⟩, rfl⟩

end

theorem forM_eq_error {α : Type} {f : α → Except ε Unit} {stop : ε} {xs : List α}
    (h : ∀ x ∈ xs, f x = .ok () ∨ f x = .error stop) (hne : xs.forM f ≠ .ok ()) :
    xs.forM f = .error stop := by
  induction xs with
  | nil => exact absurd rfl hne
  | cons x xs ih =>
    obtain ⟨hx, hxs⟩ := forall_mem_cons.mp h
    rcases hx with hx | hx
    · exact (congrArg (· >>= fun _ => xs.forM f) hx).trans
        (ih hxs fun hok => hne ((congrArg (· >>= fun _ => xs.forM f) hx).trans hok))
    · exact congrArg (· >>= fun _ => xs.forM f) hx

/-- The priorities that `sanity_preempts` asserts are ordinary, where the record comes to it: it
    is complete, and its reserved inputs combine. -/
def OrdinaryStart (init : PreemptionRecord) : Prop :=
  init.replayDepartedAt = none → init.combinedReservedInputs init = true →
    ∀ (tid : DetTid) (vec : List Preempt), (interventions init)[tid]? = some vec →
      ∀ preempt ∈ vec, isOrdinaryPriority preempt.2 = true

theorem startState_spec (rng : ρ) (oracle : σ) (hincr : ∀ (tid : DetTid) (vec : List Preempt),
    (interventions init)[tid]? = some vec → vec.Pairwise fun a b => a.1 < b.1) :
    (∃ event, startState init rng oracle = (.error (.departed event) : Except (Stop ε) (State σ ρ)) ∧
      init.replayDepartedAt ≠ none) ∨
    (startState init rng oracle = (.error .reservedInput : Except (Stop ε) (State σ ρ)) ∧
      init.combinedReservedInputs init ≠ true) ∨
    (startState init rng oracle = (.error .assertion : Except (Stop ε) (State σ ρ)) ∧
      ¬ OrdinaryStart init) ∨
    (∀ (tid : DetTid) (vec : List Preempt), (interventions init)[tid]? = some vec → Ordered vec) ∧
      ∃ state, startState init rng oracle = (.ok state : Except (Stop ε) (State σ ρ)) ∧
        Inv init state ∧ state.lastMatching = none ∧ state.trials = [] ∧
        state.criticalPreempts = ∅ := by
  cases hcomplete : init.replayDepartedAt with
  | some event =>
    refine .inl ⟨event, ?_, Option.some_ne_none event⟩
    unfold startState
    rw [hcomplete]
    rfl
  | none =>
    by_cases hreserved : init.combinedReservedInputs init = true
    · refine .inr (.inr ?_)
      by_cases hordi : OrdinaryStart init
      · have hordered := fun tid vec hvec =>
          (⟨hincr tid vec hvec, hordi hcomplete hreserved tid vec hvec⟩ : Ordered vec)
        obtain ⟨state, hsta, hinv, hlast, htrials, hcrit, -⟩ :=
          startState_ok hordered hcomplete hreserved
        exact .inr ⟨hordered, state, hsta, hinv, hlast, htrials, hcrit⟩
      · refine .inl ⟨?_, hordi⟩
        have hchecks : init.perThread.toList.forM (fun entry => sanityPreempts (asVec entry.2)) =
            (.error .assertion : Except (Stop ε) Unit) := by
          have hvec : ∀ entry ∈ init.perThread.toList,
              (interventions init)[entry.1]? = some (asVec entry.2) := by
            intro entry hmem
            rw [interventions, Std.ExtTreeMap.getElem?_map, (mem_toList _ _ _).mp hmem]
            rfl
          refine forM_eq_error (fun entry hmem => ?_) fun hok => hordi fun _ _ tid vec hget => ?_
          · rw [sanityPreempts_eq (hincr _ _ (hvec entry hmem))]
            split_ifs
            · exact .inl rfl
            · exact .inr rfl
          · rw [interventions, Std.ExtTreeMap.getElem?_map] at hget
            obtain ⟨history, hhist, rfl⟩ := Option.map_eq_some_iff.mp hget
            have hmem := (mem_toList _ _ _).mpr hhist
            have hentry := forM_eq_ok.mp hok _ hmem
            rw [sanityPreempts_eq (hincr _ _ (hvec _ hmem))] at hentry
            split_ifs at hentry with hall
            exact all_eq_true.mp hall
        unfold startState
        rw [hcomplete]
        rw [if_neg (not_not.mpr hreserved), hchecks]
        rfl
    · refine .inr (.inl ⟨?_, hreserved⟩)
      unfold startState
      rw [hcomplete]
      rw [if_pos hreserved]
      rfl

/-- Let the times of each thread increase. Exactly where the priorities are ordinary, the minimizer
    ends without a failed check: whatever the trials answer and whichever threads are drawn, after a
    number of rounds and with a refusal before its trials, with an error of a trial, without a trial
    that matched, or with a record that matched. That record has just the interventions that were
    found critical. If the trials accept a larger set of interventions whenever they accept a
    smaller one, none that is smaller is accepted. -/
theorem minimize_finds_critical {σ ρ ε : Type} (setup : Setup σ ρ ε) (init : PreemptionRecord)
    (rng : ρ) (oracle : σ) (hincr : ∀ (tid : DetTid) (vec : List Preempt),
      (interventions init)[tid]? = some vec → vec.Pairwise fun a b => a.1 < b.1) :
    OrdinaryStart init ↔ ∃ rounds outcome, (∀ fuel, rounds ≤ fuel →
        minimizeWith setup init rng oracle fuel = some outcome) ∧
      (∀ stop, outcome = .error stop →
        (∃ event, stop = .departed event) ∨ stop = .reservedInput ∨ (∃ error, stop = .trial error) ∨
          ∃ trials, stop = .noMatch trials ∧ ∀ trial ∈ trials, trial.2 = false) ∧
      ∀ found, outcome = .ok found → (found.record, true) ∈ found.trials ∧
        found.record = recordOf setup.stamp init (criticalOf init found.critical) ∧
        Within (criticalOf init found.critical) (interventions init) ∧
        ∀ accepts, Answers setup accepts → UpwardClosed setup.stamp init accepts →
          ∀ smaller, Within smaller (criticalOf init found.critical) →
            smaller ≠ criticalOf init found.critical →
            accepts (recordOf setup.stamp init smaller) = false := by
  rcases startState_spec (ε := ε) rng oracle hincr with
    ⟨event, hsta, hdep⟩ | ⟨hsta, hres⟩ | ⟨hsta, hbad⟩ |
      ⟨hordered, state, hsta, hinv, hlast, htrials, hcrit⟩
  · refine iff_of_true (fun hcomplete => absurd hcomplete hdep) ?_
    refine ⟨0, .error (.departed event), fun fuel _ => ?_, ?_, fun found hfnd => by cases hfnd⟩
    · unfold minimizeWith
      rw [hsta]
    · intro stop hstop
      cases hstop
      exact .inl ⟨event, rfl⟩
  · refine iff_of_true (fun _ hreserved => absurd hreserved hres) ?_
    refine ⟨0, .error .reservedInput, fun fuel _ => ?_, ?_, fun found hfnd => by cases hfnd⟩
    · unfold minimizeWith
      rw [hsta]
    · intro stop hstop
      cases hstop
      exact .inr (.inl rfl)
  · refine iff_of_false hbad ?_
    rintro ⟨rounds, outcome, hrun, hstop, -⟩
    have hout := hrun rounds le_rfl
    unfold minimizeWith at hout
    rw [hsta] at hout
    cases hout
    rcases hstop _ rfl with ⟨_, h⟩ | h | ⟨_, h⟩ | ⟨_, h, -⟩ <;> cases h
  · refine iff_of_true (fun _ _ tid vec hvec => (hordered tid vec hvec).2) ?_
    have hmat : Matched setup init state := by
      unfold Matched
      rw [hlast, htrials]
      exact forall_mem_nil _
    have hneed : ∀ accepts, Answers setup accepts → UpwardClosed setup.stamp init accepts →
        Needed setup init accepts state := by
      intro accepts _ _ tid preempt hmem
      rw [hcrit] at hmem
      simp at hmem
    obtain ⟨outcome, hloop, hend⟩ : ∃ outcome,
        minimizeLoop setup init (potential state + 1) state = some outcome ∧
        ((∃ error, outcome = .error (.trial error)) ∨ ∃ last, outcome = .ok last ∧
          Inv init last ∧ last.remainingThreads = [] ∧ Matched setup init last ∧
          ∀ accepts, Answers setup accepts → UpwardClosed setup.stamp init accepts →
            Needed setup init accepts last) := by
      rcases minimizeLoop_spec hordered
        (fun state => Matched setup init state ∧ ∀ accepts, Answers setup accepts →
          UpwardClosed setup.stamp init accepts → Needed setup init accepts state)
        (fun _ _ _ h => h)
        (fun _ _ _ _ _ hpla h => ⟨hpla.matched h.1, fun accepts hansw hupwa =>
          hpla.needed hansw hupwa (h.2 accepts hansw hupwa)⟩)
        hinv ⟨hmat, hneed⟩ (Nat.lt_succ_self _) with
        ⟨error, herror, -⟩ | ⟨last, hlast, hinv', hJ, hthr⟩
      · exact ⟨_, herror, .inl ⟨error, rfl⟩⟩
      · exact ⟨_, hlast, .inr ⟨last, rfl, hinv', hthr, hJ⟩⟩
    have hres : ∀ fuel, potential state + 1 ≤ fuel →
        minimizeWith setup init rng oracle fuel = some (outcome.bind finish) := by
      intro fuel hfuel
      unfold minimizeWith
      rw [hsta]
      dsimp only
      rw [minimizeLoop_mono hloop hfuel]
      rfl
    refine ⟨potential state + 1, outcome.bind finish, hres, ?_, ?_⟩
    · intro stop hstop
      rcases hend with ⟨error, rfl⟩ | ⟨last, rfl, -, -, hmat, -⟩
      · cases hstop
        exact .inr (.inr (.inl ⟨error, rfl⟩))
      · refine .inr (.inr (.inr ⟨last.trials, ?_⟩))
        have hstop : finish last = .error stop := hstop
        unfold finish at hstop
        unfold Matched at hmat
        cases hmatc : last.lastMatching with
        | none =>
          rw [hmatc] at hstop hmat
          cases hstop
          exact ⟨rfl, hmat⟩
        | some matching =>
          rw [hmatc] at hstop
          cases hstop
    · intro found hfnd
      rcases hend with ⟨error, rfl⟩ | ⟨last, rfl, hinv', hthr, hmat, hneed⟩
      · cases hfnd
      · have hfnd : finish last = .ok found := hfnd
        have hunion := hinv'.union_eq hthr
        have hwin := hinv'.union_within
        unfold finish at hfnd
        unfold Matched at hmat
        cases hmatc : last.lastMatching with
        | none =>
          rw [hmatc] at hfnd
          cases hfnd
        | some matching =>
          rw [hmatc] at hfnd hmat
          cases hfnd
          rw [hunion] at hmat hwin
          refine ⟨hmat.1, hmat.2, hwin, ?_⟩
          intro accepts hansw hupwa smaller hsmal hne
          exact not_accepted_of_needed hordered hinv' hthr (hneed accepts hansw hupwa) hsmal hne

/-- A thread 3 that starts at this priority and changes to 1000 after 5 ns. -/
def oneChange (prio : Priority) : PreemptionRecord :=
  { perThread := (∅ : OrdMap DetTid ThreadHistory).insert 3
      { finalPrio := 1000, prioChanges := [(⟨5, by decide⟩, prio)] } }

theorem interventions_oneChange {prio : Priority}
    (h : (interventions (oneChange prio))[tid]? = some vec) :
    vec = [(LogicalTime.zero, prio), (⟨5, by decide⟩, 1000)] := by
  unfold interventions oneChange at h
  rw [Std.ExtTreeMap.getElem?_map, getElem?_insert_ite] at h
  split_ifs at h
  · cases h
    rfl
  · simp at h

/-- Trials that all match, always of the first thread left. -/
def matchAll : Setup Unit Unit Unit where
  stamp := {}
  trialMatches _ _ _ := .ok (true, ())
  randomRange _ _ := (0, ())

/-- Where every trial matches, the record found has no interventions. -/
theorem minimize_finds_critical_oneChange : ∃ rounds found, (∀ fuel, rounds ≤ fuel →
        minimizeWith matchAll (oneChange 2000) () () fuel = some (.ok found)) ∧
      found.critical = ∅ ∧ found.record = recordOf {} (oneChange 2000) (criticalOf (oneChange 2000) ∅) := by
  have hordered : ∀ (tid : DetTid) (vec : List Preempt),
      (interventions (oneChange 2000))[tid]? = some vec → Ordered vec := by
    intro tid vec hvec
    rw [interventions_oneChange hvec]
    unfold Ordered
    decide
  obtain ⟨rounds, outcome, hrun, -, hfound⟩ := (minimize_finds_critical matchAll (oneChange 2000) ()
    () fun tid vec hvec => (hordered tid vec hvec).1).mp fun _ _ tid vec hvec => (hordered tid vec hvec).2
  cases hrun (rounds + 4) (Nat.le_add_right _ _)
  obtain ⟨-, hrec, -⟩ := hfound _ rfl
  exact ⟨rounds, _, hrun, rfl, hrec⟩

/-- A record whose first priority is below the ordinary ones validates, and its times increase.
    The minimizer fails on it before its first trial, as `sanity_preempts` asserts the priority. -/
theorem minimize_asserts_first_priority : (oneChange 0).validate = .ok () ∧
      (∀ (tid : DetTid) (vec : List Preempt), (interventions (oneChange 0))[tid]? = some vec →
        vec.Pairwise fun a b => a.1 < b.1) ∧
      ∀ fuel, minimizeWith matchAll (oneChange 0) () () fuel = some (.error .assertion) := by
  refine ⟨by decide +kernel, ?_, fun _ => rfl⟩
  intro tid vec hvec
  rw [interventions_oneChange hvec]
  decide

end Hermit.Minimize
