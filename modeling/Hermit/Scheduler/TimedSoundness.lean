import Hermit.Scheduler.TimedInvariant

/-!
# Every run of the timed events

The remaining operations of `TimedEvents`, and what holds along every sequence of
them: none fails, and the map and the records stay in agreement.

* `timed_events_sound`
-/

namespace Hermit.Scheduler

open Hermit.Common OrdMap

namespace TimedEvents

variable {s s' : TimedEvents} {id : SignalTimerId} {t : LogicalTime}
variable {controlled : DetPid → Bool}

/-! ## Controlled deadlines -/

variable {pid : DetPid} {tid : DetTid} {evt : TimedEvent} {op : TimedOp} {out : TimedOut}

theorem removeControlledRealTimerDeadline_spec (hs : Sound controlled s)
    (hpid : controlled pid = true) :
    ∃ s', s.removeControlledRealTimerDeadline pid = .ok s' ∧ ReplacedReal s s' pid none := by
  set s₀ : TimedEvents :=
    { s with controlledRealTimerDeadlines := s.controlledRealTimerDeadlines.erase pid } with hs₀
  have hcal : ∀ t target sig, Pending s t (.signalEvt (.alarm pid) target sig) →
      s.controlledRealTimerDeadlines[pid]? = some t ∧ target = .process pid ∧
        sig = .send .sigalrm := by
    intro t target sig hpend
    rcases (hs.signal (.alarm pid) t target sig rfl).mp hpend with
      ⟨state, hst, -⟩ | ⟨pid', hpid', hrest⟩
    · rw [hs.legacy pid hpid] at hst
      cases hst
    · cases hpid'
      exact hrest
  have hclr : ∃ s', s.removeControlledRealTimerDeadline pid = .ok s' ∧
      Cleared s₀ s' (.alarm pid) := by
    unfold removeControlledRealTimerDeadline
    cases hd : s.controlledRealTimerDeadlines[pid]? with
    | none =>
      refine ⟨s₀, rfl, fun htidy => htidy, ?_, rfl, rfl⟩
      intro t evt
      constructor
      · intro hpend
        refine ⟨hpend, ?_⟩
        cases htimer : evt.isTimer (.alarm pid) with
        | false => rfl
        | true =>
          obtain ⟨target, sig, rfl⟩ := eq_signalEvt_of_isTimer htimer
          obtain ⟨ht, -⟩ := hcal t target sig hpend
          rw [hd] at ht
          cases ht
      · exact And.left
    | some deadline =>
      refine clearOldSignalTimer_spec rfl ?_
      intro t target sig hpend
      obtain ⟨ht, rfl, rfl⟩ := hcal t target sig hpend
      rw [hd] at ht
      cases ht
      exact ⟨rfl, fun target' sig' hpend' => (hcal _ target' sig' hpend').2⟩
  obtain ⟨s', hok, hclr⟩ := hclr
  refine ⟨s', hok, hclr.tidy hs.tidy, ?_, hclr.timers, ?_⟩
  · intro t evt
    rw [hclr.pending]
    constructor
    · exact .inl
    · rintro (h | ⟨hnone, -⟩)
      · exact h
      · cases hnone
  · intro pid'
    rw [hclr.deadlines, hs₀]
    rw [getElem?_erase_ite]
    simp only [eq_comm]

/-- Removing the deadline of a process that uses the legacy alarm. -/
theorem removeControlledRealTimerDeadline_absent (hs : Sound controlled s)
    (hpid : controlled pid = false) :
    ∃ s', s.removeControlledRealTimerDeadline pid = .ok s' ∧ Unrelated s s' := by
  refine ⟨{ s with controlledRealTimerDeadlines := s.controlledRealTimerDeadlines.erase pid },
    ?_, hs.tidy, hs.thread, fun _ _ _ _ _ => .rfl, fun _ => rfl, ?_⟩
  · unfold removeControlledRealTimerDeadline
    rw [hs.real pid hpid]
    rfl
  · intro pid'
    rw [getElem?_erase_ite]
    split_ifs with heq
    · rw [← heq, hs.real pid hpid]
    · rfl

theorem insertControlledRealTimerDeadline_spec (hs : Sound controlled s)
    (hpid : controlled pid = true) (deadline : LogicalTime) :
    ∃ s', s.insertControlledRealTimerDeadline deadline pid = .ok s' ∧
      ReplacedReal s s' pid (some deadline) := by
  have hleg : ¬ s.signalTimers.contains (SignalTimerId.alarm pid) = true := by
    rw [Bool.not_eq_true, contains_eq_false]
    exact hs.legacy pid hpid
  obtain ⟨s₁, hrmv, hrmvd⟩ := removeControlledRealTimerDeadline_spec hs hpid
  refine ⟨{ s₁ with
    controlledRealTimerDeadlines := s₁.controlledRealTimerDeadlines.insert pid deadline
    map := s₁.map.add deadline (controlledEvt pid) }, ?_, ?_, ?_, hrmvd.timers, ?_⟩
  · unfold insertControlledRealTimerDeadline
    exact throwIf_eq_ok.mpr ⟨hleg, bind_eq_ok.mpr ⟨s₁, hrmv, rfl⟩⟩
  · exact hrmvd.tidy.add _ _
  · intro t evt
    refine Agenda.mem_slot_add.trans ?_
    have hpend := hrmvd.pending t evt
    unfold Pending at hpend ⊢
    rw [hpend]
    constructor
    · rintro (⟨rfl, hevt⟩ | h | ⟨hnone, -⟩)
      · exact .inr ⟨rfl, hevt⟩
      · exact .inl h
      · cases hnone
    · rintro (h | ⟨hsome, hevt⟩)
      · exact .inr (.inl h)
      · cases hsome
        exact .inl ⟨rfl, hevt⟩
  · intro pid'
    rw [getElem?_insert_ite, hrmvd.deadlines]
    by_cases heq : pid' = pid
    · rw [if_pos heq.symm, if_pos heq]
    · rw [if_neg (Ne.symm heq), if_neg heq, if_neg heq]

/-! ## Removing timers -/

theorem removeSignalTimers_spec {ids : List SignalTimerId}
    (hids : ∀ id ∈ ids, id.isChildExit = false ∧ ∀ pid, id = .alarm pid → controlled pid = false)
    (hs : Sound controlled s) :
    ∃ s', s.removeSignalTimers ids = .ok s' ∧ Sound controlled s' ∧
      ∀ id : SignalTimerId, s'.signalTimers[id]? =
        if id ∈ ids then none else s.signalTimers[id]? := by
  induction ids generalizing s with
  | nil => exact ⟨s, rfl, hs, fun id => by rw [if_neg List.not_mem_nil]⟩
  | cons id ids ih =>
    obtain ⟨hid, hleg⟩ := hids id List.mem_cons_self
    obtain ⟨s₁, hrmv, hrepl⟩ := removeSignalTimer_spec hs hid hleg
    obtain ⟨s', hrest, hs', hrecs⟩ :=
      ih (fun id' hid' => hids id' (List.mem_cons_of_mem _ hid')) (hrepl.sound hs hid hleg)
    refine ⟨s', ?_, hs', ?_⟩
    · unfold removeSignalTimers
      rw [List.foldlM_cons]
      exact bind_eq_ok.mpr ⟨s₁, bind_eq_ok.mpr ⟨_, hrmv, rfl⟩, hrest⟩
    · intro id'
      rw [hrecs, hrepl.timers]
      by_cases hmem : id' ∈ ids
      · rw [if_pos hmem, if_pos (List.mem_cons_of_mem _ hmem)]
      · rw [if_neg hmem]
        simp only [List.mem_cons, hmem, or_false]

theorem Sound.keys_legacy (hs : Sound controlled s) (p : SignalTimerId → Bool) :
    ∀ id ∈ s.signalTimers.keys.filter p,
      id.isChildExit = false ∧ ∀ pid, id = .alarm pid → controlled pid = false := by
  intro id hid
  have hkey : id ∈ s.signalTimers := Std.ExtTreeMap.mem_keys.mp (List.mem_filter.mp hid).1
  obtain ⟨state, hst⟩ := (contains_iff _ _).mp (Std.ExtTreeMap.mem_iff_contains.mp hkey)
  exact hs.legacy_of_record hst

theorem removeSignalTimer_absent (hs : Sound controlled s) (hnone : s.signalTimers[id]? = none) :
    ∃ s', s.removeSignalTimer id = .ok (s', none) ∧ Unrelated s s' := by
  refine ⟨{ s with signalTimers := s.signalTimers.erase id }, ?_, hs.tidy, hs.thread,
    fun _ _ _ _ _ => .rfl, ?_, fun _ => rfl⟩
  · unfold removeSignalTimer
    rw [hnone]
    rfl
  · intro id'
    rw [getElem?_erase_record]
    split_ifs with heq
    · rw [heq, hnone]
    · rfl

theorem removeFiltered_spec (hs : Sound controlled s) (p : SignalTimerId → Bool) :
    ∃ s', s.removeSignalTimers (s.signalTimers.keys.filter p) = .ok s' ∧ Sound controlled s' ∧
      ∀ id : SignalTimerId, s'.signalTimers[id]? =
        if p id = true then none else s.signalTimers[id]? := by
  obtain ⟨s', hok, hs', hrecs⟩ := removeSignalTimers_spec (hs.keys_legacy p) hs
  refine ⟨s', hok, hs', ?_⟩
  intro id
  rw [hrecs]
  cases hst : s.signalTimers[id]? with
  | none => simp
  | some state =>
    have hkey : id ∈ s.signalTimers.keys := by
      rw [Std.ExtTreeMap.mem_keys, Std.ExtTreeMap.mem_iff_contains, contains_iff]
      exact ⟨state, hst⟩
    simp only [List.mem_filter, hkey, true_and]

/-! ## Threads -/

theorem threadDeadline_eq_none :
    s.threadDeadline tid = none ↔ ∀ t, ¬ Pending s t (.threadEvt tid) := by
  unfold threadDeadline
  rw [List.findSome?_eq_none_iff]
  constructor
  · intro h t hpend
    obtain ⟨events, hslot, hevt⟩ := Agenda.mem_slot.mp hpend
    have hnone := h (t, events) ((mem_toList _ _ _).mpr hslot)
    dsimp only at hnone
    rw [if_pos hevt] at hnone
    cases hnone
  · rintro h ⟨t, events⟩ hmem
    dsimp only
    rw [if_neg]
    intro hevt
    exact h t (Agenda.mem_slot.mpr ⟨events, (mem_toList _ _ _).mp hmem, hevt⟩)

theorem insert_spec (hs : Sound controlled s) {dt : DetTid} (hfree : s.threadDeadline dt = none)
    (ns : LogicalTime) : ∃ s', s.insert ns dt = .ok s' ∧ Unrelated s s' := by
  have hnone := threadDeadline_eq_none.mp hfree
  have hadd : ∀ t evt, Pending { s with map := s.map.add ns (.threadEvt dt) } t evt ↔
      (t = ns ∧ evt = .threadEvt dt) ∨ Pending s t evt := fun t evt => Agenda.mem_slot_add
  refine ⟨{ s with map := s.map.add ns (.threadEvt dt) }, if_neg (hnone ns), hs.tidy.add _ _, ?_, ?_,
    fun _ => rfl, fun _ => rfl⟩
  · intro t t' tid h h'
    rw [hadd] at h h'
    rcases h with ⟨rfl, hevt⟩ | h
    · cases hevt
      rcases h' with ⟨rfl, -⟩ | h'
      · rfl
      · exact absurd h' (hnone t')
    · rcases h' with ⟨rfl, hevt⟩ | h'
      · cases hevt
        exact absurd h (hnone t)
      · exact hs.thread t t' tid h h'
  · intro id t target sig _
    rw [hadd]
    simp

theorem insertChildExit_spec (hs : Sound controlled s) (ns : LogicalTime) (child parent : DetPid)
    (parentTid : DetTid) : Unrelated s (s.insertChildExit ns child parent parentTid) := by
  have hadd : ∀ t evt, Pending (s.insertChildExit ns child parent parentTid) t evt ↔
      (t = ns ∧ evt = .signalEvt (.childExit child parent) (.process parentTid) (.send .sigchld)) ∨
        Pending s t evt := fun t evt => Agenda.mem_slot_add
  refine ⟨hs.tidy.add _ _, ?_, ?_, fun _ => rfl, fun _ => rfl⟩
  · intro t t' tid h h'
    rw [hadd] at h h'
    simp only [reduceCtorEq, and_false, false_or] at h h'
    exact hs.thread t t' tid h h'
  · intro id t target sig hid
    rw [hadd]
    constructor
    · rintro (⟨-, hevt⟩ | h)
      · cases hevt
        cases hid
      · exact h
    · exact .inr

/-- What the loop of `remove` has done after the entries `xs`: it took the thread
    out of them, it remembers an entry it emptied, if there is one, and it has
    found the thread only if it was there. -/
structure Swept (tid : DetTid) (map : Agenda LogicalTime TimedEvent)
    (xs : List (LogicalTime × Finset TimedEvent))
    (acc : Agenda LogicalTime TimedEvent × Option LogicalTime × Bool) : Prop where
  lookup : ∀ t : LogicalTime, acc.1[t]? =
    if t ∈ xs.map Prod.fst then map[t]?.map (·.erase (.threadEvt tid)) else map[t]?
  emptied : ∀ t, acc.2.1 = some t → ∃ set, (t, set) ∈ xs ∧ set.erase (.threadEvt tid) = ∅
  rest : acc.2.1 = none → ∀ t set, (t, set) ∈ xs → set.erase (.threadEvt tid) ≠ ∅
  found : acc.2.2 = true → ∃ t set, (t, set) ∈ xs ∧ .threadEvt tid ∈ set

/-- One more entry, in which the thread is not if it was in one before. -/
theorem Swept.step {map : Agenda LogicalTime TimedEvent}
    {xs : List (LogicalTime × Finset TimedEvent)}
    {acc : Agenda LogicalTime TimedEvent × Option LogicalTime × Bool} {t : LogicalTime}
    {set : Finset TimedEvent} (h : Swept tid map xs acc) (hset : map[t]? = some set)
    (honce : acc.2.2 = true → .threadEvt tid ∉ set) :
    ∃ acc', removeOne tid acc (t, set) = .ok acc' ∧ Swept tid map (xs ++ [(t, set)]) acc' := by
  have hthrow : ¬ (decide (.threadEvt tid ∈ set) = true ∧ acc.2.2 = true) := by
    rintro ⟨hmem, hfnd⟩
    exact honce hfnd (of_decide_eq_true hmem)
  refine ⟨(acc.1.insert t (set.erase (.threadEvt tid)),
    if set.erase (.threadEvt tid) = ∅ then some t else acc.2.1,
    acc.2.2 || decide (.threadEvt tid ∈ set)), ?_, ?_, ?_, ?_, ?_⟩
  · unfold removeOne
    exact throwIf_eq_ok.mpr ⟨hthrow, rfl⟩
  · intro t'
    rw [getElem?_insert_ite, h.lookup, List.map_append]
    by_cases heq : t = t'
    · subst heq
      simp [hset]
    · have hmem : t' ∈ xs.map Prod.fst ++ [(t, set)].map Prod.fst ↔ t' ∈ xs.map Prod.fst := by
        simp [Ne.symm heq]
      rw [if_neg heq, if_congr hmem rfl rfl]
  · intro t' ht'
    split_ifs at ht' with hemp
    · cases ht'
      exact ⟨set, by simp, hemp⟩
    · obtain ⟨set', hmem, hset'⟩ := h.emptied t' ht'
      exact ⟨set', List.mem_append_left _ hmem, hset'⟩
  · intro hnone t' set' hmem
    split_ifs at hnone with hemp
    rcases List.mem_append.mp hmem with hmem | hmem
    · exact h.rest hnone t' set' hmem
    · obtain ⟨rfl, rfl⟩ := Prod.mk.inj (List.mem_singleton.mp hmem)
      exact hemp
  · intro hfnd
    rcases Bool.or_eq_true_iff.mp hfnd with hfnd | hmem
    · obtain ⟨t', set', hmem, hevt⟩ := h.found hfnd
      exact ⟨t', set', List.mem_append_left _ hmem, hevt⟩
    · exact ⟨t, set, by simp, of_decide_eq_true hmem⟩

/-- The whole loop, from the entries before it. -/
theorem sweep_spec (hs : Sound controlled s) : ∀ {ys xs : List (LogicalTime × Finset TimedEvent)}
      {acc : Agenda LogicalTime TimedEvent × Option LogicalTime × Bool},
      s.map.toList = xs ++ ys → Swept tid s.map xs acc →
      ∃ acc', ys.foldlM (removeOne tid) acc = .ok acc' ∧ Swept tid s.map s.map.toList acc' := by
  intro ys
  induction ys with
  | nil =>
    intro xs acc hlist hswept
    rw [List.append_nil] at hlist
    rw [hlist]
    exact ⟨acc, rfl, hswept⟩
  | cons y ys ih =>
    intro xs acc hlist hswept
    obtain ⟨t, set⟩ := y
    have hget : ∀ t' set', (t', set') ∈ s.map.toList → s.map[t']? = some set' := fun t' set' =>
      (mem_toList _ _ _).mp
    have hset : s.map[t]? = some set := hget t set (by rw [hlist]; simp)
    have honce : acc.2.2 = true → .threadEvt tid ∉ set := by
      intro hfnd hevt
      obtain ⟨t', set', hmem, hevt'⟩ := hswept.found hfnd
      have hset' : s.map[t']? = some set' := hget t' set' (by rw [hlist]; simp [hmem])
      have heq : t' = t := by
        refine hs.thread t' t tid ?_ ?_
        · exact Agenda.mem_slot.mpr ⟨set', hset', hevt'⟩
        · exact Agenda.mem_slot.mpr ⟨set, hset, hevt⟩
      -- The entries have distinct times, so the earlier one is another.
      have hdistinct := Std.ExtTreeMap.distinct_keys_toList (t := s.map)
      rw [hlist, List.pairwise_append] at hdistinct
      have hne := hdistinct.2.2 _ hmem _ List.mem_cons_self
      rw [heq] at hne
      exact hne (compare_eq_iff_eq.mpr rfl)
    obtain ⟨acc₁, hone, hswept₁⟩ := hswept.step hset honce
    have hlist₁ : s.map.toList = (xs ++ [(t, set)]) ++ ys := by
      rw [hlist]
      simp
    obtain ⟨acc', hrest, hswept'⟩ := ih hlist₁ hswept₁
    exact ⟨acc', by rw [List.foldlM_cons]; exact bind_eq_ok.mpr ⟨acc₁, hone, hrest⟩, hswept'⟩

/-- After the whole loop no slot is left empty: at most one slot held the thread
    alone, and that one is removed. -/
theorem Swept.lookup_all {map : Agenda LogicalTime TimedEvent}
    {toRemove : Option LogicalTime} {found : Bool}
    (h : Swept tid s.map s.map.toList (map, toRemove, found)) (hs : Sound controlled s)
    (t : LogicalTime) :
    (match toRemove with
      | some time => map.erase time
      | none => map)[t]? = (s.map[t]?.map (·.erase (.threadEvt tid))).filter (· ≠ ∅) := by
  have hlk : map[t]? = s.map[t]?.map (·.erase (.threadEvt tid)) := by
    have hlk := h.lookup t
    rw [hlk]
    split_ifs with hmem
    · rfl
    · cases hset : s.map[t]? with
      | none => rfl
      | some set =>
        refine absurd ?_ hmem
        exact List.mem_map.mpr ⟨(t, set), (mem_toList _ _ _).mpr hset, rfl⟩
  have halone : ∀ (t : LogicalTime) (set : Finset TimedEvent), s.map[t]? = some set →
      set.erase (.threadEvt tid) = ∅ → Pending s t (.threadEvt tid) := by
    intro t set hset hemp
    refine Agenda.mem_slot.mpr ⟨set, hset, ?_⟩
    by_contra hnot
    rw [Finset.erase_eq_of_notMem hnot] at hemp
    exact (hs.tidy t set hset).ne_empty hemp
  cases toRemove with
  | none =>
    rw [hlk]
    cases hset : s.map[t]? with
    | none => rfl
    | some set =>
      have hne := h.rest rfl t set ((mem_toList _ _ _).mpr hset)
      simp [Option.filter_some, hne]
  | some time =>
    rw [getElem?_erase_ite, hlk]
    obtain ⟨set₀, hmem, hemp⟩ := h.emptied time rfl
    have hset₀ := (mem_toList _ _ _).mp hmem
    by_cases heq : time = t
    · subst heq
      rw [if_pos rfl, hset₀]
      simp [Option.filter_some, hemp]
    · rw [if_neg heq]
      cases hset : s.map[t]? with
      | none => rfl
      | some set =>
        have hne : set.erase (.threadEvt tid) ≠ ∅ := by
          intro hemp'
          exact heq (hs.thread time t tid (halone time set₀ hset₀ hemp) (halone t set hset hemp'))
        simp [Option.filter_some, hne]

theorem remove_spec (hs : Sound controlled s) (tid : DetTid) :
    ∃ s', s.remove tid = .ok s' ∧ Unrelated s s' := by
  have hsta : Swept tid s.map [] (s.map, none, false) := by
    refine ⟨fun t => by simp, ?_, ?_, ?_⟩
    · intro t h
      cases h
    · intro _ t set h
      cases h
    · intro h
      cases h
  obtain ⟨⟨map, toRemove, found⟩, hfold, hswept⟩ := sweep_spec hs rfl hsta
  have hlk := hswept.lookup_all hs
  generalize hmap' : (match toRemove with
    | some time => map.erase time
    | none => map) = map' at hlk
  have hpen : ∀ t evt, Pending { s with map := map' } t evt ↔
      Pending s t evt ∧ evt ≠ .threadEvt tid := by
    intro t evt
    unfold Pending Agenda.slot
    rw [hlk]
    cases hset : s.map[t]? with
    | none => simp
    | some set =>
      by_cases hemp : set.erase (.threadEvt tid) = ∅
      · have hnone : evt ∈ set.erase (.threadEvt tid) ↔ False := by simp [hemp]
        rw [Finset.mem_erase, and_comm] at hnone
        simpa [Option.filter_some, hemp] using hnone
      · simp [Option.filter_some, hemp, and_comm]
  refine ⟨{ s with map := map' }, bind_eq_ok.mpr ⟨_, hfold, by rw [← hmap']; rfl⟩, ?_, ?_, ?_,
    fun _ => rfl, fun _ => rfl⟩
  · intro t events ht
    rw [hlk] at ht
    exact Finset.nonempty_iff_ne_empty.mpr (by simpa using (Option.filter_eq_some_iff.mp ht).2)
  · intro t t' tid' h h'
    exact hs.thread t t' tid' ((hpen _ _).mp h).1 ((hpen _ _).mp h').1
  · intro id t target sig _
    rw [hpen]
    simp

/-! ## Expirations -/

theorem pending_put_erase (s : TimedEvents) (time t : LogicalTime) (evt evt' : TimedEvent) :
    Pending { s with map := s.map.put time ((s.map.slot time).erase evt) } t evt' ↔
      Pending s t evt' ∧ ¬ (t = time ∧ evt' = evt) := by
  unfold Pending
  rw [Agenda.slot_put]
  by_cases heq : time = t
  · subst heq
    rw [if_pos rfl, Finset.mem_erase]
    simp [and_comm]
  · rw [if_neg heq]
    simp [Ne.symm heq]

section

variable (hs : Sound controlled s)
include hs

theorem popIfBefore_spec (currentTime : LogicalTime) : s.popIfBefore currentTime = .ok (s, none) ∨
      ∃ time evt, Pending s time evt ∧ time ≤ currentTime ∧ s.popIfBefore currentTime =
        .ok (({ s with map := s.map.put time ((s.map.slot time).erase evt) }).afterPop time evt,
          some (time, evt)) := by
  unfold popIfBefore
  cases hhead : s.map.toList.head? with
  | none => exact .inl rfl
  | some entry =>
    obtain ⟨time, set⟩ := entry
    dsimp only
    have hset : s.map[time]? = some set :=
      (mem_toList _ _ _).mp (List.mem_of_head? hhead)
    have hslot := Agenda.slot_eq_of_getElem? hset
    by_cases hle : time ≤ currentTime
    · rw [if_pos hle]
      cases hfirst : first set with
      | none => exact absurd (first_eq_none.mp hfirst) (hs.tidy time set hset).ne_empty
      | some evt =>
        refine .inr ⟨time, evt, ?_, hle, ?_⟩
        · exact Agenda.mem_slot.mpr ⟨set, hset, first_mem hfirst⟩
        · rw [hslot]
          rfl
    · rw [if_neg hle]
      exact .inl rfl

theorem recur_spec {state : SignalTimerState}
    (hst : s.signalTimers[id]? = some state) (hph : state.phase = .active)
    (hevt : evt = .signalEvt id state.target state.sig) :
    Replaced s (({ s with
      map := s.map.put state.deadline ((s.map.slot state.deadline).erase evt) }).recur
        state.deadline id evt) id (recurred state) := by
  have honly := hs.only hst hph
  obtain ⟨hid, -⟩ := hs.legacy_of_record hst
  have hclr : Cleared s { s with
      map := s.map.put state.deadline ((s.map.slot state.deadline).erase evt) } id := by
    refine ⟨fun htidy => htidy.put _ _, ?_, rfl, rfl⟩
    intro t evt'
    rw [pending_put_erase]
    refine and_congr_right ?_
    intro hpend
    cases htimer : evt'.isTimer id with
    | false =>
      refine iff_of_true ?_ rfl
      rintro ⟨-, rfl⟩
      rw [hevt] at htimer
      simp [isTimer_signalEvt] at htimer
    | true =>
      obtain ⟨target, sig, rfl⟩ := eq_signalEvt_of_isTimer htimer
      obtain ⟨ht, huniq⟩ := honly t target sig hpend
      refine iff_of_false ?_ nofun
      intro hnot
      refine hnot ⟨ht, ?_⟩
      have hpend' : Pending s t (.signalEvt id state.target state.sig) := by
        rw [ht]
        exact (hs.signal id _ _ _ hid).mpr (.inl ⟨state, hst, hph, rfl, rfl, rfl⟩)
      obtain ⟨htgt, hsig⟩ := huniq _ _ hpend'
      rw [hevt, htgt, hsig]
  unfold recur recurred
  rw [hst]
  dsimp only
  rw [if_neg (not_not.mpr rfl)]
  by_cases hzero : state.interval = .zero
  · rw [if_pos hzero, if_pos hzero]
    refine hclr.replaced rfl hs.tidy rfl ?_ rfl
    exact fun id' => getElem?_erase_record _ _ id'
  · rw [if_neg hzero, if_neg hzero]
    refine hclr.replaced rfl hs.tidy ?_ ?_ rfl
    · unfold scheduled
      dsimp only
      rw [if_pos hph, hevt]
    · exact fun id' => getElem?_insert_record _ _ id' _

theorem Sound.unrelated_put (time : LogicalTime) (evt : TimedEvent)
    (hevt : ∀ id : SignalTimerId, id.isChildExit = false → evt.isTimer id = false) :
    Unrelated s { s with map := s.map.put time ((s.map.slot time).erase evt) } := by
  refine ⟨hs.tidy.put _ _, ?_, ?_, fun _ => rfl, fun _ => rfl⟩
  · intro t t' tid h h'
    exact hs.thread t t' tid ((pending_put_erase s _ _ _ _).mp h).1
      ((pending_put_erase s _ _ _ _).mp h').1
  · intro id t target sig hid
    rw [pending_put_erase]
    refine ⟨And.left, fun h => ⟨h, ?_⟩⟩
    rintro ⟨-, rfl⟩
    have htimer := hevt id hid
    simp [isTimer_signalEvt] at htimer

theorem Sound.replacedReal_put {time : LogicalTime}
    (hdl : s.controlledRealTimerDeadlines[pid]? = some time) :
    ReplacedReal s { s with
      map := s.map.put time ((s.map.slot time).erase (controlledEvt pid))
      controlledRealTimerDeadlines := s.controlledRealTimerDeadlines.erase pid } pid none := by
  refine ⟨hs.tidy.put _ _, ?_, rfl, ?_⟩
  · intro t evt
    refine (pending_put_erase s time t (controlledEvt pid) evt).trans ?_
    constructor
    · rintro ⟨hpend, hne⟩
      refine .inl ⟨hpend, ?_⟩
      cases htimer : evt.isTimer (.alarm pid) with
      | false => rfl
      | true =>
        obtain ⟨target, sig, rfl⟩ := eq_signalEvt_of_isTimer htimer
        have hcal := (hs.signal (.alarm pid) t target sig rfl).mp hpend
        have hcont : Calls s (.alarm pid) time (.process pid) (.send .sigalrm) :=
          .inr ⟨pid, rfl, hdl, rfl, rfl⟩
        obtain ⟨ht, htgt, hsig⟩ := hs.calls_unique hcal hcont
        exact absurd ⟨ht, by rw [htgt, hsig]; rfl⟩ hne
    · rintro (⟨hpend, htimer⟩ | ⟨hnone, -⟩)
      · refine ⟨hpend, ?_⟩
        rintro ⟨-, rfl⟩
        simp [controlledEvt, isTimer_signalEvt] at htimer
      · cases hnone
  · intro pid'
    rw [getElem?_erase_ite]
    simp only [eq_comm]

/-- Popping a pending event keeps the invariant, and makes the timer that it
    belongs to recur. -/
theorem afterPop_spec {time : LogicalTime} (hpend : Pending s time evt) {s₁ : TimedEvents}
    (hs₁ : s₁ = { s with map := s.map.put time ((s.map.slot time).erase evt) }) :
    Sound controlled (s₁.afterPop time evt) ∧
      ∀ id : SignalTimerId, (s₁.afterPop time evt).signalTimers[id]? =
        if evt.isTimer id = true then s.signalTimers[id]?.bind recurred
        else s.signalTimers[id]? := by
  cases evt with
  | threadEvt tid =>
    have hrel := hs.unrelated_put time (.threadEvt tid) (fun _ _ => rfl)
    rw [← hs₁] at hrel
    exact ⟨hrel.sound hs, hrel.timers⟩
  | signalEvt id target sig =>
    cases hid : id.isChildExit with
    | true =>
      have hnone := hs.childExit id hid
      have hrel := hs.unrelated_put time (.signalEvt id target sig) (by
        intro id' hid'
        rw [isTimer_signalEvt, decide_eq_false_iff_not]
        rintro rfl
        rw [hid] at hid'
        cases hid')
      rw [← hs₁] at hrel
      have hpop : s₁.afterPop time (.signalEvt id target sig) = s₁ := by
        have hrecur : s₁.recur time id (.signalEvt id target sig) = s₁ := by
          unfold recur
          rw [hrel.timers, hnone]
        cases id with
        | childExit => exact hrecur
        | alarm pid => cases hid
        | posix => cases hid
      rw [hpop]
      refine ⟨hrel.sound hs, ?_⟩
      intro id'
      rw [hrel.timers, isTimer_signalEvt]
      by_cases heq : id = id'
      · subst heq
        simp [hnone]
      · simp [heq]
    | false =>
      rcases (hs.signal id time target sig hid).mp hpend with
        ⟨state, hst, hph, rfl, rfl, rfl⟩ | ⟨pid, rfl, hdl, rfl, rfl⟩
      · obtain ⟨-, hleg⟩ := hs.legacy_of_record hst
        have hrepl := recur_spec hs hst hph rfl
        rw [← hs₁] at hrepl
        have hpop : s₁.afterPop state.deadline (.signalEvt id state.target state.sig) =
            s₁.recur state.deadline id (.signalEvt id state.target state.sig) := by
          cases id with
          | childExit => cases hid
          | posix => rfl
          | alarm pid =>
            unfold afterPop
            have hnone : s₁.controlledRealTimerDeadlines[pid]? = none := by
              rw [hs₁]
              exact hs.real pid (hleg pid rfl)
            dsimp only
            rw [hnone, if_neg nofun]
        rw [hpop]
        refine ⟨hrepl.sound hs hid hleg, ?_⟩
        intro id'
        rw [hrepl.timers, isTimer_signalEvt]
        by_cases heq : id = id'
        · subst heq
          simp [hst]
        · simp [heq, Ne.symm heq]
      · have hpid : controlled pid = true := by
          by_contra hne
          rw [hs.real pid (Bool.not_eq_true _ ▸ hne)] at hdl
          cases hdl
        have hrepl := hs.replacedReal_put hdl
        have hpop : s₁.afterPop time (.signalEvt (.alarm pid) (.process pid) (.send .sigalrm)) =
            { s with
              map := s.map.put time ((s.map.slot time).erase (controlledEvt pid))
              controlledRealTimerDeadlines := s.controlledRealTimerDeadlines.erase pid } := by
          unfold afterPop
          rw [hs₁]
          dsimp only
          rw [if_pos hdl]
          rfl
        rw [hpop]
        refine ⟨hrepl.sound hs hpid, ?_⟩
        intro id'
        rw [isTimer_signalEvt]
        by_cases heq : SignalTimerId.alarm pid = id'
        · subst heq
          simp [hs.legacy pid hpid]
        · simp [heq]

end

/-! ## Steps -/

def isPosixOf (dp : DetPid) : SignalTimerId → Bool
  | .posix pid _ => pid = dp
  | _ => false

def recordAfter (id : SignalTimerId) (op : TimedOp) (out : TimedOut)
    (old : Option SignalTimerState) : Option SignalTimerState :=
  match op, out with
  | .insertAlarm ns dp dt sig interval, _ =>
    if id = .alarm dp then some ⟨ns, interval, .active, .process dt, .send sig⟩ else old
  | .insertPosixTimer ns dp target timerId sig interval, _ =>
    if id = .posix dp timerId then some ⟨ns, interval, .active, target, sig⟩ else old
  | .removeAlarm dp, _ => if id = .alarm dp then none else old
  | .removePosixTimer dp timerId, _ => if id = .posix dp timerId then none else old
  | .removePosixTimers dp, _ => if isPosixOf dp id then none else old
  | .removeProcessTimers dp, _ => if id.owner = some dp then none else old
  | .signalTimerAfterFire id' firedAt inactiveWithCopy now, _ =>
    if id = id' then old.map (afterFire firedAt inactiveWithCopy now) else old
  | .signalTimerRearmAfter id' t, _ => if id = id' then old.map (rearmAfter t) else old
  | .alarmSetCopy dp copy, _ => if id = .alarm dp then old.map (setCopy copy) else old
  | .popIfBefore _, .popped (some (_, evt)) => if evt.isTimer id then old.bind recurred else old
  | .pop, .popped (some (_, evt)) => if evt.isTimer id then old.bind recurred else old
  | _, _ => old

/-- What an operation keeps and what it does to the timers. -/
structure Stepped (controlled : DetPid → Bool) (s : TimedEvents) (op : TimedOp) (s' : TimedEvents)
    (out : TimedOut) : Prop where
  sound : Sound controlled s'
  record : ∀ id : SignalTimerId, s'.signalTimers[id]? = recordAfter id op out s.signalTimers[id]?
  popped : ∀ time evt, out.event = some (time, evt) →
    Pending s time evt ∧ ((∃ currentTime, op = .popIfBefore currentTime ∧ time ≤ currentTime) ∨
      op = .pop)

theorem Stepped.of_quiet (hsound : Sound controlled s') (hrec : ∀ id : SignalTimerId,
      s'.signalTimers[id]? = recordAfter id op out s.signalTimers[id]?)
    (hout : out.event = none) : Stepped controlled s op s' out := by
  refine ⟨hsound, hrec, ?_⟩
  intro time evt heve
  rw [hout] at heve
  cases heve

theorem Unrelated.stepped (h : Unrelated s s')
    (hs : Sound controlled s) (hrec : ∀ id old, recordAfter id op out old = old)
    (hout : out.event = none) : Stepped controlled s op s' out := by
  refine .of_quiet (h.sound hs) ?_ hout
  intro id
  rw [hrec, h.timers]

theorem stepped_of_record {f : SignalTimerState → SignalTimerState}
    (hs : Sound controlled s) (hnone : s.signalTimers[id]? = none → s' = s)
    (hsome : ∀ state, s.signalTimers[id]? = some state → Replaced s s' id (some (f state)))
    (hrec : ∀ id' old, recordAfter id' op out old = if id' = id then old.map f else old)
    (hout : out.event = none) : Stepped controlled s op s' out := by
  cases hst : s.signalTimers[id]? with
  | none =>
    obtain rfl := hnone hst
    refine .of_quiet hs ?_ hout
    intro id'
    rw [hrec]
    split_ifs with heq
    · rw [heq, hst]
      rfl
    · rfl
  | some state =>
    obtain ⟨hid, hleg⟩ := hs.legacy_of_record hst
    have hrepl := hsome state hst
    refine .of_quiet (hrepl.sound hs hid hleg) ?_ hout
    intro id'
    rw [hrec, hrepl.timers]
    split_ifs with heq
    · rw [heq, hst]
      rfl
    · rfl

theorem popIfBefore_stepped (hs : Sound controlled s) (currentTime : LogicalTime)
    (hop : op = .popIfBefore currentTime ∨ op = .pop) :
    ∃ s' event, s.popIfBefore currentTime = .ok (s', event) ∧
      Stepped controlled s op s' (.popped event) := by
  have hkeep : ∀ id old, recordAfter id op (.popped none) old = old := by
    rcases hop with rfl | rfl <;> exact fun _ _ => rfl
  have hrecur : ∀ id time evt old, recordAfter id op (.popped (some (time, evt))) old =
      if evt.isTimer id = true then old.bind recurred else old := by
    rcases hop with rfl | rfl <;> exact fun _ _ _ _ => rfl
  rcases popIfBefore_spec hs currentTime with hnone | ⟨time, evt, hpend, hle, hsome⟩
  · refine ⟨s, none, hnone, hs, fun id => (hkeep id _).symm, ?_⟩
    intro time evt hpopp
    cases hpopp
  · obtain ⟨hsound, hrecs⟩ := afterPop_spec hs hpend rfl
    refine ⟨_, _, hsome, hsound, ?_, ?_⟩
    · intro id
      rw [hrecur, hrecs]
    · intro time' evt' hpopp
      cases hpopp
      refine ⟨hpend, ?_⟩
      rcases hop with rfl | rfl
      · exact .inl ⟨currentTime, rfl, hle⟩
      · exact .inr rfl

/-- The deadline of a process without the controlled timer is absent. -/
theorem removeControlledRealTimerDeadline_sound (hs : Sound controlled s) (pid : DetPid) :
    ∃ s', s.removeControlledRealTimerDeadline pid = .ok s' ∧ Sound controlled s' ∧
      ∀ id : SignalTimerId, s'.signalTimers[id]? = s.signalTimers[id]? := by
  cases hpid : controlled pid with
  | true =>
    obtain ⟨s', hok, hrepl⟩ := removeControlledRealTimerDeadline_spec hs hpid
    exact ⟨s', hok, hrepl.sound hs hpid, fun id => by rw [hrepl.timers]⟩
  | false =>
    obtain ⟨s', hok, hrel⟩ := removeControlledRealTimerDeadline_absent hs hpid
    exact ⟨s', hok, hrel.sound hs, hrel.timers⟩

/-- Every operation that its callers may perform succeeds, keeps the invariant and
    moves each timer as `recordAfter` says. -/
theorem step_spec (hs : Sound controlled s) (hp : Proper controlled s op) :
    ∃ s' out, s.step op = .ok (s', out) ∧ Stepped controlled s op s' out := by
  cases op with
  | insert ns dt =>
    obtain ⟨s', hok, hrel⟩ := insert_spec hs hp ns
    exact ⟨s', .unit, map_eq_ok.mpr ⟨s', hok, rfl⟩, hrel.stepped hs (fun _ _ => rfl) rfl⟩
  | insertAlarm ns dp dt sig interval =>
    have hleg : ∀ pid, SignalTimerId.alarm dp = .alarm pid → controlled pid = false := by
      rintro pid ⟨⟩
      exact hp
    obtain ⟨s', hok, hrepl⟩ :=
      insertSignalTimer_spec hs rfl hleg ns (.process dt) (.send sig) interval
    refine ⟨s', _, map_eq_ok.mpr ⟨_, bind_eq_ok.mpr ⟨_, hok, rfl⟩, rfl⟩, ?_⟩
    exact .of_quiet (hrepl.sound hs rfl hleg) hrepl.timers rfl
  | insertControlledRealTimerDeadline deadline pid =>
    obtain ⟨s', hok, hrepl⟩ := insertControlledRealTimerDeadline_spec hs hp deadline
    refine ⟨s', .unit, map_eq_ok.mpr ⟨s', hok, rfl⟩, .of_quiet (hrepl.sound hs hp) ?_ rfl⟩
    intro id
    rw [hrepl.timers]
    rfl
  | removeControlledRealTimerDeadline pid =>
    obtain ⟨s', hok, hsound, hrecs⟩ := removeControlledRealTimerDeadline_sound hs pid
    exact ⟨s', .unit, map_eq_ok.mpr ⟨s', hok, rfl⟩, .of_quiet hsound hrecs rfl⟩
  | removeAlarm dp =>
    cases hst : s.signalTimers[SignalTimerId.alarm dp]? with
    | none =>
      obtain ⟨s', hok, hrel⟩ := removeSignalTimer_absent hs hst
      refine ⟨s', _, map_eq_ok.mpr ⟨_, bind_eq_ok.mpr ⟨_, hok, rfl⟩, rfl⟩,
        .of_quiet (hrel.sound hs) ?_ rfl⟩
      intro id
      rw [hrel.timers]
      show _ = if id = .alarm dp then none else s.signalTimers[id]?
      split_ifs with heq
      · rw [heq, hst]
      · rfl
    | some state =>
      obtain ⟨hid, hleg⟩ := hs.legacy_of_record hst
      obtain ⟨s', hok, hrepl⟩ := removeSignalTimer_spec hs hid hleg
      refine ⟨s', _, map_eq_ok.mpr ⟨_, bind_eq_ok.mpr ⟨_, hok, rfl⟩, rfl⟩, ?_⟩
      exact .of_quiet (hrepl.sound hs hid hleg) hrepl.timers rfl
  | insertChildExit ns child parent parentTid =>
    have hrel := insertChildExit_spec hs ns child parent parentTid
    exact ⟨_, .unit, rfl, hrel.stepped hs (fun _ _ => rfl) rfl⟩
  | insertPosixTimer ns dp target timerId sig interval =>
    have hleg : ∀ pid, SignalTimerId.posix dp timerId = .alarm pid → controlled pid = false :=
      nofun
    obtain ⟨s', hok, hrepl⟩ := insertSignalTimer_spec hs rfl hleg ns target sig interval
    refine ⟨s', .unit, map_eq_ok.mpr ⟨s', bind_eq_ok.mpr ⟨_, hok, rfl⟩, rfl⟩, ?_⟩
    exact .of_quiet (hrepl.sound hs rfl hleg) hrepl.timers rfl
  | removePosixTimer dp timerId =>
    have hleg : ∀ pid, SignalTimerId.posix dp timerId = .alarm pid → controlled pid = false :=
      nofun
    obtain ⟨s', hok, hrepl⟩ := removeSignalTimer_spec hs rfl hleg
    refine ⟨s', .unit, map_eq_ok.mpr ⟨s', bind_eq_ok.mpr ⟨_, hok, rfl⟩, rfl⟩, ?_⟩
    exact .of_quiet (hrepl.sound hs rfl hleg) hrepl.timers rfl
  | removePosixTimers dp =>
    obtain ⟨s', hok, hsound, hrecs⟩ := removeFiltered_spec hs (isPosixOf dp)
    exact ⟨s', .unit, map_eq_ok.mpr ⟨s', hok, rfl⟩, .of_quiet hsound hrecs rfl⟩
  | signalTimerAfterFire id firedAt inactiveWithCopy now =>
    cases hst : s.signalTimers[id]? with
    | none =>
      have hok : s.signalTimerAfterFire id firedAt inactiveWithCopy now = .ok s := by
        unfold signalTimerAfterFire
        rw [hst]
        rfl
      refine ⟨s, .unit, map_eq_ok.mpr ⟨s, hok, rfl⟩, stepped_of_record hs (fun _ => rfl) ?_
        (fun _ _ => rfl) rfl⟩
      intro state hsome
      rw [hst] at hsome
      cases hsome
    | some state =>
      obtain ⟨s', hok, hrepl⟩ :=
        signalTimerAfterFire_spec hs hst firedAt inactiveWithCopy now
      refine ⟨s', .unit, map_eq_ok.mpr ⟨s', hok, rfl⟩, stepped_of_record hs ?_ ?_
        (fun _ _ => rfl) rfl⟩
      · intro hnone
        rw [hst] at hnone
        cases hnone
      · intro state' hsome
        rw [hst] at hsome
        cases hsome
        exact hrepl
  | signalTimerRearmAfter id t =>
    refine ⟨_, _, rfl, stepped_of_record hs ?_ ?_ (fun _ _ => rfl) rfl⟩
    · intro hnone
      unfold signalTimerRearmAfter
      rw [hnone]
    · intro state hst
      exact (signalTimerRearmAfter_spec hs hst t).1
  | alarmSetCopy dp copy =>
    refine ⟨_, .unit, rfl, stepped_of_record hs ?_ ?_ (fun _ _ => rfl) rfl⟩
    · intro hnone
      unfold alarmSetCopy
      rw [hnone]
    · intro state hst
      exact alarmSetCopy_spec hs hst copy
  | removeProcessTimers dp =>
    obtain ⟨s₁, hok₁, hs₁, hrecs₁⟩ := removeControlledRealTimerDeadline_sound hs dp
    obtain ⟨s', hok, hsound, hrecs⟩ := removeFiltered_spec hs₁ (fun id => id.owner = some dp)
    have hrmv : s.removeProcessTimers dp = .ok s' := bind_eq_ok.mpr ⟨s₁, hok₁, hok⟩
    refine ⟨s', .unit, map_eq_ok.mpr ⟨s', hrmv, rfl⟩, .of_quiet hsound ?_ rfl⟩
    intro id
    rw [hrecs, hrecs₁]
    simp only [decide_eq_true_eq]
    rfl
  | popIfBefore currentTime =>
    obtain ⟨s', event, hok, hste⟩ := popIfBefore_stepped hs currentTime (.inl rfl)
    exact ⟨s', .popped event, map_eq_ok.mpr ⟨_, hok, rfl⟩, hste⟩
  | pop =>
    obtain ⟨s', event, hok, hste⟩ := popIfBefore_stepped hs .max (.inr rfl)
    exact ⟨s', .popped event, map_eq_ok.mpr ⟨_, hok, rfl⟩, hste⟩
  | remove dettid =>
    obtain ⟨s', hok, hrel⟩ := remove_spec hs dettid
    exact ⟨s', .unit, map_eq_ok.mpr ⟨s', hok, rfl⟩, hrel.stepped hs (fun _ _ => rfl) rfl⟩

/-! ## Runs -/

theorem reaches_sound (h : Reaches step (Proper controlled) new s) : Sound controlled s := by
  refine h.invariant (Sound controlled) (sound_new controlled) ?_
  intro s op s' out hs hp hstep
  obtain ⟨s'', out', hok, hste⟩ := step_spec hs hp
  rw [hstep] at hok
  cases hok
  exact hste.sound

def expirations (s : TimedEvents) (id : SignalTimerId) : Set (LogicalTime × TimedEvent) :=
  { p | Pending s p.1 p.2 ∧ p.2.isTimer id = true }

theorem mem_expirations : (t, evt) ∈ s.expirations id ↔
    ∃ target sig, evt = .signalEvt id target sig ∧ Pending s t evt := by
  constructor
  · rintro ⟨hpend, htimer⟩
    obtain ⟨target, sig, rfl⟩ := eq_signalEvt_of_isTimer htimer
    exact ⟨target, sig, rfl, hpend⟩
  · rintro ⟨target, sig, rfl, hpend⟩
    exact ⟨hpend, by simp [isTimer_signalEvt]⟩

theorem Sound.expirations_eq (hs : Sound controlled s) {target : SignalTarget} {sig : TimerSignal}
    (hid : id.isChildExit = false) (hcal : Calls s id t target sig) :
    s.expirations id = {(t, .signalEvt id target sig)} := by
  ext ⟨t', evt⟩
  rw [mem_expirations, Set.mem_singleton_iff, Prod.mk.injEq]
  constructor
  · rintro ⟨target', sig', rfl, hpend⟩
    obtain ⟨rfl, rfl, rfl⟩ := hs.calls_unique ((hs.signal id t' target' sig' hid).mp hpend) hcal
    exact ⟨rfl, rfl⟩
  · rintro ⟨rfl, rfl⟩
    exact ⟨target, sig, rfl, (hs.signal id t' target sig hid).mpr hcal⟩

theorem Sound.expirations_empty (hs : Sound controlled s) (hid : id.isChildExit = false)
    (hcal : ∀ t target sig, ¬ Calls s id t target sig) : s.expirations id = ∅ := by
  ext ⟨t, evt⟩
  rw [mem_expirations]
  constructor
  · rintro ⟨target, sig, rfl, hpend⟩
    exact absurd ((hs.signal id t target sig hid).mp hpend) (hcal t target sig)
  · exact False.elim

theorem Sound.expirations_inactive (hs : Sound controlled s) {state : SignalTimerState}
    (hst : s.signalTimers[id]? = some state) (hph : state.phase ≠ .active) :
    s.expirations id = ∅ := by
  obtain ⟨hid, hleg⟩ := hs.legacy_of_record hst
  refine hs.expirations_empty hid ?_
  rintro t target sig (⟨state', hst', hph', -⟩ | ⟨pid, hpid, hdl, -⟩)
  · rw [hst] at hst'
    cases hst'
    exact hph hph'
  · rw [hs.real pid (hleg pid hpid)] at hdl
    cases hdl

instance (controlled : DetPid → Bool) (s : TimedEvents) (op : TimedOp) :
    Decidable (Proper controlled s op) :=
  match op with
  | .insert _ dt => inferInstanceAs (Decidable (s.threadDeadline dt = none))
  | .insertAlarm _ dp _ _ _ => inferInstanceAs (Decidable (controlled dp = false))
  | .insertControlledRealTimerDeadline _ pid => inferInstanceAs (Decidable (controlled pid = true))
  | .removeControlledRealTimerDeadline .. | .removeAlarm .. | .insertChildExit .. => instDecidableTrue
  | .insertPosixTimer .. | .removePosixTimer .. | .removePosixTimers .. => instDecidableTrue
  | .signalTimerAfterFire .. | .signalTimerRearmAfter .. | .alarmSetCopy .. => instDecidableTrue
  | .removeProcessTimers .. | .popIfBefore .. | .pop | .remove .. => instDecidableTrue

/-- **The timed events agree with the timers**, along every sequence of operations
    in which a process uses either its legacy alarm or its controlled one and a
    thread event is inserted only for a thread that has none. No slot is empty.
    An active timer has one pending event, at its deadline and with its target and
    signal; an inactive one has none. A controlled deadline has one event. There
    are no other events of alarms and POSIX timers, and no operation fails. -/
theorem timed_events_sound (controlled : DetPid → Bool) (s : TimedEvents)
    (hreach : Reaches step (Proper controlled) new s) :
    (∀ (t : LogicalTime) (events : Finset TimedEvent), s.map[t]? = some events → events.Nonempty) ∧
    (∀ (id : SignalTimerId) (state : SignalTimerState), s.signalTimers[id]? = some state →
      state.phase = .active →
        s.expirations id = {(state.deadline, .signalEvt id state.target state.sig)}) ∧
    (∀ (id : SignalTimerId) (state : SignalTimerState), s.signalTimers[id]? = some state →
      state.phase ≠ .active → s.expirations id = ∅) ∧
    (∀ (pid : DetPid) (t : LogicalTime), s.controlledRealTimerDeadlines[pid]? = some t →
      s.expirations (.alarm pid) = {(t, controlledEvt pid)}) ∧
    (∀ id : SignalTimerId, id.isChildExit = false → s.signalTimers[id]? = none →
      (∀ pid, id = .alarm pid → s.controlledRealTimerDeadlines[pid]? = none) →
        s.expirations id = ∅) ∧
    ∀ op, Proper controlled s op → ∃ s' out, s.step op = .ok (s', out) := by
  have hs := reaches_sound hreach
  refine ⟨hs.tidy, ?_, ?_, ?_, ?_, ?_⟩
  · intro id state hst hph
    exact hs.expirations_eq (hs.legacy_of_record hst).1 (.inl ⟨state, hst, hph, rfl, rfl, rfl⟩)
  · intro id state hst hph
    exact hs.expirations_inactive hst hph
  · intro pid t hdl
    exact hs.expirations_eq rfl (.inr ⟨pid, rfl, hdl, rfl, rfl⟩)
  · intro id hid hnone hreal
    refine hs.expirations_empty hid ?_
    rintro t target sig (⟨state, hst, -⟩ | ⟨pid, hpid, hdl, -⟩)
    · rw [hnone] at hst
      cases hst
    · rw [hreal pid hpid] at hdl
      cases hdl
  · intro op hp
    obtain ⟨s', out, hok, -⟩ := step_spec hs hp
    exact ⟨s', out, hok⟩

/-- A process arms a periodic alarm and a periodic POSIX timer, which fires and then
    waits for its dequeue; another process has a controlled deadline. -/
def inactivePosix : List TimedOp :=
  [.insert (.clamp 9) 5, .insertAlarm (.clamp 6) 1 1 .sigalrm (.clamp 3),
    .insertPosixTimer (.clamp 4) 1 (.thread 1) 7 (.send .sigusr1) (.clamp 2),
    .insertControlledRealTimerDeadline (.clamp 8) 2, .popIfBefore (.clamp 5),
    .signalTimerAfterFire (.posix 1 7) (.clamp 4) (some true) (.clamp 5)]

theorem timed_events_sound_inactivePosix : ∃ s : TimedEvents, Reaches step (Proper (· = 2)) new s ∧
    (s.signalTimers[SignalTimerId.posix 1 7]?.map SignalTimerState.phase = some (.inactive true) ∧
      s.controlledRealTimerDeadlines[(2 : DetPid)]? = some (.clamp 8)) ∧
    s.expirations (.posix 1 7) = ∅ ∧ s.expirations (.alarm 2) = {(.clamp 8, controlledEvt 2)} := by
  obtain ⟨s, hreach, hposix, hdl⟩ := exists_reaches inactivePosix (fun s : TimedEvents =>
      s.signalTimers[SignalTimerId.posix 1 7]?.map SignalTimerState.phase =
        some (.inactive true) ∧ s.controlledRealTimerDeadlines[(2 : DetPid)]? = some (.clamp 8))
    (by decide +kernel : (arrive step (Proper (· = 2)) new inactivePosix).any _ = true)
  obtain ⟨-, -, hinac, hcont, -⟩ := timed_events_sound (· = 2) s hreach
  obtain ⟨state, hst, hph⟩ := Option.map_eq_some_iff.mp hposix
  have hnotA : state.phase ≠ .active := by
    rw [hph]
    decide
  exact ⟨s, hreach, ⟨hposix, hdl⟩, hinac _ state hst hnotA, hcont 2 _ hdl⟩

end TimedEvents

end Hermit.Scheduler
