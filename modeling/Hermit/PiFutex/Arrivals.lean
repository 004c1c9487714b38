import Hermit.PiFutex.Requeue

/-!
# Futex queues over whole runs

Every step of the scheduler lets threads leave futex queues, and lets threads that are not
queued join the tail of one. A thread that leaves sleeps no more, unless it moved.

* `Advances.step`: what one event does to all queues.
* `futex_queues_in_order`
-/

namespace Hermit.PiFutex

open Common OrdMap List

namespace State

/-- The threads queued on a futex, in order. -/
def tids (s : State) (futex : FutexID) : List DetTid := (s.queue futex).map (·.dettid)

/-- Threads leave queues, and a thread that still sleeps keeps its place. -/
structure Sheds (s s' : State) : Prop where
  order : ∀ f, (s'.tids f).Sublist (s.tids f)
  place : ∀ t, s'.Parked t → s.Parked t ∧ ∀ f, t ∈ s.tids f → t ∈ s'.tids f

/-- Threads leave queues or join their tails, and a thread that sleeps has a place. -/
structure Advances (s s' : State) : Prop where
  order : ∀ f, ∃ kept joined, s'.tids f = kept ++ joined ∧ kept.Sublist (s.tids f) ∧
    ∀ t ∈ joined, t ∉ s.tids f
  place : ∀ t, s'.Parked t → (s.Parked t → ∃ f, t ∈ s.tids f) → ∃ f, t ∈ s'.tids f

theorem Sheds.refl (s : State) : Sheds s s := ⟨fun _ => .refl _, fun _ h => ⟨h, fun _ => id⟩⟩

variable {s s' s'' : State} {t thread : DetTid} {f : FutexID}

theorem Sheds.trans (h : Sheds s s') (h' : Sheds s' s'') : Sheds s s'' where
  order f := (h'.order f).trans (h.order f)
  place t ht := by
    obtain ⟨ht', hkeep'⟩ := h'.place t ht
    obtain ⟨ht'', hkeep⟩ := h.place t ht'
    exact ⟨ht'', fun f hf => hkeep' f (hkeep f hf)⟩

theorem Sheds.advances (h : Sheds s s') : Advances s s' where
  order f := ⟨s'.tids f, [], by simp, h.order f, fun _ ht => absurd ht not_mem_nil⟩
  place t ht hplace := by
    obtain ⟨ht', hkeep⟩ := h.place t ht
    obtain ⟨f, hf⟩ := hplace ht'
    exact ⟨f, hkeep f hf⟩

theorem Advances.refl (s : State) : Advances s s := (Sheds.refl s).advances

/-! ## Steps that only take threads off queues -/

/-- No queue changes, and nobody falls asleep. -/
theorem Sheds.of_queues (hq : ∀ f, s'.queue f = s.queue f)
    (hcal : ∀ t, s'.Parked t → s.Parked t) : Sheds s s' where
  order f := by
    unfold tids
    rw [hq]
  place t ht := by
    refine ⟨hcal t ht, fun f hf => ?_⟩
    unfold tids at hf ⊢
    rwa [hq]

/-- Only one thread may lose its place, and it does not sleep afterwards. -/
theorem Sheds.of_leaving (thread : DetTid) (horder : ∀ f, (s'.tids f).Sublist (s.tids f))
    (hkeep : ∀ f t, t ∈ s.tids f → t ≠ thread → t ∈ s'.tids f)
    (hcal : ∀ t, s'.Parked t → t ≠ thread ∧ s.Parked t) : Sheds s s' where
  order := horder
  place t ht := ⟨(hcal t ht).2, fun f hf => hkeep f t hf (hcal t ht).1⟩

theorem Trims.sheds (h : Trims s s') : Sheds s s' := by
  obtain ⟨owners, rfl, -⟩ := h
  exact Sheds.of_queues (fun _ => rfl) fun _ => id

theorem not_parked_wokenCall {call : Option Call} {pi : Option FutexID} :
    call.map wokenCall ≠ some (.parked pi) := by
  rcases call with _ | (_ | _ | _) <;> simp [wokenCall]

theorem parked_foldl_wakeFutexWaiter (waiters : List FutexWaiter)
    (h : (waiters.foldl wakeFutexWaiter s).Parked t) : t ∉ waiters.map (·.dettid) ∧ s.Parked t := by
  obtain ⟨pi, hpi⟩ := h
  rw [nextTurns_foldl_wakeFutexWaiter] at hpi
  split_ifs at hpi with hmem
  · exact absurd hpi not_parked_wokenCall
  · exact ⟨hmem, pi, hpi⟩

theorem parked_wakeFutexWaiter {waiter : FutexWaiter}
    (h : (s.wakeFutexWaiter waiter).Parked t) : t ≠ waiter.dettid ∧ s.Parked t := by
  obtain ⟨hmem, hs⟩ := parked_foldl_wakeFutexWaiter [waiter] h
  exact ⟨by simpa using hmem, hs⟩

theorem parked_setCall {call : Call}
    (hcall : ∀ pi, call ≠ .parked pi) (h : (s.setCall thread call).Parked t) :
    t ≠ thread ∧ s.Parked t := by
  obtain ⟨pi, hpi⟩ := h
  have hpi' : (s.nextTurns.insert thread call)[t]? = some (.parked pi) := hpi
  rw [getElem?_insert_ite] at hpi'
  split_ifs at hpi' with ht
  · exact absurd (Option.some.inj hpi') (hcall pi)
  · exact ⟨Ne.symm ht, pi, hpi'⟩

theorem Sheds.takeSuccessor (hs : Inv s) {how : PiHandOver}
    {successor : FutexWaiter} (h : s.takePiFutexSuccessor f how = some (successor, s')) :
    Sheds s (s'.wakeSuccessor successor) := by
  obtain ⟨before, after, hspl, htake, -, rfl⟩ := takePiFutexSuccessor_eq_some h
  have hpi : successor.pi = true := by
    unfold mayTake at htake
    rw [Bool.and_eq_true] at htake
    exact htake.1
  have hq : ∀ g, (State.wakeSuccessor (State.setPiFutexOwner { s with
        futexWaiters := setQueue s.futexWaiters f (before ++ after)
        handOvers := s.handOvers ++ [⟨f, successor,
          (s.queue f).map fun waiter => (waiter, s.doomed waiter.dettid)⟩] }
        f successor.dettid (some how)) successor).queue g =
      if g = f then before ++ after else s.queue g := by
    intro g
    unfold wakeSuccessor
    split
    · exact queue_setQueue _ _ _ _
    · rw [queue_wakeFutexWaiter]
      exact queue_setQueue _ _ _ _
  refine Sheds.of_leaving successor.dettid (fun g => ?_) (fun g t ht hne => ?_) fun t ht => ?_
  · unfold tids
    rw [hq]
    split_ifs with hg
    · subst hg
      rw [hspl]
      exact ((List.Sublist.refl before).append (sublist_cons_self successor after)).map _
    · exact .refl _
  · unfold tids at ht ⊢
    rw [hq]
    split_ifs with hg
    · subst hg
      rw [hspl, map_append, map_cons, mem_append, mem_cons] at ht
      rw [map_append, mem_append]
      rcases ht with ht | rfl | ht
      · exact .inl ht
      · exact absurd rfl hne
      · exact .inr ht
    · exact ht
  · unfold wakeSuccessor at ht
    split_ifs at ht with hwok
    · refine ⟨?_, ht⟩
      rintro rfl
      obtain ⟨pi, hpar⟩ := ht
      have hcall := hs.placed.call f successor (by rw [hspl]; simp)
      unfold callOf at hcall
      rw [if_pos hpi, if_pos hwok] at hcall
      exact absurd (hcall.symm.trans hpar) (by simp)
    · obtain ⟨hne, hpar⟩ := parked_wakeFutexWaiter ht
      exact ⟨hne, hpar⟩

theorem Sheds.handOffPiFutex (hs : Inv s) (f : FutexID) : Sheds s (s.handOffPiFutex f) := by
  unfold State.handOffPiFutex
  cases h : s.takePiFutexSuccessor f .unlock with
  | none => exact .refl s
  | some taken => exact .takeSuccessor hs h

theorem Sheds.releasePiFutex (hs : Inv s) (f : FutexID) : Sheds s (s.releasePiFutex f) := by
  unfold State.releasePiFutex
  cases h : s.takePiFutexSuccessor f .ownerDeath with
  | some taken => exact .takeSuccessor hs h
  | none => exact .of_queues (fun _ => rfl) fun _ => id

theorem Sheds.releasePiFutexesOf (hs : Inv s) (dead : DetTid) :
    Sheds s (s.releasePiFutexesOf dead) := by
  unfold State.releasePiFutexesOf
  generalize s.ownedBy dead = owned
  induction owned generalizing s with
  | nil => exact .refl s
  | cons f owned ih => exact (Sheds.releasePiFutex hs f).trans (ih (hs.releasePiFutex f))

theorem Sheds.killProcess (hs : Inv s) (process : DetPid) : Sheds s (s.killProcess process) := by
  unfold State.killProcess
  have hdoom := hs.doomProcess process
  have hsame : Sheds s { s with piDoomedProcesses := insert process s.piDoomedProcesses } :=
    .of_queues (fun _ => rfl) fun _ => id
  revert hdoom hsame
  generalize { s with piDoomedProcesses := insert process s.piDoomedProcesses } = s'
  intro hs' hsame
  dsimp only
  generalize s'.nextTurns.keys.filter _ = threads
  refine hsame.trans ?_
  clear hsame
  induction threads generalizing s' with
  | nil => exact .refl s'
  | cons thread threads ih =>
    exact (Sheds.releasePiFutexesOf hs' thread).trans (ih _ (hs'.releasePiFutexesOf thread))

/-- Only waiters of one thread are taken off, and it does not sleep afterwards. -/
theorem Sheds.retain (thread : DetTid) (p : FutexWaiter → Bool)
    (hq : ∀ f, s'.queue f = (s.queue f).filter p) (hp : ∀ w, p w = false → w.dettid = thread)
    (hcal : ∀ t, s'.Parked t → t ≠ thread ∧ s.Parked t) : Sheds s s' := by
  refine .of_leaving thread (fun f => ?_) (fun f t ht hne => ?_) hcal
  · unfold tids
    rw [hq]
    exact filter_sublist.map _
  · unfold tids at ht ⊢
    obtain ⟨w, hw, rfl⟩ := mem_map.mp ht
    rw [hq]
    refine mem_map_of_mem (mem_filter.mpr ⟨hw, ?_⟩)
    exact Bool.eq_true_of_not_eq_false fun hno => hne (hp w hno)

theorem Sheds.removeFutexWaiter (thread : DetTid)
    (hq : ∀ f, s'.queue f = (s.removeFutexWaiter thread).queue f)
    (hcal : ∀ t, s'.Parked t → t ≠ thread ∧ s.Parked t) : Sheds s s' := by
  refine .retain thread _ (fun f => (hq f).trans (queue_retain _ _ _)) (fun w hw => ?_) hcal
  simpa using hw

theorem Sheds.retire (hs : Inv s) (thread : DetTid) (cancels : Bool) :
    Sheds s (s.retire thread cancels) := by
  unfold State.retire
  have hkill : Inv (if cancels then
      { s with logicallyKilledThreads := insert thread s.logicallyKilledThreads } else s) ∧
      Sheds s (if cancels then
        { s with logicallyKilledThreads := insert thread s.logicallyKilledThreads } else s) := by
    cases cancels with
    | true => exact ⟨hs.killLogically thread, .of_queues (fun _ => rfl) fun _ => id⟩
    | false => exact ⟨hs, .refl s⟩
  revert hkill
  generalize (if cancels then
      { s with logicallyKilledThreads := insert thread s.logicallyKilledThreads } else s) = s'
  rintro ⟨hs', hsame⟩
  have hleft : Sheds s' { s'.removeFutexWaiter thread with
      nextTurns := (s'.removeFutexWaiter thread).nextTurns.erase thread } := by
    refine .removeFutexWaiter thread (fun _ => rfl) fun t ht => ?_
    obtain ⟨pi, hpi⟩ := ht
    have hpi' : (s'.nextTurns.erase thread)[t]? = some (.parked pi) := hpi
    rw [getElem?_erase_ite] at hpi'
    split_ifs at hpi' with hne
    exact ⟨Ne.symm hne, pi, hpi'⟩
  refine (hsame.trans hleft).trans (Sheds.releasePiFutexesOf ?_ thread)
  refine (hs'.removeFutexWaiter thread).thin (Thins.of_calls (fun _ => rfl) ?_ rfl rfl rfl rfl)
  intro f w hw
  exact getElem?_erase_ne _ (removeFutexWaiter_free s' thread f w hw).symm

theorem Sheds.timeout (s : State) (thread : DetTid) (pi : Option FutexID) :
    Sheds s ((s.removeFutexWaiter thread).setCall thread (.answered pi .timeOut)) :=
  .removeFutexWaiter thread (fun _ => rfl) fun _ ht => parked_setCall (fun _ => Call.noConfusion) ht

theorem Sheds.finishCall (s : State) (thread : DetTid) : Sheds s (s.finishCall thread) := by
  refine .retain thread _ (fun f => queue_retain _ _ _) (fun w hw => ?_) fun t ht => ?_
  · exact dettid_of_keptBy (by simpa using hw)
  · exact parked_setCall (fun _ => Call.noConfusion) ht

theorem Sheds.signal (hs : Placed s) (thread : DetTid) (pi : Option FutexID) :
    Sheds s ((s.forceUnblock thread).setCall thread (.answered pi .signaled)) := by
  rcases forceUnblock_cases hs thread with heq | ⟨f, before, w, after, hspl, -, rfl, hq,
    waiters, hst⟩
  · rw [heq]
    refine .removeFutexWaiter thread (fun _ => rfl) fun t ht => ?_
    exact parked_setCall (fun _ => Call.noConfusion) ht
  · -- the place is kept, with the waiter marked as woken
    have htids : ∀ g, ((s.forceUnblock w.dettid).setCall w.dettid (.answered pi .signaled)).tids g =
        s.tids g := by
      intro g
      show ((s.forceUnblock w.dettid).queue g).map (·.dettid) = (s.queue g).map (·.dettid)
      by_cases hg : g = f
      · subst hg
        rw [hq.same, hspl]
        simp
      · rw [hq.other hg]
    refine .of_leaving w.dettid (fun g => by rw [htids]) (fun g t ht _ => by rwa [htids]) ?_
    intro t ht
    obtain ⟨hne, pi', hpar⟩ := parked_setCall (fun _ => Call.noConfusion) ht
    rw [hst] at hpar
    exact ⟨hne, pi', hpar⟩

theorem Sheds.register (thread : DetTid) (process : DetPid) :
    Sheds s (s.register thread process) := by
  refine .of_queues (fun _ => rfl) fun t ht => ?_
  have hcall : (s.setCall thread .running).Parked t := ht
  exact (parked_setCall (fun _ => Call.noConfusion) hcall).2

theorem Sheds.wakeFutexWaiters (hs : Placed s) (f : FutexID) (count : ℤ)
    (mask : Word) : Sheds s (s.wakeFutexWaiters f count mask) := by
  cases hpend : s.piFutexHandOverPending f with
  | true =>
    rw [wakeFutexWaiters_of_pending count mask hpend]
    exact .refl s
  | false =>
    have hq := queue_wakeFutexWaiters hs count mask hpend
    have hcal := nextTurns_wakeFutexWaiters count mask hpend
    generalize (s.takeFutexWakees f count mask).1 = woken at hq hcal
    refine ⟨fun g => ?_, fun t ht => ?_⟩
    · unfold tids
      rw [hq]
      split_ifs with hg
      · subst hg
        exact filter_sublist.map _
      · exact .refl _
    · obtain ⟨pi, hpi⟩ := ht
      rw [hcal] at hpi
      split_ifs at hpi with hmem
      · exact absurd hpi not_parked_wokenCall
      · refine ⟨⟨pi, hpi⟩, fun g ht => ?_⟩
        unfold tids at ht ⊢
        rw [hq]
        split_ifs with hg
        · subst hg
          obtain ⟨w, hw, rfl⟩ := mem_map.mp ht
          refine mem_map_of_mem (mem_filter.mpr ⟨hw, decide_eq_true fun hwok => ?_⟩)
          exact hmem (mem_map_of_mem hwok)
        · exact ht

/-! ## Steps that queue threads -/

theorem Advances.park {call : Call}
    (hcall : s'.nextTurns = s.nextTurns.insert thread call) (hplace : thread ∈ s'.tids f)
    (htids : s'.tids f = s.tids f ∨ s'.tids f = s.tids f ++ [thread] ∧ thread ∉ s.tids f)
    (hoth : ∀ g, g ≠ f → s'.tids g = s.tids g) : Advances s s' where
  order g := by
    by_cases hg : g = f
    · subst hg
      rcases htids with heq | ⟨heq, hnew⟩
      · exact ⟨s.tids g, [], by rw [heq, append_nil], .refl _, fun _ ht => absurd ht not_mem_nil⟩
      · refine ⟨s.tids g, [thread], heq, .refl _, fun t ht => ?_⟩
        rwa [mem_singleton.mp ht]
    · exact ⟨s.tids g, [], by rw [hoth g hg, append_nil], .refl _,
        fun _ ht => absurd ht not_mem_nil⟩
  place t ht hold := by
    by_cases hthd : t = thread
    · subst hthd
      exact ⟨f, hplace⟩
    · obtain ⟨pi, hpi⟩ := ht
      rw [hcall, getElem?_insert_ne _ (Ne.symm hthd)] at hpi
      obtain ⟨g, hg⟩ := hold ⟨pi, hpi⟩
      refine ⟨g, ?_⟩
      by_cases hgf : g = f
      · subst hgf
        rcases htids with heq | ⟨heq, -⟩
        · rwa [heq]
        · rw [heq]
          exact mem_append_left _ hg
      · rwa [hoth g hgf]

theorem tids_parkOn (s : State) (f : FutexID) (waiters : List FutexWaiter) (thread : DetTid)
    (call : Call) (g : FutexID) :
    (s.parkOn f waiters thread call).tids g =
      if g = f then waiters.map (·.dettid) else s.tids g := by
  unfold tids
  rw [replaces_parkOn s f waiters thread call g]
  split_ifs <;> rfl

theorem Advances.parkFutexWaiter (f : FutexID) (bitset : Word)
    (pi : Bool) (hplace : ∀ g w, w ∈ s.queue g → w.dettid = thread →
      g = f ∧ pi = true ∧ w.woken = true) : Advances s (s.parkFutexWaiter thread f bitset pi) := by
  unfold State.parkFutexWaiter
  by_cases hkept : (pi && (s.queue f).any (keptBy thread)) = true
  · -- it sleeps again in its place
    rw [if_pos hkept]
    rw [Bool.and_eq_true] at hkept
    refine .park (f := f) rfl ?_ (.inl ?_) fun g hg => ?_
    · rw [tids_parkOn, if_pos rfl]
      obtain ⟨x, -, -, hx⟩ := exists_mem_amend (f := fun queued : FutexWaiter =>
        { dettid := thread, bitset := bitset, pi := pi, woken := false, arrived := queued.arrived })
        hkept.2
      exact mem_map.mpr ⟨_, hx, rfl⟩
    · rw [tids_parkOn, if_pos rfl]
      exact map_amend fun w _ hw => (dettid_of_keptBy hw).symm
    · rw [tids_parkOn, if_neg hg]
  · rw [if_neg hkept]
    have hfree : thread ∉ s.tids f := by
      intro hmem
      obtain ⟨w, hw, heq⟩ := mem_map.mp hmem
      obtain ⟨-, rfl, hwok⟩ := hplace f w hw heq
      refine hkept ?_
      rw [Bool.true_and, any_eq_true]
      exact ⟨w, hw, by unfold keptBy; rw [hwok, decide_eq_true heq]; rfl⟩
    refine .park (f := f) rfl ?_ (.inr ⟨?_, hfree⟩) fun g hg => ?_
    · rw [tids_parkOn, if_pos rfl]
      simp
    · rw [tids_parkOn, if_pos rfl]
      simp [tids]
    · rw [tids_parkOn, if_neg hg]

theorem Advances.of_owners {s₀ : State} (h : Advances s₀ s') (hq : s₀.queue = s.queue)
    (hcal : s₀.nextTurns = s.nextTurns) : Advances s s' := by
  have htids : s₀.tids = s.tids := by
    unfold tids
    rw [hq]
  have hpar : s₀.Parked = s.Parked := by
    unfold Parked
    rw [hcal]
  refine ⟨?_, ?_⟩
  · rw [← htids]
    exact h.order
  · rw [← htids, ← hpar]
    exact h.place

theorem Trims.advances (h : Trims s s') (h' : Advances s' s'') : Advances s s'' := by
  obtain ⟨owners, rfl, -⟩ := h
  exact h'.of_owners rfl rfl

theorem Advances.sleepPiFutexWaiter (owner : DetTid)
    (hplace : ∀ g w, w ∈ s.queue g → w.dettid = thread → g = f ∧ w.pi = true ∧ w.woken = true) :
    Advances s (s.sleepPiFutexWaiter thread f owner) := by
  have htrim := trims_livePiFutexOwner s f
  unfold State.sleepPiFutexWaiter
  rcases hpair : s.livePiFutexOwner f with ⟨found, s'⟩
  rw [hpair] at htrim
  obtain ⟨owners, rfl, -⟩ := htrim
  have hplace' : ∀ g w, w ∈ s.queue g → w.dettid = thread →
      g = f ∧ true = true ∧ w.woken = true :=
    fun g w hw heq => ⟨(hplace g w hw heq).1, rfl, (hplace g w hw heq).2.2⟩
  have hpark : ∀ recorded : State, recorded.queue = s.queue → recorded.nextTurns = s.nextTurns →
      Advances s (recorded.parkFutexWaiter thread f (BitVec.allOnes 32) true) := by
    intro recorded hq hcal
    refine (Advances.parkFutexWaiter f _ true ?_).of_owners hq hcal
    rw [hq]
    exact hplace'
  cases found with
  | none | some b => exact hpark _ rfl rfl

theorem Advances.lockPass {word : Word}
    {trylock interrupted : Bool} {ended : State → State} (hended : ∀ s', Sheds s' (ended s'))
    (hplace : ∀ g w, w ∈ s.queue g → w.dettid = thread → g = f ∧ w.pi = true ∧ w.woken = true) :
    Advances s (s.lockPass thread f word trylock interrupted ended) := by
  have htrim := trims_piFutexState s f (wordOwner word) thread
  unfold State.lockPass
  dsimp only
  cases lockPiStep word (guestTid thread) (s.piFutexState f (wordOwner word) thread).1 trylock with
  | fail | acquire => exact (htrim.sheds.trans (hended _)).advances
  | block owner write =>
    cases interrupted with
    | true => exact (htrim.sheds.trans (hended _)).advances
    | false =>
      refine htrim.advances (.sleepPiFutexWaiter owner ?_)
      obtain ⟨owners, hst, -⟩ := htrim
      rw [hst]
      exact hplace

theorem Advances.resumeLock (hs : Inv s)
    {answer : Answer} (hcall : s.nextTurns[thread]? = some (.answered (some f) answer))
    (word : Word) (rewait : Bool) : Advances s (s.resumeLock thread f answer word rewait) := by
  obtain ⟨-, owners, hst⟩ := takeHandedPiFutex_spec hs f thread
  unfold State.resumeLock
  rcases hpair : s.takeHandedPiFutex f thread with ⟨how, s'⟩
  rw [hpair] at hst
  dsimp only at hst
  have hend : Advances s (s'.finishCall thread) := by
    rw [hst]
    exact (Sheds.finishCall _ thread).advances.of_owners rfl rfl
  cases how with
  | some how => exact hend
  | none =>
    split_ifs
    · rw [hst]
      refine (Advances.lockPass (fun s' => .finishCall s' thread) ?_).of_owners rfl rfl
      exact hs.placed.place_of_answered hcall
    · exact hend

theorem Advances.unlockPi (hs : Inv s) (thread : DetTid) (f : FutexID) (word : Word) :
    Advances s (s.unlockPi thread f word) := by
  have htrim := trims_piFutexState s f (wordOwner word) thread
  unfold State.unlockPi
  dsimp only
  split_ifs
  · exact .refl s
  · split
    · exact htrim.sheds.advances
    · exact htrim.sheds.advances
    · exact (htrim.sheds.trans (.handOffPiFutex (hs.thin htrim.thins) f)).advances

/-- Threads that sleep after a requeue were asleep before and were not woken. -/
theorem parked_requeueFutexWaiters {source target : FutexID} {nrWake nrRequeue : ℕ}
    (h : s.piFutexHandOverPending source = false)
    (ht : (s.requeueFutexWaiters source target nrWake nrRequeue).Parked t) :
    t ∉ ((counted nrWake nrRequeue (s.queue source)).take nrWake).map (·.dettid) ∧
      s.Parked t := by
  obtain ⟨pi, hpi⟩ := ht
  rw [nextTurns_requeueFutexWaiters nrWake nrRequeue h] at hpi
  split_ifs at hpi with hmem
  · exact absurd hpi not_parked_wokenCall
  · exact ⟨hmem, pi, hpi⟩

theorem Advances.requeueFutexWaiters (hs : Placed s) (source target : FutexID)
    (nrWake nrRequeue : ℕ) : Advances s (s.requeueFutexWaiters source target nrWake nrRequeue) := by
  cases hpend : s.piFutexHandOverPending source with
  | true =>
    have hsame : s.requeueFutexWaiters source target nrWake nrRequeue = s := by
      simp only [State.requeueFutexWaiters, hpend, if_true]
    rw [hsame]
    exact .refl s
  | false =>
    have hmem : ∀ t ∈ s.tids source,
        t ∈ ((counted nrWake nrRequeue (s.queue source)).take nrWake).map (·.dettid) ∨
        t ∈ ((counted nrWake nrRequeue (s.queue source)).drop nrWake).map (·.dettid) ∨
        t ∈ ((s.queue source).drop (counted nrWake nrRequeue (s.queue source)).length).map
          (·.dettid) := by
      intro t ht
      obtain ⟨rest, hrest⟩ := exists_counted_append nrWake nrRequeue (s.queue source)
      unfold tids at ht
      generalize counted nrWake nrRequeue (s.queue source) = front at hrest ⊢
      rw [← hrest, map_append, mem_append] at ht
      rw [← hrest, drop_left]
      refine ht.elim (fun ht => ?_) fun ht => .inr (.inr ht)
      rw [← take_append_drop nrWake front, map_append, mem_append] at ht
      exact ht.imp_right .inl
    by_cases hne : source = target
    · subst hne
      have hq := queue_requeueFutexWaiters_same nrWake nrRequeue hpend
      refine Sheds.advances ⟨fun g => ?_, fun t ht => ?_⟩
      · unfold tids
        rw [hq]
        split_ifs with hg
        · subst hg
          exact (drop_sublist _ _).map _
        · exact .refl _
      · obtain ⟨hwok, hpar⟩ := parked_requeueFutexWaiters hpend ht
        refine ⟨hpar, fun g hg => ?_⟩
        unfold tids at hg ⊢
        rw [hq]
        split_ifs with hgf
        · subst hgf
          rw [← counted_drop_append, map_append, mem_append]
          exact (hmem t hg).resolve_left hwok
        · exact hg
    · have hq := queue_requeueFutexWaiters hne nrWake nrRequeue hpend
      refine ⟨fun g => ?_, fun t ht hold => ?_⟩
      · unfold tids
        rw [hq]
        split_ifs with hsrc htgt
        · subst hsrc
          exact ⟨_, [], (append_nil _).symm, (drop_sublist _ _).map _,
            fun _ ht => absurd ht not_mem_nil⟩
        · subst htgt
          refine ⟨_, _, map_append, .refl _, fun t ht hmem => ?_⟩
          -- a thread of the source has no place on the target
          obtain ⟨w, hw, rfl⟩ := mem_map.mp ht
          obtain ⟨v, hv, heq⟩ := mem_map.mp hmem
          obtain ⟨rest, hrest⟩ := exists_counted_append nrWake nrRequeue (s.queue source)
          have hw' : w ∈ s.queue source := by
            rw [← hrest]
            exact mem_append_left _ (mem_of_mem_drop hw)
          exact hne (hs.unique source g w v hw' hv heq.symm)
        · exact ⟨_, [], (append_nil _).symm, .refl _, fun _ ht => absurd ht not_mem_nil⟩
      · obtain ⟨hwok, hpar⟩ := parked_requeueFutexWaiters hpend ht
        obtain ⟨g, hg⟩ := hold hpar
        by_cases hsrc : g = source
        · subst hsrc
          rcases (hmem t hg).resolve_left hwok with hmoved | hleft
          · refine ⟨target, ?_⟩
            unfold tids
            rw [hq, if_neg (Ne.symm hne), if_pos rfl, map_append]
            exact mem_append_right _ hmoved
          · refine ⟨g, ?_⟩
            unfold tids
            rwa [hq, if_pos rfl]
        · refine ⟨g, ?_⟩
          unfold tids at hg ⊢
          rw [hq, if_neg hsrc]
          split_ifs with htgt
          · subst htgt
            rw [map_append]
            exact mem_append_left _ hg
          · exact hg

/-! ## Every run -/

theorem Advances.step (hs : Inv s) (event : Event) : Advances s (s.step event) := by
  have hrunn : ∀ {thread : DetTid} {pi : Bool} {f : FutexID}, s.nextTurns[thread]? = some .running →
      ∀ g w, w ∈ s.queue g → w.dettid = thread → g = f ∧ pi = true ∧ w.woken = true :=
    fun hcall g w hw heq => absurd heq (hs.placed.free_of_running hcall g w hw)
  unfold State.step
  cases event with
  | start thread process =>
    dsimp only
    split
    · exact (Sheds.register thread process).advances
    · exact .refl s
  | lock =>
    dsimp only
    split
    · rename_i hcall
      refine .lockPass (fun s' => .refl s') ?_
      exact fun g w hw heq => absurd heq (hs.placed.free_of_running hcall g w hw)
    · exact .refl s
  | resume thread word rewait =>
    dsimp only
    split
    · exact .resumeLock hs ‹_› word rewait
    · exact (Sheds.finishCall s thread).advances
    · exact .refl s
  | unlock thread f word =>
    dsimp only
    split
    · exact .unlockPi hs thread f word
    · exact .refl s
  | wait thread f bitset =>
    dsimp only
    split
    · exact .parkFutexWaiter f bitset false (hrunn ‹_›)
    · exact .refl s
  | wake thread f count mask =>
    dsimp only
    split
    · exact (Sheds.wakeFutexWaiters hs.placed f count mask).advances
    · exact .refl s
  | requeue thread source target nrWake nrRequeue =>
    dsimp only
    split
    · exact .requeueFutexWaiters hs.placed source target nrWake nrRequeue
    · exact .refl s
  | timeout thread =>
    dsimp only
    split
    · exact (Sheds.timeout s thread _).advances
    · exact .refl s
  | signal thread =>
    dsimp only
    split
    · exact (Sheds.signal hs.placed thread _).advances
    · exact .refl s
  | exit thread =>
    dsimp only
    split
    · have hsame : Sheds s { s with committedExits := insert thread s.committedExits } :=
        .of_queues (fun _ => rfl) fun _ => id
      exact (hsame.trans (.releasePiFutexesOf (hs.commitExit thread) thread)).advances
    · exact .refl s
  | kill process => exact (Sheds.killProcess hs process).advances
  | retire thread cancels =>
    dsimp only
    split
    · exact (Sheds.retire hs thread cancels).advances
    · exact .refl s
  | exec thread =>
    dsimp only
    split
    · exact (Sheds.releasePiFutexesOf hs thread).advances
    · exact .refl s

def joinedIn (s s' : State) (futex : FutexID) : List DetTid :=
  (s'.tids futex).filter fun t => decide (t ∉ s.tids futex)

def stepJoins (h : State × (FutexID → List DetTid)) (event : Event) :
    State × (FutexID → List DetTid) :=
  (h.1.step event, fun f => h.2 f ++ joinedIn h.1 (h.1.step event) f)

def joins (events : List Event) (futex : FutexID) : List DetTid :=
  (events.foldl stepJoins (empty, fun _ => [])).2 futex

/-- What holds of the queues after a run, with the joins so far. -/
structure Lined (h : State × (FutexID → List DetTid)) : Prop where
  inv : Inv h.1
  placed : ∀ t, h.1.Parked t → ∃ f, t ∈ h.1.tids f
  order : ∀ f, InJoinOrder (h.1.tids f) (h.2 f)

theorem Lined.step {h : State × (FutexID → List DetTid)} (hh : Lined h) (event : Event) :
    Lined (stepJoins h event) := by
  have hadva := Advances.step hh.inv event
  have hinv := hh.inv.step event
  refine ⟨hinv, fun t ht => hadva.place t ht (hh.placed t), fun f => ?_⟩
  obtain ⟨kept, joined, heq, hkept, hnew⟩ := hadva.order f
  have hnodup : ((h.1.step event).tids f).Nodup := hinv.placed.nodup f
  have hjoin : joinedIn h.1 (h.1.step event) f = joined := by
    unfold joinedIn
    have hnone : (kept.filter fun t => decide (t ∉ h.1.tids f)) = [] := by
      rw [filter_eq_nil_iff]
      intro t ht hno
      exact of_decide_eq_true hno (hkept.subset ht)
    rw [heq, filter_append, hnone, nil_append, filter_eq_self]
    exact fun t ht => decide_eq_true (hnew t ht)
  rw [heq, nodup_append] at hnodup
  show InJoinOrder ((h.1.step event).tids f) (h.2 f ++ joinedIn h.1 (h.1.step event) f)
  rw [hjoin, heq]
  exact (hh.order f).advance hkept hnew hnodup.2.1

theorem lined_foldl (events : List Event) {h : State × (FutexID → List DetTid)} (hh : Lined h) :
    Lined (events.foldl stepJoins h) ∧
      (events.foldl stepJoins h).1 = events.foldl State.step h.1 := by
  induction events generalizing h with
  | nil => exact ⟨hh, rfl⟩
  | cons event events ih => exact ih (hh.step event)

/-- How many waiters `remove_futex_waiter` takes off the queues; it asserts that they are at most
one. -/
def removals (s : State) (dettid : DetTid) : ℕ :=
  (s.futexWaiters.toList.map fun entry =>
    entry.2.length - (entry.2.filter fun waiter => decide (waiter.dettid ≠ dettid)).length).sum

theorem removals_le_one (hs : Placed s) (dettid : DetTid) : s.removals dettid ≤ 1 := by
  have hq : ∀ entry ∈ s.futexWaiters.toList, s.queue entry.1 = entry.2 := by
    rintro ⟨f, waiters⟩ hmem
    have hget := (mem_toList _ _ _).mp hmem
    show s.futexWaiters[f]?.getD [] = waiters
    rw [hget]
    rfl
  -- no thread stands twice in all the queues together
  have hnodup : (s.futexWaiters.toList.flatMap fun entry => entry.2.map (·.dettid)).Nodup := by
    rw [nodup_flatMap]
    refine ⟨fun entry hmem => ?_, ?_⟩
    · rw [← hq entry hmem]
      exact hs.nodup entry.1
    · have hkeys : (s.futexWaiters.toList.map Prod.fst).Nodup := by
        rw [Std.ExtTreeMap.map_fst_toList_eq_keys]
        exact Std.ExtTreeMap.nodup_keys
      refine (pairwise_map.mp hkeys).imp_of_mem fun {a b} ha hb hne t hta htb => hne ?_
      obtain ⟨v, hv, rfl⟩ := mem_map.mp hta
      obtain ⟨w, hw, heq⟩ := mem_map.mp htb
      rw [← hq a ha] at hv
      rw [← hq b hb] at hw
      exact hs.unique a.1 b.1 v w hv hw heq.symm
  have hcnt : s.removals dettid =
      (s.futexWaiters.toList.flatMap fun entry => entry.2.map (·.dettid)).count dettid := by
    unfold removals
    rw [count_flatMap]
    congr 1
    refine map_congr_left fun entry _ => ?_
    have hsum := length_eq_countP_add_countP (fun w : FutexWaiter => w.dettid == dettid)
      (l := entry.2)
    simp only [beq_iff_eq] at hsum
    rw [Function.comp_apply, count_eq_countP, countP_map, ← countP_eq_length_filter, hsum]
    exact Nat.add_sub_cancel _ _
  rw [hcnt]
  exact nodup_iff_count_le_one.mp hnodup dettid

theorem Placed.wokenCall_of_plain (hs : Placed s) {w : FutexWaiter}
    (hw : w ∈ plainFront (s.queue f)) :
    s.nextTurns[w.dettid]?.map wokenCall = some (.answered none .go) := by
  have hpi : w.pi = false := by simpa using mem_takeWhile_imp hw
  rw [hs.call f w ((takeWhile_sublist _).subset hw), callOf, hpi]
  rfl

/-- After every sequence of events, without `--fuzz-futexes`:
* no thread has two places, so that `remove_futex_waiter` never finds two waiters of a thread;
* every thread that sleeps in a futex call has a place;
* every queue stands in the order in which its threads joined it last;
* a wake with no hand-over pending takes exactly the first `max 1 count` matching waiters before
  the first lock waiter, whose calls it answers, and leaves the others where they are;
* a requeue with no hand-over pending wakes the first `nrWake` waiters before the first lock
  waiter and moves the next `nrRequeue` behind the target's own, or leaves them in their places
  on the same futex, and answers how many they were. -/
theorem futex_queues_in_order (events : List Event) : (∀ thread, (run events).removals thread ≤ 1) ∧
      (∀ thread, (run events).Parked thread → ∃ f, thread ∈ (run events).tids f) ∧
      (∀ f, InJoinOrder ((run events).tids f) (joins events f)) ∧
      (∀ (f : FutexID) (count : ℤ) (mask : Word), (run events).piFutexHandOverPending f = false →
        let after := (run events).wakeFutexWaiters f count mask
        let woken := ((plainFront ((run events).queue f)).filter (matchesMask mask)).take
          (max 1 count.toNat)
        ((run events).takeFutexWakees f count mask).1 = woken ∧
          (∀ w ∈ woken, after.nextTurns[w.dettid]? = some (.answered none .go)) ∧
          after.queue f = ((run events).queue f).filter (fun w => decide (w ∉ woken)) ∧
          ∀ g, g ≠ f → after.queue g = (run events).queue g) ∧
      ∀ (source target : FutexID) (nrWake nrRequeue : ℕ),
        (run events).piFutexHandOverPending source = false →
        let after := (run events).requeueFutexWaiters source target nrWake nrRequeue
        let woken := (plainFront ((run events).queue source)).take nrWake
        let moved := ((plainFront ((run events).queue source)).drop nrWake).take nrRequeue
        ((run events).requeueAnswer source target nrWake nrRequeue).1 = woken.length ∧
          ((run events).requeueAnswer source target nrWake nrRequeue).2.1 = moved.length ∧
          (∀ w ∈ woken, after.nextTurns[w.dettid]? = some (.answered none .go)) ∧
          (source ≠ target →
            after.queue source = ((run events).queue source).drop (woken.length + moved.length) ∧
              after.queue target = (run events).queue target ++ moved) ∧
          (source = target → after.queue source = ((run events).queue source).drop woken.length) ∧
          ∀ g, g ≠ source → g ≠ target → after.queue g = (run events).queue g := by
  have hsta : Lined (empty, fun _ => []) :=
    ⟨Inv.empty, fun t ⟨pi, ht⟩ => absurd ht (by simp [empty]), fun f => inJoinOrder_nil _⟩
  obtain ⟨hlined, hrun⟩ := lined_foldl events hsta
  have hrun' : (events.foldl stepJoins (empty, fun _ => [])).1 = run events := hrun
  obtain ⟨hinv, hplac, horder⟩ := hlined
  rw [hrun'] at hinv hplac
  refine ⟨removals_le_one hinv.placed, hplac, fun f => ?_, ?_, ?_⟩
  · have hf := horder f
    rwa [hrun'] at hf
  · intro f count mask hpend
    rw [← takeFutexWakees_fst count mask hpend]
    refine ⟨rfl, fun w hw => ?_, ?_, fun g hg => ?_⟩
    · rw [nextTurns_wakeFutexWaiters count mask hpend, if_pos (mem_map_of_mem hw)]
      rw [takeFutexWakees_fst count mask hpend] at hw
      exact hinv.placed.wokenCall_of_plain (filter_sublist.subset (mem_of_mem_take hw))
    · rw [queue_wakeFutexWaiters hinv.placed count mask hpend, if_pos rfl]
    · rw [queue_wakeFutexWaiters hinv.placed count mask hpend, if_neg hg]
  · intro source target nrWake nrRequeue hpend
    rw [← take_counted nrWake nrRequeue, ← drop_counted nrWake nrRequeue]
    have hleng : ((counted nrWake nrRequeue ((run events).queue source)).take nrWake).length +
        ((counted nrWake nrRequeue ((run events).queue source)).drop nrWake).length =
        (counted nrWake nrRequeue ((run events).queue source)).length := by
      rw [← length_append, take_append_drop]
    refine ⟨?_, ?_, fun w hw => ?_, fun hne => ⟨?_, ?_⟩, fun heq => ?_, fun g hsrc htgt => ?_⟩
    · simp only [requeueAnswer, hpend, Bool.false_eq_true, if_false, requeueScan_eq]
    · simp only [requeueAnswer, hpend, Bool.false_eq_true, if_false, requeueScan_eq]
      omega
    · rw [nextTurns_requeueFutexWaiters nrWake nrRequeue hpend, if_pos (mem_map_of_mem hw)]
      rw [take_counted] at hw
      exact hinv.placed.wokenCall_of_plain (mem_of_mem_take hw)
    · rw [queue_requeueFutexWaiters hne nrWake nrRequeue hpend, if_pos rfl, hleng]
    · rw [queue_requeueFutexWaiters hne nrWake nrRequeue hpend, if_neg (Ne.symm hne), if_pos rfl]
    · subst heq
      rw [queue_requeueFutexWaiters_same nrWake nrRequeue hpend, if_pos rfl]
    · by_cases hne : source = target
      · subst hne
        rw [queue_requeueFutexWaiters_same nrWake nrRequeue hpend, if_neg hsrc]
      · rw [queue_requeueFutexWaiters hne nrWake nrRequeue hpend, if_neg hsrc, if_neg htgt]

end State

end Hermit.PiFutex
