import Hermit.PiFutex.Queue

/-!
# Lock waiters never wait in a circle

The walk of `pi_futex_wait_deadlocks` finds every owner a lock waiter would wait for, so a caller
that is let onto a queue closes no circle (`waitDeadlocksFrom_sound`), and owners that change
afterwards become threads that wait for nothing. The invariant of `PiFutex.Queue` therefore holds
after every sequence of events.
-/

namespace Hermit.PiFutex

open Common OrdMap Relation List
open Common.DepthFirst (Acyclic)

namespace State

/-! ## Dropping stale records -/

/-- Records of words no lock waiter is queued on may be gone. -/
def Trims (s s' : State) : Prop :=
  ∃ owners : OrdMap FutexID PiFutexOwner, s' = { s with piFutexOwners := owners } ∧
    ∀ f, owners[f]? = s.piFutexOwners[f]? ∨ owners[f]? = none ∧ ∀ a, ¬ s.PiWaiter a f

theorem Trims.refl (s : State) : Trims s s := ⟨s.piFutexOwners, rfl, fun _ => .inl rfl⟩

variable {s s' : State} {f g : FutexID} {b a owner thread : DetTid} {waiters : List FutexWaiter}

theorem Trims.trans {s'' : State} (h : Trims s s') (h' : Trims s' s'') : Trims s s'' := by
  obtain ⟨owners, rfl, howns⟩ := h
  obtain ⟨owners', rfl, howns'⟩ := h'
  refine ⟨owners', rfl, fun f => ?_⟩
  rcases howns' f with hsame | hgone
  · rcases howns f with hsame' | ⟨hnone, hfree⟩
    · exact .inl (hsame.trans hsame')
    · exact .inr ⟨hsame.trans hnone, hfree⟩
  · exact .inr hgone

theorem Trims.thins (h : Trims s s') : Thins s s' := by
  obtain ⟨owners, rfl, howns⟩ := h
  refine Thins.of_owners owners fun f => ?_
  rcases howns f with hsame | ⟨-, hfree⟩
  · exact .inl hsame
  · exact .inr (.inr fun a ha => absurd ha (hfree a))

theorem Trims.ownerOf (h : Trims s s') (hb : s'.ownerOf f = some b) : s.ownerOf f = some b := by
  obtain ⟨owners, rfl, howns⟩ := h
  have hb' : owners[f]?.map (·.owner) = some b := hb
  rcases howns f with hsame | ⟨hnone, -⟩
  · rwa [hsame] at hb'
  · rw [hnone] at hb'
    cases hb'

theorem Trims.waitsFor (h : Trims s s') (hab : s.WaitsFor a b) : s'.WaitsFor a b := by
  obtain ⟨owners, rfl, howns⟩ := h
  obtain ⟨ha, hb, f, hwait, hown⟩ := hab
  refine ⟨ha, hb, f, hwait, ?_⟩
  rcases howns f with hsame | ⟨-, hfree⟩
  · show owners[f]?.map _ = _
    rw [hsame]
    exact hown
  · exact absurd hwait (hfree a)

theorem Trims.waitsFor_of (h : Trims s s') (hab : s'.WaitsFor a b) : s.WaitsFor a b := by
  obtain ⟨ha, hb, f, hwait, hown⟩ := hab
  have hown' := h.ownerOf hown
  obtain ⟨owners, rfl, -⟩ := h
  exact ⟨ha, hb, f, hwait, hown'⟩

theorem trims_livePiFutexOwner (s : State) (f : FutexID) : Trims s (s.livePiFutexOwner f).2 := by
  unfold livePiFutexOwner
  split
  · exact Trims.refl s
  · rename_i record _
    by_cases hlive : (record.handed.isSome || s.hasPiWaiters f) = true
    · rw [if_pos hlive]
      exact Trims.refl s
    · rw [if_neg hlive]
      refine ⟨s.piFutexOwners.erase f, rfl, fun g => ?_⟩
      by_cases hg : g = f
      · subst hg
        refine .inr ⟨getElem?_erase_same _ _, fun a ha => hlive ?_⟩
        rw [hasPiWaiters_iff.mpr ⟨a, ha⟩, Bool.or_true]
      · exact .inl (getElem?_erase_ne _ (Ne.symm hg))

/-- The owner found is the one recorded, which stays recorded. -/
theorem livePiFutexOwner_fst (s : State) (f : FutexID) :
    (s.livePiFutexOwner f).1 = (s.livePiFutexOwner f).2.ownerOf f := by
  unfold livePiFutexOwner
  cases hrec : s.piFutexOwners[f]? with
  | none =>
    show none = s.ownerOf f
    unfold ownerOf
    rw [hrec]
    rfl
  | some record =>
    dsimp only
    by_cases hlive : (record.handed.isSome || s.hasPiWaiters f) = true
    · rw [if_pos hlive]
      show some record.owner = s.ownerOf f
      unfold ownerOf
      rw [hrec]
      rfl
    · rw [if_neg hlive]
      show none = (s.piFutexOwners.erase f)[f]?.map _
      rw [getElem?_erase_same]
      rfl

/-- A word with a lock waiter keeps its record. -/
theorem livePiFutexOwner_of_piWaiter
    (ha : s.PiWaiter a f) : (s.livePiFutexOwner f).1 = s.ownerOf f := by
  rw [livePiFutexOwner_fst]
  obtain ⟨owners, hst, howns⟩ := trims_livePiFutexOwner s f
  rw [hst]
  show owners[f]?.map _ = s.piFutexOwners[f]?.map _
  rcases howns f with hsame | ⟨-, hfree⟩
  · rw [hsame]
  · exact absurd ha (hfree a)

/-! ## Recording an owner -/

theorem ownerOf_setPiFutexOwner_same (s : State) (f : FutexID) (owner : DetTid)
    (handed : Option PiHandOver) : (s.setPiFutexOwner f owner handed).ownerOf f = some owner := by
  show Option.map _ (s.piFutexOwners.insert f _)[f]? = _
  rw [getElem?_insert_same]
  rfl

theorem ownerOf_setPiFutexOwner_ne (s : State) (hg : g ≠ f) {handed : Option PiHandOver} :
    (s.setPiFutexOwner f owner handed).ownerOf g = s.ownerOf g := by
  show Option.map _ (s.piFutexOwners.insert f _)[g]? = Option.map _ s.piFutexOwners[g]?
  rw [getElem?_insert_ne _ (Ne.symm hg)]

/-- An owner is recorded for a word nobody live waits on. -/
theorem Thins.setPiFutexOwner (owner : DetTid)
    (handed : Option PiHandOver) (hnobo : ∀ a, s.PiWaiter a f → s.doomed a = true) :
    Thins s (s.setPiFutexOwner f owner handed) where
  queue g := .refl _
  call g w _ := rfl
  arrivals := le_rfl
  doomed g w _ hlive := hlive
  owner g := by
    by_cases hg : g = f
    · subst hg
      exact .inr (.inl hnobo)
    · exact .inl (ownerOf_setPiFutexOwner_ne s hg)
  handOvers h hh := .inl hh

/-! ## The walk -/

theorem Placed.piWaiter_unique (hs : Placed s)
    (hf : s.PiWaiter a f) (hg : s.PiWaiter a g) : f = g := by
  obtain ⟨v, hv, -, rfl⟩ := hf
  obtain ⟨w, hw, -, heq⟩ := hg
  exact hs.unique f g v w hv hw heq.symm

theorem piWaiter_of_piFutexWaitedOn (h : s.piFutexWaitedOn a = some f) : s.PiWaiter a f := by
  obtain ⟨⟨g, waiters⟩, hfind, rfl⟩ := Option.map_eq_some_iff.mp h
  have hmem := (mem_toList _ _ _).mp (mem_of_find?_eq_some hfind)
  have hany := find?_some hfind
  obtain ⟨w, hw, htest⟩ := any_eq_true.mp hany
  rw [Bool.and_eq_true, decide_eq_true_eq] at htest
  exact ⟨w, (mem_queue_iff _ _ _).mpr ⟨waiters, hmem, hw⟩, htest⟩

theorem Placed.piFutexWaitedOn (hs : Placed s)
    (ha : s.PiWaiter a f) : s.piFutexWaitedOn a = some f := by
  cases hfind : s.piFutexWaitedOn a with
  | some g => rw [hs.piWaiter_unique ha (piWaiter_of_piFutexWaitedOn hfind)]
  | none =>
    obtain ⟨w, hw, hpi, rfl⟩ := ha
    obtain ⟨waiters, hmem, hw⟩ := (mem_queue_iff _ _ _).mp hw
    unfold State.piFutexWaitedOn at hfind
    rw [Option.map_eq_none_iff, find?_eq_none] at hfind
    refine absurd ?_ (hfind (f, waiters) ((mem_toList _ _ _).mpr hmem))
    exact any_eq_true.mpr ⟨w, hw, by simp [hpi]⟩

theorem trims_waitDeadlocksFrom (waiter : DetTid) (passes : ℕ) (s : State) (owner : DetTid) :
    Trims s (waitDeadlocksFrom waiter passes s owner).2 := by
  induction passes generalizing s owner with
  | zero => exact Trims.refl s
  | succ passes ih =>
    unfold waitDeadlocksFrom
    by_cases hown : owner = waiter
    · rw [if_pos hown]
      exact Trims.refl s
    · rw [if_neg hown]
      split
      · exact Trims.refl s
      · rename_i f _
        have htrim := trims_livePiFutexOwner s f
        split
        · rename_i s' hlive
          rw [hlive] at htrim
          exact htrim
        · rename_i next s' hlive
          rw [hlive] at htrim
          exact htrim.trans (ih s' next)

/-- A walk that finds no deadlock went through everything the owner waits for. -/
theorem waitDeadlocksFrom_sound {waiter : DetTid} {passes : ℕ}
    (hs : Placed s) (h : (waitDeadlocksFrom waiter passes s owner).1 = false) :
    ¬ ReflTransGen s.WaitsFor owner waiter := by
  induction passes generalizing s owner with
  | zero => exact absurd h Bool.noConfusion
  | succ passes ih =>
    unfold waitDeadlocksFrom at h
    by_cases hown : owner = waiter
    · rw [if_pos hown] at h
      exact absurd h Bool.noConfusion
    · rw [if_neg hown] at h
      intro hpath
      -- The owner is not the waiter, so the path goes on through the futex the owner waits on.
      rcases ReflTransGen.cases_head hpath with heq | ⟨c, hstep, hpath⟩
      · exact hown heq
      · obtain ⟨-, -, f, hwait, hreco⟩ := hstep
        have hlive := livePiFutexOwner_of_piWaiter hwait
        have htrim := trims_livePiFutexOwner s f
        rw [hs.piFutexWaitedOn hwait] at h
        dsimp only at h
        rw [hreco] at hlive
        rcases hpair : s.livePiFutexOwner f with ⟨found, s'⟩
        rw [hpair] at h hlive htrim
        subst hlive
        refine ih (hs.thin htrim.thins) h ?_
        exact ReflTransGen.mono (fun a b hab => htrim.waitsFor hab) _ _ hpath

/-! ## What a lock call decides on -/

theorem trims_piFutexState (s : State) (f : FutexID) (named : Word) (caller : DetTid) :
    Trims s (s.piFutexState f named caller).2 := by
  unfold piFutexState
  dsimp only
  split
  · exact Trims.refl s
  · have htrim := trims_livePiFutexOwner s f
    split
    · rename_i owner s' hlive
      rw [hlive] at htrim
      exact htrim.trans (trims_waitDeadlocksFrom _ _ _ _)
    · rename_i s' hlive
      rw [hlive] at htrim
      split
      · exact htrim.trans (trims_waitDeadlocksFrom _ _ _ _)
      · exact htrim

/-- A TID in a word reads the same as a signed number. -/
theorem toInt_wordOwner (word : Word) : (wordOwner word).toInt = (wordOwner word).toNat := by
  refine BitVec.toInt_eq_toNat_of_lt ?_
  have hle : (wordOwner word).toNat ≤ futexTidMask.toNat := by
    unfold wordOwner
    rw [BitVec.toNat_and]
    exact Nat.and_le_right
  have hmask : futexTidMask.toNat = 0x3fffffff := by decide
  omega

/-- A caller told to block is given the word's owner, whom nobody else is recorded in place of,
and who does not wait for the caller. -/
theorem block_spec (hs : Placed s) {word : Word} {trylock : Bool} {write : Option Word}
    (h : lockPiStep word (guestTid thread) (s.piFutexState f (wordOwner word) thread).1 trylock =
      .block owner write) :
    (∀ b, (s.piFutexState f (wordOwner word) thread).2.ownerOf f = some b → b = owner) ∧
      ¬ ReflTransGen s.WaitsFor owner thread := by
  have htrim := trims_livePiFutexOwner s f
  have hfnd := livePiFutexOwner_fst s f
  have hsound : ∀ (s' : State) (o : DetTid), Trims s s' →
      (s'.piFutexWaitDeadlocks o thread).1 = false → ¬ ReflTransGen s.WaitsFor o thread := by
    intro s' o hs' hfalse hpath
    refine waitDeadlocksFrom_sound (hs.thin hs'.thins) hfalse ?_
    exact ReflTransGen.mono (fun a b hab => hs'.waitsFor hab) _ _ hpath
  unfold lockPiStep at h
  split at h
  · cases h
  unfold piFutexState at h ⊢
  by_cases hplain : ((s.queue f).head?.any fun waiter => !waiter.pi) && !s.piFutexHandOverPending f
  · rw [if_pos hplain] at h
    cases h
  · rw [if_neg hplain] at h ⊢
    rcases hlive : s.livePiFutexOwner f with ⟨found, s'⟩
    rw [hlive] at h hfnd htrim
    cases found with
    | some o =>
      dsimp only at h ⊢
      split at h
      · cases h
      · split at h
        · cases h
        · split at h
          · cases h
          · rename_i hfree
            rw [LockPiStep.block.injEq] at h
            obtain ⟨rfl, -⟩ := h
            refine ⟨?_, hsound s' o htrim (Bool.eq_false_of_not_eq_true hfree)⟩
            intro b hb
            have hb' := Trims.ownerOf (trims_waitDeadlocksFrom thread _ s' o) hb
            rw [← hfnd] at hb'
            exact (Option.some.inj hb').symm
    | none =>
      dsimp only at h ⊢
      cases hnam : s'.piFutexLiveOwnerNamed (wordOwner word) with
      | none =>
        rw [hnam] at h
        dsimp only at h
        split at h <;> simp at h
      | some o =>
        rw [hnam] at h
        dsimp only at h ⊢
        have ho : o = (wordOwner word).toInt := by
          rw [toInt_wordOwner]
          unfold piFutexLiveOwnerNamed at hnam
          split at hnam
          · dsimp only at hnam
            split at hnam
            · exact (Option.some.inj hnam).symm
            · cases hnam
          · cases hnam
        split at h
        · cases h
        · simp only [not_true_eq_false, if_false] at h
          split at h
          · cases h
          · split at h
            · cases h
            · rename_i hfree
              rw [LockPiStep.block.injEq] at h
              obtain ⟨rfl, -⟩ := h
              rw [← ho]
              refine ⟨?_, hsound s' o htrim (Bool.eq_false_of_not_eq_true hfree)⟩
              intro b hb
              have hb' := Trims.ownerOf (trims_waitDeadlocksFrom thread _ s' o) hb
              rw [← hfnd] at hb'
              cases hb'

/-! ## Joining a queue -/

def Replaces (s s' : State) (f : FutexID) (waiters : List FutexWaiter) : Prop :=
  ∀ g, s'.queue g = if g = f then waiters else s.queue g

theorem replaces_setQueue (h : s'.futexWaiters = setQueue s.futexWaiters f waiters) :
    Replaces s s' f waiters := by
  intro g
  unfold State.queue
  rw [h]
  exact queue_setQueue _ _ _ _

theorem Replaces.same (h : Replaces s s' f waiters) : s'.queue f = waiters := by
  rw [h f, if_pos rfl]

theorem Replaces.other (h : Replaces s s' f waiters) (hg : g ≠ f) : s'.queue g = s.queue g := by
  rw [h g, if_neg hg]

theorem Replaces.piKeys (h : Replaces s s' f waiters) (g : FutexID) :
    s'.piKeys g = if g = f then waiters.filterMap piKey else s.piKeys g := by
  unfold State.piKeys
  by_cases hg : g = f
  · subst hg
    rw [h.same, if_pos rfl]
  · rw [h.other hg, if_neg hg]

theorem Placed.extend (hs : Placed s) {added : List FutexWaiter}
    (hq : Replaces s s' f (s.queue f ++ added)) (hnodup : (added.map (·.dettid)).Nodup)
    (hfree : ∀ w ∈ added, ∀ g v, v ∈ s.queue g → v.dettid ≠ w.dettid)
    (hcall : ∀ g w, w ∈ s.queue g → s'.nextTurns[w.dettid]? = s.nextTurns[w.dettid]?)
    (hnew : ∀ w ∈ added, s'.nextTurns[w.dettid]? = some (callOf f w)) : Placed s' := by
  have hmem : ∀ g w, w ∈ s'.queue g → w ∈ s.queue g ∨ g = f ∧ w ∈ added := by
    intro g w hw
    by_cases hg : g = f
    · subst hg
      rw [hq.same, mem_append] at hw
      exact hw.imp_right fun hadded => ⟨rfl, hadded⟩
    · rw [hq.other hg] at hw
      exact .inl hw
  refine ⟨?_, ?_, ?_⟩
  · intro g k v w hv hw heq
    rcases hmem g v hv with hv | ⟨rfl, hv⟩
    · rcases hmem k w hw with hw | ⟨rfl, hw⟩
      · exact hs.unique g k v w hv hw heq
      · exact absurd heq (hfree w hw g v hv)
    · rcases hmem k w hw with hw | ⟨rfl, hw⟩
      · exact absurd heq.symm (hfree v hv k w hw)
      · rfl
  · intro g
    by_cases hg : g = f
    · subst hg
      rw [hq.same, map_append, nodup_append]
      refine ⟨hs.nodup g, hnodup, ?_⟩
      intro a ha b hb
      obtain ⟨v, hv, rfl⟩ := mem_map.mp ha
      obtain ⟨w, hw, rfl⟩ := mem_map.mp hb
      exact hfree w hw g v hv
    · rw [hq.other hg]
      exact hs.nodup g
  · intro g w hw
    rcases hmem g w hw with hw | ⟨rfl, hw⟩
    · exact (hcall g w hw).trans (hs.call g w hw)
    · exact hnew w hw

/-- A thread joins the tail of a queue, and its call says so. -/
theorem Placed.push (hs : Placed s) {waiter : FutexWaiter}
    (hq : Replaces s s' f (s.queue f ++ [waiter]))
    (hfree : ∀ g w, w ∈ s.queue g → w.dettid ≠ waiter.dettid)
    (hcall : s'.nextTurns = s.nextTurns.insert waiter.dettid (callOf f waiter)) : Placed s' := by
  refine hs.extend hq (nodup_singleton _) ?_ ?_ ?_
  · intro w hw
    rw [mem_singleton.mp hw]
    exact hfree
  · intro g w hw
    rw [hcall, getElem?_insert_ne _ (hfree g w hw).symm]
  · intro w hw
    rw [mem_singleton.mp hw, hcall, getElem?_insert_same]

theorem Placed.amendPlace (hs : Placed s) {call : Call} (hq : Replaces s s' f waiters)
    (hids : waiters.map (·.dettid) = (s.queue f).map (·.dettid))
    (hmem : ∀ w ∈ waiters, w.dettid ≠ thread ∧ w ∈ s.queue f ∨ w.dettid = thread ∧ call = callOf f w)
    (hplace : ∀ g w, w ∈ s.queue g → w.dettid = thread → g = f)
    (hcall : s'.nextTurns = s.nextTurns.insert thread call) : Placed s' := by
  have hold : ∀ g, (s'.queue g).map (·.dettid) = (s.queue g).map (·.dettid) := by
    intro g
    by_cases hg : g = f
    · subst hg
      rw [hq.same, hids]
    · rw [hq.other hg]
  refine ⟨?_, fun g => by rw [hold]; exact hs.nodup g, ?_⟩
  · intro g k v w hv hw heq
    have hv' := mem_map_of_mem (f := (·.dettid)) hv
    have hw' := mem_map_of_mem (f := (·.dettid)) hw
    rw [hold] at hv' hw'
    obtain ⟨v', hv', hveq⟩ := mem_map.mp hv'
    obtain ⟨w', hw', hweq⟩ := mem_map.mp hw'
    exact hs.unique g k v' w' hv' hw' (by rw [hveq, hweq, heq])
  · intro g w hw
    rw [hcall]
    by_cases hg : g = f
    · subst hg
      rw [hq.same] at hw
      rcases hmem w hw with ⟨hne, hw⟩ | ⟨rfl, rfl⟩
      · rw [getElem?_insert_ne _ hne.symm]
        exact hs.call g w hw
      · exact getElem?_insert_same _ _ _
    · rw [hq.other hg] at hw
      rw [getElem?_insert_ne _ fun heq => hg (hplace g w hw heq.symm)]
      exact hs.call g w hw

/-- A lock waiter joins the tail behind an owner that does not wait for it. -/
theorem InLine.push (hs : InLine s)
    (hkeys : ∀ g, s'.piKeys g = if g = f then s.piKeys f ++ [(thread, s.arrivals)] else s.piKeys g)
    (hown : s.ownerOf f = some owner) (hclear : ¬ ReflTransGen s.WaitsFor owner thread)
    (howns : s'.piFutexOwners = s.piFutexOwners) (hdoom : s'.doomed = s.doomed)
    (harrs : s'.arrivals = s.arrivals + 1) (hlog : s'.handOvers = s.handOvers) : InLine s' := by
  have hown' : ∀ g, s'.ownerOf g = s.ownerOf g := by
    intro g
    unfold ownerOf
    rw [howns]
  have hwai : ∀ g a, s'.PiWaiter a g → s.PiWaiter a g ∨ a = thread ∧ g = f := by
    intro g a ha
    obtain ⟨k, hk, rfl⟩ := piWaiter_iff.mp ha
    rw [hkeys] at hk
    by_cases hg : g = f
    · subst hg
      rw [if_pos rfl, mem_append, mem_singleton] at hk
      rcases hk with hk | rfl
      · exact .inl (piWaiter_iff.mpr ⟨k, hk, rfl⟩)
      · exact .inr ⟨rfl, rfl⟩
    · rw [if_neg hg] at hk
      exact .inl (piWaiter_iff.mpr ⟨k, hk, rfl⟩)
  refine ⟨?_, ?_, ?_, ?_, ?_⟩
  · intro g
    rw [hkeys]
    by_cases hg : g = f
    · subst hg
      rw [if_pos rfl, pairwise_append]
      refine ⟨hs.sorted g, pairwise_singleton _ _, ?_⟩
      intro a ha b hb
      rw [mem_singleton.mp hb]
      exact hs.fresh g a ha
    · rw [if_neg hg]
      exact hs.sorted g
  · intro g k hk
    rw [hkeys] at hk
    rw [harrs]
    by_cases hg : g = f
    · subst hg
      rw [if_pos rfl, mem_append, mem_singleton] at hk
      rcases hk with hk | rfl
      · exact Nat.lt_succ_of_lt (hs.fresh g k hk)
      · exact Nat.lt_succ_self _
    · rw [if_neg hg] at hk
      exact Nat.lt_succ_of_lt (hs.fresh g k hk)
  · intro g a ha hlive
    rw [hown']
    rw [hdoom] at hlive
    rcases hwai g a ha with ha | ⟨rfl, rfl⟩
    · exact hs.owned g a ha hlive
    · exact ⟨owner, hown⟩
  · refine hs.acyclic.add_edge hclear ?_
    rintro a b ⟨ha, hb, g, hwait, hreco⟩
    rw [hdoom] at ha hb
    rw [hown'] at hreco
    rcases hwai g a hwait with hwait | ⟨rfl, rfl⟩
    · exact .inl ⟨ha, hb, g, hwait, hreco⟩
    · rw [hown] at hreco
      exact .inr ⟨rfl, (Option.some.inj hreco).symm⟩
  · rw [hlog]
    exact hs.fair

/-- A change of one queue that leaves its lock waiters and the owners as they are. -/
theorem Relaxes.of_queue (hq : Replaces s s' f waiters)
    (hkeys : waiters.filterMap piKey = s.piKeys f)
    (harrs : s.arrivals ≤ s'.arrivals) (hdoom : s'.doomed = s.doomed)
    (howns : s'.piFutexOwners = s.piFutexOwners) (hlog : s'.handOvers = s.handOvers) :
    Relaxes s s' where
  keys g := by
    rw [hq.piKeys]
    split_ifs with hg
    · rw [hg, hkeys]
    · exact .refl _
  arrivals := harrs
  doomed f a _ hlive := by rwa [hdoom] at hlive
  owner f := .inl (by unfold ownerOf; rw [howns])
  handOvers h hh := .inl (by rwa [hlog] at hh)

theorem replaces_parkOn (s : State) (f : FutexID) (waiters : List FutexWaiter) (thread : DetTid)
    (call : Call) : Replaces s (s.parkOn f waiters thread call) f waiters :=
  replaces_setQueue rfl

theorem Inv.wait (hs : Inv s) (f : FutexID) (bitset : Word)
    (hfree : ∀ g w, w ∈ s.queue g → w.dettid ≠ thread) :
    Inv (s.parkFutexWaiter thread f bitset false) := by
  show Inv (s.parkOn f (s.queue f ++ [⟨thread, bitset, false, false, s.arrivals⟩]) thread
    (.parked none))
  have hq := replaces_parkOn s f (s.queue f ++ [⟨thread, bitset, false, false, s.arrivals⟩])
    thread (.parked none)
  refine ⟨hs.placed.push hq hfree rfl, ?_⟩
  refine hs.inLine.relax (.of_queue hq ?_ (Nat.le_succ _) rfl rfl rfl)
  rw [filterMap_append]
  exact append_nil _

theorem dettid_of_keptBy {w : FutexWaiter} (h : keptBy thread w = true) : w.dettid = thread := by
  unfold keptBy at h
  rw [Bool.and_eq_true, decide_eq_true_eq] at h
  exact h.2

theorem Inv.parkAgain (hs : Inv s) {again : FutexWaiter → FutexWaiter}
    (hagain : ∀ w, piKey (again w) = some (thread, w.arrived) ∧ (again w).dettid = thread ∧
      callOf f (again w) = .parked (some f)) (hkept : (s.queue f).any (keptBy thread) = true)
    (hplace : ∀ g w, w ∈ s.queue g → w.dettid = thread → g = f ∧ w.pi = true) :
    Inv (s.parkOn f (amend (keptBy thread) again (s.queue f)) thread (.parked (some f))) := by
  have hids : (amend (keptBy thread) again (s.queue f)).map (·.dettid) =
      (s.queue f).map (·.dettid) :=
    map_amend fun w _ hw => (hagain w).2.1.trans (dettid_of_keptBy hw).symm
  have hq := replaces_parkOn s f (amend (keptBy thread) again (s.queue f)) thread (.parked (some f))
  refine ⟨hs.placed.amendPlace hq hids ?_ (fun g w hw heq => (hplace g w hw heq).1) rfl, ?_⟩
  · -- The changed waiter is the only one of its thread.
    intro w hw
    by_cases hw' : w.dettid = thread
    · obtain ⟨x, -, -, hx⟩ := exists_mem_amend (f := again) hkept
      have hnodup := hs.placed.nodup f
      rw [← hids] at hnodup
      have heq : w = again x :=
        inj_on_of_nodup_map hnodup hw hx (hw'.trans (hagain x).2.1.symm)
      rw [heq, (hagain x).2.2]
      exact .inr ⟨(hagain x).2.1, rfl⟩
    · rcases mem_amend hw with hw | ⟨x, -, -, rfl⟩
      · exact .inl ⟨hw', hw⟩
      · exact absurd (hagain x).2.1 hw'
  · refine hs.inLine.relax (.of_queue hq ?_ (Nat.le_succ _) rfl rfl rfl)
    refine filterMap_amend fun w hw hkeptw => ?_
    have hw' := dettid_of_keptBy hkeptw
    rw [(hagain w).1]
    unfold piKey
    rw [if_pos (hplace f w hw hw').2, hw']

theorem Inv.parkPi (hs : Inv s) (bitset : Word)
    (hown : s.ownerOf f = some owner) (hclear : ¬ ReflTransGen s.WaitsFor owner thread)
    (hplace : ∀ g w, w ∈ s.queue g → w.dettid = thread → g = f ∧ w.pi = true ∧ w.woken = true) :
    Inv (s.parkFutexWaiter thread f bitset true) := by
  unfold parkFutexWaiter
  by_cases hkept : (s.queue f).any (keptBy thread) = true
  · rw [if_pos (by rw [hkept]; rfl)]
    refine hs.parkAgain (fun w => ⟨rfl, rfl, rfl⟩) hkept fun g w hw heq => ?_
    exact ⟨(hplace g w hw heq).1, (hplace g w hw heq).2.1⟩
  · rw [if_neg (by simpa using hkept)]
    show Inv (s.parkOn f (s.queue f ++ [⟨thread, bitset, true, false, s.arrivals⟩]) thread
      (.parked (some f)))
    have hq := replaces_parkOn s f (s.queue f ++ [⟨thread, bitset, true, false, s.arrivals⟩])
      thread (.parked (some f))
    refine ⟨hs.placed.push hq ?_ rfl, ?_⟩
    · intro g w hw heq
      obtain ⟨rfl, -, hwok⟩ := hplace g w hw heq
      refine hkept (any_eq_true.mpr ⟨w, hw, ?_⟩)
      unfold keptBy
      rw [hwok, decide_eq_true heq]
      rfl
    · refine hs.inLine.push (fun g => ?_) hown hclear rfl rfl rfl rfl
      rw [hq.piKeys]
      by_cases hg : g = f
      · subst hg
        rw [if_pos rfl, if_pos rfl, filterMap_append]
        rfl
      · rw [if_neg hg, if_neg hg]

/-- A caller told to block records the owner if nobody is recorded, and parks. -/
theorem Inv.sleep (hs : Inv s) (hown : ∀ b, s.ownerOf f = some b → b = owner)
    (hclear : ¬ ReflTransGen s.WaitsFor owner thread)
    (hplace : ∀ g w, w ∈ s.queue g → w.dettid = thread → g = f ∧ w.pi = true ∧ w.woken = true) :
    Inv (s.sleepPiFutexWaiter thread f owner) := by
  have htrim := trims_livePiFutexOwner s f
  have hfnd := livePiFutexOwner_fst s f
  have hq : (s.livePiFutexOwner f).2.queue = s.queue := by
    obtain ⟨owners, hst, -⟩ := htrim
    rw [hst]
    rfl
  -- Without a live record nobody live waits on the word.
  have hnobo : (s.livePiFutexOwner f).1 = none →
      ∀ a, s.PiWaiter a f → s.doomed a = true := by
    intro hnone a ha
    by_contra hlive
    obtain ⟨b, hb⟩ := hs.inLine.owned f a ha (Bool.eq_false_of_not_eq_true hlive)
    rw [livePiFutexOwner_of_piWaiter ha, hb] at hnone
    cases hnone
  unfold sleepPiFutexWaiter
  rcases hpair : s.livePiFutexOwner f with ⟨found, s'⟩
  rw [hpair] at htrim hfnd hq hnobo
  dsimp only at htrim hfnd hq hnobo
  have hs' : Inv s' := hs.thin htrim.thins
  cases found with
  | some b =>
    have hb : b = owner := hown b (htrim.ownerOf hfnd.symm)
    subst hb
    refine hs'.parkPi _ hfnd.symm ?_ (by rw [hq]; exact hplace)
    exact fun hpath => hclear (ReflTransGen.mono (fun a c hac => htrim.waitsFor_of hac) _ _ hpath)
  | none =>
    have hdoom : s'.doomed = s.doomed := by
      obtain ⟨owners, hst, -⟩ := htrim
      rw [hst]
      rfl
    have hnobo' : ∀ a, s'.PiWaiter a f → s'.doomed a = true := by
      rintro a ⟨w, hw, hpi, rfl⟩
      rw [hq] at hw
      rw [hdoom]
      exact hnobo rfl _ ⟨w, hw, hpi, rfl⟩
    have hset := Thins.setPiFutexOwner (s := s') owner none hnobo'
    refine (hs'.thin hset).parkPi _ (ownerOf_setPiFutexOwner_same s' f owner none) ?_ ?_
    · intro hpath
      refine hclear (ReflTransGen.mono (fun a c hac => ?_) _ _ hpath)
      obtain ⟨ha, hc, g, hwait, hreco⟩ := hac
      refine htrim.waitsFor_of ⟨ha, hc, g, hwait, ?_⟩
      by_cases hg : g = f
      · subst hg
        have ha' := hnobo' a hwait
        rw [show s'.doomed a = false from ha] at ha'
        exact absurd ha' Bool.noConfusion
      · rwa [ownerOf_setPiFutexOwner_ne s' hg] at hreco
    · show ∀ g w, w ∈ s'.queue g → _
      rw [hq]
      exact hplace

/-! ## Lock and unlock calls -/

theorem Inv.lockPass (hs : Inv s) {word : Word} {trylock interrupted : Bool} {ended : State → State}
    (hended : ∀ s', Trims s s' → Inv (ended s'))
    (hplace : ∀ g w, w ∈ s.queue g → w.dettid = thread → g = f ∧ w.pi = true ∧ w.woken = true) :
    Inv (s.lockPass thread f word trylock interrupted ended) := by
  have htrim := trims_piFutexState s f (wordOwner word) thread
  unfold State.lockPass
  dsimp only
  cases hstep : lockPiStep word (guestTid thread) (s.piFutexState f (wordOwner word) thread).1
      trylock with
  | fail | acquire => exact hended _ htrim
  | block owner write =>
    cases interrupted with
    | true => exact hended _ htrim
    | false =>
      obtain ⟨hown, hclear⟩ := block_spec hs.placed hstep
      refine (hs.thin htrim.thins).sleep hown ?_ ?_
      · exact fun hpath =>
          hclear (ReflTransGen.mono (fun a c hac => htrim.waitsFor_of hac) _ _ hpath)
      · obtain ⟨owners, hst, -⟩ := htrim
        rw [hst]
        exact hplace

/-- Taking a handed lock leaves its owner recorded, or nobody waits on it. -/
theorem takeHandedPiFutex_spec (hs : Inv s) (f : FutexID) (thread : DetTid) :
    Inv (s.takeHandedPiFutex f thread).2 ∧
      ∃ owners, (s.takeHandedPiFutex f thread).2 = { s with piFutexOwners := owners } := by
  unfold takeHandedPiFutex
  cases hrec : s.piFutexOwners[f]? with
  | none => exact ⟨hs, _, rfl⟩
  | some record =>
    dsimp only
    by_cases hown : record.owner ≠ thread
    · rw [if_pos hown]
      exact ⟨hs, _, rfl⟩
    · rw [if_neg hown]
      cases record.handed with
      | none => exact ⟨hs, _, rfl⟩
      | some how =>
        have hthin : Thins s { s with
            piFutexOwners := s.piFutexOwners.insert f { record with handed := none } } := by
          refine Thins.of_owners _ fun g => ?_
          by_cases hg : g = f
          · subst hg
            refine .inr (.inl ?_)
            rw [getElem?_insert_same]
            unfold State.ownerOf
            rw [hrec]
            rfl
          · exact .inl (getElem?_insert_ne _ (Ne.symm hg) _)
        have htrim := trims_livePiFutexOwner { s with
          piFutexOwners := s.piFutexOwners.insert f { record with handed := none } } f
        obtain ⟨owners, hst, -⟩ := id htrim
        exact ⟨(hs.thin hthin).thin htrim.thins, owners, hst⟩

theorem Placed.place_of_answered (hs : Placed s)
    {answer : Answer} (hcall : s.nextTurns[thread]? = some (.answered (some f) answer))
    (g : FutexID) (w : FutexWaiter) (hw : w ∈ s.queue g) (heq : w.dettid = thread) :
    g = f ∧ w.pi = true ∧ w.woken = true := by
  have hw' := hs.call g w hw
  rw [heq, hcall] at hw'
  unfold callOf at hw'
  cases hpi : w.pi with
  | false => simp [hpi] at hw'
  | true =>
    cases hwok : w.woken with
    | false => simp [hpi, hwok] at hw'
    | true =>
      simp [hpi, hwok] at hw'
      exact ⟨hw'.1.symm, rfl, rfl⟩

theorem Inv.resumeLock (hs : Inv s) {answer : Answer}
    (hcall : s.nextTurns[thread]? = some (.answered (some f) answer)) (word : Word)
    (rewait : Bool) : Inv (s.resumeLock thread f answer word rewait) := by
  obtain ⟨htak, owners, hst⟩ := takeHandedPiFutex_spec hs f thread
  unfold State.resumeLock
  rcases hpair : s.takeHandedPiFutex f thread with ⟨how, s'⟩
  rw [hpair] at htak hst
  dsimp only at hst
  have hcal : s'.nextTurns = s.nextTurns := by rw [hst]
  rw [← hcal] at hcall
  cases how with
  | some how => exact htak.finishCall hcall
  | none =>
    dsimp only
    by_cases hagain : answer = .signaled ∧ rewait = true
    · rw [if_pos hagain]
      refine htak.lockPass ?_ (htak.placed.place_of_answered hcall)
      intro s'' htrim
      have hcall' : s''.nextTurns[thread]? = some (.answered (some f) answer) := by
        obtain ⟨owners, hst, -⟩ := htrim
        rw [hst]
        exact hcall
      exact (htak.thin htrim.thins).finishCall hcall'
    · rw [if_neg hagain]
      exact htak.finishCall hcall

theorem Inv.unlockPi (hs : Inv s) (thread : DetTid) (f : FutexID) (word : Word) :
    Inv (s.unlockPi thread f word) := by
  have hst := hs.thin (trims_piFutexState s f (wordOwner word) thread).thins
  unfold State.unlockPi
  dsimp only
  split
  · exact hs
  · split
    · exact hst
    · exact hst
    · exact hst.handOffPiFutex f

/-! ## Plain wakes and requeues -/

theorem pickWakees_perm (most : ℕ) (mask : Word) (waiters : List FutexWaiter) :
    ((pickWakees most mask waiters).1 ++ (pickWakees most mask waiters).2).Perm waiters := by
  induction waiters generalizing most with
  | nil => exact .refl _
  | cons w rest ih =>
    unfold pickWakees
    split
    · exact (ih _).cons w
    · exact perm_middle.trans ((ih _).cons w)

theorem pickWakees_sublist (most : ℕ) (mask : Word) (waiters : List FutexWaiter) :
    (pickWakees most mask waiters).2.Sublist waiters := by
  induction waiters generalizing most with
  | nil => exact .refl _
  | cons w rest ih =>
    unfold pickWakees
    split
    · exact (ih _).cons w
    · exact (ih _).cons_cons w

theorem Thins.keep {kept : List FutexWaiter}
    (hq : Replaces s s' f kept) (hkept : kept.Sublist (s.queue f))
    (hcall : s'.nextTurns = s.nextTurns) (harrs : s'.arrivals = s.arrivals)
    (hdoom : s'.doomed = s.doomed) (howns : s'.piFutexOwners = s.piFutexOwners)
    (hlog : s'.handOvers = s.handOvers) : Thins s s' where
  queue g := by
    by_cases hg : g = f
    · subst hg
      rwa [hq.same]
    · rw [hq.other hg]
  call g w _ := by rw [hcall]
  arrivals := harrs.ge
  doomed g w _ hlive := by rwa [hdoom] at hlive
  owner g := .inl (by unfold State.ownerOf; rw [howns])
  handOvers h hh := .inl (by rwa [hlog] at hh)

theorem Placed.free_of_perm (hs : Placed s)
    {taken kept : List FutexWaiter} (hq : Replaces s s' f kept)
    (hperm : (taken ++ kept).Perm (s.queue f)) (w : FutexWaiter) (hw : w ∈ taken) (g : FutexID)
    (v : FutexWaiter) (hv : v ∈ s'.queue g) : v.dettid ≠ w.dettid := by
  intro heq
  have hw' : w ∈ s.queue f := hperm.subset (mem_append_left _ hw)
  by_cases hg : g = f
  · subst hg
    rw [hq.same] at hv
    have hnodup := (hperm.map (·.dettid)).nodup_iff.mpr (hs.nodup g)
    rw [map_append, nodup_append] at hnodup
    exact hnodup.2.2 _ (mem_map_of_mem hw) _ (mem_map_of_mem hv) heq.symm
  · rw [hq.other hg] at hv
    exact hg (hs.unique g f v w hv hw' heq)

theorem Inv.wakeFutexWaiters (hs : Inv s) (f : FutexID) (most : ℤ) (mask : Word) :
    Inv (s.wakeFutexWaiters f most mask) := by
  unfold State.wakeFutexWaiters
  dsimp only
  split
  · exact hs
  · generalize (if most ≤ 0 then 1 else most.toNat) = n
    set reachable := (s.queue f).takeWhile fun waiter => !waiter.pi
    set beyond := (s.queue f).dropWhile fun waiter => !waiter.pi
    have hspl : reachable ++ beyond = s.queue f := takeWhile_append_dropWhile
    have hperm := pickWakees_perm n mask reachable
    have hsub := pickWakees_sublist n mask reachable
    have hq : Replaces s { s with
        futexWaiters := setQueue s.futexWaiters f ((pickWakees n mask reachable).2 ++ beyond) }
        f ((pickWakees n mask reachable).2 ++ beyond) := replaces_setQueue rfl
    have hkept : ((pickWakees n mask reachable).2 ++ beyond).Sublist (s.queue f) := by
      rw [← hspl]
      exact hsub.append (.refl beyond)
    refine (hs.thin (Thins.keep hq hkept rfl rfl rfl rfl rfl)).wakeAll _ ?_
    refine hs.placed.free_of_perm hq ?_
    rw [← append_assoc, ← hspl]
    exact hperm.append_right beyond

theorem sortRequeued_spec (sameKey : Bool) (nrWake nrRequeue count : ℕ)
    (waiters : List FutexWaiter) : let sorted := sortRequeued sameKey nrWake nrRequeue count waiters
    (sorted.woken ++ sorted.moved ++ sorted.kept).Perm waiters ∧ sorted.kept.Sublist waiters ∧
      (∀ w ∈ sorted.moved, w.pi = false) ∧ (sameKey = true → sorted.moved = []) := by
  induction waiters generalizing count with
  | nil => exact ⟨.refl _, .refl _, by simp [sortRequeued], fun _ => rfl⟩
  | cons w rest ih =>
    obtain ⟨hperm, hsub, hplain, hsame⟩ := ih (count + 1)
    unfold sortRequeued
    split
    · exact ⟨.refl _, .refl _, by simp, fun _ => rfl⟩
    · rename_i hgo
      have hpi : w.pi = false := Bool.eq_false_of_not_eq_true fun hpi => hgo (.inr hpi)
      split
      · exact ⟨hperm.cons w, hsub.cons w, hplain, hsame⟩
      · split
        · refine ⟨perm_middle.trans (hperm.cons w), hsub.cons_cons w, hplain, hsame⟩
        · rename_i hdiff
          refine ⟨?_, hsub.cons w, ?_, fun h => absurd h hdiff⟩
          · rw [append_assoc, cons_append]
            refine perm_middle.trans ?_
            rw [← append_assoc]
            exact hperm.cons w
          · intro v hv
            rcases mem_cons.mp hv with rfl | hv
            · exact hpi
            · exact hplain v hv

/-- Plain waiters without a place join the tail of a queue. -/
theorem Inv.extend (hs : Inv s) {added : List FutexWaiter}
    (hq : Replaces s s' f (s.queue f ++ added)) (hplain : ∀ w ∈ added, w.pi = false)
    (hnodup : (added.map (·.dettid)).Nodup)
    (hfree : ∀ w ∈ added, ∀ g v, v ∈ s.queue g → v.dettid ≠ w.dettid)
    (hnew : ∀ w ∈ added, s.nextTurns[w.dettid]? = some (.parked none))
    (hcall : s'.nextTurns = s.nextTurns) (harrs : s'.arrivals = s.arrivals)
    (hdoom : s'.doomed = s.doomed) (howns : s'.piFutexOwners = s.piFutexOwners)
    (hlog : s'.handOvers = s.handOvers) : Inv s' := by
  refine ⟨hs.placed.extend hq hnodup hfree (fun g w _ => by rw [hcall]) ?_, ?_⟩
  · intro w hw
    unfold callOf
    rw [hcall, hnew w hw, hplain w hw]
    rfl
  · refine hs.inLine.relax (.of_queue hq ?_ harrs.ge hdoom howns hlog)
    have hnone : added.filterMap piKey = [] := by
      rw [filterMap_eq_nil_iff]
      intro w hw
      unfold piKey
      rw [hplain w hw]
      rfl
    rw [filterMap_append, hnone, append_nil]
    rfl

theorem Inv.requeueFutexWaiters (hs : Inv s) (source target : FutexID)
    (nrWake nrRequeue : ℕ) : Inv (s.requeueFutexWaiters source target nrWake nrRequeue) := by
  unfold State.requeueFutexWaiters
  split
  · exact hs
  · obtain ⟨hperm, hsub, hplain, hsame⟩ :=
      sortRequeued_spec (decide (source = target)) nrWake nrRequeue 0 (s.queue source)
    revert hperm hsub hplain hsame
    generalize sortRequeued (decide (source = target)) nrWake nrRequeue 0 (s.queue source) = sorted
    intro hperm hsub hplain hsame
    -- First the waiters that leave are gone; then the moved ones join the other queue.
    have hq : Replaces s { s with
        futexWaiters := setQueue s.futexWaiters source sorted.kept } source sorted.kept :=
      replaces_setQueue rfl
    have hkept : Inv { s with
        futexWaiters := setQueue s.futexWaiters source sorted.kept } :=
      hs.thin (Thins.keep hq hsub rfl rfl rfl rfl rfl)
    have hfree := hs.placed.free_of_perm hq hperm
    have hnodup := (hperm.map (·.dettid)).nodup_iff.mpr (hs.placed.nodup source)
    rw [map_append, map_append, nodup_append, nodup_append] at hnodup
    have hq' : Replaces
        { s with futexWaiters := setQueue s.futexWaiters source sorted.kept }
        { s with
          futexWaiters := setQueue (setQueue s.futexWaiters source sorted.kept) target
            (OrdMap.queue (setQueue s.futexWaiters source sorted.kept) target ++ sorted.moved) }
        target (OrdMap.queue (setQueue s.futexWaiters source sorted.kept) target ++
          sorted.moved) := replaces_setQueue rfl
    refine Inv.wakeAll ?_ _ ?_
    · refine hkept.extend hq' hplain hnodup.1.2.1 ?_ ?_ rfl rfl rfl rfl rfl
      · intro w hw g v hv
        exact hfree w (mem_append_right _ hw) g v hv
      · intro w hw
        have hmem : w ∈ s.queue source :=
          hperm.subset (mem_append_left _ (mem_append_right _ hw))
        have hcall := hs.placed.call source w hmem
        unfold callOf at hcall
        rw [hplain w hw] at hcall
        exact hcall
    · intro w hw g v hv
      by_cases hg : g = target
      · subst hg
        rw [hq'.same, mem_append] at hv
        rcases hv with hv | hv
        · exact hfree w (mem_append_left _ hw) g v hv
        · exact (hnodup.1.2.2 _ (mem_map_of_mem hw) _ (mem_map_of_mem hv)).symm
      · rw [hq'.other hg] at hv
        exact hfree w (mem_append_left _ hw) g v hv

/-! ## Wakes for a signal -/

theorem insertIdx_length_append {α : Type*} (before : List α) (x : α) (after : List α) :
    (before ++ after).insertIdx before.length x = before ++ x :: after := by
  induction before with
  | nil => exact insertIdx_zero
  | cons y before ih =>
    rw [cons_append, length_cons, insertIdx_succ_cons, ih, cons_append]

theorem forceUnblock_cases (hs : Placed s) (thread : DetTid) :
    s.forceUnblock thread = s.removeFutexWaiter thread ∨
      ∃ f before waiter after, s.queue f = before ++ waiter :: after ∧ waiter.pi = true ∧
        waiter.dettid = thread ∧
        Replaces s (s.forceUnblock thread) f (before ++ { waiter with woken := true } :: after) ∧
        ∃ waiters, s.forceUnblock thread = { s with futexWaiters := waiters } := by
  unfold forceUnblock
  cases htak : s.takeParkedPiWaiter thread with
  | none => exact .inl rfl
  | some taken =>
    obtain ⟨f, at_, waiter, s'⟩ := taken
    unfold takeParkedPiWaiter at htak
    cases hon : s.piFutexWaitedOn thread with
    | none => rw [hon] at htak; cases htak
    | some g =>
      rw [hon] at htak
      dsimp only at htak
      cases hfind : (s.queue g).findIdx? fun w => w.pi && decide (w.dettid = thread) with
      | none => rw [hfind] at htak; cases htak
      | some position =>
        obtain ⟨before, w, after, hspl, rfl, hw, -⟩ := exists_split_of_findIdx? hfind
        rw [hfind] at htak
        simp only [hspl, getElem?_append_right le_rfl, Nat.sub_self,
          getElem?_cons_zero, eraseIdx_append_of_length_le le_rfl,
          eraseIdx_cons_zero, Option.some.injEq, Prod.mk.injEq] at htak
        obtain ⟨rfl, rfl, rfl, rfl⟩ := htak
        rw [Bool.and_eq_true, decide_eq_true_eq] at hw
        obtain ⟨hpi, rfl⟩ := hw
        refine .inr ⟨g, before, w, after, hspl, hpi, rfl, ?_, _, rfl⟩
        -- Nothing else of the thread is queued, so removing it again changes nothing.
        have hnodup := hs.nodup g
        rw [hspl, map_append, map_cons, nodup_middle, nodup_cons, ← map_append] at hnodup
        have hsame : (before ++ after).filter (fun v => decide (v.dettid ≠ w.dettid)) =
            before ++ after := by
          rw [filter_eq_self]
          intro v hv
          exact decide_eq_true fun heq => hnodup.1 (heq ▸ mem_map_of_mem hv)
        intro k
        unfold State.queue removeFutexWaiter
        rw [queue_setQueue]
        by_cases hk : k = g
        · subst hk
          rw [if_pos rfl, if_pos rfl]
          show insertIdx (OrdMap.queue (OrdMap.retain _ _) k) _ _ = _
          rw [queue_retain, queue_setQueue_same, hsame]
          exact insertIdx_length_append before _ after
        · rw [if_neg hk, if_neg hk, queue_retain, queue_setQueue_ne _ hk]
          rw [filter_eq_self]
          intro v hv
          refine decide_eq_true fun heq => hk ?_
          exact hs.unique k g v w hv (by rw [hspl]; simp) heq

theorem Inv.signal (hs : Inv s) {pi : Option FutexID}
    (hcall : s.nextTurns[thread]? = some (.parked pi)) :
    Inv ((s.forceUnblock thread).setCall thread (.answered pi .signaled)) := by
  rcases forceUnblock_cases hs.placed thread with heq | ⟨f, before, w, after, hspl, hpi, rfl,
    hq, waiters, hst⟩
  · rw [heq]
    exact (hs.removeFutexWaiter thread).setCall _ (removeFutexWaiter_free s thread)
  · have hmem : w ∈ s.queue f := by
      rw [hspl]
      simp
    have hpi' : pi = some f := by
      have hw := hs.placed.call f w hmem
      rw [hcall] at hw
      unfold callOf at hw
      rw [if_pos hpi] at hw
      cases hwok : w.woken with
      | true => simp [hwok] at hw
      | false => simpa [hwok] using hw
    subst hpi'
    have hq' : Replaces s
        ((s.forceUnblock w.dettid).setCall w.dettid (.answered (some f) .signaled)) f
        (before ++ { w with woken := true } :: after) := hq
    have hnodup := hs.placed.nodup f
    rw [hspl, map_append, map_cons, nodup_middle, nodup_cons, ← map_append] at hnodup
    rw [hst] at hq' ⊢
    refine ⟨hs.placed.amendPlace hq' ?_ ?_ ?_ rfl, ?_⟩
    · rw [hspl]
      simp
    · intro v hv
      rw [mem_append, mem_cons] at hv
      have hrest : v ∈ before ++ after → v.dettid ≠ w.dettid ∧ v ∈ s.queue f := by
        intro hv
        refine ⟨fun heq => hnodup.1 (heq ▸ mem_map_of_mem hv), ?_⟩
        rw [hspl, mem_append, mem_cons]
        exact (mem_append.mp hv).imp_right .inr
      rcases hv with hv | rfl | hv
      · exact .inl (hrest (mem_append_left _ hv))
      · refine .inr ⟨rfl, ?_⟩
        unfold callOf
        rw [if_pos hpi]
        rfl
      · exact .inl (hrest (mem_append_right _ hv))
    · intro g v hv heq
      exact hs.placed.unique g f v w hv hmem heq
    · refine hs.inLine.relax (.of_queue hq' ?_ le_rfl rfl rfl rfl)
      unfold State.piKeys
      rw [hspl, filterMap_append, filterMap_append]
      rfl

/-! ## Every run -/

theorem Placed.free_of_running (hs : Placed s)
    (hcall : s.nextTurns[thread]? = some .running) (f : FutexID) (w : FutexWaiter)
    (hw : w ∈ s.queue f) : w.dettid ≠ thread := by
  intro heq
  have hw' := hs.call f w hw
  rw [heq, hcall] at hw'
  unfold callOf at hw'
  split at hw'
  · split at hw' <;> simp at hw'
  · simp at hw'

theorem Inv.empty : Inv State.empty := by
  refine ⟨⟨?_, fun _ => nodup_nil, ?_⟩, ⟨fun _ => List.Pairwise.nil, ?_, ?_, ?_, ?_⟩⟩
  · intro f g v w hv
    exact absurd hv not_mem_nil
  · intro f w hw
    exact absurd hw not_mem_nil
  · intro f k hk
    exact absurd hk not_mem_nil
  · rintro f a ⟨w, hw, -⟩
    exact absurd hw not_mem_nil
  · intro a hcycle
    obtain ⟨b, ⟨-, -, f, ⟨w, hw, -⟩, -⟩, -⟩ := TransGen.head'_iff.mp hcycle
    exact not_mem_nil hw
  · intro h hh
    exact absurd hh not_mem_nil

theorem Inv.step (hs : Inv s) (event : Event) : Inv (s.step event) := by
  unfold State.step
  cases event with
  | start thread process =>
    dsimp only
    split
    · exact hs.register process ‹_›
    · exact hs
  | lock =>
    dsimp only
    split
    · rename_i hcall
      refine hs.lockPass (fun s' htrim => hs.thin htrim.thins) ?_
      intro g w hw heq
      exact absurd heq (hs.placed.free_of_running hcall g w hw)
    · exact hs
  | resume thread word rewait =>
    dsimp only
    split
    · exact hs.resumeLock ‹_› word rewait
    · exact hs.finishCall ‹_›
    · exact hs
  | unlock thread f word =>
    dsimp only
    split
    · exact hs.unlockPi thread f word
    · exact hs
  | wait thread f bitset =>
    dsimp only
    split
    · exact hs.wait f bitset (hs.placed.free_of_running ‹_›)
    · exact hs
  | wake thread f count mask =>
    dsimp only
    split
    · exact hs.wakeFutexWaiters f count mask
    · exact hs
  | requeue thread source target nrWake nrRequeue =>
    dsimp only
    split
    · exact hs.requeueFutexWaiters source target nrWake nrRequeue
    · exact hs
  | timeout thread =>
    dsimp only
    split
    · exact (hs.removeFutexWaiter thread).setCall _ (removeFutexWaiter_free s thread)
    · exact hs
  | signal thread =>
    dsimp only
    split
    · exact hs.signal ‹_›
    · exact hs
  | exit thread =>
    dsimp only
    split
    · exact (hs.commitExit thread).releasePiFutexesOf thread
    · exact hs
  | kill process => exact hs.killProcess process
  | retire thread cancels =>
    dsimp only
    split
    · exact hs.retire thread cancels
    · exact hs
  | exec thread =>
    dsimp only
    split
    · exact hs.releasePiFutexesOf thread
    · exact hs

theorem Inv.run (events : List Event) : Inv (State.run events) := by
  have hall : ∀ s, Inv s → Inv (events.foldl State.step s) := by
    induction events with
    | nil => exact fun s hs => hs
    | cons event events ih => exact fun s hs => ih _ (hs.step event)
  exact hall _ Inv.empty

/-- After every sequence of events a thread has at most one place on one futex; following lock
waiters to recorded owners among the threads that are not doomed never comes back; and every lock
that was handed over went to the longest-waiting lock waiter that was not doomed. -/
theorem pi_futexes_never_deadlock (events : List Event) :
    (∀ f g v w, v ∈ (State.run events).queue f → w ∈ (State.run events).queue g →
        v.dettid = w.dettid → f = g ∧ v = w) ∧
      (∀ f, ((State.run events).queue f).Nodup) ∧
      (∀ thread, ¬ TransGen (State.run events).WaitsFor thread thread) ∧
      ∀ h ∈ (State.run events).handOvers, h.Fair := by
  have hs := Inv.run events
  refine ⟨?_, fun f => (hs.placed.nodup f).of_map _, hs.inLine.acyclic, hs.inLine.fair⟩
  intro f g v w hv hw heq
  have hfg := hs.placed.unique f g v w hv hw heq
  subst hfg
  exact ⟨rfl, inj_on_of_nodup_map (hs.placed.nodup f) hv hw heq⟩

end State

end Hermit.PiFutex
