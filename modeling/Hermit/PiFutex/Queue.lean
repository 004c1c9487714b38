import Hermit.Common.Acyclic
import Hermit.PiFutex.Protocol

/-!
# The queues of priority-inheritance futexes

What holds between steps: every thread has at most one place, which agrees with where its
call stands (`Placed`); lock waiters stand in the order they arrived, behind a recorded owner,
and no thread that is not doomed waits for itself through owners (`InLine`).

Most actions only take waiters off queues, change the owner of a word nobody live waits for,
or make the owner a thread that waits for nothing (`Thins`, `Relaxes`). The one action that
adds a wait is a lock waiter joining a queue (`Inv.sleep`).
-/

namespace Hermit.PiFutex

open Common OrdMap Relation List
open Common.DepthFirst (Acyclic)

def callOf (futex : FutexID) (waiter : FutexWaiter) : Call :=
  if waiter.pi then
    if waiter.woken then .answered (some futex) .signaled else .parked (some futex)
  else .parked none

/-- What a queue keeps of a lock waiter through wakes for signals. -/
def piKey (waiter : FutexWaiter) : Option (DetTid × ℕ) :=
  if waiter.pi then some (waiter.dettid, waiter.arrived) else none

/-- The lock went to a lock waiter that was not doomed and had waited longest of those. -/
def HandOver.Fair (h : HandOver) : Prop :=
  h.successor.pi = true ∧ (h.successor, false) ∈ h.queue ∧
    ∀ waiter, (waiter, false) ∈ h.queue → waiter.pi = true →
      waiter = h.successor ∨ h.successor.arrived < waiter.arrived

namespace State

/-- The lock waiters of a futex in queue order. -/
def piKeys (s : State) (futex : FutexID) : List (DetTid × ℕ) := (s.queue futex).filterMap piKey

def PiWaiter (s : State) (thread : DetTid) (futex : FutexID) : Prop :=
  ∃ waiter ∈ s.queue futex, waiter.pi = true ∧ waiter.dettid = thread

def ownerOf (s : State) (futex : FutexID) : Option DetTid := s.piFutexOwners[futex]?.map (·.owner)

/-- A lock waiter waits for the recorded owner of the futex it is queued on; neither is
doomed. -/
def WaitsFor (s : State) (waiter owner : DetTid) : Prop :=
  s.doomed waiter = false ∧ s.doomed owner = false ∧
    ∃ futex, s.PiWaiter waiter futex ∧ s.ownerOf futex = some owner

/-- Every thread has at most one place, and its call says so. -/
structure Placed (s : State) : Prop where
  unique : ∀ f g v w, v ∈ s.queue f → w ∈ s.queue g → v.dettid = w.dettid → f = g
  nodup : ∀ f, ((s.queue f).map (·.dettid)).Nodup
  call : ∀ f w, w ∈ s.queue f → s.nextTurns[w.dettid]? = some (callOf f w)

structure InLine (s : State) : Prop where
  sorted : ∀ f, (s.piKeys f).Pairwise fun a b => a.2 < b.2
  fresh : ∀ f k, k ∈ s.piKeys f → k.2 < s.arrivals
  owned : ∀ f a, s.PiWaiter a f → s.doomed a = false → ∃ b, s.ownerOf f = some b
  acyclic : Acyclic s.WaitsFor
  fair : ∀ h ∈ s.handOvers, h.Fair

/-- What holds between steps. -/
structure Inv (s : State) : Prop where
  placed : Placed s
  inLine : InLine s

variable {s s' : State} {f : FutexID} {thread : DetTid} {how : PiHandOver} {successor : FutexWaiter}

theorem mem_piKeys {k : DetTid × ℕ} :
    k ∈ s.piKeys f ↔ ∃ w ∈ s.queue f, w.pi = true ∧ (w.dettid, w.arrived) = k := by
  unfold piKeys piKey
  rw [mem_filterMap]
  refine exists_congr fun w => and_congr_right fun _ => ?_
  cases w.pi with
  | false => simp
  | true => simp

theorem piWaiter_iff {a : DetTid} : s.PiWaiter a f ↔ ∃ k ∈ s.piKeys f, k.1 = a := by
  constructor
  · rintro ⟨w, hw, hpi, rfl⟩
    exact ⟨(w.dettid, w.arrived), mem_piKeys.mpr ⟨w, hw, hpi, rfl⟩, rfl⟩
  · rintro ⟨k, hk, rfl⟩
    obtain ⟨w, hw, hpi, rfl⟩ := mem_piKeys.mp hk
    exact ⟨w, hw, hpi, rfl⟩

theorem hasPiWaiters_iff : s.hasPiWaiters f = true ↔ ∃ a, s.PiWaiter a f := by
  unfold hasPiWaiters
  rw [any_eq_true]
  constructor
  · rintro ⟨w, hw, hpi⟩
    exact ⟨w.dettid, w, hw, hpi, rfl⟩
  · rintro ⟨_, w, hw, hpi, -⟩
    exact ⟨w, hw, hpi⟩

/-! ## What keeps the line -/

/-- The queues of lock waiters only lose waiters, and where the owner of a futex changes, nobody
live waits on it or the new owner waits for nothing. -/
structure Relaxes (s s' : State) : Prop where
  keys : ∀ f, (s'.piKeys f).Sublist (s.piKeys f)
  arrivals : s.arrivals ≤ s'.arrivals
  doomed : ∀ f a, s'.PiWaiter a f → s'.doomed a = false → s.doomed a = false
  owner : ∀ f, s'.ownerOf f = s.ownerOf f ∨ (∀ a, s'.PiWaiter a f → s'.doomed a = true) ∨
    ∃ b, s'.ownerOf f = some b ∧ ∀ g, ¬ s'.PiWaiter b g
  handOvers : ∀ h ∈ s'.handOvers, h ∈ s.handOvers ∨ h.Fair

theorem Relaxes.piWaiter (h : Relaxes s s') {a : DetTid}
    (ha : s'.PiWaiter a f) : s.PiWaiter a f := by
  obtain ⟨k, hk, rfl⟩ := piWaiter_iff.mp ha
  exact piWaiter_iff.mpr ⟨k, (h.keys f).subset hk, rfl⟩

theorem InLine.relax (hs : InLine s) (h : Relaxes s s') : InLine s' where
  sorted f := (hs.sorted f).sublist (h.keys f)
  fresh f k hk := lt_of_lt_of_le (hs.fresh f k ((h.keys f).subset hk)) h.arrivals
  owned f a ha hlive := by
    obtain ⟨b, hb⟩ := hs.owned f a (h.piWaiter ha) (h.doomed f a ha hlive)
    rcases h.owner f with hsame | hnone | ⟨b, hb, -⟩
    · exact ⟨b, hsame.trans hb⟩
    · rw [hnone a ha] at hlive
      exact absurd hlive Bool.noConfusion
    · exact ⟨b, hb⟩
  acyclic := by
    refine hs.acyclic.of_sinks ?_
    rintro a b ⟨ha, hb, f, hwait, hown⟩
    -- An owner that waits for nothing ends every path, so only a kept owner matters.
    by_cases hsink : ∃ g, s'.PiWaiter b g
    · obtain ⟨g, hg⟩ := hsink
      refine .inl ⟨h.doomed f a hwait ha, h.doomed g b hg hb, f, h.piWaiter hwait, ?_⟩
      rcases h.owner f with hsame | hnone | ⟨c, hc, hfree⟩
      · exact hsame.symm.trans hown
      · rw [hnone a hwait] at ha
        exact absurd ha Bool.noConfusion
      · rw [hown] at hc
        rw [← Option.some.inj hc] at hfree
        exact absurd hg (hfree g)
    · refine .inr fun c => ?_
      rintro ⟨-, -, g, hg, -⟩
      exact hsink ⟨g, hg⟩
  fair h' hh' := (h.handOvers h' hh').elim (hs.fair h') id

structure Thins (s s' : State) : Prop where
  queue : ∀ f, (s'.queue f).Sublist (s.queue f)
  call : ∀ f w, w ∈ s'.queue f → s'.nextTurns[w.dettid]? = s.nextTurns[w.dettid]?
  arrivals : s.arrivals ≤ s'.arrivals
  doomed : ∀ f w, w ∈ s'.queue f → s'.doomed w.dettid = false → s.doomed w.dettid = false
  owner : ∀ f, s'.ownerOf f = s.ownerOf f ∨ (∀ a, s'.PiWaiter a f → s'.doomed a = true) ∨
    ∃ b, s'.ownerOf f = some b ∧ ∀ g, ¬ s'.PiWaiter b g
  handOvers : ∀ h ∈ s'.handOvers, h ∈ s.handOvers ∨ h.Fair

theorem Thins.relaxes (h : Thins s s') : Relaxes s s' where
  keys f := (h.queue f).filterMap piKey
  arrivals := h.arrivals
  doomed f a ha hlive := by
    obtain ⟨w, hw, -, rfl⟩ := ha
    exact h.doomed f w hw hlive
  owner := h.owner
  handOvers := h.handOvers

theorem Placed.thin (hs : Placed s) (h : Thins s s') : Placed s' where
  unique f g v w hv hw := hs.unique f g v w ((h.queue f).subset hv) ((h.queue g).subset hw)
  nodup f := (hs.nodup f).sublist ((h.queue f).map _)
  call f w hw := (h.call f w hw).trans (hs.call f w ((h.queue f).subset hw))

theorem Inv.thin (hs : Inv s) (h : Thins s s') : Inv s' :=
  ⟨hs.placed.thin h, hs.inLine.relax h.relaxes⟩

/-- A state that differs in nothing the queues depend on, but where calls may have changed of
threads that wait nowhere. -/
theorem Thins.of_calls (hq : ∀ f, s'.queue f = s.queue f)
    (hcall : ∀ f w, w ∈ s.queue f → s'.nextTurns[w.dettid]? = s.nextTurns[w.dettid]?)
    (harrs : s'.arrivals = s.arrivals) (hdoom : s'.doomed = s.doomed)
    (hown : s'.piFutexOwners = s.piFutexOwners) (hlog : s'.handOvers = s.handOvers) :
    Thins s s' where
  queue f := by rw [hq f]
  call f w hw := hcall f w (by rwa [hq f] at hw)
  arrivals := harrs.ge
  doomed f w _ hlive := by rwa [hdoom] at hlive
  owner f := .inl (by unfold ownerOf; rw [hown])
  handOvers h hh := .inl (by rwa [hlog] at hh)

theorem Inv.setCall (hs : Inv s) (call : Call)
    (hfree : ∀ f w, w ∈ s.queue f → w.dettid ≠ thread) : Inv (s.setCall thread call) := by
  refine hs.thin (Thins.of_calls (fun _ => rfl) ?_ rfl rfl rfl rfl)
  intro f w hw
  exact getElem?_insert_ne _ (hfree f w hw).symm _

theorem Inv.wakeFutexWaiter (hs : Inv s) {waiter : FutexWaiter}
    (hfree : ∀ f w, w ∈ s.queue f → w.dettid ≠ waiter.dettid) : Inv (s.wakeFutexWaiter waiter) := by
  unfold State.wakeFutexWaiter
  split
  · exact hs.setCall _ hfree
  · exact hs

@[simp] theorem queue_wakeFutexWaiter (s : State) (waiter : FutexWaiter) (f : FutexID) :
    (s.wakeFutexWaiter waiter).queue f = s.queue f := by
  unfold wakeFutexWaiter
  split <;> rfl

theorem Inv.wakeAll (hs : Inv s) (waiters : List FutexWaiter)
    (hfree : ∀ waiter ∈ waiters, ∀ f w, w ∈ s.queue f → w.dettid ≠ waiter.dettid) :
    Inv (waiters.foldl State.wakeFutexWaiter s) := by
  induction waiters generalizing s with
  | nil => exact hs
  | cons waiter waiters ih =>
    rw [foldl_cons]
    refine ih (hs.wakeFutexWaiter (hfree waiter mem_cons_self)) ?_
    intro waiter' hmem f w hw
    rw [queue_wakeFutexWaiter] at hw
    exact hfree waiter' (mem_cons_of_mem _ hmem) f w hw

/-! ## Taking waiters off queues -/

theorem removeFutexWaiter_free (s : State) (thread : DetTid) (f : FutexID) (w : FutexWaiter)
    (hw : w ∈ (s.removeFutexWaiter thread).queue f) : w.dettid ≠ thread := by
  have hmem : w ∈ (s.queue f).filter fun waiter => decide (waiter.dettid ≠ thread) := by
    unfold removeFutexWaiter queue at hw
    rwa [queue_retain] at hw
  exact of_decide_eq_true (mem_filter.mp hmem).2

theorem Thins.retain (s : State) (p : FutexWaiter → Bool) :
    Thins s { s with futexWaiters := OrdMap.retain s.futexWaiters p } where
  queue f := by
    show (OrdMap.queue (OrdMap.retain s.futexWaiters p) f).Sublist _
    rw [queue_retain]
    exact filter_sublist
  call f w _ := rfl
  arrivals := le_rfl
  doomed f w _ hlive := hlive
  owner f := .inl rfl
  handOvers h hh := .inl hh

theorem Inv.removeFutexWaiter (hs : Inv s) (thread : DetTid) : Inv (s.removeFutexWaiter thread) :=
  hs.thin (Thins.retain s _)

theorem Inv.finishCall (hs : Inv s) {pi : Option FutexID}
    {answer : Answer} (hcall : s.nextTurns[thread]? = some (.answered pi answer)) :
    Inv (s.finishCall thread) := by
  refine (hs.thin (Thins.retain s _)).setCall _ ?_
  intro f w hw heq
  have hmem := hw
  unfold queue at hmem
  rw [queue_retain, mem_filter] at hmem
  obtain ⟨hmem, hkept⟩ := hmem
  have hw' := hs.placed.call f w hmem
  rw [heq, hcall] at hw'
  unfold callOf at hw'
  cases hwok : w.woken with
  | true => simp [keptBy, hwok, heq] at hkept
  | false => simp [hwok] at hw'; split at hw' <;> simp at hw'

/-! ## Handing over -/

theorem exists_split_of_findIdx? {α : Type*} {p : α → Bool} {xs : List α} {i : ℕ}
    (h : xs.findIdx? p = some i) : ∃ before x after, xs = before ++ x :: after ∧
      before.length = i ∧ p x = true ∧ ∀ y ∈ before, p y = false := by
  obtain ⟨hi, hp, hbef⟩ := findIdx?_eq_some_iff_getElem.mp h
  refine ⟨xs.take i, xs[i], xs.drop (i + 1), ?_, ?_, hp, ?_⟩
  · rw [cons_getElem_drop_succ, take_append_drop]
  · rw [length_take, min_eq_left hi.le]
  · intro y hy
    obtain ⟨j, hj, rfl⟩ := mem_take_iff_getElem.mp hy
    simpa using hbef j (by omega)

theorem takePiFutexSuccessor_eq_some (h : s.takePiFutexSuccessor f how = some (successor, s')) :
    ∃ before after, s.queue f = before ++ successor :: after ∧ s.mayTake successor = true ∧
      (∀ w ∈ before, s.mayTake w = false) ∧
      s' = State.setPiFutexOwner { s with
        futexWaiters := setQueue s.futexWaiters f (before ++ after)
        handOvers := s.handOvers ++ [⟨f, successor,
          (s.queue f).map fun waiter => (waiter, s.doomed waiter.dettid)⟩] }
        f successor.dettid (some how) := by
  unfold takePiFutexSuccessor piFutexSuccessor at h
  cases hfind : (s.queue f).findIdx? s.mayTake with
  | none => rw [hfind] at h; cases h
  | some position =>
    obtain ⟨before, w, after, hspl, rfl, hw, hbef⟩ := exists_split_of_findIdx? hfind
    rw [hfind] at h
    simp only [hspl, getElem?_append_right le_rfl, Nat.sub_self, getElem?_cons_zero,
      eraseIdx_append_of_length_le le_rfl, eraseIdx_cons_zero, Option.some.injEq,
      Prod.mk.injEq] at h
    obtain ⟨rfl, rfl⟩ := h
    refine ⟨before, after, hspl, hw, hbef, ?_⟩
    rw [hspl]

theorem takePiFutexSuccessor_eq_none
    (h : s.takePiFutexSuccessor f how = none) (a : DetTid) (ha : s.PiWaiter a f) :
    s.doomed a = true := by
  unfold takePiFutexSuccessor piFutexSuccessor at h
  cases hfind : (s.queue f).findIdx? s.mayTake with
  | none =>
    obtain ⟨w, hw, hpi, rfl⟩ := ha
    have hno := findIdx?_eq_none_iff.mp hfind w hw
    simpa [mayTake, hpi] using hno
  | some position =>
    obtain ⟨before, w, after, hspl, rfl, -, -⟩ := exists_split_of_findIdx? hfind
    rw [hfind] at h
    simp [hspl] at h

theorem InLine.pairwise (hs : InLine s) (f : FutexID) :
    (s.queue f).Pairwise fun v w => v.pi = true → w.pi = true → v.arrived < w.arrived := by
  have h := hs.sorted f
  unfold piKeys at h
  rw [pairwise_filterMap] at h
  refine h.imp fun {v w} hvw hv hw => ?_
  exact hvw (v.dettid, v.arrived) (by simp [piKey, hv]) (w.dettid, w.arrived) (by simp [piKey, hw])

theorem InLine.fair_of_split (hs : InLine s) {before after : List FutexWaiter}
    (hspl : s.queue f = before ++ successor :: after)
    (htake : s.mayTake successor = true) (hbef : ∀ w ∈ before, s.mayTake w = false) :
    HandOver.Fair ⟨f, successor, (s.queue f).map fun waiter => (waiter, s.doomed waiter.dettid)⟩ := by
  have hline := hs.pairwise f
  rw [hspl, pairwise_append, pairwise_cons] at hline
  obtain ⟨hpi, hlive⟩ : successor.pi = true ∧ s.doomed successor.dettid = false := by
    simpa [mayTake] using htake
  refine ⟨hpi, mem_map.mpr ⟨successor, by simp [hspl], by rw [hlive]⟩, ?_⟩
  intro w hw hwpi
  obtain ⟨v, hv, heq⟩ := mem_map.mp hw
  obtain ⟨rfl, hvlive⟩ := Prod.mk.inj heq
  rw [hspl, mem_append, mem_cons] at hv
  rcases hv with hv | rfl | hv
  · have hno := hbef v hv
    simp [mayTake, hwpi, hvlive] at hno
  · exact .inl rfl
  · exact .inr (hline.2.1.1 v hv hpi hwpi)

/-- After a hand-over the new owner waits nowhere. -/
theorem takePiFutexSuccessor_spec (hs : Inv s)
    (h : s.takePiFutexSuccessor f how = some (successor, s')) :
    Thins s s' ∧ ∀ g w, w ∈ s'.queue g → w.dettid ≠ successor.dettid := by
  obtain ⟨before, after, hspl, htake, hbef, rfl⟩ := takePiFutexSuccessor_eq_some h
  have hq : ∀ g, OrdMap.queue (setQueue s.futexWaiters f (before ++ after)) g =
      if g = f then before ++ after else s.queue g := fun g => queue_setQueue _ _ _ _
  have hsub : ∀ g, (OrdMap.queue (setQueue s.futexWaiters f (before ++ after)) g).Sublist
      (s.queue g) := by
    intro g
    rw [hq]
    by_cases hg : g = f
    · subst hg
      rw [if_pos rfl, hspl]
      exact (List.Sublist.refl before).append (sublist_cons_self successor after)
    · rw [if_neg hg]
  have hfree : ∀ g w, w ∈ OrdMap.queue (setQueue s.futexWaiters f (before ++ after)) g →
      w.dettid ≠ successor.dettid := by
    intro g w hw heq
    have hmem : successor ∈ s.queue f := by rw [hspl]; simp
    have hg : g = f := hs.placed.unique g f w successor ((hsub g).subset hw) hmem heq
    subst hg
    rw [hq, if_pos rfl] at hw
    have hnodup := hs.placed.nodup g
    rw [hspl, map_append, map_cons, nodup_middle, nodup_cons, ← map_append] at hnodup
    exact hnodup.1 (heq ▸ mem_map_of_mem hw)
  refine ⟨⟨hsub, fun _ _ _ => rfl, le_rfl, fun _ _ _ hlive => hlive, ?_, ?_⟩, hfree⟩
  · intro g
    by_cases hg : g = f
    · subst hg
      refine .inr (.inr ⟨successor.dettid, ?_, ?_⟩)
      · show Option.map _ (s.piFutexOwners.insert g _)[g]? = _
        rw [getElem?_insert_same]
        rfl
      · rintro k ⟨w, hw, -, heq⟩
        exact hfree k w hw heq
    · refine .inl ?_
      show Option.map _ (s.piFutexOwners.insert f _)[g]? = Option.map _ s.piFutexOwners[g]?
      rw [getElem?_insert_ne _ (Ne.symm hg)]
  · intro h' hh'
    rcases mem_append.mp hh' with hold | hnew
    · exact .inl hold
    · rw [mem_singleton] at hnew
      subst hnew
      exact .inr (hs.inLine.fair_of_split hspl htake hbef)

/-- The new owner is woken, or runs already. -/
theorem Inv.takeSuccessor (hs : Inv s) (h : s.takePiFutexSuccessor f how = some (successor, s')) :
    Inv (s'.wakeSuccessor successor) := by
  obtain ⟨hthin, hfree⟩ := takePiFutexSuccessor_spec hs h
  unfold wakeSuccessor
  by_cases hwok : successor.woken = true
  · rw [if_pos hwok]
    exact hs.thin hthin
  · rw [if_neg hwok]
    exact (hs.thin hthin).wakeFutexWaiter hfree

theorem Inv.handOffPiFutex (hs : Inv s) (f : FutexID) : Inv (s.handOffPiFutex f) := by
  unfold State.handOffPiFutex
  cases h : s.takePiFutexSuccessor f .unlock with
  | none => exact hs
  | some taken => exact hs.takeSuccessor h

theorem Thins.of_owners (owners : OrdMap FutexID PiFutexOwner)
    (h : ∀ f, owners[f]? = s.piFutexOwners[f]? ∨
      (owners[f]?.map (·.owner) = s.ownerOf f) ∨ ∀ a, s.PiWaiter a f → s.doomed a = true) :
    Thins s { s with piFutexOwners := owners } where
  queue f := .refl _
  call f w _ := rfl
  arrivals := le_rfl
  doomed f w _ hlive := hlive
  owner f := by
    rcases h f with hsame | hsame | hnone
    · refine .inl ?_
      show Option.map _ owners[f]? = _
      rw [hsame]
      rfl
    · exact .inl hsame
    · exact .inr (.inl hnone)
  handOvers h hh := .inl hh

theorem Inv.releasePiFutex (hs : Inv s) (f : FutexID) : Inv (s.releasePiFutex f) := by
  unfold State.releasePiFutex
  cases h : s.takePiFutexSuccessor f .ownerDeath with
  | some taken => exact hs.takeSuccessor h
  | none =>
    refine hs.thin (Thins.of_owners _ fun g => ?_)
    by_cases hg : g = f
    · subst hg
      exact .inr (.inr (takePiFutexSuccessor_eq_none h))
    · exact .inl (getElem?_erase_ne _ (Ne.symm hg))

theorem Inv.releasePiFutexesOf (hs : Inv s) (dead : DetTid) : Inv (s.releasePiFutexesOf dead) := by
  unfold State.releasePiFutexesOf
  generalize s.ownedBy dead = owned
  induction owned generalizing s with
  | nil => exact hs
  | cons f owned ih => exact ih (hs.releasePiFutex f)

/-! ## Dooming -/

theorem Thins.of_doomed (hq : s'.futexWaiters = s.futexWaiters)
    (hcall : s'.nextTurns = s.nextTurns) (harrs : s'.arrivals = s.arrivals)
    (hown : s'.piFutexOwners = s.piFutexOwners) (hlog : s'.handOvers = s.handOvers)
    (hdoom : ∀ a, s.doomed a = true → s'.doomed a = true) : Thins s s' where
  queue f := by unfold State.queue; rw [hq]
  call f w _ := by rw [hcall]
  arrivals := harrs.ge
  doomed f w _ hlive := by
    by_contra hnot
    rw [hdoom _ (Bool.eq_true_of_not_eq_false hnot)] at hlive
    exact absurd hlive Bool.noConfusion
  owner f := .inl (by unfold ownerOf; rw [hown])
  handOvers h hh := .inl (by rwa [hlog] at hh)

theorem Inv.commitExit (hs : Inv s) (thread : DetTid) :
    Inv { s with committedExits := insert thread s.committedExits } := by
  refine hs.thin (Thins.of_doomed rfl rfl rfl rfl rfl ?_)
  intro a ha
  simp only [doomed, Bool.or_eq_true, decide_eq_true_eq, Finset.mem_insert] at ha ⊢
  tauto

theorem Inv.killLogically (hs : Inv s) (thread : DetTid) :
    Inv { s with logicallyKilledThreads := insert thread s.logicallyKilledThreads } := by
  refine hs.thin (Thins.of_doomed rfl rfl rfl rfl rfl ?_)
  intro a ha
  simp only [doomed, Bool.or_eq_true, decide_eq_true_eq, Finset.mem_insert] at ha ⊢
  tauto

theorem Inv.doomProcess (hs : Inv s) (process : DetPid) :
    Inv { s with piDoomedProcesses := insert process s.piDoomedProcesses } := by
  refine hs.thin (Thins.of_doomed rfl rfl rfl rfl rfl ?_)
  intro a ha
  simp only [doomed, Bool.or_eq_true, decide_eq_true_eq, Finset.mem_insert, Option.any_eq_true_iff_get] at ha ⊢
  rcases ha with ha | ⟨hsome, ha⟩
  · exact .inl ha
  · exact .inr ⟨hsome, .inr ha⟩

theorem Inv.killProcess (hs : Inv s) (process : DetPid) : Inv (s.killProcess process) := by
  unfold State.killProcess
  have hdoom := hs.doomProcess process
  revert hdoom
  generalize { s with piDoomedProcesses := insert process s.piDoomedProcesses } = s'
  intro hs'
  dsimp only
  generalize s'.nextTurns.keys.filter _ = threads
  induction threads generalizing s' with
  | nil => exact hs'
  | cons thread threads ih => exact ih _ (hs'.releasePiFutexesOf thread)

theorem Inv.retire (hs : Inv s) (thread : DetTid) (cancels : Bool) :
    Inv (s.retire thread cancels) := by
  refine Inv.releasePiFutexesOf ?_ thread
  have hkill : Inv (if cancels then
      { s with logicallyKilledThreads := insert thread s.logicallyKilledThreads } else s) := by
    cases cancels with
    | true => exact hs.killLogically thread
    | false => exact hs
  revert hkill
  generalize (if cancels then
      { s with logicallyKilledThreads := insert thread s.logicallyKilledThreads } else s) = s'
  intro hs'
  refine (hs'.removeFutexWaiter thread).thin (Thins.of_calls (fun _ => rfl) ?_ rfl rfl rfl rfl)
  intro f w hw
  exact getElem?_erase_ne _ (removeFutexWaiter_free s' thread f w hw).symm

theorem Inv.register (hs : Inv s) (process : DetPid)
    (hfree : s.numberFree thread = true) : Inv (s.register thread process) := by
  obtain ⟨hnew, hproc⟩ : s.nextTurns[thread]? = none ∧
      ∀ (other : DetTid) (call : Call), s.nextTurns[other]? = some call →
        s.processOf[other]? ≠ some thread := by
    unfold numberFree at hfree
    rw [Bool.and_eq_true, Bool.not_eq_true', all_eq_true] at hfree
    refine ⟨(contains_eq_false _ _).mp hfree.1, ?_⟩
    intro other call hoth
    exact of_decide_eq_true (hfree.2 other ((mem_keys _ _).mpr ⟨call, hoth⟩))
  have hne : ∀ f w, w ∈ s.queue f → w.dettid ≠ thread := by
    intro f w hw heq
    have hcall := hs.placed.call f w hw
    rw [heq, hnew] at hcall
    cases hcall
  refine hs.thin
    { queue := fun f => .refl _
      call := fun f w hw => getElem?_insert_ne _ (hne f w hw).symm _
      arrivals := le_rfl
      doomed := ?_
      owner := fun f => .inl rfl
      handOvers := fun h hh => .inl hh }
  -- The doom that is forgotten is that of a process none of whose threads is registered.
  intro f w hw hlive
  have hregi := hs.placed.call f w hw
  have hoth := hproc w.dettid _ hregi
  have hkept : (s.processOf.insert thread process)[w.dettid]? = s.processOf[w.dettid]? :=
    getElem?_insert_ne _ (hne f w hw).symm _
  unfold State.register doomed at hlive
  unfold doomed
  rw [hkept] at hlive
  have hexits : w.dettid ∈ s.committedExits.erase thread ↔ w.dettid ∈ s.committedExits := by
    rw [Finset.mem_erase]
    exact and_iff_right (hne f w hw)
  cases hp : s.processOf[w.dettid]? with
  | none => simpa [hp, hexits] using hlive
  | some owner =>
    have hown : owner ≠ thread := fun heq => hoth (hp.trans (congrArg some heq))
    simpa [hp, hexits, hown] using hlive

end State

end Hermit.PiFutex
