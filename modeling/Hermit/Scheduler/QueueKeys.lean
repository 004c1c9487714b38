import Hermit.Scheduler.QueueEntries

/-!
# Keys of the run queue

No insertion into the run queue finds its key occupied.

A turn below the run-time range is handed out once, so it belongs to one
thread: poll upgrades, suspension and restoring change only the band of an
entry. A turn in the run-time range may be handed out again, but an entry there
is never a backed-off poller, and inserting there looks for a free turn first.

* `keys_unique`
-/

namespace Hermit.Scheduler

open Hermit.Common

/-! ## Turns -/

/-- A turn below the run-time range has one entry. -/
def TurnUnique (m : Entries) : Prop :=
  ∀ (k k' : PrioritizedOrder) v v', m[k]? = some v → m[k']? = some v' → k.turn = k'.turn →
    k.turn < runTimeTurns → k = k'

variable {m m' : Entries} {owner : ℤ → Option DetTid}

theorem Relabelled.turnUnique (h : Relabelled m m') (hd : Distinct m)
    (hu : TurnUnique m) : TurnUnique m' := by
  intro k' l' v' w' hk' hl' hturn hlt
  obtain ⟨k, v, hk, hkf⟩ := h.bwd k' v' hk'
  obtain ⟨l, w, hl, hlf⟩ := h.bwd l' w' hl'
  have hturns : k.turn = l.turn := by rw [← hkf.turn, ← hlf.turn, hturn]
  have hkl : k = l := hu k l v w hk hl hturns (by rw [← hkf.turn]; exact hlt)
  -- Both came from one entry, so they are of one thread.
  subst hkl
  rw [hk] at hl
  cases hl
  exact h.distinct hd k' l' v' w' hk' hl' (hkf.tid.trans hlf.tid.symm)

/-- The entry is at a turn that its thread owns, or at a run-time turn, where no
    poller marker is. -/
def Owned (owner : ℤ → Option DetTid) (k : PrioritizedOrder) (v : QueueValue) : Prop :=
  (k.turn < runTimeTurns ∧ owner k.turn = some v.tid) ∨
    (runTimeTurns ≤ k.turn ∧ v.pollUpgrade = none)

theorem Owned.follows {k k' : PrioritizedOrder} {v v' : QueueValue}
    (h : Owned owner k v) (hf : Follows k v k' v') : Owned owner k' v' := by
  rcases h with ⟨hlt, howner⟩ | ⟨hle, hpoll⟩
  · exact .inl ⟨by rw [hf.turn]; exact hlt, by rw [hf.turn, hf.tid, howner]⟩
  · exact .inr ⟨by rw [hf.turn]; exact hle, hf.pollUpgrade hpoll⟩

/-- Giving out a turn that nobody owns takes no entry from its owner. -/
theorem Owned.update {k : PrioritizedOrder} {v : QueueValue}
    (h : Owned owner k v) {turn : ℤ} (hfrsh : owner turn = none) (tid : DetTid) :
    Owned (Function.update owner turn (some tid)) k v := by
  rcases h with ⟨hlt, howner⟩ | h
  · have hne : k.turn ≠ turn := by
      intro heq
      rw [heq, hfrsh] at howner
      cases howner
    exact .inl ⟨hlt, by rw [Function.update_of_ne hne, howner]⟩
  · exact .inr h

/-- Threads own what they were given. -/
def AllOwned (owner : ℤ → Option DetTid) (m : Entries) : Prop :=
  ∀ (k : PrioritizedOrder) v, m[k]? = some v → Owned owner k v

theorem AllOwned.of_sub (h : AllOwned owner m) (hsub : Entries.Sub m' m) : AllOwned owner m' :=
  fun k v hk => h k v (hsub k v hk)

theorem AllOwned.relabelled (h : AllOwned owner m)
    (hrel : Relabelled m m') : AllOwned owner m' := by
  intro k' v' hk'
  obtain ⟨k, v, hk, hf⟩ := hrel.bwd k' v' hk'
  exact (h k v hk).follows hf

theorem AllOwned.insert {key : PrioritizedOrder}
    {value : QueueValue} (h : AllOwned owner m) (hnew : Owned owner key value) :
    AllOwned owner (m.insert key value) := by
  intro k v hk
  rw [OrdMap.getElem?_insert_ite] at hk
  split_ifs at hk with hkk
  · cases hk
    rw [← hkk]
    exact hnew
  · exact h k v hk

/-- Nothing is queued at a turn that nobody owns. -/
theorem AllOwned.free (h : AllOwned owner m)
    (key : PrioritizedOrder) (hlt : key.turn < runTimeTurns) (hfrsh : owner key.turn = none) :
    m[key]? = none := by
  cases hm : m[key]? with
  | none => rfl
  | some v =>
    rcases h key v hm with ⟨-, howner⟩ | ⟨hle, -⟩
    · rw [hfrsh] at howner
      cases howner
    · omega

theorem AllOwned.turnUnique (h : AllOwned owner m) (hd : Distinct m) : TurnUnique m := by
  intro k k' v v' hk hk' hturn hlt
  rcases h k v hk with ⟨-, howner⟩ | ⟨hle, -⟩
  · rcases h k' v' hk' with ⟨-, howner'⟩ | ⟨hle', -⟩
    · have htid : v.tid = v'.tid := by
        rw [hturn, howner'] at howner
        exact (Option.some.inj howner).symm
      exact hd k k' v v' hk hk' htid
    · omega
  · omega

/-! ## Poll upgrades find their keys -/

namespace RunQueue

variable {R : Prng} {q q' : RunQueue R} {tid : DetTid}

theorem upgradeOne_isOk {s : Entries × List DetTid} {upgrade : PrioritizedOrder × Priority}
    {value : QueueValue} (hu : TurnUnique s.1) (hkey : s.1[upgrade.1]? = some value)
    (hlt : upgrade.1.turn < runTimeTurns) :
    ∃ s', upgradeOne s upgrade = .ok s' ∧ ∀ (k : PrioritizedOrder) v, k ≠ upgrade.1 →
      s.1[k]? = some v → s'.1[k]? = some v := by
  unfold upgradeOne
  rw [hkey]
  split_ifs with hlast
  · refine ⟨_, rfl, ?_⟩
    intro k v hne hk
    rw [OrdMap.getElem?_insert_ne _ hne.symm, hk]
  · -- The new key has the turn of the old one, which no other entry has.
    have hfree : ∀ k : PrioritizedOrder, k.turn = upgrade.1.turn →
        (s.1.erase upgrade.1)[k]? = none := by
      intro k hturn
      rw [OrdMap.getElem?_erase_ite]
      split_ifs with hk
      · rfl
      · cases hm : s.1[k]? with
        | none => rfl
        | some v => exact absurd (hu upgrade.1 k value v hkey hm hturn.symm hlt) hk
    refine ⟨_, bind_eq_ok.mpr ⟨_, insertNew_eq_ok.mpr ⟨hfree _ rfl, rfl⟩, rfl⟩, ?_⟩
    intro k v hne hk
    have herase : (s.1.erase upgrade.1)[k]? = some v := by
      rw [OrdMap.getElem?_erase_ne _ hne.symm, hk]
    have hoth : ({ upgrade.1 with priority := upgrade.2 } : PrioritizedOrder) ≠ k := by
      intro heq
      rw [hfree k (by rw [← heq])] at herase
      cases herase
    rw [OrdMap.getElem?_insert_ne _ hoth, herase]

theorem upgradeOne_foldlM_isOk (upgrades : List (PrioritizedOrder × Priority)) :
    ∀ s : Entries × List DetTid, Distinct s.1 → TurnUnique s.1 →
      upgrades.Pairwise (fun u u' => u.1 ≠ u'.1) →
      (∀ u ∈ upgrades, u.1.turn < runTimeTurns ∧ ∃ v, s.1[u.1]? = some v) →
      ∃ s', upgrades.foldlM upgradeOne s = .ok s' := by
  induction upgrades with
  | nil => intro s _ _ _ _; exact ⟨s, rfl⟩
  | cons u upgrades ih =>
    intro s hd hu hpair hmem
    rw [List.pairwise_cons] at hpair
    obtain ⟨hlt, value, hkey⟩ := hmem u List.mem_cons_self
    obtain ⟨s₁, hstep, hkeep⟩ := upgradeOne_isOk hu hkey hlt
    have hrel := upgradeOne_relabels hstep
    have hrest : ∀ u' ∈ upgrades, u'.1.turn < runTimeTurns ∧ ∃ v, s₁.1[u'.1]? = some v := by
      intro u' hu'
      obtain ⟨hlt', v, hv⟩ := hmem u' (List.mem_cons_of_mem _ hu')
      exact ⟨hlt', v, hkeep u'.1 v (hpair.1 u' hu').symm hv⟩
    obtain ⟨s', hloop⟩ := ih s₁ (hrel.distinct hd) (hrel.turnUnique hd hu) hpair.2 hrest
    rw [List.foldlM_cons]
    exact ⟨s', bind_eq_ok.mpr ⟨s₁, hstep, hloop⟩⟩

variable {owner : ℤ → Option DetTid}

/-- A poll upgrade finds every entry it located, and a free key for it. -/
theorem doPollUpgrade_isOk (hd : Distinct q.queue)
    (ho : AllOwned owner q.queue) : ∃ r, q.doPollUpgrade = .ok r := by
  have hpair : (q.entries.filterMap fun e => e.2.pollUpgrade.map (e.1, ·)).Pairwise
      (fun u u' : PrioritizedOrder × Priority => u.1 ≠ u'.1) := by
    refine List.Pairwise.filterMap _ ?_ Std.ExtTreeMap.distinct_keys_toList
    intro e e' hne u hu u' hu' heq
    obtain ⟨_, _, rfl⟩ := Option.map_eq_some_iff.mp hu
    obtain ⟨_, _, rfl⟩ := Option.map_eq_some_iff.mp hu'
    exact hne (compare_eq_iff_eq.mpr heq)
  have hmem : ∀ u ∈ q.entries.filterMap fun e => e.2.pollUpgrade.map (e.1, ·),
      u.1.turn < runTimeTurns ∧ ∃ v, q.queue[u.1]? = some v := by
    intro u hu
    obtain ⟨e, he, heu⟩ := List.mem_filterMap.mp hu
    obtain ⟨priority, hpoll, rfl⟩ := Option.map_eq_some_iff.mp heu
    refine ⟨?_, e.2, mem_entries.mp he⟩
    rcases ho e.1 e.2 (mem_entries.mp he) with ⟨hlt, -⟩ | ⟨-, hnone⟩
    · exact hlt
    · rw [hpoll] at hnone
      cases hnone
  obtain ⟨s', hloop⟩ := upgradeOne_foldlM_isOk _ (q.queue, []) hd (ho.turnUnique hd) hpair hmem
  exact ⟨_, bind_eq_ok.mpr ⟨s', hloop, rfl⟩⟩

theorem checkPollUpgrade_isOk (hback : 0 ≤ q.lastBackTurn)
    (hfr : q.lastFrontTurn ≤ 0) (hd : Distinct q.queue) (ho : AllOwned owner q.queue) :
    ∃ r, q.checkPollUpgrade = .ok r := by
  obtain ⟨⟨q', restored⟩, hup⟩ := doPollUpgrade_isOk hd ho
  unfold checkPollUpgrade
  simp only [throwIf_eq_ok, not_not]
  by_cases hdue : q.turnCounter % pollingUpgradeInterval = 0
  · refine ⟨q', ⟨hback, hfr⟩, ?_⟩
    rw [if_pos hdue]
    exact bind_eq_ok.mpr ⟨_, hup, rfl⟩
  · refine ⟨q, ⟨hback, hfr⟩, ?_⟩
    rw [if_neg hdue]
    rfl

/-! ## Insertions that succeed -/

theorem pushInner_isOk {key : PrioritizedOrder}
    {pollUpgrade : Option Priority} (hback : 0 ≤ q.lastBackTurn) (hfr : q.lastFrontTurn ≤ 0)
    (hd : Distinct q.queue) (ho : AllOwned owner q.queue) (hnew : ¬ Holds q.queue tid)
    (hlt : key.turn < runTimeTurns) (hfrsh : owner key.turn = none) :
    ∃ r, q.pushInner tid key pollUpgrade = .ok r := by
  have hfree := ho.free key hlt hfrsh
  have ho' : AllOwned (Function.update owner key.turn (some tid))
      (q.queue.insert key ⟨tid, pollUpgrade, false, false⟩) := by
    refine AllOwned.insert (fun k v hk => (ho k v hk).update hfrsh tid) (.inl ⟨hlt, ?_⟩)
    rw [Function.update_self]
  obtain ⟨q', hup⟩ := checkPollUpgrade_isOk (q := { q with
    queue := q.queue.insert key ⟨tid, pollUpgrade, false, false⟩ }) hback hfr
    (hd.insert hnew) ho'
  exact ⟨_, bind_eq_ok.mpr ⟨_, insertNew_eq_ok.mpr ⟨hfree, rfl⟩, bind_eq_ok.mpr ⟨q', hup, rfl⟩⟩⟩

end RunQueue

/-! ## The invariant -/

namespace QueueState

open RunQueue

variable {R : Prng} {s s' : QueueState R} {op : QueueOp} {out : QueueOut}

/-- The turns and the entries, queued and suspended, agree: a turn between
    the last front turn and the last back turn belongs to the thread it was
    given to, and no other turn below the run-time range is in use. -/
structure Keyed (s : QueueState R) : Prop where
  distinct : Distinct s.queue.queue
  back : 0 ≤ s.queue.lastBackTurn
  front : s.queue.lastFrontTurn ≤ 0
  owned : ∃ owner : ℤ → Option DetTid,
    (∀ t, t < s.queue.lastFrontTurn ∨ s.queue.lastBackTurn < t → owner t = none) ∧
    AllOwned owner s.queue.queue ∧ ∀ e ∈ s.suspended, Owned owner e.key e.value

theorem keyed_new (strategy : SchedHeuristic) (prng : R.State) :
    Keyed (QueueState.new strategy prng) where
  distinct := distinct_empty
  back := le_refl _
  front := le_refl _
  owned := by
    refine ⟨fun _ => none, fun _ _ => rfl, ?_, ?_⟩
    · intro k v hk
      simp [QueueState.new, RunQueue.new] at hk
    · intro e he
      simp [QueueState.new] at he

/-- What the callers of the queue promise: a thread is pushed or restored only
    while it is not queued, a restored entry is one that was suspended, and
    fewer than `2 ^ 61` things are ever queued. -/
def Promised (s : QueueState R) (op : QueueOp) : Prop :=
  (op.queues = true → s.queue.turnCounter + 1 < 2 ^ 61) ∧
  (∀ tid ∈ op.entering, ¬ Holds s.queue.queue tid) ∧ ∀ entry ∈ op.restoring, entry ∈ s.suspended

instance (s : QueueState R) (op : QueueOp) : Decidable (Promised s op) :=
  inferInstanceAs (Decidable (_ ∧ _ ∧ _))

/-- Nothing is promised of an operation that puts nothing into the queue. -/
theorem promised_of_quiet (hqueu : op.queues = false) (hente : op.entering = none)
    (hres : op.restoring = none) : Promised s op := by
  refine ⟨?_, ?_, ?_⟩
  · rw [hqueu]
    intro h
    cases h
  · rw [hente]
    intro tid h
    cases h
  · rw [hres]
    intro entry h
    cases h

theorem Keyed.turn_lt (hk : Keyed s) (hcnt : s.queue.turnCounter + 1 < 2 ^ 61) :
    s.queue.lastBackTurn + 1 < runTimeTurns ∧ s.queue.lastFrontTurn - 1 < runTimeTurns := by
  have hback := hk.back
  have hfr := hk.front
  unfold turnCounter at hcnt
  unfold runTimeTurns
  omega

variable {owner : ℤ → Option DetTid} {key : PrioritizedOrder} {value : QueueValue} {q : RunQueue R}
    {tid : DetTid}

theorem owned_restored {entry : SuspendedRunQueueEntry} {currentPriority : Priority}
    (h : Owned owner entry.key entry.value)
    (hat : entry.atPriority currentPriority = (key, value)) :
    Owned owner key value ∧ value.tid = entry.value.tid := by
  unfold SuspendedRunQueueEntry.atPriority at hat
  split_ifs at hat
  · cases hat
    refine ⟨?_, rfl⟩
    rcases h with h | ⟨hle, hpoll⟩
    · exact .inl h
    · exact .inr ⟨hle, by rw [hpoll]; rfl⟩
  · cases hat
    exact ⟨h, rfl⟩

theorem restoredKey_free (ho : AllOwned owner q.queue) (hown : Owned owner key value)
    (hnew : ¬ Holds q.queue value.tid) : q.queue[q.restoredKey key]? = none := by
  unfold restoredKey
  split_ifs with hturn
  · exact nextFreeTurn_free q.queue key
  · cases hm : q.queue[key]? with
    | none => rfl
    | some v =>
      -- Whoever is there owns the turn, as the restored thread does.
      rcases hown with ⟨-, howner⟩ | ⟨hle, -⟩
      · rcases ho key v hm with ⟨-, howner'⟩ | ⟨hle, -⟩
        · rw [howner] at howner'
          exact absurd ⟨key, v, hm, (Option.some.inj howner').symm⟩ hnew
        · exact absurd hle hturn
      · exact absurd hle hturn

theorem owned_restoredKey (hown : Owned owner key value) :
    Owned owner (q.restoredKey key) value := by
  unfold restoredKey
  split_ifs with hturn
  · rcases hown with ⟨hlt, -⟩ | ⟨-, hpoll⟩
    · omega
    · exact .inr ⟨hturn.trans (nextFreeTurn_turn q.queue _ key), hpoll⟩
  · exact hown

theorem Keyed.queued (hk : Keyed s) {m : Entries}
    (hcnt : s.queue.turnCounter + 1 < 2 ^ 61) (hsub : Entries.Sub m s.queue.queue)
    (hrel : Relabelled (m.insert key value) s'.queue.queue)
    (hturn : (key.turn = s.queue.lastBackTurn + 1 ∧
        s'.queue.lastBackTurn = s.queue.lastBackTurn + 1 ∧
        s'.queue.lastFrontTurn = s.queue.lastFrontTurn) ∨
      (key.turn = s.queue.lastFrontTurn - 1 ∧ s'.queue.lastBackTurn = s.queue.lastBackTurn ∧
        s'.queue.lastFrontTurn = s.queue.lastFrontTurn - 1))
    (hpool : s'.suspended = s.suspended) (hd : Distinct s'.queue.queue) : Keyed s' := by
  obtain ⟨owner, hrange, hall, hsusp⟩ := hk.owned
  have hlt := hk.turn_lt hcnt
  have hback := hk.back
  have hfr := hk.front
  have hfrsh : owner key.turn = none := hrange _ (by omega)
  refine ⟨hd, by omega, by omega, Function.update owner key.turn (some value.tid), ?_, ?_, ?_⟩
  · intro t ht
    rw [Function.update_of_ne (by omega)]
    exact hrange t (by omega)
  · refine AllOwned.relabelled (AllOwned.insert ?_ (.inl ⟨by omega, ?_⟩)) hrel
    · exact fun k v hkv => ((hall.of_sub hsub) k v hkv).update hfrsh _
    · rw [Function.update_self]
  · intro e he
    rw [hpool] at he
    exact (hsusp e he).update hfrsh _

/-- Every promised operation keeps the turns and the threads in agreement. -/
theorem step_keyed (hk : Keyed s) (hp : Promised s op) (h : s.step op = .ok (s', out)) :
    Keyed s' := by
  have hd := step_distinct h hk.distinct
  obtain ⟨owner, hrange, hall, hsusp⟩ := hk.owned
  cases step_entries h with
  | shrunk hsub hturns hpool =>
    refine ⟨hd, by rw [hturns.back]; exact hk.back, by rw [hturns.front]; exact hk.front,
      owner, ?_, hall.of_sub hsub, ?_⟩
    · rw [hturns.back, hturns.front]
      exact hrange
    · intro e he
      rcases hpool e he with he | he
      · exact hsusp e he
      · exact hall e.key e.value he
  | queued m key value hop hsub hfree hrel _ hturn hpool =>
    exact hk.queued (hp.1 hop) hsub hrel hturn hpool hd
  | restored entry currentPriority key value hop hat hnew hfree hs' =>
    subst hop
    obtain ⟨hown, -⟩ := owned_restored (hsusp entry (hp.2.2 entry rfl)) hat
    subst hs'
    exact ⟨hd, hk.back, hk.front, owner, hrange, hall.insert (owned_restoredKey hown), hsusp⟩
  | ordered order hunlocked hq' hpool =>
    obtain ⟨m, hm, -, -, hentr⟩ := orderByRunTime_spec hunlocked order hk.distinct
    have heq := Except.ok.inj (hm.symm.trans hq')
    refine ⟨hd, by rw [← heq]; exact hk.back, by rw [← heq]; exact hk.front, owner, ?_, ?_, ?_⟩
    · rw [← heq]
      exact hrange
    · rw [← heq]
      intro k v hkv
      rcases hentr k v hkv with hkv | ⟨hle, hpoll, -⟩
      · exact hall k v hkv
      · exact .inr ⟨hle, hpoll⟩
    · rw [hpool]
      exact hsusp
  | upgraded hrel hturns hpool =>
    refine ⟨hd, by rw [hturns.back]; exact hk.back, by rw [hturns.front]; exact hk.front,
      owner, ?_, hall.relabelled hrel, ?_⟩
    · rw [hturns.back, hturns.front]
      exact hrange
    · rw [hpool]
      exact hsusp

/-! ## No insertion fails -/

theorem checkUnlocked_avoids (q : RunQueue R) : Avoids .occupied q.checkUnlocked := by
  unfold checkUnlocked
  split_ifs
  · exact .throw (by decide)
  · exact .pure _

theorem pushSafetyCheck_avoids (q : RunQueue R) (tid : DetTid) :
    Avoids .occupied (q.pushSafetyCheck tid) := by
  unfold pushSafetyCheck
  split_ifs
  · exact .throw (by decide)
  · exact .pure _

theorem Keyed.pushInner_isOk (hk : Keyed s) (hcnt : s.queue.turnCounter + 1 < 2 ^ 61)
    (hq : q.queue = s.queue.queue) (hnew : ¬ Holds q.queue tid)
    (key : PrioritizedOrder) (pollUpgrade : Option Priority) (hback : 0 ≤ q.lastBackTurn)
    (hfr : q.lastFrontTurn ≤ 0) (hturn : key.turn = s.queue.lastBackTurn + 1 ∨
      key.turn = s.queue.lastFrontTurn - 1) : ∃ r, q.pushInner tid key pollUpgrade = .ok r := by
  obtain ⟨owner, hrange, hall, -⟩ := hk.owned
  have hlt := hk.turn_lt hcnt
  have hd : Distinct q.queue := by rw [hq]; exact hk.distinct
  have ho : AllOwned owner q.queue := by rw [hq]; exact hall
  exact RunQueue.pushInner_isOk hback hfr hd ho hnew (by omega) (hrange _ (by omega))

theorem Keyed.pushBackInner_isOk (hk : Keyed s) (hcnt : s.queue.turnCounter + 1 < 2 ^ 61)
    (hq : q.queue = s.queue.queue) (hturns : SameTurns s.queue q)
    (hnew : ¬ Holds q.queue tid) (priority : Priority) (pollUpgrade : Option Priority) :
    ∃ r, q.pushBackInner tid priority pollUpgrade = .ok r := by
  have hback := hk.back
  have hfr := hk.front
  exact hk.pushInner_isOk hcnt (q := { q with lastBackTurn := q.lastBackTurn + 1 }) hq
    hnew ⟨priority, q.lastBackTurn + 1⟩ pollUpgrade
    (by dsimp only; rw [hturns.back]; omega) (by rw [hturns.front]; exact hfr)
    (.inl (by rw [hturns.back]))

theorem Keyed.pushFrontInner_avoids (hk : Keyed s) (hcnt : s.queue.turnCounter + 1 < 2 ^ 61)
    (hnew : ¬ Holds s.queue.queue tid) (priority : Priority) (pollUpgrade : Option Priority) :
    Avoids .occupied (s.queue.pushFrontInner tid priority pollUpgrade) := by
  have hfr := hk.front
  obtain ⟨r, hr⟩ := hk.pushInner_isOk hcnt
    (q := { s.queue with lastFrontTurn := s.queue.lastFrontTurn - 1 }) rfl hnew
    ⟨priority, s.queue.lastFrontTurn - 1⟩ pollUpgrade hk.back (by dsimp only; omega)
    (.inr rfl)
  exact .of_ok hr

theorem Keyed.pushBack_avoids (hk : Keyed s) (hcnt : s.queue.turnCounter + 1 < 2 ^ 61)
    (q : RunQueue R) (hq : q.queue = s.queue.queue) (hturns : SameTurns s.queue q) (tid : DetTid)
    (priority : Priority) : Avoids .occupied (q.pushBack tid priority) := by
  refine .bind (checkUnlocked_avoids q) fun _ _ => ?_
  refine .bind (pushSafetyCheck_avoids q tid) fun _ hsafe => ?_
  refine .throwIf (by decide) fun _ => ?_
  obtain ⟨r, hr⟩ := hk.pushBackInner_isOk hcnt hq hturns (pushSafetyCheck_eq_ok.mp hsafe)
    priority none
  exact .of_ok hr

theorem Keyed.restorePollerPriority_avoids (hk : Keyed s)
    (hcnt : s.queue.turnCounter + 1 < 2 ^ 61) (tid : DetTid) :
    Avoids .occupied (s.queue.restorePollerPriority tid) := by
  obtain ⟨owner, hrange, hall, -⟩ := hk.owned
  have hlt := hk.turn_lt hcnt
  have hback := hk.back
  have hfrsh : owner (s.queue.lastBackTurn + 1) = none := hrange _ (by omega)
  refine .bind (checkUnlocked_avoids _) fun _ _ => ?_
  split
  · exact .pure _
  rename_i key value hfind
  obtain ⟨hkey, htid⟩ := find_eq_some hfind
  split
  · exact .pure _
  rename_i priority hpoll
  have hsub := Entries.sub_erase s.queue.queue key
  have hnew : ¬ Holds (s.queue.queue.erase key) (restoredPoller key value).tid :=
    fun hholds => ((holds_erase hk.distinct hkey _).mp hholds).1 rfl
  have hfree := (hall.of_sub hsub).free ⟨priority, s.queue.lastBackTurn + 1⟩ hlt.1 hfrsh
  have hall' : AllOwned (Function.update owner (s.queue.lastBackTurn + 1) (some value.tid))
      ((s.queue.queue.erase key).insert ⟨priority, s.queue.lastBackTurn + 1⟩
        (restoredPoller key value)) := by
    refine AllOwned.insert (fun k v hkv => (hall k v (hsub k v hkv)).update hfrsh _)
      (.inl ⟨hlt.1, ?_⟩)
    rw [Function.update_self]
    rfl
  obtain ⟨q', hup⟩ := checkPollUpgrade_isOk (q := { s.queue with
      queue := (s.queue.queue.erase key).insert ⟨priority, s.queue.lastBackTurn + 1⟩
        (restoredPoller key value)
      lastBackTurn := s.queue.lastBackTurn + 1 }) (by dsimp only; omega) hk.front
    ((hk.distinct.of_sub hsub).insert hnew) hall'
  exact .of_ok (bind_eq_ok.mpr ⟨_, insertNew_eq_ok.mpr ⟨hfree, rfl⟩, bind_eq_ok.mpr ⟨q', hup, rfl⟩⟩)

theorem draw_avoids (q : RunQueue R) (out : Finset DetTid) : Avoids .occupied (q.draw out) := by
  unfold draw
  dsimp only
  split_ifs
  · exact .throw (by decide)
  · exact .pure _

theorem select_avoids (q : RunQueue R) (out : Finset DetTid) : Avoids .occupied (q.select out) := by
  unfold select
  split
  · exact .pure _
  · exact .pure _
  · split_ifs
    · exact .pure _
    · split
      · exact .pure _
      · exact .bind (draw_avoids q out) fun _ _ => .pure _
  · split_ifs
    · exact .pure _
    · split
      · exact .pure _
      · exact .bind (draw_avoids q out) fun _ _ => .pure _

theorem removeFirst_avoids (q : RunQueue R) (tid : DetTid) :
    Avoids .occupied (q.removeFirst tid) := by
  unfold removeFirst
  split
  · exact .throw (by decide)
  · exact .pure _

theorem commitSelection_avoids (q : RunQueue R) : Avoids .occupied q.commitSelection := by
  unfold commitSelection
  split
  · exact .throw (by decide)
  · refine .bind ?_ fun _ _ => .throwIf (by decide) fun _ => .pure _
    unfold removeSelection
    split_ifs
    · exact removeFirst_avoids _ _
    · split
      · exact .throw (by decide)
      · exact removeFirst_avoids _ _

theorem Keyed.pushYielded_avoids (hk : Keyed s) (hcnt : s.queue.turnCounter + 1 < 2 ^ 61)
    (tid : DetTid) (priority : Priority) : Avoids .occupied (s.queue.pushYielded tid priority) := by
  unfold pushYielded
  refine .throwIf (by decide) fun _ => ?_
  exact hk.pushBack_avoids hcnt { s.queue with
    yieldedSkip := some tid
    queuedByYield := insert tid s.queue.queuedByYield } rfl ⟨rfl, rfl⟩ tid priority

theorem Keyed.pushYieldedIntoEpoch_avoids (hk : Keyed s)
    (hcnt : s.queue.turnCounter + 1 < 2 ^ 61) (tid : DetTid) (priority : Priority) :
    Avoids .occupied (s.queue.pushYieldedIntoEpoch tid priority) := by
  refine hk.pushBack_avoids hcnt _ ?_ ⟨?_, ?_⟩ tid priority
  · exact countYield_queue _ _
  · exact countYield_lastBackTurn _ _
  · exact countYield_lastFrontTurn _ _

theorem Keyed.pushPoller_avoids (hk : Keyed s) (hcnt : s.queue.turnCounter + 1 < 2 ^ 61)
    (tid : DetTid) (normalPriority : Priority) (pollAttempt : ℕ) :
    Avoids .occupied (s.queue.pushPoller tid normalPriority pollAttempt) := by
  refine .bind (checkUnlocked_avoids _) fun _ _ => ?_
  refine .bind (pushSafetyCheck_avoids _ tid) fun _ hsafe => ?_
  obtain ⟨r, hr⟩ := hk.pushBackInner_isOk hcnt rfl (.refl _) (pushSafetyCheck_eq_ok.mp hsafe)
    (backoffPriority normalPriority pollAttempt) (some normalPriority)
  exact .of_ok hr

theorem Keyed.pushFront_avoids (hk : Keyed s) (hcnt : s.queue.turnCounter + 1 < 2 ^ 61)
    (tid : DetTid) (priority : Priority) : Avoids .occupied (s.queue.pushFront tid priority) := by
  refine .bind (checkUnlocked_avoids _) fun _ _ => ?_
  refine .bind (pushSafetyCheck_avoids _ tid) fun _ hsafe => ?_
  refine .throwIf (by decide) fun _ => ?_
  exact hk.pushFrontInner_avoids hcnt (pushSafetyCheck_eq_ok.mp hsafe) _ _

theorem Keyed.pushEagerIoRepoll_avoids (hk : Keyed s) (hcnt : s.queue.turnCounter + 1 < 2 ^ 61)
    (tid : DetTid) : Avoids .occupied (s.queue.pushEagerIoRepoll tid) := by
  refine .bind (checkUnlocked_avoids _) fun _ _ => ?_
  refine .bind (pushSafetyCheck_avoids _ tid) fun _ hsafe => ?_
  exact hk.pushFrontInner_avoids hcnt (pushSafetyCheck_eq_ok.mp hsafe) _ _

theorem suspend_avoids (q : RunQueue R) (tid : DetTid) (persistentPriority : Priority) :
    Avoids .occupied (q.suspend tid persistentPriority) := by
  refine .bind (checkUnlocked_avoids _) fun _ _ => ?_
  split <;> exact .pure _

theorem Keyed.restore_avoids (hk : Keyed s) {entry : SuspendedRunQueueEntry}
    (hmem : entry ∈ s.suspended) (currentPriority : Priority) :
    Avoids .occupied (s.queue.restore entry currentPriority) := by
  obtain ⟨owner, -, hall, hsusp⟩ := hk.owned
  rcases hat : entry.atPriority currentPriority with ⟨key, value⟩
  obtain ⟨hown, htid⟩ := owned_restored (hsusp entry hmem) hat
  refine .bind (checkUnlocked_avoids _) fun _ _ => ?_
  refine .throwIf (by decide) fun hcont => ?_
  rw [containsTid_iff, ← htid] at hcont
  have hfree := restoredKey_free hall hown hcont
  rw [hat]
  exact .bind (.of_ok (insertNew_eq_ok.mpr ⟨hfree, rfl⟩)) fun _ _ => .pure _

theorem Keyed.orderByRunTime_avoids (hk : Keyed s) (order : List (DetTid × ℕ × ℕ)) :
    Avoids .occupied (s.queue.orderByRunTime order) := by
  cases hlock : s.queue.tentativeSelection with
  | none =>
    obtain ⟨m, hm, -⟩ := orderByRunTime_spec hlock order hk.distinct
    exact .of_ok hm
  | some tid =>
    refine .bind (checkUnlocked_avoids _) fun _ hunlocked => ?_
    rw [checkUnlocked_eq_ok, hlock] at hunlocked
    cases hunlocked

theorem tentativePopNext_avoids (q : RunQueue R) : Avoids .occupied q.tentativePopNext := by
  unfold tentativePopNext
  exact .throwIf (by decide) fun _ => select_avoids _ _

theorem tentativePopTid_avoids (q : RunQueue R) (tid : DetTid) :
    Avoids .occupied (q.tentativePopTid tid) := by
  refine .bind (checkUnlocked_avoids _) fun _ _ => ?_
  split_ifs <;> exact .pure _

theorem undoTentativePop_avoids (q : RunQueue R) : Avoids .occupied q.undoTentativePop := by
  unfold undoTentativePop
  split_ifs
  · exact .pure _
  · exact .throw (by decide)

theorem Keyed.upgradePollers_avoids (hk : Keyed s) : Avoids .occupied s.queue.upgradePollers := by
  obtain ⟨owner, -, hall, -⟩ := hk.owned
  obtain ⟨r, hr⟩ := doPollUpgrade_isOk hk.distinct hall
  exact .bind (checkUnlocked_avoids _) fun _ _ => .of_ok hr

theorem step_avoids (hk : Keyed s) (hp : Promised s op) : Avoids .occupied (s.step op) := by
  cases op with
  | pushBack tid priority => exact .map (hk.pushBack_avoids (hp.1 rfl) _ rfl (.refl _) tid priority)
  | pushYielded tid priority => exact .map (hk.pushYielded_avoids (hp.1 rfl) tid priority)
  | pushYieldedIntoEpoch tid priority =>
    exact .map (hk.pushYieldedIntoEpoch_avoids (hp.1 rfl) tid priority)
  | pushPoller tid normalPriority pollAttempt =>
    exact .map (hk.pushPoller_avoids (hp.1 rfl) tid normalPriority pollAttempt)
  | pushFront tid priority => exact .map (hk.pushFront_avoids (hp.1 rfl) tid priority)
  | pushEagerIoRepoll tid => exact .map (hk.pushEagerIoRepoll_avoids (hp.1 rfl) tid)
  | suspend tid persistentPriority => exact .map (suspend_avoids _ tid persistentPriority)
  | restore entry currentPriority => exact .map (.map (hk.restore_avoids (hp.2.2 entry rfl) currentPriority))
  | orderByRunTime order => exact .map (.map (hk.orderByRunTime_avoids order))
  | removeTid tid => exact .map (.bind (checkUnlocked_avoids _) fun _ _ => .pure _)
  | tentativePopNext => exact .map (tentativePopNext_avoids _)
  | tentativePopTid tid => exact .map (tentativePopTid_avoids _ tid)
  | commitTentativePop => exact .map (commitSelection_avoids _)
  | commitTentativePopYield => exact .map (.bind (commitSelection_avoids _) fun _ _ => .pure _)
  | commitTentativePopCompletedTurn =>
    exact .map (.bind (commitSelection_avoids _) fun _ _ => .pure _)
  | endYieldEpoch => exact .pure _
  | consumeYieldExclusion => exact .pure _
  | undoTentativePop => exact .map (.map (undoTentativePop_avoids _))
  | restorePollerPriority tid => exact .map (hk.restorePollerPriority_avoids (hp.1 rfl) tid)
  | upgradePollers => exact .map hk.upgradePollers_avoids

theorem reaches_keyed {strategy : SchedHeuristic} {prng : R.State}
    (hreach : Reaches step Promised (QueueState.new strategy prng) s) : Keyed s := by
  refine hreach.invariant Keyed (keyed_new strategy prng) ?_
  intro t op t' out ht hp hstep
  exact step_keyed ht hp hstep

/-- **Main theorem**: in every state that promised operations reach, no thread
    is queued twice, and no promised operation finds the key of an insertion
    occupied. -/
theorem keys_unique (strategy : SchedHeuristic) (prng : R.State)
    (hreach : Reaches step Promised (QueueState.new strategy prng) s) :
    Distinct s.queue.queue ∧ ∀ op, Promised s op → s.step op ≠ .error .occupied := by
  have hkeyed := reaches_keyed hreach
  exact ⟨hkeyed.distinct, fun op hp => step_avoids hkeyed hp⟩

/-- Two threads at one run-time turn: the first is suspended there, the second is
    then ordered to the same turn, and the first comes back behind it. -/
def sharedTurn : List QueueOp :=
  [.pushBack 1 1000, .pushBack 2 1000, .orderByRunTime [(1, 5, 0), (2, 9, 0)], .suspend 1 1000,
    .orderByRunTime [(2, 5, 0)],
    .restore ⟨⟨1000, runTimeTurns + 5⟩, ⟨1, none, false, false⟩, 1000⟩ 1000]

theorem keys_unique_sharedTurn : ∃ s : QueueState Prng.first,
    Reaches step Promised (QueueState.new .none ()) s ∧
    (s.queue.tids = [2, 1] ∧ Promised s (.pushBack 3 1000)) ∧
    Distinct s.queue.queue ∧ ∀ op, Promised s op → s.step op ≠ .error .occupied := by
  obtain ⟨s, hreach, hs⟩ := exists_reaches sharedTurn
    (fun s : QueueState Prng.first => s.queue.tids = [2, 1] ∧ Promised s (.pushBack 3 1000))
    (by decide +kernel : (arrive step Promised (QueueState.new .none ()) sharedTurn).any _ = true)
  exact ⟨s, hreach, hs, keys_unique .none () hreach⟩

end QueueState

end Hermit.Scheduler
