import Hermit.Common.Keyed
import Hermit.Scheduler.RunQueue

/-!
# Entries and threads of the run queue

What the operations of the run queue do to its entries.

* `pushBackInner_eq_ok`, `pushFrontInner_eq_ok`: a push adds one entry at a
  fresh turn, and may run a poll upgrade.
-/

namespace Hermit.Scheduler

open Hermit.Common OrdMap List

/-- The map behind a run queue. -/
abbrev Entries := OrdMap PrioritizedOrder QueueValue

/-- No thread has two entries. -/
def Distinct (m : Entries) : Prop :=
  ∀ (k k' : PrioritizedOrder) v v', m[k]? = some v → m[k']? = some v' → v.tid = v'.tid → k = k'

def Holds (m : Entries) (tid : DetTid) : Prop :=
  ∃ (k : PrioritizedOrder) (v : QueueValue), m[k]? = some v ∧ v.tid = tid

instance (m : Entries) (tid : DetTid) : Decidable (Holds m tid) :=
  decidable_of_iff (∃ e ∈ m.toList, e.2.tid = tid) <| by
    constructor
    · rintro ⟨e, he, htid⟩
      exact ⟨e.1, e.2, (mem_toList m e.1 e.2).mp he, htid⟩
    · rintro ⟨k, v, hk, htid⟩
      exact ⟨(k, v), (mem_toList m k v).mpr hk, htid⟩

theorem distinct_empty : Distinct ∅ := by
  intro k k' v v' h
  simp at h

def Entries.Sub (m m' : Entries) : Prop :=
  ∀ (k : PrioritizedOrder) v, m[k]? = some v → m'[k]? = some v

theorem Entries.Sub.refl (m : Entries) : Entries.Sub m m := fun _ _ h => h

theorem Entries.sub_erase (m : Entries) (key : PrioritizedOrder) : Entries.Sub (m.erase key) m := by
  intro k v hk
  rw [getElem?_erase_ite] at hk
  split_ifs at hk
  exact hk

theorem Entries.sub_filter (m : Entries) (f : PrioritizedOrder → QueueValue → Bool) :
    Entries.Sub (m.filter f) m := by
  intro k v hk
  rw [Std.ExtTreeMap.getElem?_filter'] at hk
  exact (Option.filter_eq_some_iff.mp hk).1

variable {m m' : Entries} {key : PrioritizedOrder} {value : QueueValue}

theorem Distinct.of_sub (h : Distinct m) (hsub : Entries.Sub m' m) : Distinct m' :=
  fun k k' v v' hk hk' => h k k' v v' (hsub k v hk) (hsub k' v' hk')

theorem Distinct.insert (h : Distinct m)
    (hnew : ¬ Holds m value.tid) : Distinct (m.insert key value) := by
  intro k k' v v' hk hk' htid
  rw [getElem?_insert_ite] at hk hk'
  split_ifs at hk hk' with h1 h2 h2
  · exact h1.symm.trans h2
  · cases hk
    exact absurd ⟨k', v', hk', htid.symm⟩ hnew
  · cases hk'
    exact absurd ⟨k, v, hk, htid⟩ hnew
  · exact h k k' v v' hk hk' htid

theorem holds_insert (hfree : m[key]? = none) (tid : DetTid) :
    Holds (m.insert key value) tid ↔ value.tid = tid ∨ Holds m tid := by
  constructor
  · rintro ⟨k, v, hk, rfl⟩
    rw [getElem?_insert_ite] at hk
    split_ifs at hk
    · cases hk
      exact .inl rfl
    · exact .inr ⟨k, v, hk, rfl⟩
  · rintro (rfl | ⟨k, v, hk, rfl⟩)
    · exact ⟨key, value, getElem?_insert_same _ _ _, rfl⟩
    · have hne : key ≠ k := by
        rintro rfl
        rw [hfree] at hk
        cases hk
      exact ⟨k, v, by rw [getElem?_insert_ne _ hne, hk], rfl⟩

/-- Removing a thread's only entry removes that thread and no other. -/
theorem holds_erase (h : Distinct m) (hkey : m[key]? = some value) (tid : DetTid) :
    Holds (m.erase key) tid ↔ tid ≠ value.tid ∧ Holds m tid := by
  constructor
  · rintro ⟨k, v, hk, rfl⟩
    rw [getElem?_erase_ite] at hk
    split_ifs at hk with hne
    refine ⟨?_, k, v, hk, rfl⟩
    intro htid
    exact hne (h key k value v hkey hk htid.symm)
  · rintro ⟨hne, k, v, hk, rfl⟩
    have hkk : key ≠ k := by
      rintro rfl
      rw [hkey] at hk
      cases hk
      exact hne rfl
    exact ⟨k, v, by rw [getElem?_erase_ne _ hkk, hk], rfl⟩

/-! ## Reading the queue -/

namespace RunQueue

variable {R : Prng} {q q' : RunQueue R} {tid : DetTid}

theorem mem_entries {e : PrioritizedOrder × QueueValue} :
    e ∈ q.entries ↔ q.queue[e.1]? = some e.2 := mem_toList q.queue e.1 e.2

theorem mem_tids : tid ∈ q.tids ↔ Holds q.queue tid := by
  unfold tids
  rw [mem_map]
  constructor
  · rintro ⟨e, he, rfl⟩
    exact ⟨e.1, e.2, mem_entries.mp he, rfl⟩
  · rintro ⟨k, v, hk, rfl⟩
    exact ⟨(k, v), mem_entries.mpr hk, rfl⟩

theorem containsTid_iff : q.containsTid tid = true ↔ Holds q.queue tid := by
  unfold containsTid
  rw [decide_eq_true_eq, mem_tids]

theorem find_eq_some {key : PrioritizedOrder} {value : QueueValue}
    (h : q.find tid = some (key, value)) : q.queue[key]? = some value ∧ value.tid = tid := by
  have hmem := mem_entries.mp (mem_of_find?_eq_some h)
  have htid := find?_some h
  exact ⟨hmem, by simpa using htid⟩

theorem find_eq_none : q.find tid = none ↔ ¬ Holds q.queue tid := by
  unfold find
  rw [find?_eq_none, ← mem_tids, tids, mem_map]
  simp

theorem checkUnlocked_eq_ok : q.checkUnlocked = .ok () ↔ q.tentativeSelection = none := by
  unfold checkUnlocked
  cases q.tentativeSelection <;> simp [throw, throwThe, MonadExceptOf.throw, pure, Except.pure]

theorem pushSafetyCheck_eq_ok : q.pushSafetyCheck tid = .ok () ↔ ¬ Holds q.queue tid := by
  unfold pushSafetyCheck
  rw [← containsTid_iff]
  cases q.containsTid tid <;> simp [throw, throwThe, MonadExceptOf.throw, pure, Except.pure]

theorem insertNew_eq_ok {m m' : Entries} {key : PrioritizedOrder} {value : QueueValue} :
    insertNew m key value = .ok m' ↔ m[key]? = none ∧ m' = m.insert key value := by
  unfold insertNew
  rw [← contains_eq_false]
  cases m.contains key
  · simp [pure, Except.pure, eq_comm]
  · simp [throw, throwThe, MonadExceptOf.throw]

end RunQueue

/-! ## Poll upgrades -/

structure Follows (k : PrioritizedOrder) (v : QueueValue) (k' : PrioritizedOrder)
    (v' : QueueValue) : Prop where
  turn : k'.turn = k.turn
  tid : v'.tid = v.tid
  pollUpgrade : v.pollUpgrade = none → v'.pollUpgrade = none
  backedOff : v.isFullyBackedOffPoller k.priority = false →
    v'.isFullyBackedOffPoller k'.priority = false

theorem Follows.refl (k : PrioritizedOrder) (v : QueueValue) : Follows k v k v :=
  ⟨rfl, rfl, id, id⟩

theorem Follows.trans {k k' k'' : PrioritizedOrder} {v v' v'' : QueueValue}
    (h : Follows k v k' v') (h' : Follows k' v' k'' v'') : Follows k v k'' v'' :=
  ⟨h'.turn.trans h.turn, h'.tid.trans h.tid, fun hp => h'.pollUpgrade (h.pollUpgrade hp),
    fun hb => h'.backedOff (h.backedOff hb)⟩

/-- `m'` has the entries of `m`, each possibly upgraded. -/
structure Relabelled (m m' : Entries) : Prop where
  fwd : ∀ (k : PrioritizedOrder) v, m[k]? = some v →
    ∃ (k' : PrioritizedOrder) (v' : QueueValue), m'[k']? = some v' ∧ Follows k v k' v'
  bwd : ∀ (k' : PrioritizedOrder) v', m'[k']? = some v' →
    ∃ (k : PrioritizedOrder) (v : QueueValue), m[k]? = some v ∧ Follows k v k' v'
  distinct : Distinct m → Distinct m'

theorem Relabelled.refl (m : Entries) : Relabelled m m :=
  ⟨fun k v h => ⟨k, v, h, .refl k v⟩, fun k v h => ⟨k, v, h, .refl k v⟩, id⟩

theorem Relabelled.trans {m'' : Entries} (h : Relabelled m m') (h' : Relabelled m' m'') :
    Relabelled m m'' where
  fwd k v hk := by
    obtain ⟨k', v', hk', hf⟩ := h.fwd k v hk
    obtain ⟨k'', v'', hk'', hf'⟩ := h'.fwd k' v' hk'
    exact ⟨k'', v'', hk'', hf.trans hf'⟩
  bwd k'' v'' hk'' := by
    obtain ⟨k', v', hk', hf'⟩ := h'.bwd k'' v'' hk''
    obtain ⟨k, v, hk, hf⟩ := h.bwd k' v' hk'
    exact ⟨k, v, hk, hf.trans hf'⟩
  distinct hd := h'.distinct (h.distinct hd)

theorem Relabelled.holds (h : Relabelled m m') (tid : DetTid) : Holds m' tid ↔ Holds m tid := by
  constructor
  · rintro ⟨k', v', hk', rfl⟩
    obtain ⟨k, v, hk, hf⟩ := h.bwd k' v' hk'
    exact ⟨k, v, hk, hf.tid.symm⟩
  · rintro ⟨k, v, hk, rfl⟩
    obtain ⟨k', v', hk', hf⟩ := h.fwd k v hk
    exact ⟨k', v', hk', hf.tid⟩

theorem relabelled_move {newKey : PrioritizedOrder}
    {value' : QueueValue} (hkey : m[key]? = some value)
    (hfree : key ≠ newKey → m[newKey]? = none) (hf : Follows key value newKey value')
    (hget : ∀ k : PrioritizedOrder, m'[k]? =
      if newKey = k then some value' else if key = k then none else m[k]?) : Relabelled m m' := by
  refine ⟨?_, ?_, ?_⟩
  · intro k v hk
    by_cases hkk : key = k
    · subst hkk
      rw [hkey] at hk
      cases hk
      exact ⟨newKey, value', by rw [hget, if_pos rfl], hf⟩
    · have hne : newKey ≠ k := by
        rintro rfl
        rw [hfree hkk] at hk
        cases hk
      exact ⟨k, v, by rw [hget, if_neg hne, if_neg hkk, hk], .refl k v⟩
  · intro k v hk
    rw [hget] at hk
    split_ifs at hk with h1 h2
    · cases hk
      subst h1
      exact ⟨key, value, hkey, hf⟩
    · exact ⟨k, v, hk, .refl k v⟩
  · intro hd k k' v v' hk hk' htid
    rw [hget] at hk hk'
    split_ifs at hk hk' with h1 h2 h3 h4 h5
    · exact h1.symm.trans h2
    · cases hk
      exact absurd (hd key k' value v' hkey hk' (hf.tid.symm.trans htid)) h3
    · cases hk'
      exact absurd (hd key k value v hkey hk (hf.tid.symm.trans htid.symm)) h4
    · exact hd k k' v v' hk hk' htid

theorem relabelled_map {f : PrioritizedOrder → QueueValue → QueueValue}
    (hf : ∀ k v, Follows k v k (f k v)) : Relabelled m (m.map f) := by
  have hget : ∀ k : PrioritizedOrder, (m.map f)[k]? = m[k]?.map (f k) := by
    intro k
    exact Std.ExtTreeMap.getElem?_map
  refine ⟨?_, ?_, ?_⟩
  · intro k v hk
    exact ⟨k, f k v, by rw [hget, hk]; rfl, hf k v⟩
  · intro k v' hk
    rw [hget] at hk
    obtain ⟨v, hv, rfl⟩ := Option.map_eq_some_iff.mp hk
    exact ⟨k, v, hv, hf k v⟩
  · intro hd k k' v v' hk hk' htid
    rw [hget] at hk hk'
    obtain ⟨w, hw, rfl⟩ := Option.map_eq_some_iff.mp hk
    obtain ⟨w', hw', rfl⟩ := Option.map_eq_some_iff.mp hk'
    rw [(hf k w).tid, (hf k' w').tid] at htid
    exact hd k k' w w' hw hw' htid

namespace RunQueue

variable {R : Prng} {q q' : RunQueue R} {tid : DetTid}

theorem settle_follows (k : PrioritizedOrder) (v : QueueValue) : Follows k v k (settle k v) := by
  unfold settle
  split_ifs <;> exact ⟨rfl, rfl, id, id⟩

theorem upgradeOne_relabels {s s' : Entries × List DetTid} {upgrade : PrioritizedOrder × Priority}
    (h : upgradeOne s upgrade = .ok s') : Relabelled s.1 s'.1 := by
  unfold upgradeOne at h
  split at h
  · cases h
  · rename_i value hval
    split_ifs at h with hlast
    · cases h
      have hf : Follows upgrade.1 value upgrade.1 { value with upgradedInPlace := true } :=
        ⟨rfl, rfl, id, id⟩
      refine relabelled_move hval (absurd rfl) hf ?_
      intro k
      rw [getElem?_insert_ite]
      split_ifs <;> rfl
    · obtain ⟨m, hm, h⟩ := bind_eq_ok.mp h
      cases h
      obtain ⟨hfree, rfl⟩ := insertNew_eq_ok.mp hm
      have hf : Follows upgrade.1 value { upgrade.1 with priority := upgrade.2 }
          { value with pollUpgrade := none } := ⟨rfl, rfl, fun _ => rfl, fun _ => rfl⟩
      refine relabelled_move hval ?_ hf ?_
      · intro hne
        rwa [getElem?_erase_ne _ hne] at hfree
      · intro k
        rw [getElem?_insert_ite, getElem?_erase_ite]

theorem doPollUpgrade_relabels {restored : List DetTid} (h : q.doPollUpgrade = .ok (q', restored)) :
    ∃ m n, Relabelled q.queue m ∧ q' = { q with queue := m, pollUpgrades := n } := by
  obtain ⟨⟨m, tids⟩, hloop, h⟩ := bind_eq_ok.mp h
  cases h
  have hrel : Relabelled q.queue m := by
    refine foldlM_history (fun (s : Entries × List DetTid) _ => Relabelled q.queue s.1) ?_
      (Relabelled.refl _) hloop
    intro s _ upgrade s' hs hstep
    exact hs.trans (upgradeOne_relabels hstep)
  exact ⟨m.map settle, q.pollUpgrades + 1, hrel.trans (relabelled_map settle_follows), rfl⟩

theorem checkPollUpgrade_relabels (h : q.checkPollUpgrade = .ok q') :
    ∃ m n, Relabelled q.queue m ∧ q' = { q with queue := m, pollUpgrades := n } := by
  unfold checkPollUpgrade at h
  simp only [throwIf_eq_ok] at h
  obtain ⟨-, h⟩ := h
  split_ifs at h
  · obtain ⟨⟨q₁, restored⟩, hup, h⟩ := bind_eq_ok.mp h
    cases h
    exact doPollUpgrade_relabels hup
  · cases h
    exact ⟨q.queue, q.pollUpgrades, Relabelled.refl _, rfl⟩

/-! ## Pushes -/

/-- `q'` is `q` with one more entry, after a possible poll upgrade. -/
def Added (q q' : RunQueue R) (key : PrioritizedOrder) (value : QueueValue) : Prop :=
  q.queue[key]? = none ∧ ∃ m n, Relabelled (q.queue.insert key value) m ∧ q' = { q with
      queue := m
      pollUpgrades := n
      lastBackTurn := q'.lastBackTurn
      lastFrontTurn := q'.lastFrontTurn }

variable {key : PrioritizedOrder} {pollUpgrade : Option Priority} {priority : Priority}
    {got : DetTid} {selection : Option DetTid}

theorem pushInner_eq_ok {prio : PrioritizedOrder}
    (h : q.pushInner tid prio pollUpgrade = .ok (q', key)) :
    key = prio ∧ Added q q' prio ⟨tid, pollUpgrade, false, false⟩ ∧
      q'.lastBackTurn = q.lastBackTurn ∧ q'.lastFrontTurn = q.lastFrontTurn := by
  obtain ⟨m, hm, h⟩ := bind_eq_ok.mp h
  obtain ⟨q₁, hup, h⟩ := bind_eq_ok.mp h
  cases h
  obtain ⟨hfree, rfl⟩ := insertNew_eq_ok.mp hm
  obtain ⟨m', n, hrel, rfl⟩ := checkPollUpgrade_relabels hup
  exact ⟨rfl, ⟨hfree, m', n, hrel, rfl⟩, rfl, rfl⟩

theorem pushBackInner_eq_ok (h : q.pushBackInner tid priority pollUpgrade = .ok (q', key)) :
    Added q q' ⟨priority, q.lastBackTurn + 1⟩ ⟨tid, pollUpgrade, false, false⟩ ∧
      q'.lastBackTurn = q.lastBackTurn + 1 ∧ q'.lastFrontTurn = q.lastFrontTurn := by
  exact (pushInner_eq_ok h).2

theorem pushFrontInner_eq_ok (h : q.pushFrontInner tid priority pollUpgrade = .ok (q', key)) :
    Added q q' ⟨priority, q.lastFrontTurn - 1⟩ ⟨tid, pollUpgrade, false, false⟩ ∧
      q'.lastBackTurn = q.lastBackTurn ∧ q'.lastFrontTurn = q.lastFrontTurn - 1 := by
  exact (pushInner_eq_ok h).2

theorem Added.holds {value : QueueValue} (h : Added q q' key value)
    (tid : DetTid) : Holds q'.queue tid ↔ value.tid = tid ∨ Holds q.queue tid := by
  obtain ⟨hfree, m, n, hrel, hq'⟩ := h
  rw [hq', hrel.holds, holds_insert hfree]

/-! ## Free turns -/

theorem nextFreeTurn_turn (m : Entries) (fuel : ℕ) :
    ∀ key, key.turn ≤ (nextFreeTurn m fuel key).turn := by
  induction fuel with
  | zero => intro key; exact le_refl _
  | succ fuel ih =>
    intro key
    rw [nextFreeTurn]
    split_ifs
    · have := ih { key with turn := key.turn + 1 }
      dsimp only at this
      omega
    · exact le_refl _

def later (key : PrioritizedOrder) (n : ℕ) : PrioritizedOrder := { key with turn := key.turn + n }

theorem nextFreeTurn_contains (m : Entries) (fuel : ℕ) :
    ∀ key, m.contains (nextFreeTurn m fuel key) = true →
      ∀ n ≤ fuel, m.contains (later key n) = true := by
  induction fuel with
  | zero =>
    intro key h n hn
    obtain rfl : n = 0 := by omega
    simpa [later, nextFreeTurn] using h
  | succ fuel ih =>
    intro key h n hn
    rw [nextFreeTurn] at h
    split_ifs at h with hkey
    · cases n with
      | zero => simpa [later] using hkey
      | succ n =>
        have := ih _ h n (by omega)
        have heq : later { key with turn := key.turn + 1 } n = later key (n + 1) := by
          simp only [later, PrioritizedOrder.mk.injEq, true_and]
          omega
        rwa [heq] at this
    · exact absurd h hkey

theorem nextFreeTurn_free (m : Entries) (key : PrioritizedOrder) :
    m[nextFreeTurn m (m.size + 1) key]? = none := by
  rw [← contains_eq_false]
  by_contra hne
  have hall := nextFreeTurn_contains m (m.size + 1) key (by simpa using hne)
  have hcard : (Finset.range (m.size + 1)).card ≤ m.keys.toFinset.card := by
    refine Finset.card_le_card_of_injOn (later key) ?_ ?_
    · intro n hn
      have hn : n < m.size + 1 := by simpa using hn
      have hmem := hall n (by omega)
      rw [Std.ExtTreeMap.contains_iff_mem] at hmem
      simpa using hmem
    · intro a _ b _ hab
      simpa [later] using hab
  have hlen := m.keys.toFinset_card_le
  rw [Std.ExtTreeMap.length_keys] at hlen
  rw [Finset.card_range] at hcard
  omega

/-! ## Ordering by run time -/

theorem nextFreeTurn_priority (m : Entries) (fuel : ℕ) :
    ∀ key, (nextFreeTurn m fuel key).priority = key.priority := by
  induction fuel with
  | zero => intro key; rfl
  | succ fuel ih =>
    intro key
    rw [nextFreeTurn]
    split_ifs
    · exact ih _
    · rfl

theorem le_runTimeTurn (previous : Option PrioritizedOrder) (m : Moved) :
    runTimeTurns ≤ runTimeTurn previous m := by
  have hbase : runTimeTurns ≤ runTimeTurns + min (m.2.1.1 : ℤ) runTimeTurns := by
    have : (0 : ℤ) ≤ runTimeTurns := by decide
    omega
  unfold runTimeTurn
  split
  · split_ifs
    · exact hbase.trans (le_max_left _ _)
    · exact hbase
  · exact hbase

theorem placeByRunTime_eq (s : Entries × Option PrioritizedOrder) (m : Moved) :
    ∃ key : PrioritizedOrder, key.priority = m.1 ∧ runTimeTurn s.2 m ≤ key.turn ∧
      s.1[key]? = none ∧ placeByRunTime s m = .ok (s.1.insert key m.2.2, some key) := by
  have hfree := nextFreeTurn_free s.1 ⟨m.1, runTimeTurn s.2 m⟩
  exact ⟨_, nextFreeTurn_priority s.1 _ _, nextFreeTurn_turn s.1 _ _, hfree,
    bind_eq_ok.mpr ⟨_, insertNew_eq_ok.mpr ⟨hfree, rfl⟩, rfl⟩⟩

/-- The insertion loop never finds a key occupied. It adds the moved values in order, in their
    bands and at run-time turns, and keeps every other entry. -/
theorem placeByRunTime_foldlM (moved : List Moved) (hsort : moved.Pairwise fun a b => a.1 ≤ b.1) :
    ∀ s : Entries × Option PrioritizedOrder, (∀ last ∈ s.2, ∀ m ∈ moved, last.priority ≤ m.1) →
      ∃ (s' : Entries × Option PrioritizedOrder) (placed : List (PrioritizedOrder × Moved)),
        moved.foldlM placeByRunTime s = .ok s' ∧ placed.map (·.2) = moved ∧
        placed.Pairwise (fun a b => a.1 < b.1) ∧
        (∀ e ∈ placed, e.1.priority = e.2.1 ∧ runTimeTurns ≤ e.1.turn ∧ ∀ last ∈ s.2, last < e.1) ∧
        s'.1.toList.Perm (placed.map (fun e => (e.1, e.2.2.2)) ++ s.1.toList) := by
  induction moved with
  | nil =>
    intro s _
    exact ⟨s, [], rfl, rfl, .nil, by simp, .refl _⟩
  | cons m moved ih =>
    intro s hlast
    rw [pairwise_cons] at hsort
    obtain ⟨key, hband, hturn, hfree, hplace⟩ := placeByRunTime_eq s m
    obtain ⟨s', placed, hloop, hmoved, hkeys, hplac, hperm⟩ :=
      ih hsort.2 (s.1.insert key m.2.2, some key) (by simpa [hband] using hsort.1)
    have haft : ∀ last ∈ s.2, last < key := by
      intro last hmem
      obtain heq | hlt := (hlast last hmem m mem_cons_self).eq_or_lt
      · have hlat : last.turn + 1 ≤ runTimeTurn s.2 m := by
          rw [Option.mem_def.mp hmem]
          simp [runTimeTurn, heq]
        exact Prod.Lex.lt_iff.mpr (.inr ⟨heq.trans hband.symm, by show last.turn < key.turn; omega⟩)
      · exact Prod.Lex.lt_iff.mpr (.inl (hlt.trans_eq hband.symm))
    refine ⟨s', (key, m) :: placed, ?_, by rw [map_cons, hmoved], ?_, ?_, ?_⟩
    · rw [foldlM_cons]
      exact bind_eq_ok.mpr ⟨_, hplace, hloop⟩
    · exact pairwise_cons.mpr ⟨fun e he => (hplac e he).2.2 key rfl, hkeys⟩
    · rw [forall_mem_cons]
      refine ⟨⟨hband, (le_runTimeTurn s.2 m).trans hturn, haft⟩, fun e he => ?_⟩
      obtain ⟨hprio, hrun, hkey⟩ := hplac e he
      exact ⟨hprio, hrun, fun last hmem => (haft last hmem).trans (hkey key rfl)⟩
    · refine hperm.trans ?_
      rw [map_cons, cons_append]
      exact ((toList_insert_perm hfree _).append_left _).trans perm_middle

theorem distinct_iff : Distinct q.queue ↔ q.tids.Nodup := by
  unfold tids entries
  constructor
  · intro hd
    rw [List.Nodup, pairwise_map]
    refine List.Pairwise.imp_of_mem ?_ (pairwise_toList q.queue)
    intro a b ha hb hlt htid
    exact hlt.ne (hd a.1 b.1 a.2 b.2 (mem_entries.mp ha) (mem_entries.mp hb) htid)
  · intro hnodup k k' v v' hk hk' htid
    exact congrArg Prod.fst (inj_on_of_nodup_map hnodup
      (mem_entries (e := (k, v)).mpr hk) (mem_entries (e := (k', v')).mpr hk') htid)

theorem tids_nodup (hd : Distinct q.queue) : q.tids.Nodup := distinct_iff.mp hd

/-- An entry that is ordered by run time: a listed thread in round-robin order. -/
def listed (order : List (DetTid × ℕ × ℕ)) (e : PrioritizedOrder × QueueValue) : Bool :=
  (wantedOf order).contains e.2.tid && inRoundRobinOrder e.1 e.2

/-- An entry with its band and its run-time key. -/
def movedOf (order : List (DetTid × ℕ × ℕ)) (e : PrioritizedOrder × QueueValue) : Moved :=
  (e.1.priority, (wantedOf order)[e.2.tid]?.getD (0, 0), e.2)

structure Reordered (q : RunQueue R) (order : List (DetTid × ℕ × ℕ)) (m : Entries)
    (placed : List (PrioritizedOrder × Moved)) : Prop where
  moved : placed.map (·.2) = ((q.entries.filter (listed order)).map (movedOf order)).insertionSort
    fun a b => movedKey a ≤ movedKey b
  ascending : placed.Pairwise fun a b => a.1 < b.1
  bands : ∀ e ∈ placed, e.1.priority = e.2.1 ∧ runTimeTurns ≤ e.1.turn
  entries : m.toList.Perm (placed.map (fun e => (e.1, e.2.2.2)) ++
    q.entries.filter fun e => !listed order e)

theorem orderByRunTime_reordered (hunlocked : q.tentativeSelection = none)
    (order : List (DetTid × ℕ × ℕ)) : ∃ m placed,
      q.orderByRunTime order = .ok { q with queue := m } ∧ Reordered q order m placed := by
  set taken := q.entries.filter (listed order) with htak
  set left := taken.foldl (fun m e => m.erase e.1) q.queue with hleft
  have hsort := @pairwise_insertionSort_key Moved _ _ movedKey (taken.map (movedOf order))
  obtain ⟨s', placed, hloop, hmoved, hkeys, hplac, hperm⟩ :=
    placeByRunTime_foldlM _ (hsort.imp fun hle => Prod.Lex.monotone_fst _ _ hle) (left, none)
      (fun _ hmem => by cases hmem)
  refine ⟨s'.1, placed, ?_, hmoved, hkeys, fun e he => ?_, hperm.trans (.append_left _ ?_)⟩
  · refine bind_eq_ok.mpr ⟨(), checkUnlocked_eq_ok.mpr hunlocked, ?_⟩
    exact bind_eq_ok.mpr ⟨s', hloop, rfl⟩
  · exact ⟨(hplac e he).1, (hplac e he).2.1⟩
  · refine (perm_ext_iff_of_nodup (nodup_toList _) ((nodup_toList q.queue).filter _)).mpr ?_
    rintro ⟨k, v⟩
    have hlist : q.queue[k]? = some v →
        ((∃ e ∈ taken, e.1 = k) ↔ listed order (k, v) = true) := by
      intro hk
      constructor
      · rintro ⟨⟨k, v'⟩, he, rfl⟩
        obtain ⟨hmem, hl⟩ := mem_filter.mp he
        cases (mem_entries.mp hmem).symm.trans hk
        exact hl
      · exact fun hl => ⟨(k, v), mem_filter.mpr ⟨mem_entries.mpr hk, hl⟩, rfl⟩
    rw [mem_toList, hleft, getElem?_foldl_erase, mem_filter, mem_toList]
    by_cases hk : q.queue[k]? = some v
    · simp [hk, hlist hk]
    · simp [hk]

section Reordered

variable {order : List (DetTid × ℕ × ℕ)} {m : Entries} {placed : List (PrioritizedOrder × Moved)}
  {k : PrioritizedOrder} {v : QueueValue}

theorem Reordered.values (h : Reordered q order m placed) :
    (m.toList.map fun e => (e.1.priority, e.2)).Perm
      (q.entries.map fun e => (e.1.priority, e.2)) := by
  have hplac : (placed.map fun e => (e.1.priority, e.2.2.2)).Perm
      ((q.entries.filter (listed order)).map fun e => (e.1.priority, e.2)) := by
    have hbands : (placed.map fun e => (e.1.priority, e.2.2.2)) =
        (placed.map (·.2)).map fun m => (m.1, m.2.2) := by
      rw [map_map]
      exact map_congr_left fun e he => by simp [(h.bands e he).1]
    rw [hbands, h.moved]
    refine ((perm_insertionSort _ _).map _).trans ?_
    rw [map_map]
    rfl
  refine (h.entries.map _).trans ?_
  rw [map_append, map_map]
  refine (hplac.append_right _).trans ?_
  rw [← map_append]
  exact (filter_append_perm _ _).map _

theorem Reordered.getElem?_eq_some (h : Reordered q order m placed) : m[k]? = some v ↔
    (∃ e ∈ placed, e.1 = k ∧ e.2.2.2 = v) ∨ q.queue[k]? = some v ∧ listed order (k, v) = false := by
  rw [← mem_toList, h.entries.mem_iff, mem_append, mem_filter, mem_entries]
  simp

theorem Reordered.of_placed (h : Reordered q order m placed) {e : PrioritizedOrder × Moved}
    (he : e ∈ placed) : e.2 = movedOf order (e.1, e.2.2.2) ∧
      listed order (e.1, e.2.2.2) = true ∧ ∃ k : PrioritizedOrder, q.queue[k]? = some e.2.2.2 := by
  have hmem := mem_map_of_mem (f := (·.2)) he
  rw [h.moved, mem_insertionSort, mem_map] at hmem
  obtain ⟨⟨k, v⟩, hkv, heq⟩ := hmem
  obtain ⟨hent, hl⟩ := mem_filter.mp hkv
  obtain ⟨hband, hturn⟩ := h.bands e he
  rw [← heq] at hband ⊢
  have hpos : (0 : ℤ) ≤ runTimeTurns := by decide
  replace hband : e.1.priority = k.priority := hband
  refine ⟨by simp [movedOf, hband], ?_, k, mem_entries.mp hent⟩
  simp only [listed, inRoundRobinOrder, Bool.and_eq_true, decide_eq_true_eq, movedOf, hband] at hl ⊢
  exact ⟨hl.1, hpos.trans hturn, hl.2.2⟩

theorem Reordered.listed_iff (h : Reordered q order m placed) (hk : m[k]? = some v) :
    listed order (k, v) = true ↔ (k, movedOf order (k, v)) ∈ placed := by
  constructor
  · intro hl
    rcases h.getElem?_eq_some.mp hk with ⟨e, he, rfl, rfl⟩ | ⟨-, hnot⟩
    · exact (h.of_placed he).1 ▸ he
    · exact absurd (hl.symm.trans hnot) nofun
  · exact fun he => (h.of_placed he).2.1

end Reordered

/-- What ordering by run time leaves: every entry is an old one, or an old value
    without poll marker at a run-time turn. -/
theorem orderByRunTime_spec (hunlocked : q.tentativeSelection = none)
    (order : List (DetTid × ℕ × ℕ)) (hd : Distinct q.queue) :
    ∃ m, q.orderByRunTime order = .ok { q with queue := m } ∧ Distinct m ∧
      (∀ tid, Holds m tid ↔ Holds q.queue tid) ∧
      ∀ (k : PrioritizedOrder) v, m[k]? = some v → q.queue[k]? = some v ∨
        (runTimeTurns ≤ k.turn ∧ v.pollUpgrade = none ∧
          ∃ k' : PrioritizedOrder, q.queue[k']? = some v) := by
  obtain ⟨m, placed, hrun, h⟩ := orderByRunTime_reordered hunlocked order
  have htids : ({ q with queue := m } : RunQueue R).tids.Perm q.tids := by
    have := h.values.map (·.2.tid)
    rwa [map_map, map_map] at this
  refine ⟨m, hrun, ?_, ?_, ?_⟩
  · exact distinct_iff (q := { q with queue := m }).mpr (htids.nodup_iff.mpr (tids_nodup hd))
  · intro tid
    rw [← mem_tids (q := q), ← htids.mem_iff, mem_tids]
  · intro k v hk
    rcases h.getElem?_eq_some.mp hk with ⟨e, he, rfl, rfl⟩ | ⟨hold, -⟩
    · obtain ⟨-, hl, hold⟩ := h.of_placed he
      simp only [listed, inRoundRobinOrder, Bool.and_eq_true, decide_eq_true_eq] at hl
      exact .inr ⟨(h.bands e he).2, hl.2.2.2.1, hold⟩
    · exact .inl hold

/-- **Ordering by run time** keeps the queued entries and their bands. Entries that are not
    listed keep their keys. The listed ones are ordered, within their band, by run-time key and
    then by thread, and come after every entry of their band with an ordinary turn. -/
theorem orderByRunTime_orders (q : RunQueue R) (order : List (DetTid × ℕ × ℕ))
    (hunlocked : q.tentativeSelection = none) :
    ∃ m, q.orderByRunTime order = .ok { q with queue := m } ∧
      (m.toList.map fun e => (e.1.priority, e.2)).Perm
        (q.queue.toList.map fun e => (e.1.priority, e.2)) ∧
      (∀ (k : PrioritizedOrder) v, listed order (k, v) = false →
        (m[k]? = some v ↔ q.queue[k]? = some v)) ∧
      (∀ (k k' : PrioritizedOrder) v v', m[k]? = some v → m[k']? = some v' →
        listed order (k, v) = true → listed order (k', v') = true →
        movedKey (movedOf order (k, v)) < movedKey (movedOf order (k', v')) → k < k') ∧
      ∀ (k k' : PrioritizedOrder) v v', m[k]? = some v → m[k']? = some v' →
        listed order (k, v) = true → k'.priority = k.priority → k'.turn < runTimeTurns →
        k' < k := by
  obtain ⟨m, placed, hrun, h⟩ := orderByRunTime_reordered hunlocked order
  refine ⟨m, hrun, h.values, ?_, ?_, ?_⟩
  · intro k v hl
    rw [h.getElem?_eq_some]
    refine ⟨?_, fun hk => .inr ⟨hk, hl⟩⟩
    rintro (⟨e, he, rfl, rfl⟩ | ⟨hk, -⟩)
    · exact absurd ((h.of_placed he).2.1.symm.trans hl) nofun
    · exact hk
  · intro k k' v v' hk hk' hl hl'
    have hsort := @pairwise_insertionSort_key Moved _ _ movedKey
      ((q.entries.filter (listed order)).map (movedOf order))
    rw [← h.moved, pairwise_map] at hsort
    -- Of two placed entries the one with the smaller key cannot be the later one.
    refine List.Pairwise.forall_of_forall_of_flip
      (R := fun a b : PrioritizedOrder × Moved => movedKey a.2 < movedKey b.2 → a.1 < b.1)
      ?_ ?_ ?_ ((h.listed_iff hk).mp hl) ((h.listed_iff hk').mp hl')
    · exact fun a _ hlt => absurd hlt (lt_irrefl _)
    · refine h.ascending.imp ?_
      exact fun hlt _ => hlt
    · refine hsort.imp ?_
      exact fun hle hlt => absurd hlt hle.not_gt
  · intro k k' v v' hk _ hl hband hturn
    have hrun := (h.bands _ ((h.listed_iff hk).mp hl)).2
    exact Prod.Lex.lt_iff.mpr (.inr ⟨hband, hturn.trans_le hrun⟩)

/-- Threads 1 and 2 in one band, in the order of their turns. -/
def twoQueued : RunQueue Prng.first :=
  { RunQueue.new .none () with
    queue := ((∅ : Entries).insert ⟨1000, 1⟩ ⟨1, none, false, false⟩).insert ⟨1000, 2⟩
      ⟨2, none, false, false⟩ }

theorem orderByRunTime_orders_twoQueued :
    (twoQueued.orderByRunTime [(1, 9, 0), (2, 5, 0)]).map (·.tids) = .ok [2, 1] ∧
      ∃ m, twoQueued.orderByRunTime [(1, 9, 0), (2, 5, 0)] = .ok { twoQueued with queue := m } ∧
        (m.toList.map fun e => (e.1.priority, e.2)).Perm
          (twoQueued.queue.toList.map fun e => (e.1.priority, e.2)) := by
  obtain ⟨m, hrun, hperm, -⟩ := orderByRunTime_orders twoQueued [(1, 9, 0), (2, 5, 0)] rfl
  exact ⟨by decide +kernel, m, hrun, hperm⟩

/-! ## The operations -/

theorem pushBack_eq_ok : q.pushBack tid priority = .ok (q', key) ↔
      q.tentativeSelection = none ∧ ¬ Holds q.queue tid ∧ isOrdinaryPriority priority = true ∧
        q.pushBackInner tid priority none = .ok (q', key) := by
  unfold pushBack
  simp only [bind_eq_ok, throwIf_eq_ok, not_not]
  constructor
  · rintro ⟨⟨⟩, hlock, ⟨⟩, hsafe, hprio, h⟩
    exact ⟨checkUnlocked_eq_ok.mp hlock, pushSafetyCheck_eq_ok.mp hsafe, hprio, h⟩
  · rintro ⟨hlock, hsafe, hprio, h⟩
    exact ⟨⟨⟩, checkUnlocked_eq_ok.mpr hlock, ⟨⟩, pushSafetyCheck_eq_ok.mpr hsafe, hprio, h⟩

theorem pushYielded_eq_ok (h : q.pushYielded tid priority = .ok (q', key)) :
    q.yieldedSkip = none ∧ { q with
      yieldedSkip := some tid
      queuedByYield := insert tid q.queuedByYield }.pushBack tid priority = .ok (q', key) := by
  unfold pushYielded at h
  simp only [throwIf_eq_ok] at h
  exact ⟨by simpa using h.1, h.2⟩

@[simp] theorem countYield_queue (q : RunQueue R) (tid : DetTid) :
    (q.countYield tid).queue = q.queue := by
  unfold countYield
  split_ifs <;> rfl

@[simp] theorem countYield_lastBackTurn (q : RunQueue R) (tid : DetTid) :
    (q.countYield tid).lastBackTurn = q.lastBackTurn := by
  unfold countYield
  split_ifs <;> rfl

@[simp] theorem countYield_lastFrontTurn (q : RunQueue R) (tid : DetTid) :
    (q.countYield tid).lastFrontTurn = q.lastFrontTurn := by
  unfold countYield
  split_ifs <;> rfl

theorem pushPoller_eq_ok {normalPriority : Priority} {pollAttempt : ℕ}
    (h : q.pushPoller tid normalPriority pollAttempt = .ok (q', key)) :
    q.tentativeSelection = none ∧ ¬ Holds q.queue tid ∧
      q.pushBackInner tid (backoffPriority normalPriority pollAttempt) (some normalPriority) =
        .ok (q', key) := by
  unfold pushPoller at h
  simp only [bind_eq_ok] at h
  obtain ⟨⟨⟩, hlock, ⟨⟩, hsafe, h⟩ := h
  exact ⟨checkUnlocked_eq_ok.mp hlock, pushSafetyCheck_eq_ok.mp hsafe, h⟩

theorem pushFront_eq_ok (h : q.pushFront tid priority = .ok (q', key)) :
    q.tentativeSelection = none ∧ ¬ Holds q.queue tid ∧
      q.pushFrontInner tid priority none = .ok (q', key) := by
  unfold pushFront at h
  simp only [bind_eq_ok, throwIf_eq_ok] at h
  obtain ⟨⟨⟩, hlock, ⟨⟩, hsafe, -, h⟩ := h
  exact ⟨checkUnlocked_eq_ok.mp hlock, pushSafetyCheck_eq_ok.mp hsafe, h⟩

theorem pushEagerIoRepoll_eq_ok (h : q.pushEagerIoRepoll tid = .ok (q', key)) :
    q.tentativeSelection = none ∧ ¬ Holds q.queue tid ∧
      q.pushFrontInner tid eagerIoRepollPriority none = .ok (q', key) := by
  unfold pushEagerIoRepoll at h
  simp only [bind_eq_ok] at h
  obtain ⟨⟨⟩, hlock, ⟨⟩, hsafe, h⟩ := h
  exact ⟨checkUnlocked_eq_ok.mp hlock, pushSafetyCheck_eq_ok.mp hsafe, h⟩

theorem suspend_eq_ok {persistentPriority : Priority} {entry : Option SuspendedRunQueueEntry}
    (h : q.suspend tid persistentPriority = .ok (q', entry)) :
    q.tentativeSelection = none ∧ ((q' = q ∧ entry = none) ∨
      ∃ (key : PrioritizedOrder) (value : QueueValue), q.queue[key]? = some value ∧
        value.tid = tid ∧ q' = { q with queue := q.queue.erase key } ∧
        entry = some ⟨key, value, persistentPriority⟩) := by
  obtain ⟨⟨⟩, hlock, h⟩ := bind_eq_ok.mp h
  refine ⟨checkUnlocked_eq_ok.mp hlock, ?_⟩
  split at h
  · cases h
    exact .inl ⟨rfl, rfl⟩
  · rename_i key value hfind
    cases h
    obtain ⟨hkey, htid⟩ := find_eq_some hfind
    exact .inr ⟨key, value, hkey, htid, rfl, rfl⟩

/-- The key at which `restore` puts an entry back: a run-time turn that was
    given away in the meantime moves on to the next free one. -/
def restoredKey (q : RunQueue R) (key : PrioritizedOrder) : PrioritizedOrder :=
  if runTimeTurns ≤ key.turn then nextFreeTurn q.queue (q.len + 1) key else key

theorem restore_eq_ok {entry : SuspendedRunQueueEntry} {currentPriority : Priority}
    {value : QueueValue} (hat : entry.atPriority currentPriority = (key, value)) :
    q.restore entry currentPriority = .ok q' ↔
      q.tentativeSelection = none ∧ ¬ Holds q.queue entry.value.tid ∧
        q.queue[q.restoredKey key]? = none ∧
        q' = { q with queue := q.queue.insert (q.restoredKey key) value } := by
  unfold restore
  simp only [bind_eq_ok, throwIf_eq_ok, containsTid_iff, hat]
  constructor
  · rintro ⟨⟨⟩, hlock, hnew, m, hm, h⟩
    cases h
    obtain ⟨hfree, rfl⟩ := insertNew_eq_ok.mp hm
    exact ⟨checkUnlocked_eq_ok.mp hlock, hnew, hfree, rfl⟩
  · rintro ⟨hlock, hnew, hfree, rfl⟩
    exact ⟨⟨⟩, checkUnlocked_eq_ok.mpr hlock, hnew, _, insertNew_eq_ok.mpr ⟨hfree, rfl⟩, rfl⟩

theorem atPriority_tid (entry : SuspendedRunQueueEntry) (currentPriority : Priority) :
    (entry.atPriority currentPriority).2.tid = entry.value.tid := by
  unfold SuspendedRunQueueEntry.atPriority
  split_ifs <;> rfl

theorem removeFirst_eq_ok (h : q.removeFirst tid = .ok (q', got)) :
    got = tid ∧ ∃ (key : PrioritizedOrder) (value : QueueValue), q.queue[key]? = some value ∧
      value.tid = tid ∧ q' = { q with queue := q.queue.erase key } := by
  unfold removeFirst at h
  split at h
  · cases h
  · rename_i key value hfind
    cases h
    obtain ⟨hkey, htid⟩ := find_eq_some hfind
    exact ⟨htid, key, value, hkey, htid, rfl⟩

/-- A commit takes the selected thread's entry out and ends the transaction. -/
theorem commitSelection_eq_ok (h : q.commitSelection = .ok (q', tid)) :
    q.tentativeSelection = some tid ∧ ∃ (key : PrioritizedOrder) (value : QueueValue) (prng : R.State)
      (sticky : Option DetTid), q.queue[key]? = some value ∧ value.tid = tid ∧ q' = { q with
          queue := q.queue.erase key
          tentativeSelection := none
          tentativeSelectionIsExact := false
          queuedByYield := q.queuedByYield.erase tid
          prng := prng
          stickyRandomSelection := sticky } := by
  unfold commitSelection at h
  split at h
  · cases h
  rename_i selection hsel
  obtain ⟨⟨q₁, got⟩, hrmv, hrest⟩ := bind_eq_ok.mp h
  simp only [throwIf_eq_ok, not_not] at hrest
  obtain ⟨rfl, hrest⟩ := hrest
  cases hrest
  refine ⟨hsel, ?_⟩
  unfold removeSelection at hrmv
  split_ifs at hrmv with hex
  · obtain ⟨-, key, value, hkey, htid, rfl⟩ := removeFirst_eq_ok hrmv
    exact ⟨key, value, q.prng, q.stickyRandomSelection, hkey, htid, rfl⟩
  · split at hrmv
    · cases hrmv
    · obtain ⟨rfl, key, value, hkey, htid, rfl⟩ := removeFirst_eq_ok hrmv
      exact ⟨key, value, _, _, hkey, htid, rfl⟩

theorem commitTentativePopYield_eq_ok (h : q.commitTentativePopYield = .ok (q', got)) :
    ∃ q₁, q.commitSelection = .ok (q₁, got) ∧ q' = q₁.consumeYieldExclusion := by
  obtain ⟨⟨q₁, got⟩, hcmt, h⟩ := bind_eq_ok.mp h
  cases h
  exact ⟨q₁, hcmt, rfl⟩

theorem commitTentativePopCompletedTurn_eq_ok
    (h : q.commitTentativePopCompletedTurn = .ok (q', got)) :
    ∃ q₁, q.commitSelection = .ok (q₁, got) ∧ q' = q₁.consumeYieldExclusion.endYieldEpoch := by
  obtain ⟨⟨q₁, got⟩, hcmt, h⟩ := bind_eq_ok.mp h
  cases h
  exact ⟨q₁, hcmt, rfl⟩

def restoredPoller (key : PrioritizedOrder) (value : QueueValue) : QueueValue :=
  { value with pollUpgrade := none, deadlineRestored := decide (lastPriority ≤ key.priority) }

theorem restorePollerPriority_eq_ok {outcome : PollerRestore}
    (h : q.restorePollerPriority tid = .ok (q', outcome)) :
    q.tentativeSelection = none ∧ (q' = q ∨
      ∃ (key : PrioritizedOrder) (value : QueueValue) (priority : Priority),
        q.queue[key]? = some value ∧ value.tid = tid ∧ value.pollUpgrade = some priority ∧
        Added { q with queue := q.queue.erase key } q' ⟨priority, q.lastBackTurn + 1⟩
          (restoredPoller key value) ∧
        q'.lastBackTurn = q.lastBackTurn + 1 ∧ q'.lastFrontTurn = q.lastFrontTurn) := by
  obtain ⟨⟨⟩, hlock, h⟩ := bind_eq_ok.mp h
  refine ⟨checkUnlocked_eq_ok.mp hlock, ?_⟩
  split at h
  · cases h
    exact .inl rfl
  rename_i key value hfind
  obtain ⟨hkey, htid⟩ := find_eq_some hfind
  split at h
  · cases h
    exact .inl rfl
  rename_i priority hpoll
  simp only [bind_eq_ok] at h
  obtain ⟨m, hm, q₁, hup, h⟩ := h
  cases h
  obtain ⟨hfree, rfl⟩ := insertNew_eq_ok.mp hm
  obtain ⟨m', n, hrel, rfl⟩ := checkPollUpgrade_relabels hup
  exact .inr ⟨key, value, priority, hkey, htid, hpoll, ⟨hfree, m', n, hrel, rfl⟩, rfl, rfl⟩

theorem draw_eq_ok {out : Finset DetTid} (h : q.draw out = .ok (q', selection)) :
    ∃ index prng, R.randomIndex q.prng (q.len - (q.tids.filter (· ∈ out)).length) = (index, prng) ∧
      q' = { q with prng := prng } ∧ selection = (q.eligible out)[index]? ∧
      q.len - (q.tids.filter (· ∈ out)).length ≠ 0 := by
  unfold draw at h
  dsimp only at h
  split_ifs at h with hcnt
  cases h
  exact ⟨_, _, rfl, rfl, rfl, hcnt⟩

/-- A selection reads the entries and leaves them. -/
theorem select_frame {out : Finset DetTid} (h : q.select out = .ok (q', selection)) :
    ∃ tentative prng sticky, q' = { q with
      tentativeSelection := tentative
      prng := prng
      stickyRandomSelection := sticky } := by
  unfold select at h
  split at h
  · cases h
    exact ⟨_, _, _, rfl⟩
  · cases h
    exact ⟨_, _, _, rfl⟩
  all_goals
    split_ifs at h
    · cases h
      exact ⟨_, _, _, rfl⟩
    · split at h
      · cases h
        exact ⟨_, _, _, rfl⟩
      · obtain ⟨⟨q₁, sel⟩, hdraw, h⟩ := bind_eq_ok.mp h
        cases h
        obtain ⟨index, prng, -, rfl, -⟩ := draw_eq_ok hdraw
        exact ⟨_, _, _, rfl⟩

/-- The queue `tentative_pop_next` selects from: an epoch that covers every
    thread ends first. -/
def epochChecked (q : RunQueue R) : RunQueue R := if q.epochOver then q.endYieldEpoch else q

theorem epochChecked_frame (q : RunQueue R) : ∃ epoch streaks,
    q.epochChecked = { q with yieldEpoch := epoch, yieldStreaks := streaks } := by
  unfold epochChecked
  split_ifs
  · exact ⟨none, ∅, rfl⟩
  · exact ⟨q.yieldEpoch, q.yieldStreaks, rfl⟩

theorem tentativePopNext_eq_ok :
    q.tentativePopNext = .ok (q', selection) ↔ q.tentativeSelectionIsExact = false ∧
      q.epochChecked.select (q.epochChecked.excluded q.pendingSkip) = .ok (q', selection) := by
  unfold tentativePopNext
  simp only [throwIf_eq_ok, Bool.not_eq_true]
  rfl

/-! ## What one operation does to the entries -/

structure SameTurns (q q' : RunQueue R) : Prop where
  back : q'.lastBackTurn = q.lastBackTurn
  front : q'.lastFrontTurn = q.lastFrontTurn

theorem SameTurns.refl (q : RunQueue R) : SameTurns q q := ⟨rfl, rfl⟩

end RunQueue

def QueueOp.queues : QueueOp → Bool
  | .pushBack .. | .pushYielded .. | .pushYieldedIntoEpoch .. | .pushPoller .. | .pushFront ..
  | .pushEagerIoRepoll .. | .restorePollerPriority .. => true
  | _ => false

/-- The thread that an operation puts into the queue. -/
def QueueOp.entering : QueueOp → Option DetTid
  | .pushBack tid _ | .pushYielded tid _ | .pushYieldedIntoEpoch tid _ | .pushPoller tid _ _
  | .pushFront tid _ | .pushEagerIoRepoll tid => some tid
  | .restore entry _ => some entry.value.tid
  | _ => none

def QueueOp.restoring : QueueOp → Option SuspendedRunQueueEntry
  | .restore entry _ => some entry
  | _ => none

namespace QueueState

open RunQueue

variable {R : Prng}

inductive EntryStep (s s' : QueueState R) (op : QueueOp) : Prop
  /-- Entries leave; a suspended one is kept in the pool. -/
  | shrunk (hsub : Entries.Sub s'.queue.queue s.queue.queue) (hturns : SameTurns s.queue s'.queue)
      (hpool : ∀ e ∈ s'.suspended, e ∈ s.suspended ∨ s.queue.queue[e.key]? = some e.value)
  /-- A thread is queued at a fresh turn, possibly after its entry was taken
      out. -/
  | queued (m : Entries) (key : PrioritizedOrder) (value : QueueValue) (hop : op.queues = true)
      (hsub : Entries.Sub m s.queue.queue)
      (hfree : m[key]? = none) (hrel : Relabelled (m.insert key value) s'.queue.queue)
      (hnew : Distinct s.queue.queue → ¬ Holds m value.tid)
      (hturn : (key.turn = s.queue.lastBackTurn + 1 ∧
          s'.queue.lastBackTurn = s.queue.lastBackTurn + 1 ∧
          s'.queue.lastFrontTurn = s.queue.lastFrontTurn) ∨
        (key.turn = s.queue.lastFrontTurn - 1 ∧ s'.queue.lastBackTurn = s.queue.lastBackTurn ∧
          s'.queue.lastFrontTurn = s.queue.lastFrontTurn - 1))
      (hpool : s'.suspended = s.suspended)
  /-- A suspended entry comes back. -/
  | restored (entry : SuspendedRunQueueEntry) (currentPriority : Priority)
      (key : PrioritizedOrder) (value : QueueValue) (hop : op = .restore entry currentPriority)
      (hat : entry.atPriority currentPriority = (key, value))
      (hnew : ¬ Holds s.queue.queue entry.value.tid)
      (hfree : s.queue.queue[s.queue.restoredKey key]? = none)
      (hs' : s' = ⟨{ s.queue with
        queue := s.queue.queue.insert (s.queue.restoredKey key) value }, s.suspended⟩)
  /-- Entries move to run-time turns. -/
  | ordered (order : List (DetTid × ℕ × ℕ)) (hunlocked : s.queue.tentativeSelection = none)
      (hq' : s.queue.orderByRunTime order = .ok s'.queue) (hpool : s'.suspended = s.suspended)
  /-- Pollers are upgraded. -/
  | upgraded (hrel : Relabelled s.queue.queue s'.queue.queue)
      (hturns : SameTurns s.queue s'.queue) (hpool : s'.suspended = s.suspended)

theorem lift_eq_ok {α : Type} {s s' : QueueState R} {f : α → QueueOut}
    {r : Except QueuePanic (RunQueue R × α)} {out : QueueOut} :
    s.lift f r = .ok (s', out) ↔ ∃ q a, r = .ok (q, a) ∧ s' = ⟨q, s.suspended⟩ ∧ out = f a := by
  unfold lift
  rw [map_eq_ok]
  constructor
  · rintro ⟨⟨q, a⟩, hr, h⟩
    cases h
    exact ⟨q, a, hr, rfl, rfl⟩
  · rintro ⟨q, a, hr, rfl, rfl⟩
    exact ⟨(q, a), hr, rfl⟩

theorem lift_unit_eq_ok {s s' : QueueState R} {r : Except QueuePanic (RunQueue R)}
    {out : QueueOut} : s.lift (fun _ => .unit) (r.map (·, ())) = .ok (s', out) ↔
      ∃ q, r = .ok q ∧ s' = ⟨q, s.suspended⟩ ∧ out = .unit := by
  cases r <;> simp [lift, Except.map, eq_comm]

variable {s s' : QueueState R} {op : QueueOp} {out : QueueOut}

variable {q : RunQueue R} {tid : DetTid}

theorem EntryStep.same (hq : q.queue = s.queue.queue)
    (hturns : SameTurns s.queue q) : EntryStep s ⟨q, s.suspended⟩ op :=
  .shrunk (by rw [hq]; exact .refl _) hturns fun _ he => .inl he

theorem EntryStep.pushedBack {q₀ : RunQueue R} {priority : Priority}
    {pollUpgrade : Option Priority} {key : PrioritizedOrder} (hop : op.queues = true)
    (h : q₀.pushBackInner tid priority pollUpgrade = .ok (q, key)) (hnew : ¬ Holds q₀.queue tid)
    (hq₀ : q₀.queue = s.queue.queue) (hturns : SameTurns s.queue q₀) :
    EntryStep s ⟨q, s.suspended⟩ op := by
  obtain ⟨⟨hfree, m, n, hrel, hq⟩, hback, hfr⟩ := pushBackInner_eq_ok h
  have hm : q.queue = m := by rw [hq]
  refine .queued q₀.queue ⟨priority, q₀.lastBackTurn + 1⟩ ⟨tid, pollUpgrade, false, false⟩ hop
    (by rw [hq₀]; exact .refl _) hfree (by rw [hm]; exact hrel) (fun _ => hnew) (.inl ?_) rfl
  exact ⟨by rw [hturns.back], by rw [hback, hturns.back], by rw [hfr, hturns.front]⟩

theorem EntryStep.pushedFront {priority : Priority}
    {key : PrioritizedOrder} (hop : op.queues = true) (hnew : ¬ Holds s.queue.queue tid)
    (h : s.queue.pushFrontInner tid priority none = .ok (q, key)) :
    EntryStep s ⟨q, s.suspended⟩ op := by
  obtain ⟨⟨hfree, m, n, hrel, hq⟩, hback, hfr⟩ := pushFrontInner_eq_ok h
  have hm : q.queue = m := by rw [hq]
  exact .queued s.queue.queue ⟨priority, s.queue.lastFrontTurn - 1⟩ ⟨tid, none, false, false⟩ hop
    (.refl _) hfree (by rw [hm]; exact hrel) (fun _ => hnew) (.inr ⟨rfl, hback, hfr⟩) rfl

theorem EntryStep.committed {q₁ : RunQueue R} (h : s.queue.commitSelection = .ok (q₁, tid))
    (hq : q.queue = q₁.queue) (hturns : SameTurns q₁ q) : EntryStep s ⟨q, s.suspended⟩ op := by
  obtain ⟨-, key, value, prng, sticky, -, -, rfl⟩ := commitSelection_eq_ok h
  exact .shrunk (by rw [hq]; exact Entries.sub_erase _ _) ⟨hturns.back, hturns.front⟩
    fun _ he => .inl he

theorem step_entries (h : s.step op = .ok (s', out)) : EntryStep s s' op := by
  cases op with
  | pushBack =>
    obtain ⟨q, key, hq, rfl, -⟩ := lift_eq_ok.mp h
    obtain ⟨-, hnew, -, hpush⟩ := pushBack_eq_ok.mp hq
    exact .pushedBack rfl hpush hnew rfl (.refl _)
  | pushYielded =>
    obtain ⟨q, key, hq, rfl, -⟩ := lift_eq_ok.mp h
    obtain ⟨-, hq⟩ := pushYielded_eq_ok hq
    obtain ⟨-, hnew, -, hpush⟩ := pushBack_eq_ok.mp hq
    exact .pushedBack rfl hpush hnew rfl ⟨rfl, rfl⟩
  | pushYieldedIntoEpoch =>
    obtain ⟨q, key, hq, rfl, -⟩ := lift_eq_ok.mp h
    obtain ⟨-, hnew, -, hpush⟩ := pushBack_eq_ok.mp hq
    exact .pushedBack rfl hpush hnew (countYield_queue _ _)
      ⟨countYield_lastBackTurn _ _, countYield_lastFrontTurn _ _⟩
  | pushPoller =>
    obtain ⟨q, key, hq, rfl, -⟩ := lift_eq_ok.mp h
    obtain ⟨-, hnew, hpush⟩ := pushPoller_eq_ok hq
    exact .pushedBack rfl hpush hnew rfl (.refl _)
  | pushFront =>
    obtain ⟨q, key, hq, rfl, -⟩ := lift_eq_ok.mp h
    obtain ⟨-, hnew, hpush⟩ := pushFront_eq_ok hq
    exact .pushedFront rfl hnew hpush
  | pushEagerIoRepoll tid =>
    obtain ⟨q, key, hq, rfl, -⟩ := lift_eq_ok.mp h
    obtain ⟨-, hnew, hpush⟩ := pushEagerIoRepoll_eq_ok hq
    exact .pushedFront rfl hnew hpush
  | suspend tid persistentPriority =>
    obtain ⟨⟨q, entry⟩, hq, h⟩ := map_eq_ok.mp h
    cases h
    obtain ⟨-, ⟨rfl, rfl⟩ | ⟨key, value, hkey, -, rfl, rfl⟩⟩ := suspend_eq_ok hq
    · exact .shrunk (.refl _) (.refl _) fun _ he => .inl (by simpa using he)
    · refine .shrunk (Entries.sub_erase _ _) ⟨rfl, rfl⟩ ?_
      intro e he
      rcases mem_append.mp he with he | he
      · exact .inl he
      · obtain rfl : e = ⟨key, value, persistentPriority⟩ := by simpa using he
        exact .inr hkey
  | restore entry currentPriority =>
    obtain ⟨q', hq', rfl, -⟩ := lift_unit_eq_ok.mp h
    rcases hat : entry.atPriority currentPriority with ⟨key, value⟩
    obtain ⟨-, hnew, hfree, rfl⟩ := (restore_eq_ok hat).mp hq'
    exact .restored entry currentPriority key value rfl hat hnew hfree rfl
  | orderByRunTime order =>
    obtain ⟨q', hq', rfl, -⟩ := lift_unit_eq_ok.mp h
    refine .ordered order ?_ hq' rfl
    obtain ⟨⟨⟩, hlock, -⟩ := bind_eq_ok.mp hq'
    exact checkUnlocked_eq_ok.mp hlock
  | removeTid tid =>
    obtain ⟨q, found, hq, rfl, -⟩ := lift_eq_ok.mp h
    obtain ⟨⟨⟩, -, hq⟩ := bind_eq_ok.mp hq
    cases hq
    exact .shrunk (Entries.sub_filter _ _) ⟨rfl, rfl⟩ fun _ he => .inl he
  | tentativePopNext =>
    obtain ⟨q, selection, hq, rfl, -⟩ := lift_eq_ok.mp h
    obtain ⟨-, hsele⟩ := tentativePopNext_eq_ok.mp hq
    obtain ⟨tentative, prng, sticky, rfl⟩ := select_frame hsele
    obtain ⟨epoch, streaks, hepoch⟩ := epochChecked_frame s.queue
    rw [hepoch]
    exact .same rfl ⟨rfl, rfl⟩
  | tentativePopTid tid =>
    obtain ⟨q, selection, hq, rfl, -⟩ := lift_eq_ok.mp h
    obtain ⟨⟨⟩, -, hq⟩ := bind_eq_ok.mp hq
    split_ifs at hq <;> cases hq <;> exact .same rfl ⟨rfl, rfl⟩
  | commitTentativePop =>
    obtain ⟨q, tid, hq, rfl, -⟩ := lift_eq_ok.mp h
    exact .committed hq rfl (.refl _)
  | commitTentativePopYield =>
    obtain ⟨q, tid, hq, rfl, -⟩ := lift_eq_ok.mp h
    obtain ⟨q₁, hq₁, rfl⟩ := commitTentativePopYield_eq_ok hq
    exact .committed hq₁ rfl ⟨rfl, rfl⟩
  | commitTentativePopCompletedTurn =>
    obtain ⟨q, tid, hq, rfl, -⟩ := lift_eq_ok.mp h
    obtain ⟨q₁, hq₁, rfl⟩ := commitTentativePopCompletedTurn_eq_ok hq
    exact .committed hq₁ rfl ⟨rfl, rfl⟩
  | endYieldEpoch | consumeYieldExclusion =>
    cases h
    exact .same rfl ⟨rfl, rfl⟩
  | undoTentativePop =>
    obtain ⟨q', hq', rfl, -⟩ := lift_unit_eq_ok.mp h
    unfold undoTentativePop at hq'
    split_ifs at hq'
    cases hq'
    exact .same rfl ⟨rfl, rfl⟩
  | restorePollerPriority tid =>
    obtain ⟨q, outcome, hq, rfl, -⟩ := lift_eq_ok.mp h
    obtain ⟨-, rfl | ⟨key, value, priority, hkey, -, -, hadd, hback, hfr⟩⟩ :=
      restorePollerPriority_eq_ok hq
    · exact .same rfl (.refl _)
    · obtain ⟨hfree, m, n, hrel, hq⟩ := hadd
      have hm : q.queue = m := by rw [hq]
      refine .queued (s.queue.queue.erase key) ⟨priority, s.queue.lastBackTurn + 1⟩
        (restoredPoller key value) rfl (Entries.sub_erase _ _) hfree (by rw [hm]; exact hrel) ?_
        (.inl ⟨rfl, hback, hfr⟩) rfl
      intro hd hholds
      exact ((holds_erase hd hkey _).mp hholds).1 rfl
  | upgradePollers =>
    obtain ⟨q, restored, hq, rfl, -⟩ := lift_eq_ok.mp h
    obtain ⟨⟨⟩, -, hq⟩ := bind_eq_ok.mp hq
    obtain ⟨m, n, hrel, rfl⟩ := doPollUpgrade_relabels hq
    exact .upgraded hrel ⟨rfl, rfl⟩ rfl

/-- **No thread is queued twice**: every operation keeps the entries distinct. -/
theorem step_distinct (h : s.step op = .ok (s', out)) (hd : Distinct s.queue.queue) :
    Distinct s'.queue.queue := by
  cases step_entries h with
  | shrunk hsub _ _ => exact hd.of_sub hsub
  | queued m key value _ hsub hfree hrel hnew _ _ =>
    exact hrel.distinct ((hd.of_sub hsub).insert (hnew hd))
  | restored entry currentPriority key value _ hat hnew hfree hs' =>
    rw [hs']
    have htid := atPriority_tid entry currentPriority
    rw [hat] at htid
    exact hd.insert (by rwa [htid])
  | ordered order hunlocked hq' _ =>
    obtain ⟨m, hm, hdm, -⟩ := orderByRunTime_spec hunlocked order hd
    have heq := Except.ok.inj (hm.symm.trans hq')
    rw [← heq]
    exact hdm
  | upgraded hrel _ _ => exact hrel.distinct hd

end QueueState

end Hermit.Scheduler
