import Hermit.Flock.Steps

/-!
# The forests of a ledger

On every inode of every ledger a run of events reaches, the blocked requests form a forest
(`Ledger.run_forests`), and no thread waits on two inodes.

Everything but an attempt of a call only takes locks and requests away or wakes requests
(`Ledger.Loses`), which keeps the forests; an attempt is made for a thread that waits on no other
inode (`Ledger.Asks`).
-/

namespace Hermit.Flock

open Common
open Common.DepthFirst (Acyclic)

namespace FlockInode

variable {i i' : FlockInode}

/-- The blocked requests form a forest, the loops over it end, and no wake-up is lost. -/
structure Forest (i : FlockInode) : Prop where
  threads : (i.waiters.map (·.thread)).Nodup
  listed : ∀ node t, t ∈ i.blockedList node ↔ ∃ d m, i.Requests t d m (some node)
  once : ∀ node, (i.blockedList node).Nodup
  oneList : ∀ node node' t, t ∈ i.blockedList node → t ∈ i.blockedList node' → node = node'
  blocks : ∀ t d m node, i.Requests t d m (some node) → i.Blocks node d m
  acyclic : Acyclic i.BlockedUnder
  descends : ∀ d m start, ∃ node, i.descend d m start = some node
  walks : ∀ listed, ∃ visits, i.visits listed = some visits ∧
    (visits.filterMap Visit.thread?).Nodup
  woken : i.waiters ≠ [] → i.granted = [] → ∃ w ∈ i.waiters, w.blocker = none

theorem Consistent.forest (h : i.Consistent) : i.Forest where
  threads := h.threads
  listed := h.listed
  once := h.once
  oneList := by
    intro node node' t ht ht'
    obtain ⟨d, m, hreq⟩ := (h.listed node t).mp ht
    obtain ⟨d', m', hreq'⟩ := (h.listed node' t).mp ht'
    exact Option.some.inj (hreq.unique hreq').2.2
  blocks := h.blocks
  acyclic := h.acyclic
  descends := h.descend_returns
  walks := h.visits_spec
  woken := h.exists_woken

theorem not_requests_new (object : String) (t : DetTid) (d : OpenFileId) (m : FlockMode)
    (b : Option FlockBlocker) : ¬(new object).Requests t d m b := by
  rintro ⟨w, hw, -⟩
  simp [waiter, new, lookup] at hw

theorem not_grants_new (object : String) (d : OpenFileId) (m : FlockMode) :
    ¬(new object).Grants d m := by
  rintro ⟨g, hg, -⟩
  simp [grantOf, new, lookup] at hg

theorem consistent_new (object : String) : (new object).Consistent where
  holders := List.nodup_nil
  threads := List.nodup_nil
  listed := by
    intro node t
    constructor
    · intro ht
      cases node <;> simp [blockedList, new, grantOf, waiter, lookup] at ht
    · rintro ⟨d, m, hr⟩
      exact absurd hr (not_requests_new object t d m _)
  once := by
    intro node
    cases node <;> simp [blockedList, new, grantOf, waiter, lookup]
  blocks := by
    intro t d m node hr
    exact absurd hr (not_requests_new object t d m _)
  acyclic := by
    intro t hcycle
    obtain ⟨u, ⟨d, m, hr⟩, -⟩ := Relation.TransGen.head'_iff.mp hcycle
    exact not_requests_new object t d m _ hr
  exclusive := by
    intro d e m m' hd
    exact absurd hd (not_grants_new object d m)

/-- Nothing was added: each lock and each request of the second inode is one of the first. -/
structure Loses (i i' : FlockInode) : Prop where
  consistent : i'.Consistent
  grants : ∀ d m, i'.Grants d m → i.Grants d m
  requests : ∀ t d m b, i'.Requests t d m b → ∃ c, i.Requests t d m c

theorem Loses.of_sameLocks (h : i.SameLocks i') (hi : i.Consistent) : i.Loses i' :=
  ⟨h.consistent hi, fun d m => (h.grants d m).mp, fun t d m b hr => ⟨b, (h.requests t d m b).mp hr⟩⟩

theorem Loses.trans {i'' : FlockInode} (h : i.Loses i') (h' : i'.Loses i'') : i.Loses i'' := by
  refine ⟨h'.consistent, fun d m hd => h.grants d m (h'.grants d m hd), ?_⟩
  intro t d m b hr
  obtain ⟨c, hc⟩ := h'.requests t d m b hr
  exact h.requests t d m c hc

theorem Consistent.loses_removeWaiter (h : i.Consistent) (t : DetTid) :
    i.Loses (i.removeWaiter t).2 := by
  obtain ⟨hcons, hrequ, hgr, -⟩ := h.removeWaiter_spec t
  exact ⟨hcons, fun d m => (hgr d m).mp, fun u d m b hr => ((hrequ u d m).mp ⟨b, hr⟩).2⟩

end FlockInode

structure FlockInode.RemovedWaiters (i : FlockInode) (threads : List DetTid)
    (removed : List OpenFileId × FlockInode) : Prop where
  consistent : removed.2.Consistent
  grants : ∀ d m, removed.2.Grants d m ↔ i.Grants d m
  requests : ∀ t d m, (∃ b, removed.2.Requests t d m b) ↔ t ∉ threads ∧ ∃ b, i.Requests t d m b
  left : ∀ d, d ∈ removed.1 ↔ ∃ t ∈ threads, ∃ m b, i.Requests t d m b

theorem FlockInode.Consistent.removeWaiters_spec {i : FlockInode} (h : i.Consistent)
    (threads : List DetTid) : i.RemovedWaiters threads (i.removeWaiters threads) := by
  unfold FlockInode.removeWaiters
  induction threads using List.reverseRecOn with
  | nil => exact ⟨h, fun d m => Iff.rfl, by simp, by simp⟩
  | append_singleton threads t ih =>
    rw [List.foldl_append, List.foldl_cons, List.foldl_nil]
    set acc := threads.foldl (fun acc thread =>
      let removed := acc.2.removeWaiter thread
      (acc.1 ++ removed.1.toList.map (·.openFile), removed.2)) (([], i) : List OpenFileId × FlockInode)
    obtain ⟨hcons, hrequ, hgr, hleft⟩ := ih.consistent.removeWaiter_spec t
    refine ⟨hcons, fun d m => (hgr d m).trans (ih.grants d m), ?_, ?_⟩
    · intro u d m
      rw [hrequ, ih.requests, List.mem_append, List.mem_singleton]
      tauto
    · intro d
      show d ∈ acc.1 ++ (acc.2.removeWaiter t).1.toList.map (·.openFile) ↔ _
      rw [List.mem_append, ih.left, hleft]
      constructor
      · rintro (⟨u, hu, m, b, hr⟩ | ⟨m, b, hr⟩)
        · exact ⟨u, List.mem_append_left _ hu, m, b, hr⟩
        · obtain ⟨-, c, hc⟩ := (ih.requests t d m).mp ⟨b, hr⟩
          exact ⟨t, by simp, m, c, hc⟩
      · rintro ⟨u, hu, m, b, hr⟩
        by_cases hmem : u ∈ threads
        · exact .inl ⟨u, hmem, m, b, hr⟩
        · have hut : u = t := by
            rcases List.mem_append.mp hu with hu | hu
            · exact absurd hu hmem
            · exact List.mem_singleton.mp hu
          subst hut
          obtain ⟨c, hc⟩ := (ih.requests u d m).mpr ⟨hmem, b, hr⟩
          exact .inr ⟨m, c, hc⟩

theorem FlockInode.Consistent.loses_removeWaiters {i : FlockInode} (h : i.Consistent)
    (threads : List DetTid) : i.Loses (i.removeWaiters threads).2 := by
  have hspec := h.removeWaiters_spec threads
  exact ⟨hspec.consistent, fun d m => (hspec.grants d m).mp,
    fun t d m b hr => ((hspec.requests t d m).mp ⟨b, hr⟩).2⟩

namespace Ledger

open FlockInode (SameLocks)

structure Trees (s : Ledger) : Prop where
  consistent : ∀ (k : FlockInodeKey) (i : FlockInode), s.flockInodes[k]? = some i → i.Consistent
  waitsOnce : ∀ (k k' : FlockInodeKey) (i i' : FlockInode) t d m b d' m' b',
    s.flockInodes[k]? = some i → s.flockInodes[k']? = some i' → i.Requests t d m b →
    i'.Requests t d' m' b' → k = k'

/-- Nothing was added on any inode, and no inode was. -/
def Loses (s s' : Ledger) : Prop :=
  s.Trees → ∀ (k : FlockInodeKey) (i' : FlockInode), s'.flockInodes[k]? = some i' →
    ∃ i, s.flockInodes[k]? = some i ∧ i.Loses i'

variable {s s' s'' : Ledger}

theorem Loses.trees (h : s.Loses s') (hs : s.Trees) : s'.Trees where
  consistent := by
    intro k i' hi'
    obtain ⟨i, -, hloses⟩ := h hs k i' hi'
    exact hloses.consistent
  waitsOnce := by
    intro k k' i i' t d m b d' m' b' hi hi' hr hr'
    obtain ⟨j, hj, hloses⟩ := h hs k i hi
    obtain ⟨j', hj', hloses'⟩ := h hs k' i' hi'
    obtain ⟨c, hc⟩ := hloses.requests t d m b hr
    obtain ⟨c', hc'⟩ := hloses'.requests t d' m' b' hr'
    exact hs.waitsOnce k k' j j' t d m c d' m' c' hj hj' hc hc'

theorem Loses.of_eq (h : s'.flockInodes = s.flockInodes) : s.Loses s' := by
  intro hs k i' hi'
  rw [h] at hi'
  exact ⟨i', hi', .of_sameLocks ⟨rfl, rfl⟩ (hs.consistent k i' hi')⟩

theorem Trees.congr (hs : s.Trees) (h : s'.flockInodes = s.flockInodes) : s'.Trees :=
  (Loses.of_eq h).trees hs

theorem Loses.refl (s : Ledger) : s.Loses s := .of_eq rfl

theorem Loses.trans (h : s.Loses s') (h' : s'.Loses s'') : s.Loses s'' := by
  intro hs k i'' hi''
  obtain ⟨i', hi', hloses'⟩ := h' (h.trees hs) k i'' hi''
  obtain ⟨i, hi, hloses⟩ := h hs k i' hi'
  exact ⟨i, hi, hloses.trans hloses'⟩

theorem Loses.foldl {α : Type} {f : Ledger → α → Ledger} (hf : ∀ s a, Loses s (f s a)) :
    ∀ (as : List α) (s : Ledger), s.Loses (as.foldl f s) := by
  intro as
  induction as with
  | nil => exact fun s => .refl s
  | cons a as ih => exact fun s => (hf s a).trans (ih (f s a))

theorem flockInodes_modifyInode (s : Ledger) (key k : FlockInodeKey) (f : FlockInode → FlockInode) :
    (s.modifyInode key f).flockInodes[k]? =
      if key = k then s.flockInodes[k]?.map f else s.flockInodes[k]? := by
  unfold modifyInode
  cases hi : s.flockInodes[key]? with
  | none =>
    by_cases hk : key = k
    · subst hk
      rw [if_pos rfl, hi, Option.map_none]
    · rw [if_neg hk]
  | some i =>
    show (s.flockInodes.insert key (f i))[k]? = _
    rw [OrdMap.getElem?_insert_ite]
    by_cases hk : key = k
    · subst hk
      rw [if_pos rfl, if_pos rfl, hi, Option.map_some]
    · rw [if_neg hk, if_neg hk]

variable {key : FlockInodeKey} {i : FlockInode} {t : DetTid} {d : OpenFileId}

theorem Eases.loses {i' : FlockInode} (h : Eases i i') : i.Loses i' :=
  ⟨h.consistent, h.grants, fun t d m b hr => (h.calls t d m).mp ⟨b, hr⟩⟩

theorem Loses.modifyInode {f : FlockInode → FlockInode}
    (hf : ∀ i : FlockInode, i.Consistent → Eases i (f i)) : s.Loses (s.modifyInode key f) := by
  intro hs k i' hi'
  rw [flockInodes_modifyInode] at hi'
  by_cases hk : key = k
  · rw [if_pos hk] at hi'
    obtain ⟨i, hi, rfl⟩ := Option.map_eq_some_iff.mp hi'
    exact ⟨i, hi, (hf i (hs.consistent k i hi)).loses⟩
  · rw [if_neg hk] at hi'
    exact ⟨i', hi', .of_sameLocks ⟨rfl, rfl⟩ (hs.consistent k i' hi')⟩

theorem Loses.mapInodes {f : FlockInodeKey → FlockInode → FlockInode}
    (hf : ∀ (k : FlockInodeKey) (i : FlockInode), i.Consistent → i.Loses (f k i)) :
    s.Loses { s with flockInodes := s.flockInodes.map f } := by
  intro hs k i' hi'
  rw [show ({ s with flockInodes := s.flockInodes.map f } : Ledger).flockInodes[k]? =
    s.flockInodes[k]?.map (f k) from Std.ExtTreeMap.getElem?_map] at hi'
  obtain ⟨i, hi, rfl⟩ := Option.map_eq_some_iff.mp hi'
  exact ⟨i, hi, hf k i (hs.consistent k i hi)⟩

/-! ## What only loses -/

theorem sameLocks_noteLagging (released : FlockMode) (exiting : List DetPid) (i : FlockInode) :
    i.SameLocks (exiting.foldl (fun i process => noteLagging i released process) i) := by
  induction exiting generalizing i with
  | nil => exact ⟨rfl, rfl⟩
  | cons process exiting ih => exact ih (noteLagging i released process)

theorem sameLocks_releaseLast (s : Ledger) (d : OpenFileId) (mappers : Finset DetPid)
    (i : FlockInode) : (i.deleteLock d).2.SameLocks (s.releaseLast d mappers i) := by
  unfold releaseLast
  cases hd : i.grantOf d with
  | none =>
    have hdele : (i.deleteLock d).2 = i := by
      unfold FlockInode.deleteLock
      rw [hd]
    rw [hdele]
    exact ⟨rfl, rfl⟩
  | some g =>
    split_ifs
    · exact ⟨rfl, rfl⟩
    · exact ⟨rfl, rfl⟩
    · exact sameLocks_noteLagging _ _ _

theorem eases_releaseLast (s : Ledger) (d : OpenFileId) (mappers : Finset DetPid)
    (h : i.Consistent) : Eases i (s.releaseLast d mappers i) :=
  (Eases.deleteLock h d).trans (.of_sameLocks (s.sameLocks_releaseLast d mappers i) (h.deleteLock d))

theorem loses_flockLastReference (s : Ledger) (d : OpenFileId) :
    s.Loses (s.flockLastReference d) := by
  unfold flockLastReference
  cases s.flockInodeOf[d]? with
  | none => exact .refl s
  | some key =>
    dsimp only
    split
    · exact .refl s
    · have hunfo : s.Loses (s.unfollow d) := .of_eq rfl
      exact hunfo.trans (.modifyInode fun i hi => s.eases_releaseLast d _ hi)

theorem loses_setReferences (s : Ledger) (d : OpenFileId) (table : Table) (slots : ℕ) :
    s.Loses (s.setReferences d table slots) := by
  unfold setReferences
  dsimp only
  split_ifs
  all_goals first
    | exact .of_eq rfl
    | have hforg : s.Loses ((s.unreference d).forget d) := .of_eq rfl
      exact (hforg.trans (loses_flockLastReference _ d)).trans (.of_eq rfl)

theorem loses_uncountCopy (s : Ledger) (d : OpenFileId) : s.Loses (s.uncountCopy d) := by
  unfold uncountCopy
  cases s.inFlight[d]? with
  | none => exact .refl s
  | some count =>
    dsimp only
    split_ifs
    · exact .of_eq rfl
    · have hforg : s.Loses ((s.uncounted d).forget d) := .of_eq rfl
      exact hforg.trans (loses_flockLastReference _ d)
    · exact .of_eq rfl

theorem loses_dropTable (s : Ledger) (table : Table) : s.Loses (s.dropTable table) := by
  have hdiso : s.Loses (s.disown table) := .of_eq rfl
  exact hdiso.trans (.foldl (fun s d => s.loses_setReferences d table 0) _ _)

theorem loses_forgetProcess (s : Ledger) (process : DetPid) :
    s.Loses (s.forgetProcess process) := by
  unfold forgetProcess
  cases s.processTable[process]? with
  | none => exact .refl s
  | some table =>
    have hleave : s.Loses (s.leaveTable process table) := .of_eq rfl
    dsimp only
    split
    · exact hleave.trans (loses_dropTable _ table)
    · exact hleave

theorem loses_flockRemoveWaiters (s : Ledger) (gone : FlockWaiter → Bool) :
    s.Loses (s.flockRemoveWaiters gone).2 :=
  .mapInodes fun _ _ hi => hi.loses_removeWaiters _

theorem loses_flockWaiterLeft (s : Ledger) (d : OpenFileId) : s.Loses (s.flockWaiterLeft d) := by
  unfold flockWaiterLeft
  split
  · exact s.loses_flockLastReference d
  · exact .refl s

/-! ## Attempts -/

theorem flockInodes_setFlockInode (s : Ledger) (key k : FlockInodeKey) (i : FlockInode) :
    (s.setFlockInode key i).flockInodes[k]? = if key = k then some i else s.flockInodes[k]? :=
  OrdMap.getElem?_insert_ite _ key k i

theorem Trees.keepInode (h : s.Trees) (key : FlockInodeKey) (object : String) :
    (s.keepInode key object).Trees := by
  unfold Ledger.keepInode
  split
  · exact h
  · have hnew := FlockInode.not_requests_new object
    refine ⟨?_, ?_⟩
    · intro k i hi
      rw [flockInodes_setFlockInode] at hi
      split at hi
      · cases hi
        exact FlockInode.consistent_new object
      · exact h.consistent k i hi
    · intro k k' i i' t d m b d' m' b' hi hi' hr hr'
      rw [flockInodes_setFlockInode] at hi hi'
      split at hi
      · cases hi
        exact absurd hr (hnew t d m b)
      · split at hi'
        · cases hi'
          exact absurd hr' (hnew t d' m' b')
        · exact h.waitsOnce k k' i i' t d m b d' m' b' hi hi' hr hr'

/-- The requests of a thread, on any inode. -/
def Waits (s : Ledger) (t : DetTid) (key : FlockInodeKey) (d : OpenFileId) : Prop :=
  ∃ i m b, s.flockInodes[key]? = some i ∧ i.Requests t d m b

theorem Trees.setAttempted (h : s.Trees) {i' : FlockInode} (hi : s.flockInodes[key]? = some i)
    (hatte : FlockInode.Attempted i t d i')
    (hown : ∀ k e, s.Waits t k e → k = key) : (s.setFlockInode key i').Trees := by
  have hrequ : ∀ k j u e n b, (s.setFlockInode key i').flockInodes[k]? = some j →
      j.Requests u e n b → (∃ j m c, s.flockInodes[k]? = some j ∧ j.Requests u e m c) ∨
        u = t ∧ k = key := by
    intro k j u e n b hj hr
    rw [flockInodes_setFlockInode] at hj
    split at hj
    · rename_i hk
      subst hk
      cases hj
      rcases hatte.requests u e n b hr with ⟨c, hc⟩ | ⟨hu, -⟩
      · exact .inl ⟨i, n, c, hi, hc⟩
      · exact .inr ⟨hu, rfl⟩
    · exact .inl ⟨j, n, b, hj, hr⟩
  refine ⟨?_, ?_⟩
  · intro k j hj
    rw [flockInodes_setFlockInode] at hj
    split at hj
    · cases hj
      exact hatte.consistent
    · exact h.consistent k j hj
  · intro k k' j j' u e n b e' n' b' hj hj' hr hr'
    rcases hrequ k j u e n b hj hr with ⟨l, m, c, hl, hc⟩ | ⟨rfl, rfl⟩
    · rcases hrequ k' j' u e' n' b' hj' hr' with ⟨l', m', c', hl', hc'⟩ | ⟨rfl, rfl⟩
      · exact h.waitsOnce k k' l l' u e m c e' m' c' hl hl' hc hc'
      · exact hown k e ⟨l, m, c, hl, hc⟩
    · rcases hrequ k' j' u e' n' b' hj' hr' with ⟨l', m', c', hl', hc'⟩ | ⟨-, rfl⟩
      · exact (hown k' e' ⟨l', m', c', hl', hc'⟩).symm
      · rfl

theorem Loses.waits (h : s.Loses s') (hs : s.Trees) (hw : s'.Waits t key d) : s.Waits t key d := by
  obtain ⟨i', m, b, hi', hr⟩ := hw
  obtain ⟨i, hi, hloses⟩ := h hs key i' hi'
  obtain ⟨c, hc⟩ := hloses.requests t d m b hr
  exact ⟨i, m, c, hi, hc⟩

theorem flockInodes_flockRemoveWaiters (s : Ledger) (gone : FlockWaiter → Bool)
    (k : FlockInodeKey) : (s.flockRemoveWaiters gone).2.flockInodes[k]? =
      s.flockInodes[k]?.map fun i =>
        (i.removeWaiters ((i.waiters.filter gone).map (·.thread))).2 :=
  Std.ExtTreeMap.getElem?_map

theorem Trees.not_waits_dropWaiters (h : s.Trees) (t : DetTid) (key : FlockInodeKey)
    (d : OpenFileId) : ¬(s.flockDropWaiters fun w => decide (w.thread = t)).Waits t key d := by
  intro hw
  have hrmvd := (s.loses_flockRemoveWaiters fun w => decide (w.thread = t)).trees h
  obtain ⟨i', m, b, hi', hr⟩ := (Loses.foldl loses_flockWaiterLeft _ _).waits hrmvd hw
  rw [flockInodes_flockRemoveWaiters] at hi'
  obtain ⟨i, hi, rfl⟩ := Option.map_eq_some_iff.mp hi'
  have hcons := h.consistent key i hi
  obtain ⟨hnot, c, w, hw, -⟩ := ((hcons.removeWaiters_spec _).requests t d m).mp ⟨b, hr⟩
  refine hnot (List.mem_map.mpr ⟨w, List.mem_filter.mpr ⟨mem_of_lookup hw, ?_⟩, key_of_lookup hw⟩)
  exact decide_eq_true (key_of_lookup hw)

structure Asks (s : Ledger) (key : FlockInodeKey) (i : FlockInode) (t : DetTid) (d : OpenFileId)
    (mode : Option FlockMode) : Prop where
  own : ∀ e n b, i.Requests t e n b → e = d ∧ mode = some n ∧ b = none
  only : ∀ k e, s.Waits t k e → k = key

/-- A call asks once the requests left under its thread's number are dropped. -/
theorem Trees.asks_call {process : DetPid} {request : FlockRequest}
    (h : (s.enterCall process request).Trees)
    (hi : (s.followCall process t request).flockInodes[key]? = some i) (d : OpenFileId)
    (mode : Option FlockMode) : (s.followCall process t request).Asks key i t d mode :=
  ⟨fun e n b hr => absurd ⟨i, n, b, hi, hr⟩ (h.not_waits_dropWaiters t key e),
    fun k e hw => absurd hw (h.not_waits_dropWaiters t k e)⟩

theorem Trees.asks_retry (h : s.Trees) {w : FlockWaiter} (hi : s.flockInodes[key]? = some i)
    (hw : i.waiter w.thread = some w) (hwok : w.blocker = none) :
    s.Asks key i w.thread w.openFile (some w.mode) := by
  have hreque : i.Requests w.thread w.openFile w.mode none := ⟨w, hw, rfl, rfl, hwok⟩
  refine ⟨?_, ?_⟩
  · intro e n b hr
    obtain ⟨rfl, rfl, rfl⟩ := hreque.unique hr
    exact ⟨rfl, rfl, rfl⟩
  · rintro k e ⟨j, m, b, hj, hr⟩
    exact h.waitsOnce k key j i _ _ _ _ _ _ _ hj hi hr hreque

theorem Trees.attempt (h : s.Trees) {process : DetPid}
    {mode : Option FlockMode} {nonblocking : Bool}
    (hi : s.flockInodes[key]? = some i) (hasks : s.Asks key i t d mode) :
    (s.setFlockInode key (i.attempt t process d mode nonblocking).2.2).Trees :=
  h.setAttempted hi ((h.consistent key i hi).attempt_spec hasks.own) hasks.only

theorem flockAttempt_eq_some {process : DetPid}
    {mode : Option FlockMode} {nonblocking dropped : Bool} {a : FlockAttempt}
    (h : s.flockAttempt key t process d mode nonblocking = some (a, dropped, s')) :
    ∃ i, s.flockInodes[key]? = some i ∧
      s' = s.setFlockInode key (i.attempt t process d mode nonblocking).2.2 := by
  obtain ⟨i, hi, heq⟩ := Option.map_eq_some_iff.mp h
  cases heq
  exact ⟨i, hi, rfl⟩

theorem Loses.setFlockInode {i' : FlockInode}
    (hi : s.flockInodes[key]? = some i) (hloses : i.Loses i') :
    s.Loses (s.setFlockInode key i') := by
  intro hs k j hj
  rw [flockInodes_setFlockInode] at hj
  split at hj
  · rename_i hk
    subst hk
    cases hj
    exact ⟨i, hi, hloses⟩
  · exact ⟨j, hj, .of_sameLocks ⟨rfl, rfl⟩ (hs.consistent k j hj)⟩

/-! ## Runs -/

theorem trees_empty : empty.Trees where
  consistent := by
    intro k i hi
    simp [empty] at hi
  waitsOnce := by
    intro k k' i i' t d m b d' m' b' hi
    simp [empty] at hi

theorem kept_trees : Kept (fun _ => True) fun _ s => s.Trees where
  mono hs _ := hs
  congr hs hcore := hs.congr (congrArg (·.1) hcore)
  setReferences hs _ d slots := (loses_setReferences _ d _ slots).trees hs
  dropTable hs table := (loses_dropTable _ table).trees hs
  forgetProcess hs p := (loses_forgetProcess _ p).trees hs
  useTable hs _ _ := hs.congr rfl
  copyReferences hs _ _ := hs.congr rfl
  moveTable {_ s} hs p := by
    have hnam : Trees { s with
      nextTable := s.nextTable + 1
      references := (s.execTable p).1.foldl (alsoNamed s.nextTable) s.references } := hs.congr rfl
    exact ((loses_forgetProcess _ p).trees hnam).congr rfl
  modifyInode hs hf _ := (Loses.modifyInode hf).trees hs
  tearDown {_ s} hs p := by
    have hmark : s.Loses { s with flockTornDown := insert p s.flockTornDown } := .of_eq rfl
    refine (hmark.trans (.mapInodes ?_)).trees hs
    exact fun k i hi => .of_sameLocks ⟨rfl, rfl⟩ hi
  keepInode hs key object := hs.keepInode key object
  countCopy hs _ := hs.congr rfl
  uncountCopy hs d := (loses_uncountCopy _ d).trees hs
  removeWaiters hs gone := (loses_flockRemoveWaiters _ gone).trees hs
  removeWaiter hs hi t :=
    (Loses.setFlockInode hi ((hs.consistent _ _ hi).loses_removeWaiter t)).trees hs
  waiterLeft hs := (loses_flockWaiterLeft _ _).trees hs
  setInode _ hs := hs.congr rfl
  call _ hente hs hsome := by
    obtain ⟨i, hi, rfl⟩ := flockAttempt_eq_some hsome
    exact hs.attempt hi (hente.asks_call hi _ _)
  retry hs hi hw hwok hsome := by
    obtain ⟨j, hj, rfl⟩ := flockAttempt_eq_some hsome
    cases hi.symm.trans hj
    exact hs.attempt hi (hs.asks_retry hi hw hwok)

theorem trees_run (events : List Event) : (run events).Trees :=
  kept_trees.run trees_empty fun _ _ _ _ => trivial

structure Forests (s : Ledger) : Prop where
  forest : ∀ (key : FlockInodeKey) (i : FlockInode), s.flockInodes[key]? = some i → i.Forest
  oneInode : ∀ t key key' d d', s.Waits t key d → s.Waits t key' d' → key = key' ∧ d = d'

/-- Whatever the ledger is told, the blocked requests of each of its inodes form a forest. -/
theorem run_forests (events : List Event) : (run events).Forests where
  forest := fun key i hi => ((trees_run events).consistent key i hi).forest
  oneInode := by
    rintro t key key' d d' ⟨i, m, b, hi, hr⟩ ⟨i', m', b', hi', hr'⟩
    have hkey := (trees_run events).waitsOnce key key' i i' t d m b d' m' b' hi hi' hr hr'
    subst hkey
    rw [hi] at hi'
    cases hi'
    exact ⟨rfl, (hr.unique hr').1⟩

end Ledger

end Hermit.Flock
