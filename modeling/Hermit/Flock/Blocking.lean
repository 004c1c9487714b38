import Hermit.Flock.Forest

/-!
# Blocking, granting and removing requests

Every attempt of a `flock` call keeps the inode consistent (`Consistent.attempt_spec`), and so does
a call that ends (`Consistent.removeWaiter_spec`). In a consistent inode the descent of
`insert_block` ends (`Consistent.descend_returns`).
-/

namespace Hermit.Flock

open Common List
open Common.DepthFirst (Acyclic)
open Relation

namespace FlockInode

variable {i : FlockInode}

/-! ## The descent -/

def UnderLock (i : FlockInode) : FlockBlocker → Prop
  | .lock _ => True
  | .request u => ∀ v, ReflTransGen i.BlockedUnder u v → ∃ d m node, i.Requests v d m (some node)

variable {d first : OpenFileId} {m : FlockMode} {node : FlockBlocker} {u t : DetTid}

theorem conflictUnder_eq_some (h : i.conflictUnder d m node = some u) :
    u ∈ i.blockedList node ∧ i.Blocks (.request u) d m := by
  refine ⟨mem_of_find?_eq_some h, ?_⟩
  have htest := find?_some h
  cases hw : i.waiter u with
  | none =>
    rw [hw] at htest
    cases htest
  | some w =>
    rw [hw] at htest
    have htest' : w.openFile ≠ d ∧ w.mode.conflictsWith m = true := by simpa using htest
    exact ⟨w.openFile, w.mode, w.blocker, ⟨w, hw, rfl, rfl, rfl⟩, htest'⟩

theorem Consistent.underLock_step (h : i.Consistent)
    (hnode : i.UnderLock node) (hu : u ∈ i.blockedList node) : i.UnderLock (.request u) := by
  obtain ⟨d, m, hreq⟩ := (h.listed node u).mp hu
  intro v hpath
  rcases ReflTransGen.cases_head hpath with rfl | ⟨c, ⟨d', m', hstep⟩, hpath⟩
  · exact ⟨d, m, node, hreq⟩
  · -- The blocker of a request is one node, so the path goes on through it.
    obtain ⟨-, -, heq⟩ := hreq.unique hstep
    rw [Option.some.injEq] at heq
    subst heq
    exact hnode v hpath

/-- The descent ends at a node that conflicts with the request. -/
theorem Consistent.descend_spec (h : i.Consistent)
    {start : FlockBlocker} (hsta : i.Blocks start d m) (hunder : i.UnderLock start)
    (hdesc : i.descend d m start = some node) : i.Blocks node d m ∧ i.UnderLock node := by
  have hstep : ∀ a b, (i.Blocks a d m ∧ i.UnderLock a) → i.descendStep d m a = .inl b →
      i.Blocks b d m ∧ i.UnderLock b := by
    intro a b ha hab
    unfold descendStep at hab
    cases hnext : i.conflictUnder d m a with
    | none => rw [hnext] at hab; cases hab
    | some u =>
      rw [hnext] at hab
      cases hab
      obtain ⟨hmem, hbloc⟩ := conflictUnder_eq_some hnext
      exact ⟨hbloc, h.underLock_step ha.2 hmem⟩
  obtain ⟨last, hlast, hend⟩ := loop_invariant _ hstep _ ⟨hsta, hunder⟩ hdesc
  unfold descendStep at hend
  cases hnext : i.conflictUnder d m last with
  | none =>
    rw [hnext] at hend
    cases hend
    exact hlast
  | some u => rw [hnext] at hend; cases hend

open Classical in
/-- The requests from a node up. -/
noncomputable def above (i : FlockInode) : FlockBlocker → Finset DetTid
  | .lock _ => ∅
  | .request u => (i.waiters.map (·.thread)).toFinset.filter (ReflTransGen i.BlockedUnder u)

open Classical in
theorem mem_above {v : DetTid} : v ∈ i.above (.request u) ↔
    v ∈ i.waiters.map (·.thread) ∧ ReflTransGen i.BlockedUnder u v := by
  unfold above
  rw [Finset.mem_filter, mem_toFinset]

theorem card_above_le (i : FlockInode) (node : FlockBlocker) :
    (i.above node).card ≤ i.waiters.length := by
  cases node with
  | lock d => exact Nat.zero_le _
  | request u =>
    have hsub : i.above (.request u) ⊆ (i.waiters.map (·.thread)).toFinset := by
      intro v hv
      exact mem_toFinset.mpr (mem_above.mp hv).1
    calc (i.above (.request u)).card ≤ (i.waiters.map (·.thread)).toFinset.card :=
          Finset.card_le_card hsub
      _ ≤ (i.waiters.map (·.thread)).length := toFinset_card_le _
      _ = i.waiters.length := length_map _

theorem Consistent.card_above_lt (h : i.Consistent)
    (hu : u ∈ i.blockedList node) : (i.above node).card < (i.above (.request u)).card := by
  obtain ⟨d, m, hreq⟩ := (h.listed node u).mp hu
  have hself : u ∈ i.above (.request u) := by
    obtain ⟨w, hw, -⟩ := hreq
    exact mem_above.mpr ⟨mem_map.mpr ⟨w, mem_of_lookup hw, key_of_lookup hw⟩, .refl⟩
  refine Finset.card_lt_card (Finset.ssubset_iff_subset_ne.mpr ⟨?_, ?_⟩)
  · intro v hv
    cases node with
    | lock e => exact absurd hv (Finset.notMem_empty v)
    | request c =>
      obtain ⟨hmem, hpath⟩ := mem_above.mp hv
      exact mem_above.mpr ⟨hmem, .head ⟨d, m, hreq⟩ hpath⟩
  · intro heq
    rw [← heq] at hself
    cases node with
    | lock e => exact absurd hself (Finset.notMem_empty u)
    | request c =>
      have hpath := (mem_above.mp hself).2
      exact h.acyclic u (TransGen.head' ⟨d, m, hreq⟩ hpath)

/-- The descent ends: every pass goes one request further from a root. -/
theorem Consistent.descend_returns (h : i.Consistent) (d : OpenFileId) (m : FlockMode)
    (start : FlockBlocker) : ∃ node, i.descend d m start = some node := by
  refine loop_returns (fun _ => True) (fun node => i.waiters.length - (i.above node).card) ?_ _
    trivial ?_
  · intro a b _ hab
    refine ⟨trivial, ?_⟩
    unfold descendStep at hab
    cases hnext : i.conflictUnder d m a with
    | none => rw [hnext] at hab; cases hab
    | some u =>
      rw [hnext] at hab
      cases hab
      have hlt := h.card_above_lt (conflictUnder_eq_some hnext).1
      have hle := i.card_above_le (.request u)
      omega
  · omega

/-! ## Blocking a request -/

theorem Consistent.block (h : i.Consistent)
    (hwok : i.Requests t d m none) (hbloc : i.Blocks node d m) (hunder : i.UnderLock node) :
    ((i.setBlockedList node (i.blockedList node ++ [t])).updateWaiter t
      (.setBlocker (some node))).Consistent := by
  set i' := (i.setBlockedList node (i.blockedList node ++ [t])).updateWaiter t
    (.setBlocker (some node)) with hi'
  have hset : i' = (i.setBlockedList node (i.blockedList node ++ [t])).setBlockers [t]
    (some node) := rfl
  have hlst : ∀ n, i'.blockedList n =
      if n = node then i.blockedList node ++ [t] else i.blockedList n := by
    intro n
    rw [hset, blockedList_setBlockers]
    by_cases hn : n = node
    · rw [if_pos hn, hn, blockedList_setBlockedList_same i node _ hbloc.has]
    · rw [if_neg hn, blockedList_setBlockedList_ne i node _ hn]
  have hrequ : ∀ u e n b, i'.Requests u e n b ↔
      if u = t then (e = d ∧ n = m) ∧ b = some node else i.Requests u e n b := by
    intro u e n b
    rw [hset, requests_setBlockers]
    simp only [mem_singleton, requests_setBlockedList]
    split_ifs with hu
    · subst hu
      refine and_congr_left fun _ => ⟨?_, ?_⟩
      · rintro ⟨c, hc⟩
        exact ⟨(hc.unique hwok).1, (hc.unique hwok).2.1⟩
      · rintro ⟨rfl, rfl⟩
        exact ⟨none, hwok⟩
    · rfl
  have hgr : ∀ e n, i'.Grants e n ↔ i.Grants e n := by
    intro e n
    rw [hset, ← grants_setBlockedList i node (i.blockedList node ++ [t])]
    unfold Grants
    rw [grantOf_setBlockers]
  -- The request was on no list.
  have hnowh : ∀ n, t ∉ i.blockedList n := by
    intro n hmem
    obtain ⟨e, m', hreq⟩ := (h.listed n t).mp hmem
    exact absurd (hwok.unique hreq).2.2 (by simp)
  have hkeep : ∀ n e m', i.Blocks n e m' → i'.Blocks n e m' := by
    intro n e m' hn
    refine hn.mono (fun c held _ => (hgr c held).mpr) ?_
    intro u other asked b _ hoth
    simp only [hrequ]
    by_cases hu : u = t
    · subst hu
      obtain ⟨rfl, rfl, -⟩ := hoth.unique hwok
      simp
    · simp only [if_neg hu]
      exact ⟨b, hoth⟩
  refine ⟨?_, ?_, ?_, ?_, ?_, ?_, ?_⟩
  · rw [hset, granted_setBlockers, holders_setBlockedList]
    exact h.holders
  · rw [hset, threads_setBlockers, threads_setBlockedList]
    exact h.threads
  · intro n u
    rw [hlst]
    simp only [hrequ]
    by_cases hu : u = t
    · subst hu
      by_cases hn : n = node
      · subst hn
        simp
      · simp only [if_neg hn, if_true]
        refine iff_of_false (hnowh n) ?_
        rintro ⟨e, m', -, heq⟩
        exact hn (Option.some.inj heq)
    · simp only [if_neg hu]
      rw [← h.listed]
      by_cases hn : n = node
      · rw [if_pos hn, hn, mem_append, mem_singleton]
        exact or_iff_left hu
      · rw [if_neg hn]
  · intro n
    rw [hlst]
    by_cases hn : n = node
    · rw [if_pos hn, ← concat_eq_append]
      exact (h.once node).concat (hnowh node)
    · rw [if_neg hn]
      exact h.once n
  · intro u e n node' hreq
    rw [hrequ] at hreq
    by_cases hu : u = t
    · rw [if_pos hu] at hreq
      obtain ⟨⟨rfl, rfl⟩, heq⟩ := hreq
      rw [Option.some.injEq] at heq
      subst heq
      exact hkeep _ _ _ hbloc
    · rw [if_neg hu] at hreq
      exact hkeep _ _ _ (h.blocks u e n node' hreq)
  · cases node with
    | lock c =>
      refine h.acyclic.mono ?_
      rintro a b ⟨e, n, hreq⟩
      rw [hrequ] at hreq
      by_cases ha : a = t
      · rw [if_pos ha] at hreq
        exact absurd hreq.2 (by simp)
      · rw [if_neg ha] at hreq
        exact ⟨e, n, hreq⟩
    | request c =>
      -- Above the new blocker everything is blocked, and the request is not.
      refine h.acyclic.add_edge (x := t) (y := c) ?_ ?_
      · intro hpath
        obtain ⟨e, n, node', hreq⟩ := hunder t hpath
        exact absurd (hwok.unique hreq).2.2 (by simp)
      · rintro a b ⟨e, n, hreq⟩
        rw [hrequ] at hreq
        by_cases ha : a = t
        · rw [if_pos ha] at hreq
          refine .inr ⟨ha, ?_⟩
          simpa using hreq.2
        · rw [if_neg ha] at hreq
          exact .inl ⟨e, n, hreq⟩
  · intro e e' n n' he he'
    exact h.exclusive e e' n n' ((hgr e n).mp he) ((hgr e' n').mp he')

theorem Consistent.insertBlock (h : i.Consistent)
    (hwok : i.Requests t d m none) (hfirst : i.Blocks (.lock first) d m) :
    (i.insertBlock t first).Consistent := by
  unfold FlockInode.insertBlock
  obtain ⟨w, hw, rfl, rfl, hb⟩ := id hwok
  rw [hw]
  dsimp only
  obtain ⟨node, hnode⟩ := h.descend_returns w.openFile w.mode (.lock first)
  obtain ⟨hbloc, hunder⟩ := h.descend_spec hfirst trivial hnode
  rw [hnode]
  exact (h.block hwok hbloc hunder).wake (.request t)

theorem exists_requests_insertBlock (t : DetTid) (first : OpenFileId) (u : DetTid) (e : OpenFileId)
    (n : FlockMode) : (∃ b, (i.insertBlock t first).Requests u e n b) ↔ ∃ b, i.Requests u e n b := by
  unfold FlockInode.insertBlock
  split
  · exact Iff.rfl
  · split
    · exact Iff.rfl
    · rename_i node _
      exact (exists_requests_relist _ (.request t) [] _ none u e n).trans
        (exists_requests_relist i node _ [t] (some node) u e n)

theorem grants_insertBlock (t : DetTid) (first e : OpenFileId) (n : FlockMode) :
    (i.insertBlock t first).Grants e n ↔ i.Grants e n := by
  unfold FlockInode.insertBlock
  split
  · exact Iff.rfl
  · split
    · exact Iff.rfl
    · rename_i node _
      rw [grants_wake]
      exact grants_setBlockedList i node _ e n

/-! ## Granting -/

theorem granted_grant (d : OpenFileId) (m : FlockMode) (taker : DetPid) (t : DetTid) :
    (i.grant d m taker t).granted = i.granted ++ [⟨d, m, taker, i.blockedList (.request t)⟩] := by
  unfold FlockInode.grant
  dsimp only
  rw [granted_setBlockers]
  rfl

theorem requests_grant (d : OpenFileId) (m : FlockMode) (taker : DetPid) (t u : DetTid)
    (e : OpenFileId) (n : FlockMode) (b : Option FlockBlocker) :
    (i.grant d m taker t).Requests u e n b ↔
      if u ∈ i.blockedList (.request t) then (∃ c, i.Requests u e n c) ∧ b = some (.lock d)
      else i.Requests u e n b := by
  have := requests_setBlockers (i.setBlockedList (.request t) []) (i.blockedList (.request t))
    (some (.lock d)) u e n b
  simp only [requests_setBlockedList] at this
  exact this

theorem grants_grant (hnone : i.grantOf d = none) (m : FlockMode)
    (taker : DetPid) (t : DetTid) (e : OpenFileId) (n : FlockMode) :
    (i.grant d m taker t).Grants e n ↔ i.Grants e n ∨ e = d ∧ n = m := by
  unfold Grants grantOf
  rw [granted_grant, lookup_concat]
  by_cases he : d = e
  · subst he
    rw [show lookup _ _ d = none from hnone, if_pos rfl, Option.none_or]
    simp [eq_comm]
  · rw [if_neg he, Option.or_none]
    simp [Ne.symm he]

theorem blockedList_grant (hnone : i.grantOf d = none) (m : FlockMode) (taker : DetPid)
    (t : DetTid) (node : FlockBlocker) : (i.grant d m taker t).blockedList node =
      if node = .request t then [] else if node = .lock d then i.blockedList (.request t)
      else i.blockedList node := by
  cases node with
  | request u =>
    rw [if_neg (show FlockBlocker.request u ≠ .lock d by simp)]
    have hlist : (i.grant d m taker t).blockedList (.request u) =
        (i.setBlockedList (.request t) []).blockedList (.request u) :=
      blockedList_setBlockers _ _ _ (.request u)
    rw [hlist]
    by_cases hu : u = t
    · subst hu
      rw [if_pos rfl, blockedList_setBlockedList_nil]
    · have hne : FlockBlocker.request u ≠ .request t := by simpa using hu
      rw [if_neg hne, blockedList_setBlockedList_ne _ _ _ hne]
  | lock e =>
    rw [if_neg (show FlockBlocker.lock e ≠ .request t by simp), blockedList_lock]
    unfold grantOf
    rw [granted_grant, lookup_concat]
    by_cases he : d = e
    · subst he
      rw [show lookup _ _ d = none from hnone]
      simp
    · have hne : FlockBlocker.lock e ≠ .lock d := by simpa using Ne.symm he
      rw [if_neg he, if_neg hne, Option.or_none]
      rfl

theorem Consistent.grant (h : i.Consistent) (hnone : i.grantOf d = none)
    (hfree : ∀ e n, i.Grants e n → e ≠ d → m.conflictsWith n = false)
    (hown : ∀ e n b, i.Requests t e n b → e = d ∧ n = m) (taker : DetPid) :
    (i.grant d m taker t).Consistent := by
  have hgr := grants_grant hnone m taker t
  have hnogr : ∀ n, ¬ i.Grants d n := by
    rintro n ⟨g, hg, -⟩
    rw [hnone] at hg
    cases hg
  have hmoved : ∀ u, u ∈ i.blockedList (.request t) →
      ∃ e n, i.Requests u e n (some (.request t)) := fun u => (h.listed (.request t) u).mp
  refine ⟨?_, ?_, ?_, ?_, ?_, ?_, ?_⟩
  · rw [granted_grant, map_append, map_singleton, ← concat_eq_append]
    refine h.holders.concat fun hmem => ?_
    obtain ⟨g, hg, heq⟩ := mem_map.mp hmem
    exact lookup_eq_none_iff.mp hnone g hg heq
  · unfold FlockInode.grant
    rw [threads_setBlockers, threads_setBlockedList]
    exact h.threads
  · intro node u
    rw [blockedList_grant hnone]
    simp only [requests_grant]
    by_cases hu : u ∈ i.blockedList (.request t)
    · -- A moved request is under the lock and nowhere else.
      obtain ⟨e, n, hreq⟩ := hmoved u hu
      simp only [if_pos hu, Option.some.injEq]
      by_cases hrt : node = .request t
      · subst hrt
        simp
      · rw [if_neg hrt]
        by_cases hld : node = .lock d
        · rw [if_pos hld]
          exact iff_of_true hu ⟨e, n, ⟨_, hreq⟩, hld⟩
        · rw [if_neg hld]
          refine iff_of_false ?_ ?_
          · intro hmem
            obtain ⟨e', n', hreq'⟩ := (h.listed node u).mp hmem
            exact hrt (Option.some.inj (hreq'.unique hreq).2.2)
          · rintro ⟨e', n', -, heq⟩
            exact hld heq
    · simp only [if_neg hu]
      rw [← h.listed]
      by_cases hrt : node = .request t
      · subst hrt
        rw [if_pos rfl]
        exact iff_of_false not_mem_nil hu
      · rw [if_neg hrt]
        by_cases hld : node = .lock d
        · subst hld
          rw [if_pos rfl]
          refine iff_of_false hu ?_
          rw [h.listed]
          rintro ⟨e, n, hreq⟩
          obtain ⟨-, held, hheld, -⟩ := h.blocks u e n _ hreq
          exact hnogr held hheld
        · rw [if_neg hld]
  · intro node
    rw [blockedList_grant hnone]
    split_ifs
    · exact nodup_nil
    · exact h.once _
    · exact h.once node
  · intro u e n node hreq
    rw [requests_grant] at hreq
    by_cases hu : u ∈ i.blockedList (.request t)
    · -- A moved request conflicts with the lock as it did with the request.
      rw [if_pos hu] at hreq
      obtain ⟨⟨c, hc⟩, heq⟩ := hreq
      rw [Option.some.injEq] at heq
      subst heq
      obtain ⟨e', n', hreq'⟩ := hmoved u hu
      obtain ⟨rfl, rfl, -⟩ := hc.unique hreq'
      obtain ⟨other, asked, b, hoth, hne, hconf⟩ := h.blocks u e n _ hreq'
      obtain ⟨rfl, rfl⟩ := hown other asked b hoth
      refine ⟨hne, asked, (hgr other asked).mpr (.inr ⟨rfl, rfl⟩), ?_⟩
      rw [← hconf]
      exact Bool.or_comm _ _
    · rw [if_neg hu] at hreq
      refine (h.blocks u e n node hreq).mono (fun c held _ hheld => (hgr c held).mpr (.inl hheld))
        ?_
      intro c other asked b _ hoth
      simp only [requests_grant]
      by_cases hc : c ∈ i.blockedList (.request t)
      · simp only [if_pos hc]
        exact ⟨_, ⟨b, hoth⟩, rfl⟩
      · simp only [if_neg hc]
        exact ⟨b, hoth⟩
  · refine h.acyclic.mono ?_
    rintro a b ⟨e, n, hreq⟩
    rw [requests_grant] at hreq
    by_cases ha : a ∈ i.blockedList (.request t)
    · rw [if_pos ha] at hreq
      exact absurd hreq.2 (by simp)
    · rw [if_neg ha] at hreq
      exact ⟨e, n, hreq⟩
  · intro e e' n n' he he' hne
    rw [hgr] at he he'
    rcases he with he | ⟨rfl, rfl⟩
    · rcases he' with he' | ⟨rfl, rfl⟩
      · exact h.exclusive e e' n n' he he' hne
      · rw [← hfree e n he hne]
        exact Bool.or_comm _ _
    · rcases he' with he' | ⟨rfl, rfl⟩
      · exact hfree e' n' he' hne.symm
      · exact absurd rfl hne

/-! ## Removing a request -/

theorem Consistent.waiter_eraseWaiter (h : i.Consistent) (t u : DetTid) :
    (i.eraseWaiter t).waiter u = if u = t then none else i.waiter u :=
  lookup_eraseP h.threads t u

theorem Consistent.dropWaiter {i' : FlockInode} (h : i.Consistent)
    (hfree : i.blockedList (.request t) = [])
    (hhold : i'.granted.map (·.openFile) = i.granted.map (·.openFile))
    (hthr : (i'.waiters.map (·.thread)).Sublist (i.waiters.map (·.thread)))
    (hrequ : ∀ u e n b, i'.Requests u e n b ↔ u ≠ t ∧ i.Requests u e n b)
    (hgr : ∀ e n, i'.Grants e n ↔ i.Grants e n) (hlst : ∀ node, i'.blockedList node =
      (i.blockedList node).filter fun u => decide (u ≠ t)) : i'.Consistent := by
  refine h.restrict (fun _ u => decide (u ≠ t)) (hhold ▸ h.holders)
    (h.threads.sublist hthr) ?_ hlst (fun e n => (hgr e n).mp) ?_
  · intro u e n node
    rw [hrequ, decide_eq_true_eq]
  · intro u e n node hreq hb
    refine hb.mono (fun c held _ => (hgr c held).mpr) fun c other asked b hn hoth =>
      ⟨b, (hrequ c other asked b).mpr ⟨?_, hoth⟩⟩
    rintro rfl
    have hmem := (h.listed (.request c) u).mpr ⟨e, n, hn ▸ ((hrequ _ _ _ _).mp hreq).2⟩
    rw [hfree] at hmem
    exact not_mem_nil hmem

theorem Consistent.requests_eraseWaiter (h : i.Consistent) (t u : DetTid) (e : OpenFileId)
    (n : FlockMode) (b : Option FlockBlocker) :
    (i.eraseWaiter t).Requests u e n b ↔ u ≠ t ∧ i.Requests u e n b := by
  rw [requests_iff_map, requests_iff_map, h.waiter_eraseWaiter]
  by_cases hu : u = t
  · rw [if_pos hu]
    simp [hu]
  · rw [if_neg hu]
    simp [hu]

theorem Consistent.blockedList_eraseWaiter (h : i.Consistent)
    (hfree : i.blockedList (.request t) = []) (node : FlockBlocker) :
    (i.eraseWaiter t).blockedList node = i.blockedList node := by
  cases node with
  | lock d => rfl
  | request u =>
    rw [blockedList_request, h.waiter_eraseWaiter]
    by_cases hu : u = t
    · rw [if_pos hu, hu, hfree]
      rfl
    · rw [if_neg hu]
      rfl

theorem Consistent.removeWaiter_spec (h : i.Consistent) (t : DetTid) :
    (i.removeWaiter t).2.Consistent ∧
      (∀ u e n, (∃ b, (i.removeWaiter t).2.Requests u e n b) ↔ u ≠ t ∧ ∃ b, i.Requests u e n b) ∧
      (∀ e n, (i.removeWaiter t).2.Grants e n ↔ i.Grants e n) ∧
      ∀ e, e ∈ (i.removeWaiter t).1.toList.map (·.openFile) ↔ ∃ n b, i.Requests t e n b := by
  have hwake := h.wake (.request t)
  have hfree : (i.wakeBlockedUnder (.request t)).blockedList (.request t) = [] := by
    rw [blockedList_wake, if_pos rfl]
  have hrequ : ∀ u e n, (∃ b, (i.wakeBlockedUnder (.request t)).Requests u e n b) ↔
      ∃ b, i.Requests u e n b := exists_requests_relist i (.request t) [] _ none
  unfold FlockInode.removeWaiter
  dsimp only
  cases hw : (i.wakeBlockedUnder (.request t)).waiter t with
  | none =>
    have hnot : ∀ e n b, ¬ (i.wakeBlockedUnder (.request t)).Requests t e n b := by
      rintro e n b ⟨w, hw', -⟩
      rw [hw] at hw'
      cases hw'
    refine ⟨hwake, ?_, grants_wake (.request t), ?_⟩
    · intro u e n
      rw [hrequ]
      refine ⟨fun hex => ⟨?_, hex⟩, fun hex => hex.2⟩
      rintro rfl
      obtain ⟨b, hb⟩ := (hrequ u e n).mpr hex
      exact hnot e n b hb
    · intro e
      refine iff_of_false (by simp) ?_
      rintro ⟨n, b, hb⟩
      obtain ⟨c, hc⟩ := (hrequ t e n).mpr ⟨b, hb⟩
      exact hnot e n c hc
  | some w =>
    have hreq : (i.wakeBlockedUnder (.request t)).Requests t w.openFile w.mode w.blocker :=
      ⟨w, hw, rfl, rfl, rfl⟩
    have hleft : ∀ e, e ∈ (some w).toList.map (·.openFile) ↔ ∃ n b, i.Requests t e n b := by
      intro e
      rw [Option.toList_some, map_singleton, mem_singleton]
      constructor
      · rintro rfl
        obtain ⟨b, hb⟩ := (hrequ t w.openFile w.mode).mp ⟨_, hreq⟩
        exact ⟨w.mode, b, hb⟩
      · rintro ⟨n, b, hb⟩
        obtain ⟨c, hc⟩ := (hrequ t e n).mpr ⟨b, hb⟩
        exact (hc.unique hreq).1
    have hgone : ∀ u e n, (∃ b, u ≠ t ∧ (i.wakeBlockedUnder (.request t)).Requests u e n b) ↔
        u ≠ t ∧ ∃ b, i.Requests u e n b := by
      intro u e n
      rw [← hrequ, exists_and_left]
    dsimp only
    cases hb : w.blocker with
    | none =>
      rw [hb] at hreq
      have hnowh : ∀ node, t ∉ (i.wakeBlockedUnder (.request t)).blockedList node := by
        intro node hmem
        obtain ⟨e, n, hreq'⟩ := (hwake.listed node t).mp hmem
        exact absurd (hreq.unique hreq').2.2 (by simp)
      refine ⟨hwake.dropWaiter hfree rfl (eraseP_sublist.map _)
        (hwake.requests_eraseWaiter t) (fun _ _ => Iff.rfl) ?_, ?_, grants_wake (.request t), hleft⟩
      · intro node
        rw [hwake.blockedList_eraseWaiter hfree, eq_comm, filter_eq_self]
        intro u hu
        exact decide_eq_true fun heq => hnowh node (heq ▸ hu)
      · intro u e n
        simp only [hwake.requests_eraseWaiter]
        exact hgone u e n
    | some node =>
      dsimp only
      rw [hb] at hreq
      have hhas : ((i.wakeBlockedUnder (.request t)).eraseWaiter t).Has node := by
        have hbloc := hwake.blocks t _ _ node hreq
        cases node with
        | lock c => exact hbloc.has
        | request c =>
          obtain ⟨v, hv⟩ := hbloc.has
          refine ⟨v, ?_⟩
          rw [hwake.waiter_eraseWaiter, if_neg]
          · exact hv
          · rintro rfl
            exact hwake.acyclic c (.single ⟨_, _, hreq⟩)
      refine ⟨hwake.dropWaiter hfree ?_ ?_ ?_ ?_ ?_, ?_, ?_, hleft⟩
      · exact holders_setBlockedList _ _ _
      · rw [threads_setBlockedList]
        exact eraseP_sublist.map _
      · intro u e n b
        rw [requests_setBlockedList]
        exact hwake.requests_eraseWaiter t u e n b
      · intro e n
        exact grants_setBlockedList _ _ _ e n
      · intro node'
        rw [hwake.blockedList_eraseWaiter hfree]
        by_cases hn : node' = node
        · subst hn
          exact blockedList_setBlockedList_same _ _ _ hhas
        · rw [blockedList_setBlockedList_ne _ _ _ hn, hwake.blockedList_eraseWaiter hfree, eq_comm,
            filter_eq_self]
          intro u hu
          refine decide_eq_true fun heq => hn ?_
          obtain ⟨e, n, hreq'⟩ := (hwake.listed node' u).mp hu
          subst heq
          exact Option.some.inj (hreq'.unique hreq).2.2
      · intro u e n
        simp only [requests_setBlockedList, hwake.requests_eraseWaiter]
        exact hgone u e n
      · intro e n
        rw [grants_setBlockedList]
        exact grants_wake (.request t) e n

/-! ## Attempts -/

theorem Consistent.firstConflict_eq_none (h : i.Consistent)
    (hnone : i.firstConflict d m = none) (e : OpenFileId) (n : FlockMode) (he : i.Grants e n)
    (hne : e ≠ d) : m.conflictsWith n = false := by
  unfold firstConflict at hnone
  rw [Option.map_eq_none_iff, find?_eq_none] at hnone
  obtain ⟨g, hg, rfl, rfl⟩ := (grants_iff_mem h.holders).mp he
  have := hnone g hg
  simpa [hne] using this

theorem Consistent.firstConflict_eq_some (h : i.Consistent)
    (hsome : i.firstConflict d m = some first) : i.Blocks (.lock first) d m := by
  obtain ⟨g, hg, rfl⟩ := Option.map_eq_some_iff.mp hsome
  have htest := find?_some hg
  rw [Bool.and_eq_true, decide_eq_true_eq] at htest
  have hmem := mem_of_find?_eq_some hg
  exact ⟨htest.1, g.mode, (grants_iff_mem h.holders).mpr ⟨g, hmem, rfl, rfl⟩, htest.2⟩

/-- What an attempt leaves: a consistent inode, no lock but those there were and the caller's, and
no request but those there were and the caller's. -/
structure Attempted (i : FlockInode) (t : DetTid) (d : OpenFileId) (i' : FlockInode) : Prop where
  consistent : i'.Consistent
  grants : ∀ e n, i'.Grants e n → i.Grants e n ∨ e = d
  requests : ∀ u e n b, i'.Requests u e n b → (∃ c, i.Requests u e n c) ∨ u = t ∧ e = d
  kept : ∀ u e n b, i.Requests u e n b → ∃ c, i'.Requests u e n c

theorem Attempted.calls {i' i'' : FlockInode} (h : Attempted i t d i') (hcons : i''.Consistent)
    (hgr : ∀ e n, i''.Grants e n → i'.Grants e n ∨ e = d)
    (hrequ : ∀ u e n, (∃ b, i''.Requests u e n b) ↔ ∃ b, i'.Requests u e n b) :
    Attempted i t d i'' := by
  refine ⟨hcons, fun e n he => (hgr e n he).elim (h.grants e n) .inr, ?_, ?_⟩
  · intro u e n b hr
    obtain ⟨c, hc⟩ := (hrequ u e n).mp ⟨b, hr⟩
    exact h.requests u e n c hc
  · exact fun u e n b hr => (hrequ u e n).mpr (h.kept u e n b hr)

theorem Consistent.attempt_spec (h : i.Consistent) {process : DetPid}
    {mode : Option FlockMode} {nonblocking : Bool}
    (hown : ∀ e n b, i.Requests t e n b → e = d ∧ mode = some n ∧ b = none) :
    Attempted i t d (i.attempt t process d mode nonblocking).2.2 := by
  have hsame : Attempted i t d i :=
    ⟨h, fun e n he => .inl he, fun u e n b hr => .inl ⟨b, hr⟩, fun u e n b hr => ⟨b, hr⟩⟩
  unfold attempt
  dsimp only
  split
  · exact hsame
  · -- The description's own lock is deleted first.
    have hdel := h.deleteLock d
    have hgr := h.grants_deleteLock d
    have hrequ := exists_requests_deleteLock (i := i) d
    have hnone : (i.deleteLock d).2.grantOf d = none := by
      rw [Option.eq_none_iff_forall_ne_some]
      intro g hg
      exact ((hgr d g.mode).mp ⟨g, hg, rfl⟩).1 rfl
    have hbase := hsame.calls hdel (fun e n he => .inl ((hgr e n).mp he).2) hrequ
    cases mode with
    | none => exact hbase
    | some m =>
      dsimp only
      have hown' : ∀ e n b, (i.deleteLock d).2.Requests t e n b → e = d ∧ n = m := by
        intro e n b hr
        obtain ⟨c, hc⟩ := (hrequ t e n).mp ⟨b, hr⟩
        obtain ⟨he, hm, -⟩ := hown e n c hc
        exact ⟨he, (Option.some.inj hm).symm⟩
      cases hconf : (i.deleteLock d).2.firstConflict d m with
      | none =>
        exact hbase.calls (hdel.grant hnone (hdel.firstConflict_eq_none hconf) hown' process)
          (fun e n he => ((grants_grant hnone m process t e n).mp he).imp_right And.left)
          (exists_requests_relist _ (.request t) [] _ (some (.lock d)))
      | some first =>
        dsimp only
        split
        · exact hbase
        · have hfirst := hdel.firstConflict_eq_some hconf
          by_cases hnew : (i.deleteLock d).2.waiter t = none
          · rw [if_pos (by rw [hnew]; rfl)]
            have hpush := hdel.pushWaiter (w := ⟨t, process, d, m, none, []⟩) hnew rfl rfl
            have hpus := requests_pushWaiter (w := ⟨t, process, d, m, none, []⟩) hnew
            have hwok := (hpus t d m none).mpr (by rw [if_pos rfl]; exact ⟨rfl, rfl, rfl⟩)
            refine Attempted.calls ⟨hpush, hbase.grants, ?_, ?_⟩ (hpush.insertBlock hwok hfirst)
              (fun e n he => .inl ((grants_insertBlock t first e n).mp he))
              (exists_requests_insertBlock t first)
            · intro u e n b hr
              rw [hpus] at hr
              split_ifs at hr with hu
              · exact .inr ⟨hu, hr.1⟩
              · exact hbase.requests u e n b hr
            · intro u e n b hr
              obtain ⟨c, hc⟩ := hbase.kept u e n b hr
              refine ⟨c, ?_⟩
              rw [hpus, if_neg]
              · exact hc
              · rintro rfl
                obtain ⟨w, hw, -⟩ := hc
                rw [hnew] at hw
                cases hw
          · rw [if_neg (by simpa using hnew)]
            obtain ⟨w, hw⟩ := Option.ne_none_iff_exists'.mp hnew
            obtain ⟨c, hc⟩ := (hrequ t w.openFile w.mode).mp ⟨_, w, hw, rfl, rfl, rfl⟩
            obtain ⟨hwd, hwm, hcn⟩ := hown _ _ _ hc
            rw [hcn, hwd, ← Option.some.inj hwm] at hc
            have hwok := h.requests_deleteLock_none d hc
            exact hbase.calls (hdel.insertBlock hwok hfirst)
              (fun e n he => .inl ((grants_insertBlock t first e n).mp he))
              (exists_requests_insertBlock t first)

end FlockInode

end Hermit.Flock
