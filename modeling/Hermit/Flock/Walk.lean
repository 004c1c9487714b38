import Hermit.Flock.Blocking

/-!
# The walk of the blocked requests

In a consistent inode the `/proc/locks` walk ends and lists no request twice
(`Consistent.visits_spec`), and where no lock is granted some request is woken
(`Consistent.exists_woken`).
-/

namespace Hermit.Flock

open Common List
open Common.DepthFirst (Acyclic)
open Relation

namespace FlockInode

variable {i : FlockInode}

/-! ## The walk -/

def Visit.thread? : Visit → Option DetTid
  | .lock _ => none
  | .request w _ => some w.thread

/-- Following blockers from a request leads to the lock of a description. -/
def RootedAt (i : FlockInode) (holder : OpenFileId) (t : DetTid) : Prop :=
  ∃ root, ReflTransGen i.BlockedUnder t root ∧ ∃ d m, i.Requests root d m (some (.lock holder))

theorem RootedAt.unique {d e : OpenFileId} {t : DetTid} (hd : i.RootedAt d t)
    (he : i.RootedAt e t) : d = e := by
  obtain ⟨a, hpath, d', m, ha⟩ := hd
  obtain ⟨b, hpath', e', n, hb⟩ := he
  induction hpath using ReflTransGen.head_induction_on with
  | refl =>
    rcases ReflTransGen.cases_head hpath' with rfl | ⟨c, ⟨f, k, hstep⟩, -⟩
    · simpa using (ha.unique hb).2.2
    · exact absurd (ha.unique hstep).2.2 (by simp)
  | head hstep _ ih =>
    obtain ⟨f, k, hstep⟩ := hstep
    rcases ReflTransGen.cases_head hpath' with rfl | ⟨c, ⟨f', k', hstep'⟩, hrest⟩
    · exact absurd (hb.unique hstep).2.2 (by simp)
    · have hc := (hstep.unique hstep').2.2
      rw [Option.some.injEq, FlockBlocker.request.injEq] at hc
      subst hc
      exact ih hrest

theorem map_fst_depth (threads : List DetTid) (depth : ℕ) :
    (threads.map fun t => (t, depth)).map Prod.fst = threads := by
  rw [List.map_map]
  exact List.map_id threads

def walkThreads (walk : List Visit × List (DetTid × ℕ)) : List DetTid :=
  walk.1.filterMap Visit.thread? ++ walk.2.map Prod.fst

structure Walking (i : FlockInode) (holder : OpenFileId) (walk : List Visit × List (DetTid × ℕ)) :
    Prop where
  nodup : (walkThreads walk).Nodup
  rooted : ∀ t ∈ walkThreads walk, i.RootedAt holder t
  parent : ∀ t ∈ walkThreads walk, ∃ d m node, i.Requests t d m (some node) ∧
    (node = .lock holder ∨ ∃ p ∈ walk.1.filterMap Visit.thread?, node = .request p)

theorem Consistent.walking_step (h : i.Consistent) {holder : OpenFileId}
    {walk walk' : List Visit × List (DetTid × ℕ)} (hwalk : i.Walking holder walk)
    (hstep : i.walkStep walk = .inl walk') : i.Walking holder walk' ∧
      (walk'.1.filterMap Visit.thread?).length = (walk.1.filterMap Visit.thread?).length + 1 := by
  obtain ⟨visited, stack⟩ := walk
  unfold walkStep at hstep
  cases stack with
  | nil => cases hstep
  | cons top stack =>
    obtain ⟨t, depth⟩ := top
    dsimp only at hstep
    have hmem : t ∈ walkThreads (visited, (t, depth) :: stack) :=
      mem_append_right _ mem_cons_self
    obtain ⟨d, m, node, hreq, hpar⟩ := hwalk.parent t hmem
    obtain ⟨w, hw, rfl, rfl, hb⟩ := id hreq
    rw [hw] at hstep
    cases hstep
    have hwt : w.thread = t := key_of_lookup hw
    have hvisi : (visited ++ [Visit.request w depth]).filterMap Visit.thread? =
        visited.filterMap Visit.thread? ++ [t] := by
      rw [filterMap_append, ← hwt]
      rfl
    have hchil : w.blocked = i.blockedList (.request t) := by
      rw [blockedList_request, hw]
      rfl
    have hthr : walkThreads (visited ++ [Visit.request w depth],
        w.blocked.map (fun u => (u, depth + 1)) ++ stack) =
        visited.filterMap Visit.thread? ++ [t] ++ (i.blockedList (.request t) ++
          stack.map Prod.fst) := by
      unfold walkThreads
      rw [hvisi, map_append, map_fst_depth, hchil]
    have hnodup := hwalk.nodup
    have hold : walkThreads (visited, (t, depth) :: stack) =
        visited.filterMap Visit.thread? ++ [t] ++ stack.map Prod.fst := by
      unfold walkThreads
      simp
    rw [hold] at hnodup
    -- A thread of the walk blocked under `t` would have had `t` visited before.
    have hfrsh : ∀ u ∈ i.blockedList (.request t),
        u ∉ visited.filterMap Visit.thread? ++ [t] ++ stack.map Prod.fst := by
      intro u hu hin
      obtain ⟨e, n, hreq'⟩ := (h.listed (.request t) u).mp hu
      obtain ⟨e', n', node', hreq'', hp⟩ := hwalk.parent u (by rw [hold]; exact hin)
      have heq := Option.some.inj (hreq''.unique hreq').2.2
      rcases hp with hp | ⟨p, hp, hnode⟩
      · exact absurd (heq.symm.trans hp) (by simp)
      · rw [heq, FlockBlocker.request.injEq] at hnode
        rw [← hnode] at hp
        rw [append_assoc, nodup_append] at hnodup
        exact hnodup.2.2 t hp t (by simp) rfl
    refine ⟨⟨?_, ?_, ?_⟩, ?_⟩
    · rw [hthr]
      rw [nodup_append] at hnodup ⊢
      refine ⟨hnodup.1, ?_, ?_⟩
      · rw [nodup_append]
        refine ⟨h.once _, hnodup.2.1, ?_⟩
        intro a ha b hb heq
        exact hfrsh a ha (mem_append_right _ (heq ▸ hb))
      · intro a ha b hb heq
        rcases mem_append.mp hb with hb | hb
        · exact hfrsh b hb (mem_append_left _ (heq ▸ ha))
        · exact hnodup.2.2 a ha b hb heq
    · intro u hu
      rw [hthr] at hu
      by_cases hchd : u ∈ i.blockedList (.request t)
      · obtain ⟨e, n, hreq'⟩ := (h.listed (.request t) u).mp hchd
        obtain ⟨root, hpath, hroot⟩ := hwalk.rooted t hmem
        exact ⟨root, .head ⟨e, n, hreq'⟩ hpath, hroot⟩
      · refine hwalk.rooted u ?_
        rw [hold]
        simp only [mem_append] at hu ⊢
        tauto
    · intro u hu
      rw [hthr] at hu
      rw [hvisi]
      by_cases hchd : u ∈ i.blockedList (.request t)
      · obtain ⟨e, n, hreq'⟩ := (h.listed (.request t) u).mp hchd
        exact ⟨e, n, _, hreq', .inr ⟨t, by simp, rfl⟩⟩
      · have hin : u ∈ walkThreads (visited, (t, depth) :: stack) := by
          rw [hold]
          simp only [mem_append] at hu ⊢
          tauto
        obtain ⟨e, n, node', hreq', hp⟩ := hwalk.parent u hin
        refine ⟨e, n, node', hreq', hp.imp_right ?_⟩
        rintro ⟨p, hp, hnode⟩
        exact ⟨p, mem_append_left _ hp, hnode⟩
    · rw [hvisi, length_append]
      rfl

theorem Walking.length_le {holder : OpenFileId} {walk : List Visit × List (DetTid × ℕ)}
    (hwalk : i.Walking holder walk) : (walkThreads walk).length ≤ i.waiters.length := by
  have hsub : (walkThreads walk) ⊆ i.waiters.map (·.thread) := by
    intro t ht
    obtain ⟨d, m, node, ⟨w, hw, -⟩, -⟩ := hwalk.parent t ht
    exact mem_map.mpr ⟨w, mem_of_lookup hw, key_of_lookup hw⟩
  calc (walkThreads walk).length ≤ (i.waiters.map (·.thread)).length :=
        (hwalk.nodup.subperm hsub).length_le
    _ = i.waiters.length := length_map _

theorem Consistent.walking_start (h : i.Consistent) {g : FlockGrant} (hg : g ∈ i.granted) :
    i.Walking g.openFile ([.lock g], g.blocked.map fun t => (t, 1)) := by
  have hlist : g.blocked = i.blockedList (.lock g.openFile) := by
    rw [blockedList_lock, grantOf, lookup_of_mem h.holders hg]
    rfl
  have hthr : walkThreads ([.lock g], g.blocked.map fun t => (t, 1)) =
      i.blockedList (.lock g.openFile) := by
    unfold walkThreads
    rw [map_fst_depth, ← hlist]
    rfl
  refine ⟨?_, ?_, ?_⟩
  · rw [hthr]
    exact h.once _
  · intro t ht
    rw [hthr] at ht
    exact ⟨t, .refl, (h.listed _ t).mp ht⟩
  · intro t ht
    rw [hthr] at ht
    obtain ⟨d, m, hreq⟩ := (h.listed _ t).mp ht
    exact ⟨d, m, _, hreq, .inl rfl⟩

theorem Consistent.walkBelow_spec (h : i.Consistent) {g : FlockGrant} (hg : g ∈ i.granted) :
    ∃ vs, i.walkBelow g = some vs ∧ (vs.filterMap Visit.thread?).Nodup ∧
      ∀ t ∈ vs.filterMap Visit.thread?, i.RootedAt g.openFile t := by
  have hsta := h.walking_start hg
  have hretu : ∃ vs, i.walkBelow g = some vs := by
    refine loop_returns (i.Walking g.openFile)
      (fun walk => i.waiters.length - (walk.1.filterMap Visit.thread?).length) ?_ _ hsta
      (by omega)
    intro walk walk' hwalk hstep
    obtain ⟨hwalk', hlen⟩ := h.walking_step hwalk hstep
    refine ⟨hwalk', ?_⟩
    have hle := hwalk'.length_le
    unfold walkThreads at hle
    rw [length_append] at hle
    omega
  obtain ⟨vs, hvs⟩ := hretu
  obtain ⟨walk, hwalk, hend⟩ := loop_invariant (i.Walking g.openFile)
    (fun a b ha hab => (h.walking_step ha hab).1) _ hsta hvs
  have hstk : walk.2 = [] ∧ walk.1 = vs := by
    unfold walkStep at hend
    split at hend
    · rename_i hnil
      exact ⟨hnil, Sum.inr.inj hend⟩
    · split at hend
      · cases hend
      · cases hend
  have hthr : walkThreads walk = vs.filterMap Visit.thread? := by
    unfold walkThreads
    rw [hstk.1, hstk.2]
    simp
  refine ⟨vs, hvs, hthr ▸ hwalk.nodup, fun t ht => hwalk.rooted t (hthr ▸ ht)⟩

/-- The `/proc/locks` walk ends and lists no request twice. -/
theorem Consistent.visits_spec (h : i.Consistent) (listed : DetPid → Bool) :
    ∃ vs, i.visits listed = some vs ∧ (vs.filterMap Visit.thread?).Nodup := by
  have hall : ∀ gs : List FlockGrant, gs.Sublist i.granted → ∃ vss, gs.mapM i.walkBelow = some vss ∧
      (vss.flatten.filterMap Visit.thread?).Nodup ∧
      ∀ t ∈ vss.flatten.filterMap Visit.thread?, ∃ g ∈ gs, i.RootedAt g.openFile t := by
    intro gs
    induction gs with
    | nil =>
      intro _
      exact ⟨[], rfl, nodup_nil, by simp⟩
    | cons g gs ih =>
      intro hsub
      obtain ⟨vs, hvs, hnodup, hroot⟩ := h.walkBelow_spec (hsub.subset mem_cons_self)
      obtain ⟨vss, hvss, hnodup', hroot'⟩ := ih ((sublist_cons_self g gs).trans hsub)
      refine ⟨vs :: vss, ?_, ?_, ?_⟩
      · rw [mapM_cons, hvs, hvss]
        rfl
      · rw [flatten_cons, filterMap_append, nodup_append]
        refine ⟨hnodup, hnodup', ?_⟩
        -- Two locks have different holders, and a request is below one lock only.
        rintro t ht _ ht' rfl
        obtain ⟨g', hg', hroo⟩ := hroot' t ht'
        have hhold := h.holders.sublist (hsub.map _)
        rw [map_cons, nodup_cons] at hhold
        refine hhold.1 ?_
        rw [(hroot t ht).unique hroo]
        exact mem_map_of_mem hg'
      · intro t ht
        rw [flatten_cons, filterMap_append, mem_append] at ht
        rcases ht with ht | ht
        · exact ⟨g, mem_cons_self, hroot t ht⟩
        · obtain ⟨g', hg', hroo⟩ := hroot' t ht
          exact ⟨g', mem_cons_of_mem _ hg', hroo⟩
  obtain ⟨vss, hvss, hnodup, -⟩ := hall _ filter_sublist
  refine ⟨vss.flatten, ?_, hnodup⟩
  unfold visits
  rw [hvss]
  rfl

/-! ## No lost wake-up -/

theorem Consistent.exists_woken (h : i.Consistent) (hwait : i.waiters ≠ [])
    (hgran : i.granted = []) : ∃ w ∈ i.waiters, w.blocker = none := by
  have hne : (i.waiters.map (·.thread)).toFinset.Nonempty := by
    rw [toFinset_nonempty_iff]
    simpa using hwait
  obtain ⟨t, ht, hsink⟩ := h.acyclic.exists_sink hne
  rw [mem_toFinset] at ht
  obtain ⟨w, hw, rfl⟩ := mem_map.mp ht
  refine ⟨w, hw, ?_⟩
  cases hb : w.blocker with
  | none => rfl
  | some node =>
    have hreq : i.Requests w.thread w.openFile w.mode (some node) :=
      ⟨w, lookup_of_mem h.threads hw, rfl, rfl, hb⟩
    have hbloc := h.blocks _ _ _ _ hreq
    cases node with
    | lock d =>
      obtain ⟨-, held, hheld, -⟩ := hbloc
      obtain ⟨g, hg, -⟩ := (grants_iff_mem h.holders).mp hheld
      rw [hgran] at hg
      exact absurd hg not_mem_nil
    | request u =>
      obtain ⟨v, hv⟩ := hbloc.has
      refine absurd ⟨_, _, hreq⟩ (hsink u ?_)
      rw [mem_toFinset]
      exact mem_map.mpr ⟨v, mem_of_lookup hv, key_of_lookup hv⟩

end FlockInode

end Hermit.Flock
