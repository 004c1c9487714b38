import Hermit.Common.Acyclic
import Hermit.Flock.Inode

/-!
# The forest of blocked requests

`Consistent` is what holds of an inode between calls: a request is on the list of the node it is
blocked under and on no other, that node exists and conflicts with it, following blockers never
comes back, and no two descriptions hold locks that conflict.

It is stated in terms of what each thread requests (`Requests`), what each description holds
(`Grants`) and the list of each node (`blockedList`). The first half of the module says how the
basic changes act on these, the second that every operation keeps `Consistent`.
-/

namespace Hermit.Flock

open Common List
open Common.DepthFirst (Acyclic)
open Relation

namespace FlockInode

variable {i : FlockInode}

/-- A thread waits for a lock of a mode through a description, under a blocker or woken. -/
def Requests (i : FlockInode) (thread : DetTid) (openFile : OpenFileId) (mode : FlockMode)
    (blocker : Option FlockBlocker) : Prop :=
  ∃ w, i.waiter thread = some w ∧ w.openFile = openFile ∧ w.mode = mode ∧ w.blocker = blocker

/-- A description holds a lock of a mode. -/
def Grants (i : FlockInode) (openFile : OpenFileId) (mode : FlockMode) : Prop :=
  ∃ g, i.grantOf openFile = some g ∧ g.mode = mode

def Blocks (i : FlockInode) : FlockBlocker → OpenFileId → FlockMode → Prop
  | .lock holder, openFile, mode =>
    holder ≠ openFile ∧ ∃ held, i.Grants holder held ∧ mode.conflictsWith held = true
  | .request thread, openFile, mode =>
    ∃ other asked blocker, i.Requests thread other asked blocker ∧ other ≠ openFile ∧
      asked.conflictsWith mode = true

def BlockedUnder (i : FlockInode) (thread other : DetTid) : Prop :=
  ∃ openFile mode, i.Requests thread openFile mode (some (.request other))

structure Consistent (i : FlockInode) : Prop where
  holders : (i.granted.map (·.openFile)).Nodup
  threads : (i.waiters.map (·.thread)).Nodup
  listed : ∀ node t, t ∈ i.blockedList node ↔ ∃ d m, i.Requests t d m (some node)
  once : ∀ node, (i.blockedList node).Nodup
  blocks : ∀ t d m node, i.Requests t d m (some node) → i.Blocks node d m
  acyclic : Acyclic i.BlockedUnder
  exclusive : ∀ d e m m', i.Grants d m → i.Grants e m' → d ≠ e → m.conflictsWith m' = false

variable {t : DetTid} {d : OpenFileId} {m : FlockMode}

theorem Requests.unique {d' : OpenFileId} {m' : FlockMode}
    {b b' : Option FlockBlocker} (h : i.Requests t d m b) (h' : i.Requests t d' m' b') :
    d = d' ∧ m = m' ∧ b = b' := by
  obtain ⟨w, hw, rfl, rfl, rfl⟩ := h
  obtain ⟨w', hw', rfl, rfl, rfl⟩ := h'
  rw [hw] at hw'
  cases hw'
  exact ⟨rfl, rfl, rfl⟩

theorem grants_iff_mem (hnodup : (i.granted.map (·.openFile)).Nodup)
    : i.Grants d m ↔ ∃ g ∈ i.granted, g.openFile = d ∧ g.mode = m := by
  constructor
  · rintro ⟨g, hg, hm⟩
    exact ⟨g, mem_of_lookup hg, key_of_lookup hg, hm⟩
  · rintro ⟨g, hg, rfl, hm⟩
    exact ⟨g, lookup_of_mem hnodup hg, hm⟩

theorem requests_iff_mem (hnodup : (i.waiters.map (·.thread)).Nodup)
    {b : Option FlockBlocker} : i.Requests t d m b ↔
      ∃ w ∈ i.waiters, w.thread = t ∧ w.openFile = d ∧ w.mode = m ∧ w.blocker = b := by
  constructor
  · rintro ⟨w, hw, hrest⟩
    exact ⟨w, mem_of_lookup hw, key_of_lookup hw, hrest⟩
  · rintro ⟨w, hw, rfl, hrest⟩
    exact ⟨w, lookup_of_mem hnodup hw, hrest⟩

theorem Blocks.mono {i' : FlockInode} {node : FlockBlocker} (h : i.Blocks node d m)
    (hgr : ∀ e n, node = .lock e → i.Grants e n → i'.Grants e n)
    (hrequ : ∀ t e n b, node = .request t → i.Requests t e n b → ∃ c, i'.Requests t e n c) :
    i'.Blocks node d m := by
  cases node with
  | lock e =>
    obtain ⟨hne, held, hheld, hconf⟩ := h
    exact ⟨hne, held, hgr e held rfl hheld, hconf⟩
  | request u =>
    obtain ⟨other, asked, b, hreq, hrest⟩ := h
    obtain ⟨c, hc⟩ := hrequ u other asked b rfl hreq
    exact ⟨other, asked, c, hc, hrest⟩

theorem Consistent.restrict {i' : FlockInode} (h : i.Consistent)
    (keep : FlockBlocker → DetTid → Bool)
    (hhold : (i'.granted.map (·.openFile)).Nodup) (hthr : (i'.waiters.map (·.thread)).Nodup)
    (hrequ : ∀ t d m node,
      i'.Requests t d m (some node) ↔ keep node t = true ∧ i.Requests t d m (some node))
    (hlst : ∀ node, i'.blockedList node = (i.blockedList node).filter (keep node))
    (hgr : ∀ d m, i'.Grants d m → i.Grants d m)
    (hblocks : ∀ t d m node, i'.Requests t d m (some node) → i.Blocks node d m →
      i'.Blocks node d m) : i'.Consistent := by
  refine ⟨hhold, hthr, ?_, ?_, ?_, ?_, ?_⟩
  · intro node t
    simp only [hlst, mem_filter, h.listed, hrequ, exists_and_left]
    exact and_comm
  · intro node
    rw [hlst]
    exact (h.once node).filter _
  · intro t d m node hreq
    exact hblocks t d m node hreq (h.blocks t d m node ((hrequ t d m node).mp hreq).2)
  · refine h.acyclic.mono ?_
    rintro a b ⟨d, m, hreq⟩
    exact ⟨d, m, ((hrequ a d m _).mp hreq).2⟩
  · intro d e m m' hd he
    exact h.exclusive d e m m' (hgr d m hd) (hgr e m' he)

theorem Consistent.congr {i' : FlockInode} (h : i.Consistent)
    (hhold : i'.granted.map (·.openFile) = i.granted.map (·.openFile))
    (hthr : i'.waiters.map (·.thread) = i.waiters.map (·.thread))
    (hrequ : ∀ t d m b, i'.Requests t d m b ↔ i.Requests t d m b)
    (hgr : ∀ d m, i'.Grants d m ↔ i.Grants d m)
    (hlst : ∀ node, i'.blockedList node = i.blockedList node) : i'.Consistent :=
  h.restrict (fun _ _ => true) (hhold ▸ h.holders) (hthr ▸ h.threads)
    (by simp [hrequ]) (by simp [hlst]) (fun d m => (hgr d m).mp)
    fun _ _ _ _ _ hb => hb.mono (fun e n _ => (hgr e n).mpr)
      fun t e n b _ hr => ⟨b, (hrequ t e n b).mpr hr⟩

/-! ## Basic changes -/

theorem waiter_setBlocker (i : FlockInode) (t t' : DetTid) (b : Option FlockBlocker) :
    (i.updateWaiter t (.setBlocker b)).waiter t' =
      if t' = t then (i.waiter t).map (.setBlocker b) else i.waiter t' :=
  lookup_amend (f := FlockWaiter.setBlocker b) (fun _ => rfl) t t'

theorem waiter_setBlocked (i : FlockInode) (t t' : DetTid) (list : List DetTid) :
    (i.setBlockedList (.request t) list).waiter t' =
      if t' = t then (i.waiter t).map (.setBlocked list) else i.waiter t' :=
  lookup_amend (f := FlockWaiter.setBlocked list) (fun _ => rfl) t t'

theorem grantOf_setBlocked (i : FlockInode) (d d' : OpenFileId) (list : List DetTid) :
    (i.setBlockedList (.lock d) list).grantOf d' =
      if d' = d then (i.grantOf d).map (.setBlocked list) else i.grantOf d' :=
  lookup_amend (f := FlockGrant.setBlocked list) (fun _ => rfl) d d'

theorem blockedList_lock (i : FlockInode) (d : OpenFileId) :
    i.blockedList (.lock d) = ((i.grantOf d).map (·.blocked)).getD [] := rfl

theorem blockedList_request (i : FlockInode) (t : DetTid) :
    i.blockedList (.request t) = ((i.waiter t).map (·.blocked)).getD [] := rfl

/-- What is read of a request apart from its list. -/
theorem requests_iff_map (t : DetTid) (d : OpenFileId) (m : FlockMode) (b : Option FlockBlocker) :
    i.Requests t d m b ↔
      (i.waiter t).map (fun w => (w.openFile, w.mode, w.blocker)) = some (d, m, b) := by
  unfold Requests
  rw [Option.map_eq_some_iff]
  simp only [Prod.mk.injEq]

theorem grants_iff_map (d : OpenFileId) (m : FlockMode) :
    i.Grants d m ↔ (i.grantOf d).map (·.mode) = some m := by
  unfold Grants
  rw [Option.map_eq_some_iff]

section SetBlockers

variable (i) (threads : List DetTid) (b : Option FlockBlocker)

theorem granted_setBlockers : (i.setBlockers threads b).granted = i.granted := by
  induction threads generalizing i with
  | nil => rfl
  | cons t threads ih => exact ih _

theorem threads_setBlockers :
    (i.setBlockers threads b).waiters.map (·.thread) = i.waiters.map (·.thread) := by
  induction threads generalizing i with
  | nil => rfl
  | cons t threads ih =>
    exact (ih _).trans (map_key_amend (f := FlockWaiter.setBlocker b) (fun _ => rfl) t)

theorem waiter_setBlockers (t : DetTid) : (i.setBlockers threads b).waiter t =
      if t ∈ threads then (i.waiter t).map (.setBlocker b) else i.waiter t := by
  unfold setBlockers
  induction threads generalizing i with
  | nil => rfl
  | cons u threads ih =>
    rw [foldl_cons, ih, waiter_setBlocker]
    by_cases hu : t = u
    · subst hu
      rw [if_pos rfl, if_pos mem_cons_self, Option.map_map]
      split_ifs
      · rfl
      · rfl
    · rw [if_neg hu]
      simp only [mem_cons, hu, false_or]

theorem requests_setBlockers (t : DetTid) (d : OpenFileId) (m : FlockMode)
    (c : Option FlockBlocker) : (i.setBlockers threads b).Requests t d m c ↔
      if t ∈ threads then (∃ c', i.Requests t d m c') ∧ c = b else i.Requests t d m c := by
  unfold Requests
  rw [waiter_setBlockers]
  by_cases ht : t ∈ threads
  · rw [if_pos ht, if_pos ht]
    constructor
    · rintro ⟨w, hw, rfl, rfl, rfl⟩
      obtain ⟨v, hv, rfl⟩ := Option.map_eq_some_iff.mp hw
      exact ⟨⟨v.blocker, v, hv, rfl, rfl, rfl⟩, rfl⟩
    · rintro ⟨⟨c', w, hw, rfl, rfl, -⟩, rfl⟩
      exact ⟨w.setBlocker c, by rw [hw]; rfl, rfl, rfl, rfl⟩
  · rw [if_neg ht, if_neg ht]

theorem grantOf_setBlockers (d : OpenFileId) :
    (i.setBlockers threads b).grantOf d = i.grantOf d := by
  unfold grantOf
  rw [granted_setBlockers]

theorem blockedList_setBlockers (node : FlockBlocker) :
    (i.setBlockers threads b).blockedList node = i.blockedList node := by
  cases node with
  | lock d => rw [blockedList_lock, blockedList_lock, grantOf_setBlockers]
  | request t =>
    rw [blockedList_request, blockedList_request, waiter_setBlockers]
    split_ifs
    · rw [Option.map_map]
      rfl
    · rfl

end SetBlockers

section SetBlockedList

variable (i) (node : FlockBlocker) (list : List DetTid)

theorem holders_setBlockedList :
    (i.setBlockedList node list).granted.map (·.openFile) = i.granted.map (·.openFile) := by
  cases node with
  | lock d => exact map_key_amend (f := FlockGrant.setBlocked list) (fun _ => rfl) d
  | request t => rfl

theorem threads_setBlockedList :
    (i.setBlockedList node list).waiters.map (·.thread) = i.waiters.map (·.thread) := by
  cases node with
  | lock d => rfl
  | request t => exact map_key_amend (f := FlockWaiter.setBlocked list) (fun _ => rfl) t

theorem requests_setBlockedList (t : DetTid) (d : OpenFileId) (m : FlockMode)
    (b : Option FlockBlocker) :
    (i.setBlockedList node list).Requests t d m b ↔ i.Requests t d m b := by
  rw [requests_iff_map, requests_iff_map]
  cases node with
  | lock e => exact Iff.rfl
  | request u =>
    rw [waiter_setBlocked]
    by_cases ht : t = u
    · rw [if_pos ht, Option.map_map, ht]
      exact Iff.rfl
    · rw [if_neg ht]

theorem grants_setBlockedList (d : OpenFileId) (m : FlockMode) :
    (i.setBlockedList node list).Grants d m ↔ i.Grants d m := by
  rw [grants_iff_map, grants_iff_map]
  cases node with
  | lock e =>
    rw [grantOf_setBlocked]
    by_cases hd : d = e
    · rw [if_pos hd, Option.map_map, hd]
      exact Iff.rfl
    · rw [if_neg hd]
  | request u => exact Iff.rfl

theorem blockedList_setBlockedList_ne {node' : FlockBlocker} (h : node' ≠ node) :
    (i.setBlockedList node list).blockedList node' = i.blockedList node' := by
  cases node with
  | lock e =>
    cases node' with
    | lock d =>
      rw [blockedList_lock, grantOf_setBlocked, if_neg fun heq => h (congrArg _ heq)]
      rfl
    | request t => rfl
  | request u =>
    cases node' with
    | lock d => rfl
    | request t =>
      rw [blockedList_request, waiter_setBlocked, if_neg fun heq => h (congrArg _ heq)]
      rfl

def Has (i : FlockInode) : FlockBlocker → Prop
  | .lock d => ∃ g, i.grantOf d = some g
  | .request t => ∃ w, i.waiter t = some w

theorem blockedList_setBlockedList_same (h : i.Has node) :
    (i.setBlockedList node list).blockedList node = list := by
  cases node with
  | lock e =>
    obtain ⟨g, hg⟩ := h
    rw [blockedList_lock, grantOf_setBlocked, if_pos rfl, hg]
    rfl
  | request u =>
    obtain ⟨w, hw⟩ := h
    rw [blockedList_request, waiter_setBlocked, if_pos rfl, hw]
    rfl

theorem blockedList_setBlockedList_nil : (i.setBlockedList node []).blockedList node = [] := by
  cases node with
  | lock e =>
    rw [blockedList_lock, grantOf_setBlocked, if_pos rfl]
    cases i.grantOf e with
    | none => rfl
    | some g => rfl
  | request u =>
    rw [blockedList_request, waiter_setBlocked, if_pos rfl]
    cases i.waiter u with
    | none => rfl
    | some w => rfl

end SetBlockedList

theorem Blocks.has {node : FlockBlocker} (h : i.Blocks node d m) : i.Has node := by
  cases node with
  | lock e =>
    obtain ⟨-, held, ⟨g, hg, -⟩, -⟩ := h
    exact ⟨g, hg⟩
  | request t =>
    obtain ⟨other, asked, b, ⟨w, hw, -⟩, -⟩ := h
    exact ⟨w, hw⟩

/-- The blockers change and the requests stay. -/
theorem exists_requests_relist (i : FlockInode) (node : FlockBlocker) (list threads : List DetTid)
    (b : Option FlockBlocker) (t : DetTid) (d : OpenFileId) (m : FlockMode) :
    (∃ c, ((i.setBlockedList node list).setBlockers threads b).Requests t d m c) ↔
      ∃ c, i.Requests t d m c := by
  simp only [requests_setBlockers, requests_setBlockedList]
  split_ifs
  · simp
  · rfl

/-! ## Waking -/

theorem Consistent.requests_wake (h : i.Consistent) (node : FlockBlocker) (t : DetTid)
    (d : OpenFileId) (m : FlockMode) (b : Option FlockBlocker) :
    (i.wakeBlockedUnder node).Requests t d m b ↔
      ∃ b', i.Requests t d m b' ∧ b = if b' = some node then none else b' := by
  unfold wakeBlockedUnder
  rw [requests_setBlockers]
  by_cases ht : t ∈ i.blockedList node
  · rw [if_pos ht]
    obtain ⟨d', m', hreq⟩ := (h.listed node t).mp ht
    constructor
    · rintro ⟨⟨b', hb'⟩, rfl⟩
      rw [requests_setBlockedList] at hb'
      obtain ⟨-, -, rfl⟩ := hb'.unique hreq
      exact ⟨_, hb', by rw [if_pos rfl]⟩
    · rintro ⟨b', hb', rfl⟩
      obtain ⟨-, -, rfl⟩ := hb'.unique hreq
      exact ⟨⟨_, (requests_setBlockedList i node [] t d m _).mpr hb'⟩, by rw [if_pos rfl]⟩
  · rw [if_neg ht, requests_setBlockedList]
    have hne : ∀ b', i.Requests t d m b' → b' ≠ some node := by
      rintro b' hb' rfl
      exact ht ((h.listed node t).mpr ⟨d, m, hb'⟩)
    constructor
    · intro hb
      exact ⟨b, hb, by rw [if_neg (hne b hb)]⟩
    · rintro ⟨b', hb', rfl⟩
      rw [if_neg (hne b' hb')]
      exact hb'

theorem grants_wake (node : FlockBlocker) (d : OpenFileId) (m : FlockMode) :
    (i.wakeBlockedUnder node).Grants d m ↔ i.Grants d m := by
  unfold wakeBlockedUnder
  rw [← grants_setBlockedList i node []]
  unfold Grants
  rw [grantOf_setBlockers]

theorem blockedList_wake (node node' : FlockBlocker) : (i.wakeBlockedUnder node).blockedList node' =
      if node' = node then [] else i.blockedList node' := by
  unfold wakeBlockedUnder
  rw [blockedList_setBlockers]
  by_cases hn : node' = node
  · rw [if_pos hn, hn]
    exact blockedList_setBlockedList_nil i node
  · rw [if_neg hn]
    exact blockedList_setBlockedList_ne i node [] hn

theorem Consistent.requests_wake_some (h : i.Consistent) (node node' : FlockBlocker) (t : DetTid)
    (d : OpenFileId) (m : FlockMode) : (i.wakeBlockedUnder node).Requests t d m (some node') ↔
      node' ≠ node ∧ i.Requests t d m (some node') := by
  rw [h.requests_wake]
  constructor
  · rintro ⟨b, hb, heq⟩
    split_ifs at heq with hn
    subst heq
    exact ⟨fun heq => hn (congrArg some heq), hb⟩
  · rintro ⟨hne, hb⟩
    exact ⟨_, hb, by rw [if_neg fun heq => hne (Option.some.inj heq)]⟩

theorem Consistent.wake (h : i.Consistent) (node : FlockBlocker) :
    (i.wakeBlockedUnder node).Consistent := by
  refine h.restrict (fun node' _ => decide (node' ≠ node)) ?_ ?_ ?_ ?_
    (fun d m => (grants_wake node d m).mp) ?_
  · unfold wakeBlockedUnder
    rw [granted_setBlockers, holders_setBlockedList]
    exact h.holders
  · unfold wakeBlockedUnder
    rw [threads_setBlockers, threads_setBlockedList]
    exact h.threads
  · intro t d m node'
    rw [h.requests_wake_some, decide_eq_true_eq]
  · intro node'
    rw [blockedList_wake]
    by_cases hn : node' = node <;> simp [hn]
  · intro t d m node' _ hb
    exact hb.mono (fun e n _ => (grants_wake node e n).mpr)
      fun u e n b _ hr => ⟨_, (h.requests_wake node u e n _).mpr ⟨b, hr, rfl⟩⟩

/-! ## Deleting a lock -/

theorem exists_requests_deleteLock (d : OpenFileId) (t : DetTid) (e : OpenFileId) (m : FlockMode) :
    (∃ b, (i.deleteLock d).2.Requests t e m b) ↔ ∃ b, i.Requests t e m b := by
  unfold FlockInode.deleteLock
  split
  · exact Iff.rfl
  · exact exists_requests_relist i (.lock d) [] _ none t e m

section

variable (h : i.Consistent)
include h

theorem Consistent.grantOf_eraseGrant (d e : OpenFileId) :
    (i.eraseGrant d).grantOf e = if e = d then none else i.grantOf e :=
  lookup_eraseP h.holders d e

theorem Consistent.grants_eraseGrant (d e : OpenFileId) (m : FlockMode) :
    (i.eraseGrant d).Grants e m ↔ e ≠ d ∧ i.Grants e m := by
  rw [grants_iff_map, grants_iff_map, h.grantOf_eraseGrant]
  by_cases he : e = d
  · rw [if_pos he]
    simp [he]
  · rw [if_neg he]
    simp [he]

theorem Consistent.blockedList_eraseGrant
    (hfree : i.blockedList (.lock d) = []) (node : FlockBlocker) :
    (i.eraseGrant d).blockedList node = i.blockedList node := by
  cases node with
  | request u => rfl
  | lock e =>
    rw [blockedList_lock, h.grantOf_eraseGrant]
    by_cases he : e = d
    · rw [if_pos he, he, hfree]
      rfl
    · rw [if_neg he]
      rfl

theorem Consistent.eraseGrant
    (hfree : i.blockedList (.lock d) = []) : (i.eraseGrant d).Consistent := by
  refine h.restrict (fun _ _ => true) (nodup_eraseP h.holders _) h.threads ?_ ?_
    (fun e m he => ((h.grants_eraseGrant d e m).mp he).2) ?_
  · exact fun t e m node => (and_iff_right rfl).symm
  · intro node
    rw [h.blockedList_eraseGrant hfree, filter_true]
  · intro t e m node hreq hb
    refine hb.mono (fun c held hn hheld => (h.grants_eraseGrant d c held).mpr ⟨?_, hheld⟩)
      fun _ _ _ b _ hr => ⟨b, hr⟩
    rintro rfl
    have hmem := (h.listed (.lock c) t).mpr ⟨e, m, hn ▸ hreq⟩
    rw [hfree] at hmem
    exact not_mem_nil hmem

theorem Consistent.deleteLock (d : OpenFileId) : (i.deleteLock d).2.Consistent := by
  unfold FlockInode.deleteLock
  split
  · exact h
  · refine (h.wake (.lock d)).eraseGrant ?_
    rw [blockedList_wake, if_pos rfl]

theorem Consistent.grants_deleteLock (d e : OpenFileId) (m : FlockMode) :
    (i.deleteLock d).2.Grants e m ↔ e ≠ d ∧ i.Grants e m := by
  unfold FlockInode.deleteLock
  cases hd : i.grantOf d with
  | none =>
    refine ⟨fun hgr => ⟨?_, hgr⟩, fun hgr => hgr.2⟩
    rintro rfl
    obtain ⟨g, hg, -⟩ := hgr
    rw [hd] at hg
    cases hg
  | some g =>
    show ((i.wakeBlockedUnder (.lock d)).eraseGrant d).Grants e m ↔ _
    rw [(h.wake (.lock d)).grants_eraseGrant, grants_wake]

theorem Consistent.requests_deleteLock_none (d : OpenFileId)
    {e : OpenFileId} (hreq : i.Requests t e m none) : (i.deleteLock d).2.Requests t e m none := by
  unfold FlockInode.deleteLock
  split
  · exact hreq
  · exact (h.requests_wake (.lock d) t e m none).mpr ⟨none, hreq, rfl⟩

end

/-! ## Queueing a request -/

/-- A request with nobody below it, as a call that blocks the first time adds it. -/
theorem requests_pushWaiter {w : FlockWaiter} (hnew : i.waiter w.thread = none) (u : DetTid)
    (e : OpenFileId) (n : FlockMode) (b : Option FlockBlocker) :
    ({ i with waiters := i.waiters ++ [w] } : FlockInode).Requests u e n b ↔
      if u = w.thread then e = w.openFile ∧ n = w.mode ∧ b = w.blocker else i.Requests u e n b := by
  have hwait : ({ i with waiters := i.waiters ++ [w] } : FlockInode).waiter u =
      (i.waiter u).or (if w.thread = u then some w else none) := lookup_concat w u
  unfold Requests
  rw [hwait]
  by_cases hu : u = w.thread
  · subst hu
    rw [hnew, if_pos rfl, if_pos rfl]
    simp [eq_comm]
  · rw [if_neg (Ne.symm hu), if_neg hu, Option.or_none]

/-- A thread that waits nowhere on the inode gets a request, on no list. -/
theorem Consistent.pushWaiter (h : i.Consistent) {w : FlockWaiter} (hnew : i.waiter w.thread = none)
    (hbloc : w.blocker = none) (hblo : w.blocked = []) :
    ({ i with waiters := i.waiters ++ [w] } : FlockInode).Consistent := by
  have hwait : ∀ t, ({ i with waiters := i.waiters ++ [w] } : FlockInode).waiter t =
      (i.waiter t).or (if w.thread = t then some w else none) := fun t => lookup_concat w t
  have hrequ : ∀ t d m node, ({ i with waiters := i.waiters ++ [w] } : FlockInode).Requests t d m
      (some node) ↔ i.Requests t d m (some node) := by
    intro t d m node
    rw [requests_pushWaiter hnew]
    split_ifs with ht
    · subst ht
      refine iff_of_false ?_ ?_
      · rintro ⟨-, -, hb⟩
        rw [hbloc] at hb
        cases hb
      · rintro ⟨v, hv, -⟩
        rw [hnew] at hv
        cases hv
    · rfl
  have hold : ∀ t d m b, i.Requests t d m b →
      ({ i with waiters := i.waiters ++ [w] } : FlockInode).Requests t d m b := by
    rintro t d m b ⟨v, hv, hrest⟩
    exact ⟨v, by rw [hwait, hv]; rfl, hrest⟩
  have hlst : ∀ node, ({ i with waiters := i.waiters ++ [w] } : FlockInode).blockedList node =
      i.blockedList node := by
    intro node
    cases node with
    | lock d => rfl
    | request t =>
      rw [blockedList_request, hwait, blockedList_request]
      by_cases ht : w.thread = t
      · subst ht
        rw [hnew, if_pos rfl]
        exact hblo
      · rw [if_neg ht, Option.or_none]
  refine h.restrict (fun _ _ => true) h.holders ?_ ?_ ?_ (fun _ _ hg => hg) ?_
  · show ((i.waiters ++ [w]).map (·.thread)).Nodup
    rw [map_append, map_singleton, ← concat_eq_append]
    refine h.threads.concat fun hmem => ?_
    obtain ⟨v, hv, heq⟩ := mem_map.mp hmem
    exact lookup_eq_none_iff.mp hnew v hv heq
  · exact fun t d m node => (hrequ t d m node).trans (and_iff_right rfl).symm
  · intro node
    rw [hlst, filter_true]
  · intro t d m node _ hb
    exact hb.mono (fun _ _ _ hg => hg) fun u e n b _ hr => ⟨b, hold u e n b hr⟩

end FlockInode

end Hermit.Flock
