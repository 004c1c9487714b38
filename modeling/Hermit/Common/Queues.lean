import Hermit.Common.OrdMap

/-!
# Keyed queues

A map from keys to lists in which a key with an empty list is left out. `queue` reads a
key's list and `setQueue` replaces it; `retain` keeps the elements a test accepts in every
list; `amend` changes the first element of a list that a test accepts.

* `InJoinOrder.advance`
-/

namespace Hermit.Common

open List

namespace OrdMap

variable {κ α : Type*} [LinearOrder κ]

def queue (m : OrdMap κ (List α)) (k : κ) : List α := m[k]?.getD []

/-- Replace the list at a key, leaving out an empty one. -/
def setQueue (m : OrdMap κ (List α)) (k : κ) (xs : List α) : OrdMap κ (List α) :=
  if xs.isEmpty then m.erase k else m.insert k xs

/-- Keep the elements that pass the test, and the keys with an element left. -/
def retain (m : OrdMap κ (List α)) (p : α → Bool) : OrdMap κ (List α) :=
  m.filterMap fun _ xs => if (xs.filter p).isEmpty then none else some (xs.filter p)

theorem queue_setQueue (m : OrdMap κ (List α)) (k k' : κ) (xs : List α) :
    queue (setQueue m k xs) k' = if k' = k then xs else queue m k' := by
  unfold queue setQueue
  by_cases hk : k' = k
  · subst hk
    rw [if_pos rfl]
    cases xs with
    | nil => simp
    | cons => simp
  · rw [if_neg hk]
    cases xs with
    | nil => rw [if_pos (by rfl), getElem?_erase_ne m (Ne.symm hk)]
    | cons => rw [if_neg (by simp), getElem?_insert_ne m (Ne.symm hk)]

@[simp] theorem queue_setQueue_same (m : OrdMap κ (List α)) (k : κ) (xs : List α) :
    queue (setQueue m k xs) k = xs := by
  rw [queue_setQueue, if_pos rfl]

theorem queue_setQueue_ne (m : OrdMap κ (List α)) {k k' : κ} (h : k' ≠ k) (xs : List α) :
    queue (setQueue m k xs) k' = queue m k' := by
  rw [queue_setQueue, if_neg h]

@[simp] theorem queue_retain (m : OrdMap κ (List α)) (p : α → Bool) (k : κ) :
    queue (retain m p) k = (queue m k).filter p := by
  unfold queue retain
  rw [Std.ExtTreeMap.getElem?_filterMap']
  cases hk : m[k]? with
  | none => rfl
  | some xs =>
    show (if (xs.filter p).isEmpty then none else some (xs.filter p)).getD [] = xs.filter p
    cases hxs : xs.filter p with
    | nil => rfl
    | cons => rfl

theorem mem_queue_iff (m : OrdMap κ (List α)) (k : κ) (x : α) :
    x ∈ queue m k ↔ ∃ xs, m[k]? = some xs ∧ x ∈ xs := by
  unfold queue
  cases m[k]? with
  | none => simp
  | some xs => simp

end OrdMap

/-! ## Changing one element -/

section Amend

variable {α β : Type*} {p : α → Bool} {f : α → α}

/-- Apply `f` to the first element that passes the test. -/
def amend (p : α → Bool) (f : α → α) : List α → List α
  | [] => []
  | x :: xs => if p x then f x :: xs else x :: amend p f xs

theorem mem_amend {xs : List α} {y : α} (hy : y ∈ amend p f xs) :
    y ∈ xs ∨ ∃ x ∈ xs, p x ∧ y = f x := by
  induction xs with
  | nil => exact absurd hy not_mem_nil
  | cons x xs ih =>
    unfold amend at hy
    by_cases hx : p x
    · rw [if_pos hx] at hy
      rcases mem_cons.mp hy with rfl | hy
      · exact .inr ⟨x, mem_cons_self, hx, rfl⟩
      · exact .inl (mem_cons_of_mem _ hy)
    · rw [if_neg hx] at hy
      rcases mem_cons.mp hy with rfl | hy
      · exact .inl mem_cons_self
      · rcases ih hy with hy | ⟨z, hz, hpz, rfl⟩
        · exact .inl (mem_cons_of_mem _ hy)
        · exact .inr ⟨z, mem_cons_of_mem _ hz, hpz, rfl⟩

theorem exists_mem_amend {xs : List α} (h : xs.any p) : ∃ x ∈ xs, p x ∧ f x ∈ amend p f xs := by
  induction xs with
  | nil => simp at h
  | cons x xs ih =>
    unfold amend
    by_cases hx : p x
    · rw [if_pos hx]
      exact ⟨x, mem_cons_self, hx, mem_cons_self⟩
    · rw [if_neg hx]
      rw [any_cons, Bool.or_eq_true] at h
      obtain ⟨z, hz, hpz, hmem⟩ := ih (h.resolve_left hx)
      exact ⟨z, mem_cons_of_mem _ hz, hpz, mem_cons_of_mem _ hmem⟩

/-- What `f` keeps of an element is kept of the list. -/
theorem filterMap_amend {g : α → Option β} {xs : List α} (hg : ∀ x ∈ xs, p x → g (f x) = g x) :
    (amend p f xs).filterMap g = xs.filterMap g := by
  induction xs with
  | nil => rfl
  | cons x xs ih =>
    unfold amend
    by_cases hx : p x
    · rw [if_pos hx, filterMap_cons, filterMap_cons, hg x mem_cons_self hx]
    · rw [if_neg hx, filterMap_cons, filterMap_cons, ih fun y hy => hg y (mem_cons_of_mem _ hy)]

theorem map_amend {g : α → β} {xs : List α} (hg : ∀ x ∈ xs, p x → g (f x) = g x) :
    (amend p f xs).map g = xs.map g := by
  rw [← filterMap_eq_map, filterMap_amend (by simpa using hg)]

end Amend

/-! ## The order of joining -/

section JoinOrder

variable {α : Type*}

def JoinedBefore (history : List α) (a b : α) : Prop :=
  ∃ earlier later, history = earlier ++ a :: later ∧ a ∉ later ∧ b ∈ later

structure InJoinOrder (queue history : List α) : Prop where
  joined : ∀ a ∈ queue, ∃ earlier later, history = earlier ++ a :: later ∧ a ∉ later
  order : queue.Pairwise (JoinedBefore history)

theorem inJoinOrder_nil (history : List α) : InJoinOrder [] history :=
  ⟨fun _ h => absurd h not_mem_nil, .nil⟩

/-- New elements at the end stand in the order in which they are listed. -/
theorem inJoinOrder_of_nodup {joined : List α} (hnodup : joined.Nodup) (history : List α) :
    InJoinOrder joined (history ++ joined) := by
  induction joined generalizing history with
  | nil => exact inJoinOrder_nil _
  | cons a joined ih =>
    obtain ⟨ha, hrest⟩ := nodup_cons.mp hnodup
    have hih := ih hrest (history ++ [a])
    rw [append_assoc, singleton_append] at hih
    refine ⟨fun b hb => ?_, pairwise_cons.mpr ⟨fun b hb => ?_, hih.order⟩⟩
    · rcases mem_cons.mp hb with rfl | hb
      · exact ⟨history, joined, rfl, ha⟩
      · exact hih.joined b hb
    · exact ⟨history, joined, rfl, ha, hb⟩

/-- Some elements stay, and others that were not queued join the tail. -/
theorem InJoinOrder.advance {queue history kept joined : List α} (h : InJoinOrder queue history)
    (hkept : kept.Sublist queue) (hnew : ∀ a ∈ joined, a ∉ queue) (hnodup : joined.Nodup) :
    InJoinOrder (kept ++ joined) (history ++ joined) := by
  have hfrsh : ∀ a ∈ queue, a ∉ joined := fun a ha hmem => hnew a hmem ha
  have hnext := inJoinOrder_of_nodup hnodup history
  refine ⟨fun a ha => ?_, pairwise_append.mpr ⟨?_, hnext.order, ?_⟩⟩
  · rcases mem_append.mp ha with ha | ha
    · obtain ⟨earlier, later, rfl, hlast⟩ := h.joined a (hkept.subset ha)
      refine ⟨earlier, later ++ joined, by simp, fun hmem => ?_⟩
      exact (mem_append.mp hmem).elim hlast (hfrsh a (hkept.subset ha))
    · exact hnext.joined a ha
  · refine (h.order.sublist hkept).imp_of_mem fun {a b} ha _ hab => ?_
    obtain ⟨earlier, later, rfl, hlast, hb⟩ := hab
    refine ⟨earlier, later ++ joined, by simp, fun hmem => ?_, mem_append_left _ hb⟩
    exact (mem_append.mp hmem).elim hlast (hfrsh a (hkept.subset ha))
  · intro a ha b hb
    obtain ⟨earlier, later, rfl, hlast⟩ := h.joined a (hkept.subset ha)
    refine ⟨earlier, later ++ joined, by simp, fun hmem => ?_, mem_append_right _ hb⟩
    exact (mem_append.mp hmem).elim hlast (hfrsh a (hkept.subset ha))

end JoinOrder

end Hermit.Common
