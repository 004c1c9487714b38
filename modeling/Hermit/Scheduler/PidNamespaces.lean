import Hermit.Ids

/-!
# Nested PID namespaces

`detcore/src/scheduler/pid_namespaces.rs` records, for every task below the
container's PID namespace, its pid in each nested namespace it belongs to. A
pid a guest names is translated with `resolve` (pid to task) and a task is
shown to a guest with `localize` (task to pid), through two opposite maps.

A namespace is named by the number of its init. A reaped task keeps its
entries until its own number is taken again. So when another namespace's init
takes the number of an init that is gone while a member is still recorded, the
new namespace inherits it (`reusedInit_keeps_old_members`). `Admits` excludes
this.

Results:
* `History.inverse`: the invariant of the record over every history.
* `resolve_iff_localize`, `resolveFor_iff_localizeFor`
-/

namespace Hermit.Scheduler

open Hermit.Common OrdMap List

/-! ## Model -/

abbrev PidNamespace := Option DetPid

inductive PidNamespaceRecordError
  | wrapped (namesp : DetPid) (pid highest : ℤ)
  | mismatch (task : DetTid) (nspid : List ℤ) (chain : List DetPid)
deriving DecidableEq

structure PidNamespaces where
  /-- A task's pid in each nested namespace, outermost first -/
  levels : OrdMap DetTid (List (DetPid × ℤ)) := ∅
  tasks : OrdMap (DetPid ×ₗ ℤ) DetTid := ∅
  /-- The highest pid each namespace has handed out -/
  highest : OrdMap DetPid ℤ := ∅
  untranslatable : OrdMap DetTid String := ∅

inductive GuestPidAnswer
  | task (task : DetTid) (ownInitCaught : Option ℕ)
  | noSuchPid
  | untranslatable (reason : String)
deriving DecidableEq

namespace PidNamespaces

def namespaceOf (s : PidNamespaces) (task : DetTid) : PidNamespace :=
  (s.levels[task]?.bind getLast?).map (·.1)

def chainOf (s : PidNamespaces) (task : DetTid) : List DetPid :=
  (s.levels[task]?.map fun levels => levels.map (·.1)).getD []

/-- One iteration of the loop of `forget`. -/
def dropTask (task : DetTid) (tasks : OrdMap (DetPid ×ₗ ℤ) DetTid) (level : DetPid × ℤ) :
    OrdMap (DetPid ×ₗ ℤ) DetTid :=
  if tasks[toLex level]? = some task then tasks.erase (toLex level) else tasks

def forget (s : PidNamespaces) (task : DetTid) : PidNamespaces :=
  { s with
    untranslatable := s.untranslatable.erase task
    levels := s.levels.erase task
    tasks := (s.levels[task]?.getD []).foldl (dropTask task) s.tasks }

def wrapAt (s : PidNamespaces) (task : DetTid) (level : DetPid × ℤ) :
    Option PidNamespaceRecordError :=
  match s.highest[level.1]? with
  | none => none
  | some highest =>
    if ¬ (level.1 = task ∧ level.2 = 1) ∧ level.2 ≤ highest then
      some (.wrapped level.1 level.2 highest)
    else none

/-- The entries of a new task. -/
def enter (s : PidNamespaces) (task : DetTid) (levels : List (DetPid × ℤ)) : PidNamespaces :=
  { s with
    highest := levels.foldl (fun m level => m.insert level.1 level.2) s.highest
    tasks := levels.foldl (fun m level => m.insert (toLex level) task) s.tasks
    levels := s.levels.insert task levels }

def record (s : PidNamespaces) (task : DetTid) (chain : List DetPid) (nspid : List ℤ) :
    PidNamespaces × Except PidNamespaceRecordError Unit :=
  if nspid.length ≠ chain.length + 1 ∨ nspid.head? ≠ some task then
    (s, .error (.mismatch task nspid chain))
  else
    let s := s.forget task
    if chain = [] then (s, .ok ())
    else
      let levels := chain.zip nspid.tail
      match levels.findSome? (s.wrapAt task) with
      | some error => (s, .error error)
      | none => (s.enter task levels, .ok ())

def markUntranslatable (s : PidNamespaces) (task : DetTid) (reason : String) : PidNamespaces :=
  { s.forget task with untranslatable := (s.forget task).untranslatable.insert task reason }

def resolve (s : PidNamespaces) (namesp : PidNamespace) (pid : ℤ) : Option DetTid :=
  match namesp with
  | none => some pid
  | some init => s.tasks[toLex (init, pid)]?

def localize (s : PidNamespaces) (namesp : PidNamespace) (task : DetTid) : Option ℤ :=
  match namesp with
  | none => some task
  | some init =>
    (s.levels[task]?.bind fun levels => levels.find? (·.1 = init)).map (·.2)

def resolveFor (s : PidNamespaces) (caller : DetTid) (pid : ℤ) : GuestPidAnswer :=
  match s.untranslatable[caller]? with
  | some reason => .untranslatable reason
  | none =>
    match s.resolve (s.namespaceOf caller) pid with
    | some task => .task task none
    | none => .noSuchPid

def localizeFor (s : PidNamespaces) (caller task : DetTid) : Except String (Option ℤ) :=
  match s.untranslatable[caller]? with
  | some reason => .error reason
  | none =>
    if (s.namespaceOf caller).isSome then
      match s.untranslatable[task]? with
      | some reason => .error reason
      | none => .ok (s.localize (s.namespaceOf caller) task)
    else .ok (s.localize (s.namespaceOf caller) task)

end PidNamespaces

/-! ## Histories -/

/-- The calls that change the record. -/
inductive NamespaceOp
  | record (task : DetTid) (chain : List DetPid) (nspid : List ℤ)
  | forget (task : DetTid)
  | markUntranslatable (task : DetTid) (reason : String)
deriving DecidableEq

namespace NamespaceOp

def Opens (init : DetPid) : NamespaceOp → Prop
  | record task chain _ => task = init ∧ task ∈ chain
  | _ => False

/-- What the kernel gives for a new task: a chain of different namespaces, one
    pid for each level, the container's first, and pid 1 for an init in its own
    namespace. -/
def KernelGives : NamespaceOp → Prop
  | record task chain nspid =>
    chain.Nodup ∧ nspid.length = chain.length + 1 ∧ nspid.head? = some task ∧
      ∀ level ∈ chain.zip nspid.tail, level.1 = task → level.2 = 1
  | _ => True

instance : DecidablePred KernelGives
  | record task chain nspid =>
    inferInstanceAs (Decidable (chain.Nodup ∧ nspid.length = chain.length + 1 ∧
      nspid.head? = some task ∧ ∀ level ∈ chain.zip nspid.tail, level.1 = task → level.2 = 1))
  | forget _ => .isTrue trivial
  | markUntranslatable _ _ => .isTrue trivial

end NamespaceOp

namespace PidNamespaces

/-- Perform one call. -/
def apply (s : PidNamespaces) : NamespaceOp → PidNamespaces
  | .record task chain nspid => (s.record task chain nspid).1
  | .forget task => s.forget task
  | .markUntranslatable task reason => s.markUntranslatable task reason

/-- A new namespace does not take the number of one that still has another
    recorded member. -/
def Admits (s : PidNamespaces) (op : NamespaceOp) : Prop :=
  ∀ init, op.Opens init → ∀ task, task ≠ init → init ∉ s.chainOf task

/-- The states that the kernel's calls lead to, with the calls in order. -/
inductive History : List NamespaceOp → PidNamespaces → Prop
  | nil : History [] {}
  | snoc {ops : List NamespaceOp} {s : PidNamespaces} (op : NamespaceOp) :
      History ops s → op.KernelGives → s.Admits op → History (ops ++ [op]) (s.apply op)

structure Inverse (s : PidNamespaces) : Prop where
  tasks_iff : ∀ (level : DetPid × ℤ) (task : DetTid), s.tasks[toLex level]? = some task ↔
    ∃ levels, s.levels[task]? = some levels ∧ level ∈ levels
  nodup : ∀ (task : DetTid) (levels : List (DetPid × ℤ)), s.levels[task]? = some levels →
    (levels.map Prod.fst).Nodup
  le_highest : ∀ (level : DetPid × ℤ) (task : DetTid), s.tasks[toLex level]? = some task →
    ∃ highest, s.highest[level.1]? = some highest ∧ level.2 ≤ highest
  untranslatable : ∀ (task : DetTid) (reason : String), s.untranslatable[task]? = some reason →
    s.levels[task]? = none

variable {s : PidNamespaces} {task t : DetTid} {level : DetPid × ℤ} {op : NamespaceOp}

theorem admits_record {chain : List DetPid} {nspid : List ℤ}
    (h : ∀ e ∈ s.levels.toList, e.1 ≠ task → task ∉ e.2.map Prod.fst) :
    s.Admits (.record task chain nspid) := by
  rintro init ⟨rfl, -⟩ t ht hmem
  rw [chainOf] at hmem
  cases hlvls : s.levels[t]? with
  | none => simp [hlvls] at hmem
  | some levels =>
    rw [hlvls] at hmem
    exact h (t, levels) ((mem_toList _ _ _).mpr hlvls) ht hmem

/-! ## Forgetting a task -/

theorem getElem?_foldl_dropTask (task : DetTid) (level : DetPid × ℤ) :
    ∀ (levels : List (DetPid × ℤ)) (tasks : OrdMap (DetPid ×ₗ ℤ) DetTid),
      (levels.foldl (dropTask task) tasks)[toLex level]? =
        if level ∈ levels ∧ tasks[toLex level]? = some task then none
        else tasks[toLex level]? := by
  intro levels
  induction levels with
  | nil => simp
  | cons l levels ih =>
    intro tasks
    rw [foldl_cons, ih, dropTask]
    by_cases hl : l = level
    · subst hl
      by_cases htask : tasks[toLex l]? = some task
      · simp [htask]
      · simp [htask]
    · have hne : toLex l ≠ toLex level := fun h => hl (toLex.injective h)
      have hkeep : (if tasks[toLex l]? = some task then tasks.erase (toLex l) else tasks)[toLex
          level]? = tasks[toLex level]? := by
        split
        · exact getElem?_erase_ne _ hne
        · rfl
      rw [hkeep]
      simp [Ne.symm hl]

theorem forget_levels (s : PidNamespaces) (task : DetTid) :
    (s.forget task).levels = s.levels.erase task := rfl

theorem Inverse.forget_tasks (hs : s.Inverse) (task t : DetTid) (level : DetPid × ℤ) :
    (s.forget task).tasks[toLex level]? = some t ↔ s.tasks[toLex level]? = some t ∧ t ≠ task := by
  rw [forget, getElem?_foldl_dropTask]
  by_cases htask : s.tasks[toLex level]? = some task
  · obtain ⟨levels, hlvls, hmem⟩ := (hs.tasks_iff level task).mp htask
    rw [if_pos ⟨by rwa [hlvls], htask⟩, htask]
    simp only [Option.some.injEq, reduceCtorEq, false_iff, not_and, not_not]
    exact Eq.symm
  · rw [if_neg fun h => htask h.2]
    refine ⟨fun h => ⟨h, ?_⟩, And.left⟩
    rintro rfl
    exact htask h

theorem Inverse.forget (hs : s.Inverse) (task : DetTid) : (s.forget task).Inverse where
  tasks_iff level t := by
    rw [hs.forget_tasks, hs.tasks_iff, forget_levels, getElem?_erase_ite]
    by_cases ht : task = t
    · simp [ht]
    · simp [ht, Ne.symm ht]
  nodup t levels h := by
    rw [forget_levels, getElem?_erase_ite] at h
    split at h
    · cases h
    · exact hs.nodup t levels h
  le_highest level t h := hs.le_highest level t ((hs.forget_tasks task t level).mp h).1
  untranslatable t reason h := by
    have h : (s.untranslatable.erase task)[t]? = some reason := h
    rw [getElem?_erase_ite] at h
    rw [forget_levels, getElem?_erase_ite]
    split at h
    · cases h
    · rw [hs.untranslatable t reason h]
      exact ite_self _

/-! ## Entering a task -/

/-- A new task's pids are free: no namespace with an entry there has handed out
    that pid or a later one, and a new init's namespace has no entries. -/
theorem enter_inverse {levels : List (DetPid × ℤ)}
    (hs : s.Inverse) (hnew : s.levels[task]? = none) (hun : s.untranslatable[task]? = none)
    (hnodup : (levels.map Prod.fst).Nodup) (hfree : ∀ level ∈ levels, ∀ (pid : ℤ) (t : DetTid),
      s.tasks[toLex (level.1, pid)]? = some t → pid < level.2) : (s.enter task levels).Inverse where
  tasks_iff level t := by
    have htasks := getElem?_foldl_insert_const (fun l : DetPid × ℤ => toLex l) task
      (toLex level) levels s.tasks
    rw [enter, htasks, getElem?_insert_ite]
    have hmap : toLex level ∈ levels.map (fun l => toLex l) ↔ level ∈ levels := by simp
    by_cases hlvl : level ∈ levels
    · rw [if_pos (hmap.mpr hlvl)]
      by_cases ht : task = t
      · simp [ht, hlvl]
      · rw [if_neg ht]
        constructor
        · rintro ⟨⟩
          exact absurd rfl ht
        · rintro ⟨old, hold, hmem⟩
          have := hfree level hlvl level.2 t ((hs.tasks_iff level t).mpr ⟨old, hold, hmem⟩)
          omega
    · rw [if_neg fun h => hlvl (hmap.mp h), hs.tasks_iff]
      by_cases ht : task = t
      · subst ht
        rw [hnew]
        simp [hlvl]
      · rw [if_neg ht]
  nodup t levels' h := by
    rw [enter, getElem?_insert_ite] at h
    split at h
    · cases h
      exact hnodup
    · exact hs.nodup t levels' h
  le_highest level t h := by
    have htasks := getElem?_foldl_insert_const (fun l : DetPid × ℤ => toLex l) task
      (toLex level) levels s.tasks
    rw [enter, htasks] at h
    rw [enter]
    by_cases hlvl : level.1 ∈ levels.map Prod.fst
    · obtain ⟨l, hl, heq⟩ := mem_map.mp hlvl
      refine ⟨l.2, ?_, ?_⟩
      · exact getElem?_foldl_insert_of_mem levels s.highest hnodup (by rwa [← heq])
      · split at h
        · rename_i hmem
          have hmem : level ∈ levels := by simpa using hmem
          have := inj_on_of_nodup_map hnodup hl hmem heq
          rw [this]
        · have := hfree l hl level.2 t (by rwa [heq])
          omega
    · rw [if_neg (by
        intro hmem
        exact hlvl (mem_map.mpr ⟨level, by simpa using hmem, rfl⟩))] at h
      rw [getElem?_foldl_insert_of_notMem _ _ _ hlvl]
      exact hs.le_highest level t h
  untranslatable t reason h := by
    have h : s.untranslatable[t]? = some reason := h
    rw [enter, getElem?_insert_ite]
    split
    · rename_i ht
      rw [← ht, hun] at h
      cases h
    · exact hs.untranslatable t reason h

/-! ## One call -/

theorem mem_chainOf
    {levels : List (DetPid × ℤ)} (h : s.levels[task]? = some levels) (hmem : level ∈ levels) :
    level.1 ∈ s.chainOf task := by
  rw [chainOf, h]
  exact mem_map.mpr ⟨level, hmem, rfl⟩

/-- An entry of another task shows that a new namespace does not have its
    init's number. -/
theorem Inverse.not_opens (hs : s.Inverse) (hadmi : s.Admits op)
    (h : s.tasks[toLex level]? = some t) (hne : t ≠ level.1) : ¬ op.Opens level.1 := by
  intro hopens
  obtain ⟨levels, hlvls, hmem⟩ := (hs.tasks_iff level t).mp h
  exact hadmi level.1 hopens t hne (mem_chainOf hlvls hmem)

theorem lt_of_wrapAt_eq_none {highest : ℤ}
    (h : s.wrapAt task level = none) (hhigh : s.highest[level.1]? = some highest) :
    (level.1 = task ∧ level.2 = 1) ∨ highest < level.2 := by
  rw [wrapAt, hhigh] at h
  dsimp only at h
  split at h
  · cases h
  · rename_i hcond
    rw [not_and_or, not_not, not_le] at hcond
    exact hcond

theorem record_cases (s : PidNamespaces) {chain : List DetPid} {nspid : List ℤ}
    (hker : (NamespaceOp.record task chain nspid).KernelGives) :
    (s.record task chain nspid).1 = s.forget task ∨
      (s.record task chain nspid).1 = (s.forget task).enter task (chain.zip nspid.tail) ∧
        ∀ level ∈ chain.zip nspid.tail, (s.forget task).wrapAt task level = none := by
  obtain ⟨-, hleng, hhead, -⟩ := hker
  rw [record, if_neg (by simp [hleng, hhead])]
  dsimp only
  split
  · exact .inl rfl
  · split
    · exact .inl rfl
    · rename_i hnone
      exact .inr ⟨rfl, findSome?_eq_none_iff.mp hnone⟩

theorem Inverse.apply (hs : s.Inverse)
    (hker : op.KernelGives) (hadmi : s.Admits op) : (s.apply op).Inverse := by
  cases op with
  | forget task => exact hs.forget task
  | markUntranslatable task reason =>
    have hf := hs.forget task
    refine ⟨hf.tasks_iff, hf.nodup, hf.le_highest, fun t reason' h => ?_⟩
    have h : ((s.forget task).untranslatable.insert task reason)[t]? = some reason' := h
    rw [getElem?_insert_ite] at h
    split at h
    · rename_i ht
      subst ht
      exact getElem?_erase_same _ _
    · exact hf.untranslatable t reason' h
  | record task chain nspid =>
    have hf := hs.forget task
    rcases s.record_cases hker with h | ⟨h, hwrap⟩
    · show (s.record task chain nspid).1.Inverse
      rwa [h]
    · obtain ⟨hchain, hleng, -, -⟩ := hker
      have hlvls : (chain.zip nspid.tail).map Prod.fst = chain :=
        map_fst_zip (by rw [length_tail]; omega)
      show (s.record task chain nspid).1.Inverse
      rw [h]
      refine enter_inverse hf (getElem?_erase_same _ _) (getElem?_erase_same _ _)
        (by rwa [hlvls]) fun level hlvl pid t ht => ?_
      obtain ⟨highest, hhigh, hle⟩ := hf.le_highest (level.1, pid) t ht
      rcases lt_of_wrapAt_eq_none (hwrap level hlvl) hhigh with ⟨hinit, -⟩ | hlt
      · -- A new init's namespace: its number has no other member.
        obtain ⟨hold, hne⟩ := (hs.forget_tasks task t _).mp ht
        refine absurd ⟨hinit.symm, ?_⟩ (hs.not_opens hadmi hold (by rwa [hinit]))
        rw [← hinit, ← hlvls]
        exact mem_map.mpr ⟨level, hlvl, rfl⟩
      · exact hle.trans_lt hlt

/-- An entry comes from the record of its task, and outlives no opening of a
    namespace with its init's number. -/
theorem Inverse.tasks_apply (hs : s.Inverse) (hker : op.KernelGives) (hadmi : s.Admits op)
    (h : (s.apply op).tasks[toLex level]? = some t) :
    (∃ chain nspid, op = .record t chain nspid ∧ level ∈ chain.zip nspid.tail) ∨
      s.tasks[toLex level]? = some t ∧ ¬ op.Opens level.1 := by
  cases op with
  | forget task | markUntranslatable task reason =>
    exact .inr ⟨((hs.forget_tasks task t level).mp h).1, id⟩
  | record task chain nspid =>
    have hold : (s.forget task).tasks[toLex level]? = some t →
        s.tasks[toLex level]? = some t ∧ ¬ (NamespaceOp.record task chain nspid).Opens level.1 := by
      intro hf
      obtain ⟨hold, hne⟩ := (hs.forget_tasks task t level).mp hf
      refine ⟨hold, fun hopens => ?_⟩
      exact hs.not_opens hadmi hold (by rwa [← hopens.1]) hopens
    have h : (s.record task chain nspid).1.tasks[toLex level]? = some t := h
    rcases s.record_cases hker with heq | ⟨heq, -⟩
    · rw [heq] at h
      exact .inr (hold h)
    · have htasks := getElem?_foldl_insert_const (fun l : DetPid × ℤ => toLex l) task
        (toLex level) (chain.zip nspid.tail) (s.forget task).tasks
      rw [heq, enter, htasks] at h
      split at h
      · rename_i hmem
        cases h
        exact .inl ⟨chain, nspid, rfl, by simpa using hmem⟩
      · exact .inr (hold h)

/-! ## Whole histories -/

theorem inverse_empty : ({} : PidNamespaces).Inverse :=
  ⟨by simp, by simp, by simp, by simp⟩

theorem History.inverse {ops : List NamespaceOp} (h : History ops s) : s.Inverse := by
  induction h with
  | nil => exact inverse_empty
  | snoc _ _ hker hadmi ih => exact ih.apply hker hadmi

theorem History.origin {ops : List NamespaceOp} (h : History ops s)
    (htask : s.tasks[toLex level]? = some t) :
    ∃ before chain nspid after, ops = before ++ .record t chain nspid :: after ∧
      level ∈ chain.zip nspid.tail ∧ ∀ op ∈ after, ¬ op.Opens level.1 := by
  induction h with
  | nil => simp at htask
  | @snoc ops s op hs hker hadmi ih =>
    rcases hs.inverse.tasks_apply hker hadmi htask with
      ⟨chain, nspid, rfl, hmem⟩ | ⟨hold, hopens⟩
    · exact ⟨ops, chain, nspid, [], rfl, hmem, by simp⟩
    · obtain ⟨before, chain, nspid, after, rfl, hmem, haft⟩ := ih hold
      refine ⟨before, chain, nspid, after ++ [op], by simp, hmem, ?_⟩
      intro op' hop'
      rcases mem_append.mp hop' with hop' | hop'
      · exact haft op' hop'
      · rw [mem_singleton.mp hop']
        exact hopens

theorem Inverse.localize_iff (hs : s.Inverse) (init : DetPid) (pid : ℤ)
    (t : DetTid) : s.localize (some init) t = some pid ↔
      ∃ levels, s.levels[t]? = some levels ∧ (init, pid) ∈ levels := by
  rw [localize, Option.map_eq_some_iff]
  constructor
  · rintro ⟨level, hfind, rfl⟩
    obtain ⟨levels, hlvls, hfind⟩ := Option.bind_eq_some_iff.mp hfind
    have hinit : level.1 = init := by simpa using find?_some hfind
    exact ⟨levels, hlvls, hinit ▸ mem_of_find?_eq_some hfind⟩
  · rintro ⟨levels, hlvls, hmem⟩
    have hsome : (levels.find? (·.1 = init)).isSome := by
      rw [find?_isSome]
      exact ⟨(init, pid), hmem, by simp⟩
    obtain ⟨level, hfind⟩ := Option.isSome_iff_exists.mp hsome
    have hinit : level.1 = init := by simpa using find?_some hfind
    -- The levels name different namespaces, so the first match is the only one.
    have heq : level = (init, pid) :=
      inj_on_of_nodup_map (hs.nodup t levels hlvls) (mem_of_find?_eq_some hfind) hmem hinit
    exact ⟨level, by rw [hlvls]; exact hfind, by rw [heq]⟩

theorem Inverse.resolve_iff (hs : s.Inverse) (init : DetPid) (pid : ℤ) (t : DetTid) :
    s.resolve (some init) pid = some t ↔ s.localize (some init) t = some pid :=
  (hs.tasks_iff (init, pid) t).trans (hs.localize_iff init pid t).symm

/-- In every nested namespace a pid resolves to a task exactly if the task is
    shown with that pid there, and the task was recorded after the last
    namespace with that init number was opened. -/
theorem resolve_iff_localize {ops : List NamespaceOp} {s : PidNamespaces} (h : History ops s)
    (init : DetPid) (pid : ℤ) (t : DetTid) :
    (s.resolve (some init) pid = some t ↔ s.localize (some init) t = some pid) ∧
      (s.resolve (some init) pid = some t →
        ∃ before chain nspid after, ops = before ++ .record t chain nspid :: after ∧
          (init, pid) ∈ chain.zip nspid.tail ∧ ∀ op ∈ after, ¬ op.Opens init) :=
  ⟨h.inverse.resolve_iff init pid t, fun hr =>
    h.origin (show s.tasks[toLex (init, pid)]? = some t from hr)⟩

/-- An init 4 with a child 5 (pid 2 there) that is gone, and the init 6 of a
    namespace below. -/
theorem resolve_iff_localize_family : ∃ s, History [.record 4 [4] [4, 1], .record 5 [4] [5, 2],
      .forget 5, .record 6 [4, 6] [6, 3, 1]] s ∧
    s.resolve (some 4) 3 = some 6 ∧ s.localize (some 4) 6 = some 3 ∧
      s.resolve (some 6) 1 = some 6 ∧ s.resolve (some 4) 2 = none := by
  have h1 : History [.record 4 [4] [4, 1]] _ :=
    History.nil.snoc _ (by decide) (admits_record (by decide))
  have h2 := h1.snoc (.record 5 [4] [5, 2]) (by decide) (admits_record (by decide +kernel))
  have h3 := h2.snoc (.forget 5) (by decide) fun _ h => h.elim
  have h4 := h3.snoc (.record 6 [4, 6] [6, 3, 1]) (by decide) (admits_record (by decide +kernel))
  refine ⟨_, h4, by decide +kernel, ?_, by decide +kernel, by decide +kernel⟩
  exact (resolve_iff_localize h4 4 3 6).1.mp (by decide +kernel)

def reusedInit : List NamespaceOp :=
  [.record 4 [4] [4, 1], .record 5 [4] [5, 2], .record 4 [4] [4, 1], .record 10 [4] [10, 2]]

/-- The new namespace 4 first resolves pid 2 to task 5 of the old one, and once
    its own task 10 has that pid, task 5 is still shown with it. -/
theorem reusedInit_keeps_old_members : (∀ op ∈ reusedInit, op.KernelGives) ∧
      ((reusedInit.take 3).foldl apply {}).resolve (some 4) 2 = some 5 ∧
      (reusedInit.foldl apply {}).resolve (some 4) 2 = some 10 ∧
      (reusedInit.foldl apply {}).localize (some 4) 5 = some 2 := by
  decide +kernel

theorem Inverse.resolveFor_iff (hs : s.Inverse) (caller : DetTid) (pid : ℤ) (t : DetTid) :
    s.resolveFor caller pid = .task t none ↔ s.localizeFor caller t = .ok (some pid) := by
  unfold resolveFor localizeFor
  cases s.untranslatable[caller]? with
  | some reason => simp
  | none =>
    cases s.namespaceOf caller with
    | none => simp [resolve, localize, eq_comm]
    | some init =>
      have hiff := hs.resolve_iff init pid t
      cases hun : s.untranslatable[t]? with
      | none => cases hres : s.resolve (some init) pid <;> simp_all
      | some reason =>
        -- a task that is marked has no level to be found at
        have hnone : s.localize (some init) t = none := by
          rw [localize, hs.untranslatable t reason hun]
          rfl
        cases hres : s.resolve (some init) pid <;> simp_all

/-- What a guest is told is consistent: a task resolves from exactly the pid that the same
    caller is shown for it, and a caller that is not marked resolves from its own. -/
theorem resolveFor_iff_localizeFor {ops : List NamespaceOp} (h : History ops s) (caller : DetTid) :
    (∀ pid t, s.resolveFor caller pid = .task t none ↔ s.localizeFor caller t = .ok (some pid)) ∧
      (s.untranslatable[caller]? = none → ∃ pid, s.resolveFor caller pid = .task caller none) := by
  have hs := h.inverse
  refine ⟨hs.resolveFor_iff caller, fun hun => ?_⟩
  simp only [hs.resolveFor_iff, localizeFor, hun]
  cases hnamesp : s.namespaceOf caller with
  | none => exact ⟨caller, rfl⟩
  | some init =>
    obtain ⟨level, hlast, rfl⟩ := Option.map_eq_some_iff.mp hnamesp
    obtain ⟨levels, hlvls, hlast⟩ := Option.bind_eq_some_iff.mp hlast
    have hloc := hs.localize_iff level.1 level.2 caller
    exact ⟨level.2, congrArg Except.ok (hloc.mpr ⟨levels, hlvls, mem_of_getLast? hlast⟩)⟩

theorem resolveFor_iff_localizeFor_marked : ∃ s, History [.record 4 [4] [4, 1],
      .markUntranslatable 5 "gone"] s ∧ s.localizeFor 4 5 = .error "gone" ∧
      s.localizeFor 4 4 = .ok (some 1) := by
  have h1 : History [.record 4 [4] [4, 1]] _ :=
    History.nil.snoc _ (by decide) (admits_record (by decide))
  have h2 := h1.snoc (.markUntranslatable 5 "gone") (by decide) fun _ h => h.elim
  refine ⟨_, h2, by decide +kernel, ?_⟩
  exact ((resolveFor_iff_localizeFor h2 4).1 1 4).mp (by decide +kernel)

end PidNamespaces

end Hermit.Scheduler
