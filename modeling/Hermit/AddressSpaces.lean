import Hermit.Ids

/-!
# Identities of address spaces

`MmId` (`detcore-model/src/futex.rs`) names an address space by a task ID and a number of execs,
with no counter of its own. A task starts with the one `for_clone` gives it (`detcore/src/lib.rs`),
and an exec replaces it by `for_exec` with the process ID (`handle_execveat`).

Beside it stands the address space Linux gives the task: a clone with `CLONE_VM` shares its
creator's, other clones and execs make a new one.

* `Sound`, `mmId_eq_iff`
-/

namespace Hermit.AddressSpaces

/-- `MmId`. The exec counts stay below `2 ^ 64`. -/
structure MmId where
  creator : DetTid
  generation : ℕ
deriving DecidableEq

namespace MmId

def initial (creator : DetTid) : MmId := ⟨creator, 0⟩

def forClone (parent : MmId) (child : DetTid) (sharesVm : Bool) : MmId :=
  if sharesVm then parent else initial child

def forExec (mm : MmId) (creator : DetTid) : MmId := ⟨creator, mm.generation + 1⟩

end MmId

structure Task where
  tid : DetTid
  pid : DetPid
  mmId : MmId
  space : ℕ

/-- The live tasks, the thread IDs given out and the number of address spaces made so far. -/
structure State where
  tasks : List Task
  given : List DetTid
  made : ℕ

inductive Event where
  | clone (parent child : DetTid) (sharesVm newThread : Bool)
  | exec (caller : DetTid)
  | exit (tid : DetTid)

/-- The initial process. Its identity is `initial`, or that of a first exec where the backend
    starts it on its image. -/
def start (mmId : MmId) : State := ⟨[⟨mmId.creator, mmId.creator, mmId, 0⟩], [mmId.creator], 1⟩

def step (s : State) : Event → State
  | .clone parent child sharesVm newThread =>
    match s.tasks.find? (·.tid = parent) with
    | none => s
    | some creator =>
      if child ∈ s.given ∨ newThread ∧ !sharesVm then s
      else
        let task : Task :=
          { tid := child, pid := if newThread then creator.pid else child,
            mmId := creator.mmId.forClone child sharesVm,
            space := if sharesVm then creator.space else s.made }
        ⟨s.tasks ++ [task], child :: s.given, if sharesVm then s.made else s.made + 1⟩
  | .exec caller =>
    match s.tasks.find? (·.tid = caller) with
    | none => s
    | some task =>
      -- The other threads of the process end, and the caller takes its leader's ID.
      let image : Task := ⟨task.pid, task.pid, task.mmId.forExec task.pid, s.made⟩
      { s with tasks := s.tasks.filter (·.pid ≠ task.pid) ++ [image], made := s.made + 1 }
  | .exit tid => { s with tasks := s.tasks.filter (·.tid ≠ tid) }

/-- What keeps the identities apart. -/
structure Sound (s : State) : Prop where
  creator : ∀ a ∈ s.tasks, a.mmId.creator ∈ s.given
  pid : ∀ a ∈ s.tasks, a.pid ∈ s.given
  space : ∀ a ∈ s.tasks, a.space < s.made
  generation : ∀ a ∈ s.tasks, ∀ b ∈ s.tasks, b.mmId.creator = a.pid →
    b.mmId.generation ≤ a.mmId.generation
  agree : ∀ a ∈ s.tasks, ∀ b ∈ s.tasks, a.mmId = b.mmId ↔ a.space = b.space

theorem start_sound (mmId : MmId) : Sound (start mmId) := by
  constructor <;> simp [start]

variable {s : State}

theorem Sound.subset (h : Sound s) {tasks : List Task} (hsub : tasks ⊆ s.tasks) :
    Sound { s with tasks } where
  creator a ha := h.creator a (hsub ha)
  pid a ha := h.pid a (hsub ha)
  space a ha := h.space a (hsub ha)
  generation a ha b hb := h.generation a (hsub ha) b (hsub hb)
  agree a ha b hb := h.agree a (hsub ha) b (hsub hb)

theorem Sound.share (h : Sound s) {creator task : Task} (hmem : creator ∈ s.tasks)
    (hfree : task.tid ∉ s.given) (hpid : task.pid = creator.pid ∨ task.pid = task.tid)
    (hmm : task.mmId = creator.mmId) (hspace : task.space = creator.space) :
    Sound ⟨s.tasks ++ [task], task.tid :: s.given, s.made⟩ := by
  obtain ⟨hcrea, hpids, hspac, hgen, hagree⟩ := h
  constructor <;> simp only [List.mem_append, List.mem_singleton] <;> grind

/-- A task with a new address space joins, named after its process. -/
theorem Sound.fresh (h : Sound s) {task : Task} {given : List DetTid}
    (hsub : s.given ⊆ given) (hpid : task.pid ∈ given) (hcrea : task.mmId.creator = task.pid)
    (hspace : task.space = s.made) (hapart : ∀ a ∈ s.tasks, a.pid ≠ task.pid)
    (hlat : ∀ a ∈ s.tasks, a.mmId.creator = task.pid → a.mmId.generation < task.mmId.generation) :
    Sound ⟨s.tasks ++ [task], given, s.made + 1⟩ := by
  obtain ⟨hcre, hpids, hspac, hgen, hagree⟩ := h
  constructor <;> simp only [List.mem_append, List.mem_singleton] <;> grind

theorem step_sound (h : Sound s) (event : Event) : Sound (step s event) := by
  cases event with
  | clone parent child sharesVm newThread =>
    simp only [step]
    cases hfind : s.tasks.find? (·.tid = parent) with
    | none => exact h
    | some creator =>
      dsimp only
      by_cases href : child ∈ s.given ∨ newThread ∧ !sharesVm
      · rw [if_pos href]
        exact h
      · rw [if_neg href]
        have hmem := List.mem_of_find?_eq_some hfind
        obtain ⟨hfree, hvm⟩ := not_or.mp href
        cases sharesVm with
        | true =>
          refine h.share hmem hfree ?_ rfl rfl
          cases newThread <;> simp
        | false =>
          cases newThread with
          | true => exact absurd ⟨rfl, rfl⟩ hvm
          | false =>
            have hpid : ∀ a ∈ s.tasks, a.pid ≠ child := fun a ha heq => hfree (heq ▸ h.pid a ha)
            have hnam : ∀ a ∈ s.tasks, a.mmId.creator ≠ child :=
              fun a ha heq => hfree (heq ▸ h.creator a ha)
            refine h.fresh (List.subset_cons_self _ _) List.mem_cons_self rfl rfl hpid ?_
            exact fun a ha heq => absurd heq (hnam a ha)
  | exec caller =>
    simp only [step]
    cases hfind : s.tasks.find? (·.tid = caller) with
    | none => exact h
    | some task =>
      have hmem := List.mem_of_find?_eq_some hfind
      have hrest := h.subset (List.filter_subset_self (p := (·.pid ≠ task.pid)) s.tasks)
      refine hrest.fresh (List.Subset.refl _) (h.pid task hmem) rfl rfl ?_ ?_
      · intro a ha
        simpa using (List.mem_filter.mp ha).2
      · intro a ha heq
        exact Nat.lt_succ_of_le (h.generation task hmem a (List.mem_filter.mp ha).1 heq)
  | exit tid => exact h.subset (List.filter_subset_self _)

/-- After every history, two tasks have equal identities just if they share an address space. -/
theorem mmId_eq_iff (first : MmId) (events : List Event) :
    let s := events.foldl step (start first)
    ∀ a ∈ s.tasks, ∀ b ∈ s.tasks, a.mmId = b.mmId ↔ a.space = b.space := by
  have hsound : Sound (events.foldl step (start first)) :=
    List.foldlRecOn events step (start_sound first) fun s hs event _ => step_sound hs event
  exact hsound.agree

/-- A vfork child executes another image. -/
theorem mmId_eq_iff_vfork :
    let s := [.clone 3 5 true false, .exec 5].foldl step (start (.initial 3))
    let parent : Task := ⟨3, 3, ⟨3, 0⟩, 0⟩
    let child : Task := ⟨5, 5, ⟨5, 1⟩, 1⟩
    parent ∈ s.tasks ∧ child ∈ s.tasks ∧
      (parent.mmId = child.mmId ↔ parent.space = child.space) := by
  intro s parent child
  have hpar : parent ∈ s.tasks := .head _
  have hchd : child ∈ s.tasks := .tail _ (.head _)
  exact ⟨hpar, hchd, mmId_eq_iff _ _ parent hpar child hchd⟩

end Hermit.AddressSpaces
