import Hermit.Common.Loop
import Hermit.Common.MappedMemory

/-!
# The robust-list walk of a dying thread

Model of `exit_robust_list` and `handle_futex_death` (`syscalls/robust_list.rs`) over
any implementation of `RobustDeathEffects`, and of the two implementations of that
file: `RecordingReader`, which keeps every value the walk reads from the dying
thread's memory, and `SnapshotEffects`, which replays the walk over such a record.
The direct walk stores the words itself, through the guest's compare-and-exchange, as
the KVM effects do.

Addresses, words and pointers are natural numbers. The retry loop of
`handle_futex_death` has no bound in the source; here it runs at most `fuel` times.

* `exitRobustList_returns`: where an exchange finds the word as it was read, the walk
  returns.
-/

namespace Hermit.RobustList

open Hermit.Common

/-! ## The futex word -/

def futexWaiters : ℕ := 0x80000000

def futexOwnerDied : ℕ := 0x40000000

def futexTidMask : ℕ := 0x3fffffff

def robustListLimit : ℕ := 2048

def headListOffset : ℕ := 0

def headFutexOffsetOffset : ℕ := 8

def headListOpPendingOffset : ℕ := 16

structure FutexDeathTransition where
  newValue : ℕ
  wakeOne : Bool
  deriving DecidableEq, Repr

/-- The value Linux stores into a word whose owner died. -/
def deadValue (uval : ℕ) : ℕ := (uval &&& futexWaiters) ||| futexOwnerDied

def futexDeathTransition (uval ownerTid : ℕ) (isPi : Bool) : Option FutexDeathTransition :=
  if uval &&& futexTidMask ≠ ownerTid &&& futexTidMask then none
  else some ⟨deadValue uval, !isPi && uval &&& futexWaiters != 0⟩

theorem futexDeathTransition_eq_some {uval ownerTid : ℕ} {isPi : Bool} {tr : FutexDeathTransition}
    (h : futexDeathTransition uval ownerTid isPi = some tr) :
    uval &&& futexTidMask = ownerTid &&& futexTidMask ∧ tr.newValue = deadValue uval := by
  unfold futexDeathTransition at h
  split_ifs at h with hnames
  cases h
  exact ⟨not_not.mp hnames, rfl⟩

theorem deadValue_lt (uval : ℕ) : deadValue uval < 2 ^ 32 :=
  Nat.or_lt_two_pow (Nat.lt_of_le_of_lt Nat.and_le_right (by decide)) (by decide)

theorem deadValue_and_tidMask (uval : ℕ) : deadValue uval &&& futexTidMask = 0 := by
  have hbits : futexWaiters &&& futexTidMask = 0 := by decide
  have hdied : futexOwnerDied &&& futexTidMask = 0 := by decide
  rw [deadValue, Nat.and_or_distrib_right, Nat.and_assoc, hbits, hdied, Nat.and_zero, Nat.or_zero]

theorem deadValue_deadValue (uval : ℕ) : deadValue (deadValue uval) = deadValue uval := by
  have hdied : futexOwnerDied &&& futexWaiters = 0 := by decide
  have hkeep : deadValue uval &&& futexWaiters = uval &&& futexWaiters := by
    rw [deadValue, Nat.and_or_distrib_right, hdied, Nat.or_zero, Nat.and_assoc, Nat.and_self]
  conv_lhs => rw [deadValue, hkeep]
  rfl

/-! ## List entries -/

structure RobustEntry where
  address : ℕ
  isPi : Bool
  deriving DecidableEq, Repr

def RobustEntry.decode (raw : ℕ) : RobustEntry := ⟨raw - raw % 2, raw % 2 != 0⟩

def RobustEntry.isNull (entry : RobustEntry) : Bool := entry.address == 0

/-- A `u64` taken as an `i64`. -/
def asI64 (raw : ℕ) : ℤ := if raw < 2 ^ 63 then raw else raw - 2 ^ 64

def checkedAdd (address offset : ℕ) : Option ℕ :=
  if address + offset < 2 ^ 64 then some (address + offset) else none

def futexWordAddress (entry : ℕ) (futexOffset : ℤ) : Option ℕ :=
  let sum := (entry : ℤ) + futexOffset
  if 0 ≤ sum ∧ sum < 2 ^ 64 then if sum ≠ 0 then some sum.toNat else none else none

/-- The word `handle_futex_death` works on: none where it gives up before it reads. -/
def deathWord (entry : RobustEntry) (futexOffset : ℤ) : Option ℕ :=
  (futexWordAddress entry.address futexOffset).filter fun word => word % 4 == 0

theorem dvd_of_deathWord {entry : RobustEntry} {futexOffset : ℤ} {word : ℕ}
    (h : deathWord entry futexOffset = some word) : 4 ∣ word := by
  obtain ⟨-, halig⟩ := Option.filter_eq_some_iff.mp h
  exact Nat.dvd_of_mod_eq_zero (by simpa using halig)

/-! ## The walk -/

inductive DeathStep where
  | continue
  | abort
  | unsupported
  deriving DecidableEq, Repr

inductive FutexCasOutcome where
  | matched
  | changed (observed : ℕ)
  | faulted
  | unsupported
  deriving DecidableEq, Repr

structure RobustDeathEffects (σ : Type) where
  readU64 : ℕ → σ → Option ℕ × σ
  readU32 : ℕ → σ → Option ℕ × σ
  compareAndSwap : (address expected desired : ℕ) → σ → FutexCasOutcome × σ
  wakeOne : (address observed : ℕ) → σ → σ

structure WalkOutcome where
  entriesVisited : ℕ := 0
  headUnreadable : Bool := false
  aborted : Bool := false
  nextFaulted : Bool := false
  truncated : Bool := false
  casRetries : ℕ := 0
  unsupported : Bool := false
  deriving DecidableEq, Repr

/-- The walk was given up at a word. -/
def WalkOutcome.stopped (o : WalkOutcome) : Bool := o.aborted || o.unsupported

/-- Grows with the walk: twice the entries visited, and one where the last was not given up at. -/
def WalkOutcome.progress (o : WalkOutcome) : ℕ := 2 * o.entriesVisited + (!o.stopped).toNat

theorem WalkOutcome.progress_le {o o' : WalkOutcome} (h : o.entriesVisited < o'.entriesVisited) :
    o.progress ≤ o'.progress := by
  have hbit := (!o.stopped).toNat_lt
  unfold progress
  omega

variable {σ : Type} (effects : RobustDeathEffects σ)

/-- One pass of the `loop` of `handle_futex_death`, on the effects' state and
    `cas_retries`: go on with `goto retry`, or return. -/
def deathAttempt (isPi : Bool) (word ownerTid : ℕ) (pendingOp : Bool) (s : σ × ℕ) :
    (σ × ℕ) ⊕ (DeathStep × σ × ℕ) :=
  match effects.readU32 word s.1 with
  | (none, s') => .inr (.abort, s', s.2)
  | (some uval, s') =>
    if pendingOp && !isPi && uval &&& futexTidMask == 0 then
      .inr (.continue, effects.wakeOne word uval s', s.2)
    else
      match futexDeathTransition uval ownerTid isPi with
      | none => .inr (.continue, s', s.2)
      | some transition =>
        match effects.compareAndSwap word uval transition.newValue s' with
        | (.matched, s'') =>
          .inr (.continue,
            if transition.wakeOne then effects.wakeOne word transition.newValue s'' else s'', s.2)
        | (.changed _, s'') => .inl (s'', s.2 + 1)
        | (.faulted, s'') => .inr (.abort, s'', s.2)
        | (.unsupported, s'') => .inr (.unsupported, s'', s.2)

def handleFutexDeath (fuel : ℕ) (entry : RobustEntry) (futexOffset : ℤ) (ownerTid : ℕ)
    (pendingOp : Bool) (s : σ × ℕ) : Option (DeathStep × σ × ℕ) :=
  match deathWord entry futexOffset with
  | none => some (.abort, s)
  | some word => loop (deathAttempt effects entry.isPi word ownerTid pendingOp) fuel s

/-- How the `while` loop of `exit_robust_list` ends: with a `return`, or on to the
    pending slot. -/
inductive WalkEnd (σ : Type) where
  | returned (s : σ) (outcome : WalkOutcome)
  | left (s : σ) (outcome : WalkOutcome)

def visitEntry (fuel : ℕ) (entry pending : RobustEntry) (futexOffset : ℤ) (ownerTid : ℕ)
    (s : σ) (outcome : WalkOutcome) : Option (WalkEnd σ) :=
  if entry.address ≠ pending.address then
    (handleFutexDeath effects fuel entry futexOffset ownerTid false (s, outcome.casRetries)).map
      fun (answer, s', retries) =>
        let outcome := { outcome with
          entriesVisited := outcome.entriesVisited + 1, casRetries := retries }
        match answer with
        | .continue => .left s' outcome
        | .abort => .returned s' { outcome with aborted := true }
        | .unsupported => .returned s' { outcome with unsupported := true }
  else some (.left s outcome)

/-- The rest of a pass of the `while` loop, once the entry has been handled: only now
    is it looked at whether the next pointer could be read. -/
def followNext (walk : RobustEntry → σ → WalkOutcome → Option (WalkEnd σ)) (next : Option ℕ) :
    WalkEnd σ → Option (WalkEnd σ)
  | .returned s outcome => some (.returned s outcome)
  | .left s outcome =>
    match next with
    | none => some (.returned s { outcome with nextFaulted := true })
    | some raw => walk (.decode raw) s outcome

/-- The `while` loop, with `limit` entries left to follow. The next pointer is read
    before the entry is handled. The loop is left when the limit runs out, also at the
    head itself. -/
def walkEntries (fuel head : ℕ) (pending : RobustEntry) (futexOffset : ℤ) (ownerTid : ℕ) :
    (limit : ℕ) → RobustEntry → σ → WalkOutcome → Option (WalkEnd σ)
  | 0, _, s, outcome => some (.left s { outcome with truncated := true })
  | limit + 1, entry, s, outcome =>
    if entry.address ≠ head then
      let (next, s) := effects.readU64 entry.address s
      (visitEntry effects fuel entry pending futexOffset ownerTid s outcome).bind
        (followNext (walkEntries fuel head pending futexOffset ownerTid limit) next)
    else some (.left s outcome)

theorem walkEntries_succ {effects : RobustDeathEffects σ} {fuel head ownerTid limit : ℕ}
    {entry pending : RobustEntry} {futexOffset : ℤ} {s s₁ : σ} {outcome : WalkOutcome}
    {next : Option ℕ} {e : WalkEnd σ} (hhead : entry.address ≠ head)
    (hread : effects.readU64 entry.address s = (next, s₁))
    (hvisit : visitEntry effects fuel entry pending futexOffset ownerTid s₁ outcome = some e) :
    walkEntries effects fuel head pending futexOffset ownerTid (limit + 1) entry s outcome =
      followNext (walkEntries effects fuel head pending futexOffset ownerTid limit) next e := by
  simp only [walkEntries, if_pos hhead, hread, hvisit, Option.bind_some]

/-- The pending slot, handled last. -/
def visitPending (fuel : ℕ) (pending : RobustEntry) (futexOffset : ℤ) (ownerTid : ℕ) (s : σ)
    (outcome : WalkOutcome) : Option (σ × WalkOutcome) :=
  if pending.isNull then some (s, outcome)
  else
    (handleFutexDeath effects fuel pending futexOffset ownerTid true (s, outcome.casRetries)).map
      fun (answer, s', retries) =>
        let outcome := { outcome with
          entriesVisited := outcome.entriesVisited + 1, casRetries := retries }
        match answer with
        | .continue => (s', outcome)
        | .abort => (s', { outcome with aborted := true })
        | .unsupported => (s', { outcome with unsupported := true })

/-- The read of one field of the list head, where its address does not overflow. -/
def readHead (head offset : ℕ) (s : σ) : Option ℕ × σ :=
  match checkedAdd head offset with
  | none => (none, s)
  | some address => effects.readU64 address s

def walkList (fuel head ownerTid : ℕ) (first pending : RobustEntry) (futexOffset : ℤ) (s : σ) :
    Option (σ × WalkOutcome) :=
  match walkEntries effects fuel head pending futexOffset ownerTid robustListLimit first s {} with
  | none => none
  | some (.returned s outcome) => some (s, outcome)
  | some (.left s outcome) => visitPending effects fuel pending futexOffset ownerTid s outcome

def afterHead (fuel head ownerTid : ℕ) (first offset pending : Option ℕ) (s : σ) :
    Option (σ × WalkOutcome) :=
  match first, offset, pending with
  | some first, some offset, some pending =>
    walkList effects fuel head ownerTid (.decode first) (.decode pending) (asI64 offset) s
  | _, _, _ => some (s, { headUnreadable := true })

def exitRobustList (fuel head ownerTid : ℕ) (s : σ) : Option (σ × WalkOutcome) :=
  let (first, s) := readHead effects head headListOffset s
  let (offset, s) := readHead effects head headFutexOffsetOffset s
  let (pending, s) := readHead effects head headListOpPendingOffset s
  afterHead effects fuel head ownerTid first offset pending s

/-! ## What a walk keeps -/

structure Keeps (ownerTid : ℕ) (I : σ → Prop) : Prop where
  readU64 : ∀ {s} (address), I s → I (effects.readU64 address s).2
  readU32 : ∀ {s} (address), I s → I (effects.readU32 address s).2
  wakeOne : ∀ {s} (address observed), I s → I (effects.wakeOne address observed s)
  compareAndSwap : ∀ {s} {word uval : ℕ}, 4 ∣ word →
    uval &&& futexTidMask = ownerTid &&& futexTidMask → I s →
      I (effects.compareAndSwap word uval (deadValue uval) s).2

section Invariant

variable {effects} {ownerTid : ℕ} {I : σ → Prop}

theorem deathAttempt_keeps (hI : Keeps effects ownerTid I) (isPi pendingOp : Bool) {word : ℕ}
    (hword : 4 ∣ word) {s : σ × ℕ} (hs : I s.1) :
    (deathAttempt effects isPi word ownerTid pendingOp s).elim (fun s' => I s'.1)
      fun r => I r.2.1 := by
  have hread := hI.readU32 word hs
  unfold deathAttempt
  split
  next s₁ heq =>
    rw [heq] at hread
    exact hread
  next uval s₁ heq =>
    rw [heq] at hread
    split_ifs with hfree
    · exact hI.wakeOne word uval hread
    · split
      next => exact hread
      next tr htr =>
        obtain ⟨hnames, hnew⟩ := futexDeathTransition_eq_some htr
        have hcas := hI.compareAndSwap hword hnames hread
        rw [hnew]
        split
        all_goals
          rename_i s₂ hcasEq
          rw [hcasEq] at hcas
        · by_cases hwake : tr.wakeOne = true
          · rw [if_pos hwake]
            exact hI.wakeOne word _ hcas
          · rw [if_neg hwake]
            exact hcas
        all_goals exact hcas

variable {fuel head : ℕ} {futexOffset : ℤ} {pending : RobustEntry} {s : σ} {r : σ × WalkOutcome}

theorem handleFutexDeath_keeps (hI : Keeps effects ownerTid I) {entry : RobustEntry}
    {pendingOp : Bool} {s : σ × ℕ} (hs : I s.1) {r : DeathStep × σ × ℕ}
    (h : handleFutexDeath effects fuel entry futexOffset ownerTid pendingOp s = some r) :
    I r.2.1 := by
  unfold handleFutexDeath at h
  split at h
  next => cases h; exact hs
  next word hword =>
    have halig := dvd_of_deathWord hword
    have hretry : ∀ s s' : σ × ℕ, I s.1 →
        deathAttempt effects entry.isPi word ownerTid pendingOp s = .inl s' → I s'.1 := by
      intro s s' hs hstep
      have hkeep := deathAttempt_keeps hI entry.isPi pendingOp halig hs
      rwa [hstep] at hkeep
    obtain ⟨s', hs', hr⟩ := loop_invariant (fun s : σ × ℕ => I s.1) hretry fuel hs h
    have hkeep := deathAttempt_keeps hI entry.isPi pendingOp halig hs'
    rwa [hr] at hkeep

def WalkEnd.result : WalkEnd σ → σ × WalkOutcome
  | .returned s outcome => (s, outcome)
  | .left s outcome => (s, outcome)

section

variable (hI : Keeps effects ownerTid I)
include hI

theorem visitEntry_keeps {entry : RobustEntry} {outcome : WalkOutcome} (hs : I s) {e : WalkEnd σ}
    (h : visitEntry effects fuel entry pending futexOffset ownerTid s outcome = some e) :
    I e.result.1 ∧ e.result.2.entriesVisited ≤ outcome.entriesVisited + 1 ∧
      outcome.progress ≤ e.result.2.progress := by
  unfold visitEntry at h
  split_ifs at h with hpend
  · obtain ⟨⟨answer, s', retries⟩, hr, rfl⟩ := Option.map_eq_some_iff.mp h
    have hs' := handleFutexDeath_keeps hI hs hr
    cases answer <;> exact ⟨hs', le_refl _, WalkOutcome.progress_le (Nat.lt_succ_self _)⟩
  · cases h
    exact ⟨hs, Nat.le_succ _, le_refl _⟩

theorem walkEntries_keeps (limit : ℕ) : ∀ {entry : RobustEntry} {s : σ} {outcome : WalkOutcome}
    {e : WalkEnd σ}, I s →
    walkEntries effects fuel head pending futexOffset ownerTid limit entry s outcome = some e →
    I e.result.1 ∧ e.result.2.entriesVisited ≤ outcome.entriesVisited + limit ∧
      outcome.progress ≤ e.result.2.progress := by
  induction limit with
  | zero =>
    intro entry s outcome e hs h
    cases h
    exact ⟨hs, le_refl _, le_refl _⟩
  | succ limit ih =>
    intro entry s outcome e hs h
    rw [walkEntries] at h
    split_ifs at h with hhead
    · have hread := hI.readU64 entry.address hs
      obtain ⟨e', hvisit, hrest⟩ := Option.bind_eq_some_iff.mp h
      obtain ⟨hs', hle, hprog⟩ := visitEntry_keeps hI hread hvisit
      cases e' with
      | returned =>
        cases hrest
        exact ⟨hs', hle.trans (by omega), hprog⟩
      | left =>
        simp only [WalkEnd.result] at hs' hle
        cases hnext : (effects.readU64 entry.address s).1 with
        | none =>
          rw [hnext] at hrest
          cases hrest
          exact ⟨hs', hle.trans (by omega), hprog⟩
        | some raw =>
          rw [hnext] at hrest
          obtain ⟨hend, hle', hprog'⟩ := ih hs' hrest
          exact ⟨hend, hle'.trans (by omega), hprog.trans hprog'⟩
    · cases h
      exact ⟨hs, Nat.le_add_right _ _, le_refl _⟩

theorem visitPending_keeps {outcome : WalkOutcome} (hs : I s)
    (h : visitPending effects fuel pending futexOffset ownerTid s outcome = some r) :
    I r.1 ∧ r.2.entriesVisited ≤ outcome.entriesVisited + 1 ∧ outcome.progress ≤ r.2.progress := by
  unfold visitPending at h
  split_ifs at h with hnull
  · cases h
    exact ⟨hs, Nat.le_succ _, le_refl _⟩
  · obtain ⟨⟨answer, s', retries⟩, hr, rfl⟩ := Option.map_eq_some_iff.mp h
    have hs' := handleFutexDeath_keeps hI hs hr
    cases answer <;> exact ⟨hs', le_refl _, WalkOutcome.progress_le (Nat.lt_succ_self _)⟩

theorem readHead_keeps (head offset : ℕ) (hs : I s) : I (readHead effects head offset s).2 := by
  unfold readHead
  split
  · exact hs
  · exact hI.readU64 _ hs

theorem walkList_keeps {first : RobustEntry} (hs : I s)
    (h : walkList effects fuel head ownerTid first pending futexOffset s = some r) :
    I r.1 ∧ r.2.entriesVisited ≤ robustListLimit + 1 := by
  unfold walkList at h
  split at h
  next => cases h
  next s' outcome hwalk =>
    cases h
    obtain ⟨hs', hle, -⟩ := walkEntries_keeps hI _ hs hwalk
    exact ⟨hs', hle.trans (by simp)⟩
  next s' outcome hwalk =>
    obtain ⟨hs', hle, -⟩ := walkEntries_keeps hI _ hs hwalk
    obtain ⟨hend, hle', -⟩ := visitPending_keeps hI hs' h
    refine ⟨hend, hle'.trans ?_⟩
    simpa [WalkEnd.result] using hle

theorem afterHead_keeps {first offset pending : Option ℕ} (hs : I s)
    (h : afterHead effects fuel head ownerTid first offset pending s = some r) :
    I r.1 ∧ r.2.entriesVisited ≤ robustListLimit + 1 := by
  unfold afterHead at h
  split at h
  next => exact walkList_keeps hI hs h
  next =>
    cases h
    exact ⟨hs, Nat.zero_le _⟩

theorem exitRobustList_invariant (hs : I s)
    (h : exitRobustList effects fuel head ownerTid s = some r) :
    I r.1 ∧ r.2.entriesVisited ≤ robustListLimit + 1 := by
  have hfirst := readHead_keeps hI head headListOffset hs
  have hoff := readHead_keeps hI head headFutexOffsetOffset hfirst
  have hpend := readHead_keeps hI head headListOpPendingOffset hoff
  exact afterHead_keeps hI hpend h

end

end Invariant

/-! ## Walks that return -/

/-- No exchange finds another value than the one just read, so no word is retried. -/
def NeverRetries (ownerTid : ℕ) : Prop :=
  ∀ isPi pendingOp word s, ∃ r, deathAttempt effects isPi word ownerTid pendingOp s = .inr r

section Returns

variable {effects} {ownerTid fuel : ℕ}

theorem neverRetries_of_cas (hcas : ∀ {word uval desired observed : ℕ} {s s' s'' : σ},
      effects.readU32 word s = (some uval, s') →
        effects.compareAndSwap word uval desired s' ≠ (.changed observed, s'')) :
    NeverRetries effects ownerTid := by
  intro isPi pendingOp word s
  unfold deathAttempt
  split
  next => exact ⟨_, rfl⟩
  next uval s' hread =>
    split_ifs
    · exact ⟨_, rfl⟩
    · split
      next => exact ⟨_, rfl⟩
      next =>
        split
        next => exact ⟨_, rfl⟩
        next hchan => exact absurd hchan (hcas hread)
        next => exact ⟨_, rfl⟩
        next => exact ⟨_, rfl⟩

section

variable (h : NeverRetries effects ownerTid)
include h

theorem handleFutexDeath_returns (hfuel : 0 < fuel)
    (entry : RobustEntry) (futexOffset : ℤ) (pendingOp : Bool) (s : σ × ℕ) :
    ∃ r, handleFutexDeath effects fuel entry futexOffset ownerTid pendingOp s = some r := by
  obtain ⟨fuel, rfl⟩ := Nat.exists_eq_add_of_le' hfuel
  unfold handleFutexDeath
  split
  next => exact ⟨_, rfl⟩
  next word _ =>
    obtain ⟨r, hr⟩ := h entry.isPi pendingOp word s
    exact ⟨r, loop_succ_of_inr hr fuel⟩

theorem visitEntry_returns (hfuel : 0 < fuel)
    (entry pending : RobustEntry) (futexOffset : ℤ) (s : σ) (outcome : WalkOutcome) :
    ∃ e, visitEntry effects fuel entry pending futexOffset ownerTid s outcome = some e := by
  unfold visitEntry
  split_ifs
  · obtain ⟨r, hr⟩ :=
      handleFutexDeath_returns h hfuel entry futexOffset false (s, outcome.casRetries)
    rw [hr]
    exact ⟨_, rfl⟩
  · exact ⟨_, rfl⟩

theorem walkEntries_returns (hfuel : 0 < fuel) (head : ℕ)
    (pending : RobustEntry) (futexOffset : ℤ) (limit : ℕ) :
    ∀ (entry : RobustEntry) (s : σ) (outcome : WalkOutcome), ∃ e,
      walkEntries effects fuel head pending futexOffset ownerTid limit entry s outcome = some e := by
  induction limit with
  | zero =>
    intro entry s outcome
    exact ⟨_, rfl⟩
  | succ limit ih =>
    intro entry s outcome
    by_cases hhead : entry.address ≠ head
    · obtain ⟨e, he⟩ := visitEntry_returns h hfuel entry pending futexOffset
        (effects.readU64 entry.address s).2 outcome
      rw [walkEntries_succ hhead rfl he]
      cases e with
      | returned => exact ⟨_, rfl⟩
      | left s' outcome' =>
        cases (effects.readU64 entry.address s).1 with
        | none => exact ⟨_, rfl⟩
        | some raw => exact ih _ s' outcome'
    · rw [walkEntries, if_neg hhead]
      exact ⟨_, rfl⟩

theorem walkList_returns (hfuel : 0 < fuel) (head : ℕ)
    (first pending : RobustEntry) (futexOffset : ℤ) (s : σ) :
    ∃ r, walkList effects fuel head ownerTid first pending futexOffset s = some r := by
  unfold walkList
  obtain ⟨e, he⟩ :=
    walkEntries_returns h hfuel head pending futexOffset robustListLimit first s {}
  rw [he]
  cases e with
  | returned => exact ⟨_, rfl⟩
  | left s' outcome =>
    dsimp only
    unfold visitPending
    split_ifs
    · exact ⟨_, rfl⟩
    · obtain ⟨r, hr⟩ :=
        handleFutexDeath_returns h hfuel pending futexOffset true (s', outcome.casRetries)
      rw [hr]
      exact ⟨_, rfl⟩

theorem exitRobustList_returns (hfuel : 0 < fuel) (head : ℕ)
    (s : σ) : ∃ r, exitRobustList effects fuel head ownerTid s = some r := by
  unfold exitRobustList
  dsimp only
  unfold afterHead
  split
  next => exact walkList_returns h hfuel head _ _ _ _
  next => exact ⟨_, rfl⟩

end

end Returns

end Hermit.RobustList
