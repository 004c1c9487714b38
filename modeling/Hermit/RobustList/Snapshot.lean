import Hermit.Common.OrdMap
import Hermit.RobustList.Walk

/-!
# The direct walk of a robust list, and its record

The direct walk of a dying thread's robust list stores the marked words in the thread's
memory. For a thread that SIGKILL ends, the sender records its list
(`record_robust_list`), and the thread's exit replays the walk over the record
(`owner_death_wakes_in_snapshot`).

* `recording_keeps`, `recording_handle`: a record holds what the memory holds, forgets
  nothing, and has every word that the walk handled.
-/

namespace Hermit.RobustList

open Hermit.Common OrdMap List

/-! ## The three effects -/

/-- What a dying thread's memory reads as, while no other thread changes it. `futexId`
    names words as futexes, so two mappings of one word are one futex. -/
structure StaticMemory (F : Type) where
  mapping : Mapping
  bytes : ℕ → UInt8
  futexId : ℕ → F
  futexId_eq : ∀ {v w f g : ℕ}, 4 ∣ v → 4 ∣ w → mapping.frame v = some f →
    mapping.frame w = some g → (futexId v = futexId w ↔ f = g)

/-- The memory with what a store meets there: `writable` and `exchangeable` say of a
    word's address whether a store does not fault and whether the backend has an atomic
    exchange for it. -/
structure GuestMemory (F : Type) extends StaticMemory F where
  writable : ℕ → Bool
  exchangeable : ℕ → Bool

structure Mark where
  word : ℕ
  before : ℕ
  after : ℕ
  deriving DecidableEq, Repr

structure DirectState where
  bytes : ℕ → UInt8
  marks : List Mark := []
  wakes : List (ℕ × ℕ) := []

structure RobustListSnapshot where
  head : ℕ
  pointers : OrdMap ℕ ℕ := ∅
  words : OrdMap ℕ ℕ := ∅

/-- The state of `SnapshotEffects`. `missedPointers` and `missedWords` keep the
    addresses that were read and are not in the record; the source does not. -/
structure ReplayState (F : Type) where
  marked : F → Option ℕ := fun _ => none
  wakes : List F := []
  missedPointers : List ℕ := []
  missedWords : List ℕ := []

variable {F : Type} (M : StaticMemory F) (G : GuestMemory F)

def DirectState.mark (s : DirectState) (frame word before after : ℕ) : DirectState :=
  { s with bytes := storeWord s.bytes frame after, marks := s.marks ++ [⟨word, before, after⟩] }

def direct : RobustDeathEffects DirectState where
  readU64 address s := (G.mapping.loadU64 s.bytes address, s)
  readU32 address s := (G.mapping.loadU32 s.bytes address, s)
  compareAndSwap address expected desired s :=
    if !G.writable address then (.faulted, s)
    else if !G.exchangeable address then (.unsupported, s)
    else
      match G.mapping.frame address, G.mapping.loadU32 s.bytes address with
      | some frame, some observed =>
        if observed = expected then (.matched, s.mark frame address expected desired)
        else (.changed observed, s)
      | _, _ => (.faulted, s)
  wakeOne address observed s := { s with wakes := s.wakes ++ [(address, observed)] }

/-- A read of `RecordingReader`: the value is kept. -/
def recordU64 (address : ℕ) (r : RobustListSnapshot) : Option ℕ × RobustListSnapshot :=
  match M.mapping.loadU64 M.bytes address with
  | none => (none, r)
  | some value => (some value, { r with pointers := r.pointers.insert address value })

/-- A read of a word by `RecordingReader`. -/
def recordU32 (address : ℕ) (r : RobustListSnapshot) : Option ℕ × RobustListSnapshot :=
  match M.mapping.loadU32 M.bytes address with
  | none => (none, r)
  | some value => (some value, { r with words := r.words.insert address value })

def recordingReader : RobustDeathEffects RobustListSnapshot where
  readU64 := recordU64 M
  readU32 := recordU32 M
  compareAndSwap address expected _ r :=
    match recordU32 M address r with
    | (none, r') => (.faulted, r')
    | (some observed, r') => (if observed = expected then .matched else .changed observed, r')
  wakeOne _ _ r := r

def recordRobustList (fuel head tid : ℕ) : Option RobustListSnapshot :=
  (exitRobustList (recordingReader M) fuel head tid { head }).map Prod.fst

section Replay

variable [DecidableEq F] (snapshot : RobustListSnapshot) (futexId : ℕ → F)

/-- The `read_u32` of `SnapshotEffects`: the recorded value, or the one marked since. -/
def replayU32 (address : ℕ) (t : ReplayState F) : Option ℕ × ReplayState F :=
  match snapshot.words[address]? with
  | none => (none, { t with missedWords := address :: t.missedWords })
  | some value => (some ((t.marked (futexId address)).getD value), t)

def snapshotEffects : RobustDeathEffects (ReplayState F) where
  readU64 address t :=
    match snapshot.pointers[address]? with
    | none => (none, { t with missedPointers := address :: t.missedPointers })
    | some value => (some value, t)
  readU32 := replayU32 snapshot futexId
  compareAndSwap address expected desired t :=
    match replayU32 snapshot futexId address t with
    | (none, t') => (.faulted, t')
    | (some observed, t') =>
      if observed = expected then
        (.matched, { t' with marked := Function.update t'.marked (futexId address) (some desired) })
      else (.changed observed, t')
  wakeOne address _ t := { t with wakes := t.wakes ++ [futexId address] }

def ownerDeathWakesInSnapshot (fuel ownerTid : ℕ) : Option (ReplayState F × WalkOutcome) :=
  exitRobustList (snapshotEffects snapshot futexId) fuel snapshot.head ownerTid {}

end Replay

def directWalk (fuel head ownerTid : ℕ) : Option (DirectState × WalkOutcome) :=
  exitRobustList (direct G) fuel head ownerTid { bytes := G.bytes }

/-! ## The list in the memory -/

namespace StaticMemory

def headField (head offset : ℕ) : Option ℕ :=
  (checkedAdd head offset).bind (M.mapping.loadU64 M.bytes)

inductive Listed (head : ℕ) : RobustEntry → Prop
  | first {raw : ℕ} : M.headField head headListOffset = some raw → Listed head (.decode raw)
  | next {entry : RobustEntry} {raw : ℕ} : Listed head entry → entry.address ≠ head →
      M.mapping.loadU64 M.bytes entry.address = some raw → Listed head (.decode raw)

/-- The entries whose words the walk may work on: the listed ones and the pending one. -/
def Handled (head : ℕ) (entry : RobustEntry) : Prop :=
  M.Listed head entry ∧ entry.address ≠ head ∨
    (∃ raw, M.headField head headListOpPendingOffset = some raw ∧ entry = .decode raw) ∧
      entry.isNull = false

def FutexWord (head word : ℕ) : Prop :=
  ∃ entry offset, M.Handled head entry ∧ M.headField head headFutexOffsetOffset = some offset ∧
    deathWord entry (asI64 offset) = some word

/-- No futex word shares a byte with the pointer of a list entry. -/
def NoOverlap (head : ℕ) : Prop :=
  ∀ entry, M.Listed head entry → entry.address ≠ head → ∀ word, M.FutexWord head word →
    ∀ f, M.mapping.frame word = some f → ∀ i < 8, ∀ g, M.mapping.frame (entry.address + i) = some g →
      g < f ∨ f + 4 ≤ g

end StaticMemory

def Names (ownerTid value : ℕ) : Prop := value &&& futexTidMask = ownerTid &&& futexTidMask

namespace GuestMemory

/-- The memory with every word open to stores and exchanges. -/
def unrestricted : GuestMemory F :=
  { G with writable := fun _ => true, exchangeable := fun _ => true }

/-- A store to the word succeeds. -/
def Stores (word : ℕ) : Prop := G.writable word = true ∧ G.exchangeable word = true

def Free : Prop := ∀ word, G.Stores word

/-- The words marked so far are ones that a store succeeds at. -/
def Allows (s : DirectState) : Prop := ∀ mark ∈ s.marks, G.Stores mark.word

end GuestMemory

/-! ## The direct walk -/

section Direct

variable {G} {ownerTid : ℕ}

variable {s : DirectState} {word f before after : ℕ}

theorem readU32_direct (hword : 4 ∣ word) (hf : G.mapping.frame word = some f) :
    (direct G).readU32 word s = (some (wordAt s.bytes f), s) := by
  simp only [direct, G.mapping.loadU32_eq s.bytes hword, hf, Option.map_some]

theorem readU32_direct_none (hword : 4 ∣ word)
    (hf : G.mapping.frame word = none) : (direct G).readU32 word s = (none, s) := by
  simp only [direct, G.mapping.loadU32_eq s.bytes hword, hf, Option.map_none]

theorem direct_neverRetries : NeverRetries (direct G) ownerTid := by
  refine neverRetries_of_cas ?_
  intro word uval desired observed s s' s'' hread hcas
  obtain ⟨hload, rfl⟩ := Prod.mk.inj hread
  simp only [direct, hload] at hcas
  split_ifs at hcas
  · cases hcas
  · cases hcas
  · split at hcas
    next frame value hframe hval =>
      cases hval
      rw [if_pos rfl] at hcas
      cases hcas
    next => cases hcas

/-- The marks of one word, by its frame. -/
def DirectState.marksAt (G : GuestMemory F) (s : DirectState) (f : ℕ) : List Mark :=
  s.marks.filter fun mark => G.mapping.frame mark.word == some f

def DirectState.changesAt (G : GuestMemory F) (s : DirectState) (f : ℕ) : List Mark :=
  (s.marksAt G f).filter fun mark => mark.before != mark.after

inductive WordState (G : GuestMemory F) (ownerTid : ℕ) (s : DirectState) (f : ℕ) : Prop
  | kept : wordAt s.bytes f = wordAt G.bytes f → s.marksAt G f = [] → WordState G ownerTid s f
  | marked : wordAt s.bytes f = deadValue (wordAt G.bytes f) → (s.changesAt G f).length ≤ 1 →
      (ownerTid &&& futexTidMask ≠ 0 → (s.marksAt G f).length ≤ 1) → WordState G ownerTid s f

/-- What holds of the direct walk at every point. -/
structure Marking (G : GuestMemory F) (ownerTid : ℕ) (s : DirectState) : Prop where
  word : ∀ f, 4 ∣ f → WordState G ownerTid s f
  names : ∀ mark ∈ s.marks, Names ownerTid mark.before ∧ mark.after = deadValue mark.before
  stored : ∀ b, s.bytes b ≠ G.bytes b →
    ∃ mark ∈ s.marks, ∃ f, G.mapping.frame mark.word = some f ∧ f ≤ b ∧ b < f + 4

theorem WordState.changesAt_le (h : WordState G ownerTid s f) : (s.changesAt G f).length ≤ 1 := by
  cases h with
  | kept _ hnone => simp [DirectState.changesAt, hnone]
  | marked _ hle _ => exact hle

theorem WordState.marksAt_le (h : WordState G ownerTid s f)
    (hown : ownerTid &&& futexTidMask ≠ 0) : (s.marksAt G f).length ≤ 1 := by
  cases h with
  | kept _ hnone => simp [hnone]
  | marked _ _ hle => exact hle hown

section

variable (hf : G.mapping.frame word = some f)
include hf

theorem marksAt_mark_same :
    (s.mark f word before after).marksAt G f = s.marksAt G f ++ [⟨word, before, after⟩] := by
  simp [DirectState.marksAt, DirectState.mark, filter_append, hf]

theorem marksAt_mark_ne {g : ℕ} (hne : f ≠ g) :
    (s.mark f word before after).marksAt G g = s.marksAt G g := by
  simp [DirectState.marksAt, DirectState.mark, filter_append, hf, hne]

theorem WordState.mark (hnames : Names ownerTid (wordAt s.bytes f)) (h : WordState G ownerTid s f) :
    WordState G ownerTid (s.mark f word (wordAt s.bytes f) (deadValue (wordAt s.bytes f))) f := by
  have hword : wordAt (storeWord s.bytes f (deadValue (wordAt s.bytes f))) f =
      deadValue (wordAt s.bytes f) := wordAt_storeWord (deadValue_lt _)
  cases h with
  | kept hkept hnone =>
    refine .marked ?_ ?_ fun _ => ?_
    · rw [DirectState.mark, hword, hkept]
    · refine (length_filter_le _ _).trans ?_
      rw [marksAt_mark_same hf, hnone]
      exact le_refl 1
    · rw [marksAt_mark_same hf, hnone]
      exact le_refl 1
  | marked hmar hle _ =>
    have hsame : deadValue (wordAt s.bytes f) = wordAt s.bytes f := by
      rw [hmar, deadValue_deadValue]
    refine .marked ?_ ?_ fun hown => ?_
    · rw [DirectState.mark, hword, hsame, hmar]
    · rw [DirectState.changesAt, marksAt_mark_same hf, filter_append, hsame]
      simpa [DirectState.changesAt] using hle
    · rw [Names, hmar, deadValue_and_tidMask] at hnames
      exact absurd hnames.symm hown

theorem WordState.mark_ne {g : ℕ} (hdvd : 4 ∣ f) (hg : 4 ∣ g) (hne : f ≠ g)
    (h : WordState G ownerTid s g) : WordState G ownerTid (s.mark f word before after) g := by
  have hmarks : (s.mark f word before after).marksAt G g = s.marksAt G g := marksAt_mark_ne hf hne
  have hword : wordAt (s.mark f word before after).bytes g = wordAt s.bytes g :=
    wordAt_storeWord_of_ne hdvd hg hne
  cases h with
  | kept hkept hnone => exact .kept (hword.trans hkept) (hmarks.trans hnone)
  | marked hmar hle hle' =>
    refine .marked (hword.trans hmar) ?_ ?_
    · rwa [DirectState.changesAt, hmarks]
    · rwa [hmarks]

end

theorem Marking.mark (h : Marking G ownerTid s) (hdvd : 4 ∣ word)
    (hf : G.mapping.frame word = some f) (hnames : Names ownerTid (wordAt s.bytes f)) :
    Marking G ownerTid (s.mark f word (wordAt s.bytes f) (deadValue (wordAt s.bytes f))) where
  word g hg := by
    by_cases hfg : f = g
    · subst hfg
      exact (h.word f hg).mark hf hnames
    · exact (h.word g hg).mark_ne hf (G.mapping.aligned hdvd hf).1 hg hfg
  names mark hmark := by
    rcases mem_append.mp hmark with hold | hnew
    · exact h.names mark hold
    · rw [mem_singleton.mp hnew]
      exact ⟨hnames, rfl⟩
  stored b hb := by
    by_cases hin : f ≤ b ∧ b < f + 4
    · exact ⟨_, mem_append_right _ (mem_singleton_self _), f, hf, hin⟩
    · have hkept : (s.mark f word (wordAt s.bytes f) (deadValue (wordAt s.bytes f))).bytes b =
          s.bytes b := storeWord_of_lt (by omega)
      rw [hkept] at hb
      obtain ⟨mark, hmark, hat⟩ := h.stored b hb
      exact ⟨mark, mem_append_left _ hmark, hat⟩

theorem marking_keeps : Keeps (direct G) ownerTid (Marking G ownerTid) where
  readU64 _ h := h
  readU32 _ h := h
  wakeOne _ _ h := by
    refine ⟨fun f hf => ?_, h.names, h.stored⟩
    cases h.word f hf with
    | kept hkept hnone => exact .kept hkept hnone
    | marked hmar hle hle' => exact .marked hmar hle hle'
  compareAndSwap {s word uval} hdvd hnames h := by
    simp only [direct, G.mapping.loadU32_eq s.bytes hdvd]
    split_ifs
    · exact h
    · exact h
    · cases hf : G.mapping.frame word with
      | none => exact h
      | some f =>
        simp only [Option.map_some]
        split_ifs with heq
        · subst heq
          exact h.mark hdvd hf hnames
        · exact h

theorem marking_start : Marking G ownerTid { bytes := G.bytes } where
  word _ _ := .kept rfl rfl
  names _ h := absurd h not_mem_nil
  stored _ h := absurd rfl h

/-- The direct walk returns, visits at most `robustListLimit` listed entries and the
    pending one, and changes only words that name the owner, each at most once. -/
theorem directWalk_marks (G : GuestMemory F) (ownerTid : ℕ) {fuel : ℕ} (hfuel : 0 < fuel)
    (head : ℕ) :
    ∃ d outcome, directWalk G fuel head ownerTid = some (d, outcome) ∧
      outcome.entriesVisited ≤ robustListLimit + 1 ∧ Marking G ownerTid d := by
  obtain ⟨⟨d, outcome⟩, hrun⟩ :=
    exitRobustList_returns direct_neverRetries hfuel head { bytes := G.bytes }
  obtain ⟨hmarki, hvisi⟩ := exitRobustList_invariant marking_keeps marking_start hrun
  exact ⟨d, outcome, hrun, hvisi, hmarki⟩

end Direct

/-! ## Recording -/

section Recording

variable {M} {tid : ℕ}

structure Recorded (M : StaticMemory F) (r : RobustListSnapshot) : Prop where
  pointers : ∀ {a v : ℕ}, r.pointers[a]? = some v → M.mapping.loadU64 M.bytes a = some v
  words : ∀ {a v : ℕ}, r.words[a]? = some v → M.mapping.loadU32 M.bytes a = some v

/-- A record has the values of an earlier one. -/
structure Extends (r₀ r : RobustListSnapshot) : Prop where
  head : r.head = r₀.head
  pointers : ∀ {a v : ℕ}, r₀.pointers[a]? = some v → r.pointers[a]? = some v
  words : ∀ {a v : ℕ}, r₀.words[a]? = some v → r.words[a]? = some v

theorem Extends.refl (r : RobustListSnapshot) : Extends r r := ⟨rfl, id, id⟩

theorem Extends.trans {r₀ r₁ r₂ : RobustListSnapshot} (h : Extends r₀ r₁) (h' : Extends r₁ r₂) :
    Extends r₀ r₂ :=
  ⟨h'.head.trans h.head, fun hv => h'.pointers (h.pointers hv), fun hv => h'.words (h.words hv)⟩

/-- A table of values that `truth` has stays one when another such value is added, and
    loses none. -/
theorem insert_of_truth {truth : ℕ → Option ℕ} {table : OrdMap ℕ ℕ}
    (h : ∀ {a v : ℕ}, table[a]? = some v → truth a = some v) {a v : ℕ} (hv : truth a = some v) :
    (∀ {b w : ℕ}, (table.insert a v)[b]? = some w → truth b = some w) ∧
      ∀ {b w : ℕ}, table[b]? = some w → (table.insert a v)[b]? = some w := by
  refine ⟨fun {b w} hb => ?_, fun {b w} hb => ?_⟩
  · rw [getElem?_insert_ite] at hb
    split_ifs at hb with hab
    · cases hb
      rwa [← hab]
    · exact h hb
  · rw [getElem?_insert_ite]
    split_ifs with hab
    · rw [← hv, hab, h hb]
    · exact hb

variable {r : RobustListSnapshot} {word : ℕ}

/-- Reading a pointer answers what the memory holds, and adds only that value. -/
theorem recordU64_spec (address : ℕ) (hr : Recorded M r) :
    (recordU64 M address r).1 = M.mapping.loadU64 M.bytes address ∧
      Recorded M (recordU64 M address r).2 ∧ Extends r (recordU64 M address r).2 ∧
      ∀ {v : ℕ}, M.mapping.loadU64 M.bytes address = some v →
        (recordU64 M address r).2.pointers[address]? = some v := by
  unfold recordU64
  cases hload : M.mapping.loadU64 M.bytes address with
  | none => exact ⟨rfl, hr, .refl r, fun h => nomatch h⟩
  | some value =>
    obtain ⟨htrue, hkept⟩ := insert_of_truth hr.pointers hload
    refine ⟨rfl, ⟨htrue, hr.words⟩, ⟨rfl, hkept, id⟩, fun h => ?_⟩
    cases h
    exact getElem?_insert_same _ _ _

/-- Reading a word answers what the memory holds, and adds only that value. -/
theorem recordU32_spec (address : ℕ) (hr : Recorded M r) :
    (recordU32 M address r).1 = M.mapping.loadU32 M.bytes address ∧
      Recorded M (recordU32 M address r).2 ∧ Extends r (recordU32 M address r).2 ∧
      ∀ {v : ℕ}, M.mapping.loadU32 M.bytes address = some v →
        (recordU32 M address r).2.words[address]? = some v := by
  unfold recordU32
  cases hload : M.mapping.loadU32 M.bytes address with
  | none => exact ⟨rfl, hr, .refl r, fun h => nomatch h⟩
  | some value =>
    obtain ⟨htrue, hkept⟩ := insert_of_truth hr.words hload
    refine ⟨rfl, ⟨hr.pointers, htrue⟩, ⟨rfl, id, hkept⟩, fun h => ?_⟩
    cases h
    exact getElem?_insert_same _ _ _

theorem recordingReader_cas {uval desired : ℕ} :
    ((recordingReader M).compareAndSwap word uval desired r).2 = (recordU32 M word r).2 := by
  simp only [recordingReader]
  split
  next heq => rw [heq]
  next heq => rw [heq]

theorem recording_keeps (tid : ℕ) (r₀ : RobustListSnapshot) :
    Keeps (recordingReader M) tid fun r => Recorded M r ∧ Extends r₀ r where
  readU64 address h := by
    obtain ⟨-, hrec, hext, -⟩ := recordU64_spec address h.1
    exact ⟨hrec, h.2.trans hext⟩
  readU32 address h := by
    obtain ⟨-, hrec, hext, -⟩ := recordU32_spec address h.1
    exact ⟨hrec, h.2.trans hext⟩
  wakeOne _ _ h := h
  compareAndSwap {s word uval} _ _ h := by
    obtain ⟨-, hrec, hext, -⟩ := recordU32_spec word h.1
    rw [recordingReader_cas]
    exact ⟨hrec, h.2.trans hext⟩

theorem recording_attempt {uval : ℕ} (hload : M.mapping.loadU32 M.bytes word = some uval)
    (tid : ℕ) (isPi pendingOp : Bool) (r : RobustListSnapshot) (n : ℕ) :
    ∃ r', deathAttempt (recordingReader M) isPi word tid pendingOp (r, n) =
      .inr (.continue, r', n) ∧ r'.words[word]? = some uval := by
  have hread : ∀ r : RobustListSnapshot, recordU32 M word r =
      (some uval, { r with words := r.words.insert word uval }) := by
    intro r
    rw [recordU32, hload]
  unfold deathAttempt
  simp only [recordingReader, hread, if_true]
  split_ifs
  · exact ⟨_, rfl, getElem?_insert_same _ _ _⟩
  · split
    next => exact ⟨_, rfl, getElem?_insert_same _ _ _⟩
    next =>
      refine ⟨_, rfl, ?_⟩
      rw [ite_self]
      exact getElem?_insert_same _ _ _

theorem recording_attempt_none (hload : M.mapping.loadU32 M.bytes word = none)
    (isPi pendingOp : Bool) (s : RobustListSnapshot × ℕ) :
    deathAttempt (recordingReader M) isPi word tid pendingOp s = .inr (.abort, s) := by
  simp only [deathAttempt, recordingReader, recordU32, hload]

theorem recording_neverRetries (tid : ℕ) : NeverRetries (recordingReader M) tid := by
  rintro isPi pendingOp word ⟨r, n⟩
  cases hload : M.mapping.loadU32 M.bytes word with
  | none => exact ⟨_, recording_attempt_none hload isPi pendingOp (r, n)⟩
  | some uval =>
    obtain ⟨r', hr', -⟩ := recording_attempt hload tid isPi pendingOp r n
    exact ⟨_, hr'⟩

/-- How `handle_futex_death` goes on a memory that does not change: it gives up where
    the word has no address or cannot be read, and goes on otherwise. -/
inductive Handling (M : StaticMemory F) (entry : RobustEntry) (futexOffset : ℤ) :
    DeathStep → Option ℕ → Prop
  | wild : deathWord entry futexOffset = none → Handling M entry futexOffset .abort none
  | unmapped {word : ℕ} : deathWord entry futexOffset = some word →
      M.mapping.frame word = none → Handling M entry futexOffset .abort none
  | handled {word f : ℕ} : deathWord entry futexOffset = some word →
      M.mapping.frame word = some f → Handling M entry futexOffset .continue (some word)

theorem recording_handle {fuel : ℕ} {entry : RobustEntry} {futexOffset : ℤ} {pendingOp : Bool}
    {r' : RobustListSnapshot} {n n' : ℕ} {answer : DeathStep}
    (h : handleFutexDeath (recordingReader M) (fuel + 1) entry futexOffset tid pendingOp (r, n) =
      some (answer, r', n')) :
    n' = n ∧ ∃ word, Handling M entry futexOffset answer word ∧
      ∀ w ∈ word, r'.words[w]? = M.mapping.loadU32 M.bytes w := by
  unfold handleFutexDeath at h
  split at h
  next hnone =>
    cases h
    exact ⟨rfl, none, .wild hnone, fun _ hw => nomatch hw⟩
  next word hword =>
    have hload := M.mapping.loadU32_eq M.bytes (dvd_of_deathWord hword)
    cases hf : M.mapping.frame word with
    | none =>
      rw [hf, Option.map_none] at hload
      rw [loop_succ_of_inr (recording_attempt_none hload entry.isPi pendingOp (r, n))] at h
      cases h
      exact ⟨rfl, none, .unmapped hword hf, fun _ hw => nomatch hw⟩
    | some f =>
      rw [hf, Option.map_some] at hload
      obtain ⟨r₁, hatte, hkept⟩ := recording_attempt hload tid entry.isPi pendingOp r n
      rw [loop_succ_of_inr hatte] at h
      cases h
      refine ⟨rfl, some word, .handled hword hf, fun w hw => ?_⟩
      cases hw
      rw [hkept, hload]

end Recording

end Hermit.RobustList
