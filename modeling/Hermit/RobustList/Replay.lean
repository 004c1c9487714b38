import Hermit.RobustList.Snapshot

/-!
# Replaying a robust-list walk over its record

The recording, the direct walk and the replay go through one list in step: the replay
finds in the record what the recording read, and remembers as marked what the direct
walk stores.

* `replay_of_static_memory`
* `replay_ignores_write_fault`
-/

namespace Hermit.RobustList

open Hermit.Common

variable {F : Type} (G : GuestMemory F)

/-! ## The replay in step with the direct walk -/

section Lockstep

variable {G} {head ownerTid : ℕ} {snapshot : RobustListSnapshot}

/-- The replay is where the direct walk is: a word reads the same in both, no list
    pointer has changed, the wakes are the same, and what the record lacked faults. -/
structure InStep (G : GuestMemory F) (head : ℕ) (d : DirectState) (t : ReplayState F) : Prop where
  word : ∀ {w f : ℕ}, 4 ∣ w → G.mapping.frame w = some f →
    wordAt d.bytes f = (t.marked (G.futexId w)).getD (wordAt G.bytes f)
  pointer : ∀ {entry : RobustEntry}, G.Listed head entry → entry.address ≠ head →
    G.mapping.loadU64 d.bytes entry.address = G.mapping.loadU64 G.bytes entry.address
  wakes : t.wakes = d.wakes.map fun wake => G.futexId wake.1
  missedPointers : ∀ a ∈ t.missedPointers, G.mapping.loadU64 G.bytes a = none
  missedWords : ∀ a ∈ t.missedWords, G.mapping.loadU32 G.bytes a = none

variable {d : DirectState} {t : ReplayState F}

theorem inStep_start : InStep G head { bytes := G.bytes } {} where
  word _ _ := rfl
  pointer _ _ := rfl
  wakes := rfl
  missedPointers _ h := absurd h List.not_mem_nil
  missedWords _ h := absurd h List.not_mem_nil

variable {w f fuel tid : ℕ} {r r' : RobustListSnapshot} {futexOffset : ℤ} {pending : RobustEntry}
    {outcome : WalkOutcome}

theorem InStep.readU32 (h : InStep G head d t) (hw : 4 ∣ w)
    (hf : G.mapping.frame w = some f) (hkept : snapshot.words[w]? = some (wordAt G.bytes f)) :
    replayU32 snapshot G.futexId w t = (some (wordAt d.bytes f), t) := by
  rw [replayU32, hkept, h.word hw hf]

theorem direct_cas (hw : 4 ∣ w) (hf : G.mapping.frame w = some f)
    (hwrit : G.writable w = true ∧ G.exchangeable w = true) (desired : ℕ) :
    (direct G).compareAndSwap w (wordAt d.bytes f) desired d =
      (.matched, d.mark f w (wordAt d.bytes f) desired) := by
  simp [direct, hwrit.1, hwrit.2, hf, G.mapping.loadU32_eq d.bytes hw]

theorem readHead_recording (offset : ℕ) (hr : Recorded G.toStaticMemory r) :
    (readHead (recordingReader G.toStaticMemory) head offset r).1 = G.headField head offset ∧
      ∀ {a v : ℕ}, checkedAdd head offset = some a → G.mapping.loadU64 G.bytes a = some v →
        (readHead (recordingReader G.toStaticMemory) head offset r).2.pointers[a]? = some v := by
  unfold readHead StaticMemory.headField
  cases hadd : checkedAdd head offset with
  | none => exact ⟨rfl, fun h => nomatch h⟩
  | some a =>
    obtain ⟨hval, -, -, hkept⟩ := recordU64_spec a hr
    refine ⟨hval, fun ha hv => ?_⟩
    cases ha
    exact hkept hv

variable [DecidableEq F]

theorem InStep.wake (h : InStep G head d t) (word observed : ℕ) :
    InStep G head ((direct G).wakeOne word observed d)
      ((snapshotEffects snapshot G.futexId).wakeOne word observed t) :=
  { h with wakes := by simp [direct, snapshotEffects, h.wakes] }

def ReplayState.mark (futexId : ℕ → F) (t : ReplayState F) (word desired : ℕ) : ReplayState F :=
  { t with marked := Function.update t.marked (futexId word) (some desired) }

section

variable (h : InStep G head d t)
include h

theorem InStep.mark (hoverlap : G.NoOverlap head)
    (hword : G.FutexWord head w) (hw : 4 ∣ w) (hf : G.mapping.frame w = some f) (before : ℕ) :
    InStep G head (d.mark f w before (deadValue (wordAt d.bytes f)))
      (t.mark G.futexId w (deadValue (wordAt d.bytes f))) where
  word {v g} hv hg := by
    simp only [DirectState.mark, ReplayState.mark]
    by_cases hfg : g = f
    · subst hfg
      rw [(G.futexId_eq hv hw hg hf).mpr rfl, Function.update_self,
        wordAt_storeWord (deadValue_lt _), Option.getD_some]
    · have hne : G.futexId v ≠ G.futexId w := fun heq => hfg ((G.futexId_eq hv hw hg hf).mp heq)
      rw [Function.update_of_ne hne, wordAt_storeWord_of_ne (G.mapping.aligned hw hf).1
        (G.mapping.aligned hv hg).1 (Ne.symm hfg), h.word hv hg]
  pointer {entry} hlist hhead := by
    rw [← h.pointer hlist hhead]
    refine G.mapping.loadU64_congr fun i hi g hg => storeWord_of_lt ?_
    exact hoverlap entry hlist hhead w hword f hf i hi g hg
  wakes := h.wakes
  missedPointers := h.missedPointers
  missedWords := h.missedWords

theorem InStep.cas (hw : 4 ∣ w)
    (hf : G.mapping.frame w = some f) (hkept : snapshot.words[w]? = some (wordAt G.bytes f))
    (desired : ℕ) :
    (snapshotEffects snapshot G.futexId).compareAndSwap w (wordAt d.bytes f) desired t =
      (.matched, t.mark G.futexId w desired) := by
  simp only [snapshotEffects, h.readU32 hw hf hkept, if_true, ReplayState.mark]

variable (hoverlap : G.NoOverlap head) (hfree : G.Free)
include hoverlap hfree

theorem InStep.attempt (hword : G.FutexWord head w)
    (hw : 4 ∣ w) (hf : G.mapping.frame w = some f)
    (hkept : snapshot.words[w]? = some (wordAt G.bytes f)) (isPi pendingOp : Bool) (n : ℕ) :
    ∃ d' t', deathAttempt (direct G) isPi w ownerTid pendingOp (d, n) = .inr (.continue, d', n) ∧
      deathAttempt (snapshotEffects snapshot G.futexId) isPi w ownerTid pendingOp (t, n) =
        .inr (.continue, t', n) ∧ InStep G head d' t' := by
  have hreadD : (direct G).readU32 w d = (some (wordAt d.bytes f), d) := readU32_direct hw hf
  have hreadS : (snapshotEffects snapshot G.futexId).readU32 w t = (some (wordAt d.bytes f), t) :=
    h.readU32 hw hf hkept
  simp only [deathAttempt, hreadD, hreadS]
  split_ifs
  · exact ⟨_, _, rfl, rfl, h.wake w _⟩
  · cases htr : futexDeathTransition (wordAt d.bytes f) ownerTid isPi with
    | none => exact ⟨d, t, rfl, rfl, h⟩
    | some tr =>
      obtain ⟨-, hnew⟩ := futexDeathTransition_eq_some htr
      have hmark := h.mark hoverlap hword hw hf (wordAt d.bytes f)
      simp only [hnew, direct_cas hw hf (hfree w), h.cas hw hf hkept]
      cases tr.wakeOne with
      | false => exact ⟨_, _, rfl, rfl, hmark⟩
      | true => exact ⟨_, _, rfl, rfl, hmark.wake w _⟩

theorem InStep.handle (hsnap : Recorded G.toStaticMemory snapshot)
    {entry : RobustEntry} (hent : ∀ w, deathWord entry futexOffset = some w → G.FutexWord head w)
    {n n' : ℕ} {pendingOp : Bool} {answer : DeathStep}
    (hrun : handleFutexDeath (recordingReader G.toStaticMemory) (fuel + 1) entry futexOffset tid
      pendingOp (r, n) = some (answer, r', n')) (hext : Extends r' snapshot) :
    ∃ d' t', handleFutexDeath (direct G) (fuel + 1) entry futexOffset ownerTid pendingOp (d, n) =
        some (answer, d', n') ∧
      handleFutexDeath (snapshotEffects snapshot G.futexId) (fuel + 1) entry futexOffset ownerTid
        pendingOp (t, n) = some (answer, t', n') ∧ InStep G head d' t' := by
  obtain ⟨rfl, word, hhand, hkept⟩ := recording_handle hrun
  unfold handleFutexDeath
  cases hhand with
  | wild hnone =>
    rw [hnone]
    exact ⟨d, t, rfl, rfl, h⟩
  | unmapped hword hf =>
    rename_i w
    have hw := dvd_of_deathWord hword
    have hload : G.mapping.loadU32 G.bytes w = none := by
      rw [G.mapping.loadU32_eq G.bytes hw, hf, Option.map_none]
    have hlacks : snapshot.words[w]? = none := by
      rw [Option.eq_none_iff_forall_not_mem]
      intro v hv
      rw [hsnap.words hv] at hload
      cases hload
    rw [hword]
    refine ⟨d, { t with missedWords := w :: t.missedWords }, ?_, ?_, ?_⟩
    · refine loop_succ_of_inr ?_ fuel
      rw [deathAttempt, readU32_direct_none hw hf]
    · refine loop_succ_of_inr ?_ fuel
      simp only [deathAttempt, snapshotEffects, replayU32, hlacks]
    · exact { h with missedWords := List.forall_mem_cons.mpr ⟨hload, h.missedWords⟩ }
  | handled hword hf =>
    rename_i w f
    have hw := dvd_of_deathWord hword
    have hval : snapshot.words[w]? = some (wordAt G.bytes f) := by
      refine hext.words ?_
      rw [hkept w rfl, G.mapping.loadU32_eq G.bytes hw, hf, Option.map_some]
    obtain ⟨d', t', hd, ht, hstep⟩ :=
      h.attempt hoverlap hfree (hent w hword) hw hf hval entry.isPi pendingOp n'
    rw [hword]
    exact ⟨d', t', loop_succ_of_inr hd fuel, loop_succ_of_inr ht fuel, hstep⟩

end

def WalkEnd.withState {σ τ : Type} (s : τ) : WalkEnd σ → WalkEnd τ
  | .returned _ outcome => .returned s outcome
  | .left _ outcome => .left s outcome

theorem InStep.visitEntry (hoverlap : G.NoOverlap head) (hfree : G.Free)
    (hsnap : Recorded G.toStaticMemory snapshot) (h : InStep G head d t)
    {entry : RobustEntry} (hent : ∀ w, deathWord entry futexOffset = some w → G.FutexWord head w)
    {e : WalkEnd RobustListSnapshot}
    (hrun : visitEntry (recordingReader G.toStaticMemory) (fuel + 1) entry pending futexOffset tid
      r outcome = some e) (hext : Extends e.result.1 snapshot) :
    ∃ d' t',
      RobustList.visitEntry (direct G) (fuel + 1) entry pending futexOffset ownerTid d outcome =
        some (e.withState d') ∧
      RobustList.visitEntry (snapshotEffects snapshot G.futexId) (fuel + 1) entry pending
        futexOffset ownerTid t outcome = some (e.withState t') ∧ InStep G head d' t' := by
  unfold RobustList.visitEntry at hrun ⊢
  split_ifs at hrun ⊢ with hpend
  · obtain ⟨⟨answer, r', retries⟩, hr, rfl⟩ := Option.map_eq_some_iff.mp hrun
    have hext' : Extends r' snapshot := by cases answer <;> exact hext
    obtain ⟨d', t', hd, ht, hstep⟩ := h.handle hoverlap hfree hsnap hent hr hext'
    rw [hd, ht]
    refine ⟨d', t', ?_, ?_, hstep⟩
    · cases answer <;> rfl
    · cases answer <;> rfl
  · cases hrun
    exact ⟨d, t, rfl, rfl, h⟩

theorem InStep.readU64 (h : InStep G head d t)
    (hsnap : Recorded G.toStaticMemory snapshot) {a : ℕ}
    (hkept : ∀ {v : ℕ}, G.mapping.loadU64 G.bytes a = some v → snapshot.pointers[a]? = some v) :
    ∃ t', (snapshotEffects snapshot G.futexId).readU64 a t =
      (G.mapping.loadU64 G.bytes a, t') ∧ InStep G head d t' := by
  cases hload : G.mapping.loadU64 G.bytes a with
  | some v =>
    refine ⟨t, ?_, h⟩
    simp only [snapshotEffects, hkept hload]
  | none =>
    have hlacks : snapshot.pointers[a]? = none := by
      rw [Option.eq_none_iff_forall_not_mem]
      intro v hv
      rw [hsnap.pointers hv] at hload
      cases hload
    refine ⟨{ t with missedPointers := a :: t.missedPointers }, ?_, ?_⟩
    · simp only [snapshotEffects, hlacks]
    · exact { h with missedPointers := List.forall_mem_cons.mpr ⟨hload, h.missedPointers⟩ }

variable (hoverlap : G.NoOverlap head) (hfree : G.Free)
  (hsnap : Recorded G.toStaticMemory snapshot)

section

include hoverlap hfree hsnap

theorem InStep.walkEntries
    (hent : ∀ entry, G.Listed head entry → entry.address ≠ head →
      ∀ w, deathWord entry futexOffset = some w → G.FutexWord head w)
    (limit : ℕ) : ∀ {entry : RobustEntry} {r : RobustListSnapshot}
    {d : DirectState} {t : ReplayState F} {outcome : WalkOutcome} {e : WalkEnd RobustListSnapshot},
    InStep G head d t → G.Listed head entry → Recorded G.toStaticMemory r →
    walkEntries (recordingReader G.toStaticMemory) (fuel + 1) head pending futexOffset tid limit
      entry r outcome = some e → Extends e.result.1 snapshot →
    ∃ d' t',
      walkEntries (direct G) (fuel + 1) head pending futexOffset ownerTid limit entry d outcome =
        some (e.withState d') ∧
      walkEntries (snapshotEffects snapshot G.futexId) (fuel + 1) head pending futexOffset ownerTid
        limit entry t outcome = some (e.withState t') ∧ InStep G head d' t' := by
  induction limit with
  | zero =>
    intro entry r d t outcome e h _ _ hrun _
    cases hrun
    exact ⟨d, t, rfl, rfl, h⟩
  | succ limit ih =>
    intro entry r d t outcome e h hlist hr hrun hext
    by_cases hhead : entry.address = head
    · rw [RobustList.walkEntries, if_neg (not_not_intro hhead)] at hrun ⊢
      rw [RobustList.walkEntries, if_neg (not_not_intro hhead)]
      cases hrun
      exact ⟨d, t, rfl, rfl, h⟩
    obtain ⟨hval, hr₁, -, hkept⟩ := recordU64_spec entry.address hr
    obtain ⟨e₁, hvisit⟩ := visitEntry_returns (recording_neverRetries tid) (Nat.succ_pos fuel) entry
      pending futexOffset (recordU64 G.toStaticMemory entry.address r).2 outcome
    obtain ⟨⟨hr₂, hext₂⟩, -⟩ := visitEntry_keeps (recording_keeps tid _) ⟨hr₁, .refl _⟩ hvisit
    have hreadR : (recordingReader G.toStaticMemory).readU64 entry.address r =
        (G.mapping.loadU64 G.bytes entry.address,
          (recordU64 G.toStaticMemory entry.address r).2) := Prod.ext hval rfl
    rw [walkEntries_succ hhead hreadR hvisit] at hrun
    -- what the recording walk has so far is still there at its end
    have hext₁ : Extends e₁.result.1 snapshot := by
      cases e₁ with
      | returned =>
        cases hrun
        exact hext
      | left r₂ outcome₂ =>
        cases hnext : G.mapping.loadU64 G.bytes entry.address with
        | none =>
          rw [hnext] at hrun
          cases hrun
          exact hext
        | some raw =>
          rw [hnext] at hrun
          obtain ⟨⟨-, hext₃⟩, -⟩ := walkEntries_keeps (recording_keeps tid r₂) limit ⟨hr₂, .refl _⟩ hrun
          exact hext₃.trans hext
    obtain ⟨t₁, hreadS, h₁⟩ := h.readU64 hsnap fun hv => hext₁.pointers (hext₂.pointers (hkept hv))
    have hreadD : (direct G).readU64 entry.address d =
        (G.mapping.loadU64 G.bytes entry.address, d) := by
      simp only [direct, h.pointer hlist hhead]
    obtain ⟨d₂, t₂, hd, ht, h₂⟩ :=
      h₁.visitEntry hoverlap hfree hsnap (hent entry hlist hhead) hvisit hext₁
    rw [walkEntries_succ hhead hreadD hd, walkEntries_succ hhead hreadS ht]
    cases e₁ with
    | returned =>
      cases hrun
      exact ⟨d₂, t₂, rfl, rfl, h₂⟩
    | left =>
      cases hnext : G.mapping.loadU64 G.bytes entry.address with
      | none =>
        rw [hnext] at hrun
        cases hrun
        exact ⟨d₂, t₂, rfl, rfl, h₂⟩
      | some raw =>
        rw [hnext] at hrun
        exact ih h₂ (.next hlist hhead hnext) hr₂ hrun hext

theorem InStep.visitPending (h : InStep G head d t)
    (hent : pending.isNull = false →
      ∀ w, deathWord pending futexOffset = some w → G.FutexWord head w) {outcome' : WalkOutcome}
    (hrun : visitPending (recordingReader G.toStaticMemory) (fuel + 1) pending futexOffset tid r
      outcome = some (r', outcome')) (hext : Extends r' snapshot) :
    ∃ d' t', RobustList.visitPending (direct G) (fuel + 1) pending futexOffset ownerTid d outcome =
        some (d', outcome') ∧
      RobustList.visitPending (snapshotEffects snapshot G.futexId) (fuel + 1) pending futexOffset
        ownerTid t outcome = some (t', outcome') ∧ InStep G head d' t' := by
  unfold RobustList.visitPending at hrun ⊢
  cases hnull : pending.isNull with
  | true =>
    simp only [hnull, if_true] at hrun ⊢
    cases hrun
    exact ⟨d, t, rfl, rfl, h⟩
  | false =>
    simp only [hnull, Bool.false_eq_true, if_false] at hrun ⊢
    obtain ⟨⟨answer, r₁, retries⟩, hr, hend⟩ := Option.map_eq_some_iff.mp hrun
    have hext₁ : Extends r₁ snapshot := by cases answer <;> cases hend <;> exact hext
    obtain ⟨d', t', hd, ht, hstep⟩ := h.handle hoverlap hfree hsnap (hent hnull) hr hext₁
    rw [hd, ht]
    refine ⟨d', t', ?_, ?_, hstep⟩
    · cases answer <;> cases hend <;> rfl
    · cases answer <;> cases hend <;> rfl

end

theorem InStep.readHead (h : InStep G head { bytes := G.bytes } t)
    (hsnap : Recorded G.toStaticMemory snapshot) {offset : ℕ}
    (hkept : ∀ {a v : ℕ}, checkedAdd head offset = some a →
      G.mapping.loadU64 G.bytes a = some v → snapshot.pointers[a]? = some v) :
    ∃ t', readHead (snapshotEffects snapshot G.futexId) head offset t =
        (G.headField head offset, t') ∧
      RobustList.readHead (direct G) head offset { bytes := G.bytes } =
        (G.headField head offset, { bytes := G.bytes }) ∧
      InStep G head { bytes := G.bytes } t' := by
  unfold RobustList.readHead StaticMemory.headField
  cases hadd : checkedAdd head offset with
  | none => exact ⟨t, rfl, rfl, h⟩
  | some a =>
    obtain ⟨t', hread, h'⟩ := h.readU64 hsnap (hkept hadd)
    exact ⟨t', hread, rfl, h'⟩

include hoverlap hfree

theorem InStep.walkList (hsnap : Recorded G.toStaticMemory snapshot) (h : InStep G head d t)
    {first offset pending : ℕ} (hfirst : G.headField head headListOffset = some first)
    (hoff : G.headField head headFutexOffsetOffset = some offset)
    (hpend : G.headField head headListOpPendingOffset = some pending)
    (hr : Recorded G.toStaticMemory r)
    (hrun : walkList (recordingReader G.toStaticMemory) (fuel + 1) head tid (.decode first)
      (.decode pending) (asI64 offset) r = some (r', outcome)) (hext : Extends r' snapshot) :
    ∃ d' t', walkList (direct G) (fuel + 1) head ownerTid (.decode first) (.decode pending)
        (asI64 offset) d = some (d', outcome) ∧
      walkList (snapshotEffects snapshot G.futexId) (fuel + 1) head ownerTid (.decode first)
        (.decode pending) (asI64 offset) t = some (t', outcome) ∧
      InStep G head d' t' := by
  have hent : ∀ entry, G.Listed head entry → entry.address ≠ head →
      ∀ w, deathWord entry (asI64 offset) = some w → G.FutexWord head w :=
    fun entry hlist hhead w hw => ⟨entry, offset, .inl ⟨hlist, hhead⟩, hoff, hw⟩
  have hslot : (RobustEntry.decode pending).isNull = false →
      ∀ w, deathWord (.decode pending) (asI64 offset) = some w → G.FutexWord head w :=
    fun hnull w hw => ⟨_, offset, .inr ⟨⟨pending, hpend, rfl⟩, hnull⟩, hoff, hw⟩
  obtain ⟨e, he⟩ := walkEntries_returns (recording_neverRetries tid) (Nat.succ_pos fuel) head
    (.decode pending) (asI64 offset) robustListLimit (.decode first) r {}
  obtain ⟨⟨hrec, -⟩, -⟩ := walkEntries_keeps (recording_keeps tid r) _ ⟨hr, .refl r⟩ he
  simp only [RobustList.walkList, he] at hrun ⊢
  have hext' : Extends e.result.1 snapshot := by
    cases e with
    | returned =>
      cases hrun
      exact hext
    | left r₁ outcome₁ =>
      obtain ⟨⟨-, hext₁⟩, -⟩ := visitPending_keeps (recording_keeps tid r₁) ⟨hrec, .refl r₁⟩ hrun
      exact hext₁.trans hext
  obtain ⟨d₁, t₁, hd, ht, h₁⟩ := InStep.walkEntries hoverlap hfree hsnap hent robustListLimit h
    (.first hfirst) hr he hext'
  rw [hd, ht]
  cases e with
  | returned =>
    cases hrun
    exact ⟨d₁, t₁, rfl, rfl, h₁⟩
  | left => exact h₁.visitPending hoverlap hfree hsnap hslot hrun hext

theorem InStep.afterHead (ownerTid : ℕ) (hsnap : Recorded G.toStaticMemory snapshot) (h : InStep G head d t)
    (hr : Recorded G.toStaticMemory r)
    (hrun : afterHead (recordingReader G.toStaticMemory) (fuel + 1) head tid
      (G.headField head headListOffset) (G.headField head headFutexOffsetOffset)
      (G.headField head headListOpPendingOffset) r = some (r', outcome))
    (hext : Extends r' snapshot) :
    ∃ d' t', afterHead (direct G) (fuel + 1) head ownerTid (G.headField head headListOffset)
        (G.headField head headFutexOffsetOffset) (G.headField head headListOpPendingOffset) d =
          some (d', outcome) ∧
      afterHead (snapshotEffects snapshot G.futexId) (fuel + 1) head ownerTid
        (G.headField head headListOffset) (G.headField head headFutexOffsetOffset)
        (G.headField head headListOpPendingOffset) t = some (t', outcome) ∧
      InStep G head d' t' := by
  unfold RobustList.afterHead at hrun ⊢
  split at hrun
  next first offset pending hfirst hoff hpend =>
    exact h.walkList hoverlap hfree hsnap hfirst hoff hpend hr hrun hext
  next =>
    cases hrun
    exact ⟨d, t, rfl, rfl, h⟩

theorem walks_inStep (ownerTid tid : ℕ) (hfuel : 0 < fuel) :
    ∃ snapshot d t outcome, recordRobustList G.toStaticMemory fuel head tid = some snapshot ∧
      directWalk G fuel head ownerTid = some (d, outcome) ∧
      ownerDeathWakesInSnapshot snapshot G.futexId fuel ownerTid = some (t, outcome) ∧
      InStep G head d t := by
  obtain ⟨fuel, rfl⟩ := Nat.exists_eq_add_of_le' hfuel
  have hr₀ : Recorded G.toStaticMemory { head } := by
    constructor <;> intro a v h <;> simp at h
  obtain ⟨⟨snapshot, outcome⟩, hrun⟩ :=
    exitRobustList_returns (recording_neverRetries tid) hfuel head { head }
  have hreco : recordRobustList G.toStaticMemory (fuel + 1) head tid = some snapshot := by
    rw [recordRobustList, hrun, Option.map_some]
  -- the three reads of the head, and the record after each of them
  obtain ⟨hfirst, hkept₁⟩ := readHead_recording headListOffset hr₀
  obtain ⟨hr₁, hext₁⟩ :=
    readHead_keeps (recording_keeps tid _) head headListOffset ⟨hr₀, .refl _⟩
  obtain ⟨hoff, hkept₂⟩ := readHead_recording headFutexOffsetOffset hr₁
  obtain ⟨hr₂, hext₂⟩ :=
    readHead_keeps (recording_keeps tid _) head headFutexOffsetOffset ⟨hr₁, .refl _⟩
  obtain ⟨hpend, hkept₃⟩ := readHead_recording headListOpPendingOffset hr₂
  obtain ⟨hr₃, hext₃⟩ :=
    readHead_keeps (recording_keeps tid _) head headListOpPendingOffset ⟨hr₂, .refl _⟩
  unfold exitRobustList at hrun
  dsimp only at hrun
  rw [hfirst, hoff, hpend] at hrun
  obtain ⟨⟨hsnap, hext⟩, -⟩ := afterHead_keeps (recording_keeps tid _) ⟨hr₃, .refl _⟩ hrun
  have hhead : snapshot.head = head := (hext₁.trans (hext₂.trans (hext₃.trans hext))).head
  -- the replay makes the same reads
  have hsta : InStep G head { bytes := G.bytes } ({} : ReplayState F) := inStep_start
  obtain ⟨t₁, hS₁, hD₁, h₁⟩ := hsta.readHead hsnap fun ha hv =>
    (hext₂.trans (hext₃.trans hext)).pointers (hkept₁ ha hv)
  obtain ⟨t₂, hS₂, hD₂, h₂⟩ := h₁.readHead hsnap fun ha hv =>
    (hext₃.trans hext).pointers (hkept₂ ha hv)
  obtain ⟨t₃, hS₃, hD₃, h₃⟩ := h₂.readHead hsnap fun ha hv => hext.pointers (hkept₃ ha hv)
  obtain ⟨d, t, hd, ht, hstep⟩ :=
    h₃.afterHead hoverlap hfree ownerTid hsnap hr₃ hrun (.refl snapshot)
  refine ⟨snapshot, d, t, outcome, hreco, ?_, ?_, hstep⟩
  · simp only [directWalk, exitRobustList, hD₁, hD₂, hD₃, hd]
  · simp only [ownerDeathWakesInSnapshot, exitRobustList, hhead, hS₁, hS₂, hS₃, ht]

end Lockstep

/-! ## Where a store fails -/

section Hindered

variable {G} {ownerTid w f fuel n n' : ℕ} {s s' : DirectState} {futexOffset : ℤ}
    {entry pending : RobustEntry} {outcome : WalkOutcome}

theorem allows_mark {before after : ℕ} :
    G.Allows (s.mark f w before after) ↔ G.Allows s ∧ G.Stores w := by
  simp [GuestMemory.Allows, DirectState.mark, or_imp, forall_and]

/-- A mark that is not allowed stays. -/
theorem not_allows_keeps :
    Keeps (direct G.unrestricted) ownerTid fun s => ¬ G.Allows s where
  readU64 _ h := h
  readU32 _ h := h
  wakeOne _ _ h := h
  compareAndSwap {s word uval} _ _ h := by
    simp only [direct]
    split_ifs <;> try exact h
    split
    · split_ifs
      · exact fun hall => h (allows_mark.mp hall).1
      · exact h
    · exact h

theorem direct_cas_fails (h : ¬ G.Stores w) (expected desired : ℕ) :
    ∃ failed, (failed = .faulted ∨ failed = .unsupported) ∧
      (direct G).compareAndSwap w expected desired s = (failed, s) := by
  unfold GuestMemory.Stores at h
  simp only [direct]
  split_ifs with hwri hexc
  · exact ⟨_, .inl rfl, rfl⟩
  · exact ⟨_, .inr rfl, rfl⟩
  · simp_all

/-- Where every store succeeds an attempt goes the same way, or it goes on where the other stops. -/
theorem attempt_unrestricted (hs : G.Allows s) (hw : 4 ∣ w) (isPi pendingOp : Bool) :
    ∃ answer s', deathAttempt (direct G.unrestricted) isPi w ownerTid pendingOp (s, n) =
        .inr (answer, s', n) ∧
      (G.Allows s' ∧ deathAttempt (direct G) isPi w ownerTid pendingOp (s, n) =
          .inr (answer, s', n) ∨
        ¬ G.Allows s' ∧ answer = .continue ∧ ∃ stop, stop ≠ .continue ∧
          deathAttempt (direct G) isPi w ownerTid pendingOp (s, n) = .inr (stop, s, n)) := by
  cases hf : G.mapping.frame w with
  | none =>
    refine ⟨.abort, s, ?_, .inl ⟨hs, ?_⟩⟩
    · rw [deathAttempt, readU32_direct_none (G := G.unrestricted) hw hf]
    · rw [deathAttempt, readU32_direct_none hw hf]
  | some f =>
    have hread : (direct G).readU32 w s = (some (wordAt s.bytes f), s) := readU32_direct hw hf
    have hread' : (direct G.unrestricted).readU32 w s = (some (wordAt s.bytes f), s) :=
      readU32_direct hw hf
    simp only [deathAttempt, hread, hread']
    split_ifs
    · exact ⟨_, _, rfl, .inl ⟨hs, rfl⟩⟩
    · cases futexDeathTransition (wordAt s.bytes f) ownerTid isPi with
      | none => exact ⟨_, _, rfl, .inl ⟨hs, rfl⟩⟩
      | some tr =>
        have hcas := direct_cas (G := G.unrestricted) (d := s) hw hf ⟨rfl, rfl⟩ tr.newValue
        simp only [hcas]
        by_cases hstores : G.Stores w
        · simp only [direct_cas hw hf hstores]
          refine ⟨_, _, rfl, .inl ⟨?_, rfl⟩⟩
          cases tr.wakeOne <;> exact (allows_mark (f := f)).mpr ⟨hs, hstores⟩
        · refine ⟨_, _, rfl, .inr ⟨?_, rfl, ?_⟩⟩
          · cases tr.wakeOne <;> exact fun hall => hstores ((allows_mark (f := f)).mp hall).2
          · obtain ⟨failed, rfl | rfl, hfails⟩ :=
              direct_cas_fails (s := s) hstores (wordAt s.bytes f) tr.newValue
            · exact ⟨.abort, DeathStep.noConfusion, by simp only [hfails]⟩
            · exact ⟨.unsupported, DeathStep.noConfusion, by simp only [hfails]⟩

theorem handle_unrestricted (hs : G.Allows s) (fuel ownerTid n : ℕ) (futexOffset : ℤ)
    (entry : RobustEntry) (pendingOp : Bool) :
    ∃ answer s', handleFutexDeath (direct G.unrestricted) (fuel + 1) entry futexOffset ownerTid
        pendingOp (s, n) = some (answer, s', n) ∧
      (G.Allows s' ∧ handleFutexDeath (direct G) (fuel + 1) entry futexOffset ownerTid pendingOp
          (s, n) = some (answer, s', n) ∨
        ¬ G.Allows s' ∧ answer = .continue ∧ ∃ stop, stop ≠ .continue ∧
          handleFutexDeath (direct G) (fuel + 1) entry futexOffset ownerTid pendingOp (s, n) =
            some (stop, s, n)) := by
  unfold handleFutexDeath
  cases hword : deathWord entry futexOffset with
  | none => exact ⟨_, _, rfl, .inl ⟨hs, rfl⟩⟩
  | some w =>
    obtain ⟨answer, s', hfree, hend⟩ :=
      attempt_unrestricted (n := n) hs (dvd_of_deathWord hword) entry.isPi pendingOp
    refine ⟨answer, s', loop_succ_of_inr hfree fuel, ?_⟩
    rcases hend with ⟨hall, hrun⟩ | ⟨hnot, hgoes, stop, hstop, hrun⟩
    · exact .inl ⟨hall, loop_succ_of_inr hrun fuel⟩
    · exact .inr ⟨hnot, hgoes, stop, hstop, loop_succ_of_inr hrun fuel⟩

/-- The loop went on to the pending slot without giving up at a word. -/
def WalkEnd.Unstopped {σ : Type} : WalkEnd σ → Prop
  | .returned _ _ => True
  | .left _ outcome => outcome.stopped = false

theorem visitEntry_unrestricted (hs : G.Allows s) (hgoes : outcome.stopped = false)
    {e : WalkEnd DirectState} (h : visitEntry (direct G.unrestricted) (fuel + 1) entry pending
      futexOffset ownerTid s outcome = some e) :
    (G.Allows e.result.1 ∧ e.Unstopped ∧ visitEntry (direct G) (fuel + 1) entry pending futexOffset
      ownerTid s outcome = some e) ∨
    ¬ G.Allows e.result.1 ∧ ∃ s₁ o, visitEntry (direct G) (fuel + 1) entry pending futexOffset
      ownerTid s outcome = some (.returned s₁ o) ∧ o.progress < e.result.2.progress := by
  unfold visitEntry at h ⊢
  split_ifs at h ⊢
  · obtain ⟨answer, s', hfree, hend⟩ :=
      handle_unrestricted hs fuel ownerTid outcome.casRetries futexOffset entry false
    rw [hfree] at h
    cases h
    rcases hend with ⟨hall, hrun⟩ | ⟨hnot, rfl, stop, hstop, hrun⟩
    · refine .inl ?_
      rw [hrun]
      cases answer <;> exact ⟨hall, by first | exact hgoes | trivial, rfl⟩
    · refine .inr ⟨hnot, ?_⟩
      rw [hrun]
      cases stop with
      | «continue» => exact absurd rfl hstop
      | _ =>
        refine ⟨_, _, rfl, ?_⟩
        simp_all [WalkEnd.result, WalkOutcome.progress, WalkOutcome.stopped]
  · cases h
    exact .inl ⟨hs, hgoes, rfl⟩

theorem walkEntries_unrestricted {head : ℕ} (limit : ℕ) : ∀ {entry : RobustEntry} {s : DirectState}
    {outcome : WalkOutcome} {e : WalkEnd DirectState}, G.Allows s → outcome.stopped = false →
    walkEntries (direct G.unrestricted) (fuel + 1) head pending futexOffset ownerTid limit entry s
      outcome = some e →
    (G.Allows e.result.1 ∧ e.Unstopped ∧ walkEntries (direct G) (fuel + 1) head pending futexOffset
      ownerTid limit entry s outcome = some e) ∨
    ¬ G.Allows e.result.1 ∧ ∃ s₁ o, walkEntries (direct G) (fuel + 1) head pending futexOffset
      ownerTid limit entry s outcome = some (.returned s₁ o) ∧
        o.progress < e.result.2.progress := by
  induction limit with
  | zero =>
    intro entry s outcome e hs hgoes h
    cases h
    exact .inl ⟨hs, hgoes, rfl⟩
  | succ limit ih =>
    intro entry s outcome e hs hgoes h
    by_cases hhead : entry.address = head
    · rw [walkEntries, if_neg (not_not_intro hhead)] at h ⊢
      cases h
      exact .inl ⟨hs, hgoes, rfl⟩
    obtain ⟨e₁, hvisit⟩ := visitEntry_returns
      (direct_neverRetries : NeverRetries (direct G.unrestricted) ownerTid)
      (Nat.succ_pos fuel) entry pending futexOffset s outcome
    have hread : (direct G).readU64 entry.address s =
      (G.mapping.loadU64 s.bytes entry.address, s) := rfl
    have hread' : (direct G.unrestricted).readU64 entry.address s = (_, s) := hread
    rw [walkEntries_succ hhead hread' hvisit] at h
    rcases visitEntry_unrestricted hs hgoes hvisit with
      ⟨hall, hopen, hrun⟩ | ⟨hnot, s₁, o, hrun, hlt⟩
    · rw [walkEntries_succ hhead hread hrun]
      cases e₁ with
      | returned =>
        cases h
        exact .inl ⟨hall, trivial, rfl⟩
      | left =>
        cases hnext : G.mapping.loadU64 s.bytes entry.address with
        | none =>
          rw [hnext] at h
          cases h
          exact .inl ⟨hall, trivial, rfl⟩
        | some raw =>
          rw [hnext] at h
          exact ih hall hopen h
    · -- the other walk has ended here, and this one only gets further
      have hlater : ¬ G.Allows e.result.1 ∧ e₁.result.2.progress ≤ e.result.2.progress := by
        cases e₁ with
        | returned =>
          cases h
          exact ⟨hnot, le_rfl⟩
        | left =>
          cases hnext : G.mapping.loadU64 s.bytes entry.address with
          | none =>
            rw [hnext] at h
            cases h
            exact ⟨hnot, le_rfl⟩
          | some raw =>
            rw [hnext] at h
            obtain ⟨hkept, -, hle⟩ := walkEntries_keeps not_allows_keeps limit hnot h
            exact ⟨hkept, hle⟩
      rw [walkEntries_succ hhead rfl hrun]
      exact .inr ⟨hlater.1, s₁, o, rfl, hlt.trans_le hlater.2⟩

theorem visitPending_unrestricted (hs : G.Allows s) (hgoes : outcome.stopped = false)
    {r : DirectState × WalkOutcome} (h : visitPending (direct G.unrestricted) (fuel + 1) pending
      futexOffset ownerTid s outcome = some r) :
    (G.Allows r.1 ∧ visitPending (direct G) (fuel + 1) pending futexOffset ownerTid s outcome =
      some r) ∨
    ¬ G.Allows r.1 ∧ ∃ r', visitPending (direct G) (fuel + 1) pending futexOffset ownerTid s
      outcome = some r' ∧ r'.2.progress < r.2.progress := by
  unfold visitPending at h ⊢
  split_ifs at h ⊢
  · cases h
    exact .inl ⟨hs, rfl⟩
  · obtain ⟨answer, s', hfree, hend⟩ :=
      handle_unrestricted hs fuel ownerTid outcome.casRetries futexOffset pending true
    rw [hfree] at h
    cases h
    rcases hend with ⟨hall, hrun⟩ | ⟨hnot, rfl, stop, hstop, hrun⟩
    · rw [hrun]
      cases answer <;> exact .inl ⟨hall, rfl⟩
    · refine .inr ⟨hnot, ?_⟩
      rw [hrun]
      cases stop with
      | «continue» => exact absurd rfl hstop
      | _ =>
        refine ⟨_, rfl, ?_⟩
        simp_all [WalkOutcome.progress, WalkOutcome.stopped]

/-- The walk that may store everywhere marks only words that stores succeed at, and then the other
    walk is the same; or the other walk ends at the first that they fail at. -/
theorem directWalk_unrestricted {head : ℕ} {r : DirectState × WalkOutcome}
    (h : directWalk G.unrestricted (fuel + 1) head ownerTid = some r) :
    (G.Allows r.1 ∧ directWalk G (fuel + 1) head ownerTid = some r) ∨
    ¬ G.Allows r.1 ∧ ∃ r', directWalk G (fuel + 1) head ownerTid = some r' ∧
      r'.2.progress < r.2.progress := by
  have hs : G.Allows { bytes := G.bytes } := fun _ hmark => absurd hmark List.not_mem_nil
  have hread : ∀ offset, readHead (direct G.unrestricted) head offset { bytes := G.bytes } =
      (G.headField head offset, { bytes := G.bytes }) ∧
      readHead (direct G) head offset { bytes := G.bytes } =
        (G.headField head offset, { bytes := G.bytes }) := by
    intro offset
    unfold readHead StaticMemory.headField
    cases checkedAdd head offset <;> exact ⟨rfl, rfl⟩
  have hstart : G.unrestricted.bytes = G.bytes := rfl
  simp only [directWalk, exitRobustList, hstart, hread] at h ⊢
  unfold afterHead at h ⊢
  split at h
  next first offset pending hfirst hoff hpend =>
    simp only [walkList] at h ⊢
    obtain ⟨e, he⟩ := walkEntries_returns
      (direct_neverRetries : NeverRetries (direct G.unrestricted) ownerTid) (Nat.succ_pos fuel)
      head (.decode pending) (asI64 offset) robustListLimit (.decode first) { bytes := G.bytes } {}
    rw [he] at h
    rcases walkEntries_unrestricted robustListLimit hs rfl he with
      ⟨hall, hopen, hrun⟩ | ⟨hnot, s₁, o, hrun, hlt⟩
    · rw [hrun]
      cases e with
      | returned =>
        cases h
        exact .inl ⟨hall, rfl⟩
      | left => exact visitPending_unrestricted hall hopen h
    · rw [hrun]
      refine .inr ?_
      cases e with
      | returned =>
        cases h
        exact ⟨hnot, _, rfl, hlt⟩
      | left =>
        obtain ⟨hkept, -, hle⟩ := visitPending_keeps not_allows_keeps hnot h
        exact ⟨hkept, _, rfl, hlt.trans_le hle⟩
  next =>
    cases h
    exact .inl ⟨hs, rfl⟩

end Hindered

/-! ## The replay of a static memory -/

section Replayed

variable [DecidableEq F]

/-- The direct walk of any memory returns, visits at most `robustListLimit` entries and
    the pending one, and changes only words that name the owner, each at most once.
    Where no futex word overlaps a list pointer, the replay over the record returns too
    and lacks no value that the memory has. It ends as the direct walk does and wakes the
    same futexes exactly where every word can be exchanged that the walk comes to and that
    names the owner then: the words marked where stores do not fail. -/
theorem replay_of_static_memory (head ownerTid tid fuel : ℕ) (hoverlap : G.NoOverlap head) :
    ∃ d outcome, directWalk G (fuel + 1) head ownerTid = some (d, outcome) ∧
      outcome.entriesVisited ≤ robustListLimit + 1 ∧
      (∀ mark ∈ d.marks, Names ownerTid mark.before ∧ mark.after = deadValue mark.before) ∧
      (∀ word f, 4 ∣ word → G.mapping.frame word = some f → (d.changesAt G f).length ≤ 1 ∧
          (ownerTid &&& futexTidMask ≠ 0 → (d.marksAt G f).length ≤ 1)) ∧
      (∀ b, d.bytes b ≠ G.bytes b →
        ∃ mark ∈ d.marks, ∃ f, G.mapping.frame mark.word = some f ∧ f ≤ b ∧ b < f + 4) ∧
      ∃ snapshot t outcome', recordRobustList G.toStaticMemory (fuel + 1) head tid = some snapshot ∧
        ownerDeathWakesInSnapshot snapshot G.futexId (fuel + 1) ownerTid = some (t, outcome') ∧
        (∀ a ∈ t.missedPointers, G.mapping.loadU64 G.bytes a = none) ∧
        (∀ a ∈ t.missedWords, G.mapping.loadU32 G.bytes a = none) ∧
        ∃ free outcome₁, directWalk G.unrestricted (fuel + 1) head ownerTid = some (free, outcome₁) ∧
          ((outcome' = outcome ∧ t.wakes = d.wakes.map fun wake => G.futexId wake.1) ↔
            ∀ mark ∈ free.marks, G.writable mark.word = true ∧ G.exchangeable mark.word = true) := by
  have hfuel : 0 < fuel + 1 := Nat.succ_pos fuel
  obtain ⟨d, outcome, hrun, hvisi, hmarki⟩ :=
    directWalk_marks G ownerTid hfuel head
  refine ⟨d, outcome, hrun, hvisi, hmarki.names, ?_, hmarki.stored, ?_⟩
  · intro word f hword hf
    have hst := hmarki.word f (G.mapping.aligned hword hf).1
    exact ⟨hst.changesAt_le, hst.marksAt_le⟩
  -- neither the recording nor the replay looks at whether a word can be stored to
  obtain ⟨snapshot, free, t, outcome', hreco, hfree, hreplay, hstep⟩ :=
    walks_inStep (G := G.unrestricted) hoverlap (fun _ => ⟨rfl, rfl⟩) ownerTid tid hfuel
  refine ⟨snapshot, t, outcome', hreco, hreplay, hstep.missedPointers, hstep.missedWords, free,
    outcome', hfree, ?_⟩
  rcases directWalk_unrestricted hfree with ⟨hall, hsame⟩ | ⟨hnot, r, hr, hlt⟩
  · cases hrun.symm.trans hsame
    exact iff_of_true ⟨rfl, hstep.wakes⟩ hall
  · cases hrun.symm.trans hr
    exact iff_of_false (fun heq => hlt.ne (by rw [heq.1])) hnot

end Replayed

/-! ## One lock -/

/-- The memory of a thread with one robust lock, whose word is at 96: the list head at
    64 leads to the node at 128, which leads back. -/
def oneLockBytes : List UInt8 :=
  List.replicate 64 0 ++ toLeBytes 8 128 ++ toLeBytes 8 (2 ^ 64 - 32) ++ toLeBytes 8 0 ++
    List.replicate 8 0 ++ toLeBytes 4 (futexWaiters + 5) ++ List.replicate 28 0 ++ toLeBytes 8 64

def oneLock (writable : Bool) : GuestMemory ℕ where
  mapping :=
    { frame := fun a => if a < 256 then some a else none
      aligned := by
        intro a f ha hf
        split_ifs at hf with hlt
        cases hf
        exact ⟨ha, fun i hi => if_pos (by omega)⟩ }
  bytes a := oneLockBytes.getD a 0
  futexId := id
  futexId_eq := by
    intro v w f g _ _ hv hw
    dsimp only at hv hw
    split_ifs at hv hw
    cases hv
    cases hw
    exact Iff.rfl
  writable _ := writable
  exchangeable _ := true

theorem oneLock_listed {writable : Bool} {entry : RobustEntry}
    (h : (oneLock writable).Listed 64 entry) : entry = ⟨128, false⟩ ∨ entry = ⟨64, false⟩ := by
  induction h with
  | first hraw =>
    have hfirst : (oneLock writable).headField 64 headListOffset = some 128 := by
      cases writable <;> decide +kernel
    cases hfirst.symm.trans hraw
    exact .inl rfl
  | next _ hhead hraw ih =>
    have hnext : (oneLock writable).mapping.loadU64 (oneLock writable).bytes 128 = some 64 := by
      cases writable <;> decide +kernel
    rcases ih with rfl | rfl
    · cases hnext.symm.trans hraw
      exact .inr rfl
    · exact absurd rfl hhead

theorem oneLock_futexWord {writable : Bool} {word : ℕ}
    (h : (oneLock writable).FutexWord 64 word) : word = 96 := by
  obtain ⟨entry, offset, hhan, hoff, hword⟩ := h
  have hoff' : (oneLock writable).headField 64 headFutexOffsetOffset = some (2 ^ 64 - 32) := by
    cases writable <;> decide +kernel
  cases hoff'.symm.trans hoff
  rcases hhan with ⟨hlist, hhead⟩ | ⟨⟨raw, hraw, rfl⟩, hnull⟩
  · rcases oneLock_listed hlist with rfl | rfl
    · have h96 : deathWord ⟨128, false⟩ (asI64 (2 ^ 64 - 32)) = some 96 := by decide +kernel
      cases h96.symm.trans hword
      rfl
    · exact absurd rfl hhead
  · have hpend : (oneLock writable).headField 64 headListOpPendingOffset = some 0 := by
      cases writable <;> decide +kernel
    cases hpend.symm.trans hraw
    cases hnull

theorem oneLock_noOverlap (writable : Bool) : (oneLock writable).NoOverlap 64 := by
  intro entry hlist hhead word hword f hf i hi g hg
  rw [oneLock_futexWord hword] at hf
  rcases oneLock_listed hlist with rfl | rfl
  · simp only [oneLock] at hf hg
    split_ifs at hf hg
    cases hf
    cases hg
    omega
  · exact absurd rfl hhead

/-- With a writable lock, the replay wakes the lock's waiter, as the direct walk does. -/
theorem replay_of_static_memory_oneLock : ∃ snapshot t outcome,
      recordRobustList (oneLock true).toStaticMemory 1 64 9 = some snapshot ∧
      ownerDeathWakesInSnapshot snapshot id 1 5 = some (t, outcome) ∧ t.wakes = [96] := by
  obtain ⟨d, outcome, hrun, -, -, -, -, snapshot, t, outcome', hreco, hreplay, -, -, free, _, -,
    hsame⟩ := replay_of_static_memory (oneLock true) 64 5 9 0 (oneLock_noOverlap true)
  have hwakes : (directWalk (oneLock true) 1 64 5).map (fun r => r.1.wakes.map Prod.fst) =
      some [96] := by decide +kernel
  rw [hrun, Option.map_some, Option.some_inj] at hwakes
  refine ⟨snapshot, t, outcome', hreco, hreplay, ?_⟩
  rw [(hsame.mpr fun _ _ => ⟨rfl, rfl⟩).2]
  exact hwakes

/-- With the lock on a page that cannot be written, the direct walk aborts at the lock
    and wakes nobody. The replay marks the lock, wakes its waiter and goes on. -/
theorem replay_ignores_write_fault : (oneLock false).NoOverlap 64 ∧
      (directWalk (oneLock false) 1 64 5).map (fun r => (r.1.wakes, r.2.aborted)) =
        some ([], true) ∧
      ((recordRobustList (oneLock false).toStaticMemory 1 64 5).bind fun snapshot =>
        ownerDeathWakesInSnapshot snapshot id 1 5).map (fun r => (r.1.wakes, r.2.aborted)) =
          some ([96], false) :=
  ⟨oneLock_noOverlap false, by decide +kernel, by decide +kernel⟩

end Hermit.RobustList
