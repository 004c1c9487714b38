import Hermit.Flock.Ledger
import Hermit.Flock.Walk

/-!
# What the operations of a ledger are made of

An invariant that a few changes keep (`Ledger.Kept`) is kept by every step (`Ledger.Kept.step`) and
holds of every run (`Ledger.Kept.run`). Between the changes of one operation some descriptions may
have lost their last reference: they are a parameter of the invariant.
-/

namespace Hermit.Flock

open Common List

namespace FlockInode

variable {i i' : FlockInode}

def SameLocks (i i' : FlockInode) : Prop := i'.granted = i.granted ∧ i'.waiters = i.waiters

theorem SameLocks.waiter (h : i.SameLocks i') (t : DetTid) : i'.waiter t = i.waiter t := by
  unfold FlockInode.waiter
  rw [h.2]

theorem SameLocks.grantOf (h : i.SameLocks i') (d : OpenFileId) : i'.grantOf d = i.grantOf d := by
  unfold FlockInode.grantOf
  rw [h.1]

theorem SameLocks.requests (h : i.SameLocks i') (t : DetTid) (d : OpenFileId) (m : FlockMode)
    (b : Option FlockBlocker) : i'.Requests t d m b ↔ i.Requests t d m b := by
  unfold Requests
  rw [h.waiter]

theorem SameLocks.grants (h : i.SameLocks i') (d : OpenFileId) (m : FlockMode) :
    i'.Grants d m ↔ i.Grants d m := by
  unfold Grants
  rw [h.grantOf]

theorem SameLocks.consistent (h : i.SameLocks i') (hi : i.Consistent) : i'.Consistent := by
  refine hi.congr (by rw [h.1]) (by rw [h.2]) h.requests h.grants ?_
  intro node
  cases node with
  | lock d => rw [blockedList_lock, blockedList_lock, h.grantOf]
  | request t => rw [blockedList_request, blockedList_request, h.waiter]

end FlockInode

namespace Ledger

variable {i i' : FlockInode} {s s' : Ledger} {d : OpenFileId}

/-- No lock is added and the calls stay. -/
structure Eases (i i' : FlockInode) : Prop where
  consistent : i'.Consistent
  grants : ∀ d m, i'.Grants d m → i.Grants d m
  calls : ∀ t d m, (∃ b, i'.Requests t d m b) ↔ ∃ b, i.Requests t d m b

theorem Eases.of_sameLocks (h : i.SameLocks i') (hi : i.Consistent) : Eases i i' := by
  refine ⟨h.consistent hi, fun d m => (h.grants d m).mp, ?_⟩
  intro t d m
  simp only [h.requests]

theorem Eases.deleteLock (hi : i.Consistent) (d : OpenFileId) : Eases i (i.deleteLock d).2 :=
  ⟨hi.deleteLock d, fun e m he => ((hi.grants_deleteLock d e m).mp he).2,
    FlockInode.exists_requests_deleteLock d⟩

theorem Eases.trans {i'' : FlockInode} (h : Eases i i') (h' : Eases i' i'') : Eases i i'' :=
  ⟨h'.consistent, fun d m hd => h.grants d m (h'.grants d m hd),
    fun t d m => (h'.calls t d m).trans (h.calls t d m)⟩

/-! ## The fields that references and tables are read from -/

/-- The fields `NamedTables` reads are the same. -/
structure SameTables (s s' : Ledger) : Prop where
  references : s'.references = s.references
  processTable : s'.processTable = s.processTable
  owners : s'.owners = s.owners

theorem SameTables.refl (s : Ledger) : s.SameTables s := ⟨rfl, rfl, rfl⟩

theorem SameTables.trans {s'' : Ledger} (h : s.SameTables s') (h' : s'.SameTables s'') :
    s.SameTables s'' :=
  ⟨h'.references.trans h.references, h'.processTable.trans h.processTable, h'.owners.trans h.owners⟩

theorem sameTables_modifyInode (s : Ledger) (key : FlockInodeKey) (f : FlockInode → FlockInode) :
    s.SameTables (s.modifyInode key f) := by
  unfold modifyInode
  split
  · exact .refl s
  · exact ⟨rfl, rfl, rfl⟩

theorem sameTables_flockLastReference (s : Ledger) (d : OpenFileId) :
    s.SameTables (s.flockLastReference d) := by
  unfold flockLastReference
  split
  · exact .refl s
  split
  · exact .refl s
  · have hunfo : s.SameTables (s.unfollow d) := ⟨rfl, rfl, rfl⟩
    exact hunfo.trans (sameTables_modifyInode _ _ _)

theorem processTable_setReferences (s : Ledger) (d : OpenFileId) (table : Table) (slots : ℕ) :
    (s.setReferences d table slots).processTable = s.processTable := by
  unfold setReferences
  dsimp only
  split_ifs
  all_goals first
    | rfl
    | exact (((s.unreference d).forget d).sameTables_flockLastReference d).processTable

theorem processTable_tableOf (s : Ledger) (p : DetPid) :
    (s.tableOf p).2.processTable[p]? = some (s.tableOf p).1 := by
  unfold tableOf
  cases hp : s.processTable[p]? with
  | some table => exact hp
  | none => exact OrdMap.getElem?_insert_same _ _ _

theorem processTable_dropTable (s : Ledger) (table : Table) :
    (s.dropTable table).processTable = (s.disown table).processTable :=
  foldlRecOn _ _ (motive := fun s' : Ledger => s'.processTable = (s.disown table).processTable)
    rfl fun s' hs' d _ => (s'.processTable_setReferences d table 0).trans hs'

theorem processTable_forgetProcess (s : Ledger) (p : DetPid) :
    (s.forgetProcess p).processTable[p]? = none := by
  unfold forgetProcess
  cases hp : s.processTable[p]? with
  | none => exact hp
  | some table =>
    have hleave : (s.leaveTable p table).processTable[p]? = none := OrdMap.getElem?_erase_same _ _
    dsimp only
    split
    · rw [processTable_dropTable]
      have hget : ((s.leaveTable p table).disown table).processTable[p]? =
        (s.leaveTable p table).processTable[p]?.filter _ := Std.ExtTreeMap.getElem?_filter'
      rw [hget, hleave]
      rfl
    · exact hleave

/-! ## Changes -/

/-- What the invariants read of a ledger. -/
def core (s : Ledger) :=
  (s.flockInodes, s.flockInodeOf, s.inFlight, s.references, s.processTable, s.owners)

/-- The changes that the operations are made of keep the invariant `I`. Its parameter are the
descriptions that may have lost their last reference; `admits` says which calls are made. -/
structure Kept (admits : FlockRequest → Prop) (I : Set OpenFileId → Ledger → Prop) : Prop where
  mono : ∀ {loose loose' s}, I loose s → loose ⊆ loose' → I loose' s
  congr : ∀ {loose s s'}, I loose s → core s' = core s → I loose s'
  setReferences : ∀ {loose s} {p : DetPid} {table : Table}, I loose s →
    s.processTable[p]? = some table → ∀ d slots, I loose (s.setReferences d table slots)
  dropTable : ∀ {loose s}, I loose s → ∀ table, I loose (s.dropTable table)
  forgetProcess : ∀ {loose s}, I loose s → ∀ p, I loose (s.forgetProcess p)
  useTable : ∀ {loose s} {p : DetPid}, I loose s → s.processTable[p]? = none →
    ∀ table, I loose (s.useTable p table)
  copyReferences : ∀ {loose s} {p : DetPid} {copy : Table}, I loose s →
    s.processTable[p]? = some copy → ∀ table, I loose (s.copyReferences table copy)
  moveTable : ∀ {loose s}, I loose s → ∀ p, I loose (s.moveTable p (s.execTable p).1)
  modifyInode : ∀ {loose s} {f : FlockInode → FlockInode}, I loose s →
    (∀ i : FlockInode, i.Consistent → Eases i (f i)) → ∀ key, I loose (s.modifyInode key f)
  tearDown : ∀ {loose s}, I loose s → ∀ p, I loose (s.tearDown p)
  keepInode : ∀ {loose s}, I loose s → ∀ key object, I loose (s.keepInode key object)
  countCopy : ∀ {loose s}, I loose s → ∀ d, I loose (s.countCopy d)
  uncountCopy : ∀ {loose s}, I loose s → ∀ d, I loose (s.uncountCopy d)
  removeWaiters : ∀ {loose s}, I loose s → ∀ gone,
    I (loose ∪ { d | d ∈ (s.flockRemoveWaiters gone).1 }) (s.flockRemoveWaiters gone).2
  removeWaiter : ∀ {loose s} {key : FlockInodeKey} {i : FlockInode}, I loose s →
    s.flockInodes[key]? = some i → ∀ t,
      I (loose ∪ { d | d ∈ (i.removeWaiter t).1.toList.map (·.openFile) })
        (s.setFlockInode key (i.removeWaiter t).2)
  waiterLeft : ∀ {loose s d}, I (insert d loose) s → I loose (s.flockWaiterLeft d)
  setInode : ∀ {loose s} {request : FlockRequest}, admits request → I loose s →
    I loose (s.setInode request.openFile request.inode)
  /-- The first attempt of a call. -/
  call : ∀ {loose} {s : Ledger} {p t} {request : FlockRequest} {a dropped s'}, admits request →
    I loose (s.enterCall p request) → I loose (s.followCall p t request) →
    (s.followCall p t request).flockAttempt request.inode t p request.openFile request.mode
      request.nonblocking = some (a, dropped, s') → I loose s'
  /-- The attempt of a call that was woken. -/
  retry : ∀ {loose s} {key : FlockInodeKey} {i : FlockInode} {w : FlockWaiter} {a dropped s'},
    I loose s → s.flockInodes[key]? = some i → i.waiter w.thread = some w → w.blocker = none →
    s.flockAttempt key w.thread w.process w.openFile (some w.mode) false = some (a, dropped, s') →
    I loose s'

namespace Kept

variable {admits : FlockRequest → Prop} {I : Set OpenFileId → Ledger → Prop}
    {loose : Set OpenFileId} (h : Kept admits I)

include h

theorem tableOf (hs : I loose s) (p : DetPid) : I loose (s.tableOf p).2 := by
  unfold Ledger.tableOf
  cases hp : s.processTable[p]? with
  | some table => exact hs
  | none =>
    have hnext : I loose { s with nextTable := s.nextTable + 1 } := h.congr hs rfl
    exact h.useTable hnext hp _

theorem follow (hs : I loose s) (p : DetPid) (d : OpenFileId) (slots : ℕ) :
    I loose (s.follow p d slots) :=
  h.setReferences (h.tableOf hs p) (s.processTable_tableOf p) d slots

theorem knowLocks (hs : I loose s) (d : OpenFileId) : I loose (s.knowLocks d) := by
  unfold Ledger.knowLocks
  split
  · exact h.congr hs rfl
  · exact hs

theorem note (hs : I loose s) (p : DetPid) (d : OpenFileId) (slots : ℕ) :
    I loose (s.note p d slots) :=
  h.knowLocks (h.follow hs p d slots) d

theorem release (hs : I loose s) (p : DetPid) (d : OpenFileId) (remaining : ℕ) :
    I loose (s.release p d remaining) := by
  unfold Ledger.release
  split
  · exact hs
  split
  · exact hs
  · rename_i table hp
    exact h.setReferences hs hp d remaining

theorem foldl_waiterLeft (ds : List OpenFileId) :
    ∀ {s : Ledger}, I (loose ∪ { d | d ∈ ds }) s → I loose (ds.foldl Ledger.flockWaiterLeft s) := by
  induction ds with
  | nil => exact fun hs => h.mono hs (by simp)
  | cons d ds ih =>
    intro s hs
    refine ih (h.waiterLeft (h.mono hs ?_))
    intro e he
    simp only [Set.mem_union, Set.mem_ofPred_eq, mem_cons, Set.mem_insert_iff] at he ⊢
    tauto

theorem dropWaiters (hs : I loose s) (gone : FlockWaiter → Bool) :
    I loose (s.flockDropWaiters gone) :=
  h.foldl_waiterLeft _ (h.removeWaiters hs gone)

/-! ### Processes -/

theorem fork (hs : I loose s) (parent child : DetPid) (shares : Bool) :
    I loose (s.fork parent child shares) := by
  have hstar : I loose ((s.forgetProcess child).inherit parent child) :=
    h.congr (h.forgetProcess hs child) rfl
  have hchd : ((s.forgetProcess child).inherit parent child).processTable[child]? = none :=
    s.processTable_forgetProcess child
  unfold Ledger.fork
  dsimp only
  split
  · exact hstar
  · split
    · exact h.useTable hstar hchd _
    · exact h.copyReferences (h.tableOf hstar child) (processTable_tableOf _ child) _

theorem exec (hs : I loose s) (p : DetPid) : I loose (s.exec p) := by
  have hended : I loose ((s.flockDropWaiters fun w => decide (w.process = p)).unmap p) :=
    h.congr (h.dropWaiters hs _) rfl
  exact h.congr (h.moveTable hended p) rfl

omit h in
/-- A table a process uses is given slots, one description after another. -/
theorem foldl_setReferences {α : Type} {f : Ledger → α → Ledger} {p : DetPid} {table : Table}
    (hf : ∀ s a, I loose s → s.processTable[p]? = some table →
      I loose (f s a) ∧ (f s a).processTable = s.processTable) (as : List α)
    (hs : I loose s) (hp : s.processTable[p]? = some table) :
    I loose (as.foldl f s) ∧ (as.foldl f s).processTable[p]? = some table :=
  foldlRecOn as f (motive := fun s => I loose s ∧ s.processTable[p]? = some table) ⟨hs, hp⟩
    fun s hs a _ => ⟨(hf s a hs.1 hs.2).1, (hf s a hs.1 hs.2).2 ▸ hs.2⟩

theorem execKept (hs : I loose s) (p : DetPid) (surviving : List (OpenFileId × ℕ)) :
    I loose (s.execKept p surviving) := by
  have haft : I loose { s with afterExec := s.afterExec.erase p } := h.congr hs rfl
  have hmade := h.tableOf haft p
  have huse := processTable_tableOf { s with afterExec := s.afterExec.erase p } p
  set made := ({ s with afterExec := s.afterExec.erase p } : Ledger).tableOf p
  have hcls : I loose (made.2.closePending p made.1 surviving) ∧
      (made.2.closePending p made.1 surviving).processTable[p]? = some made.1 := by
    unfold closePending
    split
    · refine foldl_setReferences (fun s entry hs hp => ?_) _ (h.congr hmade rfl) huse
      exact ⟨h.setReferences hs hp entry.1 0, s.processTable_setReferences entry.1 _ 0⟩
    · exact ⟨hmade, huse⟩
  refine (foldl_setReferences (fun s survivor hs hp => ?_) surviving hcls.1 hcls.2).1
  unfold keepSurvivor
  split
  · refine ⟨h.knowLocks (h.setReferences hs hp _ _) _, ?_⟩
    rw [← s.processTable_setReferences survivor.1 made.1 survivor.2]
    unfold Ledger.knowLocks
    split <;> rfl
  · exact ⟨hs, rfl⟩

theorem pruneTables (hs : I loose s) (alive : DetPid → Bool) : I loose (s.pruneTables alive) :=
  foldlRecOn _ _ (foldlRecOn _ _ hs fun _ hs table _ => h.dropTable hs table)
    fun _ hs p _ => h.forgetProcess hs p

theorem retainAlive (hs : I loose s) (alive : DetPid → Bool) : I loose (s.retainAlive alive) :=
  h.congr hs rfl

theorem prune (hs : I loose s) (alive : DetPid → Bool) : I loose (s.prune alive) := by
  have hexit : I loose (s.setExiting (s.exitingProcesses alive)) := h.congr hs rfl
  have hrmvd := h.removeWaiters hexit fun w => decide (w.process ∈ s.exitingProcesses alive)
  have hreta := h.retainAlive hrmvd alive
  exact h.congr (h.foldl_waiterLeft _ (h.pruneTables hreta alive)) rfl

/-! ### Inodes -/

theorem placeholderFlock (hs : I loose s) (p : DetPid) (request : PlaceholderFlock) :
    I loose (s.placeholderFlock p request).2 := by
  have hnoted := h.note hs p request.openFile request.slots
  have hkeep : ∀ holders, I loose ((s.note p request.openFile request.slots).setHolders request.key
      holders) := fun _ => h.congr hnoted rfl
  unfold Ledger.placeholderFlock
  split
  · exact hs
  split
  · exact hs
  · cases request.mode with
    | none => exact hkeep _
    | some mode =>
      dsimp only
      split_ifs
      · exact hkeep _
      · exact hnoted
      · exact hkeep _
      · exact hkeep _
      · exact hkeep _

theorem leaveModel (hs : I loose s) (key : FlockInodeKey) (reason : FlockRefusal) :
    I loose (s.leaveModel key reason) := by
  refine h.modifyInode hs (fun i hi => .of_sameLocks ?_ hi) key
  split <;> exact ⟨rfl, rfl⟩

theorem flockUnfollowable (hs : I loose s) (d : OpenFileId) : I loose (s.flockUnfollowable d) := by
  unfold Ledger.flockUnfollowable
  split
  · exact hs
  · exact h.leaveModel hs _ _

theorem flockTakeLagging (hs : I loose s) (key : FlockInodeKey) (mode : FlockMode) :
    I loose (s.flockTakeLagging key mode).2 := by
  unfold Ledger.flockTakeLagging
  split
  · exact hs
  · refine h.modifyInode hs ?_ key
    exact fun i hi => .of_sameLocks ⟨rfl, rfl⟩ hi

/-! ### Calls -/

theorem openCall (hs : I loose s) (p : DetPid) (request : FlockRequest) :
    I loose (s.openCall p request) := by
  have hset : I loose (s.setHostFallback request.hostFallback) := h.congr hs rfl
  have hkept := h.keepInode hset request.inode request.object
  unfold Ledger.openCall
  dsimp only
  split
  · exact h.leaveModel hkept _ _
  · exact hkept

theorem enterCall {request : FlockRequest} (hadmi : admits request) (hs : I loose s)
    (p : DetPid) : I loose (s.enterCall p request) := by
  have hset := h.setInode hadmi (h.follow hs p request.openFile request.slots)
  unfold Ledger.enterCall
  split
  · exact h.congr hset rfl
  · exact hset

theorem flock {request : FlockRequest} (hadmi : admits request) (hs : I loose s) (p : DetPid)
    (t : DetTid) : I loose (s.flock p t request).2 := by
  have hopen := h.openCall hs p request
  have hente := h.enterCall hadmi hopen p
  have hfoll : I loose ((s.openCall p request).followCall p t request) :=
    h.dropWaiters hente _
  unfold Ledger.flock
  dsimp only
  split
  · exact hopen
  split
  · exact hopen
  split
  · exact hopen
  split
  · exact hfoll
  all_goals
    rename_i hsome
    have hdone := h.call hadmi hente hfoll hsome
  · split
    · exact hdone
    · exact h.flockTakeLagging hdone _ _
  · exact hdone
  · exact hdone
  · exact hdone
  · exact hdone

theorem flockRetry (hs : I loose s) {key : FlockInodeKey} {w : FlockWaiter}
    (hi : s.flockInodes[key]? = some i) (hw : i.waiter w.thread = some w)
    (hwok : w.blocker = none) : I loose (s.flockRetry key i w).2 := by
  unfold Ledger.flockRetry
  split
  · exact hs
  all_goals
    rename_i hsome
    have hdone := h.retry hs hi hw hwok hsome
  · exact hdone
  · split
    · exact h.dropWaiters (h.modifyInode hdone (fun _ hj => .deleteLock hj _) key) _
    · refine h.dropWaiters ?_ _
      split
      · exact h.flockTakeLagging hdone _ _
      · exact hdone
  · exact h.dropWaiters hdone _

theorem flockPoll (hs : I loose s) (t : DetTid) : I loose (s.flockPoll t).2 := by
  unfold Ledger.flockPoll
  split
  · exact hs
  split
  · exact hs
  rename_i i hi
  split
  · -- The inode left the model: the call's request goes, and then its own reference.
    exact h.foldl_waiterLeft _ (h.removeWaiter hs hi t)
  split
  · exact hs
  rename_i w hw
  split
  · exact hs
  · rename_i hbloc
    have hthd := key_of_lookup hw
    refine h.flockRetry hs hi (by rwa [hthd]) ?_
    simpa using hbloc

/-! ### Runs -/

theorem step (hs : I loose s) {event : Event}
    (hevt : ∀ p t request, event = .flock p t request → admits request) :
    I loose (s.step event) := by
  cases event with
  | flock p t request => exact h.flock (hevt p t request rfl) hs p t
  | poll t => exact h.flockPoll hs t
  | cancel t => exact h.dropWaiters hs _
  | close p d remaining => exact h.release hs p d remaining
  | closing p d remaining mapped mapsInode =>
    refine h.congr hs ?_
    show core (s.flockCloseRefusal p d remaining mapped mapsInode).2 = core s
    unfold flockCloseRefusal
    split
    · rfl
    · dsimp only
      split_ifs <;> rfl
  | fork parent child shares => exact h.fork hs parent child shares
  | exec p => exact h.exec hs p
  | execKept p surviving => exact h.execKept hs p surviving
  | sending ds =>
    show I loose (if ds.any s.holdsPlaceholderFlock then s else ds.foldl Ledger.countCopy s)
    split
    · exact hs
    · exact foldlRecOn ds _ hs fun _ hs d _ => h.countCopy hs d
  | unsent ds => exact foldlRecOn ds _ hs fun _ hs d _ => h.uncountCopy hs d
  | received d => exact h.uncountCopy hs d
  | note p d slots => exact h.note hs p d slots
  | placeholderFlock p request => exact h.placeholderFlock hs p request
  | prune alive => exact h.prune hs alive
  | markPrivateTables p =>
    have hmark : I loose { s with tainted := insert p s.tainted } := h.congr hs rfl
    exact foldlRecOn _ _ hmark fun _ hs key _ => h.leaveModel hs key .privateTable
  | unfollowable d => exact h.flockUnfollowable hs d
  | execRebuildsTable p =>
    show I loose (s.flockExecRebuildsTable p)
    unfold flockExecRebuildsTable
    split
    · exact hs
    · exact foldlRecOn _ _ hs fun _ hs d _ => h.flockUnfollowable hs d
  | hostDecided key object =>
    refine h.modifyInode (h.keepInode hs key object) ?_ key
    exact fun i hi => .of_sameLocks ⟨rfl, rfl⟩ hi
  | mapped p d =>
    show I loose (if s.flockInodeOf.contains d then s.addMapper p d else s)
    split
    · exact h.congr hs rfl
    · exact hs
  | tornDown p => exact h.tearDown hs p

/-- An invariant of the empty ledger that every change keeps holds of every run. -/
theorem run (hemp : I ∅ empty) {events : List Event}
    (heven : ∀ p t request, .flock p t request ∈ events → admits request) : I ∅ (run events) :=
  foldlRecOn events Ledger.step hemp fun _ hs _ hevt =>
    h.step hs fun p t request heq => heven p t request (heq ▸ hevt)

end Kept

end Ledger

end Hermit.Flock
