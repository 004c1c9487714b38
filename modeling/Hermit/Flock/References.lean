import Hermit.Flock.Tables

/-!
# References keep locks

Every lock the model has granted belongs to a description that is still referenced: by a slot of the
table of some process, by a copy in flight, or by a waiting call (`Ledger.run_lockSafety`).

While an operation runs some descriptions may have lost their last reference: they are a parameter of
`Followed`.
-/

namespace Hermit.Flock

open Common OrdMap Std.ExtTreeMap

/-- A `flock` call names its description in a slot of the caller's table, and a description is on
one inode. -/
def Event.Admissible (ino : OpenFileId → FlockInodeKey) : Event → Prop
  | .flock _ _ request => 1 ≤ request.slots ∧ request.inode = ino request.openFile
  | _ => True

namespace Ledger

variable {s s' : Ledger}

/-- Some waiting call names the description. -/
def WaitedOn (s : Ledger) (d : OpenFileId) : Prop := ∃ t key, s.Waits t key d

structure Followed (ino : OpenFileId → FlockInodeKey) (loose : Set OpenFileId) (s : Ledger) :
    Prop where
  trees : s.Trees
  lockInode : ∀ (key : FlockInodeKey) (i : FlockInode) (d : OpenFileId) (m : FlockMode),
    s.flockInodes[key]? = some i → i.Grants d m → s.flockInodeOf[d]? = some key
  callInode : ∀ (t : DetTid) (key : FlockInodeKey) (d : OpenFileId), s.Waits t key d →
    s.flockInodeOf[d]? = some key
  keyed : ∀ (d : OpenFileId) (key : FlockInodeKey), s.flockInodeOf[d]? = some key → key = ino d
  copies : ∀ (d : OpenFileId) (n : ℕ), s.inFlight[d]? = some n → 0 < n
  held : ∀ (key : FlockInodeKey) (i : FlockInode) (d : OpenFileId) (m : FlockMode),
    s.flockInodes[key]? = some i → i.Grants d m →
      d ∈ loose ∨ s.references.contains d = true ∨ s.inFlight.contains d = true ∨ s.WaitedOn d

variable {ino : OpenFileId → FlockInodeKey} {loose : Set OpenFileId}

/-- The locks and calls are the same, and no description lost its last table. -/
structure SameCalls (s s' : Ledger) : Prop where
  flockInodes : s'.flockInodes = s.flockInodes
  flockInodeOf : s'.flockInodeOf = s.flockInodeOf
  inFlight : s'.inFlight = s.inFlight
  references : ∀ d, s.references.contains d = true → s'.references.contains d = true

theorem SameCalls.waits (h : s.SameCalls s') (t : DetTid) (key : FlockInodeKey) (d : OpenFileId) :
    s'.Waits t key d ↔ s.Waits t key d := by
  unfold Waits
  rw [h.flockInodes]

theorem Followed.congr (hs : s.Followed ino loose) (h : s.SameCalls s') :
    s'.Followed ino loose where
  trees := hs.trees.congr h.flockInodes
  lockInode := h.flockInodes ▸ h.flockInodeOf ▸ hs.lockInode
  callInode := by
    intro t key d hw
    rw [h.flockInodeOf]
    exact hs.callInode t key d ((h.waits t key d).mp hw)
  keyed := h.flockInodeOf ▸ hs.keyed
  copies := h.inFlight ▸ hs.copies
  held := by
    intro key i d m hi hd
    rw [h.flockInodes] at hi
    rw [h.inFlight]
    refine (hs.held key i d m hi hd).imp_right (.imp (h.references d) (.imp_right ?_))
    exact fun ⟨t, k, hw⟩ => ⟨t, k, (h.waits t k d).mpr hw⟩

/-- Whatever keeps a description in `loose` otherwise. -/
theorem Followed.tighten (hs : s.Followed ino loose) {loose' : Set OpenFileId}
    (h : ∀ d ∈ loose, d ∈ loose' ∨ s.references.contains d = true ∨ s.inFlight.contains d = true ∨
      s.WaitedOn d ∨ ∀ (key : FlockInodeKey) (i : FlockInode) (m : FlockMode),
        s.flockInodes[key]? = some i → ¬i.Grants d m) : s.Followed ino loose' where
  trees := hs.trees
  lockInode := hs.lockInode
  callInode := hs.callInode
  keyed := hs.keyed
  copies := hs.copies
  held := by
    intro key i d m hi hd
    rcases hs.held key i d m hi hd with hloose | hkept
    · rcases h d hloose with hloose | href | hcopy | hwait | hnone
      · exact .inl hloose
      · exact .inr (.inl href)
      · exact .inr (.inr (.inl hcopy))
      · exact .inr (.inr (.inr hwait))
      · exact absurd hd (hnone key i m hi)
    · exact .inr hkept

theorem Followed.mono (hs : s.Followed ino loose) {loose' : Set OpenFileId}
    (hsub : loose ⊆ loose') : s.Followed ino loose' :=
  hs.tighten fun _ hd => .inl (hsub hd)

variable {i i' : FlockInode} {key : FlockInodeKey} {d : OpenFileId} {request : FlockRequest}

/-- Locks and calls stay followed through a change that adds none. A call that is gone
    no longer keeps its description. -/
theorem Followed.lose (hs : s.Followed ino loose) {loose' : Set OpenFileId} (hloses : s.Loses s')
    (hinode : s'.flockInodeOf = s.flockInodeOf) (hcopi : s'.inFlight = s.inFlight)
    (hrefs : s'.references = s.references) (hsub : loose ⊆ loose')
    (hwaits : ∀ t k d, s.Waits t k d → d ∈ loose' ∨ s'.WaitedOn d) : s'.Followed ino loose' := by
  refine ⟨hloses.trees hs.trees, ?_, ?_, hinode ▸ hs.keyed, hcopi ▸ hs.copies, ?_⟩
  · intro k i' d m hi' hd
    obtain ⟨i, hi, h⟩ := hloses hs.trees k i' hi'
    rw [hinode]
    exact hs.lockInode k i d m hi (h.grants d m hd)
  · intro t k d hw
    rw [hinode]
    exact hs.callInode t k d (hloses.waits hs.trees hw)
  · intro k i' d m hi' hd
    obtain ⟨i, hi, h⟩ := hloses hs.trees k i' hi'
    rw [hrefs, hcopi]
    rcases hs.held k i d m hi (h.grants d m hd) with hloose | href | hcopy | ⟨t, k', hw⟩
    · exact .inl (hsub hloose)
    · exact .inr (.inl href)
    · exact .inr (.inr (.inl hcopy))
    · exact (hwaits t k' d hw).imp_right fun hw' => .inr (.inr hw')

theorem Followed.ease (hs : s.Followed ino loose) {f : FlockInodeKey → FlockInode → FlockInode}
    (hf : ∀ (k : FlockInodeKey) (i : FlockInode), i.Consistent → Eases i (f k i))
    (hget : ∀ k : FlockInodeKey, s'.flockInodes[k]? = s.flockInodes[k]?.map (f k))
    (hinode : s'.flockInodeOf = s.flockInodeOf) (hcopi : s'.inFlight = s.inFlight)
    (hrefs : s'.references = s.references) : s'.Followed ino loose := by
  have hloses : s.Loses s' := by
    intro _ k i' hi'
    rw [hget] at hi'
    obtain ⟨i, hi, rfl⟩ := Option.map_eq_some_iff.mp hi'
    exact ⟨i, hi, (hf k i (hs.trees.consistent k i hi)).loses⟩
  refine hs.lose hloses hinode hcopi hrefs subset_rfl ?_
  rintro t k d ⟨i, m, b, hi, hr⟩
  obtain ⟨c, hc⟩ := ((hf k i (hs.trees.consistent k i hi)).calls t d m).mpr ⟨b, hr⟩
  refine .inr ⟨t, k, f k i, m, c, ?_, hc⟩
  rw [hget, hi, Option.map_some]

theorem Followed.modifyInode (hs : s.Followed ino loose)
    {f : FlockInode → FlockInode} (hf : ∀ i : FlockInode, i.Consistent → Eases i (f i)) :
    (s.modifyInode key f).Followed ino loose := by
  have hfiel : (s.modifyInode key f).flockInodeOf = s.flockInodeOf ∧
      (s.modifyInode key f).inFlight = s.inFlight := by
    unfold Ledger.modifyInode
    split
    · exact ⟨rfl, rfl⟩
    · exact ⟨rfl, rfl⟩
  refine hs.ease (f := fun k i => if key = k then f i else i) ?_ ?_ hfiel.1 hfiel.2
    (s.sameTables_modifyInode key f).references
  · intro k i hi
    split
    · exact hf i hi
    · exact .of_sameLocks ⟨rfl, rfl⟩ hi
  · intro k
    rw [flockInodes_modifyInode]
    split
    · rfl
    · exact Option.map_id'.symm

theorem flockWaitedOn_iff (h : s.Trees) (d : OpenFileId) :
    s.flockWaitedOn d = true ↔ s.WaitedOn d := by
  unfold flockWaitedOn
  rw [List.any_eq_true]
  constructor
  · rintro ⟨i, hi, hany⟩
    obtain ⟨key, hkey⟩ := (mem_values _ i).mp hi
    obtain ⟨w, hw, hd⟩ := List.any_eq_true.mp hany
    refine ⟨w.thread, key, i, w.mode, w.blocker, hkey, ?_⟩
    exact (FlockInode.requests_iff_mem (h.consistent key i hkey).threads).mpr
      ⟨w, hw, rfl, of_decide_eq_true hd, rfl, rfl⟩
  · rintro ⟨t, key, i, m, b, hi, w, hw, hd, -⟩
    refine ⟨i, (mem_values _ i).mpr ⟨key, hi⟩, List.any_eq_true.mpr ⟨w, ?_, ?_⟩⟩
    · exact mem_of_lookup hw
    · exact decide_eq_true hd

/-- A description without locks and calls need not be followed. -/
theorem Followed.unfollow (hs : s.Followed ino (insert d loose))
    (hlocks : ∀ (key : FlockInodeKey) (i : FlockInode) (m : FlockMode),
      s.flockInodes[key]? = some i → ¬i.Grants d m) (hcal : ¬s.WaitedOn d) :
    (s.unfollow d).Followed ino loose := by
  have hget : ∀ e, (s.unfollow d).flockInodeOf[e]? = if d = e then none else s.flockInodeOf[e]? :=
    fun e => getElem?_erase_ite _ _ _
  refine ⟨hs.trees.congr rfl, ?_, ?_, ?_, hs.copies, ?_⟩
  · intro key i e m hi he
    rw [hget, if_neg]
    · exact hs.lockInode key i e m hi he
    · rintro rfl
      exact hlocks key i m hi he
  · intro t key e hw
    rw [hget, if_neg]
    · exact hs.callInode t key e hw
    · rintro rfl
      exact hcal ⟨t, key, hw⟩
  · intro e key he
    rw [hget] at he
    split at he
    · cases he
    · exact hs.keyed e key he
  · intro key i e m hi he
    rcases hs.held key i e m hi he with (rfl | hloose) | hkept
    · exact absurd he (hlocks key i m hi)
    · exact .inl hloose
    · exact .inr hkept

theorem unfollow_modifyInode (s : Ledger) (d : OpenFileId) (key : FlockInodeKey)
    (f : FlockInode → FlockInode) :
    (s.unfollow d).modifyInode key f = (s.modifyInode key f).unfollow d := by
  unfold modifyInode
  cases hi : s.flockInodes[key]? with
  | none =>
    have hi' : (s.unfollow d).flockInodes[key]? = none := hi
    rw [hi']
  | some i =>
    have hi' : (s.unfollow d).flockInodes[key]? = some i := hi
    rw [hi']
    rfl

theorem Followed.flockLastReference (hs : s.Followed ino (insert d loose)) :
    (s.flockLastReference d).Followed ino loose := by
  unfold Ledger.flockLastReference
  cases hkey : s.flockInodeOf[d]? with
  | none =>
    refine hs.tighten ?_
    rintro e (rfl | he)
    · refine .inr (.inr (.inr (.inr ?_)))
      intro key i m hi hgr
      have := hs.lockInode key i e m hi hgr
      rw [hkey] at this
      exact absurd this (by simp)
    · exact .inl he
  | some key =>
    dsimp only
    split
    · rename_i hwait
      refine hs.tighten ?_
      rintro e (rfl | he)
      · exact .inr (.inr (.inr (.inl ((flockWaitedOn_iff hs.trees e).mp hwait))))
      · exact .inl he
    · rename_i hwait
      rw [unfollow_modifyInode]
      refine (hs.modifyInode fun i hi => s.eases_releaseLast d _ hi).unfollow ?_ ?_
      · intro k i' m hi' hgr
        rw [flockInodes_modifyInode] at hi'
        split at hi'
        · obtain ⟨i, hi, rfl⟩ := Option.map_eq_some_iff.mp hi'
          have hcons := hs.trees.consistent k i hi
          have hdele := ((s.sameLocks_releaseLast d _ i).grants d m).mp hgr
          exact ((hcons.grants_deleteLock d d m).mp hdele).1 rfl
        · rename_i hne
          have := hs.lockInode k i' d m hi' hgr
          rw [hkey] at this
          exact hne (Option.some.inj this)
      · rintro ⟨t, k, hw⟩
        refine hwait ((flockWaitedOn_iff hs.trees d).mpr ⟨t, k, ?_⟩)
        exact (Loses.modifyInode fun i hi => s.eases_releaseLast d _ hi).waits hs.trees hw

/-! ### References that come and go -/

theorem Followed.setReferences (hs : s.Followed ino loose) (d : OpenFileId) (table : Table)
    (slots : ℕ) : (s.setReferences d table slots).Followed ino loose := by
  have hgone : ((s.unreference d).forget d).Followed ino (insert d loose) := by
    refine ⟨hs.trees.congr rfl, hs.lockInode, hs.callInode, hs.keyed, hs.copies, ?_⟩
    intro key i e m hi he
    have hcont : ((s.unreference d).forget d).references.contains e =
        (!decide (d = e) && s.references.contains e) := by
      show (s.references.erase d).contains e = _
      rw [contains_erase]
      by_cases hde : d = e
      · simp [hde]
      · simp [hde]
    rcases hs.held key i e m hi he with hloose | href | hkept
    · exact .inl (.inr hloose)
    · by_cases hde : d = e
      · exact .inl (.inl hde.symm)
      · exact .inr (.inl (by rw [hcont, href]; simpa using hde))
    · exact .inr (.inr hkept)
  unfold Ledger.setReferences
  dsimp only
  by_cases hemp : (if slots = 0 then (s.references[d]?.getD ∅).erase table
      else (s.references[d]?.getD ∅).insert table slots).isEmpty = true
  · rw [if_pos hemp]
    split
    · rename_i hcopy
      have htight : ((s.unreference d).forget d).Followed ino loose := by
        refine hgone.tighten ?_
        rintro e (rfl | he)
        · exact .inr (.inr (.inl hcopy))
        · exact .inl he
      exact htight.congr ⟨rfl, rfl, rfl, fun _ he => he⟩
    · exact hgone.flockLastReference.congr ⟨rfl, rfl, rfl, fun _ he => he⟩
  · rw [if_neg hemp]
    refine hs.congr ⟨rfl, rfl, rfl, ?_⟩
    intro e he
    rw [contains_insert, he, Bool.or_true]

theorem Followed.setCopies (hs : s.Followed ino loose) (d : OpenFileId) {count : ℕ}
    (hcnt : 0 < count) :
    ({ s with inFlight := s.inFlight.insert d count } : Ledger).Followed ino loose := by
  refine ⟨hs.trees.congr rfl, hs.lockInode, hs.callInode, hs.keyed, ?_, ?_⟩
  · intro e n he
    rw [getElem?_insert_ite] at he
    split at he
    · cases he
      exact hcnt
    · exact hs.copies e n he
  · intro key i e m hi he
    refine (hs.held key i e m hi he).imp_right (.imp_right (.imp_left fun hcopy => ?_))
    rw [contains_insert, hcopy, Bool.or_true]

theorem Followed.uncountCopy (hs : s.Followed ino loose) (d : OpenFileId) :
    (s.uncountCopy d).Followed ino loose := by
  unfold Ledger.uncountCopy
  cases hcnt : s.inFlight[d]? with
  | none => exact hs
  | some count =>
    have hpos := hs.copies d count hcnt
    dsimp only
    by_cases hlast : count - 1 = 0
    · rw [if_pos hlast]
      have hget : ∀ e, (s.uncounted d).inFlight[e]? = if d = e then none else s.inFlight[e]? :=
        fun e => getElem?_erase_ite _ _ _
      have hgone : (s.uncounted d).Followed ino (insert d loose) := by
        refine ⟨hs.trees.congr rfl, hs.lockInode, hs.callInode, hs.keyed, ?_, ?_⟩
        · intro e n he
          rw [hget] at he
          split at he
          · cases he
          · exact hs.copies e n he
        · intro key i e m hi he
          by_cases hde : d = e
          · exact .inl (.inl hde.symm)
          refine (hs.held key i e m hi he).imp .inr (.imp_right (.imp_left fun hcopy => ?_))
          obtain ⟨n, hn⟩ := (contains_iff _ e).mp hcopy
          exact (contains_iff _ e).mpr ⟨n, by rw [hget, if_neg hde]; exact hn⟩
      split
      · rename_i href
        refine hgone.tighten ?_
        rintro e (rfl | he)
        · exact .inr (.inl href)
        · exact .inl he
      · have hforg : ((s.uncounted d).forget d).Followed ino (insert d loose) :=
          hgone.congr ⟨rfl, rfl, rfl, fun _ he => he⟩
        exact hforg.flockLastReference
    · rw [if_neg hlast]
      exact hs.setCopies d (by omega)

/-! ### Calls that end -/

theorem mem_flockRemoveWaiters (h : s.Trees) {gone : FlockWaiter → Bool} {t : DetTid}
    (hw : s.Waits t key d) (hnot : ¬(s.flockRemoveWaiters gone).2.Waits t key d) :
    d ∈ (s.flockRemoveWaiters gone).1 := by
  obtain ⟨i, m, b, hi, hr⟩ := hw
  have hspec := (h.consistent key i hi).removeWaiters_spec ((i.waiters.filter gone).map (·.thread))
  refine List.mem_flatMap.mpr ⟨(key, i), (mem_toList _ key i).mpr hi, ?_⟩
  refine (hspec.left d).mpr ⟨t, ?_, m, b, hr⟩
  by_contra hthd
  obtain ⟨c, hc⟩ := (hspec.requests t d m).mpr ⟨hthd, b, hr⟩
  refine hnot ⟨_, m, c, ?_, hc⟩
  rw [flockInodes_flockRemoveWaiters, hi]
  rfl

theorem Followed.flockRemoveWaiters (hs : s.Followed ino loose) (gone : FlockWaiter → Bool) :
    (s.flockRemoveWaiters gone).2.Followed ino
      (loose ∪ { d | d ∈ (s.flockRemoveWaiters gone).1 }) := by
  refine hs.lose (s.loses_flockRemoveWaiters gone) rfl rfl rfl Set.subset_union_left ?_
  intro t k d hw
  by_cases hstays : (s.flockRemoveWaiters gone).2.Waits t k d
  · exact .inr ⟨t, k, hstays⟩
  · exact .inl (.inr (mem_flockRemoveWaiters hs.trees hw hstays))

theorem Followed.flockWaiterLeft (hs : s.Followed ino (insert d loose)) :
    (s.flockWaiterLeft d).Followed ino loose := by
  unfold Ledger.flockWaiterLeft
  split
  · exact hs.flockLastReference
  · rename_i hkept
    refine hs.tighten ?_
    rintro e (rfl | he)
    · rw [← flockWaitedOn_iff hs.trees]
      simp only [Bool.and_eq_true, Bool.not_eq_true', not_and, Bool.not_eq_false] at hkept
      by_cases href : s.references.contains e = true
      · exact .inr (.inl href)
      · by_cases hcopy : s.inFlight.contains e = true
        · exact .inr (.inr (.inl hcopy))
        · exact .inr (.inr (.inr (.inl
            (hkept ⟨(Bool.not_eq_true _).mp href, (Bool.not_eq_true _).mp hcopy⟩))))
    · exact .inl he

/-! ### Processes -/

theorem Followed.dropTable (hs : s.Followed ino loose) (table : Table) :
    (s.dropTable table).Followed ino loose := by
  have hdiso : (s.disown table).Followed ino loose := hs.congr ⟨rfl, rfl, rfl, fun _ he => he⟩
  exact List.foldlRecOn _ _ hdiso fun _ hs d _ => hs.setReferences d table 0

theorem Followed.forgetProcess (hs : s.Followed ino loose) (p : DetPid) :
    (s.forgetProcess p).Followed ino loose := by
  unfold Ledger.forgetProcess
  cases s.processTable[p]? with
  | none => exact hs
  | some table =>
    have hleave : (s.leaveTable p table).Followed ino loose :=
      hs.congr ⟨rfl, rfl, rfl, fun _ he => he⟩
    dsimp only
    split
    · exact hleave.dropTable table
    · exact hleave

theorem sameCalls_copyReferences (s : Ledger) (table copy : Table) :
    s.SameCalls (s.copyReferences table copy) := by
  refine ⟨rfl, rfl, rfl, ?_⟩
  intro d hd
  show (s.references.map fun _ tables => copyTable table copy tables).contains d = true
  rw [contains_map]
  exact hd

theorem contains_alsoNamed (table : Table) (held : List (OpenFileId × ℕ)) :
    ∀ (references : OrdMap OpenFileId (OrdMap Table ℕ)) (d : OpenFileId),
      references.contains d = true → (held.foldl (alsoNamed table) references).contains d = true := by
  induction held with
  | nil => exact fun _ _ hd => hd
  | cons entry held ih =>
    intro references d hd
    refine ih _ d ?_
    unfold alsoNamed
    split
    · exact hd
    · rw [contains_insert, hd, Bool.or_true]

theorem Followed.moveTable (hs : s.Followed ino loose) (p : DetPid)
    (held : List (OpenFileId × ℕ)) : (s.moveTable p held).Followed ino loose := by
  have hnam : ({ s with
      nextTable := s.nextTable + 1
      references := held.foldl (alsoNamed s.nextTable) s.references } : Ledger).Followed ino
        loose :=
    hs.congr ⟨rfl, rfl, rfl, contains_alsoNamed s.nextTable held s.references⟩
  exact (hnam.forgetProcess p).congr ⟨rfl, rfl, rfl, fun _ he => he⟩

theorem Followed.keepInode (hs : s.Followed ino loose) (key : FlockInodeKey) (object : String) :
    (s.keepInode key object).Followed ino loose := by
  have hnone : ∀ (k : FlockInodeKey) (i : FlockInode),
      (s.keepInode key object).flockInodes[k]? = some i →
      s.flockInodes[k]? = some i ∨ i = .new object := by
    intro k i hi
    unfold Ledger.keepInode at hi
    split at hi
    · exact .inl hi
    · rw [flockInodes_setFlockInode] at hi
      split at hi
      · exact .inr (Option.some.inj hi).symm
      · exact .inl hi
  have hwaits : ∀ t k d, (s.keepInode key object).Waits t k d ↔ s.Waits t k d := by
    intro t k d
    constructor
    · rintro ⟨i, m, b, hi, hr⟩
      rcases hnone k i hi with hi | rfl
      · exact ⟨i, m, b, hi, hr⟩
      · exact absurd hr (FlockInode.not_requests_new object t d m b)
    · rintro ⟨i, m, b, hi, hr⟩
      refine ⟨i, m, b, ?_, hr⟩
      unfold Ledger.keepInode
      split
      · exact hi
      · rename_i hcont
        rw [flockInodes_setFlockInode, if_neg]
        · exact hi
        · rintro rfl
          exact hcont ((contains_iff _ key).mpr ⟨i, hi⟩)
  have hfiel : (s.keepInode key object).flockInodeOf = s.flockInodeOf ∧
      (s.keepInode key object).inFlight = s.inFlight ∧
      (s.keepInode key object).references = s.references := by
    unfold Ledger.keepInode
    split
    · exact ⟨rfl, rfl, rfl⟩
    · exact ⟨rfl, rfl, rfl⟩
  obtain ⟨hinode, hcopi, hrefs⟩ := hfiel
  refine ⟨hs.trees.keepInode key object, ?_, ?_, hinode ▸ hs.keyed, hcopi ▸ hs.copies, ?_⟩
  · intro k i d m hi hd
    rw [hinode]
    rcases hnone k i hi with hi | rfl
    · exact hs.lockInode k i d m hi hd
    · exact absurd hd (FlockInode.not_grants_new object d m)
  · intro t k d hw
    rw [hinode]
    exact hs.callInode t k d ((hwaits t k d).mp hw)
  · intro k i d m hi hd
    rw [hcopi, hrefs]
    rcases hnone k i hi with hi | rfl
    · refine (hs.held k i d m hi hd).imp_right (.imp_right (.imp_right ?_))
      exact fun ⟨t, k', hw⟩ => ⟨t, k', (hwaits t k' d).mpr hw⟩
    · exact absurd hd (FlockInode.not_grants_new object d m)

/-! ### Attempts -/

theorem Followed.attempt (hs : s.Followed ino loose) {t : DetTid}
    {process : DetPid} {mode : Option FlockMode} {nonblocking : Bool}
    (hi : s.flockInodes[key]? = some i) (hasks : s.Asks key i t d mode)
    (hinode : s.flockInodeOf[d]? = some key)
    (href : s.references.contains d = true ∨ s.WaitedOn d) :
    (s.setFlockInode key (i.attempt t process d mode nonblocking).2.2).Followed ino loose := by
  have hatte : FlockInode.Attempted i t d (i.attempt t process d mode nonblocking).2.2 :=
    (hs.trees.consistent key i hi).attempt_spec hasks.own
  set i' := (i.attempt t process d mode nonblocking).2.2
  have hwaits : ∀ u k e, s.Waits u k e → (s.setFlockInode key i').Waits u k e := by
    rintro u k e ⟨j, m, b, hj, hr⟩
    by_cases hk : key = k
    · subst hk
      rw [hi] at hj
      cases hj
      obtain ⟨c, hc⟩ := hatte.kept u e m b hr
      exact ⟨i', m, c, by rw [flockInodes_setFlockInode, if_pos rfl], hc⟩
    · exact ⟨j, m, b, by rw [flockInodes_setFlockInode, if_neg hk]; exact hj, hr⟩
  refine ⟨hs.trees.attempt hi hasks, ?_, ?_, hs.keyed, hs.copies, ?_⟩
  · intro k j e m hj he
    rw [flockInodes_setFlockInode] at hj
    split at hj
    · rename_i hk
      subst hk
      cases hj
      rcases hatte.grants e m he with he | rfl
      · exact hs.lockInode key i e m hi he
      · exact hinode
    · exact hs.lockInode k j e m hj he
  · rintro u k e ⟨j, m, b, hj, hr⟩
    rw [flockInodes_setFlockInode] at hj
    split at hj
    · rename_i hk
      subst hk
      cases hj
      rcases hatte.requests u e m b hr with ⟨c, hc⟩ | ⟨-, rfl⟩
      · exact hs.callInode u key e ⟨i, m, c, hi, hc⟩
      · exact hinode
    · exact hs.callInode u k e ⟨j, m, b, hj, hr⟩
  · have hkept : ∀ e, e ∈ loose ∨ s.references.contains e = true ∨ s.inFlight.contains e = true ∨
        s.WaitedOn e → e ∈ loose ∨ s.references.contains e = true ∨
          s.inFlight.contains e = true ∨ (s.setFlockInode key i').WaitedOn e := fun e =>
      .imp_right (.imp_right (.imp_right fun ⟨u, k, hw⟩ => ⟨u, k, hwaits u k e hw⟩))
    intro k j e m hj he
    rw [flockInodes_setFlockInode] at hj
    split at hj
    · cases hj
      rcases hatte.grants e m he with he | rfl
      · exact hkept e (hs.held key i e m hi he)
      · exact hkept e (.inr (href.imp_right .inr))
    · exact hkept e (hs.held k j e m hj he)

theorem contains_follow (s : Ledger) (p : DetPid) (d : OpenFileId) {slots : ℕ} (h : 1 ≤ slots) :
    (s.follow p d slots).references.contains d = true := by
  refine (contains_iff _ d).mpr
    ⟨withSlots ((s.tableOf p).2.references[d]?.getD ∅) (s.tableOf p).1 slots, ?_⟩
  have hemp : (withSlots ((s.tableOf p).2.references[d]?.getD ∅) (s.tableOf p).1
      slots).isEmpty = false := by
    unfold withSlots
    rw [if_neg (by omega)]
    exact isEmpty_eq_false_iff.mpr insert_ne_empty
  show ((s.tableOf p).2.setReferences d (s.tableOf p).1 slots).references[d]? = _
  rw [references_setReferences, if_pos rfl, hemp]
  rfl

/-- A call that ends leaves what is kept of a description some table names. -/
theorem flockInodeOf_flockWaiterLeft {e : OpenFileId} (h : s.references.contains d = true) :
    (s.flockWaiterLeft e).flockInodeOf[d]? = s.flockInodeOf[d]? := by
  unfold flockWaiterLeft
  split
  · rename_i hgone
    have hne : e ≠ d := by
      rintro rfl
      rw [h] at hgone
      cases hgone
    unfold flockLastReference
    split
    · rfl
    split
    · rfl
    · rw [unfollow_modifyInode]
      have hfield : ∀ key f, (s.modifyInode key f).flockInodeOf = s.flockInodeOf := by
        intro key f
        unfold modifyInode
        split
        · rfl
        · rfl
      show ((s.modifyInode _ _).flockInodeOf.erase e)[d]? = _
      rw [hfield, getElem?_erase_ne _ hne]
  · rfl

theorem flockInodeOf_flockDropWaiters (gone : FlockWaiter → Bool)
    (h : s.references.contains d = true) :
    (s.flockDropWaiters gone).flockInodeOf[d]? = s.flockInodeOf[d]? := by
  have hloop : ∀ (ds : List OpenFileId) (s : Ledger), s.references.contains d = true →
      (ds.foldl flockWaiterLeft s).flockInodeOf[d]? = s.flockInodeOf[d]? := by
    intro ds
    induction ds with
    | nil => exact fun _ _ => rfl
    | cons e ds ih =>
      intro s hd
      have hd' : (s.flockWaiterLeft e).references.contains d = true := by
        rw [(s.sameTables_flockWaiterLeft e).references]
        exact hd
      exact (ih _ hd').trans (flockInodeOf_flockWaiterLeft hd)
  exact hloop _ (s.flockRemoveWaiters gone).2 h

theorem references_flockDropWaiters (s : Ledger) (gone : FlockWaiter → Bool) :
    (s.flockDropWaiters gone).references = s.references :=
  List.foldlRecOn _ _ (motive := fun s' : Ledger => s'.references = s.references) rfl
    fun s' hs' d _ => (s'.sameTables_flockWaiterLeft d).references.trans hs'

theorem Followed.setInode (hs : s.Followed ino loose) (d : OpenFileId) :
    (s.setInode d (ino d)).Followed ino loose := by
  have hget : ∀ e, (s.setInode d (ino d)).flockInodeOf[e]? =
      if d = e then some (ino d) else s.flockInodeOf[e]? :=
    fun e => getElem?_insert_ite _ _ _ _
  have hsame : ∀ (e : OpenFileId) (key : FlockInodeKey), s.flockInodeOf[e]? = some key →
      (s.setInode d (ino d)).flockInodeOf[e]? = some key := by
    intro e key he
    rw [hget]
    split
    · rename_i hd
      rw [hd, hs.keyed _ key he]
    · exact he
  refine ⟨hs.trees.congr rfl, ?_, ?_, ?_, hs.copies, hs.held⟩
  · intro key i e m hi he
    exact hsame e key (hs.lockInode key i e m hi he)
  · intro t key e hw
    exact hsame e key (hs.callInode t key e hw)
  · intro e key he
    rw [hget] at he
    split at he
    · rename_i hd
      cases he
      rw [hd]
    · exact hs.keyed e key he

/-- What a call finds at its first attempt. -/
theorem followCall_spec (s : Ledger) (p : DetPid) (t : DetTid) (hslots : 1 ≤ request.slots) :
    (s.followCall p t request).references.contains request.openFile = true ∧
      (s.followCall p t request).flockInodeOf[request.openFile]? = some request.inode := by
  have hfoll := s.contains_follow p request.openFile hslots
  have henter : (s.enterCall p request).references.contains request.openFile = true ∧
      (s.enterCall p request).flockInodeOf[request.openFile]? = some request.inode := by
    unfold enterCall
    split
    · exact ⟨hfoll, getElem?_insert_same _ _ _⟩
    · exact ⟨hfoll, getElem?_insert_same _ _ _⟩
  refine ⟨?_, ?_⟩
  · show ((s.enterCall p request).flockDropWaiters _).references.contains request.openFile = true
    rw [references_flockDropWaiters]
    exact henter.1
  · exact (flockInodeOf_flockDropWaiters _ henter.1).trans henter.2

/-- A call's request goes, and then its own reference. -/
theorem Followed.removeWaiter (hs : s.Followed ino loose) (hi : s.flockInodes[key]? = some i)
    (t : DetTid) : (s.setFlockInode key (i.removeWaiter t).2).Followed ino
      (loose ∪ { d | d ∈ (i.removeWaiter t).1.toList.map (·.openFile) }) := by
  obtain ⟨hcons, hreq, hgr, hleft⟩ := (hs.trees.consistent key i hi).removeWaiter_spec t
  have hloses := (hs.trees.consistent key i hi).loses_removeWaiter t
  refine hs.lose (Loses.setFlockInode hi hloses) rfl rfl rfl Set.subset_union_left ?_
  rintro u k d ⟨l, n, b, hl, hr⟩
  by_cases hk : key = k
  · subst hk
    cases hi.symm.trans hl
    by_cases hu : u = t
    · subst hu
      exact .inl (.inr ((hleft d).mpr ⟨n, b, hr⟩))
    · obtain ⟨c, hc⟩ := (hreq u d n).mpr ⟨hu, b, hr⟩
      refine .inr ⟨u, key, (i.removeWaiter t).2, n, c, ?_, hc⟩
      rw [flockInodes_setFlockInode, if_pos rfl]
  · refine .inr ⟨u, k, l, n, b, ?_, hr⟩
    rw [flockInodes_setFlockInode, if_neg hk]
    exact hl

/-! ## Runs -/

theorem followed_empty (ino : OpenFileId → FlockInodeKey) : empty.Followed ino ∅ where
  trees := trees_empty
  lockInode := by
    intro key i d m hi
    simp [empty] at hi
  callInode := by
    rintro t key d ⟨i, m, b, hi, -⟩
    simp [empty] at hi
  keyed := by
    intro d key hd
    simp [empty] at hd
  copies := by
    intro d n hd
    simp [empty] at hd
  held := by
    intro key i d m hi
    simp [empty] at hi

theorem kept_followed (ino : OpenFileId → FlockInodeKey) :
    Kept (fun request => 1 ≤ request.slots ∧ request.inode = ino request.openFile)
      fun loose s => s.Followed ino loose where
  mono hs hsub := hs.mono hsub
  congr hs hcore := by
    simp only [core, Prod.mk.injEq] at hcore
    obtain ⟨hinod, hinode, hcopi, hrefs, -⟩ := hcore
    exact hs.congr ⟨hinod, hinode, hcopi, fun d hd => hrefs ▸ hd⟩
  setReferences hs _ d slots := hs.setReferences d _ slots
  dropTable hs table := hs.dropTable table
  forgetProcess hs p := hs.forgetProcess p
  useTable hs _ _ := hs.congr ⟨rfl, rfl, rfl, fun _ he => he⟩
  copyReferences hs _ table := hs.congr (sameCalls_copyReferences _ table _)
  moveTable hs p := hs.moveTable p _
  modifyInode hs hf _ := hs.modifyInode hf
  tearDown hs p := hs.ease (f := fun _ i => { i with lagging := i.lagging.erase p })
    (fun _ _ hi => .of_sameLocks ⟨rfl, rfl⟩ hi) (fun _ => getElem?_map) rfl rfl rfl
  keepInode hs key object := hs.keepInode key object
  countCopy hs d := hs.setCopies d (Nat.succ_pos _)
  uncountCopy hs d := hs.uncountCopy d
  removeWaiters hs gone := hs.flockRemoveWaiters gone
  removeWaiter hs hi t := hs.removeWaiter hi t
  waiterLeft hs := hs.flockWaiterLeft
  setInode hadmi hs := hadmi.2 ▸ hs.setInode _
  call hadmi hente hs hsome := by
    obtain ⟨i, hi, rfl⟩ := flockAttempt_eq_some hsome
    obtain ⟨href, hkey⟩ := followCall_spec _ _ _ hadmi.1
    exact hs.attempt hi (hente.trees.asks_call hi _ _) hkey (.inl href)
  retry hs hi hw hwok hsome := by
    obtain ⟨j, hj, rfl⟩ := flockAttempt_eq_some hsome
    cases hi.symm.trans hj
    have hwaits : Waits _ _ _ _ := ⟨_, _, none, hi, _, hw, rfl, rfl, hwok⟩
    exact hs.attempt hi (hs.trees.asks_retry hi hw hwok) (hs.callInode _ _ _ hwaits)
      (.inr ⟨_, _, hwaits⟩)

theorem followed_run (ino : OpenFileId → FlockInodeKey) {events : List Event}
    (h : ∀ event ∈ events, event.Admissible ino) : (run events).Followed ino ∅ :=
  (kept_followed ino).run (followed_empty ino) fun p t request hmem => h (.flock p t request) hmem

/-- A slot of the table of some process, a copy in flight or a waiting call references the
description. -/
def Referenced (s : Ledger) (d : OpenFileId) : Prop :=
  (∃ (p : DetPid) (table : Table) (tables : OrdMap Table ℕ) (slots : ℕ),
    s.processTable[p]? = some table ∧ s.references[d]? = some tables ∧
      tables[table]? = some slots ∧ 0 < slots) ∨
  (∃ copies : ℕ, s.inFlight[d]? = some copies ∧ 0 < copies) ∨
  ∃ t key, s.Waits t key d

theorem NamedTables.referenced (h : s.NamedTables ∅)
    (hd : s.references.contains d = true) : s.Referenced d := by
  obtain ⟨tables, htabl⟩ := (contains_iff _ d).mp hd
  have hne : tables ≠ ∅ := isEmpty_eq_false_iff.mp (h.nonempty d tables htabl)
  have hent : ∃ (t : Table) (n : ℕ), tables[t]? = some n := by
    by_contra hnone
    refine hne (ext_getElem? fun t => ?_)
    rw [getElem?_empty, Option.eq_none_iff_forall_ne_some]
    exact fun n hn => hnone ⟨t, n, hn⟩
  obtain ⟨t, n, hn⟩ := hent
  obtain ⟨p, hp⟩ := (h.used d tables t n htabl hn).resolve_left (Set.notMem_empty t)
  exact .inl ⟨p, t, tables, n, hp, htabl, hn, h.slots d tables t n htabl hn⟩

structure LockSafety (s : Ledger) : Prop where
  /-- A description holds one lock on an inode. -/
  single : ∀ (key : FlockInodeKey) (i : FlockInode), s.flockInodes[key]? = some i →
    (i.granted.map (·.openFile)).Nodup
  /-- A description holds locks on one inode. -/
  oneInode : ∀ (key key' : FlockInodeKey) (i i' : FlockInode) (g g' : FlockGrant),
    s.flockInodes[key]? = some i → s.flockInodes[key']? = some i' → g ∈ i.granted →
      g' ∈ i'.granted → g.openFile = g'.openFile → key = key'
  exclusive : ∀ (key : FlockInodeKey) (i : FlockInode) (g g' : FlockGrant),
    s.flockInodes[key]? = some i → g ∈ i.granted → g' ∈ i.granted → g.openFile ≠ g'.openFile →
      g.mode.conflictsWith g'.mode = false
  referenced : ∀ (key : FlockInodeKey) (i : FlockInode) (g : FlockGrant),
    s.flockInodes[key]? = some i → g ∈ i.granted → s.Referenced g.openFile

theorem Followed.lockSafety (hs : s.Followed ino ∅) (htabl : s.NamedTables ∅) : s.LockSafety := by
  have hgr : ∀ (key : FlockInodeKey) (i : FlockInode) (g : FlockGrant),
      s.flockInodes[key]? = some i → g ∈ i.granted → i.Grants g.openFile g.mode := by
    intro key i g hi hg
    exact (FlockInode.grants_iff_mem (hs.trees.consistent key i hi).holders).mpr ⟨g, hg, rfl, rfl⟩
  refine ⟨fun key i hi => (hs.trees.consistent key i hi).holders, ?_, ?_, ?_⟩
  · intro key key' i i' g g' hi hi' hg hg' hsame
    have hkey := hs.lockInode key i _ _ hi (hgr key i g hi hg)
    have hkey' := hs.lockInode key' i' _ _ hi' (hgr key' i' g' hi' hg')
    rw [← hsame, hkey] at hkey'
    exact Option.some.inj hkey'
  · intro key i g g' hi hg hg' hne
    exact (hs.trees.consistent key i hi).exclusive _ _ _ _ (hgr key i g hi hg)
      (hgr key i g' hi hg') hne
  · intro key i g hi hg
    rcases hs.held key i _ _ hi (hgr key i g hi hg) with hloose | href | hcopy | hwait
    · exact absurd hloose (Set.notMem_empty _)
    · exact htabl.referenced href
    · obtain ⟨n, hn⟩ := (contains_iff _ _).mp hcopy
      exact .inr (.inl ⟨n, hn, hs.copies _ n hn⟩)
    · exact .inr (.inr hwait)

/-- Whatever the ledger is told, each description holds at most one lock, no two locks of different
descriptions conflict, and every lock's description is still referenced. -/
theorem run_lockSafety (ino : OpenFileId → FlockInodeKey) (events : List Event)
    (h : ∀ event ∈ events, event.Admissible ino) : (run events).LockSafety :=
  (followed_run ino h).lockSafety (namedTables_run events)

/-- One process takes a lock and closes its descriptor while another waits for it. -/
def handOver : List Event :=
  [.flock 1 1 ⟨7, "file", 1, 1, some .exclusive, false, false, false⟩,
    .flock 2 2 ⟨7, "file", 2, 1, some .exclusive, false, false, false⟩,
    .close 1 1 0, .poll 2]

theorem run_lockSafety_handOver : (run (handOver.take 2)).holdsModelFlock 1 = true ∧
    (run handOver).holdsModelFlock 1 = false ∧ (run handOver).holdsModelFlock 2 = true ∧
    (run handOver).LockSafety := by
  refine ⟨by decide +kernel, by decide +kernel, by decide +kernel, ?_⟩
  refine run_lockSafety (fun _ => 7) handOver ?_
  intro event hevt
  simp only [handOver, List.mem_cons, List.not_mem_nil, or_false] at hevt
  rcases hevt with rfl | rfl | rfl | rfl
  · exact ⟨le_rfl, rfl⟩
  · exact ⟨le_rfl, rfl⟩
  · trivial
  · trivial

end Ledger

end Hermit.Flock
