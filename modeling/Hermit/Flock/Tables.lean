import Hermit.Flock.Trees

/-!
# The descriptor tables of a ledger

Every table that names a description is the table of some process (`Ledger.namedTables_run`). While
an operation runs there may be others, which no process uses yet or any longer: they are a parameter
of `NamedTables`.
-/

namespace Hermit.Flock

open Common OrdMap Std.ExtTreeMap

namespace Ledger

variable {s s' : Ledger}

/-- Every table that names a description does so in some slot and is the table of some process or
one of `others`, and an owner of a table uses it. -/
structure NamedTables (others : Set Table) (s : Ledger) : Prop where
  nonempty : ∀ (d : OpenFileId) (tables : OrdMap Table ℕ), s.references[d]? = some tables →
    tables.isEmpty = false
  slots : ∀ (d : OpenFileId) (tables : OrdMap Table ℕ) (t : Table) (n : ℕ),
    s.references[d]? = some tables → tables[t]? = some n → 0 < n
  used : ∀ (d : OpenFileId) (tables : OrdMap Table ℕ) (t : Table) (n : ℕ),
    s.references[d]? = some tables → tables[t]? = some n →
      t ∈ others ∨ ∃ p : DetPid, s.processTable[p]? = some t
  owned : ∀ (t : Table) (owners : Finset DetPid) (p : DetPid), s.owners[t]? = some owners →
    p ∈ owners → s.processTable[p]? = some t

variable {others : Set Table}

theorem SameTables.namedTables (h : s.SameTables s') (hs : s.NamedTables others) :
    s'.NamedTables others where
  nonempty := h.references ▸ hs.nonempty
  slots := h.references ▸ hs.slots
  used := h.references ▸ h.processTable ▸ hs.used
  owned := h.owners ▸ h.processTable ▸ hs.owned

theorem NamedTables.congr (hs : s.NamedTables others) (h : s.SameTables s') :
    s'.NamedTables others := h.namedTables hs

theorem NamedTables.mono {others' : Set Table} (h : s.NamedTables others)
    (hsub : others ⊆ others') : s.NamedTables others' where
  nonempty := h.nonempty
  slots := h.slots
  used := fun d tables t n hd ht => (h.used d tables t n hd ht).imp_left fun hmem => hsub hmem
  owned := h.owned

/-- The tables that name a description once `setReferences` gave one of them other slots. -/
def withSlots (tables : OrdMap Table ℕ) (table : Table) (slots : ℕ) : OrdMap Table ℕ :=
  if slots = 0 then tables.erase table else tables.insert table slots

theorem getElem?_withSlots (tables : OrdMap Table ℕ) (table t : Table) (slots : ℕ) :
    (withSlots tables table slots)[t]? =
      if table = t then (if slots = 0 then none else some slots) else tables[t]? := by
  unfold withSlots
  by_cases hslots : slots = 0
  · rw [if_pos hslots, if_pos hslots]
    exact getElem?_erase_ite _ _ _
  · rw [if_neg hslots, if_neg hslots]
    exact getElem?_insert_ite _ _ _ _

theorem references_setReferences (s : Ledger) (d e : OpenFileId) (table : Table) (slots : ℕ) :
    (s.setReferences d table slots).references[e]? =
      if d = e then
        (if (withSlots (s.references[d]?.getD ∅) table slots).isEmpty then none
          else some (withSlots (s.references[d]?.getD ∅) table slots))
      else s.references[e]? := by
  have herase : (s.unreference d).references[e]? = if d = e then none else s.references[e]? :=
    getElem?_erase_ite _ _ _
  unfold setReferences
  dsimp only
  rw [show (if slots = 0 then (s.references[d]?.getD ∅).erase table
    else (s.references[d]?.getD ∅).insert table slots) =
      withSlots (s.references[d]?.getD ∅) table slots from rfl]
  by_cases hemp : (withSlots (s.references[d]?.getD ∅) table slots).isEmpty = true
  · rw [if_pos hemp, if_pos hemp]
    split
    · exact herase
    · have hlast := (((s.unreference d).forget d).sameTables_flockLastReference d).references
      show (((s.unreference d).forget d).flockLastReference d).references[e]? = _
      rw [hlast]
      exact herase
  · rw [if_neg hemp, if_neg hemp]
    exact getElem?_insert_ite _ _ _ _

theorem owners_setReferences (s : Ledger) (d : OpenFileId) (table : Table) (slots : ℕ) :
    (s.setReferences d table slots).owners = s.owners := by
  unfold setReferences
  dsimp only
  split_ifs
  all_goals first
    | rfl
    | exact (((s.unreference d).forget d).sameTables_flockLastReference d).owners

variable {d : OpenFileId} {table : Table} {tables : OrdMap Table ℕ} {p : DetPid}

theorem slots_setReferences {e : OpenFileId} {t : Table} {slots n : ℕ}
    (he : (s.setReferences d table slots).references[e]? = some tables) (ht : tables[t]? = some n) :
    (d = e ∧ table = t ∧ slots ≠ 0 ∧ n = slots) ∨
      ¬(d = e ∧ table = t) ∧ ∃ before, s.references[e]? = some before ∧ before[t]? = some n := by
  rw [references_setReferences] at he
  by_cases hde : d = e
  · subst hde
    rw [if_pos rfl] at he
    split at he
    · cases he
    · cases he
      rw [getElem?_withSlots] at ht
      by_cases htable : table = t
      · rw [if_pos htable] at ht
        split at ht
        · cases ht
        · rename_i hslots
          exact .inl ⟨rfl, htable, hslots, (Option.some.inj ht).symm⟩
      · rw [if_neg htable] at ht
        refine .inr ⟨fun h => htable h.2, ?_⟩
        cases hbef : s.references[d]? with
        | none =>
          rw [hbef] at ht
          cases ht
        | some before =>
          rw [hbef] at ht
          exact ⟨before, rfl, ht⟩
  · rw [if_neg hde] at he
    exact .inr ⟨fun h => hde h.1, tables, he, ht⟩

theorem NamedTables.setReferences (h : s.NamedTables others) (d : OpenFileId)
    {slots : ℕ} (huse : slots = 0 ∨ table ∈ others ∨ ∃ p : DetPid, s.processTable[p]? = some table) :
    (s.setReferences d table slots).NamedTables others where
  nonempty := by
    intro e tables he
    rw [references_setReferences] at he
    split at he
    · split at he
      · cases he
      · rename_i hemp
        cases he
        simpa using hemp
    · exact h.nonempty e tables he
  slots := by
    intro e tables t n he ht
    rcases slots_setReferences he ht with ⟨-, -, hslots, rfl⟩ | ⟨-, before, hbef, hn⟩
    · omega
    · exact h.slots e before t n hbef hn
  used := by
    intro e tables t n he ht
    rw [processTable_setReferences]
    rcases slots_setReferences he ht with ⟨-, rfl, hslots, -⟩ | ⟨-, before, hbef, hn⟩
    · exact huse.resolve_left hslots
    · exact h.used e before t n hbef hn
  owned := by
    rw [owners_setReferences, processTable_setReferences]
    exact h.owned

theorem NamedTables.useTable
    (h : s.NamedTables (insert table others)) (hp : s.processTable[p]? = none) :
    (s.useTable p table).NamedTables others := by
  have hkeep : ∀ (q : DetPid) (t : Table), s.processTable[q]? = some t →
      (s.useTable p table).processTable[q]? = some t := by
    intro q t hq
    have hne : p ≠ q := by
      rintro rfl
      rw [hp] at hq
      cases hq
    rw [← hq]
    exact getElem?_insert_ne _ hne _
  have hself : (s.useTable p table).processTable[p]? = some table :=
    getElem?_insert_same _ _ _
  refine ⟨h.nonempty, h.slots, ?_, ?_⟩
  · intro d tables t n hd ht
    rcases h.used d tables t n hd ht with (rfl | hoth) | ⟨q, hq⟩
    · exact .inr ⟨p, hself⟩
    · exact .inl hoth
    · exact .inr ⟨q, hkeep q t hq⟩
  · intro t owners q howns hq
    have hget : (s.useTable p table).owners[t]? =
        if table = t then some (insert p (s.owners[table]?.getD ∅)) else s.owners[t]? :=
      getElem?_insert_ite _ _ _ _
    rw [hget] at howns
    by_cases ht : table = t
    · subst ht
      rw [if_pos rfl] at howns
      cases howns
      rcases Finset.mem_insert.mp hq with rfl | hq
      · exact hself
      · cases hbef : s.owners[table]? with
        | none =>
          rw [hbef] at hq
          cases hq
        | some before =>
          rw [hbef] at hq
          exact hkeep q table (h.owned table before q hbef hq)
    · rw [if_neg ht] at howns
      exact hkeep q t (h.owned t owners q howns hq)

/-! ### Dropping a table -/

theorem NamedTables.disown (h : s.NamedTables (insert table others)) :
    (s.disown table).NamedTables (insert table others) := by
  have hget : ∀ q : DetPid, (s.disown table).processTable[q]? = s.processTable[q]?.filter
      fun used => !(decide (q ∈ s.owners[table]?.getD ∅) && decide (used = table)) := fun q =>
    getElem?_filter'
  have hkeep : ∀ (q : DetPid) (t : Table), s.processTable[q]? = some t → t ≠ table →
      (s.disown table).processTable[q]? = some t := by
    intro q t hq ht
    rw [hget, hq]
    simp [ht]
  refine ⟨h.nonempty, h.slots, ?_, ?_⟩
  · intro d tables t n hd hn
    rcases h.used d tables t n hd hn with hoth | ⟨q, hq⟩
    · exact .inl hoth
    · by_cases ht : t = table
      · exact .inl (ht ▸ Set.mem_insert _ _)
      · exact .inr ⟨q, hkeep q t hq ht⟩
  · intro t owners q howns hq
    have howns' : (s.disown table).owners[t]? = if table = t then none else s.owners[t]? :=
      getElem?_erase_ite _ _ _
    rw [howns'] at howns
    by_cases ht : table = t
    · rw [if_pos ht] at howns
      cases howns
    · rw [if_neg ht] at howns
      exact hkeep q t (h.owned t owners q howns hq) (Ne.symm ht)

theorem not_named_dropTable
    (hd : (s.dropTable table).references[d]? = some tables) : tables[table]? = none := by
  have hloop : ∀ (ds : List OpenFileId) (s : Ledger) (e : OpenFileId) (tables : OrdMap Table ℕ),
      (ds.foldl (fun s d => s.setReferences d table 0) s).references[e]? = some tables →
      ∃ before, s.references[e]? = some before ∧
        (∀ n, tables[table]? = some n → e ∉ ds ∧ before[table]? = some n) := by
    intro ds
    induction ds using List.reverseRecOn with
    | nil =>
      intro s e tables he
      exact ⟨tables, he, fun n hn => ⟨by simp, hn⟩⟩
    | append_singleton ds d ih =>
      intro s e tables he
      rw [List.foldl_append, List.foldl_cons, List.foldl_nil] at he
      rw [references_setReferences] at he
      set mid := ds.foldl (fun s d => s.setReferences d table 0) s
      by_cases hde : d = e
      · subst hde
        rw [if_pos rfl] at he
        split at he
        · cases he
        · rename_i hemp
          cases hmid : mid.references[d]? with
          | none =>
            rw [hmid] at hemp
            exact absurd (by rfl) hemp
          | some m =>
            obtain ⟨before, hbef, -⟩ := ih s d m hmid
            refine ⟨before, hbef, fun n hn => ?_⟩
            cases he
            rw [getElem?_withSlots, if_pos rfl, if_pos rfl] at hn
            cases hn
      · rw [if_neg hde] at he
        obtain ⟨before, hbef, hnone⟩ := ih s e tables he
        refine ⟨before, hbef, fun n hn => ⟨?_, (hnone n hn).2⟩⟩
        have := (hnone n hn).1
        simp only [List.mem_append, List.mem_singleton, not_or]
        exact ⟨this, fun h => hde h.symm⟩
  obtain ⟨before, hbef, hnone⟩ := hloop _ _ d tables hd
  rw [Option.eq_none_iff_forall_ne_some]
  intro n hn
  exact (hnone n hn).1 ((mem_keys _ d).mpr ⟨before, hbef⟩)

theorem NamedTables.dropTable (h : s.NamedTables (insert table others)) :
    (s.dropTable table).NamedTables others := by
  have hloop : ∀ (ds : List OpenFileId) (s : Ledger), s.NamedTables (insert table others) →
      (ds.foldl (fun s d => s.setReferences d table 0) s).NamedTables (insert table others) := by
    intro ds
    induction ds with
    | nil => exact fun s hs => hs
    | cons d ds ih => exact fun s hs => ih _ (hs.setReferences d (.inl rfl))
  have hdrop : (s.dropTable table).NamedTables (insert table others) := hloop _ _ h.disown
  refine ⟨hdrop.nonempty, hdrop.slots, ?_, hdrop.owned⟩
  intro d tables t n hd hn
  rcases hdrop.used d tables t n hd hn with (rfl | hoth) | hused
  · rw [not_named_dropTable hd] at hn
    cases hn
  · exact .inl hoth
  · exact .inr hused

theorem NamedTables.leaveTable (h : s.NamedTables others) (hp : s.processTable[p]? = some table) :
    (s.leaveTable p table).NamedTables (insert table others) := by
  have hget : ∀ q : DetPid, (s.leaveTable p table).processTable[q]? =
      if p = q then none else s.processTable[q]? := fun q => getElem?_erase_ite _ _ _
  have howns : ∀ (t : Table) (owners : Finset DetPid),
      (s.leaveTable p table).owners[t]? = some owners →
      ∃ before, s.owners[t]? = some before ∧ ∀ q ∈ owners, q ∈ before ∧ (t = table → q ≠ p) := by
    intro t owners ht
    unfold Ledger.leaveTable at ht
    cases hbef : s.owners[table]? with
    | none =>
      rw [hbef] at ht
      refine ⟨owners, ht, fun q hq => ⟨hq, ?_⟩⟩
      rintro rfl
      rw [hbef] at ht
      cases ht
    | some before =>
      rw [hbef] at ht
      rw [getElem?_insert_ite] at ht
      split at ht
      · rename_i htable
        subst htable
        cases ht
        refine ⟨before, hbef, fun q hq => ⟨Finset.mem_of_mem_erase hq, fun _ => ?_⟩⟩
        exact Finset.ne_of_mem_erase hq
      · rename_i htable
        exact ⟨owners, ht, fun q hq => ⟨hq, fun h => absurd h.symm htable⟩⟩
  refine ⟨h.nonempty, h.slots, ?_, ?_⟩
  · intro d tables t n hd hn
    rcases h.used d tables t n hd hn with hoth | ⟨q, hq⟩
    · exact .inl (.inr hoth)
    · by_cases hpq : p = q
      · subst hpq
        rw [hp] at hq
        cases hq
        exact .inl (.inl rfl)
      · exact .inr ⟨q, by rw [hget, if_neg hpq]; exact hq⟩
  · intro t owners q ht hq
    obtain ⟨before, hbef, hmem⟩ := howns t owners ht
    obtain ⟨hq', hne⟩ := hmem q hq
    have hused := h.owned t before q hbef hq'
    have hpq : p ≠ q := by
      rintro rfl
      rw [hp] at hused
      exact hne (Option.some.inj hused).symm rfl
    rw [hget, if_neg hpq]
    exact hused

theorem NamedTables.forgetProcess (h : s.NamedTables others) (p : DetPid) :
    (s.forgetProcess p).NamedTables others := by
  unfold Ledger.forgetProcess
  cases hp : s.processTable[p]? with
  | none => exact h
  | some table =>
    have hleave := h.leaveTable hp
    dsimp only
    split
    · exact hleave.dropTable
    · rename_i hleft
      obtain ⟨q, hq⟩ := Finset.nonempty_iff_ne_empty.mpr hleft
      have huse : (s.leaveTable p table).processTable[q]? = some table := by
        cases howns : (s.leaveTable p table).owners[table]? with
        | none =>
          rw [howns] at hq
          cases hq
        | some owners =>
          rw [howns] at hq
          exact hleave.owned table owners q howns hq
      refine ⟨hleave.nonempty, hleave.slots, ?_, hleave.owned⟩
      intro d tables t n hd hn
      rcases hleave.used d tables t n hd hn with (rfl | hoth) | hused
      · exact .inr ⟨q, huse⟩
      · exact .inl hoth
      · exact .inr hused

/-! ### Processes -/

theorem getElem?_copyTable {copy t : Table} {n : ℕ}
    (h : (copyTable table copy tables)[t]? = some n) :
    tables[t]? = some n ∨ t = copy ∧ tables[table]? = some n := by
  unfold copyTable at h
  cases hslots : tables[table]? with
  | none =>
    rw [hslots] at h
    exact .inl h
  | some slots =>
    rw [hslots] at h
    rw [getElem?_insert_ite] at h
    split at h
    · rename_i hcopy
      exact .inr ⟨hcopy.symm, h⟩
    · exact .inl h

theorem NamedTables.copyReferences (h : s.NamedTables others) (table : Table) {copy : Table}
    (hp : s.processTable[p]? = some copy) : (s.copyReferences table copy).NamedTables others := by
  have hget : ∀ (d : OpenFileId) (tables : OrdMap Table ℕ),
      (s.copyReferences table copy).references[d]? = some tables →
      ∃ before, s.references[d]? = some before ∧ copyTable table copy before = tables := by
    intro d tables hd
    have hmap : (s.copyReferences table copy).references[d]? =
        s.references[d]?.map (copyTable table copy) := getElem?_map
    rw [hmap] at hd
    exact Option.map_eq_some_iff.mp hd
  refine ⟨?_, ?_, ?_, h.owned⟩
  · intro d tables hd
    obtain ⟨before, hbef, rfl⟩ := hget d tables hd
    unfold copyTable
    split
    · exact isEmpty_eq_false_iff.mpr insert_ne_empty
    · exact h.nonempty d before hbef
  · intro d tables t n hd hn
    obtain ⟨before, hbef, rfl⟩ := hget d tables hd
    rcases getElem?_copyTable hn with hn | ⟨-, hn⟩
    · exact h.slots d before t n hbef hn
    · exact h.slots d before table n hbef hn
  · intro d tables t n hd hn
    obtain ⟨before, hbef, rfl⟩ := hget d tables hd
    rcases getElem?_copyTable hn with hn | ⟨rfl, -⟩
    · exact h.used d before t n hbef hn
    · exact .inr ⟨p, hp⟩

theorem NamedTables.alsoNamed (htable : table ∈ others) {entry : OpenFileId × ℕ}
    (hent : 0 < entry.2) {references : OrdMap OpenFileId (OrdMap Table ℕ)}
    (h : ({ s with references := references } : Ledger).NamedTables others) :
    ({ s with references := Ledger.alsoNamed table references entry } : Ledger).NamedTables
      others := by
  have hget : ∀ (d : OpenFileId) (tables : OrdMap Table ℕ),
      (Ledger.alsoNamed table references entry)[d]? = some tables → tables.isEmpty = false ∧
        ∀ (t : Table) (n : ℕ), tables[t]? = some n → t = table ∧ n = entry.2 ∨
          ∃ before, references[d]? = some before ∧ before[t]? = some n := by
    intro d tables hd
    unfold Ledger.alsoNamed at hd
    cases hbef : references[entry.1]? with
    | none =>
      rw [hbef] at hd
      exact ⟨h.nonempty d tables hd, fun t n hn => .inr ⟨tables, hd, hn⟩⟩
    | some before =>
      rw [hbef] at hd
      rw [getElem?_insert_ite] at hd
      split at hd
      · rename_i hd'
        subst hd'
        cases hd
        refine ⟨isEmpty_eq_false_iff.mpr insert_ne_empty, fun t n hn => ?_⟩
        rw [getElem?_insert_ite] at hn
        split at hn
        · rename_i ht
          exact .inl ⟨ht.symm, (Option.some.inj hn).symm⟩
        · exact .inr ⟨before, hbef, hn⟩
      · exact ⟨h.nonempty d tables hd, fun t n hn => .inr ⟨tables, hd, hn⟩⟩
  refine ⟨fun d tables hd => (hget d tables hd).1, ?_, ?_, h.owned⟩
  · intro d tables t n hd hn
    rcases (hget d tables hd).2 t n hn with ⟨-, rfl⟩ | ⟨before, hbef, hn⟩
    · exact hent
    · exact h.slots d before t n hbef hn
  · intro d tables t n hd hn
    rcases (hget d tables hd).2 t n hn with ⟨rfl, -⟩ | ⟨before, hbef, hn⟩
    · exact .inl htable
    · exact h.used d before t n hbef hn

theorem NamedTables.moveTable (h : s.NamedTables others) (p : DetPid)
    {held : List (OpenFileId × ℕ)} (hheld : ∀ entry ∈ held, 0 < entry.2) :
    (s.moveTable p held).NamedTables others := by
  have hloop : ∀ (held : List (OpenFileId × ℕ)) (references : OrdMap OpenFileId (OrdMap Table ℕ)),
      (∀ entry ∈ held, 0 < entry.2) →
      ({ s with references := references } : Ledger).NamedTables (insert s.nextTable others) →
      ({ s with references := held.foldl (Ledger.alsoNamed s.nextTable) references } :
        Ledger).NamedTables (insert s.nextTable others) := by
    intro held
    induction held with
    | nil => exact fun _ _ hs => hs
    | cons entry held ih =>
      intro references hpos hs
      refine ih _ (fun e he => hpos e (List.mem_cons_of_mem _ he)) ?_
      exact NamedTables.alsoNamed (Set.mem_insert _ _) (hpos entry List.mem_cons_self) hs
  have hnam := hloop held s.references hheld (h.mono (Set.subset_insert _ _))
  have hnext : ({ s with
      nextTable := s.nextTable + 1
      references := held.foldl (Ledger.alsoNamed s.nextTable) s.references } :
        Ledger).NamedTables (insert s.nextTable others) :=
    ⟨hnam.nonempty, hnam.slots, hnam.used, hnam.owned⟩
  exact (hnext.forgetProcess p).useTable (processTable_forgetProcess _ p)

theorem mem_slotsOf {entry : OpenFileId × ℕ} (h : entry ∈ s.slotsOf table) :
    ∃ tables, s.references[entry.1]? = some tables ∧ tables[table]? = some entry.2 := by
  obtain ⟨⟨d, tables⟩, hmem, hslots⟩ := List.mem_filterMap.mp h
  obtain ⟨n, hn, rfl⟩ := Option.map_eq_some_iff.mp hslots
  exact ⟨tables, (mem_toList _ d tables).mp hmem, hn⟩

theorem NamedTables.held_pos (h : s.NamedTables others) (p : DetPid) :
    ∀ entry ∈ (s.execTable p).1, 0 < entry.2 := by
  intro entry hent
  have hnam := (List.mem_filter.mp hent).1
  cases hp : s.processTable[p]? with
  | none =>
    rw [hp] at hnam
    cases hnam
  | some table =>
    rw [hp] at hnam
    obtain ⟨tables, htabl, hslots⟩ := mem_slotsOf hnam
    exact h.slots entry.1 tables table entry.2 htabl hslots

/-! ## Runs -/

theorem namedTables_empty : empty.NamedTables ∅ where
  nonempty := by
    intro d tables hd
    simp [empty] at hd
  slots := by
    intro d tables t n hd
    simp [empty] at hd
  used := by
    intro d tables t n hd
    simp [empty] at hd
  owned := by
    intro t owners p ht
    simp [empty] at ht

theorem sameTables_flockWaiterLeft (s : Ledger) (d : OpenFileId) :
    s.SameTables (s.flockWaiterLeft d) := by
  unfold flockWaiterLeft
  split
  · exact s.sameTables_flockLastReference d
  · exact .refl s

theorem sameTables_uncountCopy (s : Ledger) (d : OpenFileId) : s.SameTables (s.uncountCopy d) := by
  unfold uncountCopy
  split
  · exact .refl s
  · dsimp only
    split_ifs
    · exact ⟨rfl, rfl, rfl⟩
    · have hgone : s.SameTables ((s.uncounted d).forget d) := ⟨rfl, rfl, rfl⟩
      exact hgone.trans (sameTables_flockLastReference _ d)
    · exact ⟨rfl, rfl, rfl⟩

theorem sameTables_keepInode (s : Ledger) (key : FlockInodeKey) (object : String) :
    s.SameTables (s.keepInode key object) := by
  unfold keepInode
  split
  · exact .refl s
  · exact ⟨rfl, rfl, rfl⟩

theorem sameTables_flockAttempt {key : FlockInodeKey} {t : DetTid}
    {mode : Option FlockMode} {nonblocking dropped : Bool} {a : FlockAttempt}
    (h : s.flockAttempt key t p d mode nonblocking = some (a, dropped, s')) : s.SameTables s' := by
  obtain ⟨i, -, rfl⟩ := flockAttempt_eq_some h
  exact ⟨rfl, rfl, rfl⟩

theorem kept_namedTables : Kept (fun _ => True) fun _ s => s.NamedTables ∅ where
  mono hs _ := hs
  congr hs hcore := by
    simp only [core, Prod.mk.injEq] at hcore
    exact hs.congr ⟨hcore.2.2.2.1, hcore.2.2.2.2.1, hcore.2.2.2.2.2⟩
  setReferences hs hp d _ := hs.setReferences d (.inr (.inr ⟨_, hp⟩))
  dropTable hs table := (hs.mono (Set.subset_insert table _)).dropTable
  forgetProcess hs p := hs.forgetProcess p
  useTable hs hp table := (hs.mono (Set.subset_insert table _)).useTable hp
  copyReferences hs hp table := hs.copyReferences table hp
  moveTable hs p := hs.moveTable p (hs.held_pos p)
  modifyInode hs _ key := hs.congr (sameTables_modifyInode _ key _)
  tearDown hs _ := hs.congr ⟨rfl, rfl, rfl⟩
  keepInode hs key object := hs.congr (sameTables_keepInode _ key object)
  countCopy hs _ := hs.congr ⟨rfl, rfl, rfl⟩
  uncountCopy hs d := hs.congr (sameTables_uncountCopy _ d)
  removeWaiters hs _ := hs.congr ⟨rfl, rfl, rfl⟩
  removeWaiter hs _ _ := hs.congr ⟨rfl, rfl, rfl⟩
  waiterLeft hs := hs.congr (sameTables_flockWaiterLeft _ _)
  setInode _ hs := hs.congr ⟨rfl, rfl, rfl⟩
  call _ _ hs hsome := hs.congr (sameTables_flockAttempt hsome)
  retry hs _ _ _ hsome := hs.congr (sameTables_flockAttempt hsome)

theorem namedTables_run (events : List Event) : (run events).NamedTables ∅ :=
  kept_namedTables.run namedTables_empty fun _ _ _ _ => trivial

end Ledger

end Hermit.Flock
