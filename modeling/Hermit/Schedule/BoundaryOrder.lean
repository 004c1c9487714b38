import Hermit.Common.Keyed
import Hermit.Schedule.Boundary

/-!
# The order of accepted boundaries

What the decoder of slice-boundary schedules ensures of the whole stream by comparing
each boundary with the latest of its owner, its thread ID and its birth identity.

* `decoded_boundaries_ordered`
-/

namespace Hermit.Boundary

open Common List

/-! ## Owners -/

namespace Owner

/-- The first owner is the second one, or has a lower rank. -/
def NotAfter {ρ : Type} [Preorder ρ] (rank : Owner → ρ) (a b : Owner) : Prop :=
  a = b ∨ rank a < rank b

section NotAfter

variable {ρ : Type} [Preorder ρ] {rank : Owner → ρ} {a b c : Owner}

theorem NotAfter.trans (hab : NotAfter rank a b) (hbc : NotAfter rank b c) : NotAfter rank a c := by
  rcases hab with rfl | hab
  · exact hbc
  rcases hbc with rfl | hbc
  · exact .inr hab
  · exact .inr (hab.trans hbc)

theorem NotAfter.antisymm (hab : NotAfter rank a b) (hba : NotAfter rank b a) : a = b := by
  rcases hab with heq | hab
  · exact heq
  rcases hba with heq | hba
  · exact heq.symm
  · exact absurd (hab.trans hba) (lt_irrefl _)

end NotAfter

/-- The rank among the owners of a thread ID. -/
def tidRank (owner : Owner) : ℕ ×ₗ ℕ := toLex (owner.threadGeneration, owner.addressSpaceGeneration)

/-- What the check on the thread ID ensures. -/
theorem notAfter_of_tid_check {owner last : Owner} (htid : last.tid = owner.tid)
    (h : ¬ owner.movedBackwards last) : NotAfter tidRank last owner := by
  unfold movedBackwards at h
  push Not at h
  obtain ⟨hle, heq⟩ := h
  rcases Nat.lt_or_eq_of_le hle with hlt | hgen
  · exact .inr (Prod.Lex.toLex_lt_toLex.mpr (.inl hlt))
  · obtain ⟨hbirth, hbirt, hspace, hcrea⟩ := heq hgen.symm
    rcases Nat.lt_or_eq_of_le hspace with hlt | hspace
    · exact .inr (Prod.Lex.toLex_lt_toLex.mpr (.inr ⟨hgen, hlt⟩))
    · -- all six fields agree
      left
      obtain ⟨⟩ := last
      obtain ⟨⟩ := owner
      simp_all

theorem notAfter_of_birth_check {owner last : Owner} (h : ¬ owner.movedWithoutExec last) :
    NotAfter addressSpaceGeneration last owner := by
  unfold movedWithoutExec at h
  push Not at h
  rcases Nat.lt_or_eq_of_le h.1 with hlt | heq
  · exact .inr hlt
  · exact .inl (h.2 heq.symm).symm

end Owner

/-! ## The boundaries seen so far -/

namespace Identity

/-- A boundary follows another of its owner. -/
structure Follows (a b : Identity) : Prop where
  slice : b.slice = a.slice + 1
  checkin : a.checkin ≤ b.checkin
  committedRcbs : a.committedRcbs ≤ b.committedRcbs

theorem checkPrevious_some {id last : Identity} {invalid : String → Error}
    (h : id.checkPrevious invalid (some last) = .ok ()) : Follows last id := by
  unfold checkPrevious at h
  obtain ⟨hslice, h⟩ := throwIf_eq_ok.mp h
  obtain ⟨hcoun, -⟩ := throwIf_eq_ok.mp h
  rw [not_or, Nat.not_lt, Nat.not_lt] at hcoun
  exact ⟨(checkedAdd_eq_some (not_not.mp hslice)).1, hcoun.1, hcoun.2⟩

theorem checkPrevious_none {id : Identity} {invalid : String → Error}
    (h : id.checkPrevious invalid none = .ok ()) : id.slice = 1 := by
  unfold checkPrevious at h
  by_contra hslice
  rw [if_pos hslice] at h
  cases h

end Identity

/-- What holds of a list of boundaries. -/
structure Ordered (ids : List Identity) : Prop where
  first : ∀ owner id, (ofKey Identity.owner owner ids).head? = some id → id.slice = 1
  follows : ∀ owner, (ofKey Identity.owner owner ids).IsChain Identity.Follows
  tid : ∀ tid, (ofKey (fun id => id.owner.tid) tid ids).IsChain
    fun a b => Owner.NotAfter Owner.tidRank a.owner b.owner
  birth : ∀ birth, (ofKey (fun id => id.owner.birth) birth ids).IsChain
    fun a b => Owner.NotAfter Owner.addressSpaceGeneration a.owner b.owner

structure Along (seen : Seen) (ids : List Identity) : Prop where
  previous : Latest Identity.owner id seen.previous ids
  latestOwner : Latest (fun id => id.owner.tid) Identity.owner seen.latestOwner ids
  latestBirth : Latest (fun id => id.owner.birth) Identity.owner seen.latestBirth ids
  ordered : Ordered ids

theorem along_nil : Along {} [] :=
  ⟨latest_nil _ _, latest_nil _ _, latest_nil _ _, fun _ _ h => absurd h (Option.some_ne_none _).symm,
    fun _ => isChain_nil, fun _ => isChain_nil, fun _ => isChain_nil⟩

theorem Along.validateBoundary {seen seen' : Seen} {ids : List Identity} {index : ℕ}
    {boundary : TimesliceEnd} (h : Along seen ids)
    (hok : seen.validateBoundary index boundary = .ok seen') :
    Along seen' (ids ++ [boundary.identity]) := by
  obtain ⟨⟨⟩, -, hok⟩ := bind_eq_ok.mp hok
  obtain ⟨htid, hok⟩ := throwIf_eq_ok.mp hok
  obtain ⟨hbirth, hok⟩ := throwIf_eq_ok.mp hok
  obtain ⟨⟨⟩, hprev, hok⟩ := bind_eq_ok.mp hok
  cases hok
  refine ⟨h.previous.snoc _, h.latestOwner.snoc _, h.latestBirth.snoc _, ?_, ?_, ?_, ?_⟩
  · intro owner id hfirst
    rw [ofKey_snoc] at hfirst
    split_ifs at hfirst with hown
    · rw [head?_append, Option.or_eq_some_iff] at hfirst
      rcases hfirst with hfirst | ⟨hnone, hid⟩
      · exact h.ordered.first owner id hfirst
      · cases hid
        rw [h.previous, hown, head?_eq_none_iff.mp hnone] at hprev
        exact Identity.checkPrevious_none hprev
    · exact h.ordered.first owner id hfirst
  · refine isChain_ofKey_snoc h.ordered.follows fun last hlast => ?_
    rw [h.previous, hlast] at hprev
    exact Identity.checkPrevious_some hprev
  · refine isChain_ofKey_snoc h.ordered.tid fun last hlast => ?_
    rw [h.latestOwner, hlast, Option.map_some, Option.any_some, decide_eq_true_iff] at htid
    have hmem := (mem_ofKey.mp (mem_of_getLast? hlast)).2
    exact Owner.notAfter_of_tid_check hmem htid
  · refine isChain_ofKey_snoc h.ordered.birth fun last hlast => ?_
    rw [h.latestBirth, hlast, Option.map_some, Option.any_some, decide_eq_true_iff] at hbirth
    exact Owner.notAfter_of_birth_check hbirth

theorem ordered_of_validateRecords {records : List Record} (h : validateRecords records = .ok ()) :
    Ordered (records.filterMap Record.identity?) := by
  obtain ⟨seen, hfold, -⟩ := bind_eq_ok.mp h
  have halong := foldlM_history
    (fun seen (xs : List (Record × ℕ)) => Along seen ((xs.map Prod.fst).filterMap Record.identity?))
    ?_ along_nil hfold
  · rw [zipIdx_map_fst] at halong
    exact halong.ordered
  · rintro seen xs ⟨record, index⟩ seen' hI hstep
    rw [map_append, filterMap_append]
    cases record with
    | event event =>
      obtain ⟨⟨⟩, -, hstep⟩ := bind_eq_ok.mp hstep
      cases hstep
      exact (append_nil _).symm ▸ hI
    | timesliceEnd boundary => exact hI.validateBoundary hstep

/-! ## The whole stream -/

theorem notAfter_of_isChain {κ ρ : Type} [LinearOrder κ] [Preorder ρ] {ids : List Identity}
    {key : Identity → κ} {rank : Owner → ρ} (hchain : ∀ k, (ofKey key k ids).IsChain fun a b =>
      Owner.NotAfter rank a.owner b.owner) {i j : ℕ} {a b : Identity} (hij : i < j)
    (ha : ids[i]? = some a) (hb : ids[j]? = some b) (hkey : key a = key b) :
    Owner.NotAfter rank a.owner b.owner := by
  have : IsTrans Identity fun a b => Owner.NotAfter rank a.owner b.owner :=
    ⟨fun _ _ _ hab hbc => hab.trans hbc⟩
  have hpair := List.isChain_iff_pairwise.mp (hchain (key a))
  unfold ofKey at hpair
  rw [List.pairwise_filter, List.pairwise_iff_getElem] at hpair
  obtain ⟨hi, rfl⟩ := List.getElem?_eq_some_iff.mp ha
  obtain ⟨hj, rfl⟩ := List.getElem?_eq_some_iff.mp hb
  exact hpair i j hi hj hij (decide_eq_true rfl) (decide_eq_true hkey.symm)

namespace Ordered

variable {ids : List Identity} (h : Ordered ids)

include h

/-- Slices are numbered from 1 without gaps. -/
theorem slices (owner : Owner) : (ofKey Identity.owner owner ids).map Identity.slice =
    range' 1 (ofKey Identity.owner owner ids).length := by
  have hnumb : ∀ (list : List Identity) (n : ℕ), list.IsChain Identity.Follows →
      (∀ id, list.head? = some id → id.slice = n) →
      list.map Identity.slice = range' n list.length := by
    intro list
    induction list with
    | nil => exact fun _ _ _ => rfl
    | cons a list ih =>
      intro n hchain hfirst
      have ha : a.slice = n := hfirst a rfl
      rw [map_cons, length_cons, range'_succ, ha]
      rw [ih (n + 1) (List.IsChain.tail hchain) fun id hid => ?_]
      rw [(isChain_cons.mp hchain).1 id hid |>.slice, ha]
  exact hnumb _ 1 (h.follows owner) (h.first owner)

theorem counts (owner : Owner) : (ofKey Identity.owner owner ids).Pairwise
    fun a b => a.checkin ≤ b.checkin ∧ a.committedRcbs ≤ b.committedRcbs := by
  have : IsTrans Identity fun a b => a.checkin ≤ b.checkin ∧ a.committedRcbs ≤ b.committedRcbs :=
    ⟨fun a b c hab hbc => ⟨hab.1.trans hbc.1, hab.2.trans hbc.2⟩⟩
  exact isChain_iff_pairwise.mp ((h.follows owner).imp fun a b hab =>
    ⟨hab.checkin, hab.committedRcbs⟩)

theorem retired {i j k : ℕ} {a b c : Identity} (hij : i < j) (hjk : j < k)
    (ha : ids[i]? = some a) (hb : ids[j]? = some b) (hc : ids[k]? = some c)
    (hne : b.owner ≠ a.owner)
    (hshar : b.owner.tid = a.owner.tid ∨ b.owner.birth = a.owner.birth) : c.owner ≠ a.owner := by
  intro hback
  refine hne (Eq.symm ?_)
  rcases hshar with htid | hbirth
  · have hab := notAfter_of_isChain h.tid hij ha hb htid.symm
    have hbc := notAfter_of_isChain h.tid hjk hb hc (htid.trans (by rw [hback]))
    rw [hback] at hbc
    exact hab.antisymm hbc
  · have hab := notAfter_of_isChain h.birth hij ha hb hbirth.symm
    have hbc := notAfter_of_isChain h.birth hjk hb hc (hbirth.trans (by rw [hback]))
    rw [hback] at hbc
    exact hab.antisymm hbc

end Ordered

/-- In every schedule that the decoder accepts, the slices of an owner are numbered
    1, 2, …, k in order of appearance, its check-in and branch counts never decrease, and
    it does not come back after a different owner with its thread ID or birth identity. -/
theorem decoded_boundaries_ordered {wire : Wire} {schedule : Schedule}
    (h : Schedule.tryFrom wire = .ok schedule) :
    (∀ owner, (ofKey Identity.owner owner (schedule.records.filterMap Record.identity?)).map
      Identity.slice = range' 1
        (ofKey Identity.owner owner (schedule.records.filterMap Record.identity?)).length) ∧
    (∀ owner, (ofKey Identity.owner owner (schedule.records.filterMap Record.identity?)).Pairwise
      fun a b => a.checkin ≤ b.checkin ∧ a.committedRcbs ≤ b.committedRcbs) ∧
    ∀ (i j k : ℕ) a b c, i < j → j < k →
      (schedule.records.filterMap Record.identity?)[i]? = some a →
      (schedule.records.filterMap Record.identity?)[j]? = some b →
      (schedule.records.filterMap Record.identity?)[k]? = some c →
      b.owner ≠ a.owner → b.owner.tid = a.owner.tid ∨ b.owner.birth = a.owner.birth →
      c.owner ≠ a.owner := by
  unfold Schedule.tryFrom at h
  obtain ⟨-, h⟩ := throwIf_eq_ok.mp h
  obtain ⟨-, h⟩ := throwIf_eq_ok.mp h
  obtain ⟨-, h⟩ := throwIf_eq_ok.mp h
  obtain ⟨⟨⟩, hvalid, h⟩ := bind_eq_ok.mp h
  cases h
  have hordered := ordered_of_validateRecords hvalid
  exact ⟨hordered.slices, hordered.counts,
    fun _ _ _ _ _ _ hij hjk ha hb hc hne hshar => hordered.retired hij hjk ha hb hc hne hshar⟩

def execSlice (exec slice checkin : ℕ) : Record :=
  .timesliceEnd {
    identity := ⟨⟨3, 0, 3, 0, 3, exec⟩, .softwareCheckin, .posthook, .rdtsc, 10 * checkin, checkin, slice⟩
    count := 1
    startRip := none
    endRip := none
    endTime := none }

/-- Two slices before an exec, one after it. -/
def execWire : Wire where
  protocol := "hermit-slice-boundaries"
  version := 1
  recordCount := 3
  boundaryCount := 3
  records := [execSlice 0 1 1, execSlice 0 2 5, execSlice 1 1 1]

theorem decoded_boundaries_ordered_exec : Schedule.tryFrom execWire = .ok ⟨execWire.records⟩ ∧
      (ofKey Identity.owner ⟨3, 0, 3, 0, 3, 0⟩ (execWire.records.filterMap Record.identity?)).map
        Identity.slice = range' 1 2 := by
  have hok : Schedule.tryFrom execWire = .ok ⟨execWire.records⟩ := by decide +kernel
  refine ⟨hok, ?_⟩
  rw [(decoded_boundaries_ordered hok).1 ⟨3, 0, 3, 0, 3, 0⟩]
  decide +kernel

end Hermit.Boundary
