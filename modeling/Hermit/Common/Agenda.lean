import Hermit.Common.OrdMap

/-!
# Agendas

An agenda holds finite sets of events under the times of an order, one slot for
each time that has any: a `BTreeMap<Time, BTreeSet<Event>>` in which no set is
left empty. `slot` reads it as a function from times to sets, and every
operation is described by what it does to that function.

* `add`, `put`, `first`
-/

namespace Hermit.Common

open Hermit.Common.OrdMap

/-- Sets of events under their times. -/
abbrev Agenda (τ ε : Type*) [Ord τ] := OrdMap τ (Finset ε)

namespace Agenda

variable {τ ε : Type*} [LinearOrder τ]

/-- The events at a time. -/
def slot (a : Agenda τ ε) (t : τ) : Finset ε := a[t]?.getD ∅

/-- No slot is left empty. -/
def Tidy (a : Agenda τ ε) : Prop :=
  ∀ (t : τ) (events : Finset ε), a[t]? = some events → events.Nonempty

variable {a : Agenda τ ε} {t : τ}

theorem slot_eq_of_getElem? {events : Finset ε} (h : a[t]? = some events) : a.slot t = events := by
  unfold slot
  rw [h]
  rfl

theorem mem_slot {e : ε} : e ∈ a.slot t ↔ ∃ events, a[t]? = some events ∧ e ∈ events := by
  unfold slot
  cases a[t]? <;> simp

theorem slot_empty (t : τ) : slot (∅ : Agenda τ ε) t = ∅ := by
  unfold slot
  simp

theorem tidy_empty : Tidy (∅ : Agenda τ ε) := by
  intro t events h
  simp at h

variable [DecidableEq ε]

/-- `map.entry(t).or_default().insert(e)`. -/
def add (a : Agenda τ ε) (t : τ) (e : ε) : Agenda τ ε := a.insert t (insert e (a.slot t))

/-- Store the events left at `t`; an empty slot is removed. -/
def put (a : Agenda τ ε) (t : τ) (events : Finset ε) : Agenda τ ε :=
  if events = ∅ then a.erase t else a.insert t events

theorem slot_add (a : Agenda τ ε) (t t' : τ) (e : ε) :
    (a.add t e).slot t' = if t = t' then insert e (a.slot t) else a.slot t' := by
  unfold add
  conv_lhs => unfold slot
  rw [getElem?_insert_ite]
  split_ifs
  · rfl
  · rfl

theorem mem_slot_add {t' : τ} {e e' : ε} :
    e' ∈ (a.add t e).slot t' ↔ (t' = t ∧ e' = e) ∨ e' ∈ a.slot t' := by
  rw [slot_add]
  split_ifs with h
  · subst h
    rw [Finset.mem_insert]
    tauto
  · constructor
    · exact .inr
    · rintro (⟨rfl, -⟩ | he)
      · exact absurd rfl h
      · exact he

theorem Tidy.add (h : Tidy a) (t : τ) (e : ε) : Tidy (a.add t e) := by
  intro t' events ht'
  unfold Agenda.add at ht'
  rw [getElem?_insert_ite] at ht'
  split_ifs at ht'
  · cases ht'
    exact Finset.insert_nonempty _ _
  · exact h t' events ht'

theorem slot_put (a : Agenda τ ε) (t t' : τ) (events : Finset ε) :
    (a.put t events).slot t' = if t = t' then events else a.slot t' := by
  unfold put
  by_cases hemp : events = ∅
  · rw [if_pos hemp]
    unfold slot
    rw [getElem?_erase_ite]
    split_ifs
    · exact hemp.symm
    · rfl
  · rw [if_neg hemp]
    unfold slot
    rw [getElem?_insert_ite]
    split_ifs <;> rfl

theorem Tidy.put (h : Tidy a) (t : τ) (events : Finset ε) : Tidy (a.put t events) := by
  intro t' events' ht'
  unfold Agenda.put at ht'
  split_ifs at ht' with hemp
  · rw [getElem?_erase_ite] at ht'
    split_ifs at ht'
    exact h t' events' ht'
  · rw [getElem?_insert_ite] at ht'
    split_ifs at ht'
    · cases ht'
      exact Finset.nonempty_iff_ne_empty.mpr hemp
    · exact h t' events' ht'

end Agenda

section First

variable {ε : Type*} [LinearOrder ε]

def first (events : Finset ε) : Option ε :=
  if h : events.Nonempty then some (events.min' h) else none

theorem first_mem {events : Finset ε} {e : ε} (h : first events = some e) : e ∈ events := by
  unfold first at h
  split_ifs at h with hne
  cases h
  exact Finset.min'_mem events hne

theorem first_eq_none {events : Finset ε} : first events = none ↔ events = ∅ := by
  unfold first
  split_ifs with hne
  · simp [hne.ne_empty]
  · simp [Finset.not_nonempty_iff_eq_empty.mp hne]

end First

end Hermit.Common
