import Hermit.Races.Channels

/-!
# Calls whose order the runs reverse

`first_inversion` and `inversions` of `hermit-cli/src/bin/hermit/analyze/races.rs`. A table over the
suffixes of a list of calls keeps the least baseline key with its thread, and the least key of any
other thread. These decide whether a later call of another thread comes first in the baseline
(`other_best_lt`).

* `inversions_spec`
-/

namespace Hermit.Races

open List

inductive AccessPoint
  | onEntry
  | onReturn
deriving DecidableEq

/-- The key of an absent event, which sorts after all. -/
def never : ℕ := u64Max

def eventOf (sys : SyscallRecord) : AccessPoint → Option ℕ
  | .onEntry => some sys.pre
  | .onReturn => sys.post

def key (sys : Option SyscallRecord) (point : AccessPoint) : ℕ :=
  (sys.bind (eventOf · point)).getD never

structure Op where
  target : SyscallRecord
  baseline : Option SyscallRecord
deriving DecidableEq

structure Side where
  op : Op
  point : AccessPoint
deriving DecidableEq

def Side.baselineKey (s : Side) : ℕ := key s.op.baseline s.point

def Side.tid (s : Side) : DetTid := s.op.target.tid

/-- An entry of the table `best`: the least key and its thread, and the least key of any other. -/
structure Best where
  least : ℕ
  thread : Option DetTid
  second : ℕ

def Best.add (s : Side) (b : Best) : Best :=
  if s.baselineKey < b.least then
    ⟨s.baselineKey, some s.tid, if b.thread = some s.tid then b.second else b.least⟩
  else if b.thread ≠ some s.tid ∧ s.baselineKey < b.second then { b with second := s.baselineKey }
  else b

/-- The least key that the entry has for the threads other than `tid`. -/
def Best.other (b : Best) (tid : DetTid) : ℕ := if b.thread = some tid then b.second else b.least

/-- The entry of the suffix `sides`. -/
def best (sides : List Side) : Best := sides.foldr Best.add ⟨never, none, never⟩

def firstInversion : List Side → Option (Side × Side)
  | [] => none
  | s :: rest =>
    if (best rest).other s.tid ≥ s.baselineKey then firstInversion rest
    else
      match rest.find? fun t => t.tid ≠ s.tid ∧ t.baselineKey < s.baselineKey with
      | some t => some (s, t)
      | none => firstInversion rest

def candidatesCap : ℕ := 3

/-- The loop of `inversions` on the suffix `sides`, with room for `room` more pairs. The calls of a
    trace differ from each other, so that equality is `std::ptr::eq`. -/
def inversionsLoop : ℕ → List Side → List (Side × Side)
  | 0, _ => []
  | room + 1, sides =>
    match firstInversion sides with
    | none => []
    | some pair =>
      let next := (sides.findIdx? (·.op.target = pair.1.op.target)).elim sides.length (· + 1)
      pair :: inversionsLoop room (sides.drop next)

def inversions (sides : List Side) : List (Side × Side) := inversionsLoop candidatesCap sides

/-! ## Inverted pairs -/

/-- The calls at `i` and `j` are on two threads and the other way round in the baseline. -/
def Inverted (sides : List Side) (i j : ℕ) : Prop :=
  i < j ∧ ∃ s t, sides[i]? = some s ∧ sides[j]? = some t ∧ t.tid ≠ s.tid ∧
    t.baselineKey < s.baselineKey

/-- The least inverted pair of the suffix from `start` on. -/
structure FirstFrom (sides : List Side) (start i j : ℕ) : Prop where
  le : start ≤ i
  inverted : Inverted sides i j
  least : ∀ i' j', start ≤ i' → Inverted sides i' j' → i < i' ∨ i = i' ∧ j ≤ j'

/-- What a search of the suffix from `start` on has to return: no pair just if none is inverted. -/
def Found (sides : List Side) (start : ℕ) : Option (Side × Side) → Prop
  | none => ∀ i j, start ≤ i → ¬ Inverted sides i j
  | some pair =>
    ∃ i j, FirstFrom sides start i j ∧ sides[i]? = some pair.1 ∧ sides[j]? = some pair.2

/-- The first pair of the suffix from `start` on, then of the one after its first side, and so on
    to the last or until there are `room` of them. -/
def Successive (sides : List Side) : ℕ → ℕ → List (ℕ × ℕ) → Prop
  | 0, _, pairs => pairs = []
  | _ + 1, start, [] => ∀ i j, start ≤ i → ¬ Inverted sides i j
  | room + 1, start, p :: pairs =>
    FirstFrom sides start p.1 p.2 ∧ Successive sides room (p.1 + 1) pairs

variable {sides : List Side} {s : Side} {found : Option (Side × Side)} {start i j : ℕ}

theorem Found.lower (h : Found sides (start + 1) found) (hnot : ∀ j, ¬ Inverted sides start j) :
    Found sides start found := by
  have hlt : ∀ i j, start ≤ i → Inverted sides i j → start + 1 ≤ i := by
    intro i j hle hinv
    exact hle.lt_of_ne fun heq => hnot j (heq ▸ hinv)
  cases found with
  | none => exact fun i j hle hinv => h i j (hlt i j hle hinv) hinv
  | some pair =>
    obtain ⟨i, j, hfirst, hpair⟩ := h
    exact ⟨i, j, ⟨Nat.le_of_succ_le hfirst.le, hfirst.inverted,
      fun i' j' hle hinv => hfirst.least i' j' (hlt i' j' hle hinv) hinv⟩, hpair⟩

theorem Successive.increasing {room : ℕ} : ∀ {start : ℕ} {pairs : List (ℕ × ℕ)},
    Successive sides room start pairs → (start :: pairs.map (·.1 + 1)).IsChain (· < ·) := by
  induction room with
  | zero =>
    rintro start pairs rfl
    simp
  | succ room ih =>
    rintro start (_ | ⟨p, pairs⟩) h
    · simp
    · exact isChain_cons_cons.mpr ⟨Nat.lt_succ_of_le h.1.le, ih h.2⟩

/-! ## The table -/

theorem Best.least_le_second_add {b : Best} (h : b.least ≤ b.second) (s : Side) :
    (b.add s).least ≤ (b.add s).second := by
  unfold Best.add
  grind

/-- A call lowers the least key of the threads other than its own. -/
theorem Best.other_add_lt {b : Best} (h : b.least ≤ b.second) (s : Side) (tid : DetTid) (k : ℕ) :
    (b.add s).other tid < k ↔ (s.tid ≠ tid ∧ s.baselineKey < k) ∨ b.other tid < k := by
  unfold Best.add Best.other
  grind

theorem other_best_lt (tid : DetTid) {k : ℕ} (hk : k ≤ never) (sides : List Side) :
    (best sides).other tid < k ↔ ∃ t ∈ sides, t.tid ≠ tid ∧ t.baselineKey < k := by
  suffices h : (best sides).least ≤ (best sides).second ∧ ((best sides).other tid < k ↔
      ∃ t ∈ sides, t.tid ≠ tid ∧ t.baselineKey < k) from h.2
  induction sides with
  | nil => simpa [best, Best.other] using hk
  | cons s rest ih =>
    refine ⟨Best.least_le_second_add ih.1 s, ?_⟩
    rw [exists_mem_cons_iff, ← ih.2]
    exact Best.other_add_lt ih.1 s tid k

/-! ## The search -/

/-- The list of a search: every call has one counterpart and one event, and the keys are 64-bit
    numbers. -/
structure Calls (sides : List Side) : Prop where
  key_le : ∀ s ∈ sides, s.baselineKey ≤ never
  eq_of_target : ∀ s ∈ sides, ∀ t ∈ sides, s.op.target = t.op.target → s = t

theorem inverted_iff (hlt : start < sides.length) : Inverted sides start j ↔
    ∃ k, j = start + 1 + k ∧ ∃ t, (sides.drop (start + 1))[k]? = some t ∧ t.tid ≠ sides[start].tid ∧
      t.baselineKey < sides[start].baselineKey := by
  simp only [Inverted, getElem?_eq_getElem hlt, Option.some.injEq, getElem?_drop]
  constructor
  · rintro ⟨hj, s, t, rfl, ht⟩
    obtain ⟨k, rfl⟩ := Nat.exists_eq_add_of_le hj
    exact ⟨k, rfl, t, ht⟩
  · rintro ⟨k, rfl, t, ht⟩
    exact ⟨by omega, _, t, rfl, ht⟩

theorem firstInversion_found (h : Calls sides) (start : ℕ) :
    Found sides start (firstInversion (sides.drop start)) := by
  induction hn : sides.length - start generalizing start with
  | zero =>
    rw [drop_eq_nil_of_le (by omega)]
    rintro i j hle ⟨-, s, t, hs, -⟩
    rw [getElem?_eq_none (by omega)] at hs
    cases hs
  | succ n ih =>
    have hlt : start < sides.length := by omega
    have hother := other_best_lt sides[start].tid (h.key_le _ (getElem_mem hlt))
      (sides.drop (start + 1))
    rw [drop_eq_getElem_cons hlt, firstInversion]
    split_ifs with hge
    · refine (ih (start + 1) (by omega)).lower ?_
      intro j hinv
      obtain ⟨k, -, t, ht, hinv⟩ := (inverted_iff hlt).mp hinv
      exact hge.not_gt (hother.mpr ⟨t, mem_of_getElem? ht, hinv⟩)
    · obtain ⟨t, ht, hinv⟩ := hother.mp (not_le.mp hge)
      cases hfind : (sides.drop (start + 1)).find? fun t =>
          t.tid ≠ sides[start].tid ∧ t.baselineKey < sides[start].baselineKey with
      | none => exact absurd (decide_eq_true hinv) (find?_eq_none.mp hfind t ht)
      | some t =>
        obtain ⟨hinv, k, hk, rfl, hbefore⟩ := find?_eq_some_iff_getElem.mp hfind
        refine ⟨start, start + 1 + k, ⟨le_rfl, (inverted_iff hlt).mpr ⟨k, rfl, _,
          getElem?_eq_getElem hk, of_decide_eq_true hinv⟩, ?_⟩, getElem?_eq_getElem hlt,
          by rw [← getElem?_drop, getElem?_eq_getElem hk]⟩
        intro i' j' hle hinv'
        rcases Nat.lt_or_eq_of_le hle with hlt' | rfl
        · exact .inl hlt'
        · obtain ⟨k', rfl, u, hu, hinv'⟩ := (inverted_iff hlt).mp hinv'
          obtain ⟨hk', rfl⟩ := List.getElem?_eq_some_iff.mp hu
          refine .inr ⟨rfl, ?_⟩
          by_contra hgt
          have hnot := hbefore k' (by omega)
          rw [decide_eq_true hinv'] at hnot
          cases hnot

/-- The position of the call at the first side is found again. -/
theorem findIdx?_firstSide (h : Calls sides) (hfirst : FirstFrom sides start i j)
    (hi : sides[i]? = some s) :
    (sides.drop start).findIdx? (·.op.target = s.op.target) = some (i - start) := by
  have hle := hfirst.le
  obtain ⟨hlt, rfl⟩ := List.getElem?_eq_some_iff.mp hi
  refine findIdx?_eq_some_iff_getElem.mpr ⟨by rw [length_drop]; omega, by simp [hle], ?_⟩
  intro k hk heq
  rw [getElem_drop] at heq
  have hsame := h.eq_of_target _ (getElem_mem (by omega)) _ (getElem_mem hlt) (of_decide_eq_true heq)
  -- An earlier copy of the call would be the first side of a pair with the same second side.
  obtain ⟨hij, s, t, hs, hpair⟩ := hfirst.inverted
  have hcopy : Inverted sides (start + k) j := by
    refine ⟨by omega, s, t, ?_, hpair⟩
    rw [getElem?_eq_getElem (by omega), hsame, ← getElem?_eq_getElem hlt, hs]
  have := hfirst.least _ j (by omega) hcopy
  omega

theorem inversionsLoop_successive (h : Calls sides) (room : ℕ) : ∀ start, ∃ pairs : List (ℕ × ℕ),
    Successive sides room start pairs ∧
      (inversionsLoop room (sides.drop start)).map (fun p => (some p.1, some p.2)) =
        pairs.map fun p => (sides[p.1]?, sides[p.2]?) := by
  induction room with
  | zero => exact fun start => ⟨[], rfl, rfl⟩
  | succ room ih =>
    intro start
    have hfound := firstInversion_found h start
    unfold inversionsLoop
    cases hpair : firstInversion (sides.drop start) with
    | none =>
      rw [hpair] at hfound
      exact ⟨[], hfound, rfl⟩
    | some pair =>
      rw [hpair] at hfound
      obtain ⟨i, j, hfirst, hi, hj⟩ := hfound
      obtain ⟨pairs, hsucc, hpairs⟩ := ih (i + 1)
      refine ⟨(i, j) :: pairs, ⟨hfirst, hsucc⟩, ?_⟩
      have hnext : start + (i - start + 1) = i + 1 := by have := hfirst.le; omega
      simp only [findIdx?_firstSide h hfirst hi, Option.elim_some, drop_drop, map_cons, hi, hj,
        hnext, hpairs]

/-- **Inversions.** The search returns the least inverted pair just if there is one, and
    `inversions` the first pair of each successive suffix, up to its cap. -/
theorem inversions_spec (sides : List Side) (h : Calls sides) :
    Found sides 0 (firstInversion sides) ∧ ∃ pairs : List (ℕ × ℕ),
      Successive sides candidatesCap 0 pairs ∧ pairs.Pairwise (·.1 < ·.1) ∧
      (inversions sides).map (fun p => (some p.1, some p.2)) =
        pairs.map fun p => (sides[p.1]?, sides[p.2]?) := by
  obtain ⟨pairs, hsucc, hpairs⟩ := inversionsLoop_successive h candidatesCap 0
  refine ⟨firstInversion_found h 0, pairs, hsucc, ?_, hpairs⟩
  have hchain := (isChain_iff_pairwise.mp hsucc.increasing).of_cons
  simpa [pairwise_map] using hchain

/-- Two calls of thread 1, and one of thread 2 that is first in the baseline. -/
def twoInversions : List Side :=
  [(1, 20), (1, 30), (2, 10)].map fun (tid, pre) =>
    let sys := ⟨pre, none, tid, .write, fun _ => 0, none, []⟩
    ⟨⟨sys, some sys⟩, .onEntry⟩

theorem inversions_spec_twoInversions : (inversions twoInversions).length = 2 ∧
    Found twoInversions 0 (firstInversion twoInversions) :=
  ⟨by decide, (inversions_spec twoInversions ⟨by decide, by decide⟩).1⟩

end Hermit.Races
