import Hermit.Common.BubbleSort
import Hermit.EditDistance.Bubbles

/-!
# The tables of the bubble sort iterator

What `BubbleSortIter::new` computes.

* `findSortableRange_spec`: outside of the sortable range the permutation is in order.
* `inversionTable_eq`: the larger values before each value, by rank.
* `atLeastTable_eq`: how many entries of that table are at least a given number.
-/

namespace Hermit.EditDistance

open Common Common.BubbleSort List

/-! ## The sortable range -/

theorem takeWhile_zipIdx_spec (l : List ℕ) :
    ∀ k, ∃ m ≤ l.length, ((l.zipIdx k).takeWhile fun entry => entry.2 == entry.1).length = m ∧
      l.take m = range' k m ∧ l[m]? ≠ some (k + m) := by
  induction l with
  | nil => exact fun k => ⟨0, le_rfl, rfl, rfl, by simp⟩
  | cons a l ih =>
    intro k
    by_cases ha : k = a
    · obtain ⟨m, hm, hlen, htake, hnext⟩ := ih (k + 1)
      refine ⟨m + 1, by simpa using hm, ?_, ?_, ?_⟩
      · simp [zipIdx_cons, ha, ← hlen]
      · rw [take_succ_cons, htake, range'_succ, ha]
      · rw [getElem?_cons_succ]
        rwa [show k + (m + 1) = k + 1 + m by omega]
    · refine ⟨0, Nat.zero_le _, ?_, rfl, ?_⟩
      · simp [zipIdx_cons, ha]
      · simpa using Ne.symm ha

theorem postfixLen_spec (maxIndex : ℕ) (l : List ℕ) :
    ∀ k, k + l.length ≤ maxIndex + 1 → ∃ m ≤ l.length, postfixLen maxIndex k l = some m ∧
      l.take m = (range' (maxIndex + 1 - k - m) m).reverse := by
  induction l with
  | nil => exact fun k _ => ⟨0, le_rfl, rfl, rfl⟩
  | cons a l ih =>
    intro k hk
    simp only [length_cons] at hk
    unfold postfixLen checkedSub
    rw [if_pos (by omega)]
    by_cases ha : maxIndex - k = a
    · obtain ⟨m, hm, hlen, htake⟩ := ih (k + 1) (by omega)
      refine ⟨m + 1, by simpa using hm, by simp [ha, hlen], ?_⟩
      rw [take_succ_cons, htake, range'_1_concat, reverse_append,
        reverse_singleton, singleton_append, ← ha]
      congr 1
      · omega
      · congr 2
        omega
    · exact ⟨0, Nat.zero_le _, by simp [ha], rfl⟩

variable {perm entries : List ℕ} {n p deepest : ℕ}

theorem length_le_of_lt (hnodup : perm.Nodup) (hlt : ∀ i ∈ perm, i < n) : perm.length ≤ n := by
  rw [← toFinset_card_of_nodup hnodup, ← Finset.card_range n]
  exact Finset.card_le_card fun i hi => Finset.mem_range.mpr (hlt i (mem_toFinset.mp hi))

theorem front_le_of_back {m : ℕ} (hfr : perm.take p = range' 0 p)
    (hnext : perm[p]? ≠ some p) (hback : perm.drop (perm.length - m) = range' (n - m) m)
    (hp : p < perm.length) (hm : m ≤ perm.length) : p ≤ perm.length - m := by
  by_contra hover
  have hget : ∀ i, perm.length - m ≤ i → i < perm.length →
      perm[i]? = some (n - m + (i - (perm.length - m))) := by
    intro i hle hi
    have hdrop : (perm.drop (perm.length - m))[i - (perm.length - m)]?
        = (range' (n - m) m)[i - (perm.length - m)]? := by rw [hback]
    rw [getElem?_drop, show perm.length - m + (i - (perm.length - m)) = i by omega,
      getElem?_range' (by omega)] at hdrop
    rw [hdrop, Nat.one_mul]
  have hlast : perm[p - 1]? = some (p - 1) := by
    have htake : (perm.take p)[p - 1]? = (range' 0 p)[p - 1]? := by rw [hfr]
    rw [getElem?_take_of_lt (by omega), getElem?_range' (by omega)] at htake
    rw [htake]
    congr 1
    omega
  -- both ends meet, so that the permutation is in order at `p`
  have hmeet := (hget (p - 1) (by omega) (by omega)).symm.trans hlast
  refine hnext ((hget p (by omega) hp).trans ?_)
  simp only [Option.some.injEq] at hmeet ⊢
  omega

theorem findSortableRange_spec (hnodup : perm.Nodup) (hlt : ∀ i ∈ perm, i < n) :
    ∃ front middle back, perm = front ++ (middle ++ back) ∧ Between front middle back ∧
      findSortableRange perm (n - 1) = some (front.length, front.length + middle.length) := by
  obtain ⟨p, hp, hlen, hfr, hnext⟩ := takeWhile_zipIdx_spec perm 0
  have hfits := length_le_of_lt hnodup hlt
  obtain ⟨m, hm, hpost, hback, hover⟩ : ∃ m ≤ perm.length,
      (if p < perm.length then postfixLen (n - 1) 0 perm.reverse else some 0) = some m ∧
      perm.drop (perm.length - m) = range' (n - m) m ∧ p ≤ perm.length - m := by
    by_cases hlt : p < perm.length
    · obtain ⟨m, hm, hpost, htake⟩ := postfixLen_spec (n - 1) perm.reverse 0
        (by rw [length_reverse]; omega)
      rw [length_reverse] at hm
      rw [take_reverse, reverse_inj, show n - 1 + 1 - 0 - m = n - m by omega] at htake
      exact ⟨m, hm, by rw [if_pos hlt, hpost], htake,
        front_le_of_back hfr (by simpa using hnext) htake hlt hm⟩
    · exact ⟨0, Nat.zero_le _, if_neg hlt, by simp, hp⟩
  have hrest : (perm.take (perm.length - m)).drop p ++ perm.drop (perm.length - m) = perm.drop p := by
    rw [← drop_append_of_le_length (by rw [length_take]; omega), take_append_drop]
  have hspl : perm = perm.take p
      ++ ((perm.take (perm.length - m)).drop p ++ perm.drop (perm.length - m)) := by
    rw [hrest, take_append_drop]
  have hnodup' := hnodup
  rw [hspl, nodup_append] at hnodup'
  obtain ⟨-, hres, hfron⟩ := hnodup'
  obtain ⟨-, -, hbac⟩ := nodup_append.mp hres
  refine ⟨_, _, _, hspl, ⟨?_, ?_, ?_, ?_⟩, ?_⟩
  · rw [hfr]
    exact List.Pairwise.imp le_of_lt pairwise_lt_range'
  · rw [hback]
    exact List.Pairwise.imp le_of_lt pairwise_lt_range'
  · intro x hx y hy
    rw [hfr] at hx hfron
    by_contra hyx
    refine hfron y ?_ y hy rfl
    simp only [mem_range'_1] at hx ⊢
    omega
  · intro x hx y hy
    have hxn := hlt x (mem_of_mem_take (mem_of_mem_drop hx))
    rw [hback] at hy hbac
    by_contra hyx
    refine hbac x hx x ?_ rfl
    simp only [mem_range'_1] at hy ⊢
    omega
  · have hrange : findSortableRange perm (n - 1) = some (p, perm.length - m) := by
      simp only [findSortableRange, hlen, hpost, Option.map_some]
    rw [hrange, length_take, length_drop, length_take]
    congr 2 <;> omega

/-! ## The ranks -/

section Ranks

variable {values ranked : List ℕ}

variable {v : ℕ}

theorem idxOf?_eq_some {l : List ℕ} (h : v ∈ l) : l.idxOf? v = some (l.idxOf v) := by
  induction l with
  | nil => exact absurd h not_mem_nil
  | cons a l ih =>
    rw [idxOf?_cons]
    by_cases ha : a = v
    · simp [ha]
    · have hv : v ∈ l := by
        simp only [mem_cons] at h
        exact h.resolve_left (Ne.symm ha)
      simp [ha, ih hv, idxOf_cons_ne l ha]

/-- In a strictly ascending list the ranks are ordered as the values. -/
theorem idxOf_lt_idxOf_iff {l : List ℕ} (hsort : l.Pairwise (· < ·)) {u : ℕ} (hu : u ∈ l)
    (hv : v ∈ l) : l.idxOf u < l.idxOf v ↔ u < v := by
  have hmono : ∀ {u v}, u ∈ l → v ∈ l → l.idxOf u < l.idxOf v → u < v := by
    intro u v hu hv hlt
    have hvlen := idxOf_lt_length_of_mem hv
    have hget := pairwise_iff_getElem.mp hsort _ _ (by omega) hvlen hlt
    rwa [getElem_idxOf, getElem_idxOf] at hget
  refine ⟨hmono hu hv, fun hlt => ?_⟩
  by_contra hge
  rcases Nat.lt_or_eq_of_le (not_lt.mp hge) with hgt | heq
  · have := hmono hv hu hgt
    omega
  · rw [idxOf_inj hv] at heq
    omega

/-- The values in ascending order. -/
structure Ranked (values ranked : List ℕ) : Prop where
  sorted : ranked.Pairwise (· < ·)
  perm : ranked.Perm values

theorem ranked_insertionSort (h : values.Nodup) : Ranked values (values.insertionSort (· ≤ ·)) where
  sorted := by
    have hnodup := (perm_insertionSort (· ≤ ·) values).nodup_iff.mpr h
    exact (pairwise_insertionSort (· ≤ ·) values).imp₂ (fun _ _ hle hne => lt_of_le_of_ne hle hne) hnodup
  perm := perm_insertionSort _ _

/-- The loop of `new` has gone over `front`. -/
structure Counted (values ranked front : List ℕ) (state : List ℕ × List ℕ) : Prop where
  length : state.1.length = values.length
  table : ∀ u ∈ front, state.1[ranked.idxOf u]? = some (BubbleSort.largerBefore values u)
  seen_length : state.2.length = values.length + 1
  seen : Fenwick.Represents state.2 (Fenwick.tally ranked.idxOf front)

theorem Counted.step (hran : Ranked values ranked) {front : List ℕ} {rest : List ℕ}
    (hvals : values = front ++ v :: rest) (hnodup : values.Nodup) {state : List ℕ × List ℕ}
    (h : Counted values ranked front state) :
    ∃ state', countLarger ranked state (v, front.length) = some state' ∧
      Counted values ranked (front ++ [v]) state' := by
  have hmem : ∀ u ∈ front ++ [v], u ∈ ranked := by
    intro u hu
    rw [hran.perm.mem_iff, hvals, append_cons]
    exact mem_append_left _ hu
  have hv : v ∈ ranked := hmem v (by simp)
  have hrank := idxOf_lt_length_of_mem hv
  have hlen := hran.perm.length_eq
  have hfr : v ∉ front := by
    rw [hvals, nodup_append] at hnodup
    exact fun hmem => hnodup.2.2 v hmem v mem_cons_self rfl
  -- the ranks seen below the rank of `v` are those of the smaller values
  have hsmal : Fenwick.before (Fenwick.tally ranked.idxOf front) (ranked.idxOf v)
      = front.countP (· < v) := by
    rw [Fenwick.before_tally]
    refine countP_congr fun u hu => ?_
    simp [idxOf_lt_idxOf_iff hran.sorted (hmem u (by simp [hu])) hv]
  have hsum : front.length = front.countP (· < v) + front.countP (v < ·) := by
    rw [length_eq_countP_add_countP (· < v)]
    congr 1
    refine countP_congr fun u hu => ?_
    have hne : u ≠ v := fun heq => hfr (heq ▸ hu)
    simp only [decide_eq_true_eq, decide_not, Bool.not_eq_eq_eq_not, Bool.not_true, decide_eq_false_iff_not]
    omega
  obtain ⟨seen, hadd, hsee, hseen⟩ := h.seen.add (ranked.idxOf v)
  refine ⟨(state.1.set (ranked.idxOf v) (BubbleSort.largerBefore values v), seen), ?_, ?_, ?_, ?_, ?_⟩
  · unfold countLarger
    rw [idxOf?_eq_some hv]
    simp only [Option.bind_eq_bind, Option.bind_some, Option.pure_def]
    rw [h.seen.countBefore_eq (by rw [h.seen_length]; omega), hsmal]
    simp only [Option.bind_some, checkedSub]
    rw [if_pos (by omega), hadd]
    simp only [Option.bind_some]
    rw [hvals, largerBefore_append_cons rest hfr]
    congr 3
    omega
  · rw [length_set, h.length]
  · intro u hu
    rw [mem_append, mem_singleton] at hu
    by_cases huv : u = v
    · subst huv
      rw [getElem?_set_self (by rw [h.length]; omega)]
    · have hu := hu.resolve_right huv
      rw [getElem?_set_ne, h.table u hu]
      rw [ne_eq, idxOf_inj hv]
      exact Ne.symm huv
  · rw [hsee, h.seen_length]
  · rw [Fenwick.tally_concat, Fenwick.tally_cons]
    exact hseen

theorem Counted.run (hran : Ranked values ranked) (hnodup : values.Nodup) :
    ∀ (rest front : List ℕ) (state : List ℕ × List ℕ), values = front ++ rest →
      Counted values ranked front state →
      ∃ state', (rest.zipIdx front.length).foldlM (countLarger ranked) state = some state' ∧
        Counted values ranked values state' := by
  intro rest
  induction rest with
  | nil =>
    intro front state hvals h
    rw [append_nil] at hvals
    exact ⟨state, rfl, hvals ▸ h⟩
  | cons v rest ih =>
    intro front state hvals h
    obtain ⟨state', hstep, hcoun⟩ := h.step hran hvals hnodup
    obtain ⟨final, hrun, hfinal⟩ := ih (front ++ [v]) state' (by rw [hvals]; simp) hcoun
    refine ⟨final, ?_, hfinal⟩
    rw [zipIdx_cons, foldlM_cons, hstep]
    simpa using hrun

theorem inversionTable_eq (hran : Ranked values ranked) (hnodup : values.Nodup) :
    inversionTable values ranked = some (ranked.map (BubbleSort.largerBefore values)) := by
  obtain ⟨state, hrun, hcoun⟩ := Counted.run hran hnodup values []
    (replicate values.length 0, Fenwick.zeros values.length) rfl
    ⟨by simp, fun u hu => absurd hu not_mem_nil, by simp [Fenwick.zeros],
      Fenwick.represents_zeros _⟩
  have htable : state.1 = ranked.map (BubbleSort.largerBefore values) := by
    refine ext_getElem? fun i => ?_
    rcases Nat.lt_or_ge i ranked.length with hi | hi
    · have hmem : ranked[i] ∈ values := hran.perm.mem_iff.mp (getElem_mem hi)
      have hent := hcoun.table _ hmem
      rw [hran.sorted.nodup.idxOf_getElem] at hent
      rw [hent, getElem?_map, getElem?_eq_getElem hi, Option.map_some]
    · rw [getElem?_eq_none (by rw [hcoun.length, ← hran.perm.length_eq]; exact hi),
        getElem?_eq_none (by rw [length_map]; exact hi)]
  unfold inversionTable
  rw [length_nil] at hrun
  rw [hrun, ← htable]
  rfl

end Ranks

/-! ## The table of passes -/

theorem entry_modify (table : List ℕ) (hp : p < table.length) (f : ℕ → ℕ) (q : ℕ) :
    Fenwick.entry (table.modify p f) q
      = if p = q then f (Fenwick.entry table q) else Fenwick.entry table q := by
  unfold Fenwick.entry
  rw [getElem?_modify]
  split_ifs with heq
  · subst heq
    rw [getElem?_eq_getElem hp]
    rfl
  · simp

theorem entry_counted (hle : ∀ entry ∈ entries, entry ≤ deepest)
    (table : List ℕ) (hlen : table.length = deepest + 2) :
    (entries.foldl (fun table larger => table.modify larger (· + 1)) table).length = deepest + 2 ∧
      ∀ q, Fenwick.entry (entries.foldl (fun table larger => table.modify larger (· + 1)) table) q
        = Fenwick.entry table q + entries.countP (· = q) := by
  induction entries generalizing table with
  | nil => exact ⟨hlen, fun q => rfl⟩
  | cons a entries ih =>
    have ha := hle a mem_cons_self
    obtain ⟨hlen', hent⟩ := ih (fun entry h => hle entry (mem_cons_of_mem a h))
      (table.modify a (· + 1)) (by rw [length_modify, hlen])
    refine ⟨hlen', fun q => ?_⟩
    rw [foldl_cons, hent, entry_modify table (by omega), countP_cons]
    simp only [decide_eq_true_eq]
    split_ifs <;> omega

structure AddedUp (entries : List ℕ) (deepest p : ℕ) (table : List ℕ) : Prop where
  length : table.length = deepest + 2
  entry : ∀ q ≤ deepest + 1, Fenwick.entry table q
    = if p ≤ q then entries.countP (q ≤ ·) else entries.countP (· = q)

theorem countP_le_eq (entries : List ℕ) (p : ℕ) :
    entries.countP (p ≤ ·) = entries.countP (· = p) + entries.countP (p + 1 ≤ ·) := by
  induction entries with
  | nil => rfl
  | cons a entries ih =>
    simp only [countP_cons, decide_eq_true_eq, ih]
    split_ifs <;> omega

theorem AddedUp.step {table : List ℕ}
    (h : AddedUp entries deepest (p + 1) table) (hp : p ≤ deepest) :
    AddedUp entries deepest p (table.modify p (· + Fenwick.entry table (p + 1))) := by
  refine ⟨by rw [length_modify, h.length], fun q hq => ?_⟩
  rw [entry_modify table (by rw [h.length]; omega), h.entry q hq, h.entry (p + 1) (by omega)]
  by_cases hpq : p = q
  · subst hpq
    simp [countP_le_eq entries p]
  · split_ifs <;> omega

theorem AddedUp.run :
    ∀ (p : ℕ) (table : List ℕ), p ≤ deepest + 1 → AddedUp entries deepest p table →
      AddedUp entries deepest 0 ((range p).reverse.foldl
        (fun table p => table.modify p (· + Fenwick.entry table (p + 1))) table) := by
  intro p
  induction p with
  | zero => exact fun table _ h => h
  | succ p ih =>
    intro table hp h
    rw [range_succ, reverse_append, reverse_singleton, singleton_append, foldl_cons]
    exact ih _ (by omega) (h.step (by omega))

theorem atLeastTable_eq (hle : ∀ entry ∈ entries, entry ≤ deepest) :
    AddedUp entries deepest 0 (atLeastTable entries deepest) := by
  obtain ⟨hlen, hent⟩ := entry_counted hle (replicate (deepest + 2) 0) (by simp)
  refine AddedUp.run (deepest + 1) _ le_rfl ⟨hlen, fun q hq => ?_⟩
  have hzero : Fenwick.entry (replicate (deepest + 2) 0) q = 0 := by
    simp [Fenwick.entry, show q < deepest + 2 by omega]
  rw [hent, hzero, Nat.zero_add]
  split_ifs with hlast
  · -- no entry is above the deepest
    refine countP_congr fun a ha => ?_
    have := hle a ha
    simp only [decide_eq_true_eq]
    omega
  · rfl

end Hermit.EditDistance
