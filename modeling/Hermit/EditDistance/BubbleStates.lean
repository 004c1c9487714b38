import Hermit.EditDistance.BubbleTables

/-!
# The states of the bubble sort iterator

`seek` rebuilds a state from the inversion table: the values are placed by their larger values
before them, which is the state after whole passes, and the swaps left are made on it.

* `passesFrom_spec`, `Placed.run`, `swapLeft_eq`: the three loops of `seek`.
* `bubble_sort_iter_states`
-/

namespace Hermit.EditDistance

open Common Common.BubbleSort List

/-! ## The loops of `seek` -/

theorem passesFrom_spec {atLeast xs : List ℕ} {deepest : ℕ} (swaps : ℕ)
    (htable : ∀ p < deepest, atLeast[p + 1]? = some (swapsOf (pass^[p] xs))) :
    ∀ fuel passes made, passes + fuel = deepest → made ≤ swaps →
      inversions (pass^[passes] xs) + made = inversions xs →
      ∃ passes' made', passesFrom atLeast deepest swaps fuel passes made = some (passes', made') ∧
        made' ≤ swaps ∧ inversions (pass^[passes'] xs) + made' = inversions xs ∧
        (passes' = deepest ∨ swaps < made' + swapsOf (pass^[passes'] xs)) := by
  intro fuel
  induction fuel with
  | zero => exact fun passes made hfuel hmade hinv => ⟨passes, made, rfl, hmade, hinv, .inl hfuel⟩
  | succ fuel ih =>
    intro passes made hfuel hmade hinv
    have hlt : passes < deepest := by omega
    unfold passesFrom
    rw [if_pos hlt, htable passes hlt]
    simp only [Option.bind_eq_bind, Option.bind_some]
    by_cases hnext : made + swapsOf (pass^[passes] xs) ≤ swaps
    · rw [if_pos hnext]
      refine ih (passes + 1) _ (by omega) hnext ?_
      have := inversions_pass (pass^[passes] xs)
      rw [Function.iterate_succ_apply']
      omega
    · rw [if_neg hnext]
      exact ⟨passes, made, rfl, hmade, hinv, .inr (by omega)⟩

structure Placed (ys rest : List ℕ) (state : List ℕ × List ℕ) : Prop where
  free_length : state.1.length = ys.length + 1
  free : Fenwick.Represents state.1 (Fenwick.tally ys.idxOf rest)
  length : state.2.length = ys.length
  slots : ∀ u ∈ ys, u ∉ rest → state.2[ys.idxOf u]? = some u

theorem before_free_eq {ys placed rest : List ℕ} {v : ℕ} (hnodup : ys.Nodup)
    (hrank : Ranked ys (placed ++ v :: rest)) :
    Fenwick.before (Fenwick.tally ys.idxOf (v :: rest)) (ys.idxOf v)
      = BubbleSort.largerBefore ys v := by
  have hv : v ∈ ys := hrank.perm.mem_iff.mp (by simp)
  obtain ⟨-, hrest, hplac⟩ := pairwise_append.mp hrank.sorted
  obtain ⟨hlarg, -⟩ := pairwise_cons.mp hrest
  have hnone : placed.countP (fun u => v < u ∧ ys.idxOf u < ys.idxOf v) = 0 := by
    refine countP_eq_zero.mpr fun u hu => ?_
    have := hplac u hu v mem_cons_self
    simp only [decide_eq_true_eq]
    omega
  rw [Fenwick.before_tally, largerBefore_eq_countP hnodup hv, ← hrank.perm.countP_eq,
    countP_append, hnone, Nat.zero_add, countP_cons, countP_cons]
  congr 1
  · refine countP_congr fun u hu => ?_
    simp [hlarg u hu]
  · simp

theorem Placed.step {ys placed rest : List ℕ} {v larger passes : ℕ} {state : List ℕ × List ℕ}
    (h : Placed ys (v :: rest) state) (hnodup : ys.Nodup) (hrank : Ranked ys (placed ++ v :: rest))
    (hlarg : larger - passes = BubbleSort.largerBefore ys v) :
    ∃ state', place passes state (v, larger) = some state' ∧ Placed ys rest state' := by
  have hv : v ∈ ys := hrank.perm.mem_iff.mp (by simp)
  have hslot := idxOf_lt_length_of_mem hv
  have hcnt : Fenwick.tally ys.idxOf (v :: rest) (ys.idxOf v)
      = Fenwick.tally ys.idxOf rest (ys.idxOf v) + 1 := by
    rw [Fenwick.tally_cons, Function.update_self]
  have hnth : Fenwick.nth state.1 (larger - passes) = ys.idxOf v := by
    rw [hlarg, ← before_free_eq hnodup hrank]
    exact h.free.nth_eq (by rw [h.free_length]; omega) (by omega)
  obtain ⟨free, hrmv, hfre, hfree⟩ :=
    h.free.remove (show 0 < Fenwick.tally ys.idxOf (v :: rest) (ys.idxOf v) by omega)
  refine ⟨(free, state.2.set (ys.idxOf v) v), ?_, ?_, ?_, ?_, ?_⟩
  · unfold place
    simp only [hnth, hrmv, Option.bind_eq_bind, Option.bind_some]
    rw [if_pos (by rw [h.length]; exact hslot)]
    rfl
  · rw [hfre, h.free_length]
  · rw [hcnt, Nat.add_sub_cancel, Fenwick.tally_cons, Function.update_idem,
      Function.update_eq_self] at hfree
    exact hfree
  · rw [length_set, h.length]
  · intro u hu hrest
    by_cases huv : u = v
    · subst huv
      rw [getElem?_set_self (by rw [h.length]; exact hslot)]
    · rw [getElem?_set_ne, h.slots u hu (by simp [huv, hrest])]
      rw [ne_eq, idxOf_inj hv]
      exact Ne.symm huv

/-- The values are placed as in the list whose inversion table is the one given. -/
theorem Placed.run {ys : List ℕ} (hnodup : ys.Nodup) (passes : ℕ) (larger : ℕ → ℕ)
    (hlarg : ∀ v ∈ ys, larger v - passes = BubbleSort.largerBefore ys v) :
    ∀ (rest placed : List ℕ) (state : List ℕ × List ℕ), Ranked ys (placed ++ rest) →
      Placed ys rest state →
      ∃ free, (rest.zip (rest.map larger)).foldlM (place passes) state = some (free, ys) := by
  intro rest
  induction rest with
  | nil =>
    intro placed state _ h
    refine ⟨state.1, ?_⟩
    have hst : state.2 = ys := by
      refine ext_getElem? fun i => ?_
      rcases Nat.lt_or_ge i ys.length with hi | hi
      · have hslot := h.slots ys[i] (getElem_mem hi) not_mem_nil
        rw [hnodup.idxOf_getElem] at hslot
        rw [hslot, getElem?_eq_getElem hi]
      · rw [getElem?_eq_none hi, getElem?_eq_none (by rw [h.length]; exact hi)]
    rw [← hst]
    rfl
  | cons v rest ih =>
    intro placed state hrank h
    have hv : v ∈ ys := hrank.perm.mem_iff.mp (by simp)
    obtain ⟨state', hstep, hplac⟩ := h.step hnodup hrank (hlarg v hv)
    obtain ⟨free, hrun⟩ := ih (placed ++ [v]) state' (by simpa using hrank) hplac
    refine ⟨free, ?_⟩
    rw [map_cons, zip_cons_cons, foldlM_cons, hstep]
    exact hrun

theorem placed_ones {ys ranked : List ℕ} (hnodup : ys.Nodup) (hrank : Ranked ys ranked)
    (state : List ℕ) (hlen : state.length = ys.length) : Placed ys ranked (Fenwick.ones state.length, state) where
  free_length := by rw [(Fenwick.passedOn_ones _).1, hlen]
  free := by
    refine (Fenwick.represents_ones _).congr fun slot hslot => ?_
    rw [(Fenwick.passedOn_ones _).1, hlen, Nat.add_sub_cancel] at hslot
    have hone : ys.countP (ys.idxOf · = slot) = ys.count ys[slot] := by
      refine countP_congr fun u hu => ?_
      simp only [decide_eq_true_eq, beq_iff_eq]
      constructor
      · rintro rfl
        exact (getElem_idxOf hslot).symm
      · rintro rfl
        exact hnodup.idxOf_getElem _ hslot
    rw [Fenwick.tally, hrank.perm.countP_eq, hone, count_eq_one_of_mem hnodup (getElem_mem hslot)]
  length := hlen
  slots u hu hrest := absurd (hrank.perm.mem_iff.mpr hu) hrest

theorem swapLeft_eq (l : List ℕ) :
    ∀ (front : List ℕ) (a left fuel : ℕ), left ≤ swapsFrom a l → l.length ≤ fuel →
      swapLeft fuel left front.length (front ++ a :: l) = some (front ++ sweepFrom left a l) := by
  have hdone : ∀ (fuel j : ℕ) (state : List ℕ), swapLeft fuel 0 j state = some state := by
    intro fuel j state
    cases fuel <;> rfl
  induction l with
  | nil =>
    intro front a left fuel hleft _
    obtain rfl : left = 0 := Nat.le_zero.mp hleft
    rw [hdone, sweepFrom_zero]
  | cons b l ih =>
    intro front a left fuel hleft hfuel
    obtain ⟨fuel, rfl⟩ : ∃ k, fuel = k + 1 :=
      ⟨fuel - 1, by simp only [length_cons] at hfuel; omega⟩
    simp only [length_cons, Nat.add_le_add_iff_right] at hfuel
    cases left with
    | zero => rw [hdone, sweepFrom_zero]
    | succ left =>
      unfold swapsFrom at hleft
      unfold swapLeft sweepFrom
      have ha : (front ++ a :: b :: l)[front.length]? = some a := by simp
      have hb : (front ++ a :: b :: l)[front.length + 1]? = some b := by simp
      have hset : ((front ++ a :: b :: l).set front.length b).set (front.length + 1) a
          = front ++ b :: a :: l := by simp
      rw [if_neg (Nat.succ_ne_zero left), ha, hb]
      simp only [hset, Nat.add_sub_cancel]
      by_cases hlt : b < a
      · rw [if_pos hlt] at hleft ⊢
        have hrest := ih (front ++ [b]) a left fuel (by omega) hfuel
        simp only [length_append, length_singleton, append_assoc, singleton_append] at hrest
        rw [if_pos hlt, hrest]
      · rw [if_neg hlt] at hleft ⊢
        have hrest := ih (front ++ [a]) b (left + 1) fuel hleft hfuel
        simp only [length_append, length_singleton, append_assoc, singleton_append] at hrest
        rw [if_neg hlt, hrest]

theorem swapLeft_sweep {ys : List ℕ} {left : ℕ} (hleft : left ≤ swapsOf ys) :
    swapLeft ys.length left 0 ys = some (sweep left ys) := by
  cases ys with
  | nil =>
    obtain rfl : left = 0 := Nat.le_zero.mp hleft
    rfl
  | cons a l => exact swapLeft_eq l [] a left _ hleft (by simp)

/-! ## The iterator -/

theorem slice_append (front middle back : List ℕ) :
    slice (front ++ (middle ++ back)) (front.length, front.length + middle.length)
      = some middle := by
  unfold slice
  rw [if_pos (by simp only [length_append]; omega), ← append_assoc,
    take_left' (by simp), drop_left' rfl]

theorem splice_append (front middle back values : List ℕ) :
    splice (front ++ (middle ++ back)) (front.length, front.length + middle.length) values
      = front ++ (values ++ back) := by
  unfold splice
  rw [take_left' rfl, ← append_assoc front middle back, drop_left' (by simp)]

section Iterator

variable {T : Type} {source : List T} {front middle back : List ℕ} {it : BubbleSortIter T}

/-- The iterator is over the bubble sort of `front ++ middle ++ back`, of which the middle is
    to be sorted, and stands at the state after `cursor` swaps. -/
structure IterOf (source : List T) (front middle back : List ℕ) (it : BubbleSortIter T) : Prop where
  source_eq : it.source = source
  sortable : it.sortable = (front.length, front.length + middle.length)
  ranked : Ranked middle it.ranked
  larger : it.largerBefore = it.ranked.map (BubbleSort.largerBefore middle)
  atLeast : ∃ deepest, (∀ entry ∈ it.largerBefore, entry ≤ deepest) ∧
    AddedUp it.largerBefore deepest 0 it.atLeast
  swapCount : it.swapCount = inversions middle
  ends : ∃ state, state.length = middle.length ∧ it.perm = front ++ (state ++ back)
  after : AfterSwaps (front ++ (middle ++ back)) it.cursor it.perm

theorem inversions_deepest (hnodup : middle.Nodup) {deepest : ℕ}
    (hdeep : ∀ v ∈ middle, BubbleSort.largerBefore middle v ≤ deepest) :
    inversions (pass^[deepest] middle) = 0 := by
  rw [inversions_passes hnodup, sum_eq_zero_iff]
  simp only [mem_map]
  rintro _ ⟨v, hv, rfl⟩
  have := hdeep v hv
  omega

theorem IterOf.getElem?_atLeast (h : IterOf source front middle back it) (hnodup : middle.Nodup)
    {deepest : ℕ} (hadded : AddedUp it.largerBefore deepest 0 it.atLeast) {p : ℕ}
    (hp : p < deepest) : it.atLeast[p + 1]? = some (swapsOf (pass^[p] middle)) := by
  have hlt : p + 1 < it.atLeast.length := by rw [hadded.length]; omega
  have hent := hadded.entry (p + 1) (by omega)
  rw [Fenwick.entry, getElem?_eq_getElem hlt, Option.getD_some, if_pos (Nat.zero_le _), h.larger,
    countP_map, h.ranked.perm.countP_eq] at hent
  rw [getElem?_eq_getElem hlt, hent, swapsOf_passes hnodup]
  rfl

theorem IterOf.passesWithin (h : IterOf source front middle back it) (hnodup : middle.Nodup)
    {swaps : ℕ} (hswaps : swaps ≤ it.swapCount) :
    ∃ passes made left, it.passesWithin swaps = some (passes, left) ∧ made + left = swaps ∧
      inversions (pass^[passes] middle) + made = inversions middle ∧
      left ≤ swapsOf (pass^[passes] middle) := by
  obtain ⟨deepest, hdeep, hadded⟩ := h.atLeast
  obtain ⟨passes, made, hrun, hmade, hinv, hnext⟩ := passesFrom_spec swaps
    (fun p hp => h.getElem?_atLeast hnodup hadded hp) deepest 0 0 (by omega) (Nat.zero_le _) rfl
  refine ⟨passes, made, swaps - made, ?_, by omega, hinv, ?_⟩
  · unfold BubbleSortIter.passesWithin checkedSub
    rw [if_pos (by rw [hadded.length]; omega), hadded.length]
    simp only [Option.bind_eq_bind, Option.bind_some, Nat.add_sub_cancel, hrun]
    rw [if_pos hmade]
    rfl
  · rcases hnext with rfl | hnext
    · -- all swaps are made by then
      have hzero : inversions (pass^[passes] middle) = 0 := by
        refine inversions_deepest hnodup fun v hv => hdeep _ ?_
        rw [h.larger]
        exact mem_map_of_mem (h.ranked.perm.mem_iff.mpr hv)
      rw [h.swapCount] at hswaps
      omega
    · omega

/-- `seek` moves to the state after the swaps asked for, or to the end. -/
theorem IterOf.seek (h : IterOf source front middle back it) (hbtw : Between front middle back)
    (hnodup : middle.Nodup) (swaps : ℕ) :
    ∃ it', it.seek swaps = some it' ∧ IterOf source front middle back it' ∧
      it'.cursor = min swaps (inversions middle) := by
  unfold BubbleSortIter.seek
  rw [← h.swapCount]
  by_cases hstay : min swaps it.swapCount = it.cursor
  · exact ⟨it, if_pos hstay, h, hstay.symm⟩
  rw [if_neg hstay]
  obtain ⟨passes, made, left, hpass, hsum, hinv, hleft⟩ :=
    h.passesWithin hnodup (min_le_right swaps it.swapCount)
  obtain ⟨state, hlen, hperm⟩ := h.ends
  have hys := passes_perm middle passes
  have hysNo := hys.nodup_iff.mpr hnodup
  have hysRa : Ranked (pass^[passes] middle) it.ranked :=
    ⟨h.ranked.sorted, h.ranked.perm.trans hys.symm⟩
  obtain ⟨free, hplace⟩ := Placed.run hysNo passes (BubbleSort.largerBefore middle)
    (fun v hv => (largerBefore_passes hnodup passes (hys.mem_iff.mp hv)).symm) it.ranked [] _
    hysRa (placed_ones hysNo hysRa state (by rw [hlen, hys.length_eq]))
  rw [← h.larger] at hplace
  have hslice : slice it.perm it.sortable = some state := by
    rw [hperm, h.sortable, ← hlen, slice_append]
  have hspli : splice it.perm it.sortable (sweep left (pass^[passes] middle))
      = front ++ (sweep left (pass^[passes] middle) ++ back) := by
    rw [hperm, h.sortable, ← hlen, splice_append]
  rw [hpass]
  simp only [Option.bind_eq_bind, Option.bind_some, hslice, hplace, swapLeft_sweep hleft,
    Option.pure_def, hspli]
  refine ⟨_, rfl, { h with ends := ⟨_, ?_, rfl⟩, after := ?_ }, rfl⟩
  · exact ((sweep_perm left _).trans hys).length_eq
  · rw [← hsum]
    exact hbtw.afterSwaps hinv hleft

theorem new_spec {perm : List ℕ} (hnodup : perm.Nodup) (hlt : ∀ i ∈ perm, i < source.length)
    (unused : ℕ) :
    ∃ front middle back it, perm = front ++ (middle ++ back) ∧ Between front middle back ∧
      middle.Nodup ∧ BubbleSortIter.new perm source unused = some it ∧
      IterOf source front middle back it ∧ it.cursor = it.swapCount := by
  obtain ⟨front, middle, back, rfl, hbtw, hrange⟩ := findSortableRange_spec hnodup hlt
  have hmidd : middle.Nodup :=
    (nodup_append.mp (nodup_append.mp hnodup).2.1).1
  obtain ⟨ranked, hsort⟩ : ∃ ranked, middle.insertionSort (· ≤ ·) = ranked := ⟨_, rfl⟩
  have hrank : Ranked middle ranked := hsort ▸ ranked_insertionSort hmidd
  obtain ⟨table, htable⟩ : ∃ table, ranked.map (BubbleSort.largerBefore middle) = table := ⟨_, rfl⟩
  have hinve : inversionTable middle ranked = some table :=
    htable ▸ inversionTable_eq hrank hmidd
  have hsum : table.sum = inversions middle := by
    rw [← htable, (hrank.perm.map _).sum_eq, sum_largerBefore hmidd]
  have hdeep : ∀ entry ∈ table, entry ≤ table.foldr max 0 :=
    fun entry hent => le_max_of_le' 0 hent le_rfl
  -- after the deepest pass the middle is in order
  have hzero : inversions (pass^[table.foldr max 0] middle) = 0 := by
    refine inversions_deepest hmidd fun v hv => hdeep _ ?_
    rw [← htable]
    exact mem_map_of_mem (hrank.perm.mem_iff.mpr hv)
  have hsor : pass^[table.foldr max 0] middle = ranked :=
    List.Perm.eq_of_pairwise' (pairwise_of_inversions_eq_zero hzero)
      (hrank.sorted.imp le_of_lt) ((passes_perm middle _).trans hrank.perm.symm)
  have haft : AfterSwaps (front ++ (middle ++ back)) (inversions middle + 0) _ :=
    hbtw.afterSwaps (by rw [hzero, Nat.zero_add]) (Nat.zero_le _)
  rw [hsor, sweep_zero, Nat.add_zero, ← hsum] at haft
  have hnew : BubbleSortIter.new (front ++ (middle ++ back)) source unused = some
        { perm := front ++ (ranked ++ back)
          source := source
          sortable := (front.length, front.length + middle.length)
          ranked := ranked
          largerBefore := table
          atLeast := atLeastTable table (table.foldr max 0)
          swapCount := table.sum
          cursor := table.sum
          unusedValueCount := unused } := by
    unfold BubbleSortIter.new
    rw [hrange]
    simp only [Option.bind_eq_bind, Option.bind_some, slice_append, splice_append, hsort, hinve,
      Option.pure_def]
  refine ⟨front, middle, back, _, rfl, hbtw, hmidd, hnew, ?_, rfl⟩
  exact ⟨rfl, rfl, hrank, htable.symm, ⟨_, hdeep, atLeastTable_eq hdeep⟩, hsum,
    ⟨ranked, hrank.perm.length_eq, rfl⟩, haft⟩

theorem mapM_getElem? {l : List ℕ} (h : ∀ i ∈ l, i < source.length) :
    ∃ items, l.mapM (source[·]?) = some items ∧ items.map some = l.map (source[·]?) := by
  induction l with
  | nil => exact ⟨[], rfl, rfl⟩
  | cons i l ih =>
    obtain ⟨items, hitems, hmap⟩ := ih fun j hj => h j (mem_cons_of_mem i hj)
    obtain ⟨item, hi⟩ : ∃ item, source[i]? = some item :=
      ⟨_, getElem?_eq_getElem (h i mem_cons_self)⟩
    refine ⟨item :: items, ?_, ?_⟩
    · rw [mapM_cons, hi, hitems]
      rfl
    · rw [map_cons, map_cons, hmap, hi]

/-- The state of an iterator over indices of the source can be shown. -/
theorem IterOf.current (h : IterOf source front middle back it)
    (hlt : ∀ i ∈ front ++ (middle ++ back), i < source.length) :
    ∃ items, it.current = some items ∧ items.map some = it.perm.map (source[·]?) := by
  unfold BubbleSortIter.current
  rw [h.source_eq]
  exact mapM_getElem? fun i hi => hlt i (h.after.perm.mem_iff.mp hi)

theorem IterOf.cursor_le (h : IterOf source front middle back it)
    (hbtw : Between front middle back) : it.cursor ≤ inversions middle := by
  have := h.after.inversions_eq
  rw [hbtw.inversions_eq] at this
  omega

/-! ## Moves -/

inductive Move
  | next
  | nextBack
  | skip (distance : ℕ)
  | skipBack (distance : ℕ)
  | midpoint
  | interpolate (percentage : Fin 256)

def BubbleSortIter.move (it : BubbleSortIter T) : Move → Option (BubbleSortIter T)
  | .next => it.next.map Prod.fst
  | .nextBack => it.nextBack.map Prod.fst
  | .skip distance => it.skip distance
  | .skipBack distance => it.skipBack distance
  | .midpoint => it.midpoint.map Prod.fst
  | .interpolate percentage => (it.interpolate percentage).map Prod.fst

def Move.target (total cursor : ℕ) : Move → ℕ
  | .next => min (cursor + 1) total
  | .nextBack => cursor - 1
  | .skip distance => min (satAdd usizeMax cursor distance) total
  | .skipBack distance => cursor - distance
  | .midpoint => total / 2
  | .interpolate percentage => min (total * percentage % (usizeMax + 1) / 100) total

/-- A move never fails, and stands at a state of the ordinary sort. -/
theorem IterOf.move (h : IterOf source front middle back it) (hbtw : Between front middle back)
    (hnodup : middle.Nodup) (hlt : ∀ i ∈ front ++ (middle ++ back), i < source.length) (m : Move) :
    ∃ it', it.move m = some it' ∧ IterOf source front middle back it' ∧
      it'.cursor = m.target (inversions middle) it.cursor := by
  have hcur := h.cursor_le hbtw
  -- the moves seek a state and show it
  have hseek : ∀ swaps, ∃ it' items, it.seek swaps = some it' ∧ it'.current = some items ∧
      IterOf source front middle back it' ∧ it'.cursor = min swaps (inversions middle) := by
    intro swaps
    obtain ⟨it', hok, hiter, hcur⟩ := h.seek hbtw hnodup swaps
    obtain ⟨items, hitems, -⟩ := hiter.current hlt
    exact ⟨it', items, hok, hitems, hiter, hcur⟩
  cases m with
  | next =>
    by_cases hend : it.cursor < it.swapCount
    · obtain ⟨it', items, hok, hitems, hiter, heq⟩ := hseek (it.cursor + 1)
      exact ⟨it', by simp [BubbleSortIter.move, BubbleSortIter.next, hend, hok, hitems], hiter, heq⟩
    · rw [h.swapCount] at hend
      refine ⟨it, ?_, h, ?_⟩
      · simp [BubbleSortIter.move, BubbleSortIter.next, h.swapCount, hend]
      · simp only [Move.target]
        omega
  | nextBack =>
    by_cases hsta : 0 < it.cursor
    · obtain ⟨it', items, hok, hitems, hiter, heq⟩ := hseek (it.cursor - 1)
      refine ⟨it', ?_, hiter, ?_⟩
      · simp [BubbleSortIter.move, BubbleSortIter.nextBack, hsta, hok, hitems]
      · simp only [heq, Move.target]
        omega
    · refine ⟨it, ?_, h, ?_⟩
      · simp [BubbleSortIter.move, BubbleSortIter.nextBack, hsta]
      · simp only [Move.target]
        omega
  | skip distance =>
    obtain ⟨it', -, hok, -, hiter, heq⟩ := hseek (satAdd usizeMax it.cursor distance)
    exact ⟨it', hok, hiter, heq⟩
  | skipBack distance =>
    obtain ⟨it', -, hok, -, hiter, heq⟩ := hseek (it.cursor - distance)
    refine ⟨it', hok, hiter, ?_⟩
    simp only [heq, Move.target]
    omega
  | midpoint =>
    obtain ⟨it', items, hok, hitems, hiter, heq⟩ := hseek (it.swapCount / 2)
    refine ⟨it', ?_, hiter, ?_⟩
    · simp [BubbleSortIter.move, BubbleSortIter.midpoint, hok, hitems]
    · rw [heq, h.swapCount]
      simp only [Move.target]
      omega
  | interpolate percentage =>
    obtain ⟨it', items, hok, hitems, hiter, heq⟩ :=
      hseek (it.swapCount * percentage % (usizeMax + 1) / 100)
    refine ⟨it', ?_, hiter, ?_⟩
    · simp [BubbleSortIter.move, BubbleSortIter.interpolate, hok, hitems]
    · rw [heq, h.swapCount]
      rfl

theorem IterOf.moves (h : IterOf source front middle back it) (hbtw : Between front middle back)
    (hnodup : middle.Nodup) (hlt : ∀ i ∈ front ++ (middle ++ back), i < source.length)
    (moves : List Move) :
    ∃ it', moves.foldlM BubbleSortIter.move it = some it' ∧ IterOf source front middle back it' ∧
      it'.cursor = moves.foldl (Move.target (inversions middle)) it.cursor := by
  induction moves generalizing it with
  | nil => exact ⟨it, rfl, h, rfl⟩
  | cons m moves ih =>
    obtain ⟨next, hmove, hiter, hcur⟩ := h.move hbtw hnodup hlt m
    obtain ⟨it', hrun, hiter', hcur'⟩ := ih hiter
    refine ⟨it', ?_, hiter', ?_⟩
    · rw [foldlM_cons, hmove]
      exact hrun
    · rw [hcur', hcur, foldl_cons]

/-- For a permutation of distinct indices of the source, after any moves the iterator shows the
    state of its ordinary bubble sort after exactly as many swaps as the cursor says, and the
    swap distance is the number of inversions. -/
theorem bubble_sort_iter_states (source : List T) (perm : List ℕ) (hnodup : perm.Nodup)
    (hlt : ∀ i ∈ perm, i < source.length) (unused : ℕ) (moves : List Move) :
    ∃ it it', BubbleSortIter.new perm source unused = some it ∧
      moves.foldlM BubbleSortIter.move it = some it' ∧
      it'.swapDistance = inversions perm ∧
      it'.cursor = moves.foldl (Move.target (inversions perm)) (inversions perm) ∧
      (∀ state, AfterSwaps perm it'.cursor state ↔ state = it'.perm) ∧
      ∃ items, it'.current = some items ∧ items.map some = it'.perm.map (source[·]?) := by
  obtain ⟨front, middle, back, it, rfl, hbtw, hmidd, hnew, hiter, hcur⟩ :=
    new_spec hnodup hlt unused
  obtain ⟨it', hrun, hiter', hcur'⟩ := hiter.moves hbtw hmidd hlt moves
  rw [hcur, hiter.swapCount] at hcur'
  refine ⟨it, it', hnew, hrun, ?_, ?_, fun state => ⟨fun h => h.unique hiter'.after, ?_⟩,
    hiter'.current hlt⟩
  · rw [hbtw.inversions_eq, BubbleSortIter.swapDistance, hiter'.swapCount]
  · rw [hbtw.inversions_eq, hcur']
  · rintro rfl
    exact hiter'.after

/-- From the end three swaps back, one forward, then to the middle. -/
theorem bubble_sort_iter_states_midpoint :
    ∃ it it', BubbleSortIter.new [2, 0, 3, 1] "abcd".toList 0 = some it ∧
      [.skipBack 3, .next, .midpoint].foldlM BubbleSortIter.move it = some it' ∧
      it'.swapDistance = 3 ∧ it'.cursor = 1 ∧ AfterSwaps [2, 0, 3, 1] 1 it'.perm := by
  obtain ⟨it, it', hnew, hrun, hdist, hcur, haft, -⟩ :=
    bubble_sort_iter_states "abcd".toList [2, 0, 3, 1] (by decide) (by decide) 0
      [.skipBack 3, .next, .midpoint]
  have hone : it'.cursor = 1 := hcur
  exact ⟨it, it', hnew, hrun, hdist, hone, hone ▸ (haft it'.perm).mpr rfl⟩

end Iterator

end Hermit.EditDistance
