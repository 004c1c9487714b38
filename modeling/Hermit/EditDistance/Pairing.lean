import Hermit.Common.BubbleSort
import Hermit.EditDistance.Bubbles

/-!
# How `generate_permutation` pairs values

`generate_permutation` (`detcore/src/edit_distance/bubbles.rs`, lines 54-105) gives each value
of the target the next index of the source that has it. So the `k`-th occurrences of a value in
the two sequences go together.

* `generatePermutation_spec`, `later_partner_fewer_inversions`
-/

namespace Hermit.EditDistance

open Common.BubbleSort List

variable {T : Type} [DecidableEq T] {source target l other : List T} {v : T} {i j k : ℕ}

/-! ## Occurrences of a value -/

/-- Where a value stands in a sequence, in order. -/
def occurrences (l : List T) (v : T) : List ℕ := (range l.length).filter (l[·]? = some v)

theorem occurrences_snoc (l : List T) (x v : T) :
    occurrences (l ++ [x]) v = occurrences l v ++ if x = v then [l.length] else [] := by
  unfold occurrences
  rw [length_append, length_singleton, range_succ, filter_append]
  congr 1
  · refine filter_congr fun i hi => ?_
    rw [getElem?_append_left (mem_range.mp hi)]
  · by_cases h : x = v <;> simp [h]

theorem length_occurrences (l : List T) (v : T) : (occurrences l v).length = l.count v := by
  induction l using reverseRecOn with
  | nil => rfl
  | append_singleton l x ih =>
    rw [occurrences_snoc, length_append, ih, count_append]
    by_cases h : x = v <;> simp [h]

theorem getElem?_occurrences :
    (occurrences l v)[k]? = some i ↔ l[i]? = some v ∧ (l.take i).count v = k := by
  induction l using reverseRecOn with
  | nil => simp [occurrences]
  | append_singleton l x ih =>
    rw [occurrences_snoc, getElem?_append, length_occurrences]
    rcases lt_trichotomy i l.length with hi | rfl | hi
    · rw [getElem?_append_left hi, take_append_of_le_length hi.le, ← ih]
      split_ifs with hk hx
      · exact Iff.rfl
      · have hnone : (occurrences l v)[k]? = none :=
          getElem?_eq_none (by rw [length_occurrences]; omega)
        rw [hnone, getElem?_singleton]
        split_ifs <;> simp [hi.ne']
      · have hnone : (occurrences l v)[k]? = none :=
          getElem?_eq_none (by rw [length_occurrences]; omega)
        simp [hnone]
    · rw [getElem?_concat_length, take_left' rfl]
      split_ifs with hk hx
      · rw [ih, getElem?_eq_none le_rfl]
        simp [hk.ne']
      · rw [getElem?_singleton]
        simp only [hx, true_and]
        split_ifs <;> simp <;> omega
      · simp [hx]
    · have hnone : (l ++ [x])[i]? = none := getElem?_eq_none (by simp; omega)
      have hocc : (occurrences l v)[k]? ≠ some i := by
        rw [Ne, ih, getElem?_eq_none hi.le]
        simp
      rw [hnone]
      split_ifs with hk hx
      · simpa using hocc
      · rw [getElem?_singleton]
        split_ifs <;> simp [hi.ne]
      · simp

theorem indexSource_eq (source : List T) : indexSource source = occurrences source := by
  funext v
  induction source using reverseRecOn with
  | nil => rfl
  | append_singleton source x ih =>
    unfold indexSource at ih ⊢
    rw [zipIdx_append, foldl_append, occurrences_snoc]
    by_cases h : x = v
    · subst h
      simp [ih]
    · simp [Function.update_of_ne (Ne.symm h), ih, h]

/-! ## The pass over the target -/

/-- The source index that a target index is paired with: the `k`-th occurrence of a value goes
    with its `k`-th occurrence in the source. -/
def partner (source target : List T) (j : ℕ) : Option ℕ :=
  target[j]?.bind fun v => (occurrences source v)[(target.take j).count v]?

theorem partner_snoc (hj : j < target.length) (v : T) :
    partner source (target ++ [v]) j = partner source target j := by
  unfold partner
  rw [getElem?_append_left hj, take_append_of_le_length hj.le]

theorem partner_last (source target : List T) (v : T) :
    partner source (target ++ [v]) target.length = (occurrences source v)[target.count v]? := by
  simp [partner]

/-- The state after the target: each value has the indices left that come after those taken. -/
theorem foldl_pair (source target : List T) :
    target.zipIdx.foldl Matching.pair { indexSource := indexSource source } =
      { indexSource := fun v => (occurrences source v).drop (target.count v)
        perm := (range target.length).map (partner source target)
        unmatchedTargetIndices :=
          (range target.length).filter (partner source target · = none) } := by
  induction target using reverseRecOn with
  | nil => simp [indexSource_eq]
  | append_singleton target v ih =>
    have hmap : (range target.length).map (partner source (target ++ [v])) =
        (range target.length).map (partner source target) :=
      map_congr_left fun j hj => partner_snoc (mem_range.mp hj) v
    have hflt : (range target.length).filter (partner source (target ++ [v]) · = none) =
        (range target.length).filter (partner source target · = none) :=
      filter_congr fun j hj => by rw [partner_snoc (mem_range.mp hj)]
    have hleft : (fun w => (occurrences source w).drop ((target ++ [v]).count w)) =
        Function.update (fun w => (occurrences source w).drop (target.count w)) v
          ((occurrences source v).drop (target.count v)).tail := by
      funext w
      by_cases hw : v = w
      · subst hw
        simp [count_append]
      · simp [count_append, hw, Function.update_of_ne (Ne.symm hw)]
    rw [zipIdx_append, foldl_append, ih, length_append, length_singleton,
      range_succ, map_append, filter_append, hmap, hflt, map_singleton,
      partner_last, hleft]
    simp only [zipIdx_singleton, foldl_cons, foldl_nil, Matching.pair, zero_add]
    cases hdrop : (occurrences source v).drop (target.count v) with
    | nil =>
      have hnone : (occurrences source v)[target.count v]? = none :=
        getElem?_eq_none (drop_eq_nil_iff.mp hdrop)
      have hsame := Function.update_eq_self v fun w => (occurrences source w).drop (target.count w)
      rw [hdrop] at hsame
      simp [hnone, partner_last, hsame]
    | cons first rest =>
      have hsome : (occurrences source v)[target.count v]? = some first := by
        rw [← head?_drop, hdrop, head?_cons]
      simp [hsome, partner_last]

/-! ## What is paired and what is left over -/

theorem partner_eq_some : partner source target j = some i ↔
    ∃ v, target[j]? = some v ∧ source[i]? = some v ∧
      (source.take i).count v = (target.take j).count v := by
  simp only [partner, Option.bind_eq_some_iff, getElem?_occurrences]

/-- Index `i` of `l` has more like it before than there are in `other`. -/
def LeftOver (l other : List T) (i : ℕ) : Prop :=
  ∃ v, l[i]? = some v ∧ other.count v ≤ (l.take i).count v

instance (l other : List T) (i : ℕ) : Decidable (LeftOver l other i) :=
  decidable_of_iff (∃ v ∈ l[i]?, other.count v ≤ (l.take i).count v) Iff.rfl

theorem coe_leftOver (l other : List T) :
    ((((range l.length).filter (LeftOver l other)).filterMap (l[·]?) : List T) : Multiset T) =
      (l : Multiset T) - other := by
  ext v
  rw [Multiset.count_sub, Multiset.coe_count, Multiset.coe_count, Multiset.coe_count,
    count_filterMap, countP_filter]
  have hcnt : ∀ c, (range l.length).countP
      (fun i => decide (l[i]? = some v ∧ c ≤ (l.take i).count v)) = l.count v - c := by
    intro c
    induction l using reverseRecOn with
    | nil => simp
    | append_singleton l x ih =>
      rw [length_append, length_singleton, range_succ, countP_append,
        count_append, countP_congr (q := fun i =>
          decide (l[i]? = some v ∧ c ≤ (l.take i).count v)), ih]
      · by_cases hx : x = v
        · by_cases hc : c ≤ l.count v <;> simp [hx, hc] <;> omega
        · simp [hx]
      · intro i hi
        rw [mem_range] at hi
        rw [getElem?_append_left hi, take_append_of_le_length hi.le]
  rw [← hcnt]
  refine countP_congr fun i _ => ?_
  simp only [Bool.and_eq_true, beq_iff_eq, decide_eq_true_eq]
  constructor
  · rintro ⟨hv, w, hw, hle⟩
    cases hv.symm.trans hw
    exact ⟨hv, hle⟩
  · exact fun ⟨hv, hle⟩ => ⟨hv, v, hv, hle⟩

theorem exists_occurrence (h : l[i]? = some v) :
    (∃ j, (occurrences other v)[(l.take i).count v]? = some j) ↔ ¬ LeftOver l other i := by
  have hlt : (∃ j, (occurrences other v)[(l.take i).count v]? = some j) ↔
      (l.take i).count v < other.count v := by
    rw [← length_occurrences other]
    exact ⟨fun ⟨_, hj⟩ => (List.getElem?_eq_some_iff.mp hj).1,
      fun hlt => ⟨_, getElem?_eq_getElem hlt⟩⟩
  rw [hlt]
  constructor
  · rintro hlt ⟨w, hw, hle⟩
    cases h.symm.trans hw
    omega
  · intro hnot
    exact not_le.mp fun hle => hnot ⟨v, h, hle⟩

theorem partner_eq_none (hj : j < target.length) :
    partner source target j = none ↔ LeftOver target source j := by
  obtain ⟨v, hv⟩ : ∃ v, target[j]? = some v := ⟨_, getElem?_eq_getElem hj⟩
  rw [← not_iff_not, ← exists_occurrence hv, ← Option.ne_none_iff_exists']
  simp [partner, hv]

theorem mem_partners (hi : i < source.length) :
    i ∈ (range target.length).filterMap (partner source target) ↔
      ¬ LeftOver source target i := by
  obtain ⟨v, hv⟩ : ∃ v, source[i]? = some v := ⟨_, getElem?_eq_getElem hi⟩
  rw [← exists_occurrence hv]
  simp only [mem_filterMap, mem_range, partner_eq_some, getElem?_occurrences]
  constructor
  · rintro ⟨j, -, w, hj, hw, hcnt⟩
    cases hv.symm.trans hw
    exact ⟨j, hj, hcnt.symm⟩
  · rintro ⟨j, hj, hcnt⟩
    exact ⟨j, (List.getElem?_eq_some_iff.mp hj).1, v, hj, hv, hcnt.symm⟩

theorem sort_stacks (source target : List T) :
    (source.dedup.flatMap fun v => (occurrences source v).drop (target.count v)).insertionSort
      (· ≤ ·) = (range source.length).filter (LeftOver source target) := by
  have hmem : ∀ i, i ∈ (source.dedup.flatMap fun v =>
      (occurrences source v).drop (target.count v)) ↔ LeftOver source target i := by
    intro i
    rw [mem_flatMap]
    simp only [mem_iff_getElem? (l := drop _ _), getElem?_drop, getElem?_occurrences]
    constructor
    · rintro ⟨v, -, k, hv, hcnt⟩
      exact ⟨v, hv, by omega⟩
    · rintro ⟨v, hv, hle⟩
      exact ⟨v, mem_dedup.mpr (mem_of_getElem? hv),
        (source.take i).count v - target.count v, hv, by omega⟩
  have hnodup : (source.dedup.flatMap fun v =>
      (occurrences source v).drop (target.count v)).Nodup := by
    refine nodup_flatMap.mpr ⟨fun v _ => ?_, (nodup_dedup source).imp ?_⟩
    · exact (nodup_range.filter _).sublist (drop_sublist _ _)
    · intro v w hne i hv hw
      have hv' := (mem_filter.mp (mem_of_mem_drop hv)).2
      have hw' := (mem_filter.mp (mem_of_mem_drop hw)).2
      rw [decide_eq_true_eq] at hv' hw'
      exact hne (Option.some.inj (hv'.symm.trans hw'))
  refine List.Perm.eq_of_pairwise' (pairwise_insertionSort _ _)
    ((pairwise_lt_range.imp le_of_lt).filter _) ((perm_insertionSort _ _).trans ?_)
  refine (perm_ext_iff_of_nodup hnodup (nodup_range.filter _)).mpr fun i => ?_
  rw [hmem, mem_filter, mem_range, decide_eq_true_eq]
  refine ⟨fun h => ⟨?_, h⟩, fun h => h.2⟩
  obtain ⟨v, hv, -⟩ := h
  exact (List.getElem?_eq_some_iff.mp hv).1

/-! ## The result -/

/-- An occurrence is one more before every later index. -/
theorem count_take_lt (h : l[j]? = some v) (hlt : j < k) :
    (l.take j).count v < (l.take k).count v := by
  have hnext : l.take (j + 1) = l.take j ++ [v] := by
    rw [take_add_one, h]
    rfl
  have hsub := (take_prefix_take_left (l := l) (show j + 1 ≤ k by omega)).sublist.count_le v
  rw [hnext, count_append, count_singleton_self] at hsub
  omega

theorem partners_inOrder (source target : List T) :
    ((range target.length).filterMap (partner source target)).Pairwise
      fun i i' => source[i]? = source[i']? → i < i' := by
  refine List.Pairwise.filterMap _ ?_ pairwise_lt_range
  intro j j' hlt i hi i' hi' heq
  obtain ⟨v, hj, hv, hcnt⟩ := partner_eq_some.mp hi
  obtain ⟨w, hj', hw, hcnt'⟩ := partner_eq_some.mp hi'
  cases hv.symm.trans (heq.trans hw)
  have hless := count_take_lt hj hlt
  by_contra hge
  have := ((take_prefix_take_left (l := source) (not_lt.mp hge)).sublist).count_le v
  omega

theorem map_filterMap_partner (js : List ℕ) :
    (js.filterMap (partner source target)).map (source[·]?) =
      (js.filter (partner source target · ≠ none)).map (target[·]?) := by
  induction js with
  | nil => rfl
  | cons j js ih =>
    cases hp : partner source target j with
    | none => simp [hp, ih]
    | some i =>
      obtain ⟨v, hj, hi, -⟩ := partner_eq_some.mp hp
      simp [hp, ih, hj, hi]

theorem perm_generatePermutation (source target : List T) :
    (generatePermutation source target).perm =
      (range target.length).filterMap (partner source target) := by
  simp only [generatePermutation, generateExpandedPermutation, ExpandedPermResult.collapse,
    foldl_pair, reduceOption, filterMap_map]
  rfl

theorem unmatchedSource_generatePermutation (source target : List T) :
    (generatePermutation source target).unmatchedSourceIndices =
      (range source.length).filter (LeftOver source target) := by
  simp only [generatePermutation, generateExpandedPermutation, ExpandedPermResult.collapse,
    foldl_pair]
  exact sort_stacks source target

theorem unmatchedTarget_generatePermutation (source target : List T) :
    (generatePermutation source target).unmatchedTargetIndices =
      (range target.length).filter (LeftOver target source) := by
  simp only [generatePermutation, generateExpandedPermutation, ExpandedPermResult.collapse,
    foldl_pair]
  exact filter_congr fun j hj => by simp [partner_eq_none (mem_range.mp hj)]

/-- `generate_permutation` gives distinct source indices, whose values are the target without
    what is unmatched, each occurrence with the one of the same rank. The unmatched indices are
    the other indices of the source and, in the target, what the source has too few of. No other
    pairing of the same indices with equal values has fewer inversions. -/
theorem generatePermutation_spec (source target : List T) :
    let r := generatePermutation source target
    r.perm.Nodup ∧
    r.perm.map (source[·]?) =
      ((range target.length).filter (· ∉ r.unmatchedTargetIndices)).map (target[·]?) ∧
    r.perm = (range target.length).filterMap (partner source target) ∧
    r.unmatchedSourceIndices = (range source.length).filter (· ∉ r.perm) ∧
    r.unmatchedTargetIndices.Sublist (range target.length) ∧
    ((r.unmatchedSourceIndices.filterMap (source[·]?) : List T) : Multiset T) =
      (source : Multiset T) - target ∧
    ((r.unmatchedTargetIndices.filterMap (target[·]?) : List T) : Multiset T) =
      (target : Multiset T) - source ∧
    ∀ q : List ℕ, q.Perm r.perm → q.map (source[·]?) = r.perm.map (source[·]?) →
      inversions r.perm ≤ inversions q := by
  intro r
  have hperm : r.perm = _ := perm_generatePermutation source target
  have hlef : r.unmatchedTargetIndices = _ := unmatchedTarget_generatePermutation source target
  have hleftS : r.unmatchedSourceIndices = _ := unmatchedSource_generatePermutation source target
  have horder := hperm ▸ partners_inOrder source target
  refine ⟨?_, ?_, hperm, ?_, hlef ▸ filter_sublist, ?_, ?_, ?_⟩
  · exact horder.imp fun h heq => (h (by rw [heq])).ne heq
  · rw [hperm, map_filterMap_partner, hlef]
    congr 1
    refine filter_congr fun j hj => ?_
    have hnone : partner source target j = none ↔ _ := partner_eq_none (mem_range.mp hj)
    simp [mem_range.mp hj, hnone]
  · rw [hleftS, hperm]
    refine filter_congr fun i hi => ?_
    rw [decide_eq_decide, mem_partners (mem_range.mp hi), not_not]
  · rw [hleftS]
    exact coe_leftOver source target
  · rw [hlef]
    exact coe_leftOver target source
  · exact fun q hq hkeys => inversions_le_of_keys (source[·]?) horder hq hkeys

/-- In `aba`, taking the second `a` for the one in `ba` would leave nothing out of order. -/
theorem later_partner_fewer_inversions : ∃ q : List ℕ, q.Nodup ∧
    q.map ([1, 2, 1][·]?) = (generatePermutation [1, 2, 1] [2, 1]).perm.map ([1, 2, 1][·]?) ∧
    inversions q < inversions (generatePermutation [1, 2, 1] [2, 1]).perm :=
  ⟨[1, 2], by decide +kernel⟩

end Hermit.EditDistance
