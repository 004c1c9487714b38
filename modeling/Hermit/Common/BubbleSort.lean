import Mathlib

/-!
# Bubble sort, one adjacent swap at a time

The ordinary sort is a machine (`Sorting.step`): it compares neighbours from front to end, swaps
those out of order, and starts over. `AfterSwaps` is its state after a number of swaps.

* `AfterSwaps.unique`: the swaps made determine the state.
* `AfterSwaps.inversions_eq`: each swap removes one inversion.
* `largerBefore_pass`: a pass takes one from each nonzero entry of the inversion table
  (Knuth, The Art of Computer Programming, Vol. 3, section 5.2.2).
* `afterSwaps_sweep`: the state after whole passes and the first swaps of the next.
* `inversions_le_of_keys`
-/

namespace Hermit.Common.BubbleSort

open List

variable {α : Type*} [LinearOrder α]

/-! ## The sort -/

structure Sorting (α : Type*) where
  state : List α
  position : ℕ
  swaps : ℕ

/-- Compare the two neighbours at the position; at the end, start the next pass. -/
def Sorting.step (s : Sorting α) : Sorting α :=
  match s.state.drop s.position with
  | a :: b :: rest =>
    if b < a then
      { state := s.state.take s.position ++ b :: a :: rest
        position := s.position + 1
        swaps := s.swaps + 1 }
    else { s with position := s.position + 1 }
  | _ => { s with position := 0 }

def AfterSwaps (xs : List α) (swaps : ℕ) (state : List α) : Prop :=
  ∃ steps, (Sorting.step^[steps] ⟨xs, 0, 0⟩).state = state ∧
    (Sorting.step^[steps] ⟨xs, 0, 0⟩).swaps = swaps

/-- How many pairs are out of order. -/
def inversions : List α → ℕ
  | [] => 0
  | a :: l => l.countP (· < a) + inversions l

/-- A step swaps two neighbours that are out of order, or leaves the list. -/
theorem Sorting.step_cases (s : Sorting α) :
    (∃ l a b r, s.state = l ++ a :: b :: r ∧ b < a ∧ s.step.state = l ++ b :: a :: r ∧
      s.step.swaps = s.swaps + 1) ∨
    (s.step.state = s.state ∧ s.step.swaps = s.swaps) := by
  unfold Sorting.step
  split
  · rename_i a b rest hdrop
    split
    · rename_i hlt
      refine .inl ⟨s.state.take s.position, a, b, rest, ?_, hlt, rfl, rfl⟩
      rw [← hdrop, take_append_drop]
    · exact .inr ⟨rfl, rfl⟩
  · exact .inr ⟨rfl, rfl⟩

variable {r xs state l front middle back : List α} {swaps : ℕ} {v : α}

theorem inversions_append_congr (l : List α) {r' : List α} (h : r.Perm r') :
    inversions (l ++ r') + inversions r = inversions (l ++ r) + inversions r' := by
  induction l with
  | nil => simp only [nil_append]; omega
  | cons a l ih =>
    simp only [cons_append, inversions]
    rw [((h.append_left l).countP_eq fun x => decide (x < a))]
    omega

/-- The swap of two neighbours out of order removes one inversion. -/
theorem inversions_swap (l : List α) {a b : α} (r : List α) (h : b < a) :
    inversions (l ++ b :: a :: r) + 1 = inversions (l ++ a :: b :: r) := by
  have hcongr := inversions_append_congr l (List.Perm.swap b a r)
  have hpair : inversions (b :: a :: r) + 1 = inversions (a :: b :: r) := by
    simp only [inversions, countP_cons, h, h.not_gt, decide_true, decide_false, if_true,
      Bool.false_eq_true, if_false]
    omega
  omega

/-- A smaller value moved to the front in exchange for a larger one adds no inversion. -/
theorem inversions_exchange (l r : List α) {a b : α} (h : b < a) :
    inversions (b :: (l ++ a :: r)) ≤ inversions (a :: (l ++ b :: r)) := by
  induction l with
  | nil => exact (Nat.le_succ _).trans_eq (inversions_swap [] r h)
  | cons c l ih =>
    have hab : (if a < c then 1 else 0) ≤ if b < c then 1 else 0 := by
      split_ifs with hac hbc <;> first | omega | exact absurd (h.trans hac) hbc
    have hc : (if c < b then 1 else 0) ≤ if c < a then 1 else 0 := by
      split_ifs with hcb hca <;> first | omega | exact absurd (hcb.trans h) hca
    simp only [inversions, cons_append, countP_cons, countP_append,
      decide_eq_true_eq] at ih ⊢
    omega

/-- Among the ways to arrange values in places of given keys, the one that keeps values of one
    key in order has the fewest inversions. -/
theorem inversions_le_of_keys {κ : Type*} (key : α → κ) {p : List α} :
    ∀ {q : List α}, p.Pairwise (fun a b => key a = key b → a < b) → q.Perm p →
      q.map key = p.map key → inversions p ≤ inversions q := by
  induction p with
  | nil => exact fun _ _ _ => Nat.zero_le _
  | cons x p ih =>
    intro q hp hperm hkeys
    obtain ⟨y, q, rfl, hkey, hres⟩ := map_eq_cons_iff.mp hkeys
    obtain ⟨hx, hp⟩ := pairwise_cons.mp hp
    by_cases hxy : x = y
    · subst hxy
      have hrest := perm_cons x |>.mp hperm
      simp only [inversions]
      rw [hrest.countP_eq]
      exact Nat.add_le_add_left (ih hp hrest hres) _
    · have hy : y ∈ p :=
        (mem_cons.mp (hperm.subset mem_cons_self)).resolve_left (Ne.symm hxy)
      have hxq : x ∈ q :=
        (mem_cons.mp (hperm.symm.subset mem_cons_self)).resolve_left hxy
      obtain ⟨l, r, rfl⟩ := append_of_mem hxq
      -- `y` goes to the place of `x`, so that `x` comes first here too.
      have hrest : (l ++ y :: r).Perm p := by
        have hmoved : (x :: (l ++ y :: r)).Perm (y :: (l ++ x :: r)) :=
          ((perm_middle.cons x).trans (.swap y x _)).trans (perm_middle.symm.cons y)
        exact (hmoved.trans hperm).cons_inv
      have hkeys' : (l ++ y :: r).map key = p.map key := by
        rw [← hres, map_append, map_append, map_cons, map_cons, hkey]
      calc inversions (x :: p) ≤ inversions (x :: (l ++ y :: r)) := by
            simp only [inversions]
            rw [hrest.countP_eq]
            exact Nat.add_le_add_left (ih hp hrest hkeys') _
        _ ≤ inversions (y :: (l ++ x :: r)) := inversions_exchange l r (hx y hy hkey.symm)

theorem Sorting.inversions_step (s : Sorting α) :
    inversions s.step.state + s.step.swaps = inversions s.state + s.swaps := by
  obtain ⟨l, a, b, r, hst, hlt, hst', hswaps⟩ | ⟨hst, hswaps⟩ := s.step_cases
  · have := inversions_swap l r hlt
    rw [hst', hswaps, hst]
    omega
  · rw [hst, hswaps]

theorem Sorting.inversions_iterate (s : Sorting α) (steps : ℕ) :
    inversions (step^[steps] s).state + (step^[steps] s).swaps = inversions s.state + s.swaps := by
  induction steps with
  | zero => rfl
  | succ steps ih => rw [Function.iterate_succ_apply', inversions_step, ih]

theorem AfterSwaps.inversions_eq (h : AfterSwaps xs swaps state) :
    inversions state + swaps = inversions xs := by
  obtain ⟨steps, rfl, rfl⟩ := h
  exact Sorting.inversions_iterate ⟨xs, 0, 0⟩ steps

theorem AfterSwaps.perm (h : AfterSwaps xs swaps state) : state.Perm xs := by
  obtain ⟨steps, rfl, -⟩ := h
  induction steps with
  | zero => exact .refl xs
  | succ steps ih =>
    rw [Function.iterate_succ_apply']
    obtain ⟨l, a, b, r, hst, -, hst', -⟩ | ⟨hst, -⟩ :=
      (Sorting.step^[steps] ⟨xs, 0, 0⟩).step_cases
    · rw [hst']
      rw [hst] at ih
      exact ((List.Perm.swap a b r).append_left l).trans ih
    · rwa [hst]

/-- As long as no swap is made, the list is the same. -/
theorem Sorting.state_of_swaps_eq (s : Sorting α) (steps : ℕ) : s.swaps ≤ (step^[steps] s).swaps ∧
      ((step^[steps] s).swaps = s.swaps → (step^[steps] s).state = s.state) := by
  induction steps with
  | zero => exact ⟨le_rfl, fun _ => rfl⟩
  | succ steps ih =>
    rw [Function.iterate_succ_apply']
    obtain ⟨l, a, b, r, -, -, -, hswaps⟩ | ⟨hst, hswaps⟩ := (step^[steps] s).step_cases
    · exact ⟨by omega, fun h => by omega⟩
    · rw [hst, hswaps]
      exact ih

theorem AfterSwaps.unique {state' : List α} (h : AfterSwaps xs swaps state)
    (h' : AfterSwaps xs swaps state') : state = state' := by
  obtain ⟨n, rfl, hn⟩ := h
  obtain ⟨m, rfl, hm⟩ := h'
  -- the later of the two states is reached from the earlier one without a swap
  wlog hle : n ≤ m generalizing n m
  · exact (this m hm n hn (by omega)).symm
  obtain ⟨d, rfl⟩ := Nat.exists_eq_add_of_le' hle
  rw [Function.iterate_add_apply] at hm ⊢
  exact ((Sorting.state_of_swaps_eq _ d).2 (hm.trans hn.symm)).symm

/-! ## Passes -/

/-- A pass that carries `a` along and stops after `left` swaps. -/
def sweepFrom : ℕ → α → List α → List α
  | _, a, [] => [a]
  | 0, a, b :: l => a :: b :: l
  | left + 1, a, b :: l => if b < a then b :: sweepFrom left a l else a :: sweepFrom (left + 1) b l

/-- The first `left` swaps of a pass. -/
def sweep (left : ℕ) : List α → List α
  | [] => []
  | a :: l => sweepFrom left a l

def pass (xs : List α) : List α := sweep xs.length xs

/-- How many swaps a pass makes that carries `a` along. -/
def swapsFrom : α → List α → ℕ
  | _, [] => 0
  | a, b :: l => if b < a then swapsFrom a l + 1 else swapsFrom b l

/-- How many swaps a pass makes. -/
def swapsOf : List α → ℕ
  | [] => 0
  | a :: l => swapsFrom a l

@[simp]
theorem sweepFrom_zero (a : α) (l : List α) : sweepFrom 0 a l = a :: l := by
  cases l <;> rfl

@[simp]
theorem sweep_zero (xs : List α) : sweep 0 xs = xs := by
  cases xs with
  | nil => rfl
  | cons a l => exact sweepFrom_zero a l

theorem sweepFrom_perm (left : ℕ) (a : α) (l : List α) : (sweepFrom left a l).Perm (a :: l) := by
  induction l generalizing left a with
  | nil => simp [sweepFrom]
  | cons b l ih =>
    cases left with
    | zero => simp
    | succ left =>
      unfold sweepFrom
      split_ifs with hlt
      · exact ((ih left a).cons b).trans (.swap a b l)
      · exact (ih (left + 1) b).cons a

theorem sweep_perm (left : ℕ) (xs : List α) : (sweep left xs).Perm xs := by
  cases xs with
  | nil => exact .nil
  | cons a l => exact sweepFrom_perm left a l

theorem swapsFrom_le_length (a : α) (l : List α) : swapsFrom a l ≤ l.length := by
  induction l generalizing a with
  | nil => exact Nat.zero_le 0
  | cons b l ih =>
    have := ih a
    have := ih b
    unfold swapsFrom
    split_ifs <;> simp only [length_cons] <;> omega

theorem inversions_sweepFrom (left : ℕ) (a : α) (l : List α) :
    inversions (sweepFrom left a l) + min left (swapsFrom a l) = inversions (a :: l) := by
  induction l generalizing left a with
  | nil => simp [sweepFrom, swapsFrom]
  | cons b l ih =>
    cases left with
    | zero => simp
    | succ left =>
      unfold sweepFrom swapsFrom
      split_ifs with hlt
      · have hswap := inversions_swap [] l hlt
        have hcnt := (sweepFrom_perm left a l).countP_eq fun x => decide (x < b)
        have := ih left a
        simp only [nil_append, inversions] at this hswap ⊢
        rw [hcnt]
        omega
      · have hcnt := (sweepFrom_perm (left + 1) b l).countP_eq fun x => decide (x < a)
        have := ih (left + 1) b
        simp only [inversions] at this ⊢
        rw [hcnt]
        omega

theorem inversions_sweep (left : ℕ) (xs : List α) :
    inversions (sweep left xs) + min left (swapsOf xs) = inversions xs := by
  cases xs with
  | nil => simp [sweep, swapsOf]
  | cons a l => exact inversions_sweepFrom left a l

theorem inversions_pass (xs : List α) : inversions (pass xs) + swapsOf xs = inversions xs := by
  have hle : swapsOf xs ≤ xs.length := by
    cases xs with
    | nil => exact le_rfl
    | cons a l => exact (swapsFrom_le_length a l).trans (Nat.le_succ _)
  rw [← inversions_sweep xs.length xs, Nat.min_eq_right hle, pass]

/-! ### On the machine -/

/-- The machine makes the sweep; if it is a whole pass it stands at the end. -/
theorem exists_iterate_sweepFrom (l : List α) :
    ∀ (front : List α) (a : α) (left swaps : ℕ), ∃ steps position swaps',
      Sorting.step^[steps] ⟨front ++ a :: l, front.length, swaps⟩
          = ⟨front ++ sweepFrom left a l, position, swaps'⟩ ∧
        (l.length ≤ left → position = front.length + l.length) := by
  induction l with
  | nil => exact fun front a left swaps => ⟨0, front.length, swaps, rfl, fun _ => rfl⟩
  | cons b l ih =>
    intro front a left swaps
    cases left with
    | zero => exact ⟨0, front.length, swaps, by simp, fun h => absurd h (by simp)⟩
    | succ left =>
      have hstep : Sorting.step ⟨front ++ a :: b :: l, front.length, swaps⟩
          = if b < a then ⟨(front ++ [b]) ++ a :: l, (front ++ [b]).length, swaps + 1⟩
            else ⟨(front ++ [a]) ++ b :: l, (front ++ [a]).length, swaps⟩ := by
        unfold Sorting.step
        simp
      unfold sweepFrom
      by_cases hlt : b < a
      · obtain ⟨steps, position, swaps', hrun, hend⟩ := ih (front ++ [b]) a left (swaps + 1)
        refine ⟨steps + 1, position, swaps', ?_, fun hle => ?_⟩
        · rw [Function.iterate_succ_apply, hstep, if_pos hlt, hrun, if_pos hlt]
          simp
        · rw [hend (by simpa using hle)]
          simp only [length_append, length_cons, length_nil]
          omega
      · obtain ⟨steps, position, swaps', hrun, hend⟩ := ih (front ++ [a]) b (left + 1) swaps
        refine ⟨steps + 1, position, swaps', ?_, fun hle => ?_⟩
        · rw [Function.iterate_succ_apply, hstep, if_neg hlt, hrun, if_neg hlt]
          simp
        · rw [hend (by simp only [length_cons] at hle; omega)]
          simp only [length_append, length_cons, length_nil]
          omega

theorem exists_iterate_sweep (xs : List α) (left swaps : ℕ) :
    ∃ steps position swaps', Sorting.step^[steps] ⟨xs, 0, swaps⟩
      = ⟨sweep left xs, position, swaps'⟩ ∧ (xs.length ≤ left → xs.length ≤ position + 1) := by
  cases xs with
  | nil => exact ⟨0, 0, swaps, rfl, fun _ => Nat.zero_le _⟩
  | cons a l =>
    obtain ⟨steps, position, swaps', hrun, hend⟩ := exists_iterate_sweepFrom l [] a left swaps
    refine ⟨steps, position, swaps', hrun, fun hle => ?_⟩
    have := hend (by simp only [length_cons] at hle; omega)
    simp only [length_cons, length_nil] at this ⊢
    omega

theorem exists_iterate_pass (xs : List α) (swaps : ℕ) :
    ∃ steps swaps', Sorting.step^[steps] ⟨xs, 0, swaps⟩ = ⟨pass xs, 0, swaps'⟩ := by
  obtain ⟨steps, position, swaps', hrun, hend⟩ := exists_iterate_sweep xs xs.length swaps
  refine ⟨steps + 1, swaps', ?_⟩
  have hlen : (sweep xs.length xs).length = xs.length := (sweep_perm _ xs).length_eq
  have hshort : ((sweep xs.length xs).drop position).length ≤ 1 := by
    have := hend le_rfl
    rw [length_drop]
    omega
  rw [Function.iterate_succ_apply', hrun]
  unfold Sorting.step
  split
  · rename_i heq
    rw [heq] at hshort
    simp at hshort
  · rfl

theorem exists_iterate_passes (xs : List α) (passes : ℕ) :
    ∃ steps swaps, Sorting.step^[steps] ⟨xs, 0, 0⟩ = ⟨pass^[passes] xs, 0, swaps⟩ := by
  induction passes with
  | zero => exact ⟨0, 0, rfl⟩
  | succ passes ih =>
    obtain ⟨steps, swaps, hrun⟩ := ih
    obtain ⟨more, swaps', hpass⟩ := exists_iterate_pass (pass^[passes] xs) swaps
    refine ⟨more + steps, swaps', ?_⟩
    rw [Function.iterate_add_apply, hrun, hpass, Function.iterate_succ_apply']

theorem afterSwaps_sweep (xs : List α) (passes left : ℕ) :
    AfterSwaps xs (inversions xs - inversions (sweep left (pass^[passes] xs)))
      (sweep left (pass^[passes] xs)) := by
  obtain ⟨steps, swaps, hrun⟩ := exists_iterate_passes xs passes
  obtain ⟨more, position, swaps', hsweep, -⟩ :=
    exists_iterate_sweep (pass^[passes] xs) left swaps
  have haft : Sorting.step^[more + steps] ⟨xs, 0, 0⟩
      = ⟨sweep left (pass^[passes] xs), position, swaps'⟩ := by
    rw [Function.iterate_add_apply, hrun, hsweep]
  refine ⟨more + steps, by rw [haft], ?_⟩
  have hinv := Sorting.inversions_iterate ⟨xs, 0, 0⟩ (more + steps)
  rw [haft] at hinv ⊢
  simp only at hinv ⊢
  omega

/-! ## The inversion table -/

/-- How many larger values stand before a value. -/
def largerBefore : List α → α → ℕ
  | [], _ => 0
  | a :: l, v => if a = v then 0 else largerBefore l v + if v < a then 1 else 0

theorem largerBefore_cons_of_ne {a : α} (l : List α) (h : a ≠ v) :
    largerBefore (a :: l) v = largerBefore l v + if v < a then 1 else 0 := if_neg h

@[simp]
theorem largerBefore_cons_self (a : α) (l : List α) : largerBefore (a :: l) a = 0 := if_pos rfl

theorem largerBefore_append_cons (r : List α) (h : v ∉ l) :
    largerBefore (l ++ v :: r) v = l.countP (v < ·) := by
  induction l with
  | nil => simp
  | cons a l ih =>
    obtain ⟨hne, hl⟩ := not_or.mp (mt mem_cons.mpr h)
    rw [cons_append, largerBefore_cons_of_ne _ (Ne.symm hne), ih hl, countP_cons]
    simp only [decide_eq_true_eq]

omit [LinearOrder α] in
theorem sum_map_ite_one (l : List α) (p : α → Prop) [DecidablePred p] :
    (l.map fun v => if p v then 1 else 0).sum = l.countP p := by
  induction l with
  | nil => rfl
  | cons a l ih =>
    rw [map_cons, sum_cons, ih, countP_cons]
    simp only [decide_eq_true_eq]
    omega

/-- In a list without duplicates they are counted by position. -/
theorem largerBefore_eq_countP (h : xs.Nodup) (hv : v ∈ xs) :
    largerBefore xs v = xs.countP fun u => v < u ∧ xs.idxOf u < xs.idxOf v := by
  obtain ⟨l, r, rfl⟩ := append_of_mem hv
  obtain ⟨-, hr, hne⟩ := nodup_append.mp h
  have hvl : v ∉ l := fun hmem => hne v hmem v mem_cons_self rfl
  have hidx : (l ++ v :: r).idxOf v = l.length := by
    rw [idxOf_append_of_notMem hvl, idxOf_cons_self, Nat.add_zero]
  have haft : (v :: r).countP (fun u => v < u ∧ (l ++ v :: r).idxOf u < l.length) = 0 := by
    refine countP_eq_zero.mpr fun u hu => ?_
    have hul : u ∉ l := fun hmem => hne u hmem u hu rfl
    rw [idxOf_append_of_notMem hul]
    simp
  rw [largerBefore_append_cons r hvl, hidx, countP_append, haft, Nat.add_zero]
  refine countP_congr fun u hu => ?_
  have := idxOf_lt_length_of_mem hu
  rw [idxOf_append_of_mem hu]
  simp [this]

/-- The entries of the table count the inversions. -/
theorem sum_largerBefore (h : xs.Nodup) : (xs.map (largerBefore xs)).sum = inversions xs := by
  induction xs with
  | nil => rfl
  | cons a l ih =>
    obtain ⟨ha, hl⟩ := nodup_cons.mp h
    have hentr : l.map (largerBefore (a :: l))
        = l.map fun v => largerBefore l v + if v < a then 1 else 0 :=
      map_congr_left fun v hv =>
        largerBefore_cons_of_ne l fun heq => ha (heq ▸ hv)
    rw [map_cons, sum_cons, largerBefore_cons_self, hentr, sum_map_add, ih hl,
      sum_map_ite_one, inversions]
    omega

/-- A pass takes one from each nonzero entry. -/
theorem largerBefore_sweepFrom :
    ∀ {left : ℕ} {a v : α}, (a :: l).Nodup → l.length ≤ left → v ∈ a :: l →
      largerBefore (sweepFrom left a l) v = largerBefore (a :: l) v - 1 := by
  induction l with
  | nil =>
    intro left a v _ _ hv
    obtain rfl := mem_singleton.mp hv
    simp [sweepFrom]
  | cons b l ih =>
    intro left a v hnodup hleft hv
    obtain ⟨left, rfl⟩ : ∃ k, left = k + 1 := ⟨left - 1, by simp only [length_cons] at hleft; omega⟩
    simp only [length_cons, Nat.add_le_add_iff_right] at hleft
    simp only [nodup_cons, mem_cons, not_or] at hnodup
    obtain ⟨⟨hab, hal⟩, hbl, hl⟩ := hnodup
    unfold sweepFrom
    split_ifs with hlt
    · by_cases hvb : b = v
      · subst hvb
        rw [largerBefore_cons_self, largerBefore_cons_of_ne _ hab, largerBefore_cons_self, if_pos hlt]
      · have hv' : v ∈ a :: l := by
          simp only [mem_cons] at hv ⊢
          tauto
        rw [largerBefore_cons_of_ne _ hvb, ih (nodup_cons.mpr ⟨hal, hl⟩) hleft hv']
        by_cases hva : a = v
        · subst hva
          simp [hlt.not_gt]
        · rw [largerBefore_cons_of_ne _ hva, largerBefore_cons_of_ne _ hva,
            largerBefore_cons_of_ne _ hvb]
          -- a value below `b` is below `a`
          have : v < b → v < a := fun h => h.trans hlt
          split_ifs <;> first | omega | tauto
    · have hab' : a < b := lt_of_le_of_ne (not_lt.mp hlt) hab
      by_cases hva : a = v
      · subst hva
        simp
      · have hv' : v ∈ b :: l := by
          simp only [mem_cons] at hv ⊢
          tauto
        rw [largerBefore_cons_of_ne _ hva, largerBefore_cons_of_ne _ hva,
          ih (nodup_cons.mpr ⟨hbl, hl⟩) (by omega) hv']
        by_cases hvb : b = v
        · subst hvb
          simp [hab'.not_gt]
        · rw [largerBefore_cons_of_ne _ hvb]
          have : v < a → v < b := fun h => h.trans hab'
          split_ifs <;> first | omega | tauto

theorem largerBefore_pass (h : xs.Nodup) (hv : v ∈ xs) :
    largerBefore (pass xs) v = largerBefore xs v - 1 := by
  cases xs with
  | nil => exact absurd hv not_mem_nil
  | cons => exact largerBefore_sweepFrom h (by simp) hv

theorem pass_perm (xs : List α) : (pass xs).Perm xs := sweep_perm _ xs

theorem passes_perm (xs : List α) (passes : ℕ) : (pass^[passes] xs).Perm xs := by
  induction passes with
  | zero => exact .refl xs
  | succ passes ih =>
    rw [Function.iterate_succ_apply']
    exact (pass_perm _).trans ih

theorem largerBefore_passes (h : xs.Nodup) (passes : ℕ) (hv : v ∈ xs) :
    largerBefore (pass^[passes] xs) v = largerBefore xs v - passes := by
  induction passes with
  | zero => rfl
  | succ passes ih =>
    have hperm := passes_perm xs passes
    rw [Function.iterate_succ_apply', largerBefore_pass (hperm.nodup_iff.mpr h) (hperm.mem_iff.mpr hv),
      ih]
    omega

theorem inversions_passes (h : xs.Nodup) (passes : ℕ) :
    inversions (pass^[passes] xs) = (xs.map fun v => largerBefore xs v - passes).sum := by
  have hperm := passes_perm xs passes
  rw [← sum_largerBefore (hperm.nodup_iff.mpr h), (hperm.map _).sum_eq]
  exact congrArg sum (map_congr_left fun v hv => largerBefore_passes h passes hv)

theorem swapsOf_passes (h : xs.Nodup) (passes : ℕ) :
    swapsOf (pass^[passes] xs) = xs.countP fun v => passes < largerBefore xs v := by
  have hsum := inversions_pass (pass^[passes] xs)
  have hnext := inversions_passes h (passes + 1)
  rw [Function.iterate_succ_apply'] at hnext
  rw [hnext, inversions_passes h] at hsum
  have hspl : (xs.map fun v => largerBefore xs v - passes)
      = xs.map fun v => (largerBefore xs v - (passes + 1)) + if passes < largerBefore xs v then 1 else 0 :=
    map_congr_left fun v _ => by split_ifs <;> omega
  rw [hspl, sum_map_add, sum_map_ite_one] at hsum
  omega

/-! ## Between sorted ends -/

/-- A sorted end that is above all the rest stays. -/
theorem sweepFrom_append (hr : r.Pairwise (· ≤ ·)) :
    ∀ (left : ℕ) (a : α), (∀ x ∈ a :: l, ∀ y ∈ r, x ≤ y) →
      sweepFrom left a (l ++ r) = sweepFrom left a l ++ r := by
  induction l with
  | nil =>
    intro left a hle
    induction r generalizing a with
    | nil => rfl
    | cons b r ih =>
      obtain ⟨hb, hr⟩ := pairwise_cons.mp hr
      have hab : ¬ b < a := not_lt.mpr (hle a (by simp) b (by simp))
      cases left with
      | zero => simp
      | succ left =>
        have hrest := ih hr b (by simpa using hb)
        simp only [nil_append, sweepFrom, singleton_append] at hrest ⊢
        rw [if_neg hab, hrest]
  | cons b l ih =>
    intro left a hle
    cases left with
    | zero => simp
    | succ left =>
      have ha := ih left a fun x hx => hle x (by simp only [mem_cons] at hx ⊢; tauto)
      have hb := ih (left + 1) b fun x hx => hle x (mem_cons_of_mem a hx)
      simp only [cons_append, sweepFrom]
      rw [ha, hb]
      split_ifs <;> rfl

/-- A sorted front that is below all the rest stays. -/
theorem sweep_append_left (left : ℕ) (hl : l.Pairwise (· ≤ ·))
    (hle : ∀ x ∈ l, ∀ y ∈ r, x ≤ y) : sweep left (l ++ r) = l ++ sweep left r := by
  induction l with
  | nil => rfl
  | cons a l ih =>
    obtain ⟨ha, hl⟩ := pairwise_cons.mp hl
    have hrest := ih hl fun x hx => hle x (mem_cons_of_mem a hx)
    have hblw : ∀ y ∈ l ++ r, ¬ y < a := fun y hy =>
      (mem_append.mp hy).elim (fun hy => not_lt.mpr (ha y hy))
        (fun hy => not_lt.mpr (hle a mem_cons_self y hy))
    rw [cons_append, cons_append, ← hrest]
    -- the first value is not carried past the second
    cases hcases : l ++ r with
    | nil => rfl
    | cons b rest =>
      rw [hcases] at hblw
      cases left with
      | zero => simp [sweep]
      | succ left =>
        rw [sweep, sweepFrom, if_neg (hblw b mem_cons_self), sweep]

/-- Sorted ends below and above the rest. -/
structure Between (front middle back : List α) : Prop where
  front_sorted : front.Pairwise (· ≤ ·)
  back_sorted : back.Pairwise (· ≤ ·)
  front_le : ∀ x ∈ front, ∀ y ∈ middle ++ back, x ≤ y
  le_back : ∀ x ∈ middle, ∀ y ∈ back, x ≤ y

theorem Between.of_perm {middle' : List α} (h : Between front middle back)
    (hperm : middle'.Perm middle) : Between front middle' back where
  front_sorted := h.front_sorted
  back_sorted := h.back_sorted
  front_le x hx y hy := h.front_le x hx y ((hperm.append_right back).mem_iff.mp hy)
  le_back x hx := h.le_back x (hperm.mem_iff.mp hx)

theorem Between.sweep_eq (h : Between front middle back) (left : ℕ) :
    sweep left (front ++ (middle ++ back)) = front ++ (sweep left middle ++ back) := by
  rw [sweep_append_left left h.front_sorted h.front_le]
  congr 1
  cases middle with
  | nil =>
    have hsort : sweep left (back ++ []) = back ++ sweep left [] :=
      sweep_append_left left h.back_sorted (by simp)
    simpa [sweep] using hsort
  | cons a l => exact sweepFrom_append h.back_sorted left a h.le_back

/-- A sweep that can make as many swaps as the list is long is a pass. -/
theorem sweepFrom_of_length_le :
    ∀ (left : ℕ) (a : α), l.length ≤ left → sweepFrom left a l = sweepFrom l.length a l := by
  induction l with
  | nil => exact fun _ _ _ => by simp [sweepFrom]
  | cons b l ih =>
    intro left a hle
    obtain ⟨left, rfl⟩ : ∃ k, left = k + 1 := ⟨left - 1, by simp only [length_cons] at hle; omega⟩
    simp only [length_cons, Nat.add_le_add_iff_right] at hle
    simp only [length_cons, sweepFrom]
    rw [ih left a hle, ih (left + 1) b (by omega), ih (l.length + 1) b (by omega)]

theorem sweep_of_length_le {left : ℕ} (h : xs.length ≤ left) : sweep left xs = pass xs := by
  cases xs with
  | nil => rfl
  | cons a l =>
    simp only [length_cons] at h
    rw [pass, sweep, sweep, sweepFrom_of_length_le left a (by omega),
      sweepFrom_of_length_le (a :: l).length a (by simp)]

theorem Between.passes_eq (h : Between front middle back) (passes : ℕ) :
    pass^[passes] (front ++ (middle ++ back)) = front ++ (pass^[passes] middle ++ back) := by
  induction passes with
  | zero => rfl
  | succ passes ih =>
    have hnext := h.of_perm (passes_perm middle passes)
    rw [Function.iterate_succ_apply', ih, pass, hnext.sweep_eq, Function.iterate_succ_apply',
      sweep_of_length_le (by simp only [length_append]; omega)]

theorem inversions_append_of_le (hle : ∀ x ∈ l, ∀ y ∈ r, x ≤ y) :
    inversions (l ++ r) = inversions l + inversions r := by
  induction l with
  | nil => simp [inversions]
  | cons a l ih =>
    have hnone : r.countP (· < a) = 0 :=
      countP_eq_zero.mpr fun y hy => by simpa using hle a mem_cons_self y hy
    rw [cons_append, inversions, inversions, countP_append, hnone,
      ih fun x hx => hle x (mem_cons_of_mem a hx)]
    omega

theorem inversions_eq_zero (h : l.Pairwise (· ≤ ·)) : inversions l = 0 := by
  induction l with
  | nil => rfl
  | cons a l ih =>
    obtain ⟨ha, hl⟩ := pairwise_cons.mp h
    rw [inversions, ih hl, Nat.add_zero, countP_eq_zero]
    exact fun y hy => by simpa using ha y hy

theorem pairwise_of_inversions_eq_zero (h : inversions l = 0) : l.Pairwise (· ≤ ·) := by
  induction l with
  | nil => exact .nil
  | cons a l ih =>
    obtain ⟨hcnt, hrest⟩ := Nat.add_eq_zero_iff.mp h
    refine pairwise_cons.mpr ⟨fun y hy => ?_, ih hrest⟩
    simpa using countP_eq_zero.mp hcnt y hy

theorem Between.inversions_eq (h : Between front middle back) :
    inversions (front ++ (middle ++ back)) = inversions middle := by
  rw [inversions_append_of_le h.front_le, inversions_append_of_le h.le_back,
    inversions_eq_zero h.front_sorted, inversions_eq_zero h.back_sorted]
  omega

/-- The state of the sort: the ends stay, the middle has had whole passes and the first swaps
    of the next. -/
theorem Between.afterSwaps (h : Between front middle back)
    {passes made left : ℕ} (hmade : inversions (pass^[passes] middle) + made = inversions middle)
    (hleft : left ≤ swapsOf (pass^[passes] middle)) :
    AfterSwaps (front ++ (middle ++ back)) (made + left)
      (front ++ (sweep left (pass^[passes] middle) ++ back)) := by
  have hpas := h.of_perm (passes_perm middle passes)
  have haft := afterSwaps_sweep (front ++ (middle ++ back)) passes left
  rw [h.passes_eq, hpas.sweep_eq, h.inversions_eq,
    (hpas.of_perm (sweep_perm left _)).inversions_eq] at haft
  have hsweep := inversions_sweep left (pass^[passes] middle)
  rw [Nat.min_eq_left hleft] at hsweep
  rwa [show inversions middle - inversions (sweep left (pass^[passes] middle)) = made + left
    by omega] at haft

end Hermit.Common.BubbleSort
