import Mathlib

/-!
# Fenwick trees

A binary indexed tree of counts over the slots `0 … len - 1`. Node `n`, for
`1 ≤ n ≤ len`, holds the sum of the counts of the slots from `n - lowestBit n` up to `n`
(`Represents`).

* `climb`: the updates of a slot visit the nodes that cover it.
* `countBefore_eq`: the counts before a slot, added up.
* `nth_spec`
* `represents_ones`: a tree of ones, built in linear time.
-/

namespace Hermit.Common.Fenwick

open Finset

/-! ## The lowest set bit -/

def lowestBit (node : ℕ) : ℕ := 2 ^ padicValNat 2 node

theorem lowestBit_pos (node : ℕ) : 0 < lowestBit node := Nat.two_pow_pos _

variable {node slot : ℕ}

theorem lowestBit_le (h : 0 < node) : lowestBit node ≤ node :=
  Nat.le_of_dvd h pow_padicValNat_dvd

theorem two_pow_dvd_iff {k : ℕ} (h : 0 < node) : 2 ^ k ∣ node ↔ 2 ^ k ≤ lowestBit node := by
  rw [padicValNat_dvd_iff_le h.ne']
  exact (Nat.pow_le_pow_iff_right (by norm_num)).symm

theorem lowestBit_odd_mul (q k : ℕ) : lowestBit ((2 * q + 1) * 2 ^ k) = 2 ^ k := by
  have hpos : 0 < (2 * q + 1) * 2 ^ k := by positivity
  have hle : 2 ^ k ≤ lowestBit ((2 * q + 1) * 2 ^ k) := (two_pow_dvd_iff hpos).mp (Dvd.intro_left _ rfl)
  have hnot : ¬ 2 ^ (k + 1) ≤ lowestBit ((2 * q + 1) * 2 ^ k) := by
    rw [← two_pow_dvd_iff hpos, pow_succ, mul_comm (2 ^ k) 2, Nat.mul_dvd_mul_iff_right (Nat.two_pow_pos k)]
    omega
  refine le_antisymm ?_ hle
  -- the lowest bit is a power of two below the next one
  rw [lowestBit, Nat.pow_le_pow_iff_right (by norm_num)] at hnot ⊢
  omega

theorem exists_odd_mul (h : 0 < node) :
    ∃ q k, node = (2 * q + 1) * 2 ^ k ∧ lowestBit node = 2 ^ k := by
  obtain ⟨c, hc⟩ := (pow_padicValNat_dvd : 2 ^ padicValNat 2 node ∣ node)
  have hodd : ¬ 2 ∣ c := by
    rintro ⟨d, rfl⟩
    have hdvd : 2 ^ (padicValNat 2 node + 1) ∣ node := ⟨d, hc.trans (by ring)⟩
    exact pow_succ_padicValNat_not_dvd h.ne' hdvd
  refine ⟨c / 2, padicValNat 2 node, ?_, rfl⟩
  have hc2 : 2 * (c / 2) + 1 = c := by omega
  rw [hc2, mul_comm]
  exact hc

/-! ## The nodes of a slot -/

def Covers (node slot : ℕ) : Prop := node - lowestBit node ≤ slot ∧ slot < node
deriving Decidable

theorem covers_succ (slot : ℕ) : Covers (slot + 1) slot := by
  have := lowestBit_pos (slot + 1)
  exact ⟨by omega, by omega⟩

theorem two_mul_lowestBit_le (h : 0 < node) :
    2 * lowestBit node ≤ lowestBit (node + lowestBit node) := by
  obtain ⟨q, k, hnode, hlow⟩ := exists_odd_mul h
  rw [hlow, ← pow_succ', ← two_pow_dvd_iff (by omega)]
  exact ⟨q + 1, by rw [hnode]; ring⟩

theorem Covers.next (h : Covers node slot) : Covers (node + lowestBit node) slot := by
  obtain ⟨hle, hlt⟩ := h
  have hdoub := two_mul_lowestBit_le (Nat.zero_lt_of_lt hlt)
  exact ⟨by omega, by omega⟩

/-- Between a node and the next one, no node reaches back to it. -/
theorem le_sub_lowestBit {other : ℕ} (h : 0 < node) (hlt : node < other)
    (hoth : other < node + lowestBit node) : node ≤ other - lowestBit other := by
  obtain ⟨q, k, hnode, hlow⟩ := exists_odd_mul h
  obtain ⟨r, j, hr, -⟩ := exists_odd_mul (Nat.sub_pos_of_lt hlt)
  have hj : j < k := by
    by_contra hge
    have hpow : 2 ^ k ≤ 2 ^ j := Nat.pow_le_pow_right (by norm_num) (by omega)
    have : 2 ^ j ≤ (2 * r + 1) * 2 ^ j := Nat.le_mul_of_pos_left _ (by omega)
    omega
  obtain ⟨d, rfl⟩ : ∃ d, k = j + 1 + d := ⟨k - (j + 1), by omega⟩
  have hsum : other = (2 * ((2 * q + 1) * 2 ^ d + r) + 1) * 2 ^ j := by
    have heq : other = node + (other - node) := by omega
    rw [heq, hr, hnode]
    ring
  have hbit : lowestBit other = 2 ^ j := by rw [hsum, lowestBit_odd_mul]
  have : 2 ^ j ≤ (2 * r + 1) * 2 ^ j := Nat.le_mul_of_pos_left _ (by omega)
  omega

theorem Covers.not_between {other : ℕ} (h : Covers node slot) (hlt : node < other)
    (hoth : other < node + lowestBit node) : ¬ Covers other slot := by
  rintro ⟨hle, -⟩
  have := le_sub_lowestBit (Nat.zero_lt_of_lt h.2) hlt hoth
  have := h.2
  omega

/-! ## The tree -/

def entry (tree : List ℕ) (node : ℕ) : ℕ := tree[node]?.getD 0

def climb (change : ℕ → Option ℕ) : ℕ → ℕ → List ℕ → Option (List ℕ)
  | 0, _, tree => some tree
  | fuel + 1, node, tree =>
    if node < tree.length then do
      let value ← change (entry tree node)
      climb change fuel (node + lowestBit node) (tree.set node value)
    else some tree

/-- Count one more at a slot. -/
def add (tree : List ℕ) (slot : ℕ) : Option (List ℕ) :=
  climb (fun value => some (value + 1)) tree.length (slot + 1) tree

/-- Count one less at a slot; fails where a count is zero. -/
def remove (tree : List ℕ) (slot : ℕ) : Option (List ℕ) :=
  climb (fun value => if value = 0 then none else some (value - 1)) tree.length (slot + 1) tree

def descend (tree : List ℕ) : ℕ → ℕ → Option ℕ
  | 0, _ => some 0
  | fuel + 1, node =>
    if 0 < node then do
      let value ← tree[node]?
      let rest ← descend tree fuel (node - lowestBit node)
      pure (value + rest)
    else some 0

def countBefore (tree : List ℕ) (slot : ℕ) : Option ℕ := descend tree slot slot

def nthFrom (tree : List ℕ) : ℕ → ℕ → ℕ → ℕ
  | 0, slot, _ => slot
  | bits + 1, slot, rest =>
    let step := 2 ^ bits
    if slot + step < tree.length ∧ entry tree (slot + step) ≤ rest then
      nthFrom tree bits (slot + step) (rest - entry tree (slot + step))
    else nthFrom tree bits slot rest

/-- The slot with exactly `n` counted before it. -/
def nth (tree : List ℕ) (n : ℕ) : ℕ :=
  nthFrom tree (if tree.length - 1 = 0 then 0 else (tree.length - 1).log2 + 1) 0 n

/-- The tree of no counts. -/
def zeros (len : ℕ) : List ℕ := List.replicate (len + 1) 0

/-- One turn of the loop of `ones`: a node is passed on to the next. -/
def passOn (len : ℕ) (tree : List ℕ) (node : ℕ) : List ℕ :=
  let parent := node + lowestBit node
  if parent ≤ len then tree.set parent (entry tree parent + entry tree node) else tree

/-- The tree of one count in each slot. -/
def ones (len : ℕ) : List ℕ :=
  (List.range' 1 len).foldl (passOn len) (0 :: List.replicate len 1)

/-! ## What a tree represents -/

def before (count : ℕ → ℕ) (slot : ℕ) : ℕ := ∑ i ∈ range slot, count i

/-- Each node holds the counts of the slots that it covers. -/
def Represents (tree : List ℕ) (count : ℕ → ℕ) : Prop :=
  ∀ node, 0 < node → node < tree.length →
    entry tree node = ∑ i ∈ Ico (node - lowestBit node) node, count i

theorem entry_set (tree : List ℕ) (h : node < tree.length) (value other : ℕ) :
    entry (tree.set node value) other = if node = other then value else entry tree other := by
  unfold entry
  rw [List.getElem?_set]
  split_ifs with hnode
  · rfl
  · rfl

theorem climb_eq {change : ℕ → Option ℕ} {result : ℕ → ℕ} :
    ∀ (fuel node : ℕ) (tree : List ℕ), Covers node slot → tree.length ≤ fuel + node →
      (∀ n, node ≤ n → n < tree.length → Covers n slot →
        change (entry tree n) = some (result (entry tree n))) →
      ∃ tree', climb change fuel node tree = some tree' ∧ tree'.length = tree.length ∧
        ∀ n < tree.length, entry tree' n =
          if node ≤ n ∧ Covers n slot then result (entry tree n) else entry tree n := by
  intro fuel
  induction fuel with
  | zero =>
    intro node tree _ hlen _
    refine ⟨tree, rfl, rfl, fun n hn => ?_⟩
    rw [if_neg (by omega)]
  | succ fuel ih =>
    intro node tree hcove hlen hchan
    unfold climb
    by_cases hnode : node < tree.length
    · have hstep := lowestBit_pos node
      obtain ⟨tree', hok, hlen', hent⟩ := ih (node + lowestBit node)
        (tree.set node (result (entry tree node))) hcove.next (by rw [List.length_set]; omega) (by
          intro n hn hnlen hncov
          rw [List.length_set] at hnlen
          rw [entry_set tree hnode, if_neg (by omega)]
          exact hchan n (by omega) hnlen hncov)
      rw [List.length_set] at hlen' hent
      refine ⟨tree', ?_, hlen', fun n hn => ?_⟩
      · rw [if_pos hnode, hchan node le_rfl hnode hcove]
        exact hok
      · rw [hent n hn, entry_set tree hnode]
        rcases Nat.lt_trichotomy node n with hlt | rfl | hgt
        · rcases Nat.lt_or_ge n (node + lowestBit node) with hblw | habove
          · -- no node between two of the slot covers it
            have hnot := hcove.not_between hlt hblw
            rw [if_neg (fun h => hnot h.2), if_neg (by omega), if_neg (fun h => hnot h.2)]
          · rw [if_neg (by omega : node ≠ n)]
            simp only [habove, hlt.le, true_and]
        · rw [if_neg (by omega), if_pos rfl, if_pos ⟨le_rfl, hcove⟩]
        · rw [if_neg (by omega), if_neg (by omega), if_neg (by omega)]
    · refine ⟨tree, if_neg hnode, rfl, fun n hn => ?_⟩
      rw [if_neg (by omega)]

variable {tree : List ℕ} {count : ℕ → ℕ}

theorem Represents.climb (h : Represents tree count) {change : ℕ → Option ℕ} (result : ℕ → ℕ)
    (hchan : ∀ node, 0 < node → node < tree.length → Covers node slot →
      change (entry tree node) = some (result (entry tree node)))
    (hres : ∀ rest, result (count slot + rest) = result (count slot) + rest) :
    ∃ tree', climb change tree.length (slot + 1) tree = some tree' ∧ tree'.length = tree.length ∧
      Represents tree' (Function.update count slot (result (count slot))) := by
  obtain ⟨tree', hok, hlen, hent⟩ := climb_eq tree.length (slot + 1) tree (covers_succ slot)
    (by omega) (fun n hn hnlen hcove => hchan n (by omega) hnlen hcove)
  refine ⟨tree', hok, hlen, fun node hpos hnode => ?_⟩
  rw [hlen] at hnode
  rw [hent node hnode, h node hpos hnode]
  by_cases hcove : Covers node slot
  · have hmem : slot ∈ Ico (node - lowestBit node) node := mem_Ico.mpr hcove
    have hle : slot + 1 ≤ node := hcove.2
    rw [if_pos ⟨hle, hcove⟩, sum_update_of_mem hmem, ← hres,
      sum_eq_add_sum_sdiff_singleton_of_mem hmem]
  · rw [if_neg (fun h => hcove h.2), sum_update_of_notMem (fun hmem => hcove (mem_Ico.mp hmem))]

theorem Represents.add (h : Represents tree count) (slot : ℕ) :
    ∃ tree', add tree slot = some tree' ∧ tree'.length = tree.length ∧
      Represents tree' (Function.update count slot (count slot + 1)) :=
  h.climb (· + 1) (fun _ _ _ _ => rfl) (fun rest => by omega)

theorem Represents.remove (h : Represents tree count) (hslot : 0 < count slot) :
    ∃ tree', remove tree slot = some tree' ∧ tree'.length = tree.length ∧
      Represents tree' (Function.update count slot (count slot - 1)) := by
  refine h.climb (· - 1) (fun node hpos hnode hcove => ?_) (fun rest => by omega)
  have hle : count slot ≤ ∑ i ∈ Ico (node - lowestBit node) node, count i :=
    single_le_sum (fun _ _ => Nat.zero_le _) (mem_Ico.mpr hcove)
  rw [if_neg]
  rw [h node hpos hnode]
  omega

theorem represents_zeros (len : ℕ) : Represents (zeros len) fun _ => 0 := by
  intro node _ hnode
  rw [zeros, List.length_replicate] at hnode
  simp [zeros, entry, hnode]

/-! ## The counts before a slot -/

theorem before_add_sum (count : ℕ → ℕ) {slot' : ℕ} (h : slot ≤ slot') :
    before count slot + ∑ i ∈ Ico slot slot', count i = before count slot' := by
  simp only [before, range_eq_Ico]
  exact sum_Ico_consecutive count (Nat.zero_le _) h

theorem before_mono (count : ℕ → ℕ) {slot' : ℕ} (h : slot ≤ slot') :
    before count slot ≤ before count slot' := by
  rw [← before_add_sum count h]
  exact Nat.le_add_right _ _

theorem Represents.descend_eq (h : Represents tree count) :
    ∀ fuel node, node ≤ fuel → node < tree.length →
      descend tree fuel node = some (before count node) := by
  intro fuel
  induction fuel with
  | zero =>
    intro node hfuel _
    obtain rfl : node = 0 := by omega
    rfl
  | succ fuel ih =>
    intro node hfuel hnode
    unfold descend
    rcases Nat.eq_zero_or_pos node with rfl | hpos
    · rfl
    · have hlow := lowestBit_pos node
      have hent := h node hpos hnode
      rw [entry, List.getElem?_eq_getElem hnode, Option.getD_some] at hent
      rw [if_pos hpos, ih _ (by omega) (by omega), List.getElem?_eq_getElem hnode, hent]
      simp only [Option.bind_eq_bind, Option.bind_some, Option.pure_def]
      rw [add_comm, before_add_sum count (Nat.sub_le _ _)]

theorem Represents.countBefore_eq (h : Represents tree count)
    (hslot : slot < tree.length) : countBefore tree slot = some (before count slot) :=
  h.descend_eq slot slot le_rfl hslot

/-! ## The slot of a total -/

/-- The node a step above a multiple of twice the step holds the counts in between. -/
theorem Represents.entry_add_two_pow (h : Represents tree count) {bits : ℕ}
    (hdvd : 2 ^ (bits + 1) ∣ slot) (hnode : slot + 2 ^ bits < tree.length) :
    before count slot + entry tree (slot + 2 ^ bits) = before count (slot + 2 ^ bits) := by
  obtain ⟨q, rfl⟩ := hdvd
  have hodd : 2 ^ (bits + 1) * q + 2 ^ bits = (2 * q + 1) * 2 ^ bits := by ring
  have hlow : lowestBit (2 ^ (bits + 1) * q + 2 ^ bits) = 2 ^ bits := by
    rw [hodd, lowestBit_odd_mul]
  rw [h _ (Nat.add_pos_right _ (Nat.two_pow_pos bits)) hnode, hlow, Nat.add_sub_cancel]
  exact before_add_sum count (Nat.le_add_right _ _)

theorem Represents.nthFrom_spec (h : Represents tree count) {n : ℕ}
    (htot : n < before count (tree.length - 1)) :
    ∀ bits slot, 2 ^ bits ∣ slot → slot < tree.length → before count slot ≤ n →
      (slot + 2 ^ bits < tree.length → n < before count (slot + 2 ^ bits)) →
      nthFrom tree bits slot (n - before count slot) < tree.length - 1 ∧
        before count (nthFrom tree bits slot (n - before count slot)) ≤ n ∧
        n < before count (nthFrom tree bits slot (n - before count slot) + 1) := by
  intro bits
  induction bits with
  | zero =>
    intro slot _ hslot hle hlt
    rw [pow_zero] at hlt
    have hne : slot ≠ tree.length - 1 := by
      rintro rfl
      omega
    exact ⟨by unfold nthFrom; omega, hle, hlt (by omega)⟩
  | succ bits ih =>
    intro slot hdvd hslot hle hlt
    have hdvd' : 2 ^ bits ∣ slot := (pow_dvd_pow 2 (Nat.le_succ bits)).trans hdvd
    have hdoub : 2 ^ (bits + 1) = 2 ^ bits + 2 ^ bits := by ring
    unfold nthFrom
    by_cases hstep : slot + 2 ^ bits < tree.length ∧
        entry tree (slot + 2 ^ bits) ≤ n - before count slot
    · have hent := h.entry_add_two_pow hdvd hstep.1
      have hrest : n - before count slot - entry tree (slot + 2 ^ bits)
          = n - before count (slot + 2 ^ bits) := by omega
      simp only [if_pos hstep, hrest]
      refine ih _ (hdvd'.add dvd_rfl) hstep.1 (by omega) (fun hlen => ?_)
      rw [hdoub, ← add_assoc] at hlt
      exact hlt hlen
    · simp only [if_neg hstep]
      refine ih _ hdvd' hslot hle (fun hlen => ?_)
      have hent := h.entry_add_two_pow hdvd hlen
      have : n - before count slot < entry tree (slot + 2 ^ bits) := by
        by_contra hge
        exact hstep ⟨hlen, by omega⟩
      omega

/-- The slot at which the counts pass `n`. -/
theorem Represents.nth_spec (h : Represents tree count) {n : ℕ}
    (htot : n < before count (tree.length - 1)) :
    nth tree n < tree.length - 1 ∧ before count (nth tree n) ≤ n ∧
      n < before count (nth tree n + 1) := by
  have hlen : tree.length - 1 ≠ 0 := by
    intro hzero
    rw [hzero] at htot
    exact absurd htot (Nat.not_lt_zero n)
  have hbits : tree.length - 1 < 2 ^ ((tree.length - 1).log2 + 1) := Nat.lt_log2_self
  have hspec := h.nthFrom_spec htot ((tree.length - 1).log2 + 1) 0 (dvd_zero _) (by omega)
    (Nat.zero_le n) (fun hlt => by omega)
  unfold nth
  rw [if_neg hlen]
  exact hspec

theorem Represents.nth_eq (h : Represents tree count) (hslot : slot < tree.length - 1)
    (hcnt : 0 < count slot) : nth tree (before count slot) = slot := by
  have hnext : before count slot < before count (slot + 1) := by
    rw [before, before, sum_range_succ]
    omega
  obtain ⟨-, hle, hlt⟩ := h.nth_spec (hnext.trans_le (before_mono count hslot))
  -- a slot on either side would be counted twice or not at all
  rcases Nat.lt_trichotomy (nth tree (before count slot)) slot with hblw | heq | habove
  · have := before_mono count (show nth tree (before count slot) + 1 ≤ slot from hblw)
    omega
  · exact heq
  · have := before_mono count (show slot + 1 ≤ nth tree (before count slot) from habove)
    omega

/-! ## The tree of ones -/

def children (node : ℕ) : Finset ℕ := {child ∈ Ico 1 node | child + lowestBit child = node}

theorem children_eq_image (h : 0 < node) :
    children node = (range (padicValNat 2 node)).image fun k => node - 2 ^ k := by
  ext child
  simp only [children, mem_filter, mem_Ico, mem_image, mem_range]
  constructor
  · rintro ⟨⟨hpos, -⟩, hnext⟩
    obtain ⟨q, k, hchd, hlow⟩ := exists_odd_mul hpos
    refine ⟨k, ?_, by omega⟩
    have hdvd : 2 ^ (k + 1) ∣ node := ⟨q + 1, by rw [← hnext, hlow, hchd]; ring⟩
    rw [padicValNat_dvd_iff_le h.ne'] at hdvd
    omega
  · rintro ⟨k, hk, rfl⟩
    have hdvd : 2 ^ (k + 1) ∣ node := (padicValNat_dvd_iff_le h.ne').mpr hk
    obtain ⟨q, rfl⟩ := hdvd
    obtain ⟨r, rfl⟩ : ∃ r, q = r + 1 := ⟨q - 1, by rcases q with - | q <;> simp_all⟩
    have hsub : 2 ^ (k + 1) * (r + 1) - 2 ^ k = (2 * r + 1) * 2 ^ k := by
      have : 2 ^ (k + 1) * (r + 1) = (2 * r + 1) * 2 ^ k + 2 ^ k := by ring
      omega
    rw [hsub, lowestBit_odd_mul]
    have hpow := Nat.two_pow_pos k
    have hle : 2 ^ k ≤ (2 * r + 1) * 2 ^ k := Nat.le_mul_of_pos_left _ (by omega)
    have hnext : (2 * r + 1) * 2 ^ k + 2 ^ k = 2 ^ (k + 1) * (r + 1) := by ring
    exact ⟨⟨by omega, by omega⟩, hnext⟩

theorem sum_children (h : 0 < node) :
    1 + ∑ child ∈ children node, lowestBit child = lowestBit node := by
  have hinj : Set.InjOn (fun k => node - 2 ^ k) (range (padicValNat 2 node)) := by
    intro k hk j hj heq
    have hbd : ∀ i ∈ range (padicValNat 2 node), 2 ^ i ≤ node := fun i hi =>
      (Nat.pow_le_pow_right (by norm_num) (mem_range.mp hi).le).trans (lowestBit_le h)
    have hkle := hbd k hk
    have hjle := hbd j hj
    have heq : node - 2 ^ k = node - 2 ^ j := heq
    exact Nat.pow_right_injective le_rfl (show 2 ^ k = 2 ^ j by omega)
  have hlow : ∀ k ∈ range (padicValNat 2 node), lowestBit (node - 2 ^ k) = 2 ^ k := by
    intro k hk
    have hmem : node - 2 ^ k ∈ children node := by
      rw [children_eq_image h]
      exact mem_image_of_mem _ hk
    obtain ⟨hrange, hnext⟩ := mem_filter.mp hmem
    have := mem_Ico.mp hrange
    omega
  rw [children_eq_image h, sum_image hinj, sum_congr rfl hlow, Nat.geomSum_eq le_rfl, lowestBit]
  have := Nat.two_pow_pos (padicValNat 2 node)
  omega

def PassedOn (len last : ℕ) (tree : List ℕ) : Prop :=
  tree.length = len + 1 ∧ ∀ node, 0 < node → node ≤ len → entry tree node =
      1 + ∑ child ∈ Ico 1 (last + 1), if child + lowestBit child = node then lowestBit child else 0

theorem PassedOn.entry_eq {len last : ℕ} {tree : List ℕ} (h : PassedOn len last tree)
    (hpos : 0 < node) (hnode : node ≤ last + 1) (hlen : node ≤ len) :
    entry tree node = lowestBit node := by
  have hall : (Ico 1 (last + 1)).filter (fun child => child + lowestBit child = node)
      = children node := by
    ext child
    have := lowestBit_pos child
    simp only [children, mem_filter, mem_Ico]
    omega
  rw [h.2 node hpos hlen, ← sum_filter, hall, sum_children hpos]

theorem PassedOn.step {len last : ℕ} {tree : List ℕ} (h : PassedOn len last tree)
    (hlast : last < len) : PassedOn len (last + 1) (passOn len tree (last + 1)) := by
  have hcurr := h.entry_eq (Nat.succ_pos last) le_rfl hlast
  obtain ⟨hlen, hent⟩ := h
  unfold passOn
  by_cases hpar : last + 1 + lowestBit (last + 1) ≤ len
  · refine ⟨by rw [if_pos hpar, List.length_set, hlen], fun node hpos hnode => ?_⟩
    rw [if_pos hpar, entry_set tree (by omega), hcurr, sum_Ico_succ_top (by omega), ← add_assoc,
      ← hent node hpos hnode]
    split_ifs with heq
    · rw [heq]
    · rfl
  · refine ⟨by rw [if_neg hpar, hlen], fun node hpos hnode => ?_⟩
    rw [if_neg hpar, sum_Ico_succ_top (by omega), if_neg (by omega), hent node hpos hnode]
    rfl

theorem passedOn_ones (len : ℕ) : PassedOn len len (ones len) := by
  have hrun : ∀ last ≤ len,
      PassedOn len last ((List.range' 1 last).foldl (passOn len) (0 :: List.replicate len 1)) := by
    intro last hlast
    induction last with
    | zero =>
      refine ⟨by simp, fun node hpos hnode => ?_⟩
      obtain ⟨k, rfl⟩ : ∃ k, node = k + 1 := ⟨node - 1, by omega⟩
      have hk : k < len := hnode
      simp [entry, hk]
    | succ last ih =>
      rw [List.range'_1_concat, List.foldl_concat, add_comm 1 last]
      exact (ih (by omega)).step hlast
  exact hrun len le_rfl

theorem represents_ones (len : ℕ) : Represents (ones len) fun _ => 1 := by
  have hpass := passedOn_ones len
  intro node hpos hnode
  rw [hpass.1] at hnode
  have hlow := lowestBit_le hpos
  rw [hpass.entry_eq hpos (by omega) (by omega), sum_const, Nat.card_Ico, smul_eq_mul]
  omega

/-! ## Counts of items -/

section Tally

variable {α : Type*} (slotOf : α → ℕ)

def tally (l : List α) (slot : ℕ) : ℕ := l.countP (slotOf · = slot)

theorem tally_cons (a : α) (l : List α) : tally slotOf (a :: l)
      = Function.update (tally slotOf l) (slotOf a) (tally slotOf l (slotOf a) + 1) := by
  funext slot
  rw [Function.update_apply, tally, List.countP_cons]
  by_cases h : slot = slotOf a
  · simp [h, tally]
  · simp [h, Ne.symm h, tally]

theorem tally_concat (l : List α) (a : α) : tally slotOf (l ++ [a]) = tally slotOf (a :: l) := by
  funext slot
  exact (List.perm_append_singleton a l).countP_eq _

theorem before_tally (l : List α) (slot : ℕ) :
    before (tally slotOf l) slot = l.countP (slotOf · < slot) := by
  induction slot with
  | zero => simp [before]
  | succ slot ih =>
    have hspl : l.countP (slotOf · < slot + 1)
        = l.countP (slotOf · < slot) + tally slotOf l slot := by
      clear ih
      induction l with
      | nil => rfl
      | cons a l ih =>
        simp only [tally, List.countP_cons, decide_eq_true_eq] at ih ⊢
        rw [ih]
        split_ifs <;> omega
    rw [hspl, ← ih, before, sum_range_succ, before]

end Tally

theorem Represents.congr (h : Represents tree count) {count' : ℕ → ℕ}
    (heq : ∀ slot < tree.length - 1, count slot = count' slot) : Represents tree count' := by
  intro node hpos hnode
  rw [h node hpos hnode]
  refine sum_congr rfl fun slot hslot => heq slot ?_
  have := mem_Ico.mp hslot
  omega

end Hermit.Common.Fenwick
