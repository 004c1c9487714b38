import Hermit.Pedigree.Fork

/-!
# Virtual process IDs

The conversion of a `Pedigree` to a process ID (`detcore-model/src/pedigree.rs`, lines 21-45 and
104-177). It takes the longest run out of the trimmed path and packs the rest of the path (the
tree) with the place, kind and length of the run into a `pid_t`.

The tree is padded to 16 bits in front and its length is not packed, so that parent steps at the
start of a tree are lost: `virtual_pids_collide` has two live threads with one process ID.

Main results:

* `live_virtual_pids_distinct`: no other two live threads share a process ID.
-/

namespace Hermit.Pedigree

open List

/-! ## The longest run -/

/-- The variables of `longest_run`. -/
structure RunScan where
  prevBit : Bool := false
  prevCount : ℕ := 1
  maxCount : ℕ := 0
  maxStart : ℕ := 0

/-- The body of the loop. -/
def RunScan.step (s : RunScan) (entry : Bool × ℕ) : RunScan :=
  let count := if 0 < entry.2 ∧ s.prevBit = entry.1 then s.prevCount + 1 else 1
  if s.maxCount < count then ⟨entry.1, count, count, entry.2 + 1 - count⟩
  else ⟨entry.1, count, s.maxCount, s.maxStart⟩

def longestRun (sequence : List Bool) : ℕ × ℕ :=
  let s := sequence.zipIdx.foldl RunScan.step {}
  (s.maxStart, s.maxCount)

structure Scanned (done : List Bool) (s : RunScan) : Prop where
  current : ∃ before, done = before ++ replicate s.prevCount s.prevBit
  count_le : s.prevCount ≤ s.maxCount
  pos : 0 < s.maxCount
  longest : ∃ before bit after, done = before ++ replicate s.maxCount bit ++ after ∧
    s.maxStart = before.length ∧ after.head? ≠ some bit ∧
    (after = [] → s.prevCount = s.maxCount ∧ s.prevBit = bit)

theorem Scanned.current_step {done : List Bool} {s : RunScan} (h : Scanned done s) (bit : Bool) :
    ∃ before, done ++ [bit]
      = before ++ replicate (if s.prevBit = bit then s.prevCount + 1 else 1) bit := by
  obtain ⟨before, hdone⟩ := h.current
  split_ifs with hsame
  · refine ⟨before, ?_⟩
    rw [hdone, hsame, replicate_succ', append_assoc]
  · exact ⟨done, rfl⟩

theorem Scanned.step {done : List Bool} {s : RunScan} (h : Scanned done s) (hne : done ≠ [])
    (bit : Bool) : Scanned (done ++ [bit]) (s.step (bit, done.length)) := by
  obtain ⟨before, hcurr⟩ := h.current_step bit
  have hpos : 0 < done.length := length_pos_of_ne_nil hne
  have hle := h.count_le
  have hmax := h.pos
  simp only [RunScan.step, hpos, true_and]
  generalize hcnt : (if s.prevBit = bit then s.prevCount + 1 else 1) = count at hcurr ⊢
  split_ifs with hlong
  · -- the run that is going on is the longest so far
    refine ⟨⟨before, hcurr⟩, le_rfl, by simp only; omega, before, bit, [],
      by simpa using hcurr, ?_, by simp, by simp⟩
    have hlen := congrArg length hcurr
    simp only [length_append, length_singleton, length_replicate] at hlen
    simp only
    omega
  · obtain ⟨front, kind, after, hdone, hsta, haft, hopen⟩ := h.longest
    refine ⟨⟨before, hcurr⟩, by simp only; omega, hmax, front, kind, after ++ [bit], ?_, hsta,
      ?_, by simp⟩
    · rw [hdone, append_assoc]
    · cases after with
      | cons => simpa using haft
      | nil =>
        -- the longest run ended here, or the bit would have made it longer
        obtain ⟨hprev, rfl⟩ := hopen rfl
        have hdiff : s.prevBit ≠ bit := by
          intro hsame
          rw [if_pos hsame] at hcnt
          omega
        simpa using hdiff.symm

theorem scanned {sequence : List Bool} (hne : sequence ≠ []) :
    Scanned sequence (sequence.zipIdx.foldl RunScan.step {}) := by
  induction sequence using reverseRecOn with
  | nil => exact absurd rfl hne
  | append_singleton done bit ih =>
    rw [zipIdx_append, foldl_append, zipIdx_singleton, foldl_cons, foldl_nil, Nat.zero_add]
    by_cases hnil : done = []
    · subst hnil
      exact ⟨⟨[], rfl⟩, le_rfl, Nat.one_pos, [], bit, [], rfl, rfl, by simp, fun _ => ⟨rfl, rfl⟩⟩
    · exact (ih hnil).step hnil bit

theorem longestRun_spec {sequence : List Bool} (hne : sequence ≠ []) :
    ∃ before bit after, sequence = before ++ replicate (longestRun sequence).2 bit ++ after ∧
      (longestRun sequence).1 = before.length ∧ 0 < (longestRun sequence).2 ∧
      after.head? ≠ some bit := by
  obtain ⟨before, bit, after, hsequ, hsta, haft, -⟩ := (scanned hne).longest
  exact ⟨before, bit, after, hsequ, hsta, (scanned hne).pos, haft⟩

/-! ## The conversion -/

/-- The lowest bits of a number, the highest of them first: `from_element` and `split_off`. -/
def toBits : ℕ → ℕ → List Bool
  | 0, _ => []
  | width + 1, n => n.testBit width :: toBits width n

/-- The number with these bits, the highest first: `into_vec` of an `Msb0` bit vector. -/
def ofBits (bits : List Bool) : ℕ := bits.foldl (fun n bit => 2 * n + bit.toNat) 0

/-- The bits packed into a `pid_t`: the sign bit, the tree padded to 16 bits, the place of
    the run, its kind, and its length. -/
def vpidBits (sequence : List Bool) (index len : ℕ) : List Bool :=
  let tree := sequence.take index ++ sequence.drop (index + len)
  let run := (sequence.take (index + len)).drop index
  [false] ++ (replicate (16 - tree.length) false ++ tree) ++ toBits 4 index ++
    [run.headD false] ++ toBits 10 len

/-- `TryFrom<&Pedigree> for i32`. The sign bit is zero. -/
def virtualPid (p : Pedigree) : Except String ℕ :=
  let sequence := p.trimmed
  let (index, len) := longestRun sequence
  if 2 ^ 4 ≤ index ∨ 2 ^ 10 ≤ len ∨ 16 < sequence.length - len then
    .error "Pedigree is too large or complex to be deterministically converted into virtual PID."
  else .ok (ofBits (vpidBits sequence index len))

theorem length_toBits (width n : ℕ) : (toBits width n).length = width := by
  induction width with
  | zero => rfl
  | succ width ih => rw [toBits, length_cons, ih]

theorem toBits_injective {width n m : ℕ} (hn : n < 2 ^ width) (hm : m < 2 ^ width)
    (h : toBits width n = toBits width m) : n = m := by
  have hbits : ∀ (w : ℕ), toBits w n = toBits w m → ∀ i < w, n.testBit i = m.testBit i := by
    intro w
    induction w with
    | zero => intro _ i hi; omega
    | succ w ih =>
      intro heq i hi
      obtain ⟨hhead, htail⟩ := cons_eq_cons.mp heq
      rcases Nat.lt_succ_iff_lt_or_eq.mp hi with hlt | rfl
      · exact ih htail i hlt
      · exact hhead
  apply Nat.eq_of_testBit_eq
  intro i
  rcases Nat.lt_or_ge i width with hi | hi
  · exact hbits width h i hi
  · have hpow : 2 ^ width ≤ 2 ^ i := Nat.pow_le_pow_right (by omega) hi
    rw [Nat.testBit_lt_two_pow (by omega), Nat.testBit_lt_two_pow (by omega)]

theorem ofBits_concat (bits : List Bool) (bit : Bool) :
    ofBits (bits ++ [bit]) = 2 * ofBits bits + bit.toNat := by
  simp [ofBits]

/-- Bit strings of one length are told apart by their number. -/
theorem ofBits_injective (bits : List Bool) :
    ∀ {other : List Bool}, bits.length = other.length → ofBits bits = ofBits other →
      bits = other := by
  induction bits using reverseRecOn with
  | nil => exact fun hlen _ => (eq_nil_of_length_eq_zero hlen.symm).symm
  | append_singleton bits bit ih =>
    intro other hlen heq
    rcases eq_nil_or_concat' other with rfl | ⟨other, bit', rfl⟩
    · simp at hlen
    rw [ofBits_concat, ofBits_concat] at heq
    have hbit := bit.toNat_lt
    have hbit' := bit'.toNat_lt
    have hrest := ih (by simpa using hlen) (by omega : ofBits bits = ofBits other)
    have hlast : bit = bit' := by
      cases bit <;> cases bit' <;> simp at heq ⊢ <;> omega
    rw [hrest, hlast]

/-- A path taken apart at its longest run, as it is packed. -/
structure Packed (sequence before : List Bool) (bit : Bool) (len : ℕ) (after : List Bool) :
    Prop where
  eq : sequence = before ++ replicate len bit ++ after
  before_lt : before.length < 2 ^ 4
  pos : 0 < len
  len_lt : len < 2 ^ 10
  tree_le : before.length + after.length ≤ 16
  whole : after.head? ≠ some bit

section

variable {sequence before after : List Bool} {bit : Bool} {len : ℕ}
  (h : Packed sequence before bit len after)
include h

theorem Packed.tree_eq :
    sequence.take before.length ++ sequence.drop (before.length + len) = before ++ after := by
  rw [h.eq, drop_left' (by simp), append_assoc, take_left' rfl]

theorem Packed.kind : sequence[before.length]? = some bit := by
  have hpos := h.pos
  rw [h.eq, append_assoc, getElem?_append_right le_rfl, Nat.sub_self,
    getElem?_append_left (by simpa using hpos), getElem?_replicate, if_pos hpos]

theorem Packed.vpidBits_eq :
    vpidBits sequence before.length len
      = [false] ++ (replicate (16 - (before ++ after).length) false ++ (before ++ after)) ++
        toBits 4 before.length ++ [bit] ++ toBits 10 len := by
  have hrun : (sequence.take (before.length + len)).drop before.length = replicate len bit := by
    rw [h.eq, take_left' (by simp), drop_left' rfl]
  have hkind : (replicate len bit).headD false = bit := by
    obtain ⟨k, rfl⟩ := Nat.exists_eq_add_of_le' h.pos
    rfl
  simp only [vpidBits, h.tree_eq, hrun, hkind]

end

theorem virtualPid_eq_ok {p : Pedigree} {pid : ℕ} (hne : p.trimmed ≠ [])
    (h : p.virtualPid = .ok pid) :
    ∃ before bit len after, Packed p.trimmed before bit len after ∧
      longestRun p.trimmed = (before.length, len) ∧
      pid = ofBits (vpidBits p.trimmed before.length len) := by
  obtain ⟨before, bit, after, hsequ, hsta, hpos, hwhole⟩ := longestRun_spec hne
  simp only [virtualPid] at h
  split_ifs at h with hfits
  cases h
  push Not at hfits
  obtain ⟨hidx, hlen, htree⟩ := hfits
  have hleng := congrArg length hsequ
  simp only [length_append, length_replicate] at hleng
  refine ⟨before, bit, (longestRun p.trimmed).2, after,
    ⟨hsequ, by omega, hpos, hlen, by omega, hwhole⟩, Prod.ext hsta rfl, by rw [hsta]⟩

/-- Equal IDs come from runs of one place, kind and length, and from trees that are equal up to
    the padding. -/
theorem Packed.of_ofBits_eq {s t before after before' after' : List Bool} {bit bit' : Bool}
    {len len' : ℕ} (h : Packed s before bit len after) (h' : Packed t before' bit' len' after')
    (heq : ofBits (vpidBits s before.length len) = ofBits (vpidBits t before'.length len')) :
    before.length = before'.length ∧ bit = bit' ∧ len = len' ∧
      replicate (16 - (before ++ after).length) false ++ (before ++ after)
        = replicate (16 - (before' ++ after').length) false ++ (before' ++ after') := by
  have hpadd : ∀ {front back : List Bool}, front.length + back.length ≤ 16 →
      (replicate (16 - (front ++ back).length) false ++ (front ++ back)).length = 16 := by
    intro front back hle
    simp only [length_append, length_replicate]
    omega
  have hlen := hpadd h.tree_le
  have hlen' := hpadd h'.tree_le
  rw [h.vpidBits_eq, h'.vpidBits_eq] at heq
  have hbits := ofBits_injective _ (by
    rw [length_append, length_append, length_append, length_append, hlen,
      length_append, length_append, length_append, length_append, hlen']
    simp only [length_singleton, length_toBits]) heq
  obtain ⟨hbits, hrun⟩ := append_inj' hbits (by simp [length_toBits])
  obtain ⟨hbits, hkind⟩ := append_inj' hbits rfl
  obtain ⟨hbits, hidx⟩ := append_inj' hbits (by simp [length_toBits])
  obtain ⟨-, htree⟩ := append_inj' hbits (by rw [hlen, hlen'])
  exact ⟨toBits_injective h.before_lt h'.before_lt hidx, singleton_inj.mp hkind,
    toBits_injective h.len_lt h'.len_lt hrun, htree⟩

theorem trimmed_head (p : Pedigree) : p.trimmed.head? = some false := by
  have hhead := p.head
  obtain ⟨k, hk⟩ := p.exists_eq_trimmed_append
  rw [hk] at hhead
  cases htrim : p.trimmed with
  | cons =>
    rw [htrim] at hhead
    exact hhead
  | nil =>
    -- one step always stays
    have hemp : popParents p.pedigree.reverse = [] := by
      have := congrArg reverse htrim
      simpa [trimmed] using this
    have hkeeps : ∀ bits : List Bool, bits ≠ [] → popParents bits ≠ [] := by
      intro bits
      induction bits with
      | nil => exact fun h => absurd rfl h
      | cons bit bits ih =>
        intro _
        cases bit with
        | true => simp [popParents_true]
        | false =>
          by_cases hnil : bits = []
          · subst hnil
            simp [popParents]
          · rw [popParents_false hnil]
            exact ih hnil
    exact absurd hemp (hkeeps _ (by simpa using p.ne_nil))

theorem trimmed_ne_nil (p : Pedigree) : p.trimmed ≠ [] := by
  intro hnil
  have := p.trimmed_head
  simp [hnil] at this

/-! ## Lost parent steps -/

/-- The path without its longest run. -/
def tree (sequence : List Bool) : List Bool :=
  sequence.take (longestRun sequence).1 ++
    sequence.drop ((longestRun sequence).1 + (longestRun sequence).2)

/-- The two paths have their longest runs at one place, of one kind and length, and the tree of
    the first is that of the second with more parent steps in front. -/
def MoreParents (s t : List Bool) : Prop :=
  longestRun s = longestRun t ∧ s[(longestRun s).1]? = t[(longestRun t).1]? ∧
    ∃ k > 0, tree s = replicate k false ++ tree t

theorem exists_replicate_of_padded {s t : List Bool} (hle : t.length ≤ s.length)
    (hs : s.length ≤ 16) (h : replicate (16 - s.length) false ++ s
      = replicate (16 - t.length) false ++ t) :
    s = replicate (s.length - t.length) false ++ t := by
  have hsplit : 16 - t.length = 16 - s.length + (s.length - t.length) := by omega
  rw [hsplit, ← replicate_append_replicate, append_assoc] at h
  exact append_cancel_left h

/-- Two distinct paths get one ID exactly where one tree has more parent steps in front. -/
theorem virtualPid_eq_iff {p q : Pedigree} {pid pid' : ℕ} (hp : p.virtualPid = .ok pid)
    (hq : q.virtualPid = .ok pid') (hne : p.trimmed ≠ q.trimmed) :
    pid = pid' ↔ MoreParents p.trimmed q.trimmed ∨ MoreParents q.trimmed p.trimmed := by
  obtain ⟨before, bit, len, after, hpack, hrun, rfl⟩ := virtualPid_eq_ok p.trimmed_ne_nil hp
  obtain ⟨before', bit', len', after', hpack', hrun', rfl⟩ := virtualPid_eq_ok q.trimmed_ne_nil hq
  have hle := hpack.tree_le
  have hle' := hpack'.tree_le
  rw [← length_append] at hle hle'
  simp only [MoreParents, tree, hrun, hrun', hpack.kind, hpack'.kind, hpack.tree_eq,
    hpack'.tree_eq, Prod.mk.injEq, Option.some_inj]
  constructor
  · intro heq
    obtain ⟨hidx, rfl, rfl, htree⟩ := hpack.of_ofBits_eq hpack' heq
    have hleng : (before ++ after).length ≠ (before' ++ after').length := by
      intro hleng
      rw [hleng] at htree
      obtain ⟨rfl, rfl⟩ := append_inj (append_cancel_left htree) hidx
      exact hne (hpack.eq.trans hpack'.eq.symm)
    rcases Nat.lt_or_gt_of_ne hleng with hlt | hlt
    · exact .inr ⟨⟨hidx.symm, rfl⟩, rfl, _, Nat.sub_pos_of_lt hlt,
        exists_replicate_of_padded hlt.le hle' htree.symm⟩
    · exact .inl ⟨⟨hidx, rfl⟩, rfl, _, Nat.sub_pos_of_lt hlt,
        exists_replicate_of_padded hlt.le hle htree⟩
  · have hpad : ∀ {k : ℕ} {t : List Bool}, (replicate k false ++ t).length ≤ 16 →
        replicate (16 - (replicate k false ++ t).length) false ++ (replicate k false ++ t)
          = replicate (16 - t.length) false ++ t := by
      intro k t hk
      rw [length_append, length_replicate] at hk ⊢
      rw [← append_assoc, replicate_append_replicate]
      congr 2
      omega
    rw [hpack.vpidBits_eq, hpack'.vpidBits_eq]
    rintro (⟨⟨hidx, rfl⟩, rfl, k, -, htree⟩ | ⟨⟨hidx, rfl⟩, rfl, k, -, htree⟩)
    · rw [htree] at hle
      rw [htree, hpad hle, hidx]
    · rw [htree] at hle'
      rw [htree, hpad hle', hidx]

/-! ## Live threads -/

/-- The IDs of two live threads of any run are equal exactly where their longest runs have one
    place, kind and length, and one of the trees is the other with more parent steps in front. -/
theorem live_virtual_pids_distinct (events : List ThreadEvent) :
    (liveThreads events).Pairwise fun a b =>
      ∀ pid pid', a.pedigree.virtualPid = .ok pid → b.pedigree.virtualPid = .ok pid' →
        (pid = pid' ↔ MoreParents a.pedigree.trimmed b.pedigree.trimmed ∨
          MoreParents b.pedigree.trimmed a.pedigree.trimmed) :=
  (apart_liveThreads events).imp fun hapart _ _ ha hb => virtualPid_eq_iff ha hb hapart.trimmed_ne

/-- Nested forks to the paths `PCC` and `PCCC` lose no parent step: the IDs differ. -/
theorem live_virtual_pids_distinct_nested :
    ∃ a b c d, liveThreads [.fork 0, .fork 1, .fork 2] = [a, b, c, d] ∧
      c.pedigree.virtualPid = .ok 0x0c02 ∧ d.pedigree.virtualPid = .ok 0x0c03 ∧
      ¬ MoreParents c.pedigree.trimmed d.pedigree.trimmed := by
  have hpairs := live_virtual_pids_distinct [.fork 0, .fork 1, .fork 2]
  obtain ⟨-, hpairs⟩ := pairwise_cons.mp hpairs
  obtain ⟨-, hpairs⟩ := pairwise_cons.mp hpairs
  obtain ⟨hlast, -⟩ := pairwise_cons.mp hpairs
  refine ⟨_, _, _, _, rfl, rfl, rfl, fun hmore => ?_⟩
  have heq := (hlast _ mem_cons_self 0x0c02 0x0c03 rfl rfl).mpr (.inl hmore)
  exact absurd heq (by decide)

/-- The forks that lead to the paths `PCCCPC` and `PCCCPPC`. -/
def collidingForks : List ThreadEvent := [.fork 0, .fork 1, .fork 2, .fork 3, .fork 3, .fork 3]

/-- Both of these live threads have the process ID `0x8c03`. -/
theorem virtual_pids_collide :
    ∃ (i j : ℕ) (a b : LiveThread), i ≠ j ∧ (liveThreads collidingForks)[i]? = some a ∧
      (liveThreads collidingForks)[j]? = some b ∧
      a.pedigree.virtualPid = .ok 0x8c03 ∧ b.pedigree.virtualPid = .ok 0x8c03 := by
  exact ⟨4, 5, _, _, by decide, rfl, rfl, rfl, rfl⟩

end Hermit.Pedigree
