import Hermit.Common.LittleEndian

/-!
# Pedigrees and their forks

`Pedigree` of `detcore-model/src/pedigree.rs`, the path of a thread in the tree of forks, and
the bytes that `thread_rng_from_parent_pedigree` (`detcore/src/tool_local.rs`, lines 12680-12715)
hashes to seed the generators of a new thread. `liveThreads` lists the threads of a run: a fork
rewrites the path of the parent and adds the child, and an exit removes a thread.

Main results:

* `live_pedigrees_apart`
* `trimmed_pedigrees_nested`
-/

namespace Hermit

open Common List

/-- `Pedigree`: `false` is a parent step, `true` a child step. The first step is a parent
    step, as `Display` asserts. -/
structure Pedigree where
  pedigree : List Bool
  head : pedigree.head? = some false
deriving DecidableEq

namespace Pedigree

@[ext] theorem ext {p q : Pedigree} (h : p.pedigree = q.pedigree) : p = q := by
  cases p; cases q; cases h; rfl

theorem ne_nil (p : Pedigree) : p.pedigree ≠ [] := by
  intro hnil
  have := p.head
  simp [hnil] at this

def new : Pedigree := ⟨[false], rfl⟩

/-- The path one step further. -/
def push (p : Pedigree) (bit : Bool) : Pedigree where
  pedigree := p.pedigree ++ [bit]
  head := by rw [head?_append, p.head]; rfl

def forkMut (p : Pedigree) : Pedigree × Pedigree := (p.push false, p.push true)

def fork (p : Pedigree) : Pedigree × Pedigree := p.forkMut

/-- The loop that pops parent steps, from the last step back. One step always stays. -/
def popParents : List Bool → List Bool
  | false :: bit :: rest => popParents (bit :: rest)
  | bits => bits

/-- The path without its trailing parent steps. -/
def trimmed (p : Pedigree) : List Bool := (popParents p.pedigree.reverse).reverse

/-! ## Trimming -/

theorem popParents_true (bits : List Bool) : popParents (true :: bits) = true :: bits := by
  cases bits <;> rfl

theorem popParents_false {bits : List Bool} (h : bits ≠ []) :
    popParents (false :: bits) = popParents bits := by
  obtain ⟨bit, rest, rfl⟩ := exists_cons_of_ne_nil h
  rfl

theorem exists_replicate_popParents (bits : List Bool) :
    ∃ k, bits = replicate k false ++ popParents bits := by
  induction bits with
  | nil => exact ⟨0, rfl⟩
  | cons bit bits ih =>
    cases bit with
    | true => exact ⟨0, by rw [popParents_true]; rfl⟩
    | false =>
      by_cases hnil : bits = []
      · subst hnil
        exact ⟨0, rfl⟩
      · obtain ⟨k, hk⟩ := ih
        refine ⟨k + 1, ?_⟩
        rw [popParents_false hnil, replicate_succ, cons_append, ← hk]

theorem exists_eq_trimmed_append (p : Pedigree) :
    ∃ k, p.pedigree = p.trimmed ++ replicate k false := by
  obtain ⟨k, hk⟩ := exists_replicate_popParents p.pedigree.reverse
  refine ⟨k, ?_⟩
  unfold trimmed
  rw [← reverse_reverse p.pedigree]
  conv_lhs => rw [hk]
  rw [reverse_append, reverse_replicate, reverse_reverse]

@[simp] theorem trimmed_push_true (p : Pedigree) : (p.push true).trimmed = p.pedigree ++ [true] := by
  simp [trimmed, push, popParents_true]

@[simp] theorem trimmed_push_false (p : Pedigree) : (p.push false).trimmed = p.trimmed := by
  have hne : p.pedigree.reverse ≠ [] := by simpa using p.ne_nil
  simp only [trimmed, push, reverse_append, reverse_cons, reverse_nil, nil_append, singleton_append]
  rw [popParents_false hne]

/-! ## Paths apart -/

/-- Neither path is a prefix of the other. -/
def Apart (p q : Pedigree) : Prop := ¬ p.pedigree <+: q.pedigree ∧ ¬ q.pedigree <+: p.pedigree

theorem Apart.symm {p q : Pedigree} (h : Apart p q) : Apart q p := ⟨h.2, h.1⟩

theorem Apart.push {p q : Pedigree} (h : Apart p q) (bit : Bool) : Apart (p.push bit) q := by
  constructor
  · intro hpre
    exact h.1 ((prefix_append _ _).trans hpre)
  · intro hpre
    rcases prefix_concat_iff.mp hpre with heq | hshort
    · exact h.1 (heq ▸ prefix_append _ _)
    · exact h.2 hshort

theorem apart_fork (p : Pedigree) : Apart (p.push false) (p.push true) := by
  have hne : p.pedigree ++ [false] ≠ p.pedigree ++ [true] := by simp
  constructor
  · intro hpre
    exact hne (hpre.eq_of_length (by simp [Pedigree.push]))
  · intro hpre
    exact hne.symm (hpre.eq_of_length (by simp [Pedigree.push]))

theorem Apart.trimmed_ne {p q : Pedigree} (h : Apart p q) : p.trimmed ≠ q.trimmed := by
  intro heq
  obtain ⟨k, hk⟩ := p.exists_eq_trimmed_append
  obtain ⟨l, hl⟩ := q.exists_eq_trimmed_append
  rw [heq] at hk
  -- the longer of the two goes on with parent steps only
  rcases Nat.le_total k l with hle | hle
  · obtain ⟨d, rfl⟩ := Nat.exists_eq_add_of_le hle
    apply h.1
    rw [hk, hl, replicate_add, ← append_assoc]
    exact prefix_append _ _
  · obtain ⟨d, rfl⟩ := Nat.exists_eq_add_of_le hle
    apply h.2
    rw [hk, hl, replicate_add, ← append_assoc]
    exact prefix_append _ _

end Pedigree

/-! ## The bytes a generator is seeded from -/

inductive ChildRngStream
  | user
  | chaos
deriving DecidableEq

def asciiBytes (text : String) : List UInt8 := text.toList.map fun c => UInt8.ofNat c.toNat

def ChildRngStream.domain : ChildRngStream → List UInt8
  | .user => asciiBytes "user"
  | .chaos => asciiBytes "chaos"

/-- The loop over the bits: the bytes packed and the byte begun. -/
def packBit (state : List UInt8 × UInt8) (entry : Bool × ℕ) : List UInt8 × UInt8 :=
  let byte := if entry.1 then state.2 ||| 1 <<< UInt8.ofNat (entry.2 % 8) else state.2
  if entry.2 % 8 = 7 then (state.1 ++ [byte], 0) else (state.1, byte)

def packBits (bits : List Bool) : List UInt8 :=
  let state := bits.zipIdx.foldl packBit ([], 0)
  if bits.length % 8 = 0 then state.1 else state.1 ++ [state.2]

def rngMessage (stream : ChildRngStream) (child : Pedigree) : List UInt8 :=
  asciiBytes "hermit-child-rng-pedigree-v1\x00" ++ stream.domain ++ [0] ++
    toLeBytes 8 (child.pedigree.length % 2 ^ 64) ++ packBits child.pedigree

theorem toNat_setBit {byte : UInt8} {k : ℕ} (hk : k < 8) (hbyte : byte.toNat < 2 ^ k) :
    (byte ||| 1 <<< UInt8.ofNat k).toNat = byte.toNat + 2 ^ k := by
  have hshift : (1 <<< UInt8.ofNat k : UInt8).toNat = 2 ^ k := by
    interval_cases k <;> rfl
  rw [UInt8.toNat_or, hshift, Nat.add_comm, Nat.or_comm]
  have := Nat.shiftLeft_add_eq_or_of_lt hbyte 1
  rw [Nat.shiftLeft_eq, Nat.one_mul] at this
  exact this.symm

theorem foldl_packBit_concat (bits : List Bool) (bit : Bool) :
    (bits ++ [bit]).zipIdx.foldl packBit ([], 0)
      = packBit (bits.zipIdx.foldl packBit ([], 0)) (bit, bits.length) := by
  simp [zipIdx_append]

/-- The bytes that are full, and the byte begun has only the bits so far. -/
theorem packBits_bounds (bits : List Bool) :
    (bits.zipIdx.foldl packBit ([], 0)).1.length = bits.length / 8 ∧
      (bits.zipIdx.foldl packBit ([], 0)).2.toNat < 2 ^ (bits.length % 8) := by
  induction bits using reverseRecOn with
  | nil => simp
  | append_singleton bits bit ih =>
    obtain ⟨hlen, hbyte⟩ := ih
    rw [foldl_packBit_concat, length_append, length_singleton]
    generalize bits.zipIdx.foldl packBit ([], 0) = state at hlen hbyte
    obtain ⟨bytes, byte⟩ := state
    simp only at hlen hbyte
    by_cases hlast : bits.length % 8 = 7
    · -- the byte is full
      have hzero : (bits.length + 1) % 8 = 0 := by omega
      simp only [packBit, hlast, if_true, length_append, length_singleton, hlen, hzero]
      exact ⟨by omega, by decide⟩
    · have hnext : (bits.length + 1) % 8 = bits.length % 8 + 1 := by omega
      have hset := toNat_setBit (Nat.mod_lt bits.length (by omega)) hbyte
      simp only [packBit, hlast, if_false, hlen, hnext, pow_succ]
      refine ⟨by omega, ?_⟩
      cases bit with
      | true => rw [if_pos rfl, hset]; omega
      | false => rw [if_neg Bool.false_ne_true]; omega

/-- Bit strings of one length are told apart by the state of the loop. -/
theorem foldl_packBit_injective (bits : List Bool) :
    ∀ {other : List Bool}, bits.length = other.length →
      bits.zipIdx.foldl packBit ([], 0) = other.zipIdx.foldl packBit ([], 0) → bits = other := by
  induction bits using reverseRecOn with
  | nil => exact fun hlen _ => (eq_nil_of_length_eq_zero hlen.symm).symm
  | append_singleton bits bit ih =>
    intro other hlen heq
    rcases eq_nil_or_concat' other with rfl | ⟨other, bit', rfl⟩
    · simp at hlen
    have hlen' : bits.length = other.length := by simpa using hlen
    have hbyte := (packBits_bounds bits).2
    have hbyte' := (packBits_bounds other).2
    rw [foldl_packBit_concat, foldl_packBit_concat, ← hlen'] at heq
    rw [← hlen'] at hbyte'
    have hsame := ih hlen'
    generalize bits.zipIdx.foldl packBit ([], 0) = state at heq hbyte hsame
    generalize other.zipIdx.foldl packBit ([], 0) = state' at heq hbyte' hsame
    obtain ⟨bytes, byte⟩ := state
    obtain ⟨bytes', byte'⟩ := state'
    simp only at hbyte hbyte'
    have hmod : bits.length % 8 < 8 := Nat.mod_lt _ (by omega)
    -- the bytes before the bit are equal, and so is the byte with the bit in it
    have hparts : bytes = bytes' ∧
        (if bit then byte ||| 1 <<< UInt8.ofNat (bits.length % 8) else byte)
          = if bit' then byte' ||| 1 <<< UInt8.ofNat (bits.length % 8) else byte' := by
      simp only [packBit] at heq
      split_ifs at heq ⊢ <;> simp_all
    obtain ⟨rfl, hent⟩ := hparts
    have hnat := congrArg UInt8.toNat hent
    have hset := toNat_setBit hmod hbyte
    have hset' := toNat_setBit hmod hbyte'
    cases bit <;> cases bit' <;> simp only [if_true, if_false, Bool.false_eq_true] at hnat
    · rw [hsame (by rw [UInt8.toNat_inj.mp hnat])]
    · omega
    · omega
    · rw [hsame (by rw [UInt8.toNat_inj.mp (by omega : byte.toNat = byte'.toNat)])]

theorem length_packBits (bits : List Bool) : (packBits bits).length = (bits.length + 7) / 8 := by
  have hlen := (packBits_bounds bits).1
  unfold packBits
  simp only
  split_ifs with hfull
  · omega
  · simp only [length_append, length_singleton, hlen]
    omega

theorem packBits_injective {bits other : List Bool} (hlen : bits.length = other.length)
    (h : packBits bits = packBits other) : bits = other := by
  apply foldl_packBit_injective bits hlen
  have hbyt := (packBits_bounds bits).2
  have hbyt' := (packBits_bounds other).2
  simp only [packBits, ← hlen] at h
  rw [← hlen] at hbyt'
  split_ifs at h with hfull
  · -- no byte is begun
    rw [hfull] at hbyt hbyt'
    refine Prod.ext h (UInt8.toNat_inj.mp ?_)
    omega
  · obtain ⟨hfirst, hlast⟩ := append_inj' h rfl
    exact Prod.ext hfirst (singleton_inj.mp hlast)

theorem rngMessage_injective {stream : ChildRngStream} {p q : Pedigree}
    (h : rngMessage stream p = rngMessage stream q) : p = q := by
  simp only [rngMessage, append_assoc, append_cancel_left_eq] at h
  obtain ⟨hlen, hpack⟩ := append_inj h (by simp)
  have hmod : p.pedigree.length % 2 ^ 64 = q.pedigree.length % 2 ^ 64 := by
    rw [← fromLeBytes_toLeBytes (show p.pedigree.length % 2 ^ 64 < 256 ^ 8 by omega), hlen,
      fromLeBytes_toLeBytes (show q.pedigree.length % 2 ^ 64 < 256 ^ 8 by omega)]
  -- the lengths agree modulo 2 ^ 64, and up to one byte
  have hbyt := congrArg length hpack
  rw [length_packBits, length_packBits] at hbyt
  exact Pedigree.ext (packBits_injective (by omega) hpack)

/-! ## The threads of a run -/

/-- A live thread: its pedigree, and the path its generators were seeded from
    (`detcore/src/lib.rs`). Those of the root are not seeded from a path. -/
structure LiveThread where
  pedigree : Pedigree
  seededFrom : Option Pedigree
deriving DecidableEq

namespace LiveThread

def root : LiveThread := ⟨.new, none⟩

def afterFork (t : LiveThread) : LiveThread := { t with pedigree := t.pedigree.fork.1 }

def child (t : LiveThread) : LiveThread := ⟨t.pedigree.fork.2, some t.pedigree.fork.2⟩

end LiveThread

/-- What happens to the thread at an index of the list; a thread that is not there does
    nothing. -/
inductive ThreadEvent
  | fork (thread : ℕ)
  | exit (thread : ℕ)
deriving DecidableEq

def forkThread : ℕ → List LiveThread → List LiveThread
  | _, [] => []
  | 0, t :: threads => t.afterFork :: t.child :: threads
  | i + 1, t :: threads => t :: forkThread i threads

def ThreadEvent.apply (threads : List LiveThread) : ThreadEvent → List LiveThread
  | .fork i => forkThread i threads
  | .exit i => threads.eraseIdx i

def liveThreads (events : List ThreadEvent) : List LiveThread :=
  events.foldl ThreadEvent.apply [.root]

theorem forall_forkThread {P : LiveThread → Prop} (hpar : ∀ t, P t → P t.afterFork)
    (hchd : ∀ t, P t → P t.child) (i : ℕ) {threads : List LiveThread}
    (h : ∀ t ∈ threads, P t) : ∀ t ∈ forkThread i threads, P t := by
  induction threads generalizing i with
  | nil => simp [forkThread]
  | cons t threads ih =>
    obtain ⟨ht, hthr⟩ := forall_mem_cons.mp h
    cases i with
    | zero => exact forall_mem_cons.mpr ⟨hpar t ht,
        forall_mem_cons.mpr ⟨hchd t ht, hthr⟩⟩
    | succ i => exact forall_mem_cons.mpr ⟨ht, ih i hthr⟩

theorem pairwise_forkThread {R : LiveThread → LiveThread → Prop} (hsymm : ∀ t u, R t u → R u t)
    (hpar : ∀ t u, R t u → R t.afterFork u) (hchd : ∀ t u, R t u → R t.child u)
    (hfork : ∀ t : LiveThread, R t.afterFork t.child) (i : ℕ) {threads : List LiveThread}
    (h : threads.Pairwise R) : (forkThread i threads).Pairwise R := by
  induction threads generalizing i with
  | nil => simp [forkThread]
  | cons t threads ih =>
    obtain ⟨ht, hthr⟩ := pairwise_cons.mp h
    cases i with
    | zero =>
      refine pairwise_cons.mpr ⟨?_, pairwise_cons.mpr ⟨?_, hthr⟩⟩
      · exact forall_mem_cons.mpr ⟨hfork t, fun u hu => hpar t u (ht u hu)⟩
      · exact fun u hu => hchd t u (ht u hu)
    | succ i =>
      refine pairwise_cons.mpr ⟨?_, ih i hthr⟩
      apply forall_forkThread
      · exact fun u hu => hsymm _ _ (hpar u t (hsymm _ _ hu))
      · exact fun u hu => hsymm _ _ (hchd u t (hsymm _ _ hu))
      · exact ht

theorem forall_liveThreads {P : LiveThread → Prop} (hroot : P .root)
    (hpar : ∀ t, P t → P t.afterFork) (hchd : ∀ t, P t → P t.child)
    (events : List ThreadEvent) : ∀ t ∈ liveThreads events, P t := by
  unfold liveThreads
  induction events using reverseRecOn with
  | nil => simpa using hroot
  | append_singleton events event ih =>
    rw [foldl_concat]
    cases event with
    | fork i => exact forall_forkThread hpar hchd i ih
    | exit i => exact fun t ht => ih t (mem_of_mem_eraseIdx ht)

theorem pairwise_liveThreads {R : LiveThread → LiveThread → Prop} (hsymm : ∀ t u, R t u → R u t)
    (hpar : ∀ t u, R t u → R t.afterFork u) (hchd : ∀ t u, R t u → R t.child u)
    (hfork : ∀ t : LiveThread, R t.afterFork t.child) (events : List ThreadEvent) :
    (liveThreads events).Pairwise R := by
  unfold liveThreads
  induction events using reverseRecOn with
  | nil => exact pairwise_singleton _ _
  | append_singleton events event ih =>
    rw [foldl_concat]
    cases event with
    | fork i => exact pairwise_forkThread hsymm hpar hchd hfork i ih
    | exit i => exact ih.sublist (eraseIdx_sublist _ _)

/-! ## Live threads -/

theorem apart_liveThreads (events : List ThreadEvent) :
    (liveThreads events).Pairwise fun a b => a.pedigree.Apart b.pedigree := by
  apply pairwise_liveThreads
  · exact fun t u h => h.symm
  · exact fun t u h => h.push false
  · exact fun t u h => h.push true
  · exact fun t => t.pedigree.apart_fork

def LiveThread.SeedTrimmed (t : LiveThread) : Prop :=
  t.pedigree.trimmed = (t.seededFrom.getD .new).pedigree

theorem seedTrimmed_liveThreads (events : List ThreadEvent) :
    ∀ t ∈ liveThreads events, t.SeedTrimmed := by
  apply forall_liveThreads
  · rfl
  · intro t htrim
    exact t.pedigree.trimmed_push_false.trans htrim
  · intro t _
    exact t.pedigree.trimmed_push_true

theorem LiveThread.SeedTrimmed.seededFrom_ne {a b : LiveThread} (ha : a.SeedTrimmed)
    (h : a.pedigree.trimmed ≠ b.pedigree.trimmed) (hb : b.SeedTrimmed) :
    a.seededFrom ≠ b.seededFrom := by
  intro heq
  apply h
  rw [ha, hb, heq]

/-- The live threads of every run have paths of which none is a prefix of another. They are
    distinct even without their trailing parent steps, and no two are seeded from the same path,
    or from the same bytes of a path. -/
theorem live_pedigrees_apart (events : List ThreadEvent) : (liveThreads events).Pairwise fun a b =>
      ¬ a.pedigree.pedigree <+: b.pedigree.pedigree ∧
      ¬ b.pedigree.pedigree <+: a.pedigree.pedigree ∧
      a.pedigree.trimmed ≠ b.pedigree.trimmed ∧ a.seededFrom ≠ b.seededFrom ∧
      ∀ stream, ∀ p ∈ a.seededFrom, ∀ q ∈ b.seededFrom, rngMessage stream p ≠ rngMessage stream q := by
  have hseed := seedTrimmed_liveThreads events
  refine (apart_liveThreads events).imp_of_mem fun {a b} ha hb hapart => ?_
  have hseeds := (hseed a ha).seededFrom_ne hapart.trimmed_ne (hseed b hb)
  refine ⟨hapart.1, hapart.2, hapart.trimmed_ne, hseeds, ?_⟩
  intro stream p hp q hq hmess
  rw [Option.mem_def] at hp hq
  rw [hp, hq, rngMessage_injective hmess] at hseeds
  exact hseeds rfl

/-- After one fork the trimmed path of the parent is a prefix of that of the child. -/
theorem trimmed_pedigrees_nested :
    ∃ a b, liveThreads [.fork 0] = [a, b] ∧ a.pedigree.trimmed <+: b.pedigree.trimmed :=
  ⟨_, _, rfl, ⟨[true], rfl⟩⟩

end Hermit
