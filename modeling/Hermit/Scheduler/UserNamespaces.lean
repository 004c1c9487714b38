import Hermit.Ids

/-!
# User namespaces

`detcore/src/scheduler/user_namespaces.rs` records for every process the chain of user namespaces
it lives in, copied from its creator when it is made. Only a clone with `CLONE_NEWUSER` makes a
namespace, and a process that takes an earlier one's number replaces its chain.

`NamespaceTree` is the tree of the namespaces made so far, with the node of each process and the
flag of each node. The container's namespace is the root, 0.

* `relation_iff_tree`
-/

namespace Hermit.Scheduler

open Hermit.Common List Relation

inductive UserNamespaceRelation where
  | same
  | below
  | elsewhere
deriving DecidableEq

/-- The numbers given to namespaces stay below `2 ^ 64`. -/
structure UserNamespaces where
  chains : OrdMap DetPid (List ℕ)
  named : ℕ
  ownersMayDiffer : List ℕ

/-- A process is made: by whom, whether in a new user namespace, and whether the owner of that
    one may differ. -/
structure Creation where
  child : DetPid
  creator : Option DetPid
  newUser : Bool
  ownerMayDiffer : Bool

namespace UserNamespaces

def chain (u : UserNamespaces) (process : DetPid) : List ℕ := u.chains[process]?.getD []

def inherit (u : UserNamespaces) (child : DetPid) (creator : Option DetPid) : UserNamespaces :=
  let chain := (creator.bind fun creator => u.chains[creator]?).getD []
  { u with chains := if chain = [] then u.chains.erase child else u.chains.insert child chain }

def enterNew (u : UserNamespaces) (process : DetPid) : UserNamespaces :=
  { u with
    named := u.named + 1
    chains := u.chains.insert process (u.chain process ++ [u.named + 1]) }

def noteOwnerMayDiffer (u : UserNamespaces) (process : DetPid) : UserNamespaces :=
  match (u.chain process).getLast? with
  | some newest => { u with ownersMayDiffer := newest :: u.ownersMayDiffer }
  | none => u

def relation (u : UserNamespaces) (reader task : DetPid) : UserNamespaceRelation :=
  if u.chain reader = u.chain task then .same
  else if (u.chain reader).isPrefixOf (u.chain task) then .below
  else .elsewhere

def ownerMayDifferBelow (u : UserNamespaces) (reader task : DetPid) : Bool :=
  (u.chain reader).length < (u.chain task).length && (u.chain reader).isPrefixOf (u.chain task) &&
    (u.chain task)[(u.chain reader).length]?.any (· ∈ u.ownersMayDiffer)

/-- What a clone records. -/
def create (u : UserNamespaces) (c : Creation) : UserNamespaces :=
  let u := u.inherit c.child c.creator
  if c.newUser then
    let u := u.enterNew c.child
    if c.ownerMayDiffer then u.noteOwnerMayDiffer c.child else u
  else u

end UserNamespaces

/-- The user namespaces made so far, numbered from 1, and the one of each process. -/
structure NamespaceTree where
  made : ℕ
  parent : ℕ → ℕ
  flag : ℕ → Bool
  home : DetPid → ℕ

namespace NamespaceTree

def create (t : NamespaceTree) (c : Creation) : NamespaceTree :=
  let home := (c.creator.map t.home).getD 0
  if c.newUser then
    let node := t.made + 1
    ⟨node, Function.update t.parent node home, Function.update t.flag node c.ownerMayDiffer,
      Function.update t.home c.child node⟩
  else { t with home := Function.update t.home c.child home }

def IsParent (t : NamespaceTree) (n m : ℕ) : Prop := 0 < m ∧ m ≤ t.made ∧ t.parent m = n

/-- The way down to a node. -/
inductive Path (t : NamespaceTree) : List ℕ → ℕ → Prop
  | root : Path t [] 0
  | snoc {chain : List ℕ} {n m : ℕ} (h : Path t chain n) (hm : t.IsParent n m) :
      Path t (chain ++ [m]) m

variable {t : NamespaceTree} {c d : List ℕ} {n m : ℕ}

theorem Path.parent (h : t.Path c m) (hm : t.IsParent n m) :
    ∃ front, c = front ++ [m] ∧ t.Path front n := by
  cases h with
  | root => exact absurd hm.1 (lt_irrefl 0)
  | snoc hfr hm' =>
    obtain rfl : _ = n := hm'.2.2.symm.trans hm.2.2
    exact ⟨_, rfl, hfr⟩

theorem Path.chain_unique (h : t.Path c n) : ∀ {d}, t.Path d n → c = d := by
  induction h with
  | root =>
    rintro d hd
    cases hd with
    | root => rfl
    | snoc _ hm => exact absurd hm.1 (lt_irrefl 0)
  | snoc _ hm ih =>
    intro d hd
    obtain ⟨front, rfl, hfr⟩ := hd.parent hm
    rw [ih hfr]

theorem Path.node_unique (h : t.Path c n) (h' : t.Path c m) : n = m := by
  cases h with
  | root =>
    generalize hc : ([] : List ℕ) = c at h'
    cases h' with
    | root => rfl
    | snoc => simp at hc
  | snoc _ _ =>
    generalize hc : _ ++ [n] = c at h'
    cases h' with
    | root => simp at hc
    | snoc => simpa using (append_inj' hc rfl).2

/-- Ancestors are the prefixes of the way down. -/
theorem Path.prefix_iff (h : t.Path c n) (h' : t.Path d m) :
    c <+: d ↔ ReflTransGen t.IsParent n m := by
  constructor
  · intro hpre
    induction h' with
    | root =>
      obtain rfl := prefix_nil.mp hpre
      rw [h.node_unique .root]
    | snoc hfr hm ih =>
      obtain rfl | hpre := prefix_concat_iff.mp hpre
      · rw [h.node_unique (hfr.snoc hm)]
      · exact (ih hpre).tail hm
  · intro hanc
    induction hanc generalizing d with
    | refl => rw [h.chain_unique h']
    | tail _ hm ih =>
      obtain ⟨front, rfl, hfr⟩ := h'.parent hm
      exact (ih hfr).trans (prefix_append _ _)

theorem Path.strict_iff (h : t.Path c n) (h' : t.Path d m) :
    c ≠ d ∧ c <+: d ↔ TransGen t.IsParent n m := by
  constructor
  · rintro ⟨hne, hpre⟩
    cases h' with
    | root => exact absurd (prefix_nil.mp hpre) hne
    | snoc hfr hm =>
      have hfront_of := (prefix_concat_iff.mp hpre).resolve_left hne
      exact .tail' ((h.prefix_iff hfr).mp hfront_of) hm
  · intro hanc
    obtain ⟨k, hk, hm⟩ := TransGen.tail'_iff.mp hanc
    obtain ⟨front, rfl, hfr⟩ := h'.parent hm
    have hpre := (h.prefix_iff hfr).mpr hk
    refine ⟨?_, hpre.trans (prefix_append _ _)⟩
    rintro rfl
    simpa using hpre.length_le

/-- Every name on the way down is a child of the node above it. -/
theorem Path.of_front (h : t.Path d n) (hpre : c ++ [m] <+: d) :
    ∃ k, t.Path c k ∧ t.IsParent k m := by
  induction h with
  | root => simp at hpre
  | snoc hfr hm ih =>
    obtain heq | hpre := prefix_concat_iff.mp hpre
    · obtain ⟨rfl, hlast⟩ := append_inj' heq rfl
      obtain rfl : m = _ := by simpa using hlast
      exact ⟨_, hfr, hm⟩
    · exact ih hpre

theorem Path.grow {t' : NamespaceTree} (h : t.Path c n) (hmade : t.made ≤ t'.made)
    (hpar : ∀ k ≤ t.made, t'.parent k = t.parent k) : t'.Path c n := by
  induction h with
  | root => exact .root
  | snoc _ hm ih => exact ih.snoc ⟨hm.1, hm.2.1.trans hmade, (hpar _ hm.2.1).trans hm.2.2⟩

end NamespaceTree

namespace UserNamespaces

open NamespaceTree

variable {u : UserNamespaces} {t : NamespaceTree}

theorem chain_inherit (u : UserNamespaces) (child : DetPid) (creator : Option DetPid)
    (p : DetPid) : (u.inherit child creator).chain p =
      if child = p then (creator.map u.chain).getD [] else u.chain p := by
  have hchain : (creator.bind fun creator => u.chains[creator]?).getD [] =
      (creator.map u.chain).getD [] := by
    cases creator <;> rfl
  simp only [inherit, hchain, chain]
  split_ifs <;> simp_all [OrdMap.getElem?_insert_ite, OrdMap.getElem?_erase_ite]

theorem chain_enterNew (u : UserNamespaces) (process p : DetPid) : (u.enterNew process).chain p =
      if process = p then u.chain process ++ [u.named + 1] else u.chain p := by
  simp only [enterNew, chain, OrdMap.getElem?_insert_ite]
  split_ifs <;> rfl

theorem noteOwnerMayDiffer_enterNew (u : UserNamespaces) (process : DetPid) :
    (u.enterNew process).noteOwnerMayDiffer process =
      { u.enterNew process with ownersMayDiffer := (u.named + 1) :: u.ownersMayDiffer } := by
  unfold noteOwnerMayDiffer
  rw [chain_enterNew, if_pos rfl, getLast?_concat]
  rfl

theorem ownerMayDifferBelow_iff (u : UserNamespaces) (reader task : DetPid) :
    u.ownerMayDifferBelow reader task ↔
      ∃ n, u.chain reader ++ [n] <+: u.chain task ∧ n ∈ u.ownersMayDiffer := by
  simp only [ownerMayDifferBelow, Bool.and_eq_true, decide_eq_true_eq, isPrefixOf_iff_prefix,
    Option.any_eq_true]
  constructor
  · rintro ⟨⟨-, rest, heq⟩, n, hget, hmem⟩
    refine ⟨n, ?_, hmem⟩
    rw [← heq, getElem?_append_right le_rfl, Nat.sub_self] at hget
    cases rest with
    | nil => cases hget
    | cons x rest =>
      obtain rfl : x = n := by simpa using hget
      exact ⟨rest, by simpa using heq⟩
  · rintro ⟨n, ⟨rest, heq⟩, hmem⟩
    rw [← heq]
    simp [hmem, append_assoc]

structure Mirrors (u : UserNamespaces) (t : NamespaceTree) : Prop where
  named : u.named = t.made
  path : ∀ p, t.Path (u.chain p) (t.home p)
  flag : ∀ n, n ∈ u.ownersMayDiffer ↔ n ≤ t.made ∧ t.flag n

/-- A process joins the namespace of its creator. -/
theorem Mirrors.inherit (h : Mirrors u t) (child : DetPid) (creator : Option DetPid) (p : DetPid) :
    t.Path ((u.inherit child creator).chain p)
      (Function.update t.home child ((creator.map t.home).getD 0) p) := by
  rw [chain_inherit, Function.update_apply]
  by_cases hp : child = p
  · rw [if_pos hp, if_pos hp.symm]
    cases creator with
    | none => exact .root
    | some creator => exact h.path creator
  · rw [if_neg hp, if_neg (Ne.symm hp)]
    exact h.path p

theorem Mirrors.create (h : Mirrors u t) (c : Creation) : Mirrors (u.create c) (t.create c) := by
  obtain ⟨child, creator, newUser, ownerMayDiffer⟩ := c
  cases newUser with
  | false =>
    refine ⟨h.named, fun p => ?_, h.flag⟩
    exact (h.inherit child creator p).grow le_rfl fun _ _ => rfl
  | true =>
    have hpath : ∀ p, (t.create ⟨child, creator, true, ownerMayDiffer⟩).Path
        (((u.inherit child creator).enterNew child).chain p)
        (Function.update t.home child (t.made + 1) p) := by
      intro p
      have hinhe : (t.create ⟨child, creator, true, ownerMayDiffer⟩).Path _ _ :=
        (h.inherit child creator p).grow (Nat.le_succ _)
          fun k hk => Function.update_of_ne (by omega) _ _
      rw [chain_enterNew, Function.update_apply]
      by_cases hp : child = p
      · subst hp
        rw [if_pos rfl, if_pos rfl]
        rw [Function.update_self] at hinhe
        have hnam : (u.inherit child creator).named + 1 = t.made + 1 := congrArg (· + 1) h.named
        rw [hnam]
        exact hinhe.snoc ⟨Nat.succ_pos _, le_rfl, Function.update_self ..⟩
      · rw [if_neg hp, if_neg (Ne.symm hp)]
        rwa [Function.update_of_ne (Ne.symm hp)] at hinhe
    have hold : ∀ n ∈ u.ownersMayDiffer, n ≤ t.made := fun n hn => ((h.flag n).mp hn).1
    cases ownerMayDiffer with
    | false =>
      refine ⟨congrArg (· + 1) h.named, hpath, fun n => ?_⟩
      change n ∈ u.ownersMayDiffer ↔ n ≤ t.made + 1 ∧ Function.update t.flag (t.made + 1) false n
      rw [Function.update_apply]
      have := h.flag n
      grind
    | true =>
      simp only [UserNamespaces.create, if_true, noteOwnerMayDiffer_enterNew]
      refine ⟨congrArg (· + 1) h.named, hpath, fun n => ?_⟩
      change n ∈ (u.named + 1) :: u.ownersMayDiffer ↔
        n ≤ t.made + 1 ∧ Function.update t.flag (t.made + 1) true n
      rw [Function.update_apply, mem_cons, h.named]
      have := h.flag n
      grind

theorem mirrors_foldl (creations : List Creation) : ∀ {u t}, Mirrors u t →
    Mirrors (creations.foldl UserNamespaces.create u) (creations.foldl NamespaceTree.create t) := by
  induction creations with
  | nil => exact id
  | cons c creations ih => exact fun h => ih (h.create c)

/-- After all creations, the record answers as the tree does. -/
theorem relation_iff_tree (creations : List Creation) (reader task : DetPid) :
    let u := creations.foldl UserNamespaces.create ⟨∅, 0, []⟩
    let t := creations.foldl NamespaceTree.create ⟨0, fun _ => 0, fun _ => false, fun _ => 0⟩
    (u.relation reader task = .same ↔ t.home reader = t.home task) ∧
    (u.relation reader task = .below ↔ TransGen t.IsParent (t.home reader) (t.home task)) ∧
    (u.ownerMayDifferBelow reader task ↔ ∃ n, t.IsParent (t.home reader) n ∧
      ReflTransGen t.IsParent n (t.home task) ∧ t.flag n) := by
  intro u t
  have h : Mirrors u t := mirrors_foldl creations ⟨rfl, fun _ => .root, by simp⟩
  have hread := h.path reader
  have htask := h.path task
  refine ⟨?_, ?_, ?_⟩
  · have hsame : u.relation reader task = .same ↔ u.chain reader = u.chain task := by
      unfold relation
      split_ifs <;> simp_all
    rw [hsame]
    constructor
    · exact fun heq => hread.node_unique (heq ▸ htask)
    · exact fun heq => hread.chain_unique (heq ▸ htask)
  · rw [← hread.strict_iff htask]
    unfold relation
    split_ifs <;> simp_all
  · rw [ownerMayDifferBelow_iff]
    refine exists_congr fun n => ?_
    constructor
    · rintro ⟨hpre, hmem⟩
      obtain ⟨k, hk, hn⟩ := htask.of_front hpre
      obtain rfl := hk.node_unique hread
      exact ⟨hn, ((hk.snoc hn).prefix_iff htask).mp hpre, ((h.flag n).mp hmem).2⟩
    · rintro ⟨hn, hanc, hflag⟩
      exact ⟨((hread.snoc hn).prefix_iff htask).mpr hanc, (h.flag n).mpr ⟨hn.2.1, hflag⟩⟩

end UserNamespaces

end Hermit.Scheduler
