import Hermit.Common.Loop
import Hermit.Common.OrdMap
import Hermit.Common.Run

/-!
# Cycles by depth-first search

An iterative depth-first search for a cycle in a finite directed graph, given by its
adjacency lists. A vertex is unmarked, being visited (on the path from the root) or
done. The stack holds the path, each vertex with the index of its next neighbour.

* `Good`: what the loop keeps. The vertices being visited are those of the path, the
  path follows edges, and no infinite walk starts at a vertex that is done.
* `findCycle_ne_exhausted`, `findCycle_of_closed`
-/

namespace Hermit.Common.DepthFirst

open Hermit.Common.OrdMap List

variable {V : Type} [LinearOrder V]

/-- How far the search is with a vertex. -/
inductive Mark
  | visiting
  | done
deriving DecidableEq

/-- Why a search fails. -/
inductive Fault (V : Type)
  /-- A closed walk was found. -/
  | cycle (path : List V)
  /-- A vertex has no adjacency list. -/
  | missing (v : V)
  /-- The loop was not done within its fuel. -/
  | exhausted
deriving DecidableEq

/-- The state of the search below one root. -/
structure Search (V : Type) [LinearOrder V] where
  marks : OrdMap V Mark
  /-- The vertices on the path, the last one first, each with the index of the
      neighbour to visit next. -/
  stack : List (V × ℕ)
  path : List V

def closedWalk (path : List V) (next : V) : List V :=
  path.drop ((path.findIdx? (· = next)).getD 0) ++ [next]

/-- One iteration: visit the next neighbour of the vertex on top of the stack, or
    leave that vertex if there is none. -/
def Search.step (adj : OrdMap V (List V)) (s : Search V) :
    Search V ⊕ Except (Fault V) (OrdMap V Mark) :=
  match s.stack with
  | [] => .inr (.ok s.marks)
  | (node, idx) :: rest =>
    match adj[node]? with
    | none => .inr (.error (.missing node))
    | some neighbors =>
      match neighbors[idx]? with
      | some next =>
        match s.marks[next]? with
        | some .visiting => .inr (.error (.cycle (closedWalk s.path next)))
        | some .done => .inl { s with stack := (node, idx + 1) :: rest }
        | none => .inl {
            marks := s.marks.insert next .visiting
            stack := (next, 0) :: (node, idx + 1) :: rest
            path := s.path ++ [next] }
      | none => .inl {
          marks := s.marks.insert node .done
          stack := rest
          path := s.path.dropLast }

def searchRoot (adj : OrdMap V (List V)) (fuel : ℕ) (marks : OrdMap V Mark) (root : V) :
    Except (Fault V) (OrdMap V Mark) :=
  if marks.contains root then .ok marks
  else
    (loop (Search.step adj) fuel ⟨marks.insert root .visiting, [(root, 0)], [root]⟩).getD
      (.error .exhausted)

/-- The weight of a vertex that is not marked yet. -/
def unseen (marks : OrdMap V Mark) (v : V) (neighbors : List V) : ℕ :=
  if marks[v]? = none then neighbors.length + 2 else 0

/-- The weight of a vertex on the stack. The search stops at one without a list. -/
def frameEffort (adj : OrdMap V (List V)) (frame : V × ℕ) : ℕ :=
  adj[frame.1]?.elim 0 fun neighbors => neighbors.length - frame.2 + 1

/-- What is left to do: two for each vertex that is not on the stack yet and one for
    each that is, and one for each neighbour that has not been visited. -/
def effort (adj : OrdMap V (List V)) (s : Search V) : ℕ :=
  sum adj (unseen s.marks) + (s.stack.map (frameEffort adj)).sum

/-- Search from all vertices in order. -/
def findCycle (adj : OrdMap V (List V)) : Except (Fault V) Unit := do
  let _ ← adj.keys.foldlM (searchRoot adj (sum adj (unseen ∅) + 1)) ∅
  return ()

/-! ## Termination -/

section Termination

variable {adj : OrdMap V (List V)} {marks : OrdMap V Mark} {s s' : Search V}

theorem sum_unseen_insert (adj : OrdMap V (List V)) (marks : OrdMap V Mark) (v : V) (mark : Mark) :
    sum adj (unseen (marks.insert v mark)) + weight adj (unseen marks) v =
      sum adj (unseen marks) := by
  have hsum := sum_change adj adj (unseen marks) (unseen (marks.insert v mark)) v (by
    intro w hw
    unfold weight unseen
    rw [getElem?_insert_ne _ hw.symm])
  have haft : weight adj (unseen (marks.insert v mark)) v = 0 := by
    unfold weight
    cases adj[v]? with
    | none => rfl
    | some neighbors => simp [unseen]
  omega

theorem frameEffort_le_weight (adj : OrdMap V (List V)) {v : V} (hmark : marks[v]? = none) :
    frameEffort adj (v, 0) ≤ weight adj (unseen marks) v := by
  unfold frameEffort weight
  cases hadj : adj[v]? with
  | none => exact le_rfl
  | some neighbors =>
    simp only [Option.elim_some, unseen, hmark, if_true]
    omega

theorem step_effort (hstep : s.step adj = .inl s') : effort adj s' < effort adj s := by
  unfold Search.step at hstep
  split at hstep
  · cases hstep
  · rename_i node idx rest hstk
    split at hstep
    · cases hstep
    · rename_i neighbors hadj
      have htop : effort adj s = sum adj (unseen s.marks) +
          ((neighbors.length - idx + 1) + (rest.map (frameEffort adj)).sum) := by
        rw [effort, hstk, List.map_cons, List.sum_cons, frameEffort, hadj, Option.elim_some]
      split at hstep
      · rename_i next hnext
        obtain ⟨hlt, -⟩ := List.getElem?_eq_some_iff.mp hnext
        split at hstep
        · cases hstep
        · cases hstep
          rw [htop]
          simp only [effort, List.map_cons, List.sum_cons, frameEffort, hadj, Option.elim_some]
          omega
        · rename_i hmark
          cases hstep
          have hsum := sum_unseen_insert adj s.marks next .visiting
          have hle := frameEffort_le_weight adj hmark
          rw [htop]
          have hnode : frameEffort adj (node, idx + 1) = neighbors.length - (idx + 1) + 1 := by
            rw [frameEffort, hadj, Option.elim_some]
          simp only [effort, map_cons, sum_cons, hnode]
          omega
      · cases hstep
        have hsum := sum_unseen_insert adj s.marks node .done
        rw [htop]
        simp only [effort]
        omega

theorem effort_root_lt {root : V} (hmark : marks[root]? = none) :
    effort adj ⟨marks.insert root .visiting, [(root, 0)], [root]⟩ <
      sum adj (unseen ∅) + 1 := by
  have hle : sum adj (unseen marks) ≤ sum adj (unseen ∅) := by
    refine OrdMap.sum_le_sum fun v => ?_
    unfold weight unseen
    cases adj[v]? with
    | none => exact le_rfl
    | some neighbors =>
      simp only [Option.elim_some, Std.ExtTreeMap.getElem?_empty, if_true]
      split_ifs <;> omega
  have hsum := sum_unseen_insert adj marks root .visiting
  have hroot := frameEffort_le_weight adj hmark
  simp only [effort, map_cons, map_nil, sum_cons, sum_nil]
  omega

theorem searchRoot_returns (adj : OrdMap V (List V)) {root : V} (hmark : marks[root]? = none) :
    ∃ result, loop (Search.step adj) (sum adj (unseen ∅) + 1)
      ⟨marks.insert root .visiting, [(root, 0)], [root]⟩ = some result :=
  loop_returns (fun _ => True) (effort adj) (fun _ _ _ hs => ⟨trivial, step_effort hs⟩) _ trivial
    (effort_root_lt hmark)

theorem step_ne_exhausted {result : Except (Fault V) (OrdMap V Mark)}
    (hstep : s.step adj = .inr result) : Avoids .exhausted result := by
  unfold Search.step at hstep
  split at hstep
  · cases hstep
    exact .of_ok rfl
  · split at hstep
    · cases hstep
      exact .throw nofun
    · split at hstep
      · split at hstep <;> cases hstep
        exact .throw nofun
      · cases hstep

theorem searchRoot_ne_exhausted (root : V) :
    Avoids .exhausted (searchRoot adj (sum adj (unseen ∅) + 1) marks root) := by
  unfold searchRoot
  split_ifs with hroot
  · exact .of_ok rfl
  · rw [Bool.not_eq_true, contains_eq_false] at hroot
    obtain ⟨result, hres⟩ := searchRoot_returns adj hroot
    obtain ⟨s, -, hstep⟩ := loop_invariant (fun _ => True) (fun _ _ _ _ => trivial) _ trivial hres
    rw [hres, Option.getD_some]
    exact step_ne_exhausted hstep

theorem findCycle_ne_exhausted (adj : OrdMap V (List V)) : findCycle adj ≠ .error .exhausted :=
  Avoids.bind (.foldlM (fun _ root => searchRoot_ne_exhausted root) _ _) fun _ _ => .pure ()

end Termination

/-! ## The graph -/

def Edge (adj : OrdMap V (List V)) (v w : V) : Prop := ∃ neighbors, adj[v]? = some neighbors ∧ w ∈ neighbors

/-- Every neighbour has an adjacency list. -/
def Closed (adj : OrdMap V (List V)) : Prop := ∀ v w, Edge adj v w → ∃ neighbors, adj[w]? = some neighbors

/-- No vertex is reached from itself. -/
def Acyclic {V : Type} (r : V → V → Prop) : Prop := ∀ v, ¬ Relation.TransGen r v v

structure IsClosedWalk {V : Type} (r : V → V → Prop) (walk : List V) : Prop where
  two_le : 2 ≤ walk.length
  closed : walk.head? = walk.getLast?
  edges : walk.IsChain r

/-- No walk that starts at `v` goes on forever. -/
abbrev Terminal (adj : OrdMap V (List V)) (v : V) : Prop := Acc (fun w v => Edge adj v w) v

omit [LinearOrder V] in
theorem not_self_of_acc {r : V → V → Prop} {v : V} (h : Acc r v) : ¬ r v v := by
  induction h with
  | intro v _ ih => exact fun hself => ih v hself hself

/-- A vertex from which all walks end is not on a cycle. -/
theorem not_transGen_of_terminal {adj : OrdMap V (List V)} {v : V} (h : Terminal adj v) :
    ¬ Relation.TransGen (Edge adj) v v := by
  intro hcycle
  exact not_self_of_acc h.transGen (Relation.transGen_swap.mpr hcycle)

omit [LinearOrder V] in
theorem IsClosedWalk.not_acyclic {r : V → V → Prop} {walk : List V} (h : IsClosedWalk r walk) :
    ¬ Acyclic r := by
  obtain ⟨hlen, hcls, hedges⟩ := h
  match walk, hlen, hcls, hedges with
  | v :: w :: rest, _, hcls, hedges =>
    obtain ⟨hfirst, hrest⟩ := isChain_cons_cons.mp hedges
    have hlast : (w :: rest).getLast (cons_ne_nil _ _) = v := by
      have hv : some v = (v :: w :: rest).getLast? := hcls
      rw [getLast?_eq_some_getLast (cons_ne_nil _ _), getLast_cons (cons_ne_nil _ _)] at hv
      exact (Option.some.inj hv).symm
    exact fun hacyc => hacyc v
      (.head' hfirst (relationReflTransGen_of_exists_isChain_cons rest hrest hlast))

/-! ## The invariant -/

section Good

variable {adj : OrdMap V (List V)} {marks marks' : OrdMap V Mark} {s s' : Search V}

/-- The first `k` neighbours of `v` are done. -/
def Visited (adj : OrdMap V (List V)) (marks : OrdMap V Mark) (v : V) (k : ℕ) : Prop :=
  ∃ neighbors, adj[v]? = some neighbors ∧ k ≤ neighbors.length ∧
    ∀ w ∈ neighbors.take k, marks[w]? = some .done

/-- The frames below that of `child`: each is at the edge that leads up. -/
def Pending (adj : OrdMap V (List V)) (marks : OrdMap V Mark) : V → List (V × ℕ) → Prop
  | _, [] => True
  | child, (v, idx) :: rest =>
    (∃ k neighbors, idx = k + 1 ∧ adj[v]? = some neighbors ∧ neighbors[k]? = some child ∧
      ∀ w ∈ neighbors.take k, marks[w]? = some .done) ∧ Pending adj marks v rest

def Frames (adj : OrdMap V (List V)) (marks : OrdMap V Mark) : List (V × ℕ) → Prop
  | [] => True
  | (v, idx) :: rest => Visited adj marks v idx ∧ Pending adj marks v rest

/-- What the loop keeps. -/
structure Good (adj : OrdMap V (List V)) (s : Search V) : Prop where
  path : s.path = (s.stack.map Prod.fst).reverse
  nodup : s.path.Nodup
  visiting : ∀ v, s.marks[v]? = some .visiting ↔ v ∈ s.path
  done : ∀ v, s.marks[v]? = some .done → Terminal adj v
  frames : Frames adj s.marks s.stack

theorem Pending.mono (h : ∀ w : V, marks[w]? = some .done → marks'[w]? = some .done) :
    ∀ {stack : List (V × ℕ)} {child : V}, Pending adj marks child stack →
      Pending adj marks' child stack := by
  intro stack
  induction stack with
  | nil => intro _ _; trivial
  | cons frame rest ih =>
    rintro child ⟨⟨k, neighbors, hidx, hadj, hchd, hdone⟩, hrest⟩
    exact ⟨⟨k, neighbors, hidx, hadj, hchd, fun w hw => h w (hdone w hw)⟩, ih hrest⟩

theorem visited_succ {v w : V} {k : ℕ} {neighbors : List V} (hadj : adj[v]? = some neighbors)
    (hw : neighbors[k]? = some w) (hdone : ∀ u ∈ neighbors.take k, marks[u]? = some .done)
    (hmark : marks[w]? = some .done) : Visited adj marks v (k + 1) := by
  obtain ⟨hlt, -⟩ := List.getElem?_eq_some_iff.mp hw
  refine ⟨neighbors, hadj, hlt, ?_⟩
  intro u hu
  rw [List.take_add_one, hw, Option.toList_some, List.mem_append, List.mem_singleton] at hu
  rcases hu with hu | rfl
  · exact hdone u hu
  · exact hmark

theorem Pending.chain : ∀ {stack : List (V × ℕ)} {child : V}, Pending adj marks child stack →
    (child :: stack.map Prod.fst).IsChain fun w v => Edge adj v w := by
  intro stack
  induction stack with
  | nil => intro child _; exact isChain_singleton child
  | cons frame rest ih =>
    rintro child ⟨⟨k, neighbors, -, hadj, hchd, -⟩, hrest⟩
    exact isChain_cons_cons.mpr ⟨⟨neighbors, hadj, mem_of_getElem? hchd⟩, ih hrest⟩

theorem Good.chain (h : Good adj s) : s.path.IsChain (Edge adj) := by
  rw [h.path, isChain_reverse]
  have hfrs := h.frames
  cases hstk : s.stack with
  | nil => exact isChain_nil
  | cons =>
    rw [hstk] at hfrs
    exact hfrs.2.chain

/-! ## One step -/

theorem Good.isClosedWalk (h : Good adj s) {node next : V} {rest : List (V × ℕ)} {idx : ℕ}
    (hstk : s.stack = (node, idx) :: rest) (hedge : Edge adj node next)
    (hmark : s.marks[next]? = some .visiting) : IsClosedWalk (Edge adj) (closedWalk s.path next) := by
  have hmem : next ∈ s.path := (h.visiting next).mp hmark
  obtain ⟨before, after, hpath⟩ := append_of_mem hmem
  have hnotin : next ∉ before := by
    have hnodup := h.nodup
    rw [hpath, nodup_append] at hnodup
    exact fun hbef => hnodup.2.2 next hbef next mem_cons_self rfl
  have hidx : s.path.findIdx? (· = next) = some before.length := by
    have hnone : before.findIdx? (· = next) = none := by
      rw [findIdx?_eq_none_iff]
      intro v hv
      simp only [decide_eq_false_iff_not]
      rintro rfl
      exact hnotin hv
    rw [hpath, findIdx?_append, hnone, findIdx?_cons]
    simp
  have hwalk : closedWalk s.path next = next :: after ++ [next] := by
    rw [closedWalk, hidx, Option.getD_some, hpath, drop_left' rfl]
  have hlast : (next :: after).getLast? = some node := by
    have hpat : s.path.getLast? = some node := by
      rw [h.path, hstk, map_cons, reverse_cons, getLast?_concat]
    rw [hpath, getLast?_append_of_ne_nil _ (cons_ne_nil _ _)] at hpat
    exact hpat
  have hchain := h.chain
  rw [hpath, isChain_append] at hchain
  rw [hwalk]
  refine ⟨by simp, ?_, ?_⟩
  · rw [getLast?_concat]
    rfl
  · rw [isChain_append]
    refine ⟨hchain.2.1, isChain_singleton next, ?_⟩
    intro v hv w hw
    rw [hlast] at hv
    cases hv
    cases hw
    exact hedge

section Step

variable {node next : V} {idx : ℕ} {rest : List (V × ℕ)} {neighbors : List V}
  (h : Good adj s) (hstk : s.stack = (node, idx) :: rest) (hadj : adj[node]? = some neighbors)

include h hstk hadj

theorem Good.top : (idx ≤ neighbors.length ∧ ∀ w ∈ neighbors.take idx, s.marks[w]? = some .done) ∧
    Pending adj s.marks node rest := by
  have hfrs := h.frames
  rw [hstk] at hfrs
  obtain ⟨⟨neighbors', hadj', hvis⟩, hpend⟩ := hfrs
  obtain rfl : neighbors' = neighbors := Option.some.inj (hadj'.symm.trans hadj)
  exact ⟨hvis, hpend⟩

theorem Good.skip (hnext : neighbors[idx]? = some next) (hmark : s.marks[next]? = some .done) :
    Good adj { s with stack := (node, idx + 1) :: rest } := by
  obtain ⟨⟨-, hdone⟩, hpend⟩ := h.top hstk hadj
  refine ⟨?_, h.nodup, h.visiting, h.done, visited_succ hadj hnext hdone hmark, hpend⟩
  rw [h.path, hstk]
  rfl

/-- The next neighbour has not been seen. -/
theorem Good.push (hcls : Closed adj) (hnext : neighbors[idx]? = some next)
    (hmark : s.marks[next]? = none) :
    Good adj ⟨s.marks.insert next .visiting, (next, 0) :: (node, idx + 1) :: rest, s.path ++ [next]⟩ := by
  obtain ⟨⟨-, hdone⟩, hpend⟩ := h.top hstk hadj
  obtain ⟨neighbors₂, hadj₂⟩ := hcls node next ⟨neighbors, hadj, mem_of_getElem? hnext⟩
  have hfrsh : next ∉ s.path := by
    intro hmem
    rw [(h.visiting next).mpr hmem] at hmark
    cases hmark
  have hkeeps : ∀ w : V, s.marks[w]? = some .done →
      (s.marks.insert next .visiting)[w]? = some .done := by
    intro w hw
    have hne : next ≠ w := by
      rintro rfl
      rw [hw] at hmark
      cases hmark
    rw [getElem?_insert_ne _ hne, hw]
  refine ⟨?_, ?_, ?_, ?_, ?_, ?_⟩
  · show s.path ++ [next] = _
    rw [h.path, hstk]
    simp
  · exact concat_eq_append ▸ h.nodup.concat hfrsh
  · intro v
    show (s.marks.insert next .visiting)[v]? = some .visiting ↔ v ∈ s.path ++ [next]
    rw [getElem?_insert_ite, mem_append, mem_singleton, ← h.visiting]
    split_ifs with hv
    · simp [hv]
    · simp [Ne.symm hv]
  · intro v hv
    have hv' : (s.marks.insert next .visiting)[v]? = some .done := hv
    rw [getElem?_insert_ite] at hv'
    split_ifs at hv'
    · cases hv'
    · exact h.done v hv'
  · exact ⟨neighbors₂, hadj₂, Nat.zero_le _, by simp⟩
  · exact ⟨⟨idx, neighbors, rfl, hadj, hnext, fun w hw => hkeeps w (hdone w hw)⟩,
      hpend.mono hkeeps⟩

/-- All neighbours of the vertex on top are done. -/
theorem Good.pop (hnone : neighbors[idx]? = none) :
    Good adj ⟨s.marks.insert node .done, rest, s.path.dropLast⟩ := by
  obtain ⟨⟨-, hdone⟩, hpend⟩ := h.top hstk hadj
  rw [getElem?_eq_none_iff] at hnone
  rw [take_of_length_le hnone] at hdone
  have hpath : s.path = (rest.map Prod.fst).reverse ++ [node] := by
    rw [h.path, hstk, map_cons, reverse_cons]
  have hmark : s.marks[node]? = some .visiting := by
    rw [h.visiting, hpath]
    simp
  have hterm : Terminal adj node := by
    refine Acc.intro node ?_
    rintro w ⟨neighbors₂, hadj₂, hw⟩
    rw [hadj] at hadj₂
    cases hadj₂
    exact h.done w (hdone w hw)
  have hkeeps : ∀ w : V, s.marks[w]? = some .done →
      (s.marks.insert node .done)[w]? = some .done := by
    intro w hw
    rw [getElem?_insert_ite]
    split_ifs
    · rfl
    · exact hw
  have hnodup := h.nodup
  rw [hpath, nodup_append] at hnodup
  refine ⟨?_, ?_, ?_, ?_, ?_⟩
  · show s.path.dropLast = _
    rw [hpath, dropLast_concat]
  · show s.path.dropLast.Nodup
    rw [hpath, dropLast_concat]
    exact hnodup.1
  · intro v
    show (s.marks.insert node .done)[v]? = some .visiting ↔ v ∈ s.path.dropLast
    rw [hpath, dropLast_concat, getElem?_insert_ite]
    split_ifs with hv
    · subst hv
      refine ⟨nofun, fun hmem => ?_⟩
      exact absurd rfl (hnodup.2.2 node hmem node (mem_singleton.mpr rfl))
    · rw [h.visiting, hpath, mem_append, mem_singleton]
      simp [Ne.symm hv]
  · intro v hv
    have hv' : (s.marks.insert node .done)[v]? = some .done := hv
    rw [getElem?_insert_ite] at hv'
    split_ifs at hv' with heq
    · exact heq ▸ hterm
    · exact h.done v hv'
  · cases rest with
    | nil => trivial
    | cons =>
      obtain ⟨⟨k, neighbors₂, hidx, hadj₂, hchd, hdone₂⟩, hrest⟩ := hpend
      refine ⟨?_, hrest.mono hkeeps⟩
      rw [hidx]
      exact visited_succ hadj₂ hchd (fun w hw => hkeeps w (hdone₂ w hw))
        (getElem?_insert_same _ _ _)

end Step

theorem Good.step (hcls : Closed adj) (h : Good adj s) (hstep : s.step adj = .inl s') :
    Good adj s' := by
  unfold Search.step at hstep
  split at hstep
  · cases hstep
  · rename_i node idx rest hstk
    split at hstep
    · cases hstep
    · rename_i neighbors hadj
      split at hstep
      · rename_i next hnext
        split at hstep
        · cases hstep
        · rename_i hmark
          cases hstep
          exact h.skip hstk hadj hnext hmark
        · rename_i hmark
          cases hstep
          exact h.push hstk hadj hcls hnext hmark
      · rename_i hnone
        cases hstep
        exact h.pop hstk hadj hnone

theorem step_marked (hstep : s.step adj = .inl s') {v : V} (hv : s.marks[v]? ≠ none) :
    s'.marks[v]? ≠ none := by
  have hins : ∀ (w : V) (m : Mark), (s.marks.insert w m)[v]? ≠ none := by
    intro w m
    rw [getElem?_insert_ite]
    split_ifs
    · exact Option.some_ne_none m
    · exact hv
  unfold Search.step at hstep
  split at hstep
  · cases hstep
  · split at hstep
    · cases hstep
    · split at hstep
      · split at hstep <;> cases hstep
        · exact hv
        · exact hins _ _
      · cases hstep
        exact hins _ _

theorem Good.result (h : Good adj s) {result : Except (Fault V) (OrdMap V Mark)}
    (hstep : s.step adj = .inr result) :
    (s.stack = [] ∧ result = .ok s.marks) ∨
      ∃ walk, result = .error (.cycle walk) ∧ IsClosedWalk (Edge adj) walk := by
  unfold Search.step at hstep
  split at hstep
  · rename_i hstk
    cases hstep
    exact .inl ⟨hstk, rfl⟩
  · rename_i node idx rest hstk
    have hfrs := h.frames
    rw [hstk] at hfrs
    obtain ⟨⟨neighbors, hadj, -, -⟩, -⟩ := hfrs
    rw [hadj] at hstep
    split at hstep
    · rename_i hnone
      cases hnone
    · rename_i hsome
      cases hsome
      split at hstep
      · rename_i next hnext
        split at hstep <;> cases hstep
        rename_i hmark
        exact .inr ⟨_, rfl, h.isClosedWalk hstk ⟨neighbors, hadj, mem_of_getElem? hnext⟩ hmark⟩
      · cases hstep

/-! ## The search -/

/-- Between two roots nothing is being visited. -/
def Settled (adj : OrdMap V (List V)) (marks : OrdMap V Mark) : Prop :=
  ∀ v mark, marks[v]? = some mark → mark = .done ∧ Terminal adj v

theorem Settled.good (h : Settled adj marks) {root : V} {neighbors : List V}
    (hadj : adj[root]? = some neighbors) :
    Good adj ⟨marks.insert root .visiting, [(root, 0)], [root]⟩ := by
  refine ⟨rfl, nodup_singleton root, ?_, ?_, ⟨neighbors, hadj, Nat.zero_le _, by simp⟩, trivial⟩
  · intro v
    show (marks.insert root .visiting)[v]? = some .visiting ↔ v ∈ [root]
    rw [getElem?_insert_ite, mem_singleton]
    split_ifs with hv
    · simp [hv]
    · refine ⟨fun hmark => ?_, fun hroot => absurd hroot.symm hv⟩
      cases (h v _ hmark).1
  · intro v hv
    have hv' : (marks.insert root .visiting)[v]? = some .done := hv
    rw [getElem?_insert_ite] at hv'
    split_ifs at hv'
    · cases hv'
    · exact (h v _ hv').2

theorem searchRoot_of_closed (hcls : Closed adj) (h : Settled adj marks) {root : V}
    {neighbors : List V} (hadj : adj[root]? = some neighbors) :
    (∃ marks', searchRoot adj (sum adj (unseen ∅) + 1) marks root = .ok marks' ∧
        Settled adj marks' ∧ marks'[root]? ≠ none ∧ ∀ v : V, marks[v]? ≠ none → marks'[v]? ≠ none) ∨
      ∃ walk, searchRoot adj (sum adj (unseen ∅) + 1) marks root = .error (.cycle walk) ∧
        IsClosedWalk (Edge adj) walk := by
  unfold searchRoot
  split_ifs with hroot
  · obtain ⟨mark, hmark⟩ := (contains_iff marks root).mp hroot
    refine .inl ⟨marks, rfl, h, ?_, fun v hv => hv⟩
    rw [hmark]
    exact Option.some_ne_none mark
  · rw [Bool.not_eq_true, contains_eq_false] at hroot
    have hgood := h.good hadj
    obtain ⟨result, hres⟩ := searchRoot_returns adj hroot
    rw [hres, Option.getD_some]
    obtain ⟨s, ⟨hs, hmar⟩, hstep⟩ := loop_invariant
      (fun s => Good adj s ∧ ∀ v : V, (marks.insert root .visiting)[v]? ≠ none → s.marks[v]? ≠ none)
      (fun s s' hI hs => ⟨hI.1.step hcls hs, fun v hv => step_marked hs (hI.2 v hv)⟩) _
      ⟨hgood, fun v hv => hv⟩ hres
    rcases hs.result hstep with ⟨hstk, rfl⟩ | hwalk
    · refine .inl ⟨s.marks, rfl, ?_, ?_, ?_⟩
      · intro v mark hmark
        cases mark with
        | visiting =>
          have hv := (hs.visiting v).mp hmark
          rw [hs.path, hstk] at hv
          cases hv
        | done => exact ⟨rfl, hs.done v hmark⟩
      · refine hmar root ?_
        rw [getElem?_insert_same]
        exact Option.some_ne_none _
      · intro v hv
        refine hmar v ?_
        rw [getElem?_insert_ite]
        split_ifs
        · exact Option.some_ne_none _
        · exact hv
    · exact .inr hwalk

theorem searchRoots_of_closed (hcls : Closed adj) : ∀ {roots : List V} {marks : OrdMap V Mark},
    (∀ root ∈ roots, ∃ neighbors, adj[root]? = some neighbors) → Settled adj marks →
    (∃ marks', roots.foldlM (searchRoot adj (sum adj (unseen ∅) + 1)) marks = .ok marks' ∧
        Settled adj marks' ∧ ∀ v : V, v ∈ roots ∨ marks[v]? ≠ none → marks'[v]? ≠ none) ∨
      ∃ walk, roots.foldlM (searchRoot adj (sum adj (unseen ∅) + 1)) marks =
        .error (.cycle walk) ∧ IsClosedWalk (Edge adj) walk := by
  intro roots
  induction roots with
  | nil =>
    intro marks _ hmarks
    refine .inl ⟨marks, rfl, hmarks, ?_⟩
    rintro v (hv | hv)
    · cases hv
    · exact hv
  | cons root roots ih =>
    intro marks hroots hmarks
    obtain ⟨neighbors, hadj⟩ := hroots root mem_cons_self
    rw [foldlM_cons]
    rcases searchRoot_of_closed hcls hmarks hadj with
      ⟨marks₁, hok, hmarks₁, hroot, hkeep⟩ | ⟨walk, herror, hwalk⟩
    · rcases ih (fun r hr => hroots r (mem_cons_of_mem root hr)) hmarks₁ with
        ⟨marks₂, hok₂, hmarks₂, hkeep₂⟩ | ⟨walk, herror, hwalk⟩
      · refine .inl ⟨marks₂, bind_eq_ok.mpr ⟨marks₁, hok, hok₂⟩, hmarks₂, ?_⟩
        rintro v (hv | hv)
        · rcases mem_cons.mp hv with rfl | hv
          · exact hkeep₂ v (.inr hroot)
          · exact hkeep₂ v (.inl hv)
        · exact hkeep₂ v (.inr (hkeep v hv))
      · exact .inr ⟨walk, bind_eq_error.mpr (.inr ⟨marks₁, hok, herror⟩), hwalk⟩
    · exact .inr ⟨walk, bind_eq_error.mpr (.inl herror), hwalk⟩

/-- If every neighbour has an adjacency list, the search ends. It either shows that no
    vertex is on a cycle, or finds a closed walk. -/
theorem findCycle_of_closed (hcls : Closed adj) : (findCycle adj = .ok () ∧ Acyclic (Edge adj)) ∨
      ∃ walk, findCycle adj = .error (.cycle walk) ∧ IsClosedWalk (Edge adj) walk := by
  have hkeys : ∀ root ∈ adj.keys, ∃ neighbors, adj[root]? = some neighbors :=
    fun root hroot => (mem_keys adj root).mp hroot
  have hemp : Settled adj ∅ := by
    intro v mark hmark
    rw [Std.ExtTreeMap.getElem?_empty] at hmark
    cases hmark
  rcases searchRoots_of_closed hcls hkeys hemp with
    ⟨marks, hok, hmarks, hall⟩ | ⟨walk, herror, hwalk⟩
  · refine .inl ⟨bind_eq_ok.mpr ⟨marks, hok, rfl⟩, ?_⟩
    intro v hcycle
    -- a vertex on a cycle has a neighbour, hence a list, hence it was a root
    have hv : v ∈ adj.keys := by
      obtain ⟨w, ⟨neighbors, hadj, -⟩, -⟩ := Relation.TransGen.head'_iff.mp hcycle
      exact (mem_keys adj v).mpr ⟨neighbors, hadj⟩
    obtain ⟨mark, hmark⟩ := Option.ne_none_iff_exists'.mp (hall v (.inl hv))
    exact not_transGen_of_terminal (hmarks v mark hmark).2 hcycle
  · exact .inr ⟨walk, bind_eq_error.mpr (.inl herror), hwalk⟩

end Good

end Hermit.Common.DepthFirst
