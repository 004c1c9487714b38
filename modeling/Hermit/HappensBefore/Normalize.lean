import Hermit.HappensBefore.Spec

/-!
# Normalized specifications are acyclic

What `normalize` guarantees of a specification that it accepts, and what `detect_cycle`
computes.

* `normalize_acyclic`
-/

namespace Hermit.HappensBefore

open Common OrdMap List
open DepthFirst (Acyclic IsClosedWalk Edge Closed Fault)

/-! ## The graphs -/

def Joins (edges : List HappensBeforeEdge) (v w : String) : Prop :=
  ∃ e ∈ edges, e.before = v ∧ e.after = w

namespace HappensBeforeSpec

/-- The event graph: the edges of the specification. -/
def Precedes (spec : HappensBeforeSpec) (v w : String) : Prop :=
  ∃ e ∈ spec.edges, e.before = v ∧ e.after = w

/-- The hard edges, and an activation edge from the base of each relative event. -/
def Activates (spec : HappensBeforeSpec) (v w : String) : Prop :=
  (∃ e ∈ spec.edges, e.strength = .hard ∧ e.before = v ∧ e.after = w) ∨
    ∃ ev, spec.events[w]? = some ev ∧ ev.from_ = some v

structure Resolved (spec : HappensBeforeSpec) : Prop where
  before : ∀ e ∈ spec.edges, ∃ ev, spec.events[e.before]? = some ev
  after : ∀ e ∈ spec.edges, ∃ ev, spec.events[e.after]? = some ev
  base : ∀ (name : String) ev base, spec.events[name]? = some ev → ev.from_ = some base →
    ∃ ev', spec.events[base]? = some ev'

end HappensBeforeSpec

/-! ## Adjacency lists -/

section Adjacency

variable {anchors : OrdMap String Anchor} {edges : List HappensBeforeEdge}

theorem getElem?_nodes (v : String) : ∀ (names : List String) (adj : OrdMap String (List String)),
    (names.foldl (fun adj name => if adj.contains name then adj else adj.insert name []) adj)[v]? =
      if v ∈ names then some (adj[v]?.getD []) else adj[v]? := by
  intro names
  induction names with
  | nil => exact fun adj => rfl
  | cons name names ih =>
    intro adj
    have hent : (if adj.contains name then adj else adj.insert name [])[v]? =
        if name = v then some (adj[v]?.getD []) else adj[v]? := by
      by_cases hname : adj.contains name = true
      · obtain ⟨list, hlist⟩ := (contains_iff adj name).mp hname
        rw [if_pos hname]
        split_ifs with hv
        · rw [← hv, hlist, Option.getD_some]
        · rfl
      · rw [if_neg hname, getElem?_insert_ite]
        rw [Bool.not_eq_true, contains_eq_false] at hname
        split_ifs with hv
        · rw [← hv, hname, Option.getD_none]
        · rfl
    rw [foldl_cons, ih, hent]
    by_cases hv : name = v
    · simp [hv]
    · simp [hv, Ne.symm hv]

theorem edge_push (adj : OrdMap String (List String)) (e : HappensBeforeEdge) (v w : String) :
    Edge (adj.insert e.before (adj[e.before]?.getD [] ++ [e.after])) v w ↔
      Edge adj v w ∨ e.before = v ∧ e.after = w := by
  unfold Edge
  rw [getElem?_insert_ite]
  split_ifs with hv
  · rw [← hv]
    cases adj[e.before]? with
    | none => simp [eq_comm]
    | some list => simp [eq_comm]
  · simp [hv]

theorem edge_pushes (v w : String) : ∀ (edges : List HappensBeforeEdge)
    (adj : OrdMap String (List String)),
    Edge (edges.foldl (fun adj e => adj.insert e.before (adj[e.before]?.getD [] ++ [e.after])) adj)
      v w ↔ Edge adj v w ∨ Joins edges v w := by
  intro edges
  induction edges with
  | nil => simp [Joins]
  | cons e edges ih =>
    intro adj
    rw [foldl_cons, ih, edge_push, or_assoc]
    simp [Joins]

theorem contains_pushes {v : String} : ∀ (edges : List HappensBeforeEdge)
    {adj : OrdMap String (List String)}, adj[v]? ≠ none →
    (edges.foldl (fun adj e => adj.insert e.before (adj[e.before]?.getD [] ++ [e.after])) adj)[v]? ≠
      none := by
  intro edges
  induction edges with
  | nil => exact fun h => h
  | cons e edges ih =>
    intro adj h
    refine ih ?_
    rw [getElem?_insert_ite]
    split_ifs
    · exact Option.some_ne_none _
    · exact h

/-- The graph that is searched is the graph of the edges. -/
theorem edge_adjacency (v w : String) : Edge (adjacency anchors edges) v w ↔ Joins edges v w := by
  unfold adjacency
  rw [edge_pushes, or_iff_right]
  rintro ⟨list, hlist, hw⟩
  rw [getElem?_nodes, Std.ExtTreeMap.getElem?_empty] at hlist
  split_ifs at hlist
  cases hlist
  cases hw

theorem adjacency_anchor {v : String} (h : anchors.contains v = true) :
    (adjacency anchors edges)[v]? ≠ none := by
  refine contains_pushes edges ?_
  have hv : v ∈ anchors.keys := (mem_keys anchors v).mpr ((contains_iff anchors v).mp h)
  rw [getElem?_nodes, if_pos hv]
  exact Option.some_ne_none _

def Ends (anchors : OrdMap String Anchor) (edges : List HappensBeforeEdge) : Prop :=
  ∀ e ∈ edges, anchors.contains e.before = true ∧ anchors.contains e.after = true

theorem Ends.closed (h : Ends anchors edges) : Closed (adjacency anchors edges) := by
  intro v w hedge
  obtain ⟨e, he, -, rfl⟩ := (edge_adjacency v w).mp hedge
  exact Option.ne_none_iff_exists'.mp (adjacency_anchor (h e he).2)

theorem detectCycle_of_ends (h : Ends anchors edges) :
    (detectCycle anchors edges = .ok () ∧ Acyclic (Joins edges)) ∨
      ∃ path, detectCycle anchors edges = .error (.cycle path) ∧ IsClosedWalk (Joins edges) path := by
  have hgraph : Edge (adjacency anchors edges) = Joins edges :=
    funext₂ fun v w => propext (edge_adjacency v w)
  have hsear := DepthFirst.findCycle_of_closed h.closed
  rwa [hgraph] at hsear

end Adjacency

/-! ## Events -/

section Events

variable {sysnoFromStr : String → Option Sysno} {spec : HappensBeforeSpec}
  {anchors : OrdMap String Anchor} {edges : List HappensBeforeEdge}

structure IsAnchorOf (name : String) (ev : EventSpec) (anchor : Anchor) : Prop where
  name : anchor.name = name
  from_ : anchor.from_ = ev.from_
  /-- Occurrences are counted from 1. -/
  nth_pos : ∀ sysno phase nth fd futexOp,
    anchor.position = .syscall sysno phase nth fd futexOp → 0 < nth

theorem normalizeSyscall_ok {name sc : String} {ev : EventSpec} {nth : ℕ} {position : Position}
    (h : normalizeSyscall sysnoFromStr name sc ev nth = .ok position) :
    ∃ sysno phase fd futexOp, position = .syscall sysno phase nth fd futexOp := by
  unfold normalizeSyscall at h
  split at h
  · cases h
  · obtain ⟨-, h⟩ := throwIf_eq_ok.mp h
    obtain ⟨futexOp, -, h⟩ := bind_eq_ok.mp h
    obtain ⟨-, h⟩ := throwIf_eq_ok.mp h
    cases h
    exact ⟨_, _, _, _, rfl⟩

theorem normalizePosition_syscall {name : String} {ev : EventSpec} {n : ℕ} {sysno : Sysno}
    {phase : Option SyscallPhase} {nth : ℕ} {fd futexOp : Option ℤ}
    (h : normalizePosition sysnoFromStr name ev n = .ok (.syscall sysno phase nth fd futexOp)) :
    nth = n ∧ ev.syscalls = none ∧ ev.rcbs = none := by
  unfold normalizePosition at h
  split at h
  · cases h
  · cases h
  · rename_i hsysc hrcbs _
    obtain ⟨_, _, _, _, hpos⟩ := normalizeSyscall_ok h
    cases hpos
    exact ⟨rfl, hsysc, hrcbs⟩
  · split at h <;> cases h
  · cases h
  · cases h

theorem normalizeEvent_ok {name : String} {ev : EventSpec} {anchor : Anchor}
    (h : spec.normalizeEvent sysnoFromStr name ev = .ok anchor) : IsAnchorOf name ev anchor := by
  obtain ⟨thread, -, h⟩ := bind_eq_ok.mp h
  obtain ⟨-, h⟩ := throwIf_eq_ok.mp h
  obtain ⟨-, h⟩ := throwIf_eq_ok.mp h
  obtain ⟨-, h⟩ := throwIf_eq_ok.mp h
  obtain ⟨-, h⟩ := throwIf_eq_ok.mp h
  obtain ⟨hnth, h⟩ := throwIf_eq_ok.mp h
  obtain ⟨position, hpos, h⟩ := bind_eq_ok.mp h
  cases h
  refine ⟨rfl, rfl, ?_⟩
  rintro sysno phase nth fd futexOp rfl
  obtain ⟨rfl, hsysc, hrcbs⟩ := normalizePosition_syscall hpos
  rw [hsysc, hrcbs] at hnth
  cases hev : ev.nth with
  | none => exact Nat.one_pos
  | some n =>
    rw [hev] at hnth
    refine Nat.pos_of_ne_zero ?_
    rintro rfl
    exact hnth ⟨rfl, rfl, rfl⟩

theorem normalizeEvents_ok (h : spec.normalizeEvents sysnoFromStr = .ok anchors) :
    (∀ (name : String) anchor, anchors[name]? = some anchor →
      ∃ ev, spec.events[name]? = some ev ∧ IsAnchorOf name ev anchor) ∧
    ∀ (name : String) ev, spec.events[name]? = some ev → ∃ anchor, anchors[name]? = some anchor := by
  -- what the loop has done with a prefix of the events
  have hloop := foldlM_history
    (fun (anchors : OrdMap String Anchor) (events : List (String × EventSpec)) =>
      (∀ (name : String) anchor, anchors[name]? = some anchor →
        ∃ ev, (name, ev) ∈ events ∧ IsAnchorOf name ev anchor) ∧
      ∀ e ∈ events, ∃ anchor, anchors[e.1]? = some anchor) ?_ ?_ h
  · refine ⟨fun name anchor hanc => ?_, fun name ev hev => ?_⟩
    · obtain ⟨ev, hmem, hof⟩ := hloop.1 name anchor hanc
      exact ⟨ev, (mem_toList spec.events name ev).mp hmem, hof⟩
    · exact hloop.2 (name, ev) ((mem_toList spec.events name ev).mpr hev)
  · rintro anchors events ⟨name, ev⟩ anchors' ⟨hfrom, hto⟩ hstep
    obtain ⟨anchor, hanc, hstep⟩ := bind_eq_ok.mp hstep
    cases hstep
    refine ⟨fun name' anchor' hget => ?_, fun e he => ?_⟩
    · rw [getElem?_insert_ite] at hget
      split_ifs at hget with hname
      · cases hget
        cases hname
        exact ⟨ev, mem_append_right _ (mem_singleton.mpr rfl), normalizeEvent_ok hanc⟩
      · obtain ⟨ev', hmem, hof⟩ := hfrom name' anchor' hget
        exact ⟨ev', mem_append_left _ hmem, hof⟩
    · rw [getElem?_insert_ite]
      split_ifs with hname
      · exact ⟨anchor, rfl⟩
      · rcases mem_append.mp he with he | he
        · exact hto e he
        · rw [mem_singleton] at he
          exact absurd (by rw [he]) hname
  · refine ⟨fun name anchor hget => ?_, fun e he => by cases he⟩
    rw [Std.ExtTreeMap.getElem?_empty] at hget
    cases hget

structure IsBaseOf (base anchor : Anchor) : Prop where
  occurrence : anchor.isSyscallOccurrence = true
  thread : sameThread base.thread anchor.thread = true
  absolute : base.from_ = none
  position : base.position.isSyscallCount = true ∨ base.isSyscallOccurrence = true

theorem checkRelativeBase_ok {anchor : Anchor} {base : String}
    (h : checkRelativeBase anchors anchor = .ok ()) (hfrom : anchor.from_ = some base) :
    ∃ baseAnchor, anchors[base]? = some baseAnchor ∧ IsBaseOf baseAnchor anchor := by
  unfold checkRelativeBase at h
  split at h
  · rename_i hnone
    rw [hfrom] at hnone
    cases hnone
  · rename_i base' hsome
    rw [hfrom] at hsome
    cases hsome
    split at h
    · cases h
    · rename_i baseAnchor hbase
      obtain ⟨hoccu, h⟩ := throwIf_eq_ok.mp h
      obtain ⟨hthd, h⟩ := throwIf_eq_ok.mp h
      obtain ⟨habso, h⟩ := throwIf_eq_ok.mp h
      obtain ⟨hpos, -⟩ := throwIf_eq_ok.mp h
      refine ⟨baseAnchor, hbase, not_not.mp hoccu, not_not.mp hthd, ?_, ?_⟩
      · exact Option.not_isSome_iff_eq_none.mp habso
      · rwa [← not_or, not_not] at hpos

theorem resolveEdge_ok {e : EdgeSpec} {e' : HappensBeforeEdge}
    (h : resolveEdge anchors e = .ok e') :
    anchors.contains e.before = true ∧ anchors.contains e.after = true ∧
      e' = ⟨e.before, e.after, e.strength⟩ := by
  unfold resolveEdge at h
  obtain ⟨hbef, h⟩ := throwIf_eq_ok.mp h
  obtain ⟨haft, h⟩ := throwIf_eq_ok.mp h
  cases h
  exact ⟨not_not.mp hbef, not_not.mp haft, rfl⟩

structure Tables (spec : HappensBeforeSpec) (anchors : OrdMap String Anchor)
    (edges : List HappensBeforeEdge) : Prop where
  anchor : ∀ (name : String) anchor, anchors[name]? = some anchor →
    ∃ ev, spec.events[name]? = some ev ∧ IsAnchorOf name ev anchor
  event : ∀ (name : String) ev, spec.events[name]? = some ev → ∃ anchor, anchors[name]? = some anchor
  base : ∀ (name : String) anchor base, anchors[name]? = some anchor → anchor.from_ = some base →
    ∃ baseAnchor, anchors[base]? = some baseAnchor ∧ IsBaseOf baseAnchor anchor
  ends : Ends anchors edges
  edges_eq : edges = spec.edges.map fun e => ⟨e.before, e.after, e.strength⟩

theorem resolveEdges_ok : ∀ {specs : List EdgeSpec} {edges : List HappensBeforeEdge},
    List.Forall₂ (fun e e' => resolveEdge anchors e = .ok e') specs edges →
    Ends anchors edges ∧ edges = specs.map fun e => ⟨e.before, e.after, e.strength⟩ := by
  intro specs edges h
  induction h with
  | nil => exact ⟨fun e he => absurd he not_mem_nil, rfl⟩
  | cons he _ ih =>
    obtain ⟨hbef, haft, rfl⟩ := resolveEdge_ok he
    exact ⟨forall_mem_cons.mpr ⟨⟨hbef, haft⟩, ih.1⟩, by rw [ih.2, map_cons]⟩

theorem resolve_ok (h : spec.resolve sysnoFromStr = .ok (anchors, edges)) :
    Tables spec anchors edges := by
  unfold HappensBeforeSpec.resolve at h
  obtain ⟨-, h⟩ := throwIf_eq_ok.mp h
  -- the fields of version 2 are checked or not; the rest is the same
  have hrest : ((spec.normalizeEvents sysnoFromStr) >>= fun anchors => checkRelativeBases anchors >>=
      fun _ => spec.edges.mapM (resolveEdge anchors) >>= fun edges => pure (anchors, edges)) =
      .ok (anchors, edges) := by
    split_ifs at h
    · obtain ⟨⟨⟩, -, h⟩ := bind_eq_ok.mp h
      exact h
    · exact h
  obtain ⟨anchors', heven, h⟩ := bind_eq_ok.mp hrest
  obtain ⟨⟨⟩, hbases, h⟩ := bind_eq_ok.mp h
  obtain ⟨edges', hedges, h⟩ := bind_eq_ok.mp h
  cases h
  obtain ⟨hanc, hevt⟩ := normalizeEvents_ok heven
  obtain ⟨hends, hedges⟩ := resolveEdges_ok (mapM_eq_ok.mp hedges)
  refine ⟨hanc, hevt, ?_, hends, hedges⟩
  intro name anchor base hget hfrom
  have hmem : anchor ∈ anchors.values := (mem_values anchors anchor).mpr ⟨name, hget⟩
  exact checkRelativeBase_ok (forM_eq_ok.mp hbases anchor hmem) hfrom

namespace Tables

variable (t : Tables spec anchors edges)

include t

theorem contains_iff_event (name : String) :
    anchors.contains name = true ↔ ∃ ev, spec.events[name]? = some ev := by
  rw [OrdMap.contains_iff]
  constructor
  · rintro ⟨anchor, hanc⟩
    obtain ⟨ev, hev, -⟩ := t.anchor name anchor hanc
    exact ⟨ev, hev⟩
  · rintro ⟨ev, hev⟩
    exact t.event name ev hev

theorem joins_iff_precedes (v w : String) : Joins edges v w ↔ spec.Precedes v w := by
  unfold Joins HappensBeforeSpec.Precedes
  rw [t.edges_eq]
  simp

theorem mem_activationEdges (e : HappensBeforeEdge) : e ∈ activationEdges anchors ↔
    e.strength = .hard ∧ ∃ ev, spec.events[e.after]? = some ev ∧ ev.from_ = some e.before := by
  unfold activationEdges
  simp only [mem_filterMap, mem_values, Option.map_eq_some_iff]
  constructor
  · rintro ⟨anchor, ⟨name, hanc⟩, base, hbase, rfl⟩
    obtain ⟨ev, hev, hof⟩ := t.anchor name anchor hanc
    refine ⟨rfl, ev, ?_, hof.from_.symm.trans hbase⟩
    rw [hof.name]
    exact hev
  · rintro ⟨hhard, ev, hev, hfrom⟩
    obtain ⟨anchor, hanc⟩ := t.event e.after ev hev
    obtain ⟨ev', hev', hof⟩ := t.anchor e.after anchor hanc
    rw [hev] at hev'
    cases hev'
    refine ⟨anchor, ⟨e.after, hanc⟩, e.before, hof.from_.trans hfrom, ?_⟩
    rw [hof.name, ← hhard]

theorem joins_iff_activates (v w : String) :
    Joins (withActivation anchors edges) v w ↔ spec.Activates v w := by
  constructor
  · rintro ⟨e, he, rfl, rfl⟩
    obtain ⟨he, hhard⟩ := mem_filter.mp he
    rcases mem_append.mp he with he | he
    · rw [t.edges_eq] at he
      obtain ⟨e', he', rfl⟩ := mem_map.mp he
      exact .inl ⟨e', he', of_decide_eq_true hhard, rfl, rfl⟩
    · exact .inr ((t.mem_activationEdges e).mp he).2
  · rintro (⟨e, he, hhard, rfl, rfl⟩ | hacti)
    · refine ⟨⟨e.before, e.after, e.strength⟩, mem_filter.mpr ⟨?_, decide_eq_true hhard⟩, rfl, rfl⟩
      refine mem_append_left _ ?_
      rw [t.edges_eq]
      exact mem_map.mpr ⟨e, he, rfl⟩
    · refine ⟨⟨v, w, .hard⟩, mem_filter.mpr ⟨?_, rfl⟩, rfl, rfl⟩
      exact mem_append_right _ ((t.mem_activationEdges _).mpr ⟨rfl, hacti⟩)

theorem ends_withActivation : Ends anchors (withActivation anchors edges) := by
  intro e he
  rcases mem_append.mp (mem_filter.mp he).1 with he | he
  · exact t.ends e he
  · obtain ⟨-, ev, hev, hfrom⟩ := (t.mem_activationEdges e).mp he
    obtain ⟨anchor, hanc⟩ := t.event e.after ev hev
    obtain ⟨ev', hev', hof⟩ := t.anchor e.after anchor hanc
    rw [hev] at hev'
    cases hev'
    obtain ⟨base, hbase, -⟩ := t.base e.after anchor e.before hanc (hof.from_.trans hfrom)
    exact ⟨(contains_iff anchors _).mpr ⟨base, hbase⟩, (contains_iff anchors _).mpr ⟨anchor, hanc⟩⟩

theorem resolved : spec.Resolved := by
  have hends : ∀ e ∈ spec.edges, anchors.contains e.before = true ∧ anchors.contains e.after = true := by
    intro e he
    refine t.ends ⟨e.before, e.after, e.strength⟩ ?_
    rw [t.edges_eq]
    exact mem_map.mpr ⟨e, he, rfl⟩
  refine ⟨fun e he => (t.contains_iff_event _).mp (hends e he).1,
    fun e he => (t.contains_iff_event _).mp (hends e he).2, ?_⟩
  intro name ev base hev hfrom
  have hacti := (t.mem_activationEdges ⟨base, name, .hard⟩).mpr ⟨rfl, ev, hev, hfrom⟩
  have hmem : (⟨base, name, .hard⟩ : HappensBeforeEdge) ∈ withActivation anchors edges :=
    mem_filter.mpr ⟨mem_append_right _ hacti, rfl⟩
  exact (t.contains_iff_event base).mp (t.ends_withActivation _ hmem).1

end Tables

end Events

/-! ## The theorem -/

section Normalize

variable {sysnoFromStr : String → Option Sysno} {spec : HappensBeforeSpec}
  {program : HappensBeforeProgram}

theorem normalize_ok (h : spec.normalize sysnoFromStr = .ok program) :
    Tables spec program.anchors program.edges ∧ detectCycle program.anchors program.edges = .ok () ∧
      detectCycle program.anchors (withActivation program.anchors program.edges) = .ok () := by
  obtain ⟨⟨anchors, edges⟩, hreso, h⟩ := bind_eq_ok.mp h
  obtain ⟨⟨⟩, hfirst, h⟩ := bind_eq_ok.mp h
  obtain ⟨⟨⟩, hseco, h⟩ := bind_eq_ok.mp h
  cases h
  exact ⟨resolve_ok (mapError_eq_ok.mp hreso), mapError_eq_ok.mp hfirst, mapError_eq_ok.mp hseco⟩

theorem detectCycle_error {anchors : OrdMap String Anchor} {edges : List HappensBeforeEdge}
    (h : Ends anchors edges) {report : List String → HappensBeforeError} {failure : Failure}
    (hfail : (detectCycle anchors edges).mapError (.ofFault report) = .error failure) :
    ∃ error, failure = .refused error := by
  obtain ⟨fault, hfault, rfl⟩ := mapError_eq_error.mp hfail
  rcases detectCycle_of_ends h with ⟨hok, -⟩ | ⟨path, hcycle, -⟩
  · rw [hok] at hfault
    cases hfault
  · rw [hcycle] at hfault
    cases hfault
    exact ⟨report path, rfl⟩

theorem normalize_error {failure : Failure} (h : spec.normalize sysnoFromStr = .error failure) :
    ∃ error, failure = .refused error := by
  rcases bind_eq_error.mp h with h | ⟨⟨anchors, edges⟩, hreso, h⟩
  · obtain ⟨error, -, rfl⟩ := mapError_eq_error.mp h
    exact ⟨error, rfl⟩
  have t := resolve_ok (mapError_eq_ok.mp hreso)
  rcases bind_eq_error.mp h with h | ⟨⟨⟩, -, h⟩
  · exact detectCycle_error t.ends h
  rcases bind_eq_error.mp h with h | ⟨⟨⟩, -, h⟩
  · exact detectCycle_error t.ends_withActivation h
  · cases h

theorem acyclic_of_detectCycle {anchors : OrdMap String Anchor} {edges : List HappensBeforeEdge}
    (h : Ends anchors edges) (hok : detectCycle anchors edges = .ok ()) : Acyclic (Joins edges) := by
  rcases detectCycle_of_ends h with ⟨-, hacyc⟩ | ⟨path, hcycle, -⟩
  · exact hacyc
  · rw [hok] at hcycle
    cases hcycle

/-- An accepted specification refers only to its own events, and neither its edges nor
    its hard edges and activations have a cycle. `normalize` never panics and always
    ends. `detect_cycle` ends on every graph; on a graph whose edges join anchors, as
    both graphs of `normalize` do, it fails exactly if there is a cycle, with a closed
    walk, and never looks up a node that is missing. -/
theorem normalize_acyclic (sysnoFromStr : String → Option Sysno) (spec : HappensBeforeSpec) :
    (∀ program, spec.normalize sysnoFromStr = .ok program →
      spec.Resolved ∧ Acyclic spec.Precedes ∧ Acyclic spec.Activates) ∧
    (∀ failure, spec.normalize sysnoFromStr = .error failure → ∃ error, failure = .refused error) ∧
    ∀ (anchors : OrdMap String Anchor) (edges : List HappensBeforeEdge),
      detectCycle anchors edges ≠ .error .exhausted ∧
      (Ends anchors edges → (detectCycle anchors edges = .ok () ↔ Acyclic (Joins edges)) ∧
        (∀ fault, detectCycle anchors edges = .error fault →
          ∃ path, fault = .cycle path ∧ IsClosedWalk (Joins edges) path)) := by
  refine ⟨fun program h => ?_, fun failure h => normalize_error h, fun anchors edges => ⟨?_, ?_⟩⟩
  · obtain ⟨t, hfirst, hseco⟩ := normalize_ok h
    have hprec : Joins program.edges = spec.Precedes :=
      funext₂ fun v w => propext (t.joins_iff_precedes v w)
    have hact : Joins (withActivation program.anchors program.edges) = spec.Activates :=
      funext₂ fun v w => propext (t.joins_iff_activates v w)
    refine ⟨t.resolved, ?_, ?_⟩
    · rw [← hprec]
      exact acyclic_of_detectCycle t.ends hfirst
    · rw [← hact]
      exact acyclic_of_detectCycle t.ends_withActivation hseco
  · exact DepthFirst.findCycle_ne_exhausted _
  · intro hends
    refine ⟨⟨acyclic_of_detectCycle hends, fun hacyc => ?_⟩, fun fault hfault => ?_⟩
    · rcases detectCycle_of_ends hends with ⟨hok, -⟩ | ⟨path, -, hwalk⟩
      · exact hok
      · exact absurd hacyc hwalk.not_acyclic
    · rcases detectCycle_of_ends hends with ⟨hok, -⟩ | ⟨path, hcycle, hwalk⟩
      · rw [hok] at hfault
        cases hfault
      · rw [hcycle] at hfault
        cases hfault
        exact ⟨path, rfl, hwalk⟩

/-- The second `futex` of thread 7 after its third system call, before a `write` of
    thread 8. -/
def relayed : HappensBeforeSpec where
  version := 2
  events := ((∅ : OrdMap String EventSpec).insert "start" { thread := "7", syscalls := some 3 }).insert
    "wake" { thread := "7", syscall := some "futex", nth := some 2, from_ := some "start" } |>.insert
    "store" { thread := "8", syscall := some "write", fd := some 1 }
  edges := [⟨"wake", "store", .hard⟩, ⟨"start", "store", .soft⟩]

/-- Two edges that are a cycle, one of them soft. -/
def backAndForth : List HappensBeforeEdge := [⟨"wake", "store", .hard⟩, ⟨"store", "wake", .soft⟩]

def relayedSysno (name : String) : Option Sysno :=
  if name = "futex" then some .futex else if name = "write" then some .write else none

theorem normalize_acyclic_relayed : ∃ program, relayed.normalize relayedSysno = .ok program ∧
    relayed.Resolved ∧ Acyclic relayed.Precedes ∧ Acyclic relayed.Activates ∧
    ∃ path, detectCycle program.anchors backAndForth = .error (.cycle path) ∧
      IsClosedWalk (Joins backAndForth) path := by
  obtain ⟨hok, -, hsear⟩ := normalize_acyclic relayedSysno relayed
  have hrun : (relayed.normalize relayedSysno).toOption.any (fun program =>
      program.anchors.contains "wake" && program.anchors.contains "store") = true := by decide +kernel
  cases hprog : relayed.normalize relayedSysno with
  | error failure =>
    rw [hprog] at hrun
    cases hrun
  | ok program =>
    rw [hprog] at hrun
    have hnames : program.anchors.contains "wake" = true ∧ program.anchors.contains "store" = true :=
      Bool.and_eq_true_iff.mp hrun
    have hends : Ends program.anchors backAndForth := by
      refine forall_mem_cons.mpr ⟨hnames, ?_⟩
      exact forall_mem_singleton.mpr hnames.symm
    obtain ⟨hres, hprec, hact⟩ := hok program hprog
    obtain ⟨hacyc, hwalk⟩ := (hsear program.anchors _).2 hends
    refine ⟨program, rfl, hres, hprec, hact, ?_⟩
    cases hcycle : detectCycle program.anchors backAndForth with
    | ok _ =>
      -- the two edges are a cycle
      refine absurd ?_ (hacyc.mp hcycle "wake")
      exact .tail (.single ⟨_, mem_cons_self, rfl, rfl⟩)
        ⟨_, mem_cons_of_mem _ mem_cons_self, rfl, rfl⟩
    | error fault =>
      obtain ⟨path, rfl, hpath⟩ := hwalk fault hcycle
      exact ⟨path, rfl, hpath⟩

end Normalize

end Hermit.HappensBefore
