import Hermit.Common.Loop
import Hermit.Ids

/-!
# Chains of happens-before edges

`happens_before` of `hermit-cli/src/bin/hermit/analyze/races.rs` decides
whether an edge chain leads from one event to another, in one pass over the
edges of a run with one entry for each thread: the earliest event at which it
is reached and by which edge. It then follows these links back.

Entries are overwritten during the pass and followed after it. The edges are
sorted by where they leave and run forward, so the entry an edge leaves from
is final (`Pass.reached`): whatever reaches its thread later does so after
the edge has left.

Results:
* `pass_reached`: what the pass leaves.
* `happensBefore_iff_leads`
-/

namespace Hermit.Races

open Hermit.Common OrdMap List

/-! ## Model -/

structure EventRef where
  tid : DetTid
  event : ℕ
deriving DecidableEq

inductive HbEdgeKind
  | futexWake
  | futexRequeue
  | create
  | exitJoin
  | childExit
  | signal
  | channelBytes
  | datagram
  | eventfd
deriving DecidableEq

/-- The order of the kinds: that of their declaration. -/
def HbEdgeKind.rank : HbEdgeKind → ℕ
  | futexWake => 0
  | futexRequeue => 1
  | create => 2
  | exitJoin => 3
  | childExit => 4
  | signal => 5
  | channelBytes => 6
  | datagram => 7
  | eventfd => 8

structure HbEdge where
  source : EventRef
  target : EventRef
  kind : HbEdgeKind
deriving DecidableEq

def HbEdge.Forward (e : HbEdge) : Prop := e.source.event < e.target.event

def HbEdge.sortKey (e : HbEdge) : ℕ ×ₗ ℕ ×ₗ DetTid ×ₗ DetTid ×ₗ ℕ :=
  toLex (e.source.event, toLex (e.target.event, toLex (e.source.tid,
    toLex (e.target.tid, e.kind.rank))))

/-- The edges of a run as `Run::new` leaves them: those that run forward, sorted. -/
structure HbEdges where
  list : List HbEdge
  forward : ∀ e ∈ list, e.Forward
  sorted : list.Pairwise fun e f => e.sortKey ≤ f.sortKey

structure HbVerdict where
  ordered : Bool
  edges : List HbEdge
deriving DecidableEq

/-- The earliest event at which each thread is reached, and the index of the
    edge that reached it. -/
abbrev Reached := OrdMap DetTid (ℕ × Option ℕ)

/-- One iteration of the pass. -/
def relax (target : EventRef) (reached : Reached) (entry : HbEdge × ℕ) : Reached :=
  if target.event < entry.1.target.event then reached
  else
    match reached[entry.1.source.tid]? with
    | none => reached
    | some (arrival, _) =>
      if entry.1.source.event < arrival then reached
      else if reached[entry.1.target.tid]?.all fun r => entry.1.target.event < r.1 then
        reached.insert entry.1.target.tid (entry.1.target.event, some entry.2)
      else reached

/-- The edges of the pass with their indices: those that leave in the window from the one
    event to the other (`partition_point`, `skip` and `break`). -/
def window (edges : List HbEdge) (source target : EventRef) : List (HbEdge × ℕ) :=
  (edges.zipIdx.dropWhile fun e => e.1.source.event < source.event).takeWhile fun e =>
    e.1.source.event ≤ target.event

/-- The pass. -/
def reachAll (edges : List HbEdge) (source target : EventRef) : Reached :=
  (window edges source target).foldl (relax target)
    ((∅ : Reached).insert source.tid (source.event, none))

inductive IndexPanic
  | edge
  | thread
deriving DecidableEq

def followLink (edges : List HbEdge) (reached : Reached) (s : Option ℕ × List HbEdge) :
    (Option ℕ × List HbEdge) ⊕ Except IndexPanic (List HbEdge) :=
  match s.1 with
  | none => .inr (.ok s.2)
  | some index =>
    match edges[index]? with
    | none => .inr (.error .edge)
    | some edge =>
      match reached[edge.source.tid]? with
      | none => .inr (.error .thread)
      | some (_, via) => .inl (via, edge :: s.2)

/-- `HbVerdict { ordered: false, edges: Vec::new() }`. -/
def unordered : HbVerdict := ⟨false, []⟩

def happensBefore (edges : List HbEdge) (source target : EventRef) (fuel : ℕ) :
    Option (Except IndexPanic HbVerdict) :=
  if target.event < source.event then some (.ok unordered)
  else
    let reached := reachAll edges source target
    match reached[target.tid]? with
    | none => some (.ok unordered)
    | some (arrival, via) =>
      if arrival ≤ target.event then
        (loop (followLink edges reached) fuel (via, [])).map fun r => r.map fun chain =>
          ⟨true, chain⟩
      else some (.ok unordered)

/-! ## Specification -/

def Leads : EventRef → List HbEdge → EventRef → Prop
  | a, [], b => a.tid = b.tid ∧ a.event ≤ b.event
  | a, e :: chain, b => a.tid = e.source.tid ∧ a.event ≤ e.source.event ∧ Leads e.target chain b

theorem Leads.le {b : EventRef} : ∀ {chain : List HbEdge} {a : EventRef},
    (∀ e ∈ chain, e.Forward) → Leads a chain b → a.event ≤ b.event := by
  intro chain
  induction chain with
  | nil => exact fun _ h => h.2
  | cons e chain ih =>
    intro a hf h
    obtain ⟨he, hf⟩ := forall_mem_cons.mp hf
    have hrest := ih hf h.2.2
    have hstep : e.source.event < e.target.event := he
    have := h.2.1
    omega

/-- Each edge of a chain leaves no earlier than the one before it arrives. -/
theorem Leads.pairwise {b : EventRef} : ∀ {chain : List HbEdge} {a : EventRef},
    (∀ e ∈ chain, e.Forward) → Leads a chain b →
      chain.Pairwise (fun e f => e.target.event ≤ f.source.event) ∧
        ∀ e ∈ chain, a.event ≤ e.source.event := by
  intro chain
  induction chain with
  | nil => exact fun _ _ => ⟨.nil, by simp⟩
  | cons e chain ih =>
    intro a hf h
    obtain ⟨he, hf⟩ := forall_mem_cons.mp hf
    obtain ⟨hpairs, haft⟩ := ih hf h.2.2
    have hstep : e.source.event < e.target.event := he
    refine ⟨pairwise_cons.mpr ⟨haft, hpairs⟩, ?_⟩
    refine forall_mem_cons.mpr ⟨h.2.1, fun f hmem => ?_⟩
    have := haft f hmem
    have := h.2.1
    omega

/-! ## The window -/

theorem mem_dropWhile_lt {α : Type*} {f : α → ℕ} {c : ℕ} {x : α} {l : List α}
    (h : l.Pairwise fun x y => f x ≤ f y) :
    x ∈ l.dropWhile (fun y => f y < c) ↔ x ∈ l ∧ c ≤ f x := by
  induction l with
  | nil => simp
  | cons y l ih =>
    obtain ⟨hy, hl⟩ := pairwise_cons.mp h
    rw [dropWhile_cons]
    by_cases hc : f y < c
    · rw [if_pos (by simpa using hc), ih hl, mem_cons]
      constructor
      · exact fun h => ⟨.inr h.1, h.2⟩
      · rintro ⟨rfl | h, hx⟩
        · omega
        · exact ⟨h, hx⟩
    · rw [if_neg (by simpa using hc)]
      refine ⟨fun hx => ⟨hx, ?_⟩, And.left⟩
      rcases mem_cons.mp hx with rfl | hx
      · omega
      · have := hy x hx
        omega

theorem mem_takeWhile_le {α : Type*} {f : α → ℕ} {c : ℕ} {x : α} {l : List α}
    (h : l.Pairwise fun x y => f x ≤ f y) :
    x ∈ l.takeWhile (fun y => f y ≤ c) ↔ x ∈ l ∧ f x ≤ c := by
  induction l with
  | nil => simp
  | cons y l ih =>
    obtain ⟨hy, hl⟩ := pairwise_cons.mp h
    rw [takeWhile_cons]
    by_cases hc : f y ≤ c
    · rw [if_pos (by simpa using hc), mem_cons, ih hl, mem_cons]
      constructor
      · rintro (rfl | h)
        · exact ⟨.inl rfl, hc⟩
        · exact ⟨.inr h.1, h.2⟩
      · rintro ⟨rfl | h, hx⟩
        · exact .inl rfl
        · exact .inr ⟨h, hx⟩
    · rw [if_neg (by simpa using hc)]
      refine ⟨fun hx => by simp at hx, fun ⟨hx, hle⟩ => ?_⟩
      rcases mem_cons.mp hx with rfl | hx
      · exact absurd hle hc
      · have := hy x hx
        omega

section Window

variable (edges : HbEdges) (a b : EventRef)

theorem HbEdges.source_le {e f : HbEdge} (h : e.sortKey ≤ f.sortKey) :
    e.source.event ≤ f.source.event := by
  rcases Prod.Lex.le_iff.mp h with h | h
  · exact h.le
  · exact h.1.le

/-- The indexed edges leave in order and their indices grow. -/
theorem HbEdges.pairwise_zipIdx : edges.list.zipIdx.Pairwise fun x y =>
    x.1.source.event ≤ y.1.source.event ∧ x.2 < y.2 := by
  rw [pairwise_iff_getElem]
  intro i j hi hj hij
  have hi' : i < edges.list.length := by simpa using hi
  have hj' : j < edges.list.length := by simpa using hj
  have := pairwise_iff_getElem.mp edges.sorted i j hi' hj' hij
  simp only [List.getElem_zipIdx]
  exact ⟨HbEdges.source_le this, by omega⟩

theorem HbEdges.index_lt {e f : HbEdge} {i j : ℕ} (hi : edges.list[i]? = some e)
    (hj : edges.list[j]? = some f) (h : f.source.event < e.source.event) : j < i := by
  obtain ⟨hi', rfl⟩ := List.getElem?_eq_some_iff.mp hi
  obtain ⟨hj', rfl⟩ := List.getElem?_eq_some_iff.mp hj
  rcases Nat.lt_trichotomy i j with hlt | rfl | hlt
  · have := HbEdges.source_le (List.pairwise_iff_getElem.mp edges.sorted i j hi' hj' hlt)
    omega
  · exact absurd h (lt_irrefl _)
  · exact hlt

theorem pairwise_window : (window edges.list a b).Pairwise fun x y =>
    x.1.source.event ≤ y.1.source.event ∧ x.2 < y.2 :=
  edges.pairwise_zipIdx.sublist ((takeWhile_sublist _).trans (dropWhile_sublist _))

theorem mem_window {x : HbEdge × ℕ} : x ∈ window edges.list a b ↔
    edges.list[x.2]? = some x.1 ∧ a.event ≤ x.1.source.event ∧ x.1.source.event ≤ b.event := by
  have hsort := edges.pairwise_zipIdx.imp fun h => h.1
  rw [window, mem_takeWhile_le (hsort.sublist (dropWhile_sublist _)),
    mem_dropWhile_lt hsort, mem_zipIdx_iff_getElem?, and_assoc]

end Window

/-! ## The pass -/

def By (reached : Reached) (ref : EventRef) : Prop :=
  ∃ arrival via, reached[ref.tid]? = some (arrival, via) ∧ arrival ≤ ref.event

structure Pass (a b : EventRef) (reached : Reached) (seen : List (HbEdge × ℕ)) : Prop where
  start : reached[a.tid]? = some (a.event, none)
  linked : ∀ (tid : DetTid) (arrival : ℕ) (via : Option ℕ), reached[tid]? = some (arrival, via) →
    (via = none ∧ tid = a.tid ∧ arrival = a.event) ∨
      ∃ x ∈ seen, via = some x.2 ∧ x.1.target = ⟨tid, arrival⟩ ∧ arrival ≤ b.event ∧
        By reached x.1.source
  closed : ∀ x ∈ seen, x.1.target.event ≤ b.event → By reached x.1.source → By reached x.1.target

/-- An iteration changes nothing, when its edge cannot or need not be taken, or
    enters an earlier arrival. -/
theorem relax_cases (b : EventRef) (reached : Reached) (x : HbEdge × ℕ) :
    (relax b reached x = reached ∧ (x.1.target.event ≤ b.event → By reached x.1.source →
        By reached x.1.target)) ∨
      (relax b reached x = reached.insert x.1.target.tid (x.1.target.event, some x.2) ∧
        x.1.target.event ≤ b.event ∧ By reached x.1.source ∧
        ∀ arrival via, reached[x.1.target.tid]? = some (arrival, via) →
          x.1.target.event < arrival) := by
  rw [relax]
  split
  · exact .inl ⟨rfl, fun hle => by omega⟩
  · cases hsrc : reached[x.1.source.tid]? with
    | none =>
      refine .inl ⟨rfl, ?_⟩
      rintro - ⟨arrival, via, h, -⟩
      rw [hsrc] at h
      cases h
    | some entry =>
      dsimp only
      split
      · rename_i hlate
        refine .inl ⟨rfl, ?_⟩
        rintro - ⟨arrival, via, h, hby⟩
        rw [hsrc] at h
        cases h
        exact absurd hby (not_le.mpr hlate)
      · rename_i hearly
        have hby : By reached x.1.source := ⟨entry.1, entry.2, hsrc, not_lt.mp hearly⟩
        cases htgt : reached[x.1.target.tid]? with
        | none => exact .inr ⟨rfl, by omega, hby, fun _ _ h => by cases h⟩
        | some old =>
          rw [Option.all_some]
          split
          · rename_i hbett
            refine .inr ⟨rfl, by omega, hby, fun arrival via h => ?_⟩
            cases h
            simpa using hbett
          · rename_i hworse
            refine .inl ⟨rfl, fun _ _ => ⟨old.1, old.2, htgt, ?_⟩⟩
            simpa using hworse

theorem By.insert {reached : Reached} {target ref : EventRef} {via : Option ℕ} (h : By reached ref)
    (hbett : ∀ arrival via, reached[target.tid]? = some (arrival, via) →
      target.event < arrival) : By (reached.insert target.tid (target.event, via)) ref := by
  obtain ⟨arrival, via', hent, hle⟩ := h
  by_cases htid : target.tid = ref.tid
  · have := hbett arrival via' (by rwa [htid])
    exact ⟨target.event, via, by rw [← htid, getElem?_insert_same], by omega⟩
  · exact ⟨arrival, via', by rw [getElem?_insert_ne _ htid, hent], hle⟩

theorem by_insert {reached : Reached} {target ref : EventRef} {via : Option ℕ}
    (h : By (reached.insert target.tid (target.event, via)) ref) :
    By reached ref ∨ target.event ≤ ref.event := by
  obtain ⟨arrival, via', hent, hle⟩ := h
  rw [getElem?_insert_ite] at hent
  split at hent
  · cases hent
    exact .inr hle
  · exact .inl ⟨arrival, via', hent, hle⟩

theorem Pass.relax {a b : EventRef} {reached : Reached} {seen : List (HbEdge × ℕ)}
    {x : HbEdge × ℕ} (h : Pass a b reached seen) (hfwd : x.1.Forward)
    (hsta : a.event ≤ x.1.source.event) (hseen : ∀ y ∈ seen, y.1.source.event ≤ x.1.source.event) :
    Pass a b (relax b reached x) (seen ++ [x]) := by
  have hfwd : x.1.source.event < x.1.target.event := hfwd
  rcases relax_cases b reached x with ⟨heq, hcls⟩ | ⟨heq, hle, hsrc, hbett⟩
  · rw [heq]
    refine ⟨h.start, fun tid arrival via hent => ?_, fun y hy => ?_⟩
    · rcases h.linked tid arrival via hent with h | ⟨y, hy, h⟩
      · exact .inl h
      · exact .inr ⟨y, mem_append_left _ hy, h⟩
    · rcases mem_append.mp hy with hy | hy
      · exact h.closed y hy
      · rw [mem_singleton.mp hy]
        exact hcls
  · rw [heq]
    refine ⟨?_, fun tid arrival via hent => ?_, fun y hy hyb hby => ?_⟩
    · -- Whatever is reached now is reached after the first event.
      have htid : x.1.target.tid ≠ a.tid := by
        intro htid
        have := hbett a.event none (by rw [htid, h.start])
        omega
      rw [getElem?_insert_ne _ htid, h.start]
    · rw [getElem?_insert_ite] at hent
      split at hent
      · rename_i htid
        cases hent
        exact .inr ⟨x, by simp, rfl, by rw [← htid], hle, hsrc.insert hbett⟩
      · rcases h.linked tid arrival via hent with h | ⟨y, hy, hvia, htgt, hyb, hby⟩
        · exact .inl h
        · exact .inr ⟨y, mem_append_left _ hy, hvia, htgt, hyb, hby.insert hbett⟩
    · rcases mem_append.mp hy with hy | hy
      · -- An edge seen before left before this one arrives.
        rcases by_insert hby with hby | hlate
        · exact (h.closed y hy hyb hby).insert hbett
        · have := hseen y hy
          omega
      · rw [mem_singleton.mp hy]
        exact ⟨_, _, getElem?_insert_same _ _ _, le_rfl⟩

theorem pass_reached (edges : HbEdges) (a b : EventRef) :
    Pass a b (reachAll edges.list a b) (window edges.list a b) := by
  refine foldl_history (fun reached seen => Pass a b reached seen) ?_ ?_
  · intro reached seen x rest hwind h
    have hpairs := pairwise_window edges a b
    have hx : x ∈ window edges.list a b := by rw [hwind]; simp
    obtain ⟨hget, hsta, -⟩ := (mem_window edges a b).mp hx
    refine h.relax (edges.forward x.1 (mem_of_getElem? hget)) hsta fun y hy => ?_
    rw [hwind] at hpairs
    exact ((pairwise_append.mp hpairs).2.2 y hy x (by simp)).1
  · refine ⟨getElem?_insert_same _ _ _, fun tid arrival via h => ?_, by simp⟩
    rw [getElem?_insert_ite] at h
    split at h
    · rename_i htid
      cases h
      exact .inl ⟨rfl, htid.symm, rfl⟩
    · simp at h

/-! ## The links -/

section Links

variable (edges : HbEdges) {a b : EventRef}

theorem by_of_leads {chain : List HbEdge} : ∀ {x : EventRef}, (∀ e ∈ chain, e ∈ edges.list) →
    a.event ≤ x.event → By (reachAll edges.list a b) x → Leads x chain b →
    By (reachAll edges.list a b) b := by
  induction chain with
  | nil =>
    rintro x - - ⟨arrival, via, hent, hle⟩ ⟨htid, hevt⟩
    exact ⟨arrival, via, htid ▸ hent, hle.trans hevt⟩
  | cons e chain ih =>
    rintro x hedges hx ⟨arrival, via, hent, hle⟩ ⟨htid, hevt, hrest⟩
    obtain ⟨he, hedges⟩ := forall_mem_cons.mp hedges
    have hfwd : e.source.event < e.target.event := edges.forward e he
    have hlast : e.target.event ≤ b.event := hrest.le fun f hf => edges.forward f (hedges f hf)
    obtain ⟨i, hi⟩ := mem_iff_getElem?.mp he
    have hwind : (e, i) ∈ window edges.list a b :=
      (mem_window edges a b).mpr ⟨hi, hx.trans hevt, hfwd.le.trans hlast⟩
    have hsrc : By (reachAll edges.list a b) e.source :=
      ⟨arrival, via, htid ▸ hent, hle.trans hevt⟩
    have htgt := (pass_reached edges a b).closed (e, i) hwind hlast hsrc
    exact ih hedges ((hx.trans hevt).trans hfwd.le) htgt hrest

/-- The loop stands at a reached event, from which the chain so far leads to
    the last event. -/
def Standing (edges : HbEdges) (a b : EventRef) (s : Option ℕ × List HbEdge) : Prop :=
  ∃ x : EventRef, (reachAll edges.list a b)[x.tid]? = some (x.event, s.1) ∧
    (∀ e ∈ s.2, e ∈ edges.list) ∧ Leads x s.2 b

/-- How far back the link still goes. -/
def linkRank (s : Option ℕ × List HbEdge) : ℕ := s.1.elim 0 (· + 1)

/-- Following a link never fails; it ends at the first event or goes to an
    earlier edge. -/
theorem followLink_spec {s : Option ℕ × List HbEdge} (h : Standing edges a b s) :
    (s.1 = none ∧ followLink edges.list (reachAll edges.list a b) s = .inr (.ok s.2) ∧
        Leads a s.2 b) ∨
      ∃ s', followLink edges.list (reachAll edges.list a b) s = .inl s' ∧
        Standing edges a b s' ∧ linkRank s' < linkRank s := by
  obtain ⟨x, hent, hedges, hleads⟩ := h
  have hpass := pass_reached edges a b
  obtain ⟨via, chain⟩ := s
  rcases hpass.linked x.tid x.event via hent with
    ⟨rfl, htid, hevt⟩ | ⟨⟨e, i⟩, hmem, rfl, htgt, -, arrival, via', hsrc, hle⟩
  · refine .inl ⟨rfl, rfl, ?_⟩
    have hx : x = a := by
      cases x
      cases a
      simp_all
    exact hx ▸ hleads
  · obtain ⟨hget, -, -⟩ := (mem_window edges a b).mp hmem
    have hstep : followLink edges.list (reachAll edges.list a b) (some i, chain) =
        .inl (via', e :: chain) := by
      simp only [followLink]
      rw [hget]
      dsimp only
      rw [hsrc]
    have hx : e.target = x := htgt
    refine .inr ⟨(via', e :: chain), hstep, ⟨⟨e.source.tid, arrival⟩, hsrc, ?_, ?_⟩, ?_⟩
    · exact forall_mem_cons.mpr ⟨mem_of_getElem? hget, hedges⟩
    · exact ⟨rfl, hle, hx ▸ hleads⟩
    · -- The edge that reached the source arrived there before this edge left.
      rcases hpass.linked e.source.tid arrival via' hsrc with
        ⟨rfl, -, -⟩ | ⟨⟨f, j⟩, hmem', rfl, htgt', -, -⟩
      · simp [linkRank]
      · obtain ⟨hget', -, -⟩ := (mem_window edges a b).mp hmem'
        have hfwd : f.source.event < f.target.event :=
          edges.forward f (mem_of_getElem? hget')
        have harri : f.target.event = arrival := by rw [htgt']
        have hji : j < i := edges.index_lt hget hget' ((hfwd.trans_eq harri).trans_le hle)
        simpa [linkRank] using hji

theorem followLinks_returns {s : Option ℕ × List HbEdge} (h : Standing edges a b s) {fuel : ℕ}
    (hfuel : linkRank s < fuel) :
    ∃ chain, loop (followLink edges.list (reachAll edges.list a b)) fuel s = some (.ok chain) ∧
      (∀ e ∈ chain, e ∈ edges.list) ∧ Leads a chain b := by
  have hstep : ∀ s s', Standing edges a b s →
      followLink edges.list (reachAll edges.list a b) s = .inl s' →
      Standing edges a b s' ∧ linkRank s' < linkRank s := by
    intro s s' hs hstep
    rcases followLink_spec edges hs with ⟨-, heq, -⟩ | ⟨t, heq, ht, hlt⟩
    · rw [heq] at hstep
      cases hstep
    · rw [heq] at hstep
      cases hstep
      exact ⟨ht, hlt⟩
  obtain ⟨r, hr⟩ := loop_returns (Standing edges a b) linkRank hstep fuel h hfuel
  obtain ⟨t, ht, hend⟩ := loop_invariant (Standing edges a b)
    (fun s s' hs h => (hstep s s' hs h).1) fuel h hr
  rcases followLink_spec edges ht with ⟨-, heq, hleads⟩ | ⟨t', heq, -⟩
  · rw [heq] at hend
    cases hend
    obtain ⟨-, -, hedges, -⟩ := ht
    exact ⟨t.2, hr, hedges, hleads⟩
  · rw [heq] at hend
    cases hend

end Links

/-! ## The verdict -/

/-- For the edges of a run and any two events, `happensBefore` returns; the
    verdict is ordered exactly if some chain of the edges leads from the first
    event to the second, and then the chain it gives is one, in event order. -/
theorem happensBefore_iff_leads (edges : HbEdges) (a b : EventRef) :
    ∃ verdict, (∀ fuel, edges.list.length < fuel →
        happensBefore edges.list a b fuel = some (.ok verdict)) ∧
      (verdict.ordered = true ↔ ∃ chain, (∀ e ∈ chain, e ∈ edges.list) ∧ Leads a chain b) ∧
      (verdict.ordered = true → (∀ e ∈ verdict.edges, e ∈ edges.list) ∧ Leads a verdict.edges b ∧
        verdict.edges.Pairwise fun e f => e.target.event ≤ f.source.event) := by
  have hfwd : ∀ {chain : List HbEdge}, (∀ e ∈ chain, e ∈ edges.list) →
      ∀ e ∈ chain, e.Forward := fun h e he => edges.forward e (h e he)
  by_cases hback : b.event < a.event
  · refine ⟨unordered, fun fuel _ => if_pos hback, ⟨fun h => (by cases h), ?_⟩, fun h => by cases h⟩
    rintro ⟨chain, hchain, hleads⟩
    exact absurd (hleads.le (hfwd hchain)) (not_le.mpr hback)
  · have hpass := pass_reached edges a b
    have hsta : By (reachAll edges.list a b) a := ⟨a.event, none, hpass.start, le_rfl⟩
    cases hent : (reachAll edges.list a b)[b.tid]? with
    | none =>
      refine ⟨unordered, fun fuel _ => ?_, ⟨fun h => (by cases h), ?_⟩, fun h => by cases h⟩
      · rw [happensBefore, if_neg hback]
        dsimp only
        rw [hent]
      · rintro ⟨chain, hchain, hleads⟩
        obtain ⟨arrival, via, h, -⟩ := by_of_leads edges hchain le_rfl hsta hleads
        rw [hent] at h
        cases h
    | some entry =>
      obtain ⟨arrival, via⟩ := entry
      have harri : arrival ≤ b.event := by
        rcases hpass.linked b.tid arrival via hent with ⟨-, -, rfl⟩ | ⟨x, -, -, -, hle, -⟩
        · exact not_lt.mp hback
        · exact hle
      have hstan : Standing edges a b (via, []) :=
        ⟨⟨b.tid, arrival⟩, hent, by simp, rfl, harri⟩
      have hrank : linkRank (via, ([] : List HbEdge)) ≤ edges.list.length := by
        rcases hpass.linked b.tid arrival via hent with ⟨rfl, -, -⟩ | ⟨x, hx, rfl, -⟩
        · simp [linkRank]
        · obtain ⟨hi, -⟩ := List.getElem?_eq_some_iff.mp ((mem_window edges a b).mp hx).1
          simpa [linkRank] using hi
      obtain ⟨chain, hloop, hchain, hleads⟩ :=
        followLinks_returns edges hstan (Nat.lt_succ_of_le hrank)
      refine ⟨⟨true, chain⟩, fun fuel hfuel => ?_, ⟨fun _ => ⟨chain, hchain, hleads⟩, fun _ => rfl⟩,
        fun _ => ⟨hchain, hleads, (hleads.pairwise (hfwd hchain)).1⟩⟩
      rw [happensBefore, if_neg hback]
      dsimp only
      rw [hent]
      dsimp only
      rw [if_pos harri, loop_mono hloop hfuel]
      rfl

end Hermit.Races
