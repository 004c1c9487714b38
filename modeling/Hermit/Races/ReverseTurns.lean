import Hermit.Schedule.Event

/-!
# Reversing two turns

`reverse_turns` (`hermit-cli/src/bin/hermit/analyze/race_report.rs`) runs the turn of one event of
a schedule before the turn of an earlier one. Over the span of both turns it moves the later
thread's events to the front, or, if one of them returns from a timed sleep, the earlier thread's
events to the back.

The edited schedule is given by the order in which it takes the original events (`order`): two
events are `Reversed` in it if the later one comes first.

* `reversed_iff`, `reverseTurns_spec`
-/

namespace Hermit.Races

open List

structure CrossedThread where
  thread : DetTid
  events : ℕ

structure MovedEvents where
  thread : DetTid
  events : ℕ
  direction : String
  pastEvent : ℕ
  crossed : List CrossedThread

structure Reversal where
  schedule : List SchedEvent
  unchanged : ℕ
  replay : ℕ
  edit : String
  moved : MovedEvents

def turnStart (schedule : List SchedEvent) (thread : DetTid) : ℕ → ℕ
  | 0 => 0
  | i + 1 =>
    if schedule[i]?.map (·.dettid) = some thread then turnStart schedule thread i else i + 1

def turnEnd (schedule : List SchedEvent) (thread : DetTid) (index : ℕ) : ℕ :=
  index + (schedule.drop index).findIdx (·.dettid ≠ thread)

/-- The return of `nanosleep` or `clock_nanosleep`. -/
def isTimedReturn (event : SchedEvent) : Bool :=
  event.op = .syscall ⟨35⟩ .posthook || event.op = .syscall ⟨230⟩ .posthook

def cross (thread : DetTid) : List CrossedThread → List CrossedThread
  | [] => [⟨thread, 1⟩]
  | c :: crossed =>
    if c.thread = thread then ⟨thread, c.events + 1⟩ :: crossed else c :: cross thread crossed

def countEvents (n : ℕ) : String := s!"{n} event" ++ if n = 1 then "" else "s"

def editText (moved : MovedEvents) (other : DetTid) : String :=
  let crossing := if moved.crossed.isEmpty then "crossing no other thread" else
    "crossing " ++ ", ".intercalate (moved.crossed.map fun c =>
      s!"thread {c.thread} (" ++ countEvents c.events ++ ")")
  "moving " ++ countEvents moved.events ++ s!" of thread {moved.thread} {moved.direction} " ++
    s!"thread {other}'s turn at #{moved.pastEvent}, " ++ crossing

def reverseTurns (schedule : List SchedEvent) (earlier later : ℕ) : Except String Reversal :=
  let refused := s!"the realized schedule does not hold events #{earlier} and #{later} " ++
    "in that order"
  if later ≤ earlier then .error refused
  else match schedule[earlier]?, schedule[later]? with
    | some first, some second =>
      let (x, y) := (first.dettid, second.dettid)
      if x = y then .error "the two calls are on one thread"
      else
        let start := turnStart schedule x earlier
        let stop := turnEnd schedule y later
        let events := (schedule.take stop).drop start
        let advance := !events.any fun e => e.dettid = y && isTimedReturn e
        let (mover, other, past, direction) :=
          if advance then (y, x, earlier, "before") else (x, y, later, "after")
        let moved := events.filter (·.dettid = mover)
        let rest := events.filter (·.dettid ≠ mover)
        let crossed := (rest.filter (·.dettid ≠ other)).foldl (fun c e => cross e.dettid c) []
        let report := ⟨mover, moved.length, direction, past, crossed⟩
        .ok
          { schedule := schedule.take start ++ (if advance then moved ++ rest else rest ++ moved) ++
              schedule.drop stop
            unchanged := start, replay := stop, edit := editText report other, moved := report }
    | _, _ => .error refused

/-! ## Turns -/

def threadAt (schedule : List SchedEvent) (i : ℕ) : Option DetTid := schedule[i]?.map (·.dettid)

variable {schedule : List SchedEvent} {thread : DetTid} {i j n : ℕ}

theorem turnStart_le (schedule : List SchedEvent) (thread : DetTid) (i : ℕ) :
    turnStart schedule thread i ≤ i := by
  induction i with
  | zero => exact le_rfl
  | succ =>
    unfold turnStart
    split_ifs <;> omega

theorem threadAt_turnStart (h : threadAt schedule i = some thread) :
    threadAt schedule (turnStart schedule thread i) = some thread := by
  induction i with
  | zero => exact h
  | succ i ih =>
    unfold turnStart
    split_ifs with hi
    · exact ih hi
    · exact h

theorem turnEnd_spec (h : threadAt schedule i = some thread) :
    i < turnEnd schedule thread i ∧ turnEnd schedule thread i ≤ schedule.length ∧
      threadAt schedule (turnEnd schedule thread i - 1) = some thread := by
  obtain ⟨event, hget, hthd⟩ := Option.map_eq_some_iff.mp h
  obtain ⟨hi, rfl⟩ := List.getElem?_eq_some_iff.mp hget
  have hle : (schedule.drop i).findIdx (·.dettid ≠ thread) ≤ _ := findIdx_le_length
  have hpos : 0 < (schedule.drop i).findIdx (·.dettid ≠ thread) := by
    rw [drop_eq_getElem_cons hi, findIdx_cons]
    simp [hthd]
  have hlast := not_of_lt_findIdx (Nat.sub_lt hpos one_pos)
  rw [length_drop] at hle
  unfold turnEnd threadAt
  refine ⟨by omega, by omega, ?_⟩
  rw [Nat.add_sub_assoc hpos, getElem?_eq_getElem (by omega)]
  simpa using hlast

/-! ## Orders -/

/-- The later of two indices comes first. -/
def Reversed (order : List ℕ) (i j : ℕ) : Prop := i < j ∧ [j, i] <+ order

theorem pair_sublist_append {l r : List ℕ} :
    [i, j] <+ l ++ r ↔ [i, j] <+ l ∨ (i ∈ l ∧ j ∈ r) ∨ [i, j] <+ r := by
  rw [sublist_append_iff]
  constructor
  · rintro ⟨l₁, l₂, heq, h₁, h₂⟩
    match l₁, heq with
    | [], heq =>
      obtain rfl : [i, j] = l₂ := heq
      exact .inr (.inr h₂)
    | [_], heq =>
      obtain ⟨rfl, rfl⟩ : i = _ ∧ [j] = l₂ := by simpa using heq
      exact .inr (.inl ⟨singleton_sublist.mp h₁, singleton_sublist.mp h₂⟩)
    | [_, _], heq =>
      obtain ⟨rfl, rfl, rfl⟩ : i = _ ∧ j = _ ∧ [] = l₂ := by simpa using heq
      exact .inl h₁
  · rintro (h | ⟨hi, hj⟩ | h)
    · exact ⟨[i, j], [], rfl, h, nil_sublist _⟩
    · exact ⟨[i], [j], rfl, singleton_sublist.mpr hi, singleton_sublist.mpr hj⟩
    · exact ⟨[], [i, j], rfl, nil_sublist _, h⟩

theorem lt_of_pair_sublist {l : List ℕ} (hl : l.Pairwise (· < ·)) (h : [i, j] <+ l) : i < j := by
  simpa using hl.sublist h

/-- Two parts of a span change places, each in its order: the pairs with one index in each. -/
theorem reversed_iff {front a b back : List ℕ} {start stop : ℕ} (hfr : front.Pairwise (· < ·))
    (ha : a.Pairwise (· < ·)) (hb : b.Pairwise (· < ·)) (hback : back.Pairwise (· < ·))
    (hsta : ∀ i ∈ front, i < start) (hspan : ∀ i ∈ a ++ b, start ≤ i ∧ i < stop)
    (hstop : ∀ i ∈ back, stop ≤ i) (hle : start ≤ stop) :
    Reversed (front ++ (a ++ b) ++ back) i j ↔ i < j ∧ j ∈ a ∧ i ∈ b := by
  refine and_congr_right fun hij => ?_
  have hnone : ∀ {l : List ℕ}, l.Pairwise (· < ·) → ¬ [j, i] <+ l :=
    fun hl h => absurd (lt_of_pair_sublist hl h) (by omega)
  simp only [pair_sublist_append, mem_append, hnone hfr, hnone ha, hnone hb, hnone hback,
    false_or, or_false] at hspan ⊢
  clear hnone hfr ha hb hback
  grind

/-! ## The edit -/

def indices (schedule : List SchedEvent) (start stop : ℕ) (p : SchedEvent → Bool) : List ℕ :=
  (range' start (stop - start)).filter fun i => schedule[i]?.any p

def spanOrder (schedule : List SchedEvent) (start stop : ℕ) (p : SchedEvent → Bool) : List ℕ :=
  range start ++ (indices schedule start stop p ++ indices schedule start stop (!p ·)) ++
    range' stop (schedule.length - stop)

variable {start stop : ℕ} {p : SchedEvent → Bool}

theorem mem_indices : i ∈ indices schedule start stop p ↔
    (start ≤ i ∧ i < stop) ∧ schedule[i]?.any p := by
  rw [indices, mem_filter, mem_range'_1]
  grind

theorem filterMap_range' (l : List SchedEvent) (start k : ℕ) :
    (range' start k).filterMap (l[·]?) = (l.drop start).take k := by
  induction k with
  | zero => simp
  | succ k ih =>
    rw [range'_concat, filterMap_append, ih, take_add_one, getElem?_drop, Nat.one_mul]
    cases hget : l[start + k]? <;> simp [hget]

theorem filterMap_indices (schedule : List SchedEvent) (start stop : ℕ) (p : SchedEvent → Bool) :
    (indices schedule start stop p).filterMap (schedule[·]?) =
      ((schedule.take stop).drop start).filter p := by
  rw [drop_take, ← filterMap_range', filter_filterMap, indices, filterMap_filter]
  refine filterMap_congr fun i _ => ?_
  cases schedule[i]? <;> simp [Option.filter]

theorem length_indices (schedule : List SchedEvent) (start stop : ℕ) (p : SchedEvent → Bool) :
    (indices schedule start stop p).length = ((schedule.take stop).drop start).countP p := by
  rw [drop_take, ← filterMap_range', countP_filterMap, indices, ← countP_eq_length_filter]
  refine countP_congr fun i _ => ?_
  cases schedule[i]? <;> simp

theorem filterMap_spanOrder (schedule : List SchedEvent) (start stop : ℕ)
    (p : SchedEvent → Bool) : (spanOrder schedule start stop p).filterMap (schedule[·]?) =
      let events := (schedule.take stop).drop start
      schedule.take start ++ (events.filter p ++ events.filter (!p ·)) ++ schedule.drop stop := by
  rw [spanOrder, filterMap_append, filterMap_append, filterMap_append, filterMap_indices,
    filterMap_indices, range_eq_range', filterMap_range', filterMap_range', drop_zero]
  simp

theorem spanOrder_perm (hle : start ≤ stop) (hstop : stop ≤ schedule.length) :
    spanOrder schedule start stop p ~ range schedule.length := by
  have hspl : range schedule.length = range start ++ range' start (stop - start) ++
      range' stop (schedule.length - stop) := by
    have hspan := range'_append_1 (s := 0) (m := start) (n := stop - start)
    have hall := range'_append_1 (s := 0) (m := stop) (n := schedule.length - stop)
    rw [Nat.zero_add, Nat.add_sub_cancel' hle] at hspan
    rw [Nat.zero_add, Nat.add_sub_cancel' hstop] at hall
    rw [range_eq_range', range_eq_range', hspan, hall]
  have hneg : indices schedule start stop (!p ·) =
      (range' start (stop - start)).filter fun i => !schedule[i]?.any p := by
    refine filter_congr fun i hi => ?_
    have hi := mem_range'_1.mp hi
    rw [getElem?_eq_getElem (by omega)]
    rfl
  rw [hspl, spanOrder, hneg]
  exact ((filter_append_perm _ _).append_left _).append_right _

theorem reversed_spanOrder (hle : start ≤ stop) : Reversed (spanOrder schedule start stop p) i j ↔
    i < j ∧ j ∈ indices schedule start stop p ∧ i ∈ indices schedule start stop (!p ·) := by
  have hsort : ∀ q, (indices schedule start stop q).Pairwise (· < ·) :=
    fun q => Pairwise.filter _ pairwise_lt_range'
  refine reversed_iff pairwise_lt_range (hsort _) (hsort _) pairwise_lt_range'
    (fun i => mem_range.mp) (fun i hi => ?_) (fun i hi => (mem_range'_1.mp hi).1) hle
  obtain hi | hi := mem_append.mp hi
  · exact (mem_indices.mp hi).1
  · exact (mem_indices.mp hi).1

/-- An index passes another, in either direction. -/
def Crossed (order : List ℕ) (i : ℕ) : Prop := ∃ j, Reversed order i j ∨ Reversed order j i

/-- Where the span starts with an event of the one part and ends with one of the other, every
    event of the span passes another, and no other event does. -/
theorem crossed_spanOrder (hlt : start < stop) (hstop : stop ≤ schedule.length)
    (hfirst : schedule[start]?.any (!p ·)) (hlast : schedule[stop - 1]?.any p) :
    Crossed (spanOrder schedule start stop p) i ↔ start ≤ i ∧ i < stop := by
  simp only [Crossed, reversed_spanOrder hlt.le, mem_indices]
  constructor
  · rintro ⟨j, h | h⟩
    · exact h.2.2.1
    · exact h.2.1.1
  · intro hi
    by_cases hp : schedule[i]?.any p
    · have hne : start ≠ i := by
        rintro rfl
        rw [getElem?_eq_getElem (by omega)] at hp hfirst
        simp_all
      exact ⟨start, .inr ⟨by omega, ⟨hi, hp⟩, ⟨le_rfl, hlt⟩, hfirst⟩⟩
    · have hnot : schedule[i]?.any (!p ·) := by
        rw [getElem?_eq_getElem (by omega)] at hp ⊢
        simpa using hp
      have hne : i ≠ stop - 1 := by
        rintro rfl
        exact hp hlast
      exact ⟨stop - 1, .inl ⟨by omega, ⟨by omega, hlast⟩, hi, hnot⟩⟩

structure Tallied (events : List DetTid) (crossed : List CrossedThread) : Prop where
  nodup : (crossed.map (·.thread)).Nodup
  threads : ∀ t, t ∈ crossed.map (·.thread) ↔ t ∈ events
  events : ∀ c ∈ crossed, c.events = events.count c.thread

theorem mem_threads_cross (thread t : DetTid) (crossed : List CrossedThread) :
    t ∈ (cross thread crossed).map (·.thread) ↔ t = thread ∨ t ∈ crossed.map (·.thread) := by
  induction crossed with
  | nil => simp [cross]
  | cons =>
    unfold cross
    split_ifs <;> grind

theorem nodup_cross {crossed : List CrossedThread} (h : (crossed.map (·.thread)).Nodup) :
    ((cross thread crossed).map (·.thread)).Nodup := by
  induction crossed with
  | nil => simp [cross]
  | cons c crossed ih =>
    have hmem := mem_threads_cross thread c.thread crossed
    unfold cross
    split_ifs <;> grind

theorem events_cross {crossed : List CrossedThread} (count : DetTid → ℕ)
    (hnodup : (crossed.map (·.thread)).Nodup) (h : ∀ c ∈ crossed, c.events = count c.thread)
    (hnew : thread ∉ crossed.map (·.thread) → count thread = 0) :
    ∀ c ∈ cross thread crossed, c.events = count c.thread + if c.thread = thread then 1 else 0 := by
  induction crossed with
  | nil => simp [cross, hnew]
  | cons =>
    unfold cross
    split_ifs <;> grind

theorem tallied_foldl (events : List DetTid) :
    Tallied events (events.foldl (fun c t => cross t c) []) := by
  induction events using reverseRecOn with
  | nil => exact ⟨nodup_nil, by simp, by simp⟩
  | append_singleton events thread ih =>
    rw [foldl_concat]
    refine ⟨nodup_cross ih.nodup, fun t => ?_, fun c hc => ?_⟩
    · rw [mem_threads_cross, ih.threads]
      simp [or_comm]
    · have hnew := fun hmem => count_eq_zero.mpr (mt (ih.threads thread).mpr hmem)
      rw [events_cross (events.count ·) ih.nodup ih.events hnew c hc, count_append, count_singleton]
      grind

/-- Exactly `k` indices have the property. -/
def Counted (P : ℕ → Prop) (k : ℕ) : Prop :=
  ∃ l : List ℕ, l.Nodup ∧ (∀ i, i ∈ l ↔ P i) ∧ l.length = k

structure Reverses (schedule : List SchedEvent) (earlier later : ℕ) (r : Reversal)
    (order : List ℕ) : Prop where
  perm : r.schedule ~ schedule
  order_perm : order ~ range schedule.length
  events : r.schedule = order.filterMap (schedule[·]?)
  own : ∀ t, r.schedule.filter (·.dettid = t) = schedule.filter (·.dettid = t)
  front : order.take r.unchanged = range r.unchanged
  back : order.drop r.replay = range' r.replay (schedule.length - r.replay)
  accesses : Reversed order earlier later
  -- Of two events that change places, exactly one is the mover's.
  mover : ∀ i j, Reversed order i j → (threadAt schedule i = some r.moved.thread ↔
    threadAt schedule j ≠ some r.moved.thread)
  moved : Counted (fun i => threadAt schedule i = some r.moved.thread ∧ Crossed order i)
    r.moved.events
  once : (r.moved.crossed.map (·.thread)).Nodup
  threads : ∀ t, t ∈ r.moved.crossed.map (·.thread) ↔ some t ≠ threadAt schedule earlier ∧
    some t ≠ threadAt schedule later ∧ ∃ i, threadAt schedule i = some t ∧ Crossed order i
  crossed : ∀ c ∈ r.moved.crossed,
    Counted (fun i => threadAt schedule i = some c.thread ∧ Crossed order i) c.events

variable {earlier later : ℕ} {x y mover other : DetTid} {q : DetTid → Bool}

theorem any_getElem? : schedule[i]?.any (q ·.dettid) ↔ ∃ t, threadAt schedule i = some t ∧ q t := by
  unfold threadAt
  cases schedule[i]? <;> simp

theorem filter_parts (events : List SchedEvent) (q : DetTid → Bool) (t : DetTid) :
    (events.filter (q ·.dettid) ++ events.filter (!q ·.dettid)).filter (·.dettid = t) =
      events.filter (·.dettid = t) := by
  have hpart : ∀ b : Bool, (events.filter fun e => q e.dettid == b).filter (·.dettid = t) =
      if q t = b then events.filter (·.dettid = t) else [] := by
    intro b
    rw [filter_filter]
    split_ifs with hb
    · exact filter_congr fun e _ => by grind
    · exact filter_eq_nil_iff.mpr fun e _ => by grind
  have htrue := hpart true
  have hfalse := hpart false
  simp only [beq_true, beq_false] at htrue hfalse
  rw [filter_append, htrue, hfalse]
  cases q t <;> simp

theorem mem_span : (∃ i, threadAt schedule i = some thread ∧ start ≤ i ∧ i < stop) ↔
    ∃ e ∈ (schedule.take stop).drop start, e.dettid = thread := by
  simp only [drop_take, ← filterMap_range', mem_filterMap, mem_range'_1, threadAt,
    Option.map_eq_some_iff]
  constructor
  · rintro ⟨i, ⟨e, he, hthd⟩, hi⟩
    exact ⟨e, ⟨i, by omega, he⟩, hthd⟩
  · rintro ⟨e, ⟨i, hi, he⟩, hthd⟩
    exact ⟨i, ⟨e, he, hthd⟩, by omega⟩

theorem counted_span (schedule : List SchedEvent) (start stop : ℕ) (thread : DetTid) :
    Counted (fun i => threadAt schedule i = some thread ∧ start ≤ i ∧ i < stop)
      (((schedule.take stop).drop start).countP (·.dettid = thread)) := by
  refine ⟨indices schedule start stop (·.dettid = thread),
    (nodup_range' ..).filter _, fun i => ?_, length_indices ..⟩
  rw [mem_indices, any_getElem? (q := (· = thread)), and_comm]
  simp

theorem tallied_crossed (events : List SchedEvent) (mover other : DetTid) :
    Tallied ((events.map (·.dettid)).filter fun t => t ≠ mover ∧ t ≠ other)
      (((events.filter (·.dettid ≠ mover)).filter (·.dettid ≠ other)).foldl
        (fun c e => cross e.dettid c) []) := by
  have heven : ((events.filter (·.dettid ≠ mover)).filter (·.dettid ≠ other)).map (·.dettid) =
      (events.map (·.dettid)).filter fun t => t ≠ mover ∧ t ≠ other := by
    rw [filter_filter, filter_map]
    refine congrArg (map _) (filter_congr fun e _ => ?_)
    grind
  rw [← foldl_map (f := SchedEvent.dettid) (g := fun c t => cross t c), heven]
  exact tallied_foldl _

/-- A span from an event of `x`, at or before the earlier event, to one of `y`, at or after the
    later event. -/
structure Span (schedule : List SchedEvent) (earlier later start stop : ℕ) (x y : DetTid) :
    Prop where
  start_le : start ≤ earlier
  lt : earlier < later
  lt_stop : later < stop
  stop_le : stop ≤ schedule.length
  earlier : threadAt schedule earlier = some x
  later : threadAt schedule later = some y
  first : threadAt schedule start = some x
  last : threadAt schedule (stop - 1) = some y

theorem span_of_turns (hlt : earlier < later) (hx : threadAt schedule earlier = some x)
    (hy : threadAt schedule later = some y) : Span schedule earlier later
      (turnStart schedule x earlier) (turnEnd schedule y later) x y := by
  obtain ⟨hlat, hstop, hlast⟩ := turnEnd_spec hy
  exact ⟨turnStart_le .., hlt, hlat, hstop, hx, hy, threadAt_turnStart hx, hlast⟩

theorem take_span (hle : start ≤ stop) : schedule.take start ++ (schedule.take stop).drop start ++
    schedule.drop stop = schedule := by
  have htake := take_append_drop start (schedule.take stop)
  rw [take_take, min_eq_left hle] at htake
  rw [htake, take_append_drop]

theorem reverses_spanOrder {r : Reversal} (h : Span schedule earlier later start stop x y)
    (hqx : q x = false) (hqy : q y) (hends : ∀ t, t ≠ mover ∧ t ≠ other ↔ t ≠ x ∧ t ≠ y)
    (hq : (∀ t, q t ↔ t = mover) ∨ ∀ t, q t ↔ t ≠ mover)
    (hr : r.schedule = (spanOrder schedule start stop (q ·.dettid)).filterMap (schedule[·]?))
    (hunch : r.unchanged = start) (hreplay : r.replay = stop)
    (hthd : r.moved.thread = mover)
    (hmoved : r.moved.events = ((schedule.take stop).drop start).countP (·.dettid = mover))
    (hcros : Tallied (((schedule.take stop).drop start).map (·.dettid) |>.filter fun t =>
      t ≠ mover ∧ t ≠ other) r.moved.crossed) :
    Reverses schedule earlier later r (spanOrder schedule start stop (q ·.dettid)) := by
  obtain ⟨hsta, hlt, hlat, hstop, hx, hy, hfirst, hlast⟩ := h
  have hle : start ≤ stop := by omega
  have hperm : spanOrder schedule start stop (q ·.dettid) ~ _ := spanOrder_perm hle hstop
  have hspan : ∀ i, Crossed (spanOrder schedule start stop (q ·.dettid)) i ↔ start ≤ i ∧ i < stop :=
    fun i => crossed_spanOrder (by omega) hstop
      ((any_getElem? (q := (!q ·))).mpr ⟨x, hfirst, by simp [hqx]⟩)
      (any_getElem?.mpr ⟨y, hlast, hqy⟩)
  have hnot : ∀ i, schedule[i]?.any (!q ·.dettid) ↔ ∃ t, threadAt schedule i = some t ∧ !q t :=
    fun i => any_getElem? (q := (!q ·))
  have hcnt : ∀ t, Counted (fun i => threadAt schedule i = some t ∧
      Crossed (spanOrder schedule start stop (q ·.dettid)) i)
      (((schedule.take stop).drop start).countP (·.dettid = t)) := by
    simp only [hspan]
    exact counted_span schedule start stop
  constructor
  case perm =>
    rw [hr]
    have hall : (range schedule.length).filterMap (schedule[·]?) = schedule := by
      rw [range_eq_range', filterMap_range', drop_zero, take_length]
    simpa only [hall] using hperm.filterMap (schedule[·]?)
  case order_perm => exact hperm
  case events => exact hr
  case own =>
    intro t
    simp only [hr, filterMap_spanOrder]
    rw [filter_append, filter_append, filter_parts, ← filter_append, ← filter_append, take_span hle]
  case front =>
    rw [hunch, spanOrder, append_assoc, take_append_of_le_length (by simp), take_of_length_le]
    simp
  case back =>
    have hleng := hperm.length_eq
    rw [spanOrder, length_append, length_range', length_range] at hleng
    rw [hreplay, spanOrder]
    exact drop_left' (by omega)
  case accesses =>
    rw [reversed_spanOrder hle, mem_indices, mem_indices, hnot, any_getElem?]
    exact ⟨hlt, ⟨by omega, y, hy, hqy⟩, by omega, x, hx, by simp [hqx]⟩
  case mover =>
    intro i j h
    rw [reversed_spanOrder hle, mem_indices, mem_indices, hnot, any_getElem?] at h
    obtain ⟨-, ⟨-, b, hb, hqb⟩, -, a, ha, hqa⟩ := h
    rw [hthd, ha, hb]
    grind
  case moved =>
    rw [hthd, hmoved]
    exact hcnt mover
  case once => exact hcros.nodup
  case threads =>
    intro t
    simp only [hspan, hcros.threads, mem_span, hx, hy, mem_filter, mem_map, decide_eq_true_eq,
      hends, ne_eq, Option.some.injEq]
    grind
  case crossed =>
    intro c hc
    have hmem := (hcros.threads c.thread).mp (mem_map_of_mem hc)
    rw [hcros.events c hc, count_filter (p := fun t => decide (t ≠ mover ∧ t ≠ other))
      (mem_filter.mp hmem).2, count, countP_map]
    exact hcnt c.thread

/-- Two events of different threads in order are reversed as a whole. -/
theorem reverseTurns_spec (hlt : earlier < later) (hx : threadAt schedule earlier = some x)
    (hy : threadAt schedule later = some y) (hne : x ≠ y) :
    ∃ r order, reverseTurns schedule earlier later = .ok r ∧
      Reverses schedule earlier later r order := by
  obtain ⟨first, hfirst, rfl⟩ := Option.map_eq_some_iff.mp hx
  obtain ⟨second, hseco, rfl⟩ := Option.map_eq_some_iff.mp hy
  have hspan := span_of_turns hlt hx hy
  unfold reverseTurns
  simp only [hfirst, hseco, if_neg hlt.not_ge, if_neg hne]
  generalize turnStart schedule first.dettid earlier = start at *
  generalize turnEnd schedule second.dettid later = stop at *
  split
  · refine ⟨_, _, rfl, reverses_spanOrder (q := (· = second.dettid)) hspan
      (by simpa using hne) (by simp) (fun t => and_comm) (.inl fun t => by simp) ?_ rfl rfl rfl countP_eq_length_filter.symm (tallied_crossed ..)⟩
    simp [filterMap_spanOrder]
  · refine ⟨_, _, rfl, reverses_spanOrder (q := (· ≠ first.dettid)) hspan
      (by simp) (by simpa using hne.symm) (fun t => .rfl) (.inr fun t => by simp) ?_ rfl rfl rfl countP_eq_length_filter.symm (tallied_crossed ..)⟩
    simp [filterMap_spanOrder]

/-- The last of three threads is run first: it crosses the second one. -/
def threeTurns : List SchedEvent := [3, 5, 7].map fun t => ⟨t, .rdtsc, 1, none, none, none, false⟩

theorem reverseTurns_spec_threeTurns : (threadAt threeTurns 0 = some 3 ∧
    threadAt threeTurns 2 = some 7) ∧ ∃ r order, reverseTurns threeTurns 0 2 = .ok r ∧
      Reverses threeTurns 0 2 r order :=
  ⟨⟨rfl, rfl⟩, reverseTurns_spec (x := 3) (y := 7) (by decide) rfl rfl (by decide)⟩

end Hermit.Races
