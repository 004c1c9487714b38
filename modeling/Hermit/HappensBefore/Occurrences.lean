import Hermit.Common.History
import Hermit.HappensBefore.Normalize

/-!
# Counting syscall occurrences

`count_syscall_occurrences` of `detcore-model/src/happens_before.rs` keeps, for each
thread, one counter for each occurrence key and the origin of each relative anchor whose
base was reached, and returns the anchors that an entry fires. The subtraction of an
origin is checked here (`CountPanic`).

`Fires` says, over the whole history of a thread, at which entry an anchor fires: an
absolute anchor at its `nth` matching entry, a relative one at the `nth` matching entry
after the one that reached its base. `count_syscall_occurrences_exact`: along every
history these are the anchors that are returned, each at most once, and no origin is
larger than the counter it is subtracted from.
-/

namespace Hermit.HappensBefore

open Common OrdMap List

/-! ## The code -/

/-- A syscall entry: its number and its first two arguments. -/
structure Entry where
  sysno : Sysno
  args : ℕ × ℕ
deriving DecidableEq

/-- `arg as u32 as i32`: the low 32 bits of a register, as an `int`. -/
def asI32 (arg : ℕ) : ℤ := (BitVec.ofNat 32 arg).toInt

structure OccurrenceKey where
  sysno : ℕ
  fd : Option ℤ
  futexOp : Option ℤ
deriving DecidableEq

/-- The tuple, with `None` below `Some`. -/
def OccurrenceKey.fields (key : OccurrenceKey) : ℕ ×ₗ WithBot ℤ ×ₗ WithBot ℤ :=
  toLex (key.sysno, toLex (key.fd, key.futexOp))

theorem OccurrenceKey.fields_injective : Function.Injective OccurrenceKey.fields := by
  rintro ⟨sysno, fd, futexOp⟩ ⟨sysno', fd', futexOp'⟩ h
  cases h
  rfl

instance : LinearOrder OccurrenceKey :=
  LinearOrder.lift' OccurrenceKey.fields OccurrenceKey.fields_injective

def Anchor.occurrenceKey (anchor : Anchor) : Option OccurrenceKey :=
  match anchor.position with
  | .syscall sysno _ _ fd futexOp =>
    if anchor.isSyscallOccurrence then some ⟨sysno.number, fd, futexOp⟩ else none
  | _ => none

def Anchor.syscallOccurrenceMatches (anchor : Anchor) (entry : Entry) : Bool :=
  match anchor.position with
  | .syscall want _ _ fd futexOp =>
    anchor.isSyscallOccurrence && want = entry.sysno &&
      (fd.all fun fd => asI32 entry.args.1 = fd) &&
      (futexOp.all fun op => asI32 entry.args.2 = op)
  | _ => false

structure HbThreadCounters where
  counts : OrdMap OccurrenceKey ℕ := ∅
  origins : OrdMap String ℕ := ∅

inductive CountPanic
  | underflow (name : String)
deriving DecidableEq

def Anchor.onThread (dettid : DetTid) (anchor : Anchor) : Bool :=
  anchor.thread.dettid.all fun d => d = dettid

namespace HappensBeforeProgram

def matchedKeys (program : HappensBeforeProgram) (entry : Entry) : List OccurrenceKey :=
  ((program.anchors.values.filter (·.syscallOccurrenceMatches entry)).filterMap
    Anchor.occurrenceKey).dedup

def bump (keys : List OccurrenceKey) (counts : OrdMap OccurrenceKey ℕ) : OrdMap OccurrenceKey ℕ :=
  keys.foldl (fun counts key => counts.insert key (counts[key]?.getD 0 + 1)) counts

def reached (counts : OrdMap OccurrenceKey ℕ) (entry : Entry) (entryCount : ℕ) (base : Anchor) :
    Bool :=
  match base.position with
  | .syscallCount n => n = entryCount
  | .syscall _ _ nth _ _ =>
    base.syscallOccurrenceMatches entry && base.occurrenceKey.any fun key => counts[key]? = some nth
  | _ => false

def recordOrigin (program : HappensBeforeProgram) (counts : OrdMap OccurrenceKey ℕ) (entry : Entry)
    (entryCount : ℕ) (origins : OrdMap String ℕ) (relative : Anchor) : OrdMap String ℕ :=
  match relative.from_.bind (program.anchors[·]?) with
  | none => origins
  | some base =>
    if origins.contains relative.name then origins
    else if reached counts entry entryCount base then
      origins.insert relative.name ((relative.occurrenceKey.bind fun key => counts[key]?).getD 0)
    else origins

def fires (counters : HbThreadCounters) (anchor : Anchor) : Except CountPanic Bool :=
  match anchor.position, anchor.occurrenceKey with
  | .syscall _ _ nth _ _, some key =>
    let count := counters.counts[key]?.getD 0
    match anchor.from_ with
    | none => .ok (count = nth)
    | some _ =>
      match counters.origins[anchor.name]? with
      | none => .ok false
      | some origin =>
        if count < origin then .error (.underflow anchor.name) else .ok (count - origin = nth)
  | _, _ => .ok false

def countSyscallOccurrences (program : HappensBeforeProgram) (counters : HbThreadCounters)
    (dettid : DetTid) (entry : Entry) (entryCount : ℕ) :
    Except CountPanic (HbThreadCounters × List String) := do
  let keys := program.matchedKeys entry
  let counts := bump keys counters.counts
  let origins := (program.anchors.values.filter (Anchor.onThread dettid)).foldl
    (program.recordOrigin counts entry entryCount) counters.origins
  let counters : HbThreadCounters := ⟨counts, origins⟩
  if keys = [] then return (counters, [])
  let fired ← ((program.anchors.values.filter (Anchor.onThread dettid)).filter
    (·.syscallOccurrenceMatches entry)).filterM (fires counters)
  return (counters, fired.map Anchor.name)

/-- What a thread keeps (`ThreadStats`, `detcore/src/tool_local.rs`). -/
structure ThreadStats where
  syscallCount : ℕ := 0
  hbOccurrences : HbThreadCounters := {}

/-- A syscall entry of thread `dettid` (`detcore/src/lib.rs`). -/
def enter (program : HappensBeforeProgram) (dettid : DetTid) (stats : ThreadStats) (entry : Entry) :
    Except CountPanic (ThreadStats × List String) := do
  let newCount := stats.syscallCount + 1
  let (counters, reached) ←
    program.countSyscallOccurrences stats.hbOccurrences dettid entry newCount
  return (⟨newCount, counters⟩, reached)

end HappensBeforeProgram

/-! ## What the counters should say -/

def Anchor.Reached (anchor : Anchor) (history : List Entry) (k : ℕ) : Prop :=
  match anchor.position with
  | .syscallCount n => k < history.length ∧ k + 1 = n
  | .syscall _ _ nth _ _ => NthAfter anchor.syscallOccurrenceMatches history 0 k nth
  | _ => False

def HappensBeforeProgram.Activated (program : HappensBeforeProgram) (history : List Entry)
    (anchor : Anchor) (k : ℕ) : Prop :=
  ∃ base baseAnchor, anchor.from_ = some base ∧ program.anchors[base]? = some baseAnchor ∧
    baseAnchor.Reached history k

/-- Where an anchor fires: an absolute one at its `nth` matching entry, a relative one at
    the `nth` matching entry after the one that reached its base. -/
def HappensBeforeProgram.Fires (program : HappensBeforeProgram) (history : List Entry)
    (anchor : Anchor) (i : ℕ) : Prop :=
  ∃ sysno phase nth fd futexOp, anchor.position = .syscall sysno phase nth fd futexOp ∧
    match anchor.from_ with
    | none => NthAfter anchor.syscallOccurrenceMatches history 0 i nth
    | some _ => ∃ k, program.Activated history anchor k ∧
        NthAfter anchor.syscallOccurrenceMatches history (k + 1) i nth

section History

variable {history rest : List Entry} {anchor : Anchor} {k k' i j : ℕ}
  {program : HappensBeforeProgram}

theorem Anchor.reached_append (hk : k < history.length) :
    anchor.Reached (history ++ rest) k ↔ anchor.Reached history k := by
  unfold Anchor.Reached
  split
  · rw [length_append]
    constructor
    · exact fun h => ⟨hk, h.2⟩
    · exact fun h => ⟨by omega, h.2⟩
  · exact nthAfter_append hk
  · exact Iff.rfl

theorem Anchor.Reached.lt_length (h : anchor.Reached history k) : k < history.length := by
  unfold Anchor.Reached at h
  split at h
  · exact h.1
  · obtain ⟨-, ⟨e, he, -⟩, -⟩ := h
    exact (List.getElem?_eq_some_iff.mp he).1
  · cases h

theorem Anchor.Reached.unique (h : anchor.Reached history k) (h' : anchor.Reached history k') :
    k = k' := by
  unfold Anchor.Reached at h h'
  split at h
  · rename_i hposi
    rw [hposi] at h'
    exact Nat.succ_injective (h.2.trans h'.2.symm)
  · rename_i hposi
    rw [hposi] at h'
    exact h.unique h'
  · cases h

theorem activated_append (hk : k < history.length) :
    program.Activated (history ++ rest) anchor k ↔ program.Activated history anchor k := by
  unfold HappensBeforeProgram.Activated
  simp only [Anchor.reached_append hk]

theorem activated_lt_length (h : program.Activated history anchor k) : k < history.length := by
  obtain ⟨_, _, _, _, hrch⟩ := h
  exact hrch.lt_length

theorem activated_unique (h : program.Activated history anchor k)
    (h' : program.Activated history anchor k') : k = k' := by
  obtain ⟨base, baseAnchor, hfrom, hbase, hrch⟩ := h
  obtain ⟨base', baseAnchor', hfrom', hbase', hrch'⟩ := h'
  rw [hfrom] at hfrom'
  cases hfrom'
  rw [hbase] at hbase'
  cases hbase'
  exact hrch.unique hrch'

/-- Whether an anchor fires at an entry depends on the entries up to it. -/
theorem fires_append (hi : i < history.length) :
    program.Fires (history ++ rest) anchor i ↔ program.Fires history anchor i := by
  refine exists_congr fun sysno => exists_congr fun phase => exists_congr fun nth =>
    exists_congr fun fd => exists_congr fun futexOp => and_congr_right fun _ => ?_
  split
  · exact nthAfter_append hi
  · refine exists_congr fun k => ?_
    rw [nthAfter_append hi]
    -- the base is reached before the entry
    refine and_congr_left fun hnth => activated_append (lt_of_lt_of_le ?_ hi)
    exact Nat.lt_succ_of_le (le_of_lt hnth.1)

theorem fires_unique (h : program.Fires history anchor i) (h' : program.Fires history anchor j) :
    i = j := by
  obtain ⟨sysno, phase, nth, fd, futexOp, hposi, h⟩ := h
  obtain ⟨sysno', phase', nth', fd', futexOp', hposi', h'⟩ := h'
  rw [hposi] at hposi'
  cases hposi'
  split at h
  · rename_i hfrom
    rw [hfrom] at h'
    exact h.unique h'
  · rename_i hfrom
    rw [hfrom] at h'
    obtain ⟨k, hk, h⟩ := h
    obtain ⟨k', hk', h'⟩ := h'
    cases activated_unique hk hk'
    exact h.unique h'

end History

/-! ## Keys and counters -/

def OccurrenceKey.counts (key : OccurrenceKey) (entry : Entry) : Bool :=
  key.sysno = entry.sysno.number && (key.fd.all fun fd => asI32 entry.args.1 = fd) &&
    (key.futexOp.all fun op => asI32 entry.args.2 = op)

variable {anchor : Anchor}

theorem matches_eq_counts {key : OccurrenceKey}
    (h : anchor.occurrenceKey = some key) : anchor.syscallOccurrenceMatches = key.counts := by
  funext entry
  unfold Anchor.occurrenceKey at h
  unfold Anchor.syscallOccurrenceMatches OccurrenceKey.counts
  split at h
  · rename_i sysno phase nth fd futexOp hposi
    split_ifs at h with hoccu
    cases h
    obtain ⟨number⟩ := sysno
    obtain ⟨⟨number'⟩, args⟩ := entry
    simp [hoccu]
  · cases h

theorem exists_key_of_matches {entry : Entry}
    (h : anchor.syscallOccurrenceMatches entry = true) : ∃ key, anchor.occurrenceKey = some key := by
  unfold Anchor.syscallOccurrenceMatches at h
  unfold Anchor.occurrenceKey
  split at h
  · rw [Bool.and_eq_true, Bool.and_eq_true, Bool.and_eq_true] at h
    exact ⟨_, by rw [if_pos h.1.1.1]⟩
  · cases h

theorem exists_position_of_matches {entry : Entry}
    (h : anchor.syscallOccurrenceMatches entry = true) :
    ∃ sysno phase nth fd futexOp, anchor.position = .syscall sysno phase nth fd futexOp := by
  unfold Anchor.syscallOccurrenceMatches at h
  split at h
  · rename_i hposi
    exact ⟨_, _, _, _, _, hposi⟩
  · cases h

namespace HappensBeforeProgram

variable {program : HappensBeforeProgram} {entry : Entry}

variable {anchor : Anchor} {dettid : DetTid} {history : List Entry} {stats : ThreadStats}

theorem mem_matchedKeys {name : String} {key : OccurrenceKey}
    (hanc : program.anchors[name]? = some anchor) (hkey : anchor.occurrenceKey = some key) :
    key ∈ program.matchedKeys entry ↔ anchor.syscallOccurrenceMatches entry = true := by
  unfold matchedKeys
  rw [mem_dedup, mem_filterMap]
  constructor
  · rintro ⟨anchor', hmem, hkey'⟩
    rw [matches_eq_counts hkey, ← matches_eq_counts hkey']
    exact (mem_filter.mp hmem).2
  · intro hmch
    have hmem : anchor ∈ program.anchors.values := (mem_values _ _).mpr ⟨name, hanc⟩
    exact ⟨anchor, mem_filter.mpr ⟨hmem, hmch⟩, hkey⟩

theorem nodup_matchedKeys (program : HappensBeforeProgram) (entry : Entry) :
    (program.matchedKeys entry).Nodup := nodup_dedup _

theorem matchedKeys_ne_nil (hmem : anchor ∈ program.anchors.values)
    (hmch : anchor.syscallOccurrenceMatches entry = true) : program.matchedKeys entry ≠ [] := by
  obtain ⟨name, hanc⟩ := (mem_values _ _).mp hmem
  obtain ⟨key, hkey⟩ := exists_key_of_matches hmch
  exact ne_nil_of_mem ((mem_matchedKeys hanc hkey).mpr hmch)

theorem getElem?_bump (key : OccurrenceKey) : ∀ {keys : List OccurrenceKey}, keys.Nodup →
    ∀ counts : OrdMap OccurrenceKey ℕ, (bump keys counts)[key]? =
      if key ∈ keys then some (counts[key]?.getD 0 + 1) else counts[key]? := by
  intro keys
  induction keys with
  | nil => exact fun _ counts => rfl
  | cons first keys ih =>
    intro hnodup counts
    obtain ⟨hfirst, hnodup⟩ := nodup_cons.mp hnodup
    have hbump : bump (first :: keys) counts =
        bump keys (counts.insert first (counts[first]?.getD 0 + 1)) := rfl
    rw [hbump, ih hnodup, getElem?_insert_ite]
    by_cases hkey : first = key
    · subst hkey
      simp [hfirst]
    · simp [hkey, Ne.symm hkey]

/-! ## Origins -/

section Origins

variable {counts : OrdMap OccurrenceKey ℕ} {entryCount : ℕ}

def newOrigin (program : HappensBeforeProgram) (counts : OrdMap OccurrenceKey ℕ) (entry : Entry)
    (entryCount : ℕ) (relative : Anchor) : Option ℕ :=
  (relative.from_.bind (program.anchors[·]?)).bind fun base =>
    if reached counts entry entryCount base then
      some ((relative.occurrenceKey.bind fun key => counts[key]?).getD 0)
    else none

theorem getElem?_recordOrigin (origins : OrdMap String ℕ) (relative : Anchor) (name : String) :
    (program.recordOrigin counts entry entryCount origins relative)[name]? =
      if relative.name = name then
        origins[name]?.or (program.newOrigin counts entry entryCount relative)
      else origins[name]? := by
  unfold recordOrigin newOrigin
  cases relative.from_.bind (program.anchors[·]?) with
  | none => simp
  | some base =>
    by_cases hcont : origins.contains relative.name = true
    · obtain ⟨origin, horig⟩ := (contains_iff _ _).mp hcont
      split_ifs with hname
      · rw [← hname, horig, Option.some_or]
      · rfl
    · have hnone := (contains_eq_false _ _).mp (Bool.not_eq_true _ ▸ hcont)
      simp only [hcont, Bool.false_eq_true, if_false, Option.bind_some]
      by_cases hrch : reached counts entry entryCount base = true
      · simp only [hrch, if_true, getElem?_insert_ite]
        split_ifs with hname
        · rw [← hname, hnone, Option.none_or]
        · rfl
      · simp [hrch]

theorem getElem?_foldl_recordOrigin : ∀ {relatives : List Anchor},
    (relatives.map Anchor.name).Nodup → ∀ origins : OrdMap String ℕ,
    (∀ name ∉ relatives.map Anchor.name,
      (relatives.foldl (program.recordOrigin counts entry entryCount) origins)[name]? =
        origins[name]?) ∧
    ∀ anchor ∈ relatives,
      (relatives.foldl (program.recordOrigin counts entry entryCount) origins)[anchor.name]? =
        origins[anchor.name]?.or (program.newOrigin counts entry entryCount anchor) := by
  intro relatives
  induction relatives with
  | nil => exact fun _ origins => ⟨fun _ _ => rfl, fun _ h => absurd h not_mem_nil⟩
  | cons first relatives ih =>
    intro hnodup origins
    rw [map_cons, nodup_cons] at hnodup
    obtain ⟨hoth, hthis⟩ := ih hnodup.2 (program.recordOrigin counts entry entryCount origins first)
    simp only [foldl_cons]
    refine ⟨fun name hname => ?_, fun anchor hanc => ?_⟩
    · rw [map_cons, mem_cons, not_or] at hname
      rw [hoth name hname.2, getElem?_recordOrigin, if_neg (Ne.symm hname.1)]
    · rcases mem_cons.mp hanc with rfl | hanc
      · rw [hoth _ hnodup.1, getElem?_recordOrigin, if_pos rfl]
      · have hne : first.name ≠ anchor.name := by
          intro heq
          exact hnodup.1 (heq ▸ mem_map_of_mem hanc)
        rw [hthis anchor hanc, getElem?_recordOrigin, if_neg hne]

end Origins

/-! ## One entry -/

/-- What `normalize` guarantees of the anchors, as far as the counters depend on it. -/
structure Named (program : HappensBeforeProgram) : Prop where
  name : ∀ (name : String) anchor, program.anchors[name]? = some anchor → anchor.name = name
  nth_pos : ∀ (name : String) anchor sysno phase nth fd futexOp,
    program.anchors[name]? = some anchor →
    anchor.position = .syscall sysno phase nth fd futexOp → 0 < nth

structure Counted (program : HappensBeforeProgram) (dettid : DetTid) (history : List Entry)
    (stats : ThreadStats) : Prop where
  syscallCount : stats.syscallCount = history.length
  counts : ∀ (name : String) anchor key, program.anchors[name]? = some anchor →
    anchor.occurrenceKey = some key →
    stats.hbOccurrences.counts[key]?.getD 0 = history.countP anchor.syscallOccurrenceMatches
  origins : ∀ (name : String) anchor origin, program.anchors[name]? = some anchor →
    anchor.onThread dettid = true →
    (stats.hbOccurrences.origins[name]? = some origin ↔ ∃ k, program.Activated history anchor k ∧
        origin = (history.take (k + 1)).countP anchor.syscallOccurrenceMatches)

theorem Named.nodup_names (hnam : Named program) (dettid : DetTid) :
    ((program.anchors.values.filter (Anchor.onThread dettid)).map Anchor.name).Nodup := by
  have hnames : program.anchors.values.map Anchor.name = program.anchors.keys := by
    rw [← Std.ExtTreeMap.map_fst_toList_eq_keys, values, map_map]
    refine map_congr_left ?_
    rintro ⟨name, anchor⟩ hmem
    exact hnam.name name anchor ((mem_toList _ name anchor).mp hmem)
  refine List.Nodup.sublist (filter_sublist.map Anchor.name) ?_
  rw [hnames]
  exact Std.ExtTreeMap.nodup_keys

section Step

variable {dettid : DetTid} {history : List Entry} {stats : ThreadStats} {name : String}
  {anchor : Anchor} (hnam : Named program) (h : Counted program dettid history stats)
  (hanc : program.anchors[name]? = some anchor)

include h hanc

theorem Counted.bump {key : OccurrenceKey} (hkey : anchor.occurrenceKey = some key) :
    (bump (program.matchedKeys entry) stats.hbOccurrences.counts)[key]?.getD 0 =
      (history ++ [entry]).countP anchor.syscallOccurrenceMatches := by
  have hcnt := h.counts name anchor key hanc hkey
  have hmem : key ∈ program.matchedKeys entry ↔ _ := mem_matchedKeys hanc hkey
  rw [getElem?_bump key (nodup_matchedKeys program entry), countP_append, countP_singleton]
  split_ifs with hk hmch hmch
  · rw [Option.getD_some, hcnt]
  · exact absurd (hmem.mp hk) hmch
  · exact absurd (hmem.mpr hmch) hk
  · exact hcnt

theorem Counted.key_count : (anchor.occurrenceKey.bind fun key =>
    (HappensBeforeProgram.bump (program.matchedKeys entry) stats.hbOccurrences.counts)[key]?).getD 0 =
      (history ++ [entry]).countP anchor.syscallOccurrenceMatches := by
  cases hkey : anchor.occurrenceKey with
  | some key => exact h.bump hanc hkey
  | none =>
    refine (countP_eq_zero.mpr ?_).symm
    intro e _ hmch
    obtain ⟨key, hkey'⟩ := exists_key_of_matches hmch
    rw [hkey] at hkey'
    cases hkey'

theorem Counted.reached_iff :
    reached (HappensBeforeProgram.bump (program.matchedKeys entry) stats.hbOccurrences.counts) entry
      (stats.syscallCount + 1) anchor = true ↔
    anchor.Reached (history ++ [entry]) history.length := by
  unfold reached Anchor.Reached
  split
  · rw [h.syscallCount, decide_eq_true_iff, length_append, length_singleton]
    exact ⟨fun heq => ⟨Nat.lt_succ_self _, heq.symm⟩, fun heq => heq.2.symm⟩
  · rw [nthAfter_snoc (Nat.zero_le _), take_zero, countP_nil, Nat.zero_add, Bool.and_eq_true]
    refine and_congr_right fun hmch => ?_
    obtain ⟨key, hkey⟩ := exists_key_of_matches hmch
    have hmem := (mem_matchedKeys hanc hkey).mpr hmch
    rw [hkey, Option.any_some, decide_eq_true_iff, ← h.bump hanc hkey,
      getElem?_bump key (nodup_matchedKeys program entry), if_pos hmem, Option.getD_some,
      Option.some_inj]
  · exact ⟨nofun, nofun⟩

theorem Counted.newOrigin_iff (origin : ℕ) :
    program.newOrigin (HappensBeforeProgram.bump (program.matchedKeys entry) stats.hbOccurrences.counts)
      entry (stats.syscallCount + 1) anchor = some origin ↔
    program.Activated (history ++ [entry]) anchor history.length ∧
      origin = (history ++ [entry]).countP anchor.syscallOccurrenceMatches := by
  unfold newOrigin Activated
  rw [h.key_count hanc, Option.bind_eq_some_iff]
  constructor
  · rintro ⟨baseAnchor, hbind, hif⟩
    obtain ⟨base, hfrom, hbase⟩ := Option.bind_eq_some_iff.mp hbind
    split_ifs at hif with hrch
    cases hif
    exact ⟨⟨base, baseAnchor, hfrom, hbase, (h.reached_iff hbase).mp hrch⟩, rfl⟩
  · rintro ⟨⟨base, baseAnchor, hfrom, hbase, hrch⟩, rfl⟩
    refine ⟨baseAnchor, Option.bind_eq_some_iff.mpr ⟨base, hfrom, hbase⟩, ?_⟩
    rw [if_pos ((h.reached_iff hbase).mpr hrch)]

theorem Counted.origin_iff (hthd : anchor.onThread dettid = true) (origin : ℕ) :
    stats.hbOccurrences.origins[name]?.or (program.newOrigin
      (HappensBeforeProgram.bump (program.matchedKeys entry) stats.hbOccurrences.counts)
      entry (stats.syscallCount + 1) anchor) = some origin ↔
    ∃ k, program.Activated (history ++ [entry]) anchor k ∧
      origin = ((history ++ [entry]).take (k + 1)).countP anchor.syscallOccurrenceMatches := by
  have hold : ∀ origin, stats.hbOccurrences.origins[name]? = some origin ↔
      ∃ k < history.length, program.Activated (history ++ [entry]) anchor k ∧
        origin = ((history ++ [entry]).take (k + 1)).countP anchor.syscallOccurrenceMatches := by
    intro origin
    rw [h.origins name anchor origin hanc hthd]
    refine exists_congr fun k => ?_
    constructor
    · rintro ⟨hk, hcnt⟩
      have hlt := activated_lt_length hk
      refine ⟨hlt, (activated_append hlt).mpr hk, ?_⟩
      rwa [take_append_of_le_length hlt]
    · rintro ⟨hlt, hk, hcnt⟩
      refine ⟨(activated_append hlt).mp hk, ?_⟩
      rwa [take_append_of_le_length hlt] at hcnt
  have hall : (history ++ [entry]).take (history.length + 1) = history ++ [entry] :=
    take_of_length_le (by simp)
  rw [Option.or_eq_some_iff, hold, h.newOrigin_iff hanc]
  constructor
  · rintro (⟨k, -, hk, hcnt⟩ | ⟨-, hk, hcnt⟩)
    · exact ⟨k, hk, hcnt⟩
    · exact ⟨history.length, hk, by rw [hall]; exact hcnt⟩
  · rintro ⟨k, hk, hcnt⟩
    have hlt := activated_lt_length hk
    rw [length_append, length_singleton, Nat.lt_succ_iff] at hlt
    rcases Nat.lt_or_eq_of_le hlt with hlt | rfl
    · exact .inl ⟨k, hlt, hk, hcnt⟩
    · refine .inr ⟨?_, hk, by rw [hall] at hcnt; exact hcnt⟩
      -- the base was not reached before
      cases horig : stats.hbOccurrences.origins[name]? with
      | none => rfl
      | some origin' =>
        obtain ⟨k', hlt', hk', -⟩ := (hold origin').mp horig
        exact absurd (activated_unique hk' hk) (Nat.ne_of_lt hlt')

end Step

def after (program : HappensBeforeProgram) (dettid : DetTid) (stats : ThreadStats) (entry : Entry) :
    ThreadStats :=
  let counts := bump (program.matchedKeys entry) stats.hbOccurrences.counts
  ⟨stats.syscallCount + 1, counts, (program.anchors.values.filter (Anchor.onThread dettid)).foldl
    (program.recordOrigin counts entry (stats.syscallCount + 1)) stats.hbOccurrences.origins⟩

theorem Counted.after
    (hnam : Named program) (h : Counted program dettid history stats) (entry : Entry) :
    Counted program dettid (history ++ [entry]) (program.after dettid stats entry) := by
  refine ⟨?_, ?_, ?_⟩
  · rw [length_append, length_singleton, ← h.syscallCount]
    rfl
  · intro name anchor key hanc hkey
    exact h.bump hanc hkey
  · intro name anchor origin hanc hthd
    have hmem : anchor ∈ program.anchors.values.filter (Anchor.onThread dettid) :=
      mem_filter.mpr ⟨(mem_values _ _).mpr ⟨name, hanc⟩, hthd⟩
    have hori : (program.after dettid stats entry).hbOccurrences.origins[anchor.name]? = _ :=
      (getElem?_foldl_recordOrigin (hnam.nodup_names dettid) _).2 anchor hmem
    rw [hnam.name name anchor hanc] at hori
    rw [hori]
    exact h.origin_iff hanc hthd origin

theorem Counted.fires_eq {name : String} (hnam : Named program)
    (h : Counted program dettid (history ++ [entry]) stats)
    (hanc : program.anchors[name]? = some anchor) (hthd : anchor.onThread dettid = true)
    (hmch : anchor.syscallOccurrenceMatches entry = true) :
    ∃ fired, fires stats.hbOccurrences anchor = .ok fired ∧
      (fired = true ↔ program.Fires (history ++ [entry]) anchor history.length) := by
  obtain ⟨key, hkey⟩ := exists_key_of_matches hmch
  obtain ⟨sysno, phase, nth, fd, futexOp, hposi⟩ := exists_position_of_matches hmch
  have hcnt := h.counts name anchor key hanc hkey
  have hpos := hnam.nth_pos name anchor sysno phase nth fd futexOp hanc hposi
  have hfires : program.Fires (history ++ [entry]) anchor history.length ↔
      match anchor.from_ with
      | none => NthAfter anchor.syscallOccurrenceMatches (history ++ [entry]) 0 history.length nth
      | some _ => ∃ k, program.Activated (history ++ [entry]) anchor k ∧
          NthAfter anchor.syscallOccurrenceMatches (history ++ [entry]) (k + 1) history.length nth := by
    constructor
    · rintro ⟨sysno', phase', nth', fd', futexOp', hposi', hfires⟩
      rw [hposi] at hposi'
      cases hposi'
      exact hfires
    · exact fun hfires => ⟨sysno, phase, nth, fd, futexOp, hposi, hfires⟩
  rw [hfires]
  unfold fires
  rw [hposi, hkey]
  simp only [hcnt]
  split
  · refine ⟨_, rfl, ?_⟩
    rw [decide_eq_true_iff, nthAfter_snoc (Nat.zero_le _)]
    simp [hmch]
  · have horig := fun origin => h.origins name anchor origin hanc hthd
    rw [hnam.name name anchor hanc]
    split
    · rename_i hnone
      refine ⟨false, rfl, nofun, ?_⟩
      rintro ⟨k, hk, -⟩
      rw [(horig _).mpr ⟨k, hk, rfl⟩] at hnone
      cases hnone
    · rename_i origin hsome
      obtain ⟨k, hk, rfl⟩ := (horig origin).mp hsome
      have hle := countP_take_le anchor.syscallOccurrenceMatches (history ++ [entry]) (k + 1)
      rw [if_neg (Nat.not_lt.mpr hle)]
      refine ⟨_, rfl, ?_⟩
      rw [decide_eq_true_iff]
      constructor
      · intro hdiff
        have hlt : k + 1 ≤ history.length := by
          -- the entry that reaches the base is not counted
          by_contra hge
          rw [take_of_length_le (by simp; omega)] at hdiff
          omega
        exact ⟨k, hk, (nthAfter_snoc hlt).mpr ⟨hmch, by omega⟩⟩
      · rintro ⟨k', hk', hnth⟩
        cases activated_unique hk hk'
        obtain ⟨-, hsum⟩ := (nthAfter_snoc hnth.1).mp hnth
        omega

def matching (program : HappensBeforeProgram) (dettid : DetTid) (entry : Entry) : List Anchor :=
  (program.anchors.values.filter (Anchor.onThread dettid)).filter (·.syscallOccurrenceMatches entry)

theorem mem_matching : anchor ∈ program.matching dettid entry ↔
      (∃ name : String, program.anchors[name]? = some anchor) ∧ anchor.onThread dettid = true ∧
        anchor.syscallOccurrenceMatches entry = true := by
  unfold matching
  rw [mem_filter, mem_filter, mem_values, and_assoc]

/-- The early return, when no key matches, returns what the filter would. -/
theorem enter_eq {p : Anchor → Bool} (h : ∀ anchor ∈ program.matching dettid entry,
      fires (program.after dettid stats entry).hbOccurrences anchor = .ok (p anchor)) :
    program.enter dettid stats entry = .ok (program.after dettid stats entry,
      ((program.matching dettid entry).filter p).map Anchor.name) := by
  unfold enter countSyscallOccurrences
  by_cases hkeys : program.matchedKeys entry = []
  · have hnone : program.matching dettid entry = [] := by
      refine eq_nil_iff_forall_not_mem.mpr fun anchor hanc => ?_
      obtain ⟨hmem, -, hmch⟩ := mem_matching.mp hanc
      exact matchedKeys_ne_nil ((mem_values _ _).mpr hmem) hmch hkeys
    rw [hnone]
    refine bind_eq_ok.mpr ⟨((program.after dettid stats entry).hbOccurrences, []), ?_, rfl⟩
    rw [if_pos hkeys]
    rfl
  · refine bind_eq_ok.mpr ⟨((program.after dettid stats entry).hbOccurrences, _), ?_, rfl⟩
    rw [if_neg hkeys]
    exact bind_eq_ok.mpr ⟨_, filterM_eq_ok h, rfl⟩

theorem Fires.matches (h : program.Fires (history ++ [entry]) anchor history.length) :
    anchor.syscallOccurrenceMatches entry = true := by
  obtain ⟨sysno, phase, nth, fd, futexOp, -, hfires⟩ := h
  split at hfires
  · exact ((nthAfter_snoc (Nat.zero_le _)).mp hfires).1
  · obtain ⟨k, -, hnth⟩ := hfires
    exact ((nthAfter_snoc hnth.1).mp hnth).1

/-- The anchors that are returned for an entry. -/
def IsFired (program : HappensBeforeProgram) (dettid : DetTid) (history : List Entry) (i : ℕ)
    (fired : List String) : Prop :=
  fired.Nodup ∧ ∀ name, name ∈ fired ↔ ∃ anchor, program.anchors[name]? = some anchor ∧
    anchor.onThread dettid = true ∧ program.Fires history anchor i

theorem Counted.enter
    (hnam : Named program) (h : Counted program dettid history stats) (entry : Entry) :
    ∃ fired, program.enter dettid stats entry = .ok (program.after dettid stats entry, fired) ∧
      program.IsFired dettid (history ++ [entry]) history.length fired := by
  have haft := h.after hnam entry
  let p : Anchor → Bool := fun anchor =>
    (fires (program.after dettid stats entry).hbOccurrences anchor).toOption.getD false
  have hp : ∀ anchor ∈ program.matching dettid entry,
      fires (program.after dettid stats entry).hbOccurrences anchor = .ok (p anchor) ∧
        (p anchor = true ↔ program.Fires (history ++ [entry]) anchor history.length) := by
    intro anchor hmem
    obtain ⟨⟨name, hanc⟩, hthd, hmch⟩ := mem_matching.mp hmem
    obtain ⟨fired, hok, hiff⟩ := haft.fires_eq hnam hanc hthd hmch
    have hfired : p anchor = fired := by
      show (fires _ anchor).toOption.getD false = fired
      rw [hok]
      rfl
    rw [hfired]
    exact ⟨hok, hiff⟩
  refine ⟨_, enter_eq fun anchor hmem => (hp anchor hmem).1, ?_, fun name => ?_⟩
  · refine List.Nodup.sublist (List.Sublist.map Anchor.name ?_) (hnam.nodup_names dettid)
    exact filter_sublist.trans filter_sublist
  · rw [mem_map]
    constructor
    · rintro ⟨anchor, hmem, rfl⟩
      obtain ⟨hmem, hfired⟩ := mem_filter.mp hmem
      obtain ⟨⟨name, hanc⟩, hthd, -⟩ := mem_matching.mp hmem
      rw [hnam.name name anchor hanc]
      exact ⟨anchor, hanc, hthd, (hp anchor hmem).2.mp hfired⟩
    · rintro ⟨anchor, hanc, hthd, hfires⟩
      have hmem := mem_matching.mpr ⟨⟨name, hanc⟩, hthd, hfires.matches⟩
      exact ⟨anchor, mem_filter.mpr ⟨hmem, (hp anchor hmem).2.mpr hfires⟩,
        hnam.name name anchor hanc⟩

/-! ## Whole histories -/

/-- `normalize` names each anchor by its key, and counts occurrences from 1. -/
theorem named_of_normalize {sysnoFromStr : String → Option Sysno} {spec : HappensBeforeSpec}
    (h : spec.normalize sysnoFromStr = .ok program) : Named program := by
  obtain ⟨t, -, -⟩ := normalize_ok h
  refine ⟨fun name anchor hanc => ?_, fun name anchor sysno phase nth fd futexOp hanc => ?_⟩
  · obtain ⟨ev, -, hof⟩ := t.anchor name anchor hanc
    exact hof.name
  · obtain ⟨ev, -, hof⟩ := t.anchor name anchor hanc
    exact hof.nth_pos sysno phase nth fd futexOp

theorem counted_new (program : HappensBeforeProgram) (dettid : DetTid) :
    Counted program dettid [] {} := by
  refine ⟨rfl, fun name anchor key _ _ => ?_, fun name anchor origin _ _ => ?_⟩
  · show (∅ : OrdMap OccurrenceKey ℕ)[key]?.getD 0 = 0
    rw [Std.ExtTreeMap.getElem?_empty, Option.getD_none]
  · show (∅ : OrdMap String ℕ)[name]? = some origin ↔ _
    rw [Std.ExtTreeMap.getElem?_empty]
    refine ⟨nofun, ?_⟩
    rintro ⟨k, hk, -⟩
    exact absurd (activated_lt_length hk) (Nat.not_lt_zero k)

theorem isFired_append {rest : List Entry} {i : ℕ} {fired : List String}
    (hi : i < history.length) (h : program.IsFired dettid history i fired) :
    program.IsFired dettid (history ++ rest) i fired := by
  refine ⟨h.1, fun name => ?_⟩
  rw [h.2 name]
  simp only [fires_append hi]

structure Recorded (program : HappensBeforeProgram) (dettid : DetTid) (stats : ThreadStats)
    (hist : List (Entry × List String)) : Prop where
  counted : Counted program dettid (hist.map Prod.fst) stats
  fired : ∀ (i : ℕ) names, (hist.map Prod.snd)[i]? = some names →
    program.IsFired dettid (hist.map Prod.fst) i names

theorem Recorded.enter {hist : List (Entry × List String)}
    (hnam : Named program) (h : Recorded program dettid stats hist) (entry : Entry) :
    ∃ stats' fired, program.enter dettid stats entry = .ok (stats', fired) ∧
      Recorded program dettid stats' (hist ++ [(entry, fired)]) := by
  obtain ⟨fired, hok, hfired⟩ := h.counted.enter hnam entry
  refine ⟨_, fired, hok, ?_, fun i names hnames => ?_⟩
  · rw [map_append]
    exact h.counted.after hnam entry
  · rw [List.map_append] at hnames ⊢
    rcases Nat.lt_or_ge i hist.length with hi | hi
    · rw [List.getElem?_append_left (by rwa [List.length_map])] at hnames
      exact isFired_append (by rwa [List.length_map]) (h.fired i names hnames)
    · rw [List.getElem?_append_right (by rwa [List.length_map]), List.length_map] at hnames
      obtain ⟨hlt, rfl⟩ := List.getElem?_eq_some_iff.mp hnames
      have heq : i = (hist.map Prod.fst).length := by
        simp only [List.map_cons, List.map_nil, List.length_singleton] at hlt
        rw [List.length_map]
        omega
      subst heq
      simpa using hfired

/-- Along every history of syscall entries of a thread, each entry returns exactly the
    anchors of the thread that fire there, no anchor is returned twice, and no
    subtraction underflows. -/
theorem count_syscall_occurrences_exact {sysnoFromStr : String → Option Sysno}
    {spec : HappensBeforeSpec} (hnormalize : spec.normalize sysnoFromStr = .ok program)
    (dettid : DetTid) (history : List Entry) :
    ∃ stats fired, run (program.enter dettid) {} history = .ok (stats, fired) ∧
      fired.length = history.length ∧
      (∀ (i : ℕ) names, fired[i]? = some names → program.IsFired dettid history i names) ∧
      ∀ (i j : ℕ) names names' name, fired[i]? = some names → fired[j]? = some names' →
        name ∈ names → name ∈ names' → i = j := by
  have hnam := named_of_normalize hnormalize
  have hnew : Recorded program dettid {} [] :=
    ⟨counted_new program dettid, fun i names hnames => by cases hnames⟩
  obtain ⟨stats, fired, hrun, hreco⟩ := run_isOk (Recorded program dettid)
    (fun _ _ entry h => h.enter hnam entry) history hnew
  have hleng := run_length hrun
  have hfired := hreco.fired
  rw [nil_append, map_fst_zip (le_of_eq hleng.symm), map_snd_zip (le_of_eq hleng)] at hfired
  refine ⟨stats, fired, hrun, hleng, hfired, ?_⟩
  intro i j names names' name hi hj hname hname'
  obtain ⟨anchor, hanc, -, hfires⟩ := ((hfired i names hi).2 name).mp hname
  obtain ⟨anchor', hanc', -, hfires'⟩ := ((hfired j names' hj).2 name).mp hname'
  rw [hanc] at hanc'
  cases hanc'
  exact fires_unique hfires hfires'

/-- Thread 7 under `relayed`: the third entry reaches `start`, the second `futex` after it
    fires `wake`. -/
def relayedHistory : List Entry :=
  [⟨.futex, 0, 0⟩, ⟨.futex, 0, 1⟩, ⟨.futex, 0, 0⟩, ⟨.futex, 0, 1⟩, ⟨.write, 1, 0⟩, ⟨.futex, 0, 0⟩]

theorem count_syscall_occurrences_exact_relayed :
    ∃ program stats, relayed.normalize relayedSysno = .ok program ∧
      run (program.enter 7) {} relayedHistory = .ok (stats, [[], [], [], [], [], ["wake"]]) ∧
      program.IsFired 7 relayedHistory 5 ["wake"] := by
  have hrun : ((relayed.normalize relayedSysno).toOption.bind fun program =>
      (run (program.enter 7) {} relayedHistory).toOption.map Prod.snd) =
      some [[], [], [], [], [], ["wake"]] := by decide +kernel
  cases hprog : relayed.normalize relayedSysno with
  | error failure =>
    rw [hprog] at hrun
    cases hrun
  | ok program =>
    obtain ⟨stats, fired, hok, -, hfired, -⟩ :=
      count_syscall_occurrences_exact hprog 7 relayedHistory
    rw [hprog] at hrun
    have heq : fired = [[], [], [], [], [], ["wake"]] := by
      have hmap : (run (program.enter 7) {} relayedHistory).toOption.map Prod.snd =
          some [[], [], [], [], [], ["wake"]] := hrun
      rw [hok] at hmap
      exact Option.some.inj hmap
    subst heq
    exact ⟨program, stats, rfl, hok, hfired 5 ["wake"] rfl⟩

end HappensBeforeProgram

end Hermit.HappensBefore
