import Hermit.Common.Keyed

/-!
# Directory streams

`DirectoryStream` (`detcore/src/dirents.rs`): a directory is read whole in the order of the host,
sorted, and returned from that snapshot. The position is the number of entries returned, and
`kernel_target` is where the kernel's own position is left for readers that have no stream.

* `readAll_eq`
* `Targets`: the latest position of the host's order with every entry that is not yet returned.
-/

namespace Hermit.DirectoryStream

open List

abbrev Name := List (Fin 256)

structure DirEntry where
  name : Name
  ino : ℕ
  off : ℤ
  ty : Fin 256

inductive DirectoryOrder
  | nameBytes
  | procfsIds
  | processEntries (thread : Bool)

/-- `PROCESS_ORDER` and `THREAD_ORDER`: how Linux lists a process's directory. -/
structure ProcessOrders where
  process : List Name
  thread : List Name

def ProcessOrders.processEntryRank (orders : ProcessOrders) (thread : Bool) (name : Name) :
    Option ℕ :=
  (if thread then orders.thread else orders.process).findIdx? (· = name)

/-- The positive `i32` that a name in decimal digits stands for. -/
def idOf (name : Name) : Option ℕ :=
  let value := name.foldl (fun n byte => 10 * n + (byte.val - 48)) 0
  if name.head?.any (· ≠ 48) && name.all (fun byte => 48 ≤ byte && byte ≤ 57) &&
    decide (value < 2 ^ 31) then some value else none

/-- The tuple that an order compares. -/
def DirectoryOrder.tuple (orders : ProcessOrders) (order : DirectoryOrder) (name : Name) :
    ℕ × ℕ × Name :=
  match order with
  | .nameBytes => (if name = [46] then 0 else if name = [46, 46] then 1 else 2, 0, name)
  | .procfsIds =>
    if name = [46] then (0, 0, name)
    else if name = [46, 46] then (1, 0, name)
    else match idOf name with
      | some id => (2, id, name)
      | none => (3, 0, name)
  | .processEntries thread =>
    if name = [46] then (0, 0, [])
    else if name = [46, 46] then (1, 0, [])
    else match orders.processEntryRank thread name with
      | some rank => (2, rank, [])
      | none => (3, 0, name)

def DirectoryOrder.key (orders : ProcessOrders) (order : DirectoryOrder) (name : Name) :
    ℕ ×ₗ ℕ ×ₗ Name :=
  let (rank, id, bytes) := order.tuple orders name
  toLex (rank, toLex (id, bytes))

theorem findIdx?_inj {names : List Name} {a b : Name} {i : ℕ}
    (ha : names.findIdx? (· = a) = some i) (hb : names.findIdx? (· = b) = some i) : a = b := by
  obtain ⟨hi, heq, -⟩ := findIdx?_eq_some_iff_getElem.mp ha
  obtain ⟨_, heq', -⟩ := findIdx?_eq_some_iff_getElem.mp hb
  exact (of_decide_eq_true heq).symm.trans (of_decide_eq_true heq')

theorem DirectoryOrder.tuple_injective (orders : ProcessOrders) (order : DirectoryOrder) :
    Function.Injective (order.tuple orders) := by
  cases order with
  | nameBytes => exact Function.LeftInverse.injective (g := fun t => t.2.2) fun _ => rfl
  | procfsIds =>
    -- the name is in each tuple
    refine Function.LeftInverse.injective (g := fun t => t.2.2) fun name => ?_
    unfold tuple
    dsimp only
    split_ifs
    · rfl
    · rfl
    · split <;> rfl
  | processEntries thread =>
    intro a b h
    have hrank : ∀ {i}, orders.processEntryRank thread a = some i →
        orders.processEntryRank thread b = some i → a = b := findIdx?_inj
    unfold tuple at h
    grind

theorem DirectoryOrder.key_injective (orders : ProcessOrders) (order : DirectoryOrder) :
    Function.Injective (order.key orders) := fun _ _ h => order.tuple_injective orders h

/-! ## The stream -/

inductive DirentFormat
  | dirent64
  | legacy

def DirentFormat.recordLen (format : DirentFormat) (nameLen : ℕ) : ℕ :=
  (match format with
    | .dirent64 => 19 + nameLen + 1 + 7
    | .legacy => 18 + nameLen + 2 + 7) / 8 * 8

structure Stream where
  entries : Option (List DirEntry) := none
  resume : List ℤ := []
  position : ℕ := 0

/-- The host position before an entry: the start, or what follows the entry before it. -/
def hostOffset (offsets : List ℤ) : ℕ → ℤ
  | 0 => 0
  | i + 1 => offsets[i]?.getD 0

/-- The loop over the sorted entries from the last one, with the lowest host index so far. -/
def resumes (offsets : List ℤ) : List (DirEntry × ℕ) → Option ℕ × List ℤ
  | [] => (none, [offsets.getLast?.getD 0])
  | (_, i) :: rest =>
    let (earliest, resume) := resumes offsets rest
    let earliest := earliest.elim i (min · i)
    (some earliest, hostOffset offsets earliest :: resume)

namespace Stream

variable (orders : ProcessOrders)

def sorted (order : DirectoryOrder) (host : List DirEntry) : List (DirEntry × ℕ) :=
  host.zipIdx.insertionSort fun a b => order.key orders a.1.name ≤ order.key orders b.1.name

def install (order : DirectoryOrder) (host : List DirEntry) (s : Stream) : Stream :=
  let indexed := sorted orders order host
  { s with
    entries := some (indexed.map Prod.fst)
    resume := (resumes (host.map (·.off)) indexed).2 }

def seek (s : Stream) (position : ℕ) : Stream :=
  if position = 0 then ⟨none, [], 0⟩ else { s with position }

def advance (s : Stream) (count : ℕ) : Stream := { s with position := s.position + count }

def kernelTarget (s : Stream) : ℤ :=
  match s.entries with
  | none => 0
  | some entries => s.resume[min s.position entries.length]?.getD 0

end Stream

/-- The entries that fit, after `used` bytes. -/
def fitting (format : DirentFormat) (capacity : ℕ) : ℕ → List DirEntry → List DirEntry
  | _, [] => []
  | used, entry :: entries =>
    let used := used + format.recordLen entry.name.length
    if capacity < used then [] else entry :: fitting format capacity used entries

inductive Errno
  | einval

/-- The `expect` of a snapshot fails with `none`. -/
def Stream.nextBatch (s : Stream) (format : DirentFormat) (capacity : ℕ) :
    Option (Except Errno (List DirEntry)) :=
  s.entries.map fun entries =>
    let batch := fitting format capacity 0 (entries.drop s.position)
    if batch.isEmpty ∧ s.position < entries.length then .error .einval else .ok batch

/-- Read up to the empty batch of the end, with the capacity chosen before each read. -/
def readAll (format : DirentFormat) (capacity : ℕ → Stream → ℕ) :
    ℕ → ℕ → Stream → Option (Except Errno (List DirEntry))
  | 0, _, _ => none
  | fuel + 1, reads, s =>
    match s.nextBatch format (capacity reads s) with
    | none => none
    | some (.error errno) => some (.error errno)
    | some (.ok []) => some (.ok [])
    | some (.ok batch) =>
      (readAll format capacity fuel (reads + 1) (s.advance batch.length)).map (·.map (batch ++ ·))

/-! ## Reads -/

variable {format : DirentFormat} {capacity : ℕ} {entries : List DirEntry} {s : Stream}

theorem fitting_isInitial (format : DirentFormat) (capacity : ℕ) : ∀ (entries : List DirEntry) used,
    fitting format capacity used entries <+: entries := by
  intro entries
  induction entries with
  | nil => exact fun _ => prefix_rfl
  | cons entry entries ih =>
    intro used
    unfold fitting
    dsimp only
    split_ifs
    · exact nil_prefix
    · exact (prefix_cons_inj entry).mpr (ih _)

/-- The capacity holds the next entry of the stream, if it has one. -/
def FitsNext (format : DirentFormat) (s : Stream) (capacity : ℕ) : Prop :=
  ∀ entries entry, s.entries = some entries → entries[s.position]? = some entry →
    format.recordLen entry.name.length ≤ capacity

theorem nextBatch_spec (hs : s.entries = some entries) (hfits : FitsNext format s capacity) :
    ∃ batch, s.nextBatch format capacity = some (.ok batch) ∧
      entries.drop s.position = batch ++ entries.drop (s.position + batch.length) ∧
      (batch = [] → entries.length ≤ s.position) := by
  obtain ⟨rest, hrest⟩ := fitting_isInitial format capacity (entries.drop s.position) 0
  have hemp : fitting format capacity 0 (entries.drop s.position) = [] →
      entries.length ≤ s.position := by
    intro hnil
    by_contra hlt
    obtain hlt := Nat.lt_of_not_le hlt
    have hle := hfits entries _ hs (getElem?_eq_getElem hlt)
    rw [drop_eq_getElem_cons hlt, fitting, if_neg (by omega)] at hnil
    cases hnil
  refine ⟨_, ?_, ?_, hemp⟩
  · rw [Stream.nextBatch, hs, Option.map_some, if_neg]
    rintro ⟨hnil, hlt⟩
    exact absurd (hemp (isEmpty_iff.mp hnil)) (by omega)
  · generalize fitting format capacity 0 (entries.drop s.position) = batch at hrest ⊢
    rw [← drop_drop, ← hrest, drop_left]

/-- The reads return the rest of the snapshot, whatever the capacities. -/
theorem readAll_eq {capacity : ℕ → Stream → ℕ} (hfits : ∀ k s, FitsNext format s (capacity k s)) :
    ∀ {fuel reads : ℕ} {s : Stream}, s.entries = some entries → entries.length - s.position < fuel →
      readAll format capacity fuel reads s = some (.ok (entries.drop s.position)) := by
  intro fuel
  induction fuel with
  | zero => exact fun _ h => absurd h (Nat.not_lt_zero _)
  | succ fuel ih =>
    intro reads s hs hfuel
    obtain ⟨batch, hok, hdrop, hend⟩ := nextBatch_spec hs (hfits reads s)
    unfold readAll
    rw [hok, hdrop]
    cases batch with
    | nil => rw [drop_eq_nil_of_le (by simpa using hend rfl)]; rfl
    | cons entry batch =>
      have hlt : s.position < entries.length := by
        by_contra hge
        rw [drop_eq_nil_of_le (by omega)] at hdrop
        cases hdrop
      dsimp only
      rw [ih (s := s.advance (entry :: batch).length) hs]
      · rfl
      · show entries.length - (s.position + (batch.length + 1)) < fuel
        omega

/-! ## The order of the host -/

variable {orders : ProcessOrders} {order : DirectoryOrder} {host host' : List DirEntry}

/-- An entry without the offset that the host gives it. -/
def DirEntry.content (entry : DirEntry) : Name × ℕ × Fin 256 := (entry.name, entry.ino, entry.ty)

theorem sorted_perm (orders : ProcessOrders) (order : DirectoryOrder) (host : List DirEntry) :
    (Stream.sorted orders order host).map Prod.fst ~ host := by
  have hperm : Stream.sorted orders order host ~ host.zipIdx := perm_insertionSort _ _
  have hfst := hperm.map Prod.fst
  rwa [zipIdx_map_fst] at hfst

/-- The sorted directory does not depend on the order of the host. -/
theorem sorted_content (orders : ProcessOrders) (order : DirectoryOrder)
    (hsame : host.map (·.content) ~ host'.map (·.content)) (hnames : (host.map (·.name)).Nodup) :
    ((Stream.sorted orders order host).map Prod.fst).map (·.content) =
      ((Stream.sorted orders order host').map Prod.fst).map (·.content) := by
  have hperm : ∀ host : List DirEntry,
      ((Stream.sorted orders order host).map Prod.fst).map (·.content) ~ host.map (·.content) :=
    fun host => (sorted_perm orders order host).map _
  have hpair : ∀ host : List DirEntry,
      (((Stream.sorted orders order host).map Prod.fst).map (·.content)).Pairwise
        fun a b => order.key orders a.1 ≤ order.key orders b.1 := by
    intro host
    rw [pairwise_map, pairwise_map]
    exact Common.pairwise_insertionSort_key _
  refine ((hperm host).trans (hsame.trans (hperm host').symm)).eq_of_pairwise ?_ (hpair host)
    (hpair host')
  intro a b ha hb hab hba
  have hname := order.key_injective orders (le_antisymm hab hba)
  obtain ⟨x, hx, rfl⟩ := mem_map.mp ((hperm host).mem_iff.mp ha)
  obtain ⟨y, hy, rfl⟩ := mem_map.mp (hsame.mem_iff.mpr ((hperm host').mem_iff.mp hb))
  rw [inj_on_of_nodup_map hnames hx hy hname]

/-! ## The position of the kernel -/

theorem hostOffset_length (offsets : List ℤ) :
    hostOffset offsets offsets.length = offsets.getLast?.getD 0 := by
  cases offsets with
  | nil => rfl
  | cons => rw [getLast?_eq_getElem?]; rfl

theorem getElem?_resumes (offsets : List ℤ) : ∀ (indexed : List (DirEntry × ℕ)) {p : ℕ},
    p ≤ indexed.length → (resumes offsets indexed).2[p]? =
      some ((resumes offsets (indexed.drop p)).1.elim (offsets.getLast?.getD 0)
        (hostOffset offsets)) := by
  intro indexed
  induction indexed with
  | nil =>
    intro p hp
    obtain rfl : p = 0 := by simpa using hp
    rfl
  | cons entry indexed ih =>
    intro p hp
    cases p with
    | zero => rfl
    | succ p => exact ih (by simpa using hp)

/-- The lowest host index. -/
theorem resumes_fst (offsets : List ℤ) (indexed : List (DirEntry × ℕ)) :
    match (resumes offsets indexed).1 with
    | none => indexed = []
    | some i => (∃ entry, (entry, i) ∈ indexed) ∧ ∀ x ∈ indexed, i ≤ x.2 := by
  induction indexed with
  | nil => rfl
  | cons entry indexed ih =>
    obtain ⟨entry, i⟩ := entry
    unfold resumes
    dsimp only
    cases h : (resumes offsets indexed).1 with
    | none =>
      rw [h] at ih
      subst ih
      simp
    | some earliest =>
      rw [h] at ih
      obtain ⟨⟨found, hmem⟩, hle⟩ := ih
      show (∃ e, (e, min earliest i) ∈ (entry, i) :: indexed) ∧
        ∀ x ∈ (entry, i) :: indexed, min earliest i ≤ x.2
      rcases le_total earliest i with hi | hi
      · rw [min_eq_left hi]
        exact ⟨⟨found, .tail _ hmem⟩, by grind⟩
      · rw [min_eq_right hi]
        exact ⟨⟨entry, .head _⟩, by grind⟩

/-- The latest position of the host's order from which all of the entries are read. -/
def Latest (host entries : List DirEntry) (k : ℕ) : Prop :=
  (k ≤ host.length ∧ entries ⊆ host.drop k) ∧ ∀ j, j ≤ host.length ∧ entries ⊆ host.drop j → j ≤ k

theorem latest_resumes (hnames : (host.map (·.name)).Nodup) {indexed : List (DirEntry × ℕ)}
    (hsub : indexed ⊆ host.zipIdx) (offsets : List ℤ) :
    Latest host (indexed.map Prod.fst) ((resumes offsets indexed).1.getD host.length) := by
  have hget : ∀ {entry i}, (entry, i) ∈ indexed → host[i]? = some entry :=
    fun hmem => mem_zipIdx_iff_getElem?.mp (hsub hmem)
  have hspec := resumes_fst offsets indexed
  cases h : (resumes offsets indexed).1 with
  | none =>
    rw [h] at hspec
    subst hspec
    exact ⟨⟨le_rfl, nil_subset _⟩, fun j hj => hj.1⟩
  | some k =>
    rw [h] at hspec
    obtain ⟨⟨entry, hmem⟩, hle⟩ := hspec
    have hk := (List.getElem?_eq_some_iff.mp (hget hmem)).1
    rw [Option.getD_some]
    refine ⟨⟨hk.le, fun e he => ?_⟩, fun j hj => ?_⟩
    · obtain ⟨⟨e, i⟩, hx, rfl⟩ := mem_map.mp he
      have hki : k ≤ i := hle _ hx
      refine mem_iff_getElem?.mpr ⟨i - k, ?_⟩
      rw [getElem?_drop, Nat.add_sub_cancel' hki]
      exact hget hx
    · -- the entry is at one place of the host's order
      obtain ⟨i, hi⟩ := mem_iff_getElem?.mp (hj.2 (mem_map_of_mem hmem))
      rw [getElem?_drop] at hi
      have hplace := (nodup_iff_getElem?_ne_getElem? ..).mp hnames.of_map
      by_contra hlt
      have hji := (List.getElem?_eq_some_iff.mp hi).1
      exact hplace k (j + i) (by omega) hji ((hget hmem).trans hi.symm)

inductive Move
  | seek (position : ℕ)
  | advance (count : ℕ)

def Stream.move (s : Stream) : Move → Stream
  | .seek position => s.seek position
  | .advance count => s.advance count

/-- A rewind drops the snapshot; the other moves keep it. -/
theorem move_keeps (moves : List Move) {s : Stream} : (moves.foldl Stream.move s).entries = none ∨
      (moves.foldl Stream.move s).entries = s.entries ∧
        (moves.foldl Stream.move s).resume = s.resume := by
  induction moves using reverseRecOn with
  | nil => exact .inr ⟨rfl, rfl⟩
  | append_singleton moves move ih =>
    rw [foldl_concat]
    cases move with
    | seek position =>
      simp only [Stream.move, Stream.seek]
      split_ifs
      · exact .inl rfl
      · exact ih
    | advance count => exact ih

theorem kernelTarget_latest (hnames : (host.map (·.name)).Nodup)
    (hentr : s.entries = some ((Stream.sorted orders order host).map Prod.fst))
    (hresu : s.resume = (resumes (host.map (·.off)) (Stream.sorted orders order host)).2) :
    ∃ k, Latest host (((Stream.sorted orders order host).map Prod.fst).drop s.position) k ∧
      s.kernelTarget = hostOffset (host.map (·.off)) k := by
  set indexed := Stream.sorted orders order host
  have hsub : indexed.drop s.position ⊆ host.zipIdx :=
    fun x hx => (perm_insertionSort _ _).mem_iff.mp (mem_of_mem_drop hx)
  have hlate := latest_resumes hnames hsub (host.map (·.off))
  rw [map_drop] at hlate
  refine ⟨_, hlate, ?_⟩
  have hdrop : indexed.drop (min s.position indexed.length) = indexed.drop s.position := by
    rcases le_total s.position indexed.length with h | h
    · rw [min_eq_left h]
    · rw [min_eq_right h, drop_length, drop_eq_nil_of_le h]
  rw [Stream.kernelTarget, hentr]
  dsimp only
  rw [length_map, hresu, getElem?_resumes _ _ (min_le_right _ _), hdrop, Option.getD_some]
  cases (resumes (host.map (·.off)) (indexed.drop s.position)).1 with
  | none =>
    rw [Option.elim_none, Option.getD_none, ← hostOffset_length, length_map]
  | some k => rfl

/-- The directory is read whole, once and in one order, whatever the order of the host and the
    capacities; and wherever the stream is moved, the kernel is left at the latest place that has
    every entry from there on, or at the start where there is no snapshot. -/
theorem directory_stream (orders : ProcessOrders) (order : DirectoryOrder)
    (host host' : List DirEntry) (hsame : host.map (·.content) ~ host'.map (·.content))
    (hnames : (host.map (·.name)).Nodup) (format format' : DirentFormat)
    (capacity capacity' : ℕ → Stream → ℕ) (hfits : ∀ k s, FitsNext format s (capacity k s))
    (hfits' : ∀ k s, FitsNext format' s (capacity' k s)) :
    (∃ out out', out ~ host ∧ out' ~ host' ∧ out.map (·.content) = out'.map (·.content) ∧
      ∀ fuel, host.length < fuel →
        readAll format capacity fuel 0 (Stream.install orders order host {}) = some (.ok out) ∧
        readAll format' capacity' fuel 0 (Stream.install orders order host' {}) = some (.ok out')) ∧
      ∀ (s : Stream) (moves : List Move),
        let moved := moves.foldl Stream.move (s.install orders order host)
        moved.entries = none ∧ moved.kernelTarget = hostOffset (host.map (·.off)) 0 ∨
          ∃ entries k, moved.entries = some entries ∧ entries ~ host ∧
            Latest host (entries.drop moved.position) k ∧
            moved.kernelTarget = hostOffset (host.map (·.off)) k := by
  refine ⟨⟨_, _, sorted_perm orders order host, sorted_perm orders order host',
    sorted_content orders order hsame hnames, fun fuel hfuel => ⟨?_, ?_⟩⟩, fun s moves => ?_⟩
  · refine readAll_eq hfits rfl ?_
    rw [(sorted_perm orders order host).length_eq]
    omega
  · have hlen : host.length = host'.length := by simpa using hsame.length_eq
    refine readAll_eq hfits' rfl ?_
    rw [(sorted_perm orders order host').length_eq]
    omega
  · obtain hnone | ⟨hentr, hresu⟩ := move_keeps moves (s := s.install orders order host)
    · refine .inl ⟨hnone, ?_⟩
      rw [Stream.kernelTarget, hnone]
      rfl
    · obtain ⟨k, hlate, htgt⟩ := kernelTarget_latest hnames hentr hresu
      exact .inr ⟨_, k, hentr, sorted_perm orders order host, hlate, htgt⟩

/-- Two entries in two orders of a host, read one at a time. -/
def twoEntries : List DirEntry := [⟨[98], 1, 5, 8⟩, ⟨[97], 2, 9, 8⟩]

/-- A buffer for just the next entry. -/
def exactCapacity (_ : ℕ) (s : Stream) : ℕ :=
  ((s.entries.bind (·[s.position]?)).map (DirentFormat.recordLen .dirent64 ·.name.length)).getD 0

theorem directory_stream_twoEntries : ∃ out out', out ~ twoEntries ∧ out' ~ twoEntries.reverse ∧
    out.map (·.content) = out'.map (·.content) := by
  have hfits : ∀ k s, FitsNext .dirent64 s (exactCapacity k s) := by
    intro k s entries entry hs hent
    simp [exactCapacity, hs, hent]
  obtain ⟨⟨out, out', hout, hout', heq, -⟩, -⟩ := directory_stream ⟨[], []⟩ .nameBytes twoEntries
    twoEntries.reverse ((reverse_perm _).symm.map _) (by decide) .dirent64 .dirent64 exactCapacity
    exactCapacity hfits hfits
  exact ⟨out, out', hout, hout', heq⟩

end Hermit.DirectoryStream
