import Mathlib.Data.List.Induction
import Mathlib.Data.Nat.Basic

/-!
# The rows of a mount plan

Which row of a mount namespace an installation of the container's mount plan made
(`detcore-model/src/container_mounts.rs`). `assign_installed_rows` walks back from the last
row. A row at an installation's target closes that installation; a row below the target
that copies another row is a copy its recursive bind made.

* `assignInstalledRows_laid`
-/

namespace Hermit.ContainerMounts

/-- A path, as the kernel escapes it. -/
abbrev Path := List UInt8

/-- `/` -/
def slash : UInt8 := 47

/-- `ContainerMount`, with the fields that tell rows apart. -/
structure ContainerMount where
  rawMountId : ℕ
  major : ℕ
  minor : ℕ
  root : Path
  mountpoint : Path
deriving DecidableEq

structure Installation where
  ids : List ℕ
  mountpoints : List Path
  sources : List Path
deriving DecidableEq

def restBelow (path mountpoint : Path) : Option Path :=
  if mountpoint = [slash] then
    if path ≠ [slash] then some path else none
  else if mountpoint.isPrefixOf path ∧ (path.drop mountpoint.length).head? = some slash then
    some (path.drop mountpoint.length)
  else none

namespace Installation

def isAt (i : Installation) (row : ContainerMount) : Bool := i.mountpoints.contains row.mountpoint

def below (i : Installation) (row : ContainerMount) : Option Path :=
  i.mountpoints.findSome? (restBelow row.mountpoint)

/-- The row that a recursive bind copied: at the source plus the rest of the copy below the
    target, on the same filesystem with the same root. -/
def originalOf (i : Installation) (rows : List ContainerMount) (row : ContainerMount)
    (eligible : ℕ → Bool) : Option ContainerMount :=
  match i.below row with
  | none => none
  | some rest => i.sources.findSome? fun source =>
    let path := if source = [slash] then rest else source ++ rest
    rows.find? fun candidate =>
      candidate.rawMountId ≠ row.rawMountId ∧ eligible candidate.rawMountId ∧
        candidate.mountpoint = path ∧
        (candidate.major, candidate.minor, candidate.root) = (row.major, row.minor, row.root)

/-- The row is a copy that the installation's recursive bind made. -/
def copied (i : Installation) (rows : List ContainerMount) (row : ContainerMount) : Bool :=
  (i.originalOf rows row fun _ => true).isSome

/-- `installation.ids.push(id)`, for one row after the other. -/
def takes (i : Installation) (rows : List ContainerMount) : Installation :=
  { i with ids := i.ids ++ rows.map (·.rawMountId) }

end Installation

/-- `(0..n).rev().find(p)` -/
def latest (p : ℕ → Bool) : ℕ → Option ℕ
  | 0 => none
  | n + 1 => if p n then some n else latest p n

/-- Whose row it is, of the installations below `opened`, and whether it closes that one.
    `isAt` tells at whose mountpoint the row is, and `copied` which bind copied it. -/
def ownerOf (isAt copied : ℕ → Bool) (opened : ℕ) : Option (ℕ × Bool) :=
  let firstRow := latest isAt opened
  let copy := latest copied opened
  -- The later installation's, where the row could be either.
  let closes := match firstRow, copy with
    | some index, some copy => if copy < index then some index else none
    | firstRow, none => firstRow
    | none, some _ => none
  match closes, copy with
  | some index, _ => some (index, true)
  | none, some index => some (index, false)
  | none, none => none

def walkBack (rows : List ContainerMount) :
    List ContainerMount → ℕ → List Installation → Bool × List Installation
  | [], _, installations => (false, installations)
  | row :: before, opened, installations =>
    match ownerOf (fun index => installations[index]?.any (·.isAt row))
        (fun index => installations[index]?.any (·.copied rows row)) opened with
    | some (index, true) =>
      let installations := installations.modify index (·.takes [row])
      if index = 0 then (true, installations) else walkBack rows before index installations
    | some (index, false) =>
      walkBack rows before opened (installations.modify index (·.takes [row]))
    | none => walkBack rows before opened installations

def assignInstalledRows (rows : List ContainerMount) (installations : List Installation) :
    Bool × List Installation :=
  if installations = [] then (true, installations)
  else walkBack rows rows.reverse installations.length installations

/-! ## The owner of a row -/

variable {p isAt copied : ℕ → Bool} {n m : ℕ}

theorem latest_lt : ∀ {n j : ℕ}, latest p n = some j → j < n
  | n + 1, j, h => by
    unfold latest at h
    split at h
    · simp only [Option.some.injEq] at h
      omega
    · have := latest_lt h
      omega

theorem latest_of_false (hle : n ≤ m) (h : ∀ j, n ≤ j → j < m → p j = false) :
    latest p m = latest p n := by
  induction m, hle using Nat.le_induction with
  | base => rfl
  | succ m hle ih =>
    simp only [latest, h m hle (by omega)]
    exact ih fun j hj hlt => h j hj (by omega)

/-- The latest installation that matches a row in either way owns it. -/
theorem ownerOf_eq (isFirst : Bool) (hlt : n < m) (hat : isAt n = isFirst)
    (hcopi : copied n = !isFirst) (h : ∀ j, n < j → j < m → isAt j = false ∧ copied j = false) :
    ownerOf isAt copied m = some (n, isFirst) := by
  have hfirst : latest isAt m = latest isAt (n + 1) :=
    latest_of_false hlt fun j hj hm => (h j hj hm).1
  have hcopy : latest copied m = latest copied (n + 1) :=
    latest_of_false hlt fun j hj hm => (h j hj hm).2
  unfold ownerOf
  rw [hfirst, hcopy]
  simp only [latest, hat, hcopi]
  cases isFirst with
  | false =>
    cases hidx : latest isAt n with
    | none => rfl
    | some index =>
      have := latest_lt hidx
      simp [show ¬n < index by omega]
  | true =>
    cases hidx : latest copied n with
    | none => rfl
    | some index => simp [latest_lt hidx]

/-! ## Blocks of rows -/

/-- No alias of the target is strictly below another one. -/
def Installation.Apart (i : Installation) : Prop :=
  ∀ path ∈ i.mountpoints, ∀ mountpoint ∈ i.mountpoints, restBelow path mountpoint = none

/-- The rows that an installation made: one at its target, and then copies of other rows,
    which are below it. A remount has no mountpoint and makes none. -/
def Installation.Made (i : Installation) (rows : List ContainerMount) : List ContainerMount → Prop
  | [] => i.mountpoints = []
  | first :: copies => i.isAt first = true ∧ ∀ row ∈ copies, i.copied rows row = true

instance (i : Installation) (rows : List ContainerMount) : ∀ block, Decidable (i.Made rows block)
  | [] => inferInstanceAs (Decidable (_ = _))
  | _ :: _ => inferInstanceAs (Decidable (_ ∧ _))

variable {i : Installation} {rows : List ContainerMount} {row : ContainerMount}
  {before mid after : List Installation}

theorem Installation.Apart.copied_eq_false (h : i.Apart) (hat : i.isAt row = true) :
    i.copied rows row = false := by
  have hmem : row.mountpoint ∈ i.mountpoints := by simpa [isAt] using hat
  have hblw : i.below row = none :=
    List.findSome?_eq_none_iff.mpr fun mountpoint hm => h _ hmem _ hm
  simp [copied, originalOf, hblw]

theorem Installation.Apart.isAt_eq_false (h : i.Apart) (hcopi : i.copied rows row = true) :
    i.isAt row = false := by
  by_contra hat
  rw [h.copied_eq_false (Bool.not_eq_false _ ▸ hat)] at hcopi
  cases hcopi

theorem asked_of_remounts (before after : List Installation) (i : Installation)
    (ask : Installation → Bool) (hmid : ∀ r ∈ mid, ask r = false) :
    (before ++ i :: (mid ++ after))[before.length]?.any ask = ask i ∧
      ∀ j, before.length < j → j < before.length + 1 + mid.length →
        (before ++ i :: (mid ++ after))[j]?.any ask = false := by
  refine ⟨by simp, fun j hj hlt => ?_⟩
  obtain ⟨k, rfl⟩ := Nat.exists_eq_add_of_lt hj
  have hk : k < mid.length := by omega
  rw [List.getElem?_append_right (by omega),
    show before.length + k + 1 - before.length = k + 1 by omega, List.getElem?_cons_succ,
    List.getElem?_append_left hk, List.getElem?_eq_getElem hk]
  exact hmid _ (List.getElem_mem hk)

theorem modify_length (before rest : List Installation) (f : Installation → Installation) :
    (before ++ i :: rest).modify before.length f = before ++ f i :: rest := by
  induction before with
  | nil => rfl
  | cons j before ih => simpa using ih

section

variable (hmid : ∀ r ∈ mid, r.mountpoints = [])
include hmid

theorem ownerOf_block (before after : List Installation) (isFirst : Bool)
    (hat : i.isAt row = isFirst) (hcopi : i.copied rows row = !isFirst) :
    ownerOf (fun index => (before ++ i :: (mid ++ after))[index]?.any (·.isAt row))
      (fun index => (before ++ i :: (mid ++ after))[index]?.any (·.copied rows row))
      (before.length + 1 + mid.length) = some (before.length, isFirst) := by
  obtain ⟨hat', hopen⟩ := asked_of_remounts before after i (·.isAt row)
    fun r hr => by simp [Installation.isAt, hmid r hr]
  obtain ⟨hcopi', hopen'⟩ := asked_of_remounts before after i (·.copied rows row)
    fun r hr => by simp [Installation.copied, Installation.originalOf, Installation.below, hmid r hr]
  exact ownerOf_eq isFirst (by omega) (hat'.trans hat) (hcopi'.trans hcopi)
    fun j hj hlt => ⟨hopen j hj hlt, hopen' j hj hlt⟩

theorem walkBack_copies (before after : List Installation) (hapart : i.Apart)
    (left : List ContainerMount) :
    ∀ (copies taken : List ContainerMount), (∀ row ∈ copies, i.copied rows row = true) →
      walkBack rows (copies ++ left) (before.length + 1 + mid.length)
          (before ++ i.takes taken :: (mid ++ after)) =
        walkBack rows left (before.length + 1 + mid.length)
          (before ++ i.takes (taken ++ copies) :: (mid ++ after)) := by
  intro copies
  induction copies with
  | nil => intro taken _; simp
  | cons row copies ih =>
    intro taken hcop
    have hcopi := hcop row (by simp)
    have hown := ownerOf_block (i := i.takes taken) hmid before after false
      (hapart.isAt_eq_false hcopi) hcopi
    have htak : (i.takes taken).takes [row] = i.takes (taken ++ [row]) := by
      simp [Installation.takes]
    rw [List.cons_append, walkBack, hown]
    dsimp only
    rw [modify_length, htak, ih _ fun r hr => hcop r (by simp [hr])]
    simp

/-- An installation with the rows of its block, from the last one. -/
def given (laid : Installation × List ContainerMount) : Installation :=
  laid.1.takes laid.2.reverse

omit hmid in
theorem takes_reverse (first : ContainerMount) (copies : List ContainerMount) :
    (i.takes copies.reverse).takes [first] = given (i, first :: copies) := by
  simp [given, Installation.takes]

theorem walkBack_block (before after : List Installation) (hapart : i.Apart)
    {first : ContainerMount} {copies : List ContainerMount} (hat : i.isAt first = true)
    (hcop : ∀ row ∈ copies, i.copied rows row = true) (left : List ContainerMount) :
    walkBack rows (copies.reverse ++ first :: left) (before.length + 1 + mid.length)
        (before ++ i :: (mid ++ after)) =
      if before.length = 0 then (true, before ++ given (i, first :: copies) :: (mid ++ after))
      else walkBack rows left before.length
        (before ++ given (i, first :: copies) :: (mid ++ after)) := by
  have hwalk := walkBack_copies hmid before after hapart (first :: left) copies.reverse []
    (by simpa using hcop)
  have hcopi : i.copied rows first = false := hapart.copied_eq_false hat
  have hown := ownerOf_block (i := i.takes copies.reverse) hmid before after true hat hcopi
  rw [show i.takes [] = i by simp [Installation.takes], List.nil_append] at hwalk
  rw [hwalk, walkBack, hown]
  dsimp only
  rw [modify_length, takes_reverse]

end

theorem walkBack_laid (host : List ContainerMount)
    (laid : List (Installation × List ContainerMount)) (mid after : List Installation)
    (hmade : ∀ l ∈ laid, l.1.Made rows l.2) (hapart : ∀ l ∈ laid, l.1.Apart)
    (hfirst : ∃ l, laid.head? = some l ∧ l.1.mountpoints ≠ [])
    (hmid : ∀ r ∈ mid, r.mountpoints = []) :
    walkBack rows (host ++ laid.flatMap (·.2)).reverse (laid.length + mid.length)
        (laid.map (·.1) ++ (mid ++ after)) = (true, laid.map given ++ (mid ++ after)) := by
  induction laid using List.reverseRecOn generalizing mid after with
  | nil => simp at hfirst
  | append_singleton laid l ih =>
    obtain ⟨i, block⟩ := l
    simp only [List.forall_mem_append, List.forall_mem_singleton] at hmade hapart
    have hbef : laid ≠ [] → ∃ l, laid.head? = some l ∧ l.1.mountpoints ≠ [] := by
      intro hne
      obtain ⟨l, laid, rfl⟩ := List.exists_cons_of_ne_nil hne
      simpa using hfirst
    cases block with
    | nil =>
      -- A remount stays open while the rows of the installations before it are taken.
      have hremo : i.mountpoints = [] := hmade.2
      have hne : laid ≠ [] := by
        rintro rfl
        simp [hremo] at hfirst
      have hwalk := ih (i :: mid) after hmade.1 hapart.1 (hbef hne) (by simpa using ⟨hremo, hmid⟩)
      simpa [given, Installation.takes, Nat.add_assoc, Nat.add_comm 1] using hwalk
    | cons first copies =>
      have hwalk := walkBack_block hmid (laid.map (·.1)) after hapart.2 hmade.2.1 hmade.2.2
        (host ++ laid.flatMap (·.2)).reverse
      rw [List.length_map] at hwalk
      have hrows : (host ++ (laid ++ [(i, first :: copies)]).flatMap (·.2)).reverse =
          copies.reverse ++ first :: (host ++ laid.flatMap (·.2)).reverse := by simp
      rw [hrows, List.length_append, List.map_append, List.map_append, List.append_assoc,
        List.append_assoc]
      refine hwalk.trans ?_
      split
      · rename_i hnil
        rw [List.length_eq_zero_iff] at hnil
        subst hnil
        rfl
      · rename_i hne
        simpa using ih [] (given (i, first :: copies) :: (mid ++ after)) hmade.1 hapart.1
          (hbef (by simpa using hne)) (by simp)

/-- **The plan's rows are told apart.** If the namespace is the host's rows followed by a
    block of rows for each installation, in the order of the plan, then the walk gets to
    the first installation's row and gives each installation the rows of its block. -/
theorem assignInstalledRows_laid (host : List ContainerMount)
    (laid : List (Installation × List ContainerMount))
    (hmade : ∀ l ∈ laid, l.1.Made (host ++ laid.flatMap (·.2)) l.2)
    (hapart : ∀ l ∈ laid, l.1.Apart) (hfirst : ∀ l ∈ laid.head?, l.1.mountpoints ≠ []) :
    assignInstalledRows (host ++ laid.flatMap (·.2)) (laid.map (·.1)) =
      (true, laid.map given) := by
  cases laid with
  | nil => rfl
  | cons l rest =>
    have hwalk := walkBack_laid host (l :: rest) [] [] hmade hapart ⟨l, rfl, hfirst l rfl⟩ (by simp)
    simpa [assignInstalledRows] using hwalk

/-- `/proc`, a remount of `/`, and a bind of `/s` over `/t` that copies the mount `/s/x`. -/
def bindPlan : List (Installation × List ContainerMount) :=
  [(⟨[], [[47, 112]], []⟩, [⟨3, 0, 3, [47], [47, 112]⟩]), (⟨[], [], []⟩, []),
   (⟨[], [[47, 116]], [[47, 115]]⟩,
    [⟨4, 0, 1, [47, 115], [47, 116]⟩, ⟨5, 0, 2, [47], [47, 116, 47, 120]⟩])]

def hostRows : List ContainerMount := [⟨1, 0, 1, [47], [47]⟩, ⟨2, 0, 2, [47], [47, 115, 47, 120]⟩]

theorem assignInstalledRows_laid_bindPlan :
    (assignInstalledRows (hostRows ++ bindPlan.flatMap (·.2)) (bindPlan.map (·.1))).2.map (·.ids) =
      [[3], [], [5, 4]] := by
  rw [assignInstalledRows_laid hostRows bindPlan (by decide) (by unfold Installation.Apart; decide)
    (by decide)]
  rfl

end Hermit.ContainerMounts
