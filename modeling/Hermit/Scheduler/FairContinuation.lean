import Hermit.Ids
import Hermit.Time.LogicalTime

/-!
# Fair continuation

The run times by which threads take turns past the end of a replayed schedule
(`detcore/src/scheduler/fair_continuation.rs`). A thread that becomes runnable is
lifted to the floor, the least run time of a runnable thread.

* `floored_foldl`: no runnable thread is below the floor, after any operations.

A run time is a `u64` number of nanoseconds, held as a `LogicalTime` is.
-/

namespace Hermit.Scheduler

open Hermit.Common

structure Clock where
  current : LogicalTime
  inherited : LogicalTime
deriving DecidableEq

structure Account where
  clock : Option LogicalTime
  runTime : LogicalTime
  runnable : Bool
  lastSelected : ℕ
deriving DecidableEq

namespace Account

def ran (account : Account) (reported : Clock) : ℕ :=
  reported.current.nanos - (account.clock.getD reported.inherited).nanos

def charge (account : Account) : Option Clock → Account
  | none => account
  | some reported =>
    { account with
      runTime := account.runTime + .clamp (account.ran reported)
      clock := some reported.current }

def noteRunnable (account : Account) (floor : LogicalTime) (isRunnable : Bool) : Account :=
  if isRunnable ∧ ¬ account.runnable then
    { account with runTime := max account.runTime floor, lastSelected := 0, runnable := true }
  else { account with runnable := isRunnable }

end Account

structure FairContinuation where
  accounts : OrdMap DetTid Account
  floor : LogicalTime
  selections : ℕ

namespace FairContinuation

def new : FairContinuation := ⟨∅, .zero, 0⟩

/-- The account of a thread after a snapshot: a thread seen for the first time starts at
    the floor. -/
def update (s : FairContinuation) (isRunnable : Bool) (tid : DetTid) (clock : Option Clock) :
    Account :=
  ((s.accounts[tid]?.getD ⟨clock.map (·.current), s.floor, false, 0⟩).charge clock).noteRunnable
    s.floor isRunnable

/-- The sort key of a runnable thread. -/
def key (s : FairContinuation) (tid : DetTid) : LogicalTime × ℕ :=
  match s.accounts[tid]? with
  | some account => (account.runTime, account.lastSelected)
  | none => (s.floor, 0)

/-- Bring the accounts up to date: they are those of the threads in `clocks`. `runnable`
    is sorted, so the binary search finds its members. -/
def refresh (s : FairContinuation) (clocks : OrdMap DetTid (Option Clock))
    (runnable : List DetTid) : FairContinuation :=
  { s with accounts := clocks.map fun tid => s.update (tid ∈ runnable) tid }

def runTimes (s : FairContinuation) (clocks : OrdMap DetTid (Option Clock))
    (runnable : List DetTid) : FairContinuation × List (DetTid × LogicalTime × ℕ) :=
  let s' := s.refresh clocks runnable
  let keys := runnable.map fun tid => (tid, s'.key tid)
  match (keys.map (·.2.1)).min? with
  | some least => ({ s' with floor := max s.floor least }, keys)
  | none => (s', keys)

def noteSelected (s : FairContinuation) (tid : DetTid) : FairContinuation :=
  { s with
    selections := s.selections + 1
    accounts := s.accounts.modify tid ({ · with lastSelected := s.selections + 1 }) }

def reassign (s : FairContinuation) (source target : DetTid) : FairContinuation :=
  if source = target then s
  else match s.accounts[source]? with
    | some account => { s with accounts := (s.accounts.erase source).insert target account }
    | none => { s with accounts := (s.accounts.erase source).erase target }

/-- The operations of the scheduler. -/
inductive Op
  | runTimes (clocks : OrdMap DetTid (Option Clock)) (runnable : List DetTid)
  | noteSelected (tid : DetTid)
  | reassign (source target : DetTid)

def apply (s : FairContinuation) : Op → FairContinuation
  | .runTimes clocks runnable => (s.runTimes clocks runnable).1
  | .noteSelected tid => s.noteSelected tid
  | .reassign source target => s.reassign source target

variable {s s' : FairContinuation} {tid : DetTid} {account : Account}
  {clocks : OrdMap DetTid (Option Clock)} {runnable : List DetTid}

/-! ## The floor -/

/-- No runnable thread is below the floor. -/
def Floored (s : FairContinuation) : Prop :=
  ∀ (tid : DetTid) account, s.accounts[tid]? = some account → account.runnable = true →
    s.floor ≤ account.runTime

theorem le_charge (account : Account) (clock : Option Clock) :
    account.runTime ≤ (account.charge clock).runTime := by
  cases clock with
  | none => exact le_rfl
  | some reported =>
    have := account.runTime.nanos_le
    simp only [Account.charge, LogicalTime.le_def, LogicalTime.add_nanos]
    omega

/-- A runnable thread is at the floor or above it after a snapshot. -/
theorem Floored.floor_le_update (h : s.Floored) (tid : DetTid) (clock : Option Clock) :
    s.floor ≤ (s.update true tid clock).runTime := by
  unfold update Account.noteRunnable
  split_ifs with hlift
  · exact le_max_right _ _
  · refine le_trans ?_ (le_charge _ clock)
    cases hold : s.accounts[tid]? with
    | none => exact le_rfl
    | some old =>
      refine h tid old hold ?_
      cases clock <;> simpa [hold, Account.charge] using hlift

theorem update_runnable (s : FairContinuation) (isRunnable : Bool) (tid : DetTid)
    (clock : Option Clock) : (s.update isRunnable tid clock).runnable = isRunnable := by
  unfold update Account.noteRunnable
  split_ifs with hlift
  · exact hlift.1.symm
  · rfl

theorem accounts_refresh : (s.refresh clocks runnable).accounts[tid]? =
    clocks[tid]?.map (s.update (tid ∈ runnable) tid) := by
  simp [refresh, Std.ExtTreeMap.getElem?_map]

theorem accounts_runTimes :
    (s.runTimes clocks runnable).1.accounts = (s.refresh clocks runnable).accounts := by
  unfold runTimes
  dsimp only
  split <;> rfl

theorem Floored.floor_le_key (h : s.Floored) (htid : tid ∈ runnable) :
    s.floor ≤ ((s.refresh clocks runnable).key tid).1 := by
  unfold key
  rw [accounts_refresh]
  cases clocks[tid]? with
  | none => exact le_rfl
  | some clock => simpa [htid] using h.floor_le_update tid clock

theorem Floored.floor_runTimes (h : s.Floored) (hne : runnable ≠ []) :
    IsLeast {r | ∃ tid ∈ runnable, ((s.refresh clocks runnable).key tid).1 = r}
      (s.runTimes clocks runnable).1.floor := by
  unfold runTimes
  dsimp only
  split
  · rename_i least hleast
    obtain ⟨hmem, hall⟩ := List.min?_eq_some_iff.mp hleast
    simp only [List.map_map, List.mem_map, Function.comp_apply] at hmem hall
    obtain ⟨tid, htid, rfl⟩ := hmem
    rw [max_eq_right (h.floor_le_key htid)]
    exact ⟨⟨tid, htid, rfl⟩, fun r hr => hall r hr⟩
  · rename_i hnone
    simp [hne] at hnone

theorem Floored.floor_le_runTimes (h : s.Floored) :
    s.floor ≤ (s.runTimes clocks runnable).1.floor := by
  by_cases hne : runnable = []
  · subst hne
    exact le_rfl
  · have hleast : IsLeast _ (s.runTimes clocks runnable).1.floor := h.floor_runTimes hne
    obtain ⟨tid, htid, heq⟩ := hleast.1
    exact heq ▸ h.floor_le_key htid

theorem Floored.runTimes (h : s.Floored) : (s.runTimes clocks runnable).1.Floored := by
  intro tid account hacc hrunn
  rw [accounts_runTimes, accounts_refresh] at hacc
  obtain ⟨clock, hclk, rfl⟩ := Option.map_eq_some_iff.mp hacc
  rw [update_runnable, decide_eq_true_eq] at hrunn
  refine (h.floor_runTimes (List.ne_nil_of_mem hrunn)).2 ⟨tid, hrunn, ?_⟩
  simp [key, accounts_refresh, hclk]

theorem accounts_noteSelected (x : DetTid) : (s.noteSelected tid).accounts[x]? =
    if tid = x then s.accounts[tid]?.map ({ · with lastSelected := s.selections + 1 })
    else s.accounts[x]? := by
  simp [noteSelected, Std.ExtTreeMap.getElem?_modify]

theorem Floored.noteSelected (h : s.Floored) : (s.noteSelected tid).Floored := by
  intro x account hacc hrunn
  rw [accounts_noteSelected] at hacc
  split_ifs at hacc
  · obtain ⟨old, hold, rfl⟩ := Option.map_eq_some_iff.mp hacc
    exact h tid old hold hrunn
  · exact h x account hacc hrunn

theorem Floored.reassign (h : s.Floored) (source target : DetTid) :
    (s.reassign source target).Floored ∧ (s.reassign source target).floor = s.floor := by
  unfold FairContinuation.reassign
  split_ifs with hsame
  · exact ⟨h, rfl⟩
  · split
    · rename_i moved hmoved
      refine ⟨fun x account hacc => ?_, rfl⟩
      simp only [OrdMap.getElem?_insert_ite, OrdMap.getElem?_erase_ite] at hacc
      split_ifs at hacc
      · cases hacc
        exact h source moved hmoved
      · exact h x account hacc
    · refine ⟨fun x account hacc => ?_, rfl⟩
      simp only [OrdMap.getElem?_erase_ite] at hacc
      split_ifs at hacc
      exact h x account hacc

/-- An operation keeps runnable threads at the floor or above, and never lowers it. -/
theorem Floored.apply (h : s.Floored) (op : Op) :
    (s.apply op).Floored ∧ s.floor ≤ (s.apply op).floor := by
  cases op with
  | runTimes => exact ⟨h.runTimes, h.floor_le_runTimes⟩
  | noteSelected tid => exact ⟨h.noteSelected, le_rfl⟩
  | reassign source target =>
    exact ⟨(h.reassign source target).1, (h.reassign source target).2.ge⟩

theorem floored_foldl (ops : List Op) (h : s.Floored) :
    (ops.foldl FairContinuation.apply s).Floored := by
  induction ops generalizing s with
  | nil => exact h
  | cons op ops ih => exact ih (h.apply op).1

/-! ## Turns -/

def runTimeOf (s : FairContinuation) (tid : DetTid) : ℕ := (s.key tid).1.nanos

/-- The thread has an account and is runnable. -/
def Runnable (s : FairContinuation) (tid : DetTid) : Prop :=
  ∃ account, s.accounts[tid]? = some account ∧ account.runnable = true

/-- A turn goes to a thread with the least key. At the next snapshot its clock has
    advanced by at most `Q` and no other clock has, and `a` and `b` are runnable. -/
def Turn (Q : ℕ) (a b : DetTid) (s s' : FairContinuation) : Prop :=
  ∃ selected clocks runnable, (∀ tid, s.Runnable tid → toLex (s.key selected) ≤ toLex (s.key tid)) ∧
    (∀ (tid : DetTid) account reported, s.accounts[tid]? = some account →
      clocks[tid]? = some (some reported) →
        account.ran reported ≤ if tid = selected then Q else 0) ∧
    s' = ((s.noteSelected selected).runTimes clocks runnable).1 ∧ s'.Runnable a ∧ s'.Runnable b

theorem runTimeOf_charged {x selected : DetTid} {d : ℕ} (hx : s.Runnable x)
    (hx' : ((s.noteSelected selected).runTimes clocks runnable).1.Runnable x)
    (hadva : ∀ account reported, s.accounts[x]? = some account →
      clocks[x]? = some (some reported) → account.ran reported ≤ d) :
    s.runTimeOf x ≤ ((s.noteSelected selected).runTimes clocks runnable).1.runTimeOf x ∧
      ((s.noteSelected selected).runTimes clocks runnable).1.runTimeOf x ≤ s.runTimeOf x + d := by
  obtain ⟨account, hacc, hrunn⟩ := hx
  obtain ⟨account', hacc', hrunn'⟩ := hx'
  have hkey := hacc'
  rw [accounts_runTimes, accounts_refresh] at hacc'
  obtain ⟨clock, hclk, rfl⟩ := Option.map_eq_some_iff.mp hacc'
  rw [update_runnable] at hrunn'
  obtain ⟨noted, hnoted, hsame⟩ : ∃ noted, (s.noteSelected selected).accounts[x]? = some noted ∧
      noted.runnable = true ∧ noted.runTime = account.runTime ∧
        ∀ reported, noted.ran reported = account.ran reported := by
    rw [accounts_noteSelected]
    split_ifs with heq
    · subst heq
      exact ⟨{ account with lastSelected := s.selections + 1 }, by rw [hacc]; rfl, hrunn,
        rfl, fun _ => rfl⟩
    · exact ⟨account, hacc, hrunn, rfl, fun _ => rfl⟩
  have hle := account.runTime.nanos_le
  simp only [runTimeOf, key, hkey, hacc, update, hnoted, Option.getD_some, hrunn']
  cases clock with
  | none => simp [Account.charge, Account.noteRunnable, hsame]
  | some reported =>
    have hran := hadva account reported hacc hclk
    simp only [Account.charge, Account.noteRunnable, hsame, not_true_eq_false, and_false, if_false,
      LogicalTime.add_nanos, LogicalTime.clamp_nanos]
    omega

/-- After a turn two runnable threads are no further apart than they were, or than
    the turn took. -/
theorem Turn.within {Q : ℕ} {a b : DetTid} (h : Turn Q a b s s') (ha : s.Runnable a)
    (hb : s.Runnable b) : Nat.dist (s'.runTimeOf a) (s'.runTimeOf b) ≤
      max (Nat.dist (s.runTimeOf a) (s.runTimeOf b)) Q := by
  obtain ⟨selected, clocks, runnable, hleast, hadva, rfl, ha', hb'⟩ := h
  have hchar := runTimeOf_charged ha ha' (hadva a)
  have hchar' := runTimeOf_charged hb hb' (hadva b)
  have hfirst : ∀ tid, s.Runnable tid → s.runTimeOf selected ≤ s.runTimeOf tid := by
    intro tid htid
    rcases Prod.Lex.le_iff.mp (hleast tid htid) with hlt | ⟨heq, -⟩
    · exact le_of_lt hlt
    · exact (congrArg LogicalTime.nanos heq).le
  have hfirst_a := hfirst a ha
  have hfirst_b := hfirst b hb
  unfold Nat.dist
  by_cases hsa : a = selected
  · subst hsa
    by_cases hsb : b = a
    · subst hsb
      omega
    · simp only [hsb, if_true, if_false] at hchar hchar'
      omega
  · by_cases hsb : b = selected
    · subst hsb
      simp only [hsa, if_true, if_false] at hchar hchar'
      omega
    · simp only [hsa, hsb, if_false] at hchar hchar'
      omega

theorem within_of_turns {Q : ℕ} {a b : DetTid} (ha : s.Runnable a) (hb : s.Runnable b)
    (h : Relation.ReflTransGen (Turn Q a b) s s') :
    Nat.dist (s'.runTimeOf a) (s'.runTimeOf b) ≤
      max (Nat.dist (s.runTimeOf a) (s.runTimeOf b)) Q := by
  have hrun : s'.Runnable a ∧ s'.Runnable b ∧ Nat.dist (s'.runTimeOf a) (s'.runTimeOf b) ≤
      max (Nat.dist (s.runTimeOf a) (s.runTimeOf b)) Q := by
    induction h with
    | refl => exact ⟨ha, hb, le_max_left _ _⟩
    | tail _ hturn ih =>
      have hstep := hturn.within ih.1 ih.2.1
      obtain ⟨_, _, _, _, _, _, ha', hb'⟩ := hturn
      exact ⟨ha', hb', hstep.trans (max_le ih.2.2 (le_max_right _ _))⟩
  exact hrun.2.2

/-- **Fair continuation**, after any snapshots, selections and reassignments. No
    operation lowers the floor, and no runnable thread is below it. A snapshot with a
    runnable thread leaves the floor at the least run time it returns. While every turn
    goes to a thread with the least key, and takes at most `Q`, two threads that stay
    runnable are never further apart than they were at first, or than `Q`. -/
theorem fair_continuation (ops : List Op) : let s := ops.foldl apply new
    (∀ op, s.floor ≤ (s.apply op).floor) ∧
    (∀ (tid : DetTid) account, s.accounts[tid]? = some account → account.runnable = true →
      s.floor ≤ account.runTime) ∧
    (∀ clocks runnable, runnable ≠ [] →
      IsLeast {r | ∃ tid n, (tid, r, n) ∈ (s.runTimes clocks runnable).2}
        (s.runTimes clocks runnable).1.floor) ∧
    ∀ (Q : ℕ) (a b : DetTid) (s' : FairContinuation), s.Runnable a → s.Runnable b →
      Relation.ReflTransGen (Turn Q a b) s s' →
      Nat.dist (s'.runTimeOf a) (s'.runTimeOf b) ≤
        max (Nat.dist (s.runTimeOf a) (s.runTimeOf b)) Q := by
  intro s
  have h : s.Floored := floored_foldl ops fun tid account hacc => by simp [new] at hacc
  refine ⟨fun op => (h.apply op).2, h, ?_, fun Q a b s' ha hb => within_of_turns ha hb⟩
  intro clocks runnable hne
  have hkeys : {r | ∃ tid n, (tid, r, n) ∈ (s.runTimes clocks runnable).2} =
      {r | ∃ tid ∈ runnable, ((s.refresh clocks runnable).key tid).1 = r} := by
    ext r
    unfold runTimes
    dsimp only
    split <;> simp [Prod.ext_iff]
  rw [hkeys]
  exact h.floor_runTimes hne

/-- Two threads, of which the first has run for `ran` nanoseconds. -/
def twoClocks (ran : ℕ) : OrdMap DetTid (Option Clock) :=
  (∅ : OrdMap DetTid (Option Clock)).insertMany
    [(1, some ⟨.clamp ran, .zero⟩), (2, some ⟨.zero, .zero⟩)]

/-- A turn of five nanoseconds takes the first of two threads as far ahead as it may. -/
theorem fair_continuation_oneTurn : let s := [Op.runTimes (twoClocks 0) [1, 2]].foldl apply new
    let s' := ((s.noteSelected 1).runTimes (twoClocks 5) [1, 2]).1
    Turn 5 1 2 s s' ∧ Nat.dist (s'.runTimeOf 1) (s'.runTimeOf 2) = 5 ∧
    Nat.dist (s'.runTimeOf 1) (s'.runTimeOf 2) ≤
      max (Nat.dist (s.runTimeOf 1) (s.runTimeOf 2)) 5 := by
  intro s s'
  have hleast : ∀ e ∈ s.accounts.toList, toLex (s.key 1) ≤ toLex (s.key e.1) := by decide +kernel
  have hran : ∀ e ∈ s.accounts.toList, ((twoClocks 5)[e.1]?.join.all fun reported =>
      e.2.ran reported ≤ if e.1 = 1 then 5 else 0) = true := by decide +kernel
  have hturn : Turn 5 1 2 s s' := by
    refine ⟨1, twoClocks 5, [1, 2], ?_, ?_, rfl, ⟨_, rfl, rfl⟩, ⟨_, rfl, rfl⟩⟩
    · rintro tid ⟨account, hacc, -⟩
      exact hleast _ ((OrdMap.mem_toList _ _ _).mpr hacc)
    · intro tid account reported hacc hclock
      have hall := hran _ ((OrdMap.mem_toList _ _ _).mpr hacc)
      simpa [hclock] using hall
  exact ⟨hturn, by decide +kernel, (fair_continuation [.runTimes (twoClocks 0) [1, 2]]).2.2.2
    5 1 2 s' ⟨_, rfl, rfl⟩ ⟨_, rfl, rfl⟩ (.single hturn)⟩

end FairContinuation

end Hermit.Scheduler
