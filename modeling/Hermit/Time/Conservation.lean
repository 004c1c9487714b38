import Hermit.Time.GlobalTime

/-!
# Conservation of global time

The running total of `GlobalTime` against a ledger that is kept in unbounded
numbers: every incarnation of a thread with what it inherited and what it has
reached, whether it is still live or retired, and all the extra time.

* `global_time_conserved`
-/

namespace Hermit

open Hermit.Common OrdMap

/-! ## The ledger -/

/-- One life of a thread: what it inherited, and the latest duration it reported. -/
structure Incarnation where
  inherited : LogicalTime
  latest : LogicalTime
deriving DecidableEq

def Incarnation.work (c : Incarnation) : ℕ := c.latest.nanos - c.inherited.nanos

/-- The work of an entry of the ledger. -/
def ownWork (_ : DetTid) (c : Incarnation) : ℕ := c.work

structure Ledger where
  live : OrdMap DetTid Incarnation
  retired : List Incarnation
  extra : ℕ

namespace Ledger

/-- Nothing has been entered. -/
def new : Ledger := ⟨∅, [], 0⟩

/-- The work of the incarnations that are gone. -/
def retiredWork (l : Ledger) : ℕ := (l.retired.map Incarnation.work).sum

def work (l : Ledger) : ℕ := sum l.live ownWork + l.retiredWork

def report (l : Ledger) (tid : DetTid) (latest inherited : LogicalTime) : Ledger :=
  { l with live := l.live.insert tid ⟨(l.live[tid]?.map Incarnation.inherited).getD inherited, latest⟩ }

/-- A thread is gone. -/
def retire (l : Ledger) (tid : DetTid) : Ledger :=
  { l with
    live := l.live.erase tid
    retired := l.live[tid]?.toList ++ l.retired }

/-- A thread goes on under another ID. -/
def rename (l : Ledger) (from' to' : DetTid) : Ledger :=
  match l.live[from']? with
  | some c => { l with live := (l.live.erase from').insert to' c }
  | none => l

/-- Time passes outside the threads. -/
def addExtra (l : Ledger) (delta : ℕ) : Ledger := { l with extra := l.extra + delta }

/-- Enter an operation on the clock `g`, and what it returned. A refused turn adds
    nothing. -/
def enter (l : Ledger) (g : GlobalTime) (op : ClockOp) (out : ClockOut) : Ledger :=
  match op, out with
  | .updateGlobalTime tid newtime inherited, _ =>
    l.report tid (.clamp (newtime.nanos - g.startingNanos.nanos)) inherited
  | .addSchedulerTime, .time _ => l.addExtra (g.charge u64Max)
  | .addCappedSchedulerTime cap, .time _ => l.addExtra (g.charge cap)
  | .addExtraTime delta, _ => l.addExtra delta
  | .reassignThread from' to', _ => if from' = to' then l else (l.retire to').rename from' to'
  | .retireThread dtid, _ => l.retire dtid
  | _, _ => l

/-- Everything that the clock has to account for. -/
def sum (l : Ledger) : ℕ := l.work + l.extra

theorem sum_addExtra (l : Ledger) (delta : ℕ) : (l.addExtra delta).sum = l.sum + delta := by
  show l.work + (l.extra + delta) = l.work + l.extra + delta
  omega

theorem retiredWork_retire (l : Ledger) (tid : DetTid) :
    (l.retire tid).retiredWork = weight l.live ownWork tid + l.retiredWork := by
  unfold retire retiredWork weight
  cases l.live[tid]? with
  | none => exact (Nat.zero_add _).symm
  | some c => rfl

/-- Retiring a thread moves its work, which stays in the sum. -/
theorem sum_retire (l : Ledger) (tid : DetTid) : (l.retire tid).sum = l.sum := by
  have hlive := sum_update l.live (l.retire tid).live ownWork tid
    (fun k' hk' => getElem?_erase_ne _ (Ne.symm hk'))
  have hgone : weight (l.retire tid).live ownWork tid = 0 := by
    unfold weight retire
    rw [getElem?_erase_same]
    rfl
  have hextra : (l.retire tid).extra = l.extra := rfl
  unfold sum work
  rw [retiredWork_retire]
  omega

/-- Another ID for a thread that takes the place of none changes no work. -/
theorem sum_rename {l : Ledger} {from' to' : DetTid} (hto : l.live[to']? = none) :
    (l.rename from' to').sum = l.sum := by
  unfold rename
  cases hfrom : l.live[from']? with
  | none => rfl
  | some c =>
    have hne : from' ≠ to' := by
      rintro rfl
      rw [hto] at hfrom
      cases hfrom
    have herase := sum_update l.live (l.live.erase from') ownWork from'
      (fun k' hk' => getElem?_erase_ne _ (Ne.symm hk'))
    have hins := sum_update (l.live.erase from') ((l.live.erase from').insert to' c)
      ownWork to' (fun k' hk' => getElem?_insert_ne _ (Ne.symm hk') c)
    have hto' : (l.live.erase from')[to']? = none := by
      rw [getElem?_erase_ne _ hne, hto]
    unfold weight at herase hins
    rw [hfrom, getElem?_erase_same] at herase
    rw [hto', getElem?_insert_same] at hins
    simp only [Option.elim_some, Option.elim_none] at herase hins
    unfold sum work retiredWork
    dsimp only
    have hown : ∀ tid, ownWork tid c = c.work := fun _ => rfl
    rw [hown] at herase hins
    omega

/-- The thread before a report: one that starts has done nothing yet. -/
def before (l : Ledger) (tid : DetTid) (inherited : LogicalTime) : Incarnation :=
  l.live[tid]?.getD ⟨inherited, inherited⟩

theorem report_eq (l : Ledger) (tid : DetTid) (latest inherited : LogicalTime) :
    l.report tid latest inherited =
      { l with live := l.live.insert tid ⟨(l.before tid inherited).inherited, latest⟩ } := by
  unfold report before
  cases l.live[tid]? <;> rfl

/-- A report adds what the thread did since its last one, or since it started. -/
theorem sum_report (l : Ledger) (tid : DetTid) (latest inherited : LogicalTime) :
    (l.report tid latest inherited).sum + (l.before tid inherited).work =
      l.sum + (latest.nanos - (l.before tid inherited).inherited.nanos) := by
  have hlive := sum_update l.live (l.live.insert tid ⟨(l.before tid inherited).inherited, latest⟩)
    ownWork tid (fun k' hk' => getElem?_insert_ne _ (Ne.symm hk') _)
  have hbef : weight l.live ownWork tid = (l.before tid inherited).work := by
    unfold weight before
    cases l.live[tid]? with
    | none => exact (Nat.sub_self _).symm
    | some c => rfl
  rw [hbef, weight, getElem?_insert_same] at hlive
  rw [report_eq]
  unfold sum work retiredWork
  dsimp only [Option.elim_some, ownWork, Incarnation.work] at hlive ⊢
  omega

end Ledger

/-! ## Agreement -/

namespace GlobalTime

variable {g g' : GlobalTime} {l l' : Ledger}

structure Components (g : GlobalTime) (l : Ledger) : Prop where
  time : ∀ tid : DetTid, g.timeVector[tid]? = l.live[tid]?.map Incarnation.latest
  inherited : ∀ tid : DetTid, g.inheritedTime[tid]? = l.live[tid]?.map Incarnation.inherited
  inherited_le : ∀ (tid : DetTid) (c : Incarnation), l.live[tid]? = some c → c.inherited ≤ c.latest
  extra : g.extraTime.nanos = min (l.extra + l.retiredWork) u64Max

/-- The clock accounts for the whole ledger, saturated. -/
structure Agrees (g : GlobalTime) (l : Ledger) : Prop extends Components g l where
  total : g.total.nanos = min (g.startingNanos.nanos + l.sum) u64Max

theorem sub_eq_ok {a b : LogicalTime} (h : b ≤ a) :
    ∃ c : LogicalTime, a.sub b = .ok c ∧ c.nanos = a.nanos - b.nanos := by
  refine ⟨_, if_pos h, rfl⟩

theorem agrees_new (startingNanos : LogicalTime) (defaultCharge : ℕ)
    (schedulerTurnCharge : Option ℕ) :
    Agrees (new startingNanos defaultCharge schedulerTurnCharge) Ledger.new := by
  refine ⟨⟨?_, ?_, ?_, ?_⟩, ?_⟩
  · intro tid
    simp [new, Ledger.new]
  · intro tid
    simp [new, Ledger.new]
  · intro tid c hc
    simp [Ledger.new] at hc
  · simp [new, Ledger.new, Ledger.retiredWork, LogicalTime.zero]
  · have hsum : Ledger.new.sum = 0 := by decide +kernel
    rw [hsum, Nat.add_zero]
    exact (Nat.min_eq_left startingNanos.nanos_le).symm

/-- The sum over the entries, when no subtraction goes below zero. -/
theorem foldlM_own {inherited : DetTid → LogicalTime} (entries : List (DetTid × LogicalTime)) :
    ∀ start : LogicalTime, (∀ entry ∈ entries, inherited entry.1 ≤ entry.2) →
      ∃ sum : LogicalTime, entries.foldlM (fun (sum : LogicalTime) entry => do
          let own ← LogicalTime.sub entry.2 (inherited entry.1)
          return sum + own) start = .ok sum ∧
        sum.nanos = min (start.nanos +
          (entries.map fun entry => entry.2.nanos - (inherited entry.1).nanos).sum) u64Max := by
  induction entries with
  | nil =>
    intro start _
    refine ⟨start, rfl, ?_⟩
    simp [start.nanos_le]
  | cons entry entries ih =>
    intro start hle
    obtain ⟨own, hsub, hown⟩ := sub_eq_ok (hle entry List.mem_cons_self)
    obtain ⟨sum, hfold, hsum⟩ :=
      ih (start + own) (fun entry' h => hle entry' (List.mem_cons_of_mem _ h))
    refine ⟨sum, ?_, ?_⟩
    · rw [List.foldlM_cons, hsub]
      exact hfold
    · rw [hsum, LogicalTime.add_nanos, hown, List.map_cons, List.sum_cons]
      omega

theorem Components.inheritedDuration_eq (h : Components g l) {tid : DetTid} {c : Incarnation}
    (hc : l.live[tid]? = some c) : g.inheritedDuration tid = c.inherited := by
  unfold inheritedDuration
  rw [h.inherited, hc]
  rfl

/-- The recomputed sum is the whole ledger, saturated. -/
theorem Components.sumUp (h : Components g l) : ∃ sum : LogicalTime, g.sumUp = .ok sum ∧
      sum.nanos = min (g.startingNanos.nanos + l.sum) u64Max := by
  have hent : ∀ entry ∈ g.timeVector.toList,
      ∃ c, l.live[entry.1]? = some c ∧ entry.2 = c.latest := by
    rintro ⟨tid, time⟩ hmem
    have htime := (mem_toList _ _ _).mp hmem
    rw [h.time] at htime
    obtain ⟨c, hc, rfl⟩ := Option.map_eq_some_iff.mp htime
    exact ⟨c, hc, rfl⟩
  have hle : ∀ entry ∈ g.timeVector.toList, g.inheritedDuration entry.1 ≤ entry.2 := by
    intro entry hmem
    obtain ⟨c, hc, htime⟩ := hent entry hmem
    rw [h.inheritedDuration_eq hc, htime]
    exact h.inherited_le _ c hc
  have hlive : sum g.timeVector (fun tid time =>
      time.nanos - (g.inheritedDuration tid).nanos) = sum l.live ownWork := by
    apply sum_congr
    intro tid
    unfold weight
    rw [h.time]
    cases hc : l.live[tid]? with
    | none => rfl
    | some c =>
      show c.latest.nanos - (g.inheritedDuration tid).nanos = c.work
      rw [h.inheritedDuration_eq hc]
      rfl
  obtain ⟨sum, hfold, hsum⟩ := foldlM_own g.timeVector.toList g.startingNanos hle
  refine ⟨sum + g.extraTime, bind_eq_ok.mpr ⟨sum, hfold, rfl⟩, ?_⟩
  unfold OrdMap.sum at hlive
  rw [LogicalTime.add_nanos, hsum, h.extra, hlive]
  unfold Ledger.sum Ledger.work OrdMap.sum
  omega

/-- The debug assertion holds where the clock agrees with the ledger. -/
theorem Agrees.sumUp_eq (h : Agrees g l) : g.sumUp = .ok g.total := by
  obtain ⟨sum, hok, hsum⟩ := h.toComponents.sumUp
  rw [hok]
  congr 1
  apply LogicalTime.ext
  rw [hsum, h.total]

theorem Agrees.sanity (h : Agrees g l) : g.sanity = .ok g :=
  bind_eq_ok.mpr ⟨g.total, h.sumUp_eq, throwIf_eq_ok.mpr ⟨not_not.mpr rfl, rfl⟩⟩

theorem bumpTotal_spec {delta before : ℕ} (h : Components g l)
    (htot : g.total.nanos = min before u64Max)
    (hsum : before + delta = g.startingNanos.nanos + l.sum) :
    g.bumpTotal delta = .ok { g with total := g.total + .clamp delta } ∧
      Agrees { g with total := g.total + .clamp delta } l := by
  have hagr : Agrees { g with total := g.total + .clamp delta } l := by
    refine ⟨⟨h.time, h.inherited, h.inherited_le, h.extra⟩, ?_⟩
    show (g.total + .clamp delta).nanos = min (g.startingNanos.nanos + l.sum) u64Max
    rw [LogicalTime.add_nanos, LogicalTime.clamp_nanos, htot, ← hsum]
    omega
  exact ⟨hagr.sanity, hagr⟩

/-! ## Operations -/

/-- `g'` is the clock `g` with a total that is no less. -/
structure Later (g g' : GlobalTime) : Prop where
  starting : g'.startingNanos = g.startingNanos
  le : g.total ≤ g'.total

structure Kept (g g' : GlobalTime) : Prop where
  starting : g'.startingNanos = g.startingNanos
  total : g'.total = g.total

theorem Kept.later (h : Kept g g') : Later g g' := ⟨h.starting, le_of_eq h.total.symm⟩

/-- The operation succeeded with a clock that accounts for `l'`, or it failed a
    check on its arguments. -/
def Accounts (g : GlobalTime) (l' : Ledger) : Except ClockPanic GlobalTime → Prop
  | .ok g' => Agrees g' l' ∧ Later g g'
  | .error e => e ≠ .underflow ∧ e ≠ .sanity

theorem Agrees.later (h : Agrees g l) (h' : Agrees g' l')
    (hsta : g'.startingNanos = g.startingNanos) (hsum : l.sum ≤ l'.sum) : Later g g' := by
  refine ⟨hsta, ?_⟩
  rw [LogicalTime.le_def, h.total, h'.total, hsta]
  omega

theorem accounts_of_bumpTotal {g₁ : GlobalTime} {delta : ℕ} (h : Agrees g l)
    (hc : Components g₁ l') (hsta : g₁.startingNanos = g.startingNanos) (htot : g₁.total = g.total)
    (hsum : l.sum + delta = l'.sum) : Accounts g l' (g₁.bumpTotal delta) := by
  have hbef : g₁.total.nanos = min (g.startingNanos.nanos + l.sum) u64Max := by
    rw [htot, h.total]
  have haft : g.startingNanos.nanos + l.sum + delta = g₁.startingNanos.nanos + l'.sum := by
    rw [hsta]
    omega
  obtain ⟨hok, hagr⟩ := bumpTotal_spec hc hbef haft
  rw [hok]
  exact ⟨hagr, h.later hagr hsta (by omega)⟩

/-- A report of a thread, which keeps what it inherited. -/
theorem Agrees.report (h : Agrees g l) {tid : DetTid} {latest inherited diff : LogicalTime}
    {c : Incarnation} {inheritedTime : OrdMap DetTid LogicalTime} (hc : l.before tid inherited = c)
    (hle : c.inherited ≤ c.latest) (hlate : c.latest ≤ latest)
    (hdiff : diff.nanos = latest.nanos - c.latest.nanos)
    (hinhe : ∀ tid' : DetTid, inheritedTime[tid']? =
      if tid = tid' then some c.inherited else g.inheritedTime[tid']?) :
    Accounts g (l.report tid latest inherited) (bumpTotal { g with
      timeVector := g.timeVector.insert tid latest
      inheritedTime := inheritedTime } diff.nanos) := by
  have hsum := l.sum_report tid latest inherited
  rw [Ledger.report_eq, hc] at hsum ⊢
  refine accounts_of_bumpTotal h ⟨?_, ?_, ?_, h.extra⟩ rfl rfl ?_
  · intro tid'
    rw [getElem?_insert_ite, getElem?_insert_ite]
    split_ifs
    · rfl
    · exact h.time tid'
  · intro tid'
    rw [hinhe, getElem?_insert_ite]
    split_ifs
    · rfl
    · exact h.inherited tid'
  · intro tid' c' hc'
    rw [getElem?_insert_ite] at hc'
    split_ifs at hc'
    · cases hc'
      exact hle.trans hlate
    · exact h.inherited_le tid' c' hc'
  · have hwork : c.work = c.latest.nanos - c.inherited.nanos := rfl
    rw [LogicalTime.le_def] at hle hlate
    omega

theorem updateGlobalTime_spec (h : Agrees g l) (tid : DetTid) (newtime inherited : LogicalTime) :
    Accounts g (l.report tid (.clamp (newtime.nanos - g.startingNanos.nanos)) inherited)
      (g.updateGlobalTime tid newtime inherited) := by
  unfold updateGlobalTime
  by_cases hbef : newtime < g.startingNanos
  · rw [if_pos hbef]
    exact ⟨by decide, by decide⟩
  rw [if_neg hbef]
  obtain ⟨latest, hsub, hlate⟩ := sub_eq_ok (not_lt.mp hbef)
  have hclamp : LogicalTime.clamp (newtime.nanos - g.startingNanos.nanos) = latest := by
    apply LogicalTime.ext
    rw [LogicalTime.clamp_nanos, hlate]
    have := newtime.nanos_le
    omega
  rw [hclamp, hsub, h.time]
  cases hc : l.live[tid]? with
  | some c =>
    -- The thread has a clock already: what it inherited stays.
    show Accounts _ _ (if latest < c.latest then _ else _)
    by_cases hback : latest < c.latest
    · rw [if_pos hback]
      exact ⟨by decide, by decide⟩
    rw [if_neg hback]
    obtain ⟨diff, hdiff, hnanos⟩ := sub_eq_ok (not_lt.mp hback)
    rw [hdiff]
    refine h.report (c := c) (by rw [Ledger.before, hc]; rfl) (h.inherited_le tid c hc)
      (not_lt.mp hback) hnanos fun tid' => ?_
    split_ifs with heq
    · rw [← heq, h.inherited, hc]
      rfl
    · rfl
  | none =>
    show Accounts _ _ (if latest < inherited then _ else _)
    by_cases hbeyo : latest < inherited
    · rw [if_pos hbeyo]
      exact ⟨by decide, by decide⟩
    rw [if_neg hbeyo]
    obtain ⟨own, hown, hnanos⟩ := sub_eq_ok (not_lt.mp hbeyo)
    rw [hown]
    exact h.report (c := ⟨inherited, inherited⟩) (by rw [Ledger.before, hc]; rfl) le_rfl
      (not_lt.mp hbeyo) hnanos fun tid' => getElem?_insert_ite _ _ _ _

theorem addExtraTime_spec (h : Agrees g l) (delta : ℕ) :
    ∃ g', g.addExtraTime delta = .ok (g', g'.total) ∧ Agrees g' (l.addExtra delta) ∧
      Later g g' := by
  have hcomp : Components { g with extraTime := g.extraTime + .clamp delta }
      (l.addExtra delta) := by
    refine ⟨h.time, h.inherited, h.inherited_le, ?_⟩
    show (g.extraTime + .clamp delta).nanos = min (l.extra + delta + l.retiredWork) u64Max
    rw [LogicalTime.add_nanos, LogicalTime.clamp_nanos, h.extra]
    omega
  have haft : g.startingNanos.nanos + l.sum + delta =
      g.startingNanos.nanos + (l.addExtra delta).sum := by
    rw [Ledger.sum_addExtra]
    omega
  obtain ⟨hok, hagr⟩ := bumpTotal_spec hcomp h.total haft
  refine ⟨_, bind_eq_ok.mpr ⟨_, hok, rfl⟩, hagr, h.later hagr rfl ?_⟩
  rw [Ledger.sum_addExtra]
  omega

/-- A turn adds its charge, or it is refused and leaves the clock as it is. -/
theorem addCappedSchedulerTime_spec (h : Agrees g l) (cap : ℕ) :
    (∃ g', g.addCappedSchedulerTime cap = .ok (g', .ok g'.total) ∧
      Agrees g' (l.addExtra (g.charge cap)) ∧ Later g g') ∨
    ∃ e, g.addCappedSchedulerTime cap = .ok (g, .error e) := by
  unfold addCappedSchedulerTime
  by_cases hexha : g.schedulerTurnCharge.isSome = true ∧
      checkedAdd g.total.nanos (g.charge cap) = none
  · rw [if_pos hexha]
    exact .inr ⟨_, rfl⟩
  · rw [if_neg hexha]
    obtain ⟨g', hok, hagr, hlat⟩ := addExtraTime_spec h (g.charge cap)
    exact .inl ⟨g', bind_eq_ok.mpr ⟨_, hok, rfl⟩, hagr, hlat⟩

/-- Retiring a thread moves its work to the extra time. -/
theorem retireThread_spec (h : Agrees g l) (dtid : DetTid) :
    ∃ g', g.retireThread dtid = .ok g' ∧ Agrees g' (l.retire dtid) ∧ Kept g g' := by
  have hlive : ∀ tid : DetTid, (l.retire dtid).live[tid]? =
      if dtid = tid then none else l.live[tid]? := fun tid => getElem?_erase_ite _ _ _
  have herase : ∀ (m : OrdMap DetTid LogicalTime) (f : Incarnation → LogicalTime),
      (∀ tid : DetTid, m[tid]? = l.live[tid]?.map f) →
      ∀ tid : DetTid, (m.erase dtid)[tid]? = (l.retire dtid).live[tid]?.map f := by
    intro m f hm tid
    rw [hlive, getElem?_erase_ite]
    split_ifs
    · rfl
    · exact hm tid
  have hle : ∀ (tid : DetTid) (c : Incarnation), (l.retire dtid).live[tid]? = some c →
      c.inherited ≤ c.latest := by
    intro tid c hc
    rw [hlive] at hc
    split_ifs at hc
    exact h.inherited_le tid c hc
  have htot : g.total.nanos = min (g.startingNanos.nanos + (l.retire dtid).sum) u64Max := by
    rw [Ledger.sum_retire, h.total]
  have hextra := l.retiredWork_retire dtid
  unfold weight at hextra
  unfold retireThread
  dsimp only
  rw [h.time]
  cases hc : l.live[dtid]? with
  | none =>
    have htime : ∀ tid : DetTid, g.timeVector[tid]? =
        (l.retire dtid).live[tid]?.map Incarnation.latest := by
      intro tid
      rw [h.time, hlive]
      split_ifs with heq
      · rw [← heq, hc]
      · rfl
    have hagr : Agrees { g with inheritedTime := g.inheritedTime.erase dtid } (l.retire dtid) := by
      refine ⟨⟨htime, herase _ _ h.inherited, hle, ?_⟩, htot⟩
      show g.extraTime.nanos = min (l.extra + (l.retire dtid).retiredWork) u64Max
      rw [hextra, hc, h.extra]
      simp
    exact ⟨_, hagr.sanity, hagr, rfl, rfl⟩
  | some c =>
    rw [h.inheritedDuration_eq hc]
    obtain ⟨own, hown, hnanos⟩ := sub_eq_ok (h.inherited_le dtid c hc)
    have hagr : Agrees { g with
        timeVector := g.timeVector.erase dtid
        inheritedTime := g.inheritedTime.erase dtid
        extraTime := g.extraTime + own } (l.retire dtid) := by
      refine ⟨⟨herase _ _ h.time, herase _ _ h.inherited, hle, ?_⟩, htot⟩
      show (g.extraTime + own).nanos = min (l.extra + (l.retire dtid).retiredWork) u64Max
      have hwork : ownWork dtid c = c.latest.nanos - c.inherited.nanos := rfl
      rw [hextra, hc, Option.elim_some, LogicalTime.add_nanos, h.extra, hnanos]
      omega
    exact ⟨_, bind_eq_ok.mpr ⟨own, hown, hagr.sanity⟩, hagr, rfl, rfl⟩

/-- Giving a thread another ID, where no thread has it. -/
theorem Agrees.rename (h : Agrees g l) {from' to' : DetTid} {c : Incarnation}
    (hto : l.live[to']? = none) (hc : l.live[from']? = some c) :
    Agrees { g with
      timeVector := (g.timeVector.erase from').insert to' c.latest
      inheritedTime := (g.inheritedTime.erase from').insert to' c.inherited }
      (l.rename from' to') := by
  have hren : l.rename from' to' = { l with live := (l.live.erase from').insert to' c } := by
    unfold Ledger.rename
    rw [hc]
  have hlive : ∀ tid : DetTid, (l.rename from' to').live[tid]? =
      if to' = tid then some c else if from' = tid then none else l.live[tid]? := by
    intro tid
    rw [hren]
    rw [getElem?_insert_ite, getElem?_erase_ite]
  have hmove : ∀ (m : OrdMap DetTid LogicalTime) (f : Incarnation → LogicalTime),
      (∀ tid : DetTid, m[tid]? = l.live[tid]?.map f) → ∀ tid : DetTid,
        ((m.erase from').insert to' (f c))[tid]? = (l.rename from' to').live[tid]?.map f := by
    intro m f hm tid
    rw [hlive, getElem?_insert_ite, getElem?_erase_ite]
    split_ifs
    · rfl
    · rfl
    · exact hm tid
  refine ⟨⟨hmove _ _ h.time, hmove _ _ h.inherited, ?_, ?_⟩, ?_⟩
  · intro tid c' hc'
    rw [hlive] at hc'
    split_ifs at hc'
    · cases hc'
      exact h.inherited_le from' c hc
    · exact h.inherited_le tid c' hc'
  · show g.extraTime.nanos = _
    rw [hren]
    exact h.extra
  · show g.total.nanos = _
    rw [Ledger.sum_rename hto, h.total]

theorem reassignThread_spec (h : Agrees g l) (from' to' : DetTid) :
    (∃ g', g.reassignThread from' to' = .ok g' ∧
      Agrees g' (if from' = to' then l else (l.retire to').rename from' to') ∧
      Kept g g') ∨
    g.reassignThread from' to' = .error .missingThread := by
  unfold reassignThread
  by_cases heq : from' = to'
  · rw [if_pos heq, if_pos heq]
    exact .inl ⟨g, rfl, h, rfl, rfl⟩
  · rw [if_neg heq, if_neg heq]
    obtain ⟨g₁, hok, hagr, hkept⟩ := retireThread_spec h to'
    have hto : (l.retire to').live[to']? = none := getElem?_erase_same _ _
    have hfrom := hagr.time from'
    cases hc : (l.retire to').live[from']? with
    | none =>
      rw [hc] at hfrom
      refine .inr (bind_eq_error.mpr (.inr ⟨g₁, hok, ?_⟩))
      rw [hfrom]
      rfl
    | some c =>
      rw [hc] at hfrom
      have hrena := hagr.rename hto hc
      refine .inl ⟨_, bind_eq_ok.mpr ⟨g₁, hok, ?_⟩, hrena, hkept.starting, hkept.total⟩
      rw [hfrom]
      rw [hagr.inheritedDuration_eq hc]
      exact hrena.sanity

/-! ## Runs -/

/-- The clock beside its ledger. -/
structure Accounted where
  time : GlobalTime
  ledger : Ledger

namespace Accounted

/-- An operation, entered in the ledger. -/
def step (a : Accounted) (op : ClockOp) : Except ClockPanic (Accounted × ClockOut) := do
  let (g, out) ← a.time.step op
  return (⟨g, a.ledger.enter a.time op out⟩, out)

def new (startingNanos : LogicalTime) (defaultCharge : ℕ) (schedulerTurnCharge : Option ℕ) :
    Accounted :=
  ⟨GlobalTime.new startingNanos defaultCharge schedulerTurnCharge, Ledger.new⟩

end Accounted

/-- The operation keeps the total. -/
def movesThread : ClockOp → Bool
  | .reassignThread _ _ => true
  | .retireThread _ => true
  | _ => false

structure Stepped (g : GlobalTime) (l : Ledger) (op : ClockOp) (g' : GlobalTime) (out : ClockOut) :
    Prop extends Later g g' where
  agrees : Agrees g' (l.enter g op out)
  same : movesThread op = true → g'.total = g.total
  exhausted : ∀ e, out = .exhausted e → g' = g

theorem turn_stepped {op : ClockOp} {out : ClockOut} {cap : ℕ} (h : Agrees g l)
    (hop : ∀ now, l.enter g op (.time now) = l.addExtra (g.charge cap))
    (href : ∀ e, l.enter g op (.exhausted e) = l) (hmoves : movesThread op = false)
    (hstep : (g.addCappedSchedulerTime cap).map (fun (g, turn) => (g, ClockOut.ofTurn turn)) =
      .ok (g', out)) : Stepped g l op g' out := by
  have hsame : movesThread op = true → g'.total = g.total := by
    intro htrue
    rw [hmoves] at htrue
    cases htrue
  rcases addCappedSchedulerTime_spec h cap with ⟨g₁, hok, hagr, hlat⟩ | ⟨e, hok⟩
  · rw [hok] at hstep
    cases hstep
    refine ⟨hlat, ?_, hsame, nofun⟩
    show Agrees _ (l.enter g op (.time _))
    rw [hop]
    exact hagr
  · rw [hok] at hstep
    cases hstep
    refine ⟨⟨rfl, le_rfl⟩, ?_, fun _ => rfl, fun _ _ => rfl⟩
    show Agrees _ (l.enter g op (.exhausted _))
    rw [href]
    exact h

/-- Every operation that returns keeps the clock in agreement with its ledger. -/
theorem step_agrees {op : ClockOp} {out : ClockOut} (h : Agrees g l)
    (hstep : g.step op = .ok (g', out)) : Stepped g l op g' out := by
  cases op with
  | updateGlobalTime tid newtime inherited =>
    have hspec := updateGlobalTime_spec h tid newtime inherited
    obtain ⟨g₁, hok, heq⟩ := map_eq_ok.mp hstep
    rw [hok] at hspec
    cases heq
    exact ⟨hspec.2, hspec.1, nofun, nofun⟩
  | addSchedulerTime | addCappedSchedulerTime =>
    exact turn_stepped h (fun _ => rfl) (fun _ => rfl) rfl hstep
  | addExtraTime delta =>
    obtain ⟨g₁, hok, hagr, hlat⟩ := addExtraTime_spec h delta
    obtain ⟨r, hr, heq⟩ := map_eq_ok.mp hstep
    rw [hok] at hr
    cases hr
    cases heq
    exact ⟨hlat, hagr, nofun, nofun⟩
  | reassignThread from' to' =>
    obtain ⟨g₁, hok, heq⟩ := map_eq_ok.mp hstep
    cases heq
    rcases reassignThread_spec h from' to' with ⟨g₂, hok', hagr, hkept⟩ | herror
    · rw [hok] at hok'
      cases hok'
      exact ⟨hkept.later, hagr, fun _ => hkept.total, nofun⟩
    · rw [hok] at herror
      cases herror
  | retireThread dtid =>
    obtain ⟨g₁, hok, heq⟩ := map_eq_ok.mp hstep
    cases heq
    obtain ⟨g₂, hok', hagr, hkept⟩ := retireThread_spec h dtid
    rw [hok] at hok'
    cases hok'
    exact ⟨hkept.later, hagr, fun _ => hkept.total, nofun⟩

theorem turn_checks (h : Agrees g l) (cap : ℕ) (e : ClockPanic) :
    Avoids e (g.addCappedSchedulerTime cap) := by
  rcases addCappedSchedulerTime_spec h cap with ⟨_, hok, _⟩ | ⟨_, hok⟩ <;> exact .of_ok hok

/-- The internal checks of an operation do not fail. -/
theorem step_checks (h : Agrees g l) (op : ClockOp) {e : ClockPanic}
    (he : e = .underflow ∨ e = .sanity) : Avoids e (g.step op) := by
  cases op with
  | updateGlobalTime tid newtime inherited =>
    have hspec := updateGlobalTime_spec h tid newtime inherited
    refine .map fun hfail => ?_
    rw [hfail] at hspec
    rcases he with rfl | rfl
    · exact hspec.1 rfl
    · exact hspec.2 rfl
  | addSchedulerTime => exact .map (turn_checks h _ e)
  | addCappedSchedulerTime cap => exact .map (turn_checks h cap e)
  | addExtraTime delta =>
    obtain ⟨_, hok, _⟩ := addExtraTime_spec h delta
    exact .map (.of_ok hok)
  | reassignThread from' to' =>
    refine .map ?_
    rcases reassignThread_spec h from' to' with ⟨_, hok, _⟩ | hmiss
    · exact .of_ok hok
    · intro hfail
      rw [hmiss] at hfail
      cases hfail
      rcases he with he | he <;> cases he
  | retireThread dtid =>
    obtain ⟨_, hok, _⟩ := retireThread_spec h dtid
    exact .map (.of_ok hok)

end GlobalTime

/-! ## Whole runs -/

namespace Accounted

open GlobalTime

variable {startingNanos : LogicalTime} {defaultCharge : ℕ} {schedulerTurnCharge : Option ℕ}

/-- Clock and ledger agree in every state that operations lead to. -/
theorem reaches_agrees {a : GlobalTime.Accounted} (h : Reaches Accounted.step (fun _ _ => True)
      (Accounted.new startingNanos defaultCharge schedulerTurnCharge) a) :
    Agrees a.time a.ledger ∧ a.time.startingNanos = startingNanos := by
  refine h.invariant (fun a => Agrees a.time a.ledger ∧ a.time.startingNanos = startingNanos)
    ⟨agrees_new _ _ _, rfl⟩ ?_
  rintro a op a' out ⟨hagr, hsta⟩ - hstep
  obtain ⟨⟨g', out'⟩, hok, heq⟩ := bind_eq_ok.mp hstep
  cases heq
  have hste := step_agrees hagr hok
  exact ⟨hste.agrees, hste.starting.trans hsta⟩

/-- In every state that operations lead to, with threads that are retired, take the
    number of another or come back under an old one:

    * the cached total is the sum of the components, and it is the start, the work of
      all incarnations and all extra time, up to what a `u64` holds;
    * an operation that returns never lowers it, and retiring or reassigning a thread
      leaves it as it is, as does a turn that is refused;
    * no operation fails in a check of its own accounting. -/
theorem global_time_conserved (startingNanos : LogicalTime) (defaultCharge : ℕ)
    (schedulerTurnCharge : Option ℕ) (a : GlobalTime.Accounted)
    (hreach : Reaches Accounted.step (fun _ _ => True)
      (Accounted.new startingNanos defaultCharge schedulerTurnCharge) a) :
    a.time.sumUp = .ok a.time.total ∧
    a.time.total.nanos = min (startingNanos.nanos + a.ledger.work + a.ledger.extra) u64Max ∧
    ∀ op, (∀ a' out, a.step op = .ok (a', out) → a.time.total ≤ a'.time.total ∧
        (movesThread op = true → a'.time.total = a.time.total) ∧
        (∀ e, out = .exhausted e → a'.time = a.time)) ∧
      a.step op ≠ .error .sanity ∧ a.step op ≠ .error .underflow := by
  obtain ⟨hagr, hsta⟩ := reaches_agrees hreach
  refine ⟨hagr.sumUp_eq, ?_, ?_⟩
  · rw [hagr.total, hsta, Ledger.sum, Nat.add_assoc]
  · intro op
    have hchec : ∀ {e : ClockPanic}, e = .underflow ∨ e = .sanity → Avoids e (a.step op) :=
      fun he => (step_checks hagr op he).bind fun _ _ => .pure _
    refine ⟨?_, hchec (.inr rfl), hchec (.inl rfl)⟩
    intro a' out hstep
    obtain ⟨⟨g', out'⟩, hok, heq⟩ := bind_eq_ok.mp hstep
    cases heq
    have hste := step_agrees hagr hok
    exact ⟨hste.le, hste.same, hste.exhausted⟩

/-- Thread 3 works and retires, a second thread of that number inherits from its parent,
    and thread 4 takes the number over from it. -/
def reusedNumber : List ClockOp :=
  [.updateGlobalTime 3 (.clamp 107) .zero, .retireThread 3, .addSchedulerTime,
    .updateGlobalTime 3 (.clamp 109) (.clamp 7), .updateGlobalTime 4 (.clamp 105) (.clamp 1),
    .reassignThread 4 3, .addExtraTime 20]

theorem global_time_conserved_reusedNumber : ∃ a : GlobalTime.Accounted,
    Reaches Accounted.step (fun _ _ => True) (Accounted.new (.clamp 100) 10 none) a ∧
    a.ledger.work = 13 ∧ a.ledger.extra = 30 ∧ a.time.total.nanos = 143 := by
  obtain ⟨a, hreach, hwork, hextra⟩ := exists_reaches reusedNumber
    (fun a : GlobalTime.Accounted => a.ledger.work = 13 ∧ a.ledger.extra = 30)
    (by decide +kernel : (arrive Accounted.step (fun _ _ => True)
      (Accounted.new (.clamp 100) 10 none) reusedNumber).any _ = true)
  refine ⟨a, hreach, hwork, hextra, ?_⟩
  rw [(global_time_conserved _ _ _ a hreach).2.1, hwork, hextra]
  decide

end Accounted

end Hermit
