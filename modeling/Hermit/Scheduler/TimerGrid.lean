import Hermit.Common.Grid
import Hermit.Scheduler.TimedSoundness

/-!
# The grid of a periodic timer

A periodic timer armed at `d` with interval `p` gets its later deadlines from its
pop, which adds the interval, from `signal_timer_after_fire` and from
`signal_timer_rearm_after`. None leaves the grid `d + k * p` or goes back.

* `periodic_timer_grid`
-/

namespace Hermit.Scheduler

open Hermit.Common List

/-! ## The next grid point -/

theorem gridAfter_nanos {last interval t : LogicalTime} (hp : interval ≠ .zero) :
    (gridAfter last interval t).nanos =
      min (nextAfter last.nanos interval.nanos t.nanos) u64Max := by
  have hpos : interval.nanos ≠ 0 := by
    intro hzero
    exact hp (LogicalTime.ext hzero)
  unfold gridAfter
  rw [if_neg hpos]
  set k := (t.nanos - last.nanos) / interval.nanos + 1 with hk
  have hnext : nextAfter last.nanos interval.nanos t.nanos = last.nanos + k * interval.nanos := rfl
  have hkp : k ≤ k * interval.nanos := Nat.le_mul_of_pos_right k (by omega)
  rw [hnext, LogicalTime.clamp_nanos]
  by_cases hfit : last.nanos + k * interval.nanos ≤ u64Max
  · have hsome : checkedGridAfter last interval.nanos t = some (last.nanos + k * interval.nanos) := by
      unfold checkedGridAfter checkedAdd checkedMul
      rw [← hk, if_pos (by omega), Option.bind_eq_bind, Option.bind_some, if_pos (by omega),
        Option.bind_some, if_pos hfit]
    rw [hsome, Option.getD_some]
  · have hnone : checkedGridAfter last interval.nanos t = none := by
      unfold checkedGridAfter checkedAdd checkedMul
      rw [← hk]
      split_ifs with hk'
      · rw [Option.bind_eq_bind, Option.bind_some]
        split_ifs with hstep
        · rw [Option.bind_some, if_neg hfit]
        · rfl
      · rfl
    rw [hnone, Option.getD_none]
    omega

/-! ## Watching one timer -/

namespace TimedEvents

variable {s s' : TimedEvents} {id : SignalTimerId} {controlled : DetPid → Bool}

def pendingDeadline (s : TimedEvents) (id : SignalTimerId) : Option LogicalTime :=
  s.signalTimers[id]?.bind fun state =>
    if state.phase = .active then some state.deadline else none

def popTime : TimedOp → TimedOut → LogicalTime
  | .popIfBefore currentTime, _ => currentTime
  | .pop, .popped (some (time, _)) => time
  | _, _ => .zero

def expired (id : SignalTimerId) (out : TimedOut) : List LogicalTime :=
  match out.event with
  | some (time, evt) => if evt.isTimer id then [time] else []
  | none => []

/-- Note the deadline, unless it is the last one noted. -/
def takes (deadline : Option LogicalTime) (taken : List LogicalTime) : List LogicalTime :=
  match deadline with
  | none => taken
  | some deadline => if taken.head? = some deadline then taken else deadline :: taken

structure Watched where
  events : TimedEvents
  /-- The latest time at which events were popped. -/
  clock : LogicalTime
  /-- The times at which the timer expired, the latest first. -/
  expiries : List LogicalTime
  /-- The deadlines that the timer took, the latest first. -/
  taken : List LogicalTime

namespace Watched

def start (s : TimedEvents) (d : LogicalTime) : Watched := ⟨s, .zero, [], [d]⟩

/-- An operation, noted in the history of the timer. -/
def step (id : SignalTimerId) (w : Watched) (op : TimedOp) :
    Except TimedPanic (Watched × TimedOut) := do
  let (s, out) ← w.events.step op
  return (⟨s, max w.clock (popTime op out), expired id out ++ w.expiries,
    takes (s.pendingDeadline id) w.taken⟩, out)

end Watched

def Arms (id : SignalTimerId) (d p : LogicalTime) : TimedOp → Prop
  | .insertAlarm ns dp _ _ interval => id = .alarm dp ∧ ns = d ∧ interval = p
  | .insertPosixTimer ns dp _ timerId _ interval => id = .posix dp timerId ∧ ns = d ∧ interval = p
  | _ => False

def drops (id : SignalTimerId) : TimedOp → Bool
  | .insertAlarm _ dp _ _ _ => id = .alarm dp
  | .removeAlarm dp => id = .alarm dp
  | .insertPosixTimer _ dp _ timerId _ _ => id = .posix dp timerId
  | .removePosixTimer dp timerId => id = .posix dp timerId
  | .removePosixTimers dp => isPosixOf dp id
  | .removeProcessTimers dp => id.owner = some dp
  | _ => false

def settles (id : SignalTimerId) : TimedOp → Option LogicalTime
  | .signalTimerAfterFire id' firedAt _ _ => if id' = id then some firedAt else none
  | _ => none

/-- The operations that leave the timer armed. An after-fire step is taken after a
    pop of the timer, at the time of that pop. -/
def Keeps (controlled : DetPid → Bool) (id : SignalTimerId) (w : Watched) (op : TimedOp) : Prop :=
  Proper controlled w.events op ∧ drops id op = false ∧ ∀ f ∈ settles id op, f ∈ w.expiries

/-! ## What an operation does to the timer -/

/-- What an operation can make of the record of a timer that it leaves armed. -/
inductive Moves (id : SignalTimerId) (op : TimedOp) (out : TimedOut) (state : SignalTimerState) :
    SignalTimerState → Prop
  | keep : expired id out = [] → Moves id op out state state
  | fire (firedAt : LogicalTime) (inactiveWithCopy : Option Bool) (now : LogicalTime) :
      expired id out = [] → op = .signalTimerAfterFire id firedAt inactiveWithCopy now →
      Moves id op out state (afterFire firedAt inactiveWithCopy now state)
  | rearm (t : LogicalTime) : expired id out = [] → op = .signalTimerRearmAfter id t →
      Moves id op out state (rearmAfter t state)
  | copy (copy : Bool) : expired id out = [] → Moves id op out state (setCopy copy state)
  | expire : expired id out = [state.deadline] → state.deadline ≤ popTime op out →
      state.phase = .active →
      Moves id op out state { state with deadline := state.deadline + state.interval }

/-- An operation that leaves the timer armed moves its record in one of these ways. -/
theorem Stepped.moves {op : TimedOp} {out : TimedOut} {state : SignalTimerState}
    (h : Stepped controlled s op s' out) (hs : Sound controlled s) (hdrops : drops id op = false)
    (hst : s.signalTimers[id]? = some state) (hp : state.interval ≠ .zero) :
    ∃ state', s'.signalTimers[id]? = some state' ∧ Moves id op out state state' := by
  obtain ⟨hid, hleg⟩ := hs.legacy_of_record hst
  have hrec := h.record id
  rw [hst] at hrec
  cases hevt : out.event with
  | some event =>
    obtain ⟨time, evt⟩ := event
    obtain ⟨hpend, hop⟩ := h.popped time evt hevt
    -- Only a pop returns an event.
    have hout : out = .popped (some (time, evt)) := by
      cases out <;> simp_all [TimedOut.event]
    have hrecur : recordAfter id op out (some state) =
        if evt.isTimer id = true then (some state).bind recurred else some state := by
      rcases hop with ⟨currentTime, rfl, -⟩ | rfl
      · rw [hout]
        rfl
      · rw [hout]
        rfl
    have htime : time ≤ popTime op out := by
      rcases hop with ⟨currentTime, rfl, hle⟩ | rfl
      · exact hle
      · rw [hout]
        exact le_rfl
    rw [hrecur] at hrec
    cases htimer : evt.isTimer id with
    | false =>
      rw [htimer, if_neg Bool.false_ne_true] at hrec
      refine ⟨state, hrec, .keep ?_⟩
      unfold expired
      rw [hevt]
      simp [htimer]
    | true =>
      rw [htimer, if_pos rfl, Option.bind_some] at hrec
      obtain ⟨target, sig, rfl⟩ := eq_signalEvt_of_isTimer htimer
      rcases (hs.signal id time target sig hid).mp hpend with
        ⟨state', hst', hph, rfl, -⟩ | ⟨pid, hpid, hdl, -⟩
      · rw [hst] at hst'
        cases hst'
        unfold recurred at hrec
        rw [if_neg hp] at hrec
        refine ⟨_, hrec, .expire ?_ htime hph⟩
        unfold expired
        rw [hevt]
        simp [htimer]
      · rw [hs.real pid (hleg pid hpid)] at hdl
        cases hdl
  | none =>
    have hquiet : expired id out = [] := by
      unfold expired
      rw [hevt]
    have hkeep : recordAfter id op out (some state) = some state → ∃ state',
        s'.signalTimers[id]? = some state' ∧ Moves id op out state state' := by
      intro heq
      rw [heq] at hrec
      exact ⟨state, hrec, .keep hquiet⟩
    have hpop : ∀ event, out = .popped event → event = none := by
      rintro event rfl
      exact hevt
    cases op with
    | insert | insertControlledRealTimerDeadline | removeControlledRealTimerDeadline
    | insertChildExit | remove => exact hkeep rfl
    | insertAlarm | removeAlarm | insertPosixTimer | removePosixTimer | removeProcessTimers =>
      exact hkeep (if_neg (of_decide_eq_false hdrops))
    | removePosixTimers dp => exact hkeep (if_neg (Bool.not_eq_true _ ▸ hdrops))
    | popIfBefore | pop =>
      cases out with
      | popped event =>
        obtain rfl := hpop event rfl
        exact hkeep rfl
      | unit | previous | rearmed => exact hkeep rfl
    | signalTimerAfterFire id' firedAt inactiveWithCopy now =>
      by_cases heq : id = id'
      · subst heq
        refine ⟨_, hrec.trans (if_pos rfl), .fire firedAt inactiveWithCopy now hquiet rfl⟩
      · exact hkeep (if_neg heq)
    | signalTimerRearmAfter id' t =>
      by_cases heq : id = id'
      · subst heq
        exact ⟨_, hrec.trans (if_pos rfl), .rearm t hquiet rfl⟩
      · exact hkeep (if_neg heq)
    | alarmSetCopy dp copy =>
      by_cases heq : id = .alarm dp
      · exact ⟨_, hrec.trans (if_pos heq), .copy copy hquiet⟩
      · exact hkeep (if_neg heq)

/-! ## The invariant -/

section Takes

variable {deadline x : LogicalTime} {taken : List LogicalTime}

theorem mem_takes : x ∈ takes (some deadline) taken ↔ x = deadline ∨ x ∈ taken := by
  unfold takes
  dsimp only
  split_ifs with hhead
  · have hmem : deadline ∈ taken := mem_of_head? hhead
    constructor
    · exact .inr
    · rintro (rfl | hx)
      · exact hmem
      · exact hx
  · exact mem_cons

theorem head?_takes (deadline : LogicalTime) (taken : List LogicalTime) :
    (takes (some deadline) taken).head? = some deadline := by
  unfold takes
  dsimp only
  split_ifs with hhead
  · exact hhead
  · rfl

theorem pairwise_takes (hsort : taken.Pairwise (· > ·)) (hge : ∀ x ∈ taken, x ≤ deadline) :
    (takes (some deadline) taken).Pairwise (· > ·) := by
  unfold takes
  dsimp only
  split_ifs with hhead
  · exact hsort
  · refine pairwise_cons.mpr ⟨?_, hsort⟩
    intro x hx
    refine lt_of_le_of_ne (hge x hx) ?_
    rintro rfl
    -- Equal to the new deadline and not first, it would be below the first.
    cases taken with
    | nil => cases hx
    | cons y ys =>
      rcases mem_cons.mp hx with rfl | hys
      · exact hhead rfl
      · have hgt := (pairwise_cons.mp hsort).1 x hys
        exact absurd (hge y mem_cons_self) (not_le.mpr hgt)

end Takes

def Behind (expiries : List LogicalTime) (deadline : LogicalTime) : Prop :=
  ∀ e ∈ expiries, e < deadline ∨ deadline = .max

structure Cadence (d p : LogicalTime) (w : Watched) (state : SignalTimerState) : Prop where
  interval : state.interval = p
  grid : ∀ x ∈ w.taken, OnGrid u64Max d.nanos p.nanos x.nanos
  sorted : w.taken.Pairwise (· > ·)
  expiries : ∀ e ∈ w.expiries, e ∈ w.taken ∧ e ≤ w.clock
  spaced : w.expiries.Pairwise fun later earlier => earlier < later ∨ later = .max
  active : state.phase = .active →
    w.taken.head? = some state.deadline ∧ Behind w.expiries state.deadline
  inactive : state.phase ≠ .active → state.deadline ∈ w.expiries ∧
    (∀ x ∈ w.taken, x ≤ state.deadline + p) ∧ Behind w.expiries (state.deadline + p)

theorem Behind.mono {expiries : List LogicalTime} {deadline deadline' : LogicalTime}
    (h : Behind expiries deadline) (hle : deadline ≤ deadline') : Behind expiries deadline' := by
  intro e he
  rcases h e he with hlt | rfl
  · exact .inl (hlt.trans_le hle)
  · exact .inr (le_antisymm deadline'.le_max hle)

/-- A step of one period goes ahead, unless time has run out. -/
theorem lt_add_or_max {p : LogicalTime} (hp : p ≠ .zero) (x : LogicalTime) : x < x + p ∨ x + p = .max := by
  have hpos : p.nanos ≠ 0 := fun hzero => hp (LogicalTime.ext hzero)
  by_cases hfit : x.nanos + p.nanos ≤ u64Max
  · left
    rw [LogicalTime.lt_def, LogicalTime.add_nanos]
    omega
  · right
    apply LogicalTime.ext
    rw [LogicalTime.add_nanos, LogicalTime.max_nanos]
    omega

theorem add_le_gridAfter {p : LogicalTime} (hp : p ≠ .zero) (last t : LogicalTime) :
    last + p ≤ gridAfter last p t := by
  have hnext := add_le_nextAfter last.nanos p.nanos t.nanos
  rw [LogicalTime.le_def, LogicalTime.add_nanos, gridAfter_nanos hp]
  omega

namespace Cadence

variable {d p : LogicalTime} {w w' : Watched} {state state' : SignalTimerState}
variable {op : TimedOp} {out : TimedOut}

section

variable (h : Cadence d p w state)
include h

/-- Every deadline taken is at most the first of the list. -/
theorem le_head (hph : state.phase = .active) : ∀ x ∈ w.taken, x ≤ state.deadline := by
  have hsort := h.sorted
  have hhead := (h.active hph).1
  cases htak : w.taken with
  | nil =>
    intro x hx
    cases hx
  | cons =>
    rw [htak] at hsort hhead
    cases hhead
    intro x hx
    rcases mem_cons.mp hx with rfl | hys
    · exact le_rfl
    · exact le_of_lt ((pairwise_cons.mp hsort).1 x hys)

/-- The timer is or becomes active with a deadline that is not before any other. -/
theorem advance (hivl : state'.interval = p)
    (hph : state'.phase = .active) (hclk : w.clock ≤ w'.clock)
    (hexp : w'.expiries = w.expiries) (htak : w'.taken = takes (some state'.deadline) w.taken)
    (hgrid : OnGrid u64Max d.nanos p.nanos state'.deadline.nanos)
    (hge : ∀ x ∈ w.taken, x ≤ state'.deadline) (hbhd : Behind w.expiries state'.deadline) :
    Cadence d p w' state' := by
  refine ⟨hivl, ?_, ?_, ?_, ?_, ?_, fun hne => absurd hph hne⟩
  · intro x hx
    rw [htak, mem_takes] at hx
    rcases hx with rfl | hx
    · exact hgrid
    · exact h.grid x hx
  · rw [htak]
    exact pairwise_takes h.sorted hge
  · intro e he
    rw [hexp] at he
    obtain ⟨htak', hle⟩ := h.expiries e he
    exact ⟨by rw [htak, mem_takes]; exact .inr htak', hle.trans hclk⟩
  · rw [hexp]
    exact h.spaced
  · intro _
    rw [htak, hexp]
    exact ⟨head?_takes _ _, hbhd⟩

/-- The timer is or becomes inactive, at one of its expiries. -/
theorem idle (hivl : state'.interval = p) (hph : state'.phase ≠ .active) (hclk : w.clock ≤ w'.clock)
    (hexp : w'.expiries = w.expiries) (htak : w'.taken = w.taken)
    (hlast : state'.deadline ∈ w.expiries) (hge : ∀ x ∈ w.taken, x ≤ state'.deadline + p)
    (hbhd : Behind w.expiries (state'.deadline + p)) : Cadence d p w' state' := by
  refine ⟨hivl, ?_, ?_, ?_, ?_, fun heq => absurd heq hph, ?_⟩
  · rw [htak]
    exact h.grid
  · rw [htak]
    exact h.sorted
  · intro e he
    rw [hexp] at he
    rw [htak]
    exact ⟨(h.expiries e he).1, (h.expiries e he).2.trans hclk⟩
  · rw [hexp]
    exact h.spaced
  · intro _
    rw [hexp, htak]
    exact ⟨hlast, hge, hbhd⟩

theorem keep (hclk : w.clock ≤ w'.clock) (hexp : w'.expiries = w.expiries)
    (htak : w'.taken = takes (if state.phase = .active then some state.deadline else none) w.taken) :
    Cadence d p w' state := by
  by_cases hph : state.phase = .active
  · rw [if_pos hph] at htak
    obtain ⟨hhead, hbhd⟩ := h.active hph
    have hgrid := h.grid _ (mem_of_head? hhead)
    exact h.advance h.interval hph hclk hexp htak hgrid (h.le_head hph) hbhd
  · rw [if_neg hph] at htak
    obtain ⟨hlast, hge, hbhd⟩ := h.inactive hph
    exact h.idle h.interval hph hclk hexp htak hlast hge hbhd

/-- The timer expires and recurs one period later. -/
theorem expire (hp : p ≠ .zero) (hph : state.phase = .active)
    (hivl : state'.interval = p) (hph' : state'.phase = .active)
    (hdl : state'.deadline = state.deadline + p) (hclk : max w.clock state.deadline ≤ w'.clock)
    (hexp : w'.expiries = state.deadline :: w.expiries)
    (htak : w'.taken = takes (some state'.deadline) w.taken) : Cadence d p w' state' := by
  obtain ⟨hhead, hbhd⟩ := h.active hph
  have hmem : state.deadline ∈ w.taken := mem_of_head? hhead
  have hstep : state.deadline ≤ state'.deadline := by
    rw [hdl]
    rcases lt_add_or_max hp state.deadline with hlt | hmax
    · exact le_of_lt hlt
    · rw [hmax]
      exact LogicalTime.le_max _
  refine ⟨hivl, ?_, ?_, ?_, ?_, ?_, fun hne => absurd hph' hne⟩
  · intro x hx
    rw [htak, mem_takes] at hx
    rcases hx with rfl | hx
    · rw [hdl]
      exact (h.grid _ hmem).next
    · exact h.grid x hx
  · rw [htak]
    exact pairwise_takes h.sorted fun x hx => (h.le_head hph x hx).trans hstep
  · intro e he
    rw [htak, mem_takes]
    rw [hexp] at he
    rcases mem_cons.mp he with rfl | he
    · exact ⟨.inr hmem, (le_max_right _ _).trans hclk⟩
    · obtain ⟨htak', hle⟩ := h.expiries e he
      exact ⟨.inr htak', hle.trans ((le_max_left _ _).trans hclk)⟩
  · rw [hexp]
    exact pairwise_cons.mpr ⟨hbhd, h.spaced⟩
  · intro _
    rw [htak, hexp]
    refine ⟨head?_takes _ _, ?_⟩
    intro e he
    rcases mem_cons.mp he with rfl | he
    · rw [hdl]
      exact lt_add_or_max hp _
    · exact hbhd.mono hstep e he

theorem onGrid_gridAfter (hp : p ≠ .zero) {e : LogicalTime}
    (he : e ∈ w.expiries) (t : LogicalTime) :
    OnGrid u64Max d.nanos p.nanos (gridAfter e p t).nanos := by
  rw [gridAfter_nanos hp]
  exact (h.grid e (h.expiries e he).1).nextAfter t.nanos

theorem moves (hp : p ≠ .zero) (hmoves : Moves id op out state state')
    (hsett : ∀ f ∈ settles id op, f ∈ w.expiries) (hclk : w'.clock = max w.clock (popTime op out))
    (hexp : w'.expiries = expired id out ++ w.expiries) (htak : w'.taken =
      takes (if state'.phase = .active then some state'.deadline else none) w.taken) :
    Cadence d p w' state' := by
  have hlat : w.clock ≤ w'.clock := by
    rw [hclk]
    exact le_max_left _ _
  cases hmoves with
  | keep hquiet =>
    rw [hquiet, nil_append] at hexp
    exact h.keep hlat hexp htak
  | expire hexpi htime hph =>
    rw [hexpi, singleton_append] at hexp
    rw [if_pos hph] at htak
    refine h.expire hp hph h.interval hph ?_ ?_ hexp htak
    · rw [h.interval]
    rw [hclk]
    exact max_le_max le_rfl htime
  | copy copy hquiet =>
    rw [hquiet, nil_append] at hexp
    unfold setCopy at htak ⊢
    cases hph : state.phase with
    | active =>
      rw [hph] at htak
      exact h.keep hlat hexp htak
    | inactive old =>
      rw [hph] at htak
      have hinac : state.phase ≠ .active := by
        rw [hph]
        nofun
      obtain ⟨hlast, hge, hbhd⟩ := h.inactive hinac
      exact h.idle h.interval nofun hlat hexp htak hlast hge hbhd
  | rearm t hquiet hop =>
    rw [hquiet, nil_append] at hexp
    unfold rearmAfter at htak ⊢
    cases hph : state.phase with
    | active =>
      rw [hph] at htak
      exact h.keep hlat hexp htak
    | inactive old =>
      rw [hph] at htak
      have hinac : state.phase ≠ .active := by
        rw [hph]
        nofun
      obtain ⟨hlast, hge, hbhd⟩ := h.inactive hinac
      rw [if_pos rfl, h.interval] at htak
      rw [h.interval]
      have hnext := add_le_gridAfter hp state.deadline t
      exact h.advance rfl rfl hlat hexp htak (h.onGrid_gridAfter hp hlast t)
        (fun x hx => (hge x hx).trans hnext) (hbhd.mono hnext)
  | fire firedAt inactiveWithCopy now hquiet hop =>
    rw [hquiet, nil_append] at hexp
    unfold afterFire at htak ⊢
    by_cases hskip : state.phase ≠ .active ∨ state.interval = .zero ∨
        state.deadline ≠ firedAt + state.interval
    · rw [if_pos hskip] at htak ⊢
      exact h.keep hlat hexp htak
    · rw [if_neg hskip] at htak ⊢
      push Not at hskip
      obtain ⟨hph, -, hdl⟩ := hskip
      rw [h.interval] at hdl
      have hfired : firedAt ∈ w.expiries := by
        apply hsett
        rw [hop]
        simp [settles]
      have hge := h.le_head hph
      have hbhd := (h.active hph).2
      rw [hdl] at hge hbhd
      cases inactiveWithCopy with
      | some copy =>
        exact h.idle h.interval nofun hlat hexp htak hfired hge hbhd
      | none =>
        rw [if_pos hph, h.interval] at htak
        rw [h.interval]
        have hnext := add_le_gridAfter hp firedAt now
        exact h.advance rfl hph hlat hexp htak (h.onGrid_gridAfter hp hfired now)
          (fun x hx => (hge x hx).trans hnext) (hbhd.mono hnext)

end

end Cadence

/-! ## Runs -/

variable {d p t : LogicalTime} {w w' : Watched} {op : TimedOp} {out : TimedOut}

/-- `next` is the least point after `t` of the grid `d + k * p`, saturated. -/
def NextPoint (d p t next : LogicalTime) : Prop :=
  ∃ x, IsLeast {x | (∃ k, x = d.nanos + k * p.nanos) ∧ t.nanos < x} x ∧ next.nanos = min x u64Max

theorem Cadence.nextPoint {state : SignalTimerState} (h : Cadence d p w state) (hp : p ≠ .zero)
    {e : LogicalTime} (he : e ∈ w.expiries) (t : LogicalTime) :
    NextPoint d p (max t e) (gridAfter e p t) := by
  have hpos : 0 < p.nanos := Nat.pos_of_ne_zero fun hzero => hp (LogicalTime.ext hzero)
  have hnext : nextAfter e.nanos p.nanos t.nanos = nextAfter e.nanos p.nanos (max t e).nanos := by
    rcases le_total t e with hle | hle
    · have hsub : t.nanos - e.nanos = 0 := Nat.sub_eq_zero_of_le hle
      rw [max_eq_right hle, nextAfter, nextAfter, hsub, Nat.sub_self]
    · rw [max_eq_left hle]
  unfold NextPoint
  rw [gridAfter_nanos hp, hnext]
  exact (h.grid e (h.expiries e he).1).isLeast_nextAfter hpos d.nanos_le (le_max_right t e)
    (max t e).nanos_le

theorem pendingDeadline_eq {state : SignalTimerState} (hst : s.signalTimers[id]? = some state) :
    s.pendingDeadline id = if state.phase = .active then some state.deadline else none := by
  unfold pendingDeadline
  rw [hst, Option.bind_some]

theorem start_cadence (hs : Sound controlled s) (hproper : Proper controlled s op)
    (harms : Arms id d p op) (harmed : s.step op = .ok (s', out)) :
    Sound controlled s' ∧
      ∃ state, s'.signalTimers[id]? = some state ∧ Cadence d p (.start s' d) state := by
  obtain ⟨s₁, out₁, hok, hste⟩ := step_spec hs hproper
  rw [harmed] at hok
  cases hok
  have hcad : ∀ target sig, Cadence d p (.start s' d) ⟨d, p, .active, target, sig⟩ := by
    intro target sig
    refine ⟨rfl, ?_, pairwise_singleton _ _, ?_, .nil, ?_, fun hne => absurd rfl hne⟩
    · intro x hx
      rw [mem_singleton.mp hx]
      exact onGrid_start d.nanos_le p.nanos
    · intro e he
      cases he
    · intro _
      refine ⟨rfl, ?_⟩
      intro e he
      cases he
  refine ⟨hste.sound, ?_⟩
  have hrec := hste.record id
  cases op with
  | insertAlarm | insertPosixTimer =>
    obtain ⟨rfl, rfl, rfl⟩ := harms
    exact ⟨_, hrec.trans (if_pos rfl), hcad _ _⟩
  | _ => cases harms

theorem step_cadence (hp : p ≠ .zero) (hs : Sound controlled w.events)
    (hcad : ∃ state, w.events.signalTimers[id]? = some state ∧ Cadence d p w state)
    (hkeeps : Keeps controlled id w op) (hstep : w.step id op = .ok (w', out)) :
    Sound controlled w'.events ∧
      ∃ state, w'.events.signalTimers[id]? = some state ∧ Cadence d p w' state := by
  obtain ⟨hproper, hdrops, hsett⟩ := hkeeps
  obtain ⟨state, hst, hcad⟩ := hcad
  obtain ⟨s', out', hok, hste⟩ := step_spec hs hproper
  unfold Watched.step at hstep
  rw [hok] at hstep
  cases hstep
  have hivl : state.interval ≠ .zero := by
    rw [hcad.interval]
    exact hp
  obtain ⟨state', hst', hmoves⟩ := hste.moves hs hdrops hst hivl
  refine ⟨hste.sound, state', hst', hcad.moves hp hmoves hsett rfl rfl ?_⟩
  rw [pendingDeadline_eq hst']

theorem run_cadence (hp : p ≠ .zero) (hs : Sound controlled s)
    (hcad : ∃ state, s.signalTimers[id]? = some state ∧ Cadence d p (.start s d) state)
    (hrun : Reaches (Watched.step id) (Keeps controlled id) (.start s d) w) :
    Sound controlled w.events ∧
      ∃ state, w.events.signalTimers[id]? = some state ∧ Cadence d p w state := by
  refine hrun.invariant (fun w => Sound controlled w.events ∧
    ∃ state, w.events.signalTimers[id]? = some state ∧ Cadence d p w state) ⟨hs, hcad⟩ ?_
  intro w op w' out hw hkeeps hstep
  exact step_cadence hp hw.1 hw.2 hkeeps hstep

instance (controlled : DetPid → Bool) (id : SignalTimerId) (w : Watched) (op : TimedOp) :
    Decidable (Keeps controlled id w op) :=
  inferInstanceAs (Decidable (_ ∧ _ ∧ _))

/-- **A periodic timer stays on its grid.** It is armed at `d` with a nonzero
    interval `p`, in any state that the timed events reach; then any operations
    follow that do not replace or remove it, where an after-fire step names an
    expiry of the timer. Every deadline that it takes is a point of the grid
    `d + k * p` or the end of time, and each is later than those before it. Each
    expiry is at one of these deadlines, later than the expiries before it unless
    time has run out, and the deadline that the timer waits for is later than all
    of them. A re-arm, and an after-fire step that forwards the timer, pick the least
    grid point after the time given and the expiry they go on from, whichever is later.
    At most one expiration is pending, and none while the timer is inactive. -/
theorem periodic_timer_grid (controlled : DetPid → Bool) (s s₁ : TimedEvents) (op : TimedOp)
    (out : TimedOut) (id : SignalTimerId) (d p : LogicalTime) (w : Watched)
    (hreach : Reaches step (Proper controlled) new s) (hproper : Proper controlled s op)
    (harms : Arms id d p op) (hp : p ≠ .zero) (harmed : s.step op = .ok (s₁, out))
    (hrun : Reaches (Watched.step id) (Keeps controlled id) (.start s₁ d) w) :
    ∃ state, w.events.signalTimers[id]? = some state ∧
      (∀ x ∈ w.taken, ∃ k, x.nanos = min (d.nanos + k * p.nanos) u64Max) ∧
      w.taken.Pairwise (· > ·) ∧
      (∀ e ∈ w.expiries, e ∈ w.taken ∧ e ≤ w.clock) ∧
      (w.expiries.Pairwise fun later earlier => earlier < later ∨ later = .max) ∧
      (state.phase = .active → state.deadline ∈ w.taken ∧
        (∀ e ∈ w.expiries, e < state.deadline ∨ state.deadline = .max) ∧
        w.events.expirations id = {(state.deadline, .signalEvt id state.target state.sig)} ∧
        ∀ firedAt now, firedAt ∈ w.expiries → state.deadline = firedAt + p →
          ∃ s' next, w.events.step (.signalTimerAfterFire id firedAt none now) = .ok (s', .unit) ∧
            s'.pendingDeadline id = some next ∧ NextPoint d p (max now firedAt) next) ∧
      (state.phase ≠ .active → w.events.expirations id = ∅ ∧ state.deadline ∈ w.expiries ∧
        (∀ e ∈ w.expiries, e < state.deadline + p ∨ state.deadline + p = .max) ∧
        ∀ t, ∃ s' next,
          w.events.step (.signalTimerRearmAfter id t) = .ok (s', .rearmed (some next)) ∧
            s'.pendingDeadline id = some next ∧ NextPoint d p (max t state.deadline) next) := by
  obtain ⟨hs₁, hsta⟩ := start_cadence (reaches_sound hreach) hproper harms harmed
  obtain ⟨hs, state, hst, hcad⟩ := run_cadence hp hs₁ hsta hrun
  obtain ⟨hid, hleg⟩ := hs.legacy_of_record hst
  refine ⟨state, hst, hcad.grid, hcad.sorted, hcad.expiries, hcad.spaced, ?_, ?_⟩
  · intro hph
    obtain ⟨hhead, hbhd⟩ := hcad.active hph
    refine ⟨mem_of_head? hhead, hbhd,
      hs.expirations_eq hid (.inl ⟨state, hst, hph, rfl, rfl, rfl⟩), ?_⟩
    intro firedAt now hfired hdl
    obtain ⟨s', hok, hrepl⟩ := signalTimerAfterFire_spec hs hst firedAt none now
    have hfwd : afterFire firedAt none now state =
        { state with deadline := gridAfter firedAt state.interval now } := by
      unfold afterFire
      rw [if_neg]
      rw [hcad.interval, hph, hdl]
      simp [hp]
    have hst' := hrepl.timers id
    rw [if_pos rfl, hfwd] at hst'
    refine ⟨s', gridAfter firedAt p now, map_eq_ok.mpr ⟨s', hok, rfl⟩, ?_,
      hcad.nextPoint hp hfired now⟩
    rw [pendingDeadline_eq hst', if_pos hph, hcad.interval]
  · intro hph
    obtain ⟨hlast, -, hbhd⟩ := hcad.inactive hph
    refine ⟨hs.expirations_inactive hst hph, hlast, hbhd, ?_⟩
    intro t
    obtain ⟨hrepl, hrear⟩ := signalTimerRearmAfter_spec hs hst t
    have hrest : rearmAfter t state =
        { state with deadline := gridAfter state.deadline state.interval t, phase := .active } := by
      unfold rearmAfter
      cases hinac : state.phase with
      | active => exact absurd hinac hph
      | inactive copy => rfl
    have hst' := hrepl.timers id
    rw [if_pos rfl, hrest] at hst'
    rw [if_neg hph, hrest, hcad.interval] at hrear
    refine ⟨(w.events.signalTimerRearmAfter id t).1, gridAfter state.deadline p t, ?_, ?_,
      hcad.nextPoint hp hlast t⟩
    · rw [← hrear]
      rfl
    · rw [pendingDeadline_eq hst', if_pos rfl, hcad.interval]

def armPosix : TimedOp :=
  .insertPosixTimer (.clamp 4) 1 (.thread 1) 7 (.send .sigusr1) (.clamp 2)

def expiredOnce : List TimedOp :=
  [.popIfBefore (.clamp 5), .signalTimerAfterFire (.posix 1 7) (.clamp 4) (some true) (.clamp 5)]

theorem periodic_timer_grid_expiredOnce : ∃ (s₁ : TimedEvents) (w : Watched),
    new.step armPosix = .ok (s₁, .unit) ∧
    Reaches (Watched.step (.posix 1 7)) (Keeps (fun _ => false) (.posix 1 7)) (.start s₁ (.clamp 4)) w ∧
    w.expiries = [.clamp 4] ∧
    ∃ s' next, w.events.step (.signalTimerRearmAfter (.posix 1 7) (.clamp 9)) =
        .ok (s', .rearmed (some next)) ∧
      NextPoint (.clamp 4) (.clamp 2) (.clamp 9) next := by
  obtain ⟨s₁, hok⟩ : ∃ s₁, new.step armPosix = .ok (s₁, .unit) := ⟨_, rfl⟩
  obtain ⟨w, hrun, hexp, hinac⟩ := exists_reaches expiredOnce
    (fun w : Watched => w.expiries = [.clamp 4] ∧
      w.events.pendingDeadline (.posix 1 7) = none)
    (by cases hok; decide +kernel :
      (arrive (Watched.step (.posix 1 7)) (Keeps (fun _ => false) (.posix 1 7))
        (.start s₁ (.clamp 4)) expiredOnce).any _ = true)
  obtain ⟨state, hst, -, -, -, -, -, hrearm⟩ := periodic_timer_grid (fun _ => false) new s₁
    armPosix .unit (.posix 1 7) (.clamp 4) (.clamp 2) w .refl trivial ⟨rfl, rfl, rfl⟩ (by decide) hok hrun
  have hph : state.phase ≠ .active := by
    intro hacti
    rw [pendingDeadline_eq hst, if_pos hacti] at hinac
    cases hinac
  obtain ⟨-, hlast, -, hnext⟩ := hrearm hph
  obtain ⟨s', next, hstep, -, hpoint⟩ := hnext (.clamp 9)
  rw [hexp, mem_singleton] at hlast
  rw [hlast] at hpoint
  exact ⟨s₁, w, hok, hrun, hexp, s', next, hstep, hpoint⟩

end TimedEvents

end Hermit.Scheduler
