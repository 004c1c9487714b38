import Hermit.Preemptions.Record

/-!
# The minimizer

`minimize_with` of `hermit-cli/src/bin/hermit/analyze/minimize.rs`: from a record whose run meets
the criteria it takes priority changes away, in batches off the end of a thread that it draws, and
runs a trial without them. Those whose loss a trial does not survive are critical.

A trial is a function on a state of its own, so that its answers may differ, and so is the draw
of a thread. An error of writing the trial record is one of the trial. The paths returned are the
number of the round that names them, and the progress messages are left out.
-/

namespace Hermit.Minimize

open Common Scheduler Preemptions PreemptionRecord

/-- An intervention: a time, and the priority from then on. -/
abbrev Preempt := LogicalTime × Priority

/-- What ends a minimization without a record. -/
inductive Stop (ε : Type*)
  /-- a failed `assert!` or `unwrap` -/
  | assertion
  /-- `sanity_preempts` -/
  | notIncreasing (time : LogicalTime)
  | duplicate (time : LogicalTime)
  /-- "produced corrupt preemption record" -/
  | corrupt (error : RecordError)
  | trial (error : ε)
  /-- `require_complete_record` -/
  | departed (event : ℕ)
  /-- `validate_combined_reserved_inputs` -/
  | reservedInput
  /-- "at least one run to match the criteria" -/
  | noMatch (trials : List (PreemptionRecord × Bool))

structure TrialStamp where
  pipeWakeLatency : Option ℕ := none
  signalStateCopy : Bool := false
  expiredWaitRunsChargedOnce : Bool := false
  capPreemptionCharge : Bool := false
  queuedSleepsRegisteredAtFirstPass : Bool := false
  rewriteExclusives : Option RewriteExclusives := none
  postCrashTimeslice : Option ℕ := none
  uncappedSlices : Option ℕ := none
  guestIds : Option GuestIds := none

def stampTrialRecord (stamp : TrialStamp) (record : PreemptionRecord) : PreemptionRecord :=
  let stamped := ({ record with
    pipeWakeLatency := stamp.pipeWakeLatency
    signalStateCopy := some stamp.signalStateCopy
    expiredWaitRunsChargedOnce := stamp.expiredWaitRunsChargedOnce
    capPreemptionCharge := stamp.capPreemptionCharge
    queuedSleepsRegisteredAtFirstPass := stamp.queuedSleepsRegisteredAtFirstPass
    postCrashTimeslice := stamp.postCrashTimeslice
    uncappedSlices := max record.uncappedSlices stamp.uncappedSlices } :
    PreemptionRecord).withRewriteExclusives stamp.rewriteExclusives
  match stamp.guestIds with
  | some ids => stamped.withGuestIds ids
  | none => stamped

/-- What a minimization is run with: the trial settings, the trial of a round, and the draw from
    `0..=n`. -/
structure Setup (σ ρ ε : Type*) where
  stamp : TrialStamp
  trialMatches : σ → ℕ → PreemptionRecord → Except ε (Bool × σ)
  randomRange : ρ → (n : ℕ) → Fin (n + 1) × ρ

/-- The variables of the loop, and the trials made so far, the last one first. -/
structure State (σ ρ : Type*) where
  round : ℕ
  remainingUnknown : OrdMap DetTid (List Preempt)
  criticalPreempts : OrdMap DetTid (List Preempt)
  remainingThreads : List DetTid
  batchSizes : OrdMap DetTid ℕ
  rng : ρ
  oracle : σ
  lastMatching : Option (PreemptionRecord × ℕ)
  trials : List (PreemptionRecord × Bool)

structure Minimized where
  record : PreemptionRecord
  round : ℕ
  critical : OrdMap DetTid (List Preempt)
  trials : List (PreemptionRecord × Bool)

variable {σ ρ ε : Type}

def sanityFrom : Option LogicalTime → List LogicalTime → List Preempt → Except (Stop ε) Unit
  | _, _, [] => .ok ()
  | last, seen, (time, prio) :: rest =>
    if last.any (time ≤ ·) then .error (.notIncreasing time)
    else if ¬ firstPriority ≤ prio ∨ ¬ prio ≤ lastPriority then .error .assertion
    else if time ∈ seen then .error (.duplicate time)
    else sanityFrom (some time) (time :: seen) rest

def sanityPreempts (vec : List Preempt) : Except (Stop ε) Unit := sanityFrom none [] vec

def unwrap {α : Type} : Option α → Except (Stop ε) α
  | some a => .ok a
  | none => .error .assertion

def assert (condition : Bool) : Except (Stop ε) Unit :=
  if condition then .ok () else .error .assertion

def swapRemove {α : Type} (xs : List α) (i : ℕ) : List α :=
  match xs.getLast? with
  | some last => (xs.set i last).dropLast
  | none => []

/-- `BTreeSet::insert` of a new element, in the order of times and then priorities. -/
def insertPreempt (preempt : Preempt) (set : List Preempt) : List Preempt :=
  set.orderedInsert (fun a b => toLex a ≤ toLex b) preempt

/-- The interventions of a trial: the unknown ones, and the critical ones after them. -/
def withCritical (remaining critical : OrdMap DetTid (List Preempt)) :
    OrdMap DetTid (List Preempt) :=
  remaining.map fun tid vec => vec ++ critical[tid]?.getD []

def stampedRecord (stamp : TrialStamp) (init record : PreemptionRecord) : PreemptionRecord :=
  stampTrialRecord stamp
    ((record.withGuestIds (init.guestIds.getD .namespace)).withReservedInput init.reservedInput)

/-- The check of a thread that has critical interventions. -/
def sanityWithCritical (critical : OrdMap DetTid (List Preempt)) (entry : DetTid × List Preempt) :
    Except (Stop ε) Unit :=
  match critical[entry.1]? with
  | some set => sanityPreempts (entry.2 ++ set)
  | none => .ok ()

def trialRecord (stamp : TrialStamp) (init : PreemptionRecord)
    (remaining critical : OrdMap DetTid (List Preempt)) : Except (Stop ε) PreemptionRecord := do
  remaining.toList.forM (sanityWithCritical critical)
  let record ← unwrap (fromVecs (withCritical remaining critical))
  let record := stampedRecord stamp init record
  record.validate.mapError .corrupt
  pure record

/-- The cut of a round off the thread at an index: the state without it, the thread, its
    batch and the cut. -/
def shave (state : State σ ρ) (selected : ℕ) :
    Except (Stop ε) (State σ ρ × DetTid × ℕ × List Preempt) := do
  let tid ← unwrap state.remainingThreads[selected]?
  let batch ← unwrap state.batchSizes[tid]?
  assert (0 < batch)
  let preempts ← unwrap state.remainingUnknown[tid]?
  assert (preempts ≠ [])
  let batch := min batch preempts.length
  let kept := preempts.take (preempts.length - batch)
  let shaved :=
    { state with
      batchSizes := state.batchSizes.insert tid batch
      remainingUnknown := state.remainingUnknown.insert tid kept
      remainingThreads :=
        if kept = [] then swapRemove state.remainingThreads selected
        else state.remainingThreads }
  pure (shaved, tid, batch, preempts.drop (preempts.length - batch))

/-- The state after a trial. -/
def State.tried (state : State σ ρ) (record : PreemptionRecord) (answer : Bool) (oracle : σ) :
    State σ ρ :=
  { state with oracle := oracle, trials := (record, answer) :: state.trials }

/-- The run matches. -/
def State.accept (state : State σ ρ) (tid : DetTid) (batch : ℕ) (record : PreemptionRecord) :
    State σ ρ :=
  { state with
    lastMatching := some (record, state.round)
    batchSizes := state.batchSizes.insert tid (batch + 1) }

/-- The run fails without a single intervention, which is critical. -/
def State.conclude (state : State σ ρ) (tid : DetTid) (cut : List Preempt) :
    Except (Stop ε) (State σ ρ) := do
  let critical ← unwrap cut.getLast?
  assert (cut.dropLast = [])
  let entry := state.criticalPreempts[tid]?.getD []
  assert (critical ∉ entry)
  pure { state with
    criticalPreempts := state.criticalPreempts.insert tid (insertPreempt critical entry) }

/-- The run fails without several interventions, which are put back. -/
def State.backtrack (state : State σ ρ) (tid : DetTid) (batch : ℕ) (cut : List Preempt) :
    Except (Stop ε) (State σ ρ) := do
  let preempts ← unwrap state.remainingUnknown[tid]?
  pure { state with
    batchSizes := state.batchSizes.insert tid (batch / 2)
    remainingUnknown := state.remainingUnknown.insert tid (preempts ++ cut)
    remainingThreads :=
      if tid ∈ state.remainingThreads then state.remainingThreads
      else state.remainingThreads ++ [tid] }

/-- The rest of a round, once a thread is drawn. -/
def playRound (setup : Setup σ ρ ε) (init : PreemptionRecord) (state : State σ ρ)
    (selected : ℕ) : Except (Stop ε) (State σ ρ) := do
  let (state, tid, batch, cut) ← shave state selected
  let record ← trialRecord setup.stamp init state.remainingUnknown state.criticalPreempts
  let (answer, oracle) ← (setup.trialMatches state.oracle state.round record).mapError .trial
  let state := state.tried record answer oracle
  if answer then pure (state.accept tid batch record)
  else if batch = 1 then state.conclude tid cut
  else state.backtrack tid batch cut

def minimizeLoop (setup : Setup σ ρ ε) (init : PreemptionRecord) :
    ℕ → State σ ρ → Option (Except (Stop ε) (State σ ρ))
  | 0, _ => none
  | fuel + 1, state =>
    match state.remainingThreads with
    | [] => some (.ok { state with round := state.round + 1 })
    | _ :: others =>
      let drawn := setup.randomRange state.rng others.length
      match playRound setup init
        { state with round := state.round + 1, rng := drawn.2 } drawn.1 with
      | .error stop => some (.error stop)
      | .ok next => minimizeLoop setup init fuel next

/-- What comes before the loop. -/
def startState (init : PreemptionRecord) (rng : ρ) (oracle : σ) : Except (Stop ε) (State σ ρ) := do
  match init.replayDepartedAt with
  | some event => throw (.departed event)
  | none =>
    if ¬ init.combinedReservedInputs init then throw .reservedInput
    else
      init.perThread.toList.forM fun entry => sanityPreempts (asVec entry.2)
      let remaining := init.perThread.map fun _ history => asVec history
      pure
        { round := 0
          remainingUnknown := remaining
          criticalPreempts := ∅
          remainingThreads := (remaining.toList.filter fun entry => 0 < entry.2.length).map Prod.fst
          batchSizes := remaining.map fun _ vec => max 1 (vec.length / 4)
          rng := rng
          oracle := oracle
          lastMatching := none
          trials := [] }

/-- What comes after the loop. -/
def finish (state : State σ ρ) : Except (Stop ε) Minimized :=
  match state.lastMatching with
  | none => .error (.noMatch state.trials)
  | some (record, round) => .ok
    { record := record
      round := round
      critical := state.criticalPreempts
      trials := state.trials }

/-- `minimize_with`, for at most so many rounds. -/
def minimizeWith (setup : Setup σ ρ ε) (init : PreemptionRecord) (rng : ρ) (oracle : σ)
    (fuel : ℕ) : Option (Except (Stop ε) Minimized) :=
  match startState init rng oracle with
  | .error stop => some (.error stop)
  | .ok state => (minimizeLoop setup init fuel state).map fun outcome => outcome.bind finish

end Hermit.Minimize
