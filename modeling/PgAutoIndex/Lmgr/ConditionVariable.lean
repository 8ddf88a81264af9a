import Mathlib.Algebra.GroupWithZero.Nat
import Mathlib.Algebra.BigOperators.Group.Finset.Basic

/-!
# Condition variables

`condition_variable.c`, for any number of processes and of condition variables. Each step is what a
process does under the spinlock of one condition variable, or one operation on a latch, together
with what follows it on the process's own variables.

The processes run as their callers are meant to. A process waits by testing the predicate of a
condition variable around `ConditionVariableTimedSleep` and ends with
`ConditionVariableCancelSleep`; the call of `ConditionVariablePrepareToSleep` before the loop is
optional. Other processes make the predicate true and then call `ConditionVariableBroadcast`; and
anyone may call `ConditionVariableSignal` or `ConditionVariableBroadcast` at any time. Where
`ConditionVariableTimedSleep` checks for interrupts, a process may do any of this inside the
interrupt handler, so it has a stack of what it is doing; or it may be aborted, and then cancels its
sleep.

The clock is read from outside: the time that has passed since a sleep began comes with the step.
-/

namespace PgAutoIndex.Lmgr.ConditionVariable

open Function

/-! ## States -/

/-- Where a process is in a loop that waits for a predicate. -/
inductive LoopPc where
  /-- In `ConditionVariablePrepareToSleep`, before another sleep is cancelled. -/
  | prepare
  /-- In `ConditionVariablePrepareToSleep`, before the process is added to the wait queue. -/
  | push
  /-- Before the predicate is tested. -/
  | test
  /-- At the entry of `ConditionVariableTimedSleep`. -/
  | sleep
  /-- In `WaitLatch`. -/
  | wait
  /-- Before `ResetLatch`. -/
  | reset
  /-- Before the wait list is examined. -/
  | check
  /-- In `CHECK_FOR_INTERRUPTS`. -/
  | interrupts (done : Bool)
  /-- `ConditionVariableTimedSleep` has returned true. -/
  | timedOut
  /-- Before the `ConditionVariableCancelSleep` that ends the wait. -/
  | cancel
  deriving DecidableEq, Repr

/-- Where a process is in `ConditionVariableSignal`. -/
inductive SignalPc (P : Type) where
  | pop
  | setLatch (proc : Option P)
  deriving DecidableEq, Repr

/-- Where a process is in `ConditionVariableBroadcast`. -/
inductive BroadcastPc (P : Type) where
  /-- Before a prepared sleep of its own is cancelled. -/
  | cancel
  /-- Before the queue is inspected. -/
  | inspect
  /-- Before the first waiter is awakened. -/
  | first (proc : Option P) (haveSentinel : Bool)
  /-- At the top of the loop, with `have_sentinel` true. -/
  | again
  /-- In the loop, before the latch is set. -/
  | next (proc : Option P) (haveSentinel : Bool)
  /-- Before it returns. -/
  | finished
  deriving DecidableEq, Repr

/-- What a process is doing. -/
inductive Frame (C P : Type) where
  /-- Wait for the predicate of `cv`, with the timeout of each sleep in milliseconds, or -1. -/
  | loop (cv : C) (timeout : ℤ) (pc : LoopPc)
  | signal (cv : C) (pc : SignalPc P)
  | broadcast (cv : C) (pc : BroadcastPc P)
  /-- In the abort of a transaction, before `ConditionVariableCancelSleep`. -/
  | cancelSleep
  deriving DecidableEq, Repr

/-- The condition variables, and what each process has: its `cvWaitLink`, of which only matters
whether it is in a list, its `cv_sleep_target`, its latch, and what it is doing, the innermost
first. -/
structure State (C P : Type) where
  wakeup : C → List P
  linked : P → Bool
  target : P → Option C
  latch : P → Bool
  /-- The predicate that the users of a condition variable wait for. -/
  pred : C → Bool
  stack : P → List (Frame C P)

/-- What a process may begin to do. -/
inductive Op (C : Type) where
  /-- Wait, with or without `ConditionVariablePrepareToSleep` before the loop. -/
  | wait (cv : C) (timeout : ℤ) (prepare : Bool)
  | signal (cv : C)
  | broadcast (cv : C)
  /-- Make the predicate true, and then call `ConditionVariableBroadcast`. -/
  | makeTrue (cv : C)
  deriving DecidableEq, Repr

/-- What can happen next. -/
inductive Label (C P : Type) where
  /-- A process that does nothing else, or that is in an interrupt handler, begins something. -/
  | start (p : P) (op : Op C)
  /-- A process takes its next step. -/
  | run (p : P)
  /-- `WaitLatch` times out. -/
  | timeout (p : P)
  /-- A process goes on after `CHECK_FOR_INTERRUPTS`, with the milliseconds since it began to sleep.
  -/
  | proceed (p : P) (elapsed : ℤ)
  /-- A process gives up waiting after a timeout. -/
  | giveUp (p : P)
  /-- An interrupt aborts what the process is doing. -/
  | abort (p : P)
  /-- The latch of a process is set for another reason. -/
  | setLatch (p : P)
  /-- A process that does nothing with condition variables resets its latch. -/
  | resetLatch (p : P)
  /-- The predicate becomes false. -/
  | falsify (cv : C)
  deriving DecidableEq, Repr

/-- The process that takes the step. -/
def Label.actor {C P : Type} : Label C P → Option P
  | .start p _ | .run p | .timeout p | .proceed p _ | .giveUp p | .abort p => some p
  | .setLatch _ | .resetLatch _ | .falsify _ => none

variable {C P : Type} [DecidableEq C] [DecidableEq P]

/-- What the process does from now on. -/
def State.goto (s : State C P) (p : P) (frames : List (Frame C P)) : State C P :=
  { s with stack := update s.stack p frames }

/-- `SetLatch`. -/
def State.setLatch (s : State C P) (p : P) : State C P := { s with latch := update s.latch p true }

/-! ## Lists of processes -/

/-- `proclist_push_tail`, which asserts that the process is in no list. -/
def proclistPushTail (cv : C) (p : P) (s : State C P) : Option (State C P) :=
  if s.linked p = true then none
  else some { s with
    wakeup := update s.wakeup cv (s.wakeup cv ++ [p])
    linked := update s.linked p true }

/-- `proclist_pop_head_node`, if the list is not empty. -/
def proclistPopHeadNode (cv : C) (s : State C P) : Option P × State C P :=
  match s.wakeup cv with
  | [] => (none, s)
  | p :: l => (some p, { s with wakeup := update s.wakeup cv l, linked := update s.linked p false })

/-- `proclist_delete`. -/
def proclistDelete (cv : C) (p : P) (s : State C P) : State C P :=
  { s with wakeup := update s.wakeup cv ((s.wakeup cv).erase p), linked := update s.linked p false }

/-! ## The functions of `condition_variable.c` -/

/-- `ConditionVariableCancelSleep`, with the result whether the process has been signaled.
`proclist_contains` only looks whether the process is in a list. -/
def conditionVariableCancelSleep (p : P) (s : State C P) : State C P × Bool :=
  match s.target p with
  | none => (s, false)
  | some cv =>
    if s.linked p = true then
      ({ proclistDelete cv p s with target := update s.target p none }, false)
    else ({ s with target := update s.target p none }, true)

/-- A step of a process that waits. -/
def runLoop (s : State C P) (p : P) (cv : C) (timeout : ℤ) (rest : List (Frame C P)) :
    LoopPc → Option (State C P)
  | .prepare => some ((conditionVariableCancelSleep p s).1.goto p (.loop cv timeout .push :: rest))
  | .push => do
    let s ← proclistPushTail cv p { s with target := update s.target p (some cv) }
    some (s.goto p (.loop cv timeout .test :: rest))
  | .test =>
    some (s.goto p (.loop cv timeout (if s.pred cv = true then .cancel else .sleep) :: rest))
  | .sleep =>
    some (s.goto p (.loop cv timeout (if s.target p = some cv then .wait else .prepare) :: rest))
  | .wait => if s.latch p = true then some (s.goto p (.loop cv timeout .reset :: rest)) else none
  | .reset =>
    some ({ s with latch := update s.latch p false }.goto p (.loop cv timeout .check :: rest))
  | .check =>
    if s.linked p = true then some (s.goto p (.loop cv timeout (.interrupts false) :: rest))
    else do
      let s ← proclistPushTail cv p s
      some (s.goto p (.loop cv timeout (.interrupts true) :: rest))
  | .interrupts _ => none
  | .timedOut => some (s.goto p (.loop cv timeout .test :: rest))
  | .cancel => some ((conditionVariableCancelSleep p s).1.goto p rest)

/-- `ConditionVariableSignal`. -/
def runSignal (s : State C P) (p : P) (cv : C) (rest : List (Frame C P)) : SignalPc P → State C P
  | .pop =>
    let (proc, s) := proclistPopHeadNode cv s
    s.goto p (.signal cv (.setLatch proc) :: rest)
  | .setLatch none => s.goto p rest
  | .setLatch (some proc) => (s.setLatch proc).goto p rest

/-- `ConditionVariableBroadcast`. -/
def runBroadcast (s : State C P) (p : P) (cv : C) (rest : List (Frame C P)) :
    BroadcastPc P → Option (State C P)
  | .cancel => some ((conditionVariableCancelSleep p s).1.goto p (.broadcast cv .inspect :: rest))
  | .inspect =>
    if s.linked p = true then none
    else
      let (proc, s) := proclistPopHeadNode cv s
      if s.wakeup cv = [] then some (s.goto p (.broadcast cv (.first proc false) :: rest))
      else do
        let s ← proclistPushTail cv p s
        some (s.goto p (.broadcast cv (.first proc true) :: rest))
  | .first proc haveSentinel =>
    let s := match proc with
      | none => s
      | some proc => s.setLatch proc
    some (s.goto p (.broadcast cv (if haveSentinel = true then .again else .finished) :: rest))
  | .again =>
    let (proc, s) := proclistPopHeadNode cv s
    some (s.goto p (.broadcast cv (.next proc (s.linked p)) :: rest))
  | .next proc haveSentinel =>
    let s := match proc with
      | none => s
      | some proc => if proc = p then s else s.setLatch proc
    some (s.goto p (.broadcast cv (if haveSentinel = true then .again else .finished) :: rest))
  | .finished => some (s.goto p rest)

/-- The next step of a process. -/
def run (s : State C P) (p : P) : Option (State C P) :=
  match s.stack p with
  | [] => none
  | .loop cv timeout pc :: rest => runLoop s p cv timeout rest pc
  | .signal cv pc :: rest => some (runSignal s p cv rest pc)
  | .broadcast cv pc :: rest => runBroadcast s p cv rest pc
  | .cancelSleep :: rest => some ((conditionVariableCancelSleep p s).1.goto p rest)

/-- A process can begin something when it does nothing, and in an interrupt handler. -/
def interruptible : List (Frame C P) → Bool
  | [] | .loop _ _ (.interrupts _) :: _ => true
  | _ => false

/-- What a process has to do first. -/
def Op.frame : Op C → Frame C P
  | .wait cv timeout prepare => .loop cv timeout (if prepare = true then .prepare else .test)
  | .signal cv => .signal cv .pop
  | .broadcast cv | .makeTrue cv => .broadcast cv .cancel

/-- A process calls a function. -/
def start (s : State C P) (p : P) (op : Op C) : State C P :=
  match op with
  | .makeTrue cv => { s with pred := update s.pred cv true }.goto p (op.frame :: s.stack p)
  | op => s.goto p (op.frame :: s.stack p)

/-- `ConditionVariableTimedSleep` after `CHECK_FOR_INTERRUPTS`. -/
def proceed (s : State C P) (p : P) (cv : C) (timeout : ℤ) (done : Bool) (elapsed : ℤ) : LoopPc :=
  if done = true ∨ s.target p ≠ some cv then .test
  else if 0 ≤ timeout ∧ timeout - elapsed ≤ 0 then .timedOut
  else .wait

/-- One step, if it can be taken. -/
def step (s : State C P) : Label C P → Option (State C P)
  | .start p op => if interruptible (s.stack p) = true then some (start s p op) else none
  | .run p => run s p
  | .timeout p =>
    match s.stack p with
    | .loop cv timeout .wait :: rest =>
      if 0 ≤ timeout then some (s.goto p (.loop cv timeout .reset :: rest)) else none
    | _ => none
  | .proceed p elapsed =>
    match s.stack p with
    | .loop cv timeout (.interrupts done) :: rest =>
      some (s.goto p (.loop cv timeout (proceed s p cv timeout done elapsed) :: rest))
    | _ => none
  | .giveUp p =>
    match s.stack p with
    | .loop cv timeout .timedOut :: rest => some (s.goto p (.loop cv timeout .cancel :: rest))
    | _ => none
  | .abort p =>
    match s.stack p with
    | .loop _ _ (.interrupts _) :: _ => some (s.goto p [.cancelSleep])
    | _ => none
  | .setLatch p => some (s.setLatch p)
  | .resetLatch p =>
    if s.stack p = [] then some { s with latch := update s.latch p false } else none
  | .falsify cv => some { s with pred := update s.pred cv false }

/-- `ConditionVariableInit`, while no process does anything. -/
def init (latch : P → Bool) (pred : C → Bool) : State C P where
  wakeup _ := []
  linked _ := false
  target _ := none
  latch := latch
  pred := pred
  stack _ := []

end PgAutoIndex.Lmgr.ConditionVariable
