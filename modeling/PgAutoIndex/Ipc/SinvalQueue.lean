import PgAutoIndex.Runs

/-!
# The shared invalidation queue as a step system

`sinvaladt.c`: backends insert messages into a circular buffer (`SIInsertDataEntries`), read them in
order, each at its own place (`SIGetDataEntries`), and discard what everybody has read
(`SICleanupQueue`). A writer holds `SInvalWriteLock`, a reader holds `SInvalReadLock` in shared
mode, so that readers run beside each other and beside one writer, and a cleanup holds both locks
exclusively.

A step is one access to memory that another process may see between two others: the copy of one
message into or out of the buffer, the update and the fetch of `maxMsgNum` under its spinlock, each
setting of a `hasMessages` flag, the unlocked test of that flag. What runs under exclusive locks
alone is one step: a cleanup, and the attachment and detachment of a backend. Where `SICleanupQueue`
releases both locks to send a signal, its caller has to come back for the write lock in a step of
its own.

Counters are integers. The state also records history that no step reads: the messages in the order
they were published, and for each backend where its current segment of that order starts and what it
has received of it.
-/

namespace PgAutoIndex.Ipc

open Function

/-- `MAXNUMMESSAGES`, the number of slots of the buffer. -/
def MAXNUMMESSAGES : ℕ := 4096

/-- `MSGNUMWRAPAROUND`, what a wrap-around takes off every counter. -/
def MSGNUMWRAPAROUND : ℤ := MAXNUMMESSAGES * 262144

/-- `CLEANUP_MIN`. -/
def CLEANUP_MIN : ℤ := MAXNUMMESSAGES / 2

/-- `CLEANUP_QUANTUM`. -/
def CLEANUP_QUANTUM : ℤ := MAXNUMMESSAGES / 16

/-- `SIG_THRESHOLD`. -/
def SIG_THRESHOLD : ℤ := MAXNUMMESSAGES / 2

/-- `WRITE_QUANTUM`, the largest group inserted under one hold of the write lock. -/
def WRITE_QUANTUM : ℕ := 64

/-- The slot of a message number. -/
def slot (n : ℤ) : Fin MAXNUMMESSAGES :=
  ⟨(n % MAXNUMMESSAGES).toNat, by
    have hpos : (0 : ℤ) < MAXNUMMESSAGES := by decide
    have hlt := Int.emod_lt_of_pos n hpos
    have hnonneg := Int.emod_nonneg n hpos.ne'
    omega⟩

/-- The fields of `ProcState` that the queue reads; `active` stands for a `procPid` other than 0. -/
structure ProcState where
  active : Bool
  nextMsgNum : ℤ
  resetState : Bool
  signaled : Bool
  hasMessages : Bool
  sendOnly : Bool
  deriving DecidableEq

/-- Where a process is, with its local variables. -/
inductive Pc (P M : Type) where
  /-- In none of the queue's functions. -/
  | idle
  /-- `SIInsertDataEntries` at its loop's head, with the messages left to insert. -/
  | insertLock (data : List M)
  /-- Holding the write lock, at the head of `for (;;)`, with the group to insert now. -/
  | insertCheck (group data : List M)
  /-- In `SICleanupQueue`, which has released the locks for a signal, before it takes the write lock
  again. -/
  | insertRelock (group data : List M)
  /-- Holding the write lock, with the messages of the group copied so far and those to copy. -/
  | insertWrite (done rest data : List M) (max : ℤ)
  /-- Holding the write lock, after the update of `maxMsgNum`, with the flags still to set. -/
  | insertFlags (todo : List P) (data : List M)
  /-- `SIGetDataEntries` before its unlocked test. -/
  | readTest (datasize : ℤ)
  /-- Before it takes the read lock. -/
  | readLock (datasize : ℤ)
  /-- Holding the read lock, before it clears `hasMessages`. Here and below `before` counts the
  messages published when the lock was taken. -/
  | readClear (datasize : ℤ) (before : ℕ)
  /-- Before it fetches `maxMsgNum`. -/
  | readMax (datasize : ℤ) (before : ℕ)
  /-- In the copying loop, with the messages copied so far. -/
  | readCopy (datasize : ℤ) (before : ℕ) (max : ℤ) (data : List M)
  /-- Returning: `none` is the result -1, and `some data` the result `data.length`. -/
  | readReturn (datasize : ℤ) (before : ℕ) (result : Option (List M))
  /-- `SICleanupQueue(false, 0)` before it takes both locks. -/
  | cleanupLock

/-- The process is in none of the queue's functions. -/
def Pc.isIdle {P M : Type} : Pc P M → Bool
  | idle => true
  | _ => false

/-- The process holds `SInvalWriteLock`. -/
def Pc.HoldsWrite {P M : Type} : Pc P M → Prop
  | insertCheck _ _ | insertWrite _ _ _ _ | insertFlags _ _ => True
  | _ => False

/-- The process holds `SInvalReadLock`, in shared mode. -/
def Pc.HoldsRead {P M : Type} : Pc P M → Prop
  | readClear _ _ | readMax _ _ | readCopy _ _ _ _ => True
  | _ => False

/-- The shared `SISeg`, the locks, the processes and the history. -/
structure State (P M : Type) where
  minMsgNum : ℤ
  maxMsgNum : ℤ
  nextThreshold : ℤ
  buffer : Fin MAXNUMMESSAGES → M
  /-- `pgprocnos[0 .. numProcs)`. -/
  pgprocnos : List P
  procState : P → ProcState
  /-- The holder of `SInvalWriteLock`. -/
  writeLock : Option P
  /-- The holders of `SInvalReadLock` in shared mode. -/
  readLock : List P
  pc : P → Pc P M
  /-- History: the messages in the order of their publication. -/
  log : List M
  /-- History: how many messages belong to groups whose insertion has ended. -/
  finished : ℕ
  /-- History: what wrap-arounds have taken off the counters. -/
  base : ℤ
  /-- History: how many messages were published when the backend attached or was last reset. -/
  since : P → ℕ
  /-- History: what the backend has received since then. -/
  received : P → List M

variable {P M : Type}

/-- `SharedInvalShmemInit`: an empty queue, whose slots hold anything, and no backend. -/
def State.init (buffer : Fin MAXNUMMESSAGES → M) : State P M where
  minMsgNum := 0
  maxMsgNum := 0
  nextThreshold := CLEANUP_MIN
  buffer := buffer
  pgprocnos := []
  procState := fun _ => ⟨false, 0, false, false, false, false⟩
  writeLock := none
  readLock := []
  pc := fun _ => .idle
  log := []
  finished := 0
  base := 0
  since := fun _ => 0
  received := fun _ => []

variable [DecidableEq P]

/-- Move process `p`. -/
def State.goto (s : State P M) (p : P) (pc : Pc P M) : State P M :=
  { s with pc := update s.pc p pc }

/-- Write the `ProcState` of `p`. -/
def State.setProc (s : State P M) (p : P) (st : ProcState) : State P M :=
  { s with procState := update s.procState p st }

/-! ## Attaching and detaching -/

/-- `SharedInvalBackendInit`; a slot in use raises an error and changes nothing. -/
def sharedInvalBackendInit (s : State P M) (p : P) (sendOnly : Bool) : State P M :=
  if (s.procState p).active then s
  else
    { s with
      pgprocnos := s.pgprocnos ++ [p]
      procState := update s.procState p ⟨true, s.maxMsgNum, false, false, false, sendOnly⟩
      since := update s.since p s.log.length
      received := update s.received p [] }

/-- The loop of `CleanupInvalidationState` over the array up to index `i`, downwards: the last entry
takes the place of `p`, and `none` is the PANIC when there is no entry of `p`. -/
def removeProc (p : P) (procs : List P) : ℕ → Option (List P)
  | 0 => none
  | i + 1 =>
    if procs[i]? = some p then some (procs.set i (procs.getLast?.getD p)).dropLast
    else removeProc p procs i

/-- `CleanupInvalidationState`. -/
def cleanupInvalidationState (s : State P M) (p : P) : Option (State P M) :=
  let st := s.procState p
  (removeProc p s.pgprocnos s.pgprocnos.length).map fun procs =>
    { s with
      pgprocnos := procs
      procState := update s.procState p
        { st with active := false, nextMsgNum := 0, resetState := false, signaled := false } }

/-! ## Cleaning the queue -/

/-- The variables of the loop of `SICleanupQueue`. -/
structure Scan (P : Type) where
  procState : P → ProcState
  min : ℤ
  minsig : ℤ
  needSig : Option P

/-- One turn of the loop: a backend below `lowbound` is reset, any other one bounds `min`. -/
def scanProc (lowbound : ℤ) (sc : Scan P) (p : P) : Scan P :=
  let st := sc.procState p
  let n := st.nextMsgNum
  if st.resetState || st.sendOnly then sc
  else if n < lowbound then
    { sc with procState := update sc.procState p { st with resetState := true } }
  else
    let late := n < sc.minsig && !st.signaled
    { sc with
      min := if n < sc.min then n else sc.min
      minsig := if late then n else sc.minsig
      needSig := if late then some p else sc.needSig }

/-- The second loop: take a wrap-around off the counter of one backend. -/
def rebaseProc (procState : P → ProcState) (p : P) : P → ProcState :=
  update procState p
    { procState p with nextMsgNum := (procState p).nextMsgNum - MSGNUMWRAPAROUND }

/-- `needSig->signaled = true`. -/
def signal (procState : P → ProcState) : Option P → P → ProcState
  | none => procState
  | some p => update procState p { procState p with signaled := true }

/-- The threshold for the next cleanup. -/
def threshold (numMsgs : ℤ) : ℤ :=
  if numMsgs < CLEANUP_MIN then CLEANUP_MIN
  else (numMsgs.tdiv CLEANUP_QUANTUM + 1) * CLEANUP_QUANTUM

/-- The first loop of `SICleanupQueue` over all backends. -/
def scanQueue (s : State P M) (minFree : ℤ) : Scan P :=
  s.pgprocnos.foldl (scanProc (s.maxMsgNum - MAXNUMMESSAGES + minFree))
    ⟨s.procState, s.maxMsgNum, s.maxMsgNum - SIG_THRESHOLD, none⟩

/-- `SICleanupQueue` between taking both locks and releasing them. The backend to signal, if any, is
that of `scanQueue`. -/
def siCleanupQueue (s : State P M) (minFree : ℤ) : State P M :=
  let sc := scanQueue s minFree
  if MSGNUMWRAPAROUND ≤ sc.min then
    { s with
      minMsgNum := sc.min - MSGNUMWRAPAROUND
      maxMsgNum := s.maxMsgNum - MSGNUMWRAPAROUND
      nextThreshold := threshold (s.maxMsgNum - sc.min)
      procState := signal (s.pgprocnos.foldl rebaseProc sc.procState) sc.needSig
      base := s.base + MSGNUMWRAPAROUND }
  else
    { s with
      minMsgNum := sc.min
      nextThreshold := threshold (s.maxMsgNum - sc.min)
      procState := signal sc.procState sc.needSig }

/-! ## Steps -/

/-- What makes a step: a process starts one of the functions, or takes its next step in it.
Attaching and detaching are single steps. -/
inductive Action (P M : Type) where
  | attach (p : P) (sendOnly : Bool)
  | detach (p : P)
  | insert (p : P) (data : List M)
  | read (p : P) (datasize : ℤ)
  | cleanup (p : P)
  | run (p : P)

/-- The next step of `SIInsertDataEntries` at the head of `for (;;)`, with the write lock held. -/
def insertCheckStep (s : State P M) (p : P) (group data : List M) : Option (State P M) :=
  let numMsgs := s.maxMsgNum - s.minMsgNum
  if numMsgs + group.length > MAXNUMMESSAGES ∨ numMsgs ≥ s.nextThreshold then
    -- `SICleanupQueue(true, nthistime)` waits for the readers to leave.
    if s.readLock = [] then
      let s' := siCleanupQueue s group.length
      match (scanQueue s group.length).needSig with
      | some _ => some ({ s' with writeLock := none }.goto p (.insertRelock group data))
      | none => some s'
    else none
  else some (s.goto p (.insertWrite [] group data s.maxMsgNum))

/-- The step of `SIGetDataEntries` that fetches `maxMsgNum` and looks at `resetState`. -/
def readMaxStep (s : State P M) (p : P) (datasize : ℤ) (before : ℕ) : State P M :=
  let st := s.procState p
  let max := s.maxMsgNum
  if st.resetState then
    { s with
      procState := update s.procState p
        { st with nextMsgNum := max, resetState := false, signaled := false }
      readLock := s.readLock.erase p
      since := update s.since p s.log.length
      received := update s.received p [] }.goto p (.readReturn datasize before none)
  else s.goto p (.readCopy datasize before max [])

/-- A turn of the copying loop of `SIGetDataEntries`, or what follows the loop. -/
def readCopyStep (s : State P M) (p : P) (datasize : ℤ) (before : ℕ) (max : ℤ) (data : List M) :
    State P M :=
  let st := s.procState p
  if data.length < datasize ∧ st.nextMsgNum < max then
    let m := s.buffer (slot st.nextMsgNum)
    { s with
      procState := update s.procState p { st with nextMsgNum := st.nextMsgNum + 1 }
      received := update s.received p (s.received p ++ [m]) }.goto p
        (.readCopy datasize before max (data ++ [m]))
  else
    let st := if st.nextMsgNum ≥ max then { st with signaled := false }
      else { st with hasMessages := true }
    { s with readLock := s.readLock.erase p }.setProc p st |>.goto p
      (.readReturn datasize before (some data))

/-- The next step of a process that is in one of the functions. -/
def runStep (s : State P M) (p : P) : Option (State P M) :=
  match s.pc p with
  | .idle => none
  | .insertLock [] => some (s.goto p .idle)
  | .insertLock (m :: data) =>
    if s.writeLock = none then
      some ({ s with writeLock := some p }.goto p
        (.insertCheck ((m :: data).take WRITE_QUANTUM) ((m :: data).drop WRITE_QUANTUM)))
    else none
  | .insertCheck group data => insertCheckStep s p group data
  | .insertRelock group data =>
    if s.writeLock = none then
      some ({ s with writeLock := some p }.goto p (.insertCheck group data))
    else none
  | .insertWrite done (m :: rest) data max =>
    some ({ s with buffer := update s.buffer (slot max) m }.goto p
      (.insertWrite (done ++ [m]) rest data (max + 1)))
  | .insertWrite done [] data max =>
    some ({ s with maxMsgNum := max, log := s.log ++ done }.goto p (.insertFlags s.pgprocnos data))
  | .insertFlags (q :: todo) data =>
    some (s.setProc q { s.procState q with hasMessages := true } |>.goto p (.insertFlags todo data))
  | .insertFlags [] data =>
    some ({ s with writeLock := none, finished := s.log.length }.goto p (.insertLock data))
  | .readTest datasize =>
    if (s.procState p).hasMessages then some (s.goto p (.readLock datasize))
    -- The early return takes no lock: it answers for the insertions that have ended.
    else some (s.goto p (.readReturn datasize s.finished (some [])))
  | .readLock datasize =>
    some ({ s with readLock := p :: s.readLock }.goto p (.readClear datasize s.log.length))
  | .readClear datasize before =>
    some (s.setProc p { s.procState p with hasMessages :=
      false } |>.goto p (.readMax datasize before))
  | .readMax datasize before => some (readMaxStep s p datasize before)
  | .readCopy datasize before max data => some (readCopyStep s p datasize before max data)
  | .readReturn _ _ _ => some (s.goto p .idle)
  | .cleanupLock =>
    if s.writeLock = none ∧ s.readLock = [] then some ((siCleanupQueue s 0).goto p .idle) else none

/-- One step of the system; `none` when it is not enabled. A backend that only sends never reads. -/
def step (s : State P M) : Action P M → Option (State P M)
  | .attach p sendOnly =>
    if (s.pc p).isIdle ∧ s.writeLock = none then some (sharedInvalBackendInit s p sendOnly)
    else none
  | .detach p =>
    if (s.pc p).isIdle ∧ s.writeLock = none ∧ (s.procState p).active
      then cleanupInvalidationState s p
    else none
  | .insert p data => if (s.pc p).isIdle then some (s.goto p (.insertLock data)) else none
  | .read p datasize =>
    if (s.pc p).isIdle ∧ (s.procState p).active ∧ ¬(s.procState p).sendOnly then
      some (s.goto p (.readTest datasize))
    else none
  | .cleanup p => if (s.pc p).isIdle then some (s.goto p .cleanupLock) else none
  | .run p => runStep s p

end PgAutoIndex.Ipc
