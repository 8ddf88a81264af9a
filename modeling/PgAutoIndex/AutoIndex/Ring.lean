import PgAutoIndex.Runs
import PgAutoIndex.AutoIndex.Table

/-!
# The workload ring as a step system

`ring_buffer_push` of `workload_capture.c`, run by any number of backends, and `drain_ring_buffer`
of `index_advisor.c`, run by the one background worker, over the shared `WorkloadRingBuffer`. Every
atomic read, compare-and-swap, fetch-add and write is one step, and so is the `memcpy` of a whole
entry. The worker's folding of a slot is one step for each iteration of its three inner loops, each
of which reads the slot in shared memory anew, so that other steps may come between them.

A call of `ring_buffer_push` is one process, from a type `ι` of calls; `entry i` is the entry that
call `i` pushes. Positions and counters are 64-bit words. The state also records, as history that no
step reads, which call won each compare-and-swap, which positions the worker has folded, and how
often each call has run each fetch-add.
-/

namespace PgAutoIndex.AutoIndex

open Function

/-- `AUTOINDEX_RING_SIZE`. -/
def AUTOINDEX_RING_SIZE : ℕ := 4096

/-- `AUTOINDEX_RING_MASK`. -/
def AUTOINDEX_RING_MASK : ℕ := AUTOINDEX_RING_SIZE - 1

/-- The mask keeps the remainder modulo the ring size. -/
theorem and_ring_mask (p : ℕ) : p &&& AUTOINDEX_RING_MASK = p % 4096 := by
  rw [show AUTOINDEX_RING_MASK = 2^12 - 1 from rfl, Nat.and_two_pow_sub_one_eq_mod]

/-- The slot of a position. -/
def ringSlot (p : ℕ) : Fin AUTOINDEX_RING_SIZE :=
  ⟨p &&& AUTOINDEX_RING_MASK, by
    rw [and_ring_mask]
    exact Nat.mod_lt _ (by norm_num)⟩

/-- Two positions share a slot when they agree modulo the ring size. -/
theorem ringSlot_eq_iff {p q : ℕ} : ringSlot p = ringSlot q ↔ p % 4096 = q % 4096 := by
  rw [Fin.ext_iff]
  simp only [ringSlot, and_ring_mask]

/-- The successor of a 64-bit word. -/
def succ64 (x : ℕ) : ℕ := (x + 1) % 2^64

/-- Below the last word, the successor does not wrap. -/
theorem succ64_of_lt {x : ℕ} (h : x + 1 < 2^64) : succ64 x = x + 1 := Nat.mod_eq_of_lt h

/-- Where a call of `ring_buffer_push` is. -/
inductive PushPc where
  /-- Before the read of `tail`, at the loop's head. -/
  | readTail
  /-- Before the read of `head` and the test for a full ring. -/
  | readHead (tail : ℕ)
  /-- The ring looked full: before the fetch-add on `total_dropped`. -/
  | drop
  /-- Before the compare-and-swap of `tail`. -/
  | claim (tail : ℕ)
  /-- The call owns a position: before the `memcpy`. -/
  | copy (pos : ℕ)
  /-- Before the fetch-add on `total_written`. -/
  | count (pos : ℕ)
  /-- Returned, with the entry written. -/
  | written (pos : ℕ)
  /-- Returned, with the entry dropped. -/
  | dropped

/-- Where the worker is in `drain_ring_buffer`. -/
inductive WorkerPc where
  /-- Between two drains, before the read of `head`. -/
  | idle
  /-- Before the read of `tail`. -/
  | readTail (head : ℕ)
  /-- In the loop, at column `i` of one of the three inner loops on the slot of `head`; when `head`
  has reached `tail`, before the write of `head`. -/
  | scan (head tail : ℕ) (usage : ColUsageType) (i : ℕ)

/-- The shared ring with its counters, the processes, the worker's table, and the history. -/
structure RingState (ι : Type) where
  head : ℕ
  tail : ℕ
  total_written : ℕ
  total_dropped : ℕ
  entries : Fin AUTOINDEX_RING_SIZE → WorkloadEntry
  /-- Where each call is. -/
  push : ι → PushPc
  worker : WorkerPc
  table : AdvisorHash
  /-- History: the calls that won a compare-and-swap, in order. -/
  claims : List ι
  /-- History: the positions folded, in order. -/
  folded : List ℕ
  /-- History: how often each call has incremented `total_written`. -/
  written_by : ι → ℕ
  /-- History: how often each call has incremented `total_dropped`. -/
  dropped_by : ι → ℕ

variable {ι : Type}

/-- The zeroed ring, with no call started and an empty table. -/
def RingState.init : RingState ι where
  head := 0
  tail := 0
  total_written := 0
  total_dropped := 0
  entries := fun _ => .zero
  push := fun _ => .readTail
  worker := .idle
  table := .empty
  claims := []
  folded := []
  written_by := fun _ => 0
  dropped_by := fun _ => 0

/-- Who takes a step. -/
inductive Actor (ι : Type) where
  | push (i : ι)
  | worker

/-- One step of call `i` of `ring_buffer_push`. -/
def ringBufferPush [DecidableEq ι] (entry : ι → WorkloadEntry) (s : RingState ι) (i : ι) :
    Option (RingState ι) :=
  match s.push i with
  | .readTail => some { s with push := update s.push i (.readHead s.tail) }
  | .readHead tail =>
    -- The full test compares the masked successor of a tail read earlier with the head read now.
    let next := succ64 tail
    some { s with
      push := update s.push i
        (if ringSlot next = ringSlot s.head then .drop else .claim tail) }
  | .drop => some { s with
      total_dropped := succ64 s.total_dropped
      dropped_by := update s.dropped_by i (s.dropped_by i + 1)
      push := update s.push i .dropped }
  | .claim tail =>
    if s.tail = tail then
      some { s with
        tail := succ64 tail
        claims := s.claims ++ [i]
        push := update s.push i (.copy tail) }
    else some { s with push := update s.push i .readTail }
  | .copy pos => some { s with
      entries := update s.entries (ringSlot pos) (entry i)
      push := update s.push i (.count pos) }
  | .count pos => some { s with
      total_written := succ64 s.total_written
      written_by := update s.written_by i (s.written_by i + 1)
      push := update s.push i (.written pos) }
  | .written _ => none
  | .dropped => none

/-- One step of the worker in `drain_ring_buffer`. -/
def drainRingBuffer (s : RingState ι) : RingState ι :=
  match s.worker with
  | .idle => { s with worker := .readTail s.head }
  | .readTail head => { s with worker := .scan head s.tail .USAGE_PREDICATE 0 }
  | .scan head tail usage i =>
    if head = tail then { s with head := head, worker := .idle }
    else
      let e := s.entries (ringSlot head)
      match (e.columns usage)[i]?, usage with
      | some k, _ => { s with
          table := chargeColumn e.plan_cost e.ts s.table k
          worker := .scan head tail usage (i + 1) }
      | none, .USAGE_PREDICATE => { s with worker := .scan head tail .USAGE_JOIN 0 }
      | none, .USAGE_JOIN => { s with worker := .scan head tail .USAGE_SORT 0 }
      | none, .USAGE_SORT => { s with
          folded := s.folded ++ [head]
          worker := .scan (succ64 head) tail .USAGE_PREDICATE 0 }

/-- One step of the system. -/
def ringStep [DecidableEq ι] (entry : ι → WorkloadEntry) (s : RingState ι) :
    Actor ι → Option (RingState ι)
  | .push i => ringBufferPush entry s i
  | .worker => some (drainRingBuffer s)

/-- The states that some interleaving reaches from the zeroed ring. -/
def RingReachable [DecidableEq ι] (entry : ι → WorkloadEntry) (s : RingState ι) : Prop :=
  ∃ ls, Runs.Run (ringStep entry) (fun _ _ => True) .init ls s

/-! ## Reading a call's state -/

/-- The call has won its compare-and-swap. -/
def PushPc.won : PushPc → ℕ
  | .copy _ | .count _ | .written _ => 1
  | _ => 0

/-- The call is between its successful compare-and-swap and its increment of `total_written`. -/
def PushPc.between : PushPc → Bool
  | .copy _ | .count _ => true
  | _ => false

/-- The call has incremented `total_written`. -/
def PushPc.wrote : PushPc → ℕ
  | .written _ => 1
  | _ => 0

/-- The call has incremented `total_dropped`. -/
def PushPc.gaveUp : PushPc → ℕ
  | .dropped => 1
  | _ => 0

/-- The call has returned. -/
def PushPc.finished : PushPc → Bool
  | .written _ | .dropped => true
  | _ => false

/-- The position that the call owns. -/
def PushPc.pos : PushPc → Option ℕ
  | .copy p | .count p | .written p => some p
  | _ => none

/-- The position that the worker is to fold next. -/
def RingState.position (s : RingState ι) : ℕ :=
  match s.worker with
  | .idle => s.head
  | .readTail head => head
  | .scan head _ _ _ => head

end PgAutoIndex.AutoIndex
