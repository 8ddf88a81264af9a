import Mathlib.Algebra.Order.Ring.Rat
import PgAutoIndex.LinearProbing

/-!
# The advisor's tracking table

`WorkloadEntry` of `autoindex.h`, and the persistent table of `index_advisor.c` that the background
worker keeps between its passes: an open-addressing table of 2048 slots, keyed by relation, column
and usage, in which every captured query charges its plan cost to the columns it mentions.

A slot of `advisor_hash` together with its flag in `advisor_hash_used` is one optional entry here:
`none` is a slot whose flag is false, and the entry that `memset` leaves under such a flag is never
read. `TimestampTz` values are integers (microseconds), and costs are exact rationals. The arrays of
a `WorkloadEntry` are read at indices below their counters, which capture keeps at most 16, so the
value that `getD` gives past the end of an array stands for no behaviour of the code.
-/

namespace PgAutoIndex.AutoIndex

open Function

/-! ## Captured queries -/

/-- `Oid`. -/
abbrev Oid := UInt32

/-- `FirstNormalObjectId` of `access/transam.h`: smaller OIDs belong to the system. -/
def FirstNormalObjectId : Oid := 16384

/-- `AUTOINDEX_MAX_COLS`: the columns of a captured query, for each usage. -/
def AUTOINDEX_MAX_COLS : ℕ := 16

/-- How a query uses a column. -/
inductive ColUsageType where
  | USAGE_PREDICATE
  | USAGE_SORT
  | USAGE_JOIN
  deriving DecidableEq, Repr

/-- The value of the C enumeration: the characters `p`, `s`, and `j`. -/
def ColUsageType.toUInt32 : ColUsageType → UInt32
  | .USAGE_PREDICATE => 112
  | .USAGE_SORT => 115
  | .USAGE_JOIN => 106

/-- One captured query, as the executor hook writes it into the ring, without what the worker does
not read: `query_hash`, `relids`, `n_rels` and `actual_ms`. -/
structure WorkloadEntry where
  pred_attnums : Vector Int16 AUTOINDEX_MAX_COLS
  pred_relids : Vector Oid AUTOINDEX_MAX_COLS
  sort_attnums : Vector Int16 AUTOINDEX_MAX_COLS
  sort_relids : Vector Oid AUTOINDEX_MAX_COLS
  join_attnums : Vector Int16 AUTOINDEX_MAX_COLS
  join_relids : Vector Oid AUTOINDEX_MAX_COLS
  n_pred : ℕ
  n_sort : ℕ
  n_join : ℕ
  /-- The planner's estimate of the query's total cost. -/
  plan_cost : ℚ
  /-- When the query finished. -/
  ts : ℤ

/-- An entry of zero bytes, which is what the ring's slots hold at start-up. -/
def WorkloadEntry.zero : WorkloadEntry where
  pred_attnums := Vector.replicate _ 0
  pred_relids := Vector.replicate _ 0
  sort_attnums := Vector.replicate _ 0
  sort_relids := Vector.replicate _ 0
  join_attnums := Vector.replicate _ 0
  join_relids := Vector.replicate _ 0
  n_pred := 0
  n_sort := 0
  n_join := 0
  plan_cost := 0
  ts := 0

/-! ## Keys and entries -/

/-- The key of a tracked column. -/
structure ColStatsKey where
  relid : Oid
  attnum : Int16
  usage_type : ColUsageType
  deriving DecidableEq, Repr

/-- A tracked column with what has been charged to it. -/
structure ColStatsEntry where
  key : ColStatsKey
  /-- Executions seen. -/
  exec_count : ℕ
  /-- The sum of their plan costs. -/
  cumulative_rent : ℚ
  /-- The finish time of the query charged last, `0` when there is none. -/
  last_seen : ℤ
  deriving DecidableEq

/-- The entry that `advisor_hash_find_or_create` writes for a new key: zeroed, with the key. -/
def ColStatsEntry.fresh (k : ColStatsKey) : ColStatsEntry := ⟨k, 0, 0, 0⟩

/-- The updates that `drain_ring_buffer` makes through a returned entry. -/
def ColStatsEntry.charge (e : ColStatsEntry) (plan_cost : ℚ) (ts : ℤ) : ColStatsEntry :=
  { e with
    exec_count := e.exec_count + 1
    cumulative_rent := e.cumulative_rent + plan_cost
    last_seen := ts }

@[simp] theorem ColStatsEntry.fresh_key (k : ColStatsKey) : (fresh k).key = k := rfl

@[simp] theorem ColStatsEntry.charge_key (e : ColStatsEntry) (plan_cost : ℚ) (ts : ℤ) :
    (e.charge plan_cost ts).key = e.key := rfl

/-- The columns of a query for one usage: the first `n` pairs of its two parallel arrays. -/
def WorkloadEntry.columns (e : WorkloadEntry) (u : ColUsageType) : List ColStatsKey :=
  match u with
  | .USAGE_PREDICATE => (List.range e.n_pred).map fun i =>
      ⟨e.pred_relids.toList.getD i 0, e.pred_attnums.toList.getD i 0, u⟩
  | .USAGE_SORT => (List.range e.n_sort).map fun i =>
      ⟨e.sort_relids.toList.getD i 0, e.sort_attnums.toList.getD i 0, u⟩
  | .USAGE_JOIN => (List.range e.n_join).map fun i =>
      ⟨e.join_relids.toList.getD i 0, e.join_attnums.toList.getD i 0, u⟩

/-- A query that mentions one column, once, in a predicate. -/
def WorkloadEntry.onePredicate (relid : Oid) (attnum : Int16) (plan_cost : ℚ) (ts : ℤ) :
    WorkloadEntry :=
  { WorkloadEntry.zero with
    pred_attnums := (Vector.replicate AUTOINDEX_MAX_COLS 0).set 0 attnum (by decide)
    pred_relids := (Vector.replicate AUTOINDEX_MAX_COLS 0).set 0 relid (by decide)
    n_pred := 1
    plan_cost := plan_cost
    ts := ts }

/-! ## The table -/

/-- `ADVISOR_HASH_SIZE`. -/
def ADVISOR_HASH_SIZE : ℕ := 2048

/-- `ADVISOR_HASH_MASK`. -/
def ADVISOR_HASH_MASK : UInt32 := 2047

/-- The table has slots. -/
instance : NeZero ADVISOR_HASH_SIZE := ⟨by decide⟩

/-- `advisor_hash` with `advisor_hash_used`. Slot indices are taken modulo the table size, which
is what the mask does to `idx + 1`. -/
abbrev AdvisorHash := Fin ADVISOR_HASH_SIZE → Option ColStatsEntry

/-- The table at start-up. -/
def AdvisorHash.empty : AdvisorHash := fun _ => none

/-- `advisor_hash_fn`, in 32-bit arithmetic: the column number is sign-extended. -/
def advisorHashFn (k : ColStatsKey) : Fin ADVISOR_HASH_SIZE :=
  let h : UInt32 := k.relid
  let h := h * 31 + k.attnum.toInt32.toUInt32
  let h := h * 31 + k.usage_type.toUInt32
  Fin.ofNat ADVISOR_HASH_SIZE (h &&& ADVISOR_HASH_MASK).toNat

/-- The probe that `advisor_hash_find_or_create` and `advisor_hash_remove` share. -/
abbrev advisorHashFind (t : AdvisorHash) (k : ColStatsKey) :
    LinearProbing.Outcome ADVISOR_HASH_SIZE :=
  LinearProbing.find ColStatsEntry.key advisorHashFn t k

/-- `advisor_hash_find_or_create`: the slot of the key, `none` when the table is full, and the
table, with a fresh entry when the key was not there. -/
def advisorHashFindOrCreate (t : AdvisorHash) (k : ColStatsKey) :
    Option (Fin ADVISOR_HASH_SIZE) × AdvisorHash :=
  match advisorHashFind t k with
  | .free idx => (some idx, update t idx (some (.fresh k)))
  | .hit idx => (some idx, t)
  | .full => (none, t)

/-- `advisor_hash_remove`: the slot where the probe finds the key is cleared. -/
def advisorHashRemove (t : AdvisorHash) (k : ColStatsKey) : AdvisorHash :=
  match advisorHashFind t k with
  | .hit idx => update t idx none
  | _ => t

/-- `USECS_PER_DAY`. -/
def USECS_PER_DAY : ℤ := 86400000000

/-- The test of `advisor_hash_evict_stale`. -/
def ColStatsEntry.stale (e : ColStatsEntry) (now : ℤ) (window_days : ℕ) : Bool :=
  e.last_seen ≠ 0 ∧ now - e.last_seen > window_days * USECS_PER_DAY

/-- `advisor_hash_evict_stale`: every slot whose entry was last seen before the window is cleared.
-/
def advisorHashEvictStale (now : ℤ) (window_days : ℕ) (t : AdvisorHash) : AdvisorHash :=
  fun i => (t i).filter fun e => !e.stale now window_days

/-! ## Draining -/

/-- The body of the three loops of `drain_ring_buffer`: find or create the column's entry, and
charge the query to it unless the table is full. -/
def chargeColumn (plan_cost : ℚ) (ts : ℤ) (t : AdvisorHash) (k : ColStatsKey) : AdvisorHash :=
  match advisorHashFindOrCreate t k with
  | (some idx, t') => update t' idx ((t' idx).map fun e => e.charge plan_cost ts)
  | (none, t') => t'

/-- The columns of a query in the order in which `drain_ring_buffer` charges them: predicates,
joins, sorts. -/
def WorkloadEntry.charged (e : WorkloadEntry) : List ColStatsKey :=
  e.columns .USAGE_PREDICATE ++ e.columns .USAGE_JOIN ++ e.columns .USAGE_SORT

/-- What `drain_ring_buffer` does with one slot of the ring. -/
def drainEntry (t : AdvisorHash) (e : WorkloadEntry) : AdvisorHash :=
  e.charged.foldl (chargeColumn e.plan_cost e.ts) t

/-- What a whole drain does with the slots it folds, in order. -/
def drainEntries (t : AdvisorHash) (es : List WorkloadEntry) : AdvisorHash :=
  es.foldl drainEntry t

/-! ## Probes of any table -/

/-- On every table, whatever its slots hold, the loop of `advisor_hash_find_or_create` and
`advisor_hash_remove` ends within 2048 probes. The former returns no slot exactly when all slots are
used and none has the key; a slot that it returns has the key, and no other slot changes, nor one
that was used. The latter clears at most one slot, which had the key. -/
theorem advisor_hash_probes_end (t : AdvisorHash) (k : ColStatsKey) :
    LinearProbing.probeLoop t ColStatsEntry.key k (advisorHashFn k) ADVISOR_HASH_SIZE
      (advisorHashFn k) = some (advisorHashFind t k) ∧
      ((advisorHashFindOrCreate t k).1 = none ↔ ∀ i, ∃ e, t i = some e ∧ e.key ≠ k) ∧
      (∀ i, (advisorHashFindOrCreate t k).1 = some i →
        ∃ e, (advisorHashFindOrCreate t k).2 i = some e ∧ e.key = k) ∧
      (∀ i, (advisorHashFindOrCreate t k).2 i ≠ t i →
        t i = none ∧ (advisorHashFindOrCreate t k).1 = some i) ∧
      (advisorHashRemove t k = t ∨ ∃ i e, t i = some e ∧ e.key = k ∧
        advisorHashRemove t k = update t i none) := by
  refine ⟨LinearProbing.probeLoop_eq, ?_⟩
  unfold advisorHashFindOrCreate advisorHashRemove
  cases hfind : advisorHashFind t k with
  | free idx =>
    have hfree := (LinearProbing.find_eq_free_iff.mp hfind).1
    refine ⟨iff_of_false nofun fun h => ?_, ?_, ?_, .inl rfl⟩
    · obtain ⟨e, he, -⟩ := h idx
      cases hfree.symm.trans he
    · rintro i ⟨⟩
      exact ⟨_, update_self .., rfl⟩
    · intro i hi
      obtain rfl : i = idx := by_contra fun hne => hi (update_of_ne hne ..)
      exact ⟨hfree, rfl⟩
  | hit idx =>
    obtain ⟨⟨e, he, hk⟩, -⟩ := LinearProbing.find_eq_hit_iff.mp hfind
    refine ⟨iff_of_false nofun fun h => ?_, ?_, fun i hi =>
      absurd rfl hi, .inr ⟨idx, e, he, hk, rfl⟩⟩
    · obtain ⟨e', he', hne⟩ := h idx
      cases he.symm.trans he'
      exact hne hk
    · rintro i ⟨⟩
      exact ⟨e, he, hk⟩
  | full =>
    exact ⟨iff_of_true rfl (LinearProbing.find_eq_full_iff.mp hfind), nofun,
      fun i hi => absurd rfl hi, .inl rfl⟩

/-! ## Keys in their first slots -/

/-- The key's first slot is free for it: empty, or its own. -/
def HomeFree (t : AdvisorHash) (k : ColStatsKey) : Prop :=
  ∀ e, t (advisorHashFn k) = some e → e.key = k

/-- Charging a key that has its first slot only touches that slot. -/
theorem chargeColumn_of_home {t : AdvisorHash} {k : ColStatsKey} (h : HomeFree t k) (plan_cost : ℚ)
    (ts : ℤ) : chargeColumn plan_cost ts t k = update t (advisorHashFn k)
      (some (((t (advisorHashFn k)).getD (.fresh k)).charge plan_cost ts)) := by
  unfold chargeColumn advisorHashFindOrCreate
  cases ht : t (advisorHashFn k) with
  | none =>
    rw [advisorHashFind, LinearProbing.find_eq_free_of_home ht]
    simp
  | some e =>
    rw [advisorHashFind, LinearProbing.find_eq_hit_of_home ht (h e ht)]
    simp [ht]

end PgAutoIndex.AutoIndex
