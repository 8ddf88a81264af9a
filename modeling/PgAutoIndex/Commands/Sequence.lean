import Mathlib.Algebra.BigOperators.Group.Finset.Basic
import Mathlib.Tactic.Ring

/-!
# Sequences

Model of `nextval_internal` in `src/backend/commands/sequence.c`. The state is the sequence's tuple
in its buffer, the tuple that was last written to the log, the positions in the log that decide
whether a call must write to it, and the cache of each session. Values of type `int64` are integers,
and every computation with them is checked: a result outside of the type is the error `overflow`.

A call returns a cached value, or it fetches values from the tuple: as many as are cached, and when
the call writes to the log, as many more as can be used later without it. `Fetched` says what the
loop has done so far, and `fetchLoop_fetched` what it does from the first value on.
-/

namespace PgAutoIndex.Commands

/-! ## The model -/

/-- `PG_INT64_MIN`. -/
def INT64_MIN : ℤ := -2^63

/-- `PG_INT64_MAX`. -/
def INT64_MAX : ℤ := 2^63 - 1

/-- The definition of a sequence in `pg_sequence`, with what `init_params` checks. -/
structure SeqDef where
  start : ℤ
  incby : ℤ
  maxv : ℤ
  minv : ℤ
  cache : ℤ
  cycle : Bool
  incby_ne : incby ≠ 0
  incby_low : INT64_MIN ≤ incby
  incby_high : incby ≤ INT64_MAX
  minv_low : INT64_MIN ≤ minv
  maxv_high : maxv ≤ INT64_MAX
  start_low : minv ≤ start
  start_high : start ≤ maxv
  cache_pos : 1 ≤ cache
  cache_high : cache ≤ INT64_MAX

/-- `SEQ_LOG_VALS`. -/
def SEQ_LOG_VALS : ℤ := 32

/-- `FormData_pg_sequence_data`. -/
structure SeqTuple where
  lastValue : ℤ
  logCnt : ℤ
  isCalled : Bool

/-- The parts of `SeqTableData` that hold a session's cached values. -/
structure SeqCache where
  last : ℤ
  cached : ℤ
  increment : ℤ

/-- A sequence with its sessions. -/
structure SeqState where
  tuple : SeqTuple
  /-- The tuple that was last written to the log. -/
  logged : SeqTuple
  pageLSN : ℕ
  redoRecPtr : ℕ
  insertLSN : ℕ
  elm : ℕ → SeqCache

/-- What a call can raise. -/
inductive SeqError
  /-- nextval: reached maximum value of sequence -/
  | reachedMaximum (maxv : ℤ)
  /-- nextval: reached minimum value of sequence -/
  | reachedMinimum (minv : ℤ)
  | overflow
  deriving DecidableEq

/-- The result of a computation with values of type `int64`. -/
def int64 (x : ℤ) : Except SeqError ℤ :=
  if INT64_MIN ≤ x ∧ x ≤ INT64_MAX then .ok x else .error .overflow

/-- The local variables that the loop changes, besides `fetch`. -/
structure Fetch where
  next : ℤ
  last : ℤ
  result : ℤ
  rescnt : ℤ
  log : ℤ

/-- The test of the loop whether the next value would be past the limit. -/
def pastLimit (d : SeqDef) (next : ℤ) : Except SeqError Bool :=
  if d.incby > 0 then
    if d.maxv ≥ 0 then (int64 (d.maxv - d.incby)).map fun bound => decide (next > bound)
    else (int64 (next + d.incby)).map fun value => decide (value > d.maxv)
  else
    if d.minv < 0 then (int64 (d.minv - d.incby)).map fun bound => decide (next < bound)
    else (int64 (next + d.incby)).map fun value => decide (value < d.minv)

/-- The value with which the sequence starts over. -/
def SeqDef.wrap (d : SeqDef) : ℤ := if d.incby > 0 then d.minv else d.maxv

/-- The error at the limit. -/
def SeqDef.limitError (d : SeqDef) : SeqError :=
  if d.incby > 0 then .reachedMaximum d.maxv else .reachedMinimum d.minv

/-- The first part of the loop's body: the next value, or `none` to stop fetching. -/
def advance (d : SeqDef) (f : Fetch) : Except SeqError (Option ℤ) :=
  match pastLimit d f.next with
  | .error e => .error e
  | .ok true =>
    if f.rescnt > 0 then .ok none
    else if !d.cycle then .error d.limitError
    else .ok (some d.wrap)
  | .ok false => (int64 (f.next + d.incby)).map some

/-- The second part of the loop's body: count the value. -/
def count (d : SeqDef) (next : ℤ) (f : Fetch) : Except SeqError Fetch :=
  if f.rescnt < d.cache then
    match int64 (f.log - 1), int64 (f.rescnt + 1) with
    | .ok log, .ok rescnt => .ok ⟨next, next, if rescnt = 1 then next else f.result, rescnt, log⟩
    | _, _ => .error .overflow
  else .ok { f with next := next }

/-- The loop; the result has the rest of `fetch`. -/
def fetchLoop (d : SeqDef) : ℕ → Fetch → Except SeqError (ℕ × Fetch)
  | 0, f => .ok (0, f)
  | fetch + 1, f =>
    match advance d f with
    | .error e => .error e
    | .ok none => .ok (fetch + 1, f)
    | .ok (some next) =>
      match count d next f with
      | .error e => .error e
      | .ok f => fetchLoop d fetch f

/-- The values of `fetch`, `log` and `logit` before the loop. -/
def decideLog (d : SeqDef) (s : SeqState) : Except SeqError (ℤ × ℤ × Bool) :=
  let fetch := if s.tuple.isCalled then d.cache else d.cache - 1
  if s.tuple.logCnt < fetch ∨ !s.tuple.isCalled then (int64 (fetch + SEQ_LOG_VALS)).map
    fun n => (n, n, true)
  -- The last update of the tuple was before a checkpoint.
  else if s.pageLSN ≤ s.redoRecPtr then (int64 (fetch + SEQ_LOG_VALS)).map fun n => (n, n, true)
  else .ok (fetch, s.tuple.logCnt, false)

/-- The changes after the loop: the session's cache, the log, and the tuple. -/
def saveFetched (d : SeqDef) (s : SeqState) (session : ℕ) (f : Fetch) (log : ℤ)
    (logit : Bool) : SeqState :=
  let s := { s with elm := Function.update s.elm session ⟨f.result, f.last, d.incby⟩ }
  -- What is logged is the tuple as it would appear after `log` more fetches.
  let s := if logit then
      { s with
        logged := ⟨f.next, 0, true⟩
        insertLSN := s.insertLSN + 1
        pageLSN := s.insertLSN + 1 }
    else s
  { s with tuple := ⟨f.last, log, true⟩ }

/-- `nextval_internal` for one session. Nothing is changed before the loop is done. -/
def nextvalInternal (d : SeqDef) (s : SeqState) (session : ℕ) : Except SeqError ℤ × SeqState :=
  let elm := s.elm session
  if elm.last ≠ elm.cached then
    match int64 (elm.last + elm.increment) with
    | .error e => (.error e, s)
    | .ok last =>
      (.ok last, { s with elm := Function.update s.elm session { elm with last := last } })
  else
    match decideLog d s with
    | .error e => (.error e, s)
    | .ok (fetch, log, logit) =>
      let value := s.tuple.lastValue
      match fetchLoop d fetch.toNat ⟨value, value, value, if s.tuple.isCalled then 0
        else 1, log⟩ with
      | .error e => (.error e, s)
      | .ok (rest, f) =>
        match int64 (f.log - rest) with
        | .error e => (.error e, s)
        | .ok log => (.ok f.result, saveFetched d s session f log logit)

/-! ## The limit -/

variable {base : ℤ} {f : Fetch}

section
variable {d : SeqDef}

theorem int64_ok {x : ℤ} (hlow : INT64_MIN ≤ x) (hhigh : x ≤ INT64_MAX) : int64 x = .ok x :=
  if_pos ⟨hlow, hhigh⟩

/-- The next value would be past the limit. -/
def SeqDef.AtLimit (d : SeqDef) (next : ℤ) : Prop :=
  if d.incby > 0 then d.maxv < next + d.incby else next + d.incby < d.minv

/-- Whether the limit is reached is decidable. -/
instance instDecidableAtLimit (d : SeqDef) (next : ℤ) : Decidable (d.AtLimit next) :=
  inferInstanceAs
    (Decidable (if d.incby > 0 then d.maxv < next + d.incby else next + d.incby < d.minv))

/-- The value is in the range of the sequence. -/
def SeqDef.InRange (d : SeqDef) (v : ℤ) : Prop := d.minv ≤ v ∧ v ≤ d.maxv

theorem SeqDef.InRange.int64 {v : ℤ} (h : d.InRange v) : INT64_MIN ≤ v ∧ v ≤ INT64_MAX :=
  ⟨d.minv_low.trans h.1, h.2.trans d.maxv_high⟩

/-- The test of the loop is right, and its computations stay in the type. -/
theorem pastLimit_eq {next : ℤ} (h : d.InRange next) :
    pastLimit d next = .ok (decide (d.AtLimit next)) := by
  have hinclow := d.incby_low
  have hinchigh := d.incby_high
  have hminlow := d.minv_low
  have hmaxhigh := d.maxv_high
  obtain ⟨hlow, hhigh⟩ := h
  unfold INT64_MIN at hinclow hminlow
  unfold INT64_MAX at hinchigh hmaxhigh
  unfold pastLimit SeqDef.AtLimit
  split_ifs with hasc hmax hmin
  all_goals rw [int64_ok (by unfold INT64_MIN; omega) (by unfold INT64_MAX; omega)]
  · exact congrArg Except.ok (decide_eq_decide.mpr (by omega))
  · rfl
  · exact congrArg Except.ok (decide_eq_decide.mpr (by omega))
  · rfl

/-- Below the limit the next value is in range. -/
theorem SeqDef.InRange.next {v : ℤ} (h : d.InRange v) (hlimit : ¬ d.AtLimit v) :
    d.InRange (v + d.incby) := by
  obtain ⟨hlow, hhigh⟩ := h
  unfold SeqDef.AtLimit at hlimit
  unfold SeqDef.InRange
  split_ifs at hlimit <;> omega

theorem SeqDef.wrap_inRange (d : SeqDef) : d.InRange d.wrap := by
  have hlow := d.start_low
  have hhigh := d.start_high
  unfold SeqDef.wrap SeqDef.InRange
  split_ifs <;> omega

theorem SeqDef.start_inRange (d : SeqDef) : d.InRange d.start := ⟨d.start_low, d.start_high⟩

/-! ## The loop -/

/-- What the loop has done: `r` values from `base` on are fetched for the session, and `e` more for
the log. -/
structure Fetched (d : SeqDef) (base : ℤ) (r e : ℕ) (f : Fetch) : Prop where
  next_eq : f.next = base + (r - 1 + e : ℤ) * d.incby
  last_eq : f.last = base + (r - 1 : ℤ) * d.incby
  result_eq : f.result = base
  rescnt_eq : f.rescnt = r
  rescnt_pos : 1 ≤ r
  rescnt_le : (r : ℤ) ≤ d.cache
  /-- Values for the log come after all values for the session. -/
  logged_after : (r : ℤ) < d.cache → e = 0
  next_inRange : d.InRange f.next
  base_inRange : d.InRange base

/-- One more value. -/
theorem Fetched.count {r e : ℕ} (h : Fetched d base r e f) (hlimit : ¬ d.AtLimit f.next)
    (hlog : INT64_MIN < f.log) (hlog' : f.log ≤ INT64_MAX) :
    ∃ r' e' f', Commands.count d (f.next + d.incby) f = .ok f' ∧ Fetched d base r' e' f' ∧
      r' + e' = r + e + 1 ∧ r ≤ r' ∧
      f'.log = f.log - (r' - r : ℤ) := by
  have hrange := h.next_inRange.next hlimit
  have hcache := d.cache_high
  have hr := h.rescnt_eq
  have hpos := h.rescnt_pos
  have hnext := h.next_eq
  unfold Commands.count
  split_ifs with hmore
  · -- A value for the session.
    rw [hr] at hmore
    have he := h.logged_after hmore
    have hone : ¬ ((r : ℤ) + 1 = 1) := by omega
    rw [hr, int64_ok (by omega) (by omega), int64_ok (by unfold INT64_MIN; omega) (by omega)]
    subst he
    refine ⟨r + 1, 0, _, rfl, ⟨?_, ?_, ?_, ?_, ?_, ?_, fun _ => rfl, hrange, h.base_inRange⟩, rfl,
      Nat.le_succ r, ?_⟩
    · rw [hnext]
      push_cast
      ring
    · rw [hnext]
      push_cast
      ring
    · rw [if_neg hone]
      exact h.result_eq
    · rfl
    · omega
    · omega
    · show f.log - 1 = f.log - ((r + 1 : ℕ) - r : ℤ)
      omega
  · -- A value for the log.
    rw [hr] at hmore
    refine ⟨r, e + 1, _, rfl,
      ⟨?_, h.last_eq, h.result_eq, h.rescnt_eq, h.rescnt_pos, h.rescnt_le,
        fun hlt => absurd hlt hmore, hrange,
      h.base_inRange⟩, rfl, le_rfl, ?_⟩
    · rw [hnext]
      push_cast
      ring
    · show f.log = f.log - ((r : ℤ) - r)
      omega

/-- One round of the loop. -/
theorem fetchLoop_round {f' : Fetch} {next : ℤ} (hadvance : advance d f = .ok (some next))
    (hcount : Commands.count d next f = .ok f') (fetch : ℕ) :
    fetchLoop d (fetch + 1) f = fetchLoop d fetch f' := by
  rw [fetchLoop, hadvance]
  dsimp only
  rw [hcount]

/-- Below the limit the loop goes on to the next value. -/
theorem advance_next (h : d.InRange f.next) (hlimit : ¬ d.AtLimit f.next) :
    advance d f = .ok (some (f.next + d.incby)) := by
  have hrange := (h.next hlimit).int64
  rw [advance, pastLimit_eq h, decide_eq_false hlimit]
  rw [int64_ok hrange.1 hrange.2]
  rfl

/-- At the limit the loop stops when it has a value, and else starts over or raises. -/
theorem advance_limit (h : d.InRange f.next) (hlimit : d.AtLimit f.next) :
    advance d f = if f.rescnt > 0 then .ok none else if d.cycle then .ok (some d.wrap)
      else .error d.limitError := by
  rw [advance, pastLimit_eq h, decide_eq_true hlimit]
  cases d.cycle <;> rfl

/-- From the first value on, the loop fetches until there are enough values or the limit is reached.
-/
theorem fetchLoop_fetched : ∀ (fetch : ℕ) {r e : ℕ}
    {f : Fetch}, Fetched d base r e f → d.cache - r ≤ f.log →
    f.log ≤ INT64_MAX →
    ∃ rest r' e' f', fetchLoop d fetch f = .ok (rest, f') ∧ Fetched d base r' e' f' ∧
      r' + e' + rest = r + e + fetch ∧ r ≤ r' ∧
      f'.log = f.log - (r' - r : ℤ) ∧ (rest = 0 ∨ d.AtLimit f'.next) := by
  intro fetch
  induction fetch with
  | zero =>
    intro r e f h _ _
    exact ⟨0, r, e, f, rfl, h, rfl, le_rfl, by omega, .inl rfl⟩
  | succ fetch ih =>
    intro r e f h hlog hlog'
    have hr := h.rescnt_eq
    have hpos := h.rescnt_pos
    by_cases hlimit : d.AtLimit f.next
    · -- There are values, so the loop stops at the limit.
      rw [fetchLoop, advance_limit h.next_inRange hlimit, if_pos (by omega)]
      exact ⟨fetch + 1, r, e, f, rfl, h, rfl, le_rfl, by omega, .inr hlimit⟩
    · have hcache := h.rescnt_le
      obtain ⟨r₁, e₁, f₁, hcount, hfetched, hsum, hle, hf₁⟩ :=
        h.count hlimit (by unfold INT64_MIN; omega) hlog'
      obtain ⟨rest, r', e', f', hloop, hfetched', hsum', hle', hf', hstop⟩ :=
        ih hfetched (by omega) (by omega)
      refine ⟨rest, r', e', f', ?_, hfetched', by omega, by omega, by omega, hstop⟩
      rw [fetchLoop_round (advance_next h.next_inRange hlimit) hcount, hloop]

/-- The first value of a call that fetches from a tuple that was used before: the next one, or the
first one of a new cycle. -/
def SeqDef.first (d : SeqDef) (value : ℤ) : ℤ := if d.AtLimit value then d.wrap else value + d.incby

theorem SeqDef.first_inRange {value : ℤ} (h : d.InRange value) : d.InRange (d.first value) := by
  unfold SeqDef.first
  split_ifs with hlimit
  · exact d.wrap_inRange
  · exact h.next hlimit

/-- The first round of the loop for a tuple that was used before. -/
theorem fetchLoop_first {value log : ℤ} (h : d.InRange value) (hlog : 1 ≤ log)
    (hlog' : log ≤ INT64_MAX) (fetch : ℕ) :
    fetchLoop d (fetch + 1) ⟨value, value, value, 0, log⟩
      = if d.AtLimit value ∧ d.cycle = false then .error d.limitError
        else fetchLoop d fetch ⟨d.first value, d.first value, d.first value, 1, log - 1⟩ := by
  have hcache := d.cache_pos
  have hcount : ∀ next, Commands.count d next ⟨value, value, value, 0, log⟩ =
      .ok ⟨next, next, next, 1, log - 1⟩ := by
    intro next
    unfold Commands.count
    rw [if_pos (by dsimp only; omega)]
    dsimp only
    rw [int64_ok (by unfold INT64_MIN; omega) (by omega),
      int64_ok (by unfold INT64_MIN; omega) (by unfold INT64_MAX; omega)]
    rfl
  by_cases hlimit : d.AtLimit value
  · have hadvance := advance_limit (f := ⟨value, value, value, 0, log⟩) h hlimit
    rw [if_neg (show ¬ (0 : ℤ) > 0 by omega)] at hadvance
    cases hcycle : d.cycle with
    | false =>
      rw [hcycle, if_neg (by decide)] at hadvance
      rw [fetchLoop, hadvance, if_pos ⟨hlimit, rfl⟩]
    | true =>
      rw [hcycle, if_pos rfl] at hadvance
      rw [fetchLoop_round hadvance (hcount _), if_neg fun hand =>
        absurd hand.2 (by decide), SeqDef.first, if_pos hlimit]
  · have hadvance := advance_next (f := ⟨value, value, value, 0, log⟩) h hlimit
    rw [fetchLoop_round hadvance (hcount _), if_neg fun hand =>
      hlimit hand.1, SeqDef.first, if_neg hlimit]

theorem fetched_one (h : d.InRange base) (log : ℤ) :
    Fetched d base 1 0 ⟨base, base, base, 1, log⟩ := by
  have hcache := d.cache_pos
  refine ⟨?_, ?_, rfl, rfl, Nat.le_refl 1, by push_cast; omega, fun _ => rfl, h, h⟩
  · ring
  · ring

end

end PgAutoIndex.Commands
