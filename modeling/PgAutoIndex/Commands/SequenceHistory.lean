import PgAutoIndex.Runs
import PgAutoIndex.Commands.Sequence

/-!
# Histories of a sequence

The calls of `nextval` by any number of sessions, with checkpoints and crashes. A crash ends all
sessions and leaves the tuple that was last written to the log. What makes this safe is that the
logged tuple is ahead of the one in the buffer by as many values as `log_cnt` says (`SeqOk`), and
that all values handed out or cached are not ahead of the one in the buffer (`Issued`).

The computations of a call stay in their type exactly when the size of the cache leaves room for the
values to log, so `nextval_correct_iff` is an equivalence.
-/

namespace PgAutoIndex.Commands

open Function

/-! ## One call -/

variable {session : ℕ} {base log v : ℤ} {logit : Bool} {s' : SeqState}

section
variable {d : SeqDef} {s : SeqState}

/-- The invariant of the tuple, the logged tuple and the caches. -/
structure SeqOk (d : SeqDef) (s : SeqState) : Prop where
  inRange : d.InRange s.tuple.lastValue
  logCnt_nonneg : 0 ≤ s.tuple.logCnt
  logCnt_le : s.tuple.logCnt ≤ SEQ_LOG_VALS
  /-- The log is ahead by the values that can be used without it. -/
  logged_eq : s.logged = ⟨s.tuple.lastValue + s.tuple.logCnt * d.incby, 0, s.tuple.isCalled⟩
  logged_inRange : d.InRange (s.tuple.lastValue + s.tuple.logCnt * d.incby)
  uncalled : s.tuple.isCalled = false → s.tuple.lastValue = d.start ∧ s.tuple.logCnt = 0
  /-- The cached values are in range. -/
  cached : ∀ p, ∃ m : ℕ, (s.elm p).cached = (s.elm p).last + m * d.incby ∧
    (m ≠ 0 → (s.elm p).increment = d.incby ∧ d.InRange (s.elm p).last ∧ d.InRange (s.elm p).cached)

/-- What a call that fetches values leaves: the values from `base` to `base + n * incby` are the
session's. -/
structure FetchDone (d : SeqDef) (s : SeqState) (session : ℕ) (base : ℤ)
    (s' : SeqState) : Prop where
  base_inRange : d.InRange base
  elm_eq : ∃ n : ℕ, s'.tuple.lastValue = base + n * d.incby ∧
    s'.elm = update s.elm session ⟨base, base + n * d.incby, d.incby⟩
  inRange : d.InRange s'.tuple.lastValue
  isCalled : s'.tuple.isCalled = true
  logCnt_nonneg : 0 ≤ s'.tuple.logCnt
  logCnt_le : s'.tuple.logCnt ≤ SEQ_LOG_VALS
  logged_eq : s'.logged = ⟨s'.tuple.lastValue + s'.tuple.logCnt * d.incby, 0, true⟩
  logged_inRange : d.InRange (s'.tuple.lastValue + s'.tuple.logCnt * d.incby)

/-- What the decision to log comes to. -/
theorem decideLog_cases {fetch : ℤ} (h : decideLog d s = .ok (fetch, log, logit)) :
    (logit = true ∧ fetch = log ∧ fetch = (if s.tuple.isCalled then d.cache
      else d.cache - 1) + SEQ_LOG_VALS ∧ fetch ≤ INT64_MAX) ∨
      (logit = false ∧ s.tuple.isCalled = true ∧ fetch = d.cache ∧ log = s.tuple.logCnt ∧
        d.cache ≤ s.tuple.logCnt) := by
  have hforced : ∀ n, (int64 n).map (fun n => (n, n, true)) = .ok (fetch, log, logit) →
      logit = true ∧ fetch = log ∧ fetch = n ∧ fetch ≤ INT64_MAX := by
    intro n hn
    unfold int64 at hn
    split_ifs at hn with hin
    · obtain ⟨rfl, rfl, rfl⟩ := hn
      exact ⟨rfl, rfl, rfl, hin.2⟩
    · cases hn
  unfold decideLog at h
  dsimp only at h
  generalize hfetch : (if s.tuple.isCalled then d.cache else d.cache - 1) = n at h ⊢
  split_ifs at h with hfirst hsecond
  · exact .inl (hforced _ h)
  · exact .inl (hforced _ h)
  · rw [not_or, Bool.not_eq_true, Bool.not_eq_false'] at hfirst
    obtain ⟨henough, hcalled⟩ := hfirst
    rw [if_pos hcalled] at hfetch
    obtain ⟨rfl, rfl, rfl⟩ := h
    exact .inr ⟨rfl, hcalled, hfetch.symm, rfl, hfetch ▸ Int.not_lt.mp henough⟩

/-- With room for the values to log, the decision does not fail. -/
theorem decideLog_ok (hcache : d.cache + SEQ_LOG_VALS ≤ INT64_MAX) :
    ∃ fetch log logit, decideLog d s = .ok (fetch, log, logit) := by
  have hpos := d.cache_pos
  have hlow : INT64_MIN ≤ (if s.tuple.isCalled then d.cache else d.cache - 1) + SEQ_LOG_VALS := by
    unfold INT64_MIN SEQ_LOG_VALS
    split_ifs <;> omega
  have hhigh : (if s.tuple.isCalled then d.cache else d.cache - 1) + SEQ_LOG_VALS ≤ INT64_MAX := by
    split_ifs <;> omega
  unfold decideLog
  dsimp only
  generalize (if s.tuple.isCalled then d.cache else d.cache - 1) = fetch at hlow hhigh ⊢
  rw [int64_ok hlow hhigh]
  split_ifs <;> exact ⟨_, _, _, rfl⟩

/-- Values between two values of a sequence are in range. -/
theorem SeqDef.InRange.between (h : d.InRange v) {n m : ℤ} (h' : d.InRange (v + n * d.incby))
    (hm : 0 ≤ m) (hmn : m ≤ n) :
    d.InRange (v + m * d.incby) := by
  obtain ⟨hlow, hhigh⟩ := h
  obtain ⟨hlow', hhigh'⟩ := h'
  unfold SeqDef.InRange
  rcases Int.lt_or_gt_of_ne d.incby_ne with hneg | hpos
  · have h1 : n * d.incby ≤ m * d.incby := Int.mul_le_mul_of_nonpos_right hmn (by omega)
    have h2 : m * d.incby ≤ 0 * d.incby := Int.mul_le_mul_of_nonpos_right hm (by omega)
    omega
  · have h1 : m * d.incby ≤ n * d.incby := Int.mul_le_mul_of_nonneg_right hmn (by omega)
    have h2 : 0 * d.incby ≤ m * d.incby := Int.mul_le_mul_of_nonneg_right hm (by omega)
    omega

/-- A value with a next one in range is not at the limit. -/
theorem SeqDef.InRange.not_atLimit (h : d.InRange (v + d.incby)) : ¬ d.AtLimit v := by
  obtain ⟨hlow, hhigh⟩ := h
  unfold SeqDef.AtLimit
  split_ifs <;> omega

/-- After the loop, when the logged tuple is ahead of the new one by the values that are left over.
-/
theorem Fetched.done {r e : ℕ} {f : Fetch} (hf : Fetched d base r e f) (hnonneg : 0 ≤ log)
    (hle : log ≤ SEQ_LOG_VALS)
    (hrange : d.InRange (f.last + log * d.incby))
    (hlogged : (saveFetched d s session f log logit).logged = ⟨f.last + log * d.incby, 0, true⟩) :
    FetchDone d s session base (saveFetched d s session f log logit) := by
  have hlast : f.last = base + ((r - 1 : ℕ) : ℤ) * d.incby := by
    rw [hf.last_eq, Nat.cast_sub hf.rescnt_pos]
    rfl
  refine ⟨hf.base_inRange, ⟨r - 1, hlast, ?_⟩, ?_, rfl, hnonneg, hle, hlogged, hrange⟩
  · rw [← hlast, ← hf.result_eq]
    cases logit <;> rfl
  · show d.InRange f.last
    rw [hlast, add_assoc, ← add_mul] at hrange
    rw [hlast]
    exact hf.base_inRange.between hrange (by omega) (by omega)

/-- The loop that fetches `fetch` values after `base`, and what is saved after it. -/
def Fetches (d : SeqDef) (s : SeqState) (session : ℕ) (base : ℤ) (fetch : ℕ) (log : ℤ)
    (logit : Bool) : Prop :=
  ∃ rest f, fetchLoop d fetch ⟨base, base, base, 1, log⟩ = .ok (rest, f) ∧
    ∃ log', int64 (f.log - rest) = .ok log' ∧
    f.result = base ∧ FetchDone d s session base (saveFetched d s session f log' logit)

/-- A call that writes to the log, from the first value on. -/
theorem fetchLoop_logged (hbase : d.InRange base) (fetch : ℕ)
    (hfetch : (fetch : ℤ) = d.cache - 1 + SEQ_LOG_VALS) (hlog : log = fetch)
    (hle : (fetch : ℤ) ≤ INT64_MAX) (session : ℕ) : Fetches d s session base fetch log true := by
  unfold SEQ_LOG_VALS at hfetch
  obtain ⟨rest, r, e, f, hloop, hfetched, hsum, hr, hflog, _⟩ :=
    fetchLoop_fetched fetch (fetched_one hbase log)
    (by show d.cache - (1 : ℕ) ≤ log; push_cast; omega) (by show log ≤ INT64_MAX; omega)
  dsimp only at hflog
  have hextra : (e : ℤ) ≤ SEQ_LOG_VALS := by
    unfold SEQ_LOG_VALS
    by_cases hlt : (r : ℤ) < d.cache
    · rw [hfetched.logged_after hlt]
      decide
    · omega
  have hfinal : f.log - rest = e := by omega
  have hnext : f.next = f.last + e * d.incby := by
    rw [hfetched.next_eq, hfetched.last_eq]
    ring
  refine ⟨rest, f, hloop, e, ?_, hfetched.result_eq,
    hfetched.done (by omega) hextra (hnext ▸ hfetched.next_inRange) ?_⟩
  · unfold SEQ_LOG_VALS at hextra
    rw [hfinal]
    exact int64_ok (by unfold INT64_MIN; omega) (by unfold INT64_MAX; omega)
  · rw [← hnext]
    rfl

/-- A call that does not write to the log uses values that are logged already. -/
theorem fetchLoop_unlogged (h : SeqOk d s) (hcalled : s.tuple.isCalled = true)
    (hlog : d.cache ≤ s.tuple.logCnt) (session : ℕ) :
    Fetches d s session (d.first s.tuple.lastValue) (d.cache - 1).toNat
      (s.tuple.logCnt - 1) false := by
  have hcache := d.cache_pos
  have hloghigh := h.logCnt_le
  unfold SEQ_LOG_VALS at hloghigh
  -- As many values as are logged are in range.
  have hvalue : ∀ m : ℤ, 0 ≤ m → m ≤ s.tuple.logCnt → d.InRange (s.tuple.lastValue + m * d.incby) :=
    fun m hm hmle => h.inRange.between h.logged_inRange hm hmle
  have hlimit : ¬ d.AtLimit s.tuple.lastValue := by
    apply SeqDef.InRange.not_atLimit
    have := hvalue 1 (by omega) (by omega)
    rwa [one_mul] at this
  have hfirst : d.first s.tuple.lastValue = s.tuple.lastValue + d.incby := if_neg hlimit
  rw [hfirst]
  have hbase : d.InRange (s.tuple.lastValue + d.incby) := h.inRange.next hlimit
  obtain ⟨rest, r, e, f, hloop, hfetched, hsum, hr, hflog, hstop⟩ :=
    fetchLoop_fetched (d.cache - 1).toNat
    (fetched_one hbase (s.tuple.logCnt - 1))
    (by show d.cache - (1 : ℕ) ≤ s.tuple.logCnt - 1; push_cast; omega)
    (by show s.tuple.logCnt - 1 ≤ INT64_MAX; unfold INT64_MAX; omega)
  dsimp only at hflog
  have hrest : rest = 0 := by
    rcases hstop with hzero | hatlimit
    · exact hzero
    · by_contra hne
      refine absurd hatlimit (SeqDef.InRange.not_atLimit ?_)
      have := hvalue (r + e + 1) (by omega) (by omega)
      rw [hfetched.next_eq]
      rwa [show s.tuple.lastValue + d.incby + (r - 1 + e : ℤ) * d.incby + d.incby =
        s.tuple.lastValue + (r + e + 1 : ℤ) * d.incby by ring]
  have hfull : (r : ℤ) = d.cache ∧ e = 0 := by
    by_cases hlt : (r : ℤ) < d.cache
    · have := hfetched.logged_after hlt
      omega
    · omega
  have hfinal : f.log - rest = s.tuple.logCnt - d.cache := by omega
  have hend : f.last + (s.tuple.logCnt - d.cache) * d.incby =
      s.tuple.lastValue + s.tuple.logCnt * d.incby := by
    rw [hfetched.last_eq, hfull.1]
    ring
  refine ⟨rest, f, hloop, s.tuple.logCnt - d.cache, ?_, hfetched.result_eq,
    hfetched.done (by omega) ?_ (hend ▸ h.logged_inRange) ?_⟩
  · rw [hfinal]
    exact int64_ok (by unfold INT64_MIN; omega) (by unfold INT64_MAX; omega)
  · unfold SEQ_LOG_VALS
    omega
  · rw [hend, ← hcalled]
    exact h.logged_eq

/-- The first value that a call fetches. -/
def firstFetched (d : SeqDef) (s : SeqState) : ℤ :=
  if s.tuple.isCalled then d.first s.tuple.lastValue else s.tuple.lastValue

/-- The call that fetches, with the decision to log and the loop evaluated. -/
theorem nextvalInternal_fetch (hempty : (s.elm session).last = (s.elm session).cached)
    {fetch log' : ℤ} {rest : ℕ} {f : Fetch} (hdecide : decideLog d s = .ok (fetch, log, logit))
    (hloop : fetchLoop d fetch.toNat ⟨s.tuple.lastValue, s.tuple.lastValue, s.tuple.lastValue,
      if s.tuple.isCalled then 0 else 1, log⟩
      = .ok (rest, f)) (hlog : int64 (f.log - rest) = .ok log') :
    nextvalInternal d s session = (.ok f.result, saveFetched d s session f log' logit) := by
  unfold nextvalInternal
  rw [if_neg (not_not.mpr hempty), hdecide]
  dsimp only
  rw [hloop]
  dsimp only
  rw [hlog]

/-- A call without cached values raises at the limit, or fetches values. -/
theorem nextval_fetch (h : SeqOk d s) (hempty : (s.elm session).last = (s.elm session).cached)
    {fetch : ℤ} (hdecide : decideLog d s = .ok (fetch, log, logit)) :
    (s.tuple.isCalled = true ∧ d.AtLimit s.tuple.lastValue ∧ d.cycle = false ∧
      nextvalInternal d s session = (.error d.limitError, s)) ∨
    (¬ (s.tuple.isCalled = true ∧ d.AtLimit s.tuple.lastValue ∧ d.cycle = false) ∧
      ∃ s', nextvalInternal d s session = (.ok (firstFetched d s), s') ∧
        FetchDone d s session (firstFetched d s) s') := by
  have hcache := d.cache_pos
  have hcases := decideLog_cases hdecide
  have hloghigh := h.logCnt_le
  unfold SEQ_LOG_VALS at hcases hloghigh
  unfold firstFetched
  cases hcalled : s.tuple.isCalled with
  | false =>
    -- The first value is the one of the tuple.
    rw [hcalled] at hcases
    rcases hcases with ⟨rfl, rfl, hfetch, hle⟩ | ⟨-, hnot, -⟩
    · rw [if_neg (by decide)] at hfetch ⊢
      have hnat : (fetch.toNat : ℤ) = fetch := by omega
      obtain ⟨rest, f, hloop, log', hlog', hresult, hdone⟩ :=
        fetchLoop_logged (s := s) h.inRange fetch.toNat (by unfold SEQ_LOG_VALS; omega) hnat.symm
        (by omega) session
      refine .inr ⟨fun hand => absurd hand.1 (by decide), _, ?_, hdone⟩
      rw [nextvalInternal_fetch hempty hdecide
        (by rw [hcalled, if_neg (by decide)]; exact hloop) hlog', hresult]
    · cases hnot
  | true =>
    rw [hcalled, if_pos rfl] at hcases
    rw [if_pos rfl]
    have hnat : fetch.toNat = (fetch - 1).toNat + 1 := by omega
    have hround :=
      fetchLoop_first h.inRange (show 1 ≤ log by omega) (by unfold INT64_MAX at *; omega)
        (fetch - 1).toNat
    by_cases hlimit : d.AtLimit s.tuple.lastValue ∧ d.cycle = false
    · refine .inl ⟨rfl, hlimit.1, hlimit.2, ?_⟩
      rw [if_pos hlimit] at hround
      unfold nextvalInternal
      rw [if_neg (not_not.mpr hempty), hdecide]
      dsimp only
      rw [hcalled, if_pos rfl, hnat, hround]
    · rw [if_neg hlimit] at hround
      obtain ⟨rest, f, hloop, log', hlog', hresult, hdone⟩ :
          Fetches d s session (d.first s.tuple.lastValue) (fetch - 1).toNat (log - 1) logit := by
        rcases hcases with ⟨rfl, rfl, hfetch, hle⟩ | ⟨rfl, -, rfl, rfl, henough⟩
        · exact fetchLoop_logged (SeqDef.first_inRange h.inRange) (fetch - 1).toNat
            (by unfold SEQ_LOG_VALS; omega) (by omega) (by omega) session
        · exact fetchLoop_unlogged h hcalled henough session
      refine .inr ⟨fun hand => hlimit hand.2, _, ?_, hdone⟩
      rw [nextvalInternal_fetch hempty hdecide
        (by rw [hcalled, if_pos rfl, hnat, hround]; exact hloop) hlog', hresult]

/-- A session that has cached values. -/
theorem SeqOk.cached_succ (h : SeqOk d s) (hne : (s.elm session).last ≠ (s.elm session).cached) :
    ∃ m : ℕ, (s.elm session).cached = (s.elm session).last + d.incby + m * d.incby ∧
      (s.elm session).increment = d.incby ∧
      d.InRange (s.elm session).last ∧ d.InRange (s.elm session).cached := by
  obtain ⟨m, hcached, hvalues⟩ := h.cached session
  cases m with
  | zero =>
    rw [Nat.cast_zero, zero_mul, add_zero] at hcached
    exact absurd hcached.symm hne
  | succ m =>
    refine ⟨m, ?_, hvalues (Nat.succ_ne_zero m)⟩
    rw [hcached]
    push_cast
    ring

/-- The session uses its next cached value. -/
def SeqState.useCached (d : SeqDef) (s : SeqState) (session : ℕ) : SeqState :=
  { s with
    elm := update s.elm session { s.elm session with last := (s.elm session).last + d.incby } }

/-- A call with cached values returns the next one. -/
theorem nextval_cached (h : SeqOk d s) (hne : (s.elm session).last ≠ (s.elm session).cached) :
    d.InRange ((s.elm session).last + d.incby) ∧
    nextvalInternal d s session =
      (.ok ((s.elm session).last + d.incby), s.useCached d session) := by
  obtain ⟨m, hcached, hincrement, hlast, hrange⟩ := h.cached_succ hne
  have hnext : d.InRange ((s.elm session).last + d.incby) := by
    rw [hcached, show (s.elm session).last + d.incby + m * d.incby =
      (s.elm session).last + (m + 1 : ℤ) * d.incby by ring] at hrange
    have := hlast.between hrange (m := 1) (by omega) (by omega)
    rwa [one_mul] at this
  refine ⟨hnext, ?_⟩
  unfold nextvalInternal SeqState.useCached
  dsimp only
  rw [if_pos hne, hincrement, int64_ok hnext.int64.1 hnext.int64.2]

/-- A call keeps the invariant. -/
theorem FetchDone.ok (h : SeqOk d s) (hdone : FetchDone d s session base s') : SeqOk d s' := by
  refine ⟨hdone.inRange, hdone.logCnt_nonneg, hdone.logCnt_le, ?_, hdone.logged_inRange,
    fun hnot => ?_, fun p => ?_⟩
  · rw [hdone.logged_eq, hdone.isCalled]
  · exact absurd (hnot.symm.trans hdone.isCalled) (by decide)
  · obtain ⟨n, hlast, helm⟩ := hdone.elm_eq
    rw [helm]
    by_cases hp : p = session
    · subst hp
      rw [update_self]
      exact ⟨n, rfl, fun _ => ⟨rfl, hdone.base_inRange, hlast ▸ hdone.inRange⟩⟩
    · rw [update_of_ne hp]
      exact h.cached p

/-- Using a cached value. -/
theorem SeqOk.useCached (h : SeqOk d s) (hne : (s.elm session).last ≠ (s.elm session).cached) :
    SeqOk d (s.useCached d session) := by
  refine { h with cached := fun p => ?_ }
  unfold SeqState.useCached
  dsimp only
  by_cases hp : p = session
  · subst hp
    rw [update_self]
    obtain ⟨m, hcached, hincrement, -, hlast⟩ := h.cached_succ hne
    exact ⟨m, hcached, fun _ => ⟨hincrement, (nextval_cached h hne).1, hlast⟩⟩
  · rw [update_of_ne hp]
    exact h.cached p

end

/-! ## Histories -/

/-- What can happen to a sequence. -/
inductive SeqEvent
  | nextval (session : ℕ)
  | checkpoint
  | crash

/-- A session without cached values. -/
def emptyCache : SeqCache := ⟨0, 0, 0⟩

/-- The state and the values that have been returned, the last one first. A call that raises returns
none. A checkpoint makes the log begin anew, and a crash ends the sessions and leaves the logged
tuple. -/
def seqStep (d : SeqDef) (sh : SeqState × List ℤ) : SeqEvent → Option (SeqState × List ℤ)
  | .nextval session =>
    match nextvalInternal d sh.1 session with
    | (.ok v, s) => some (s, v :: sh.2)
    | (.error _, s) => some (s, sh.2)
  | .checkpoint => some ({ sh.1 with redoRecPtr := sh.1.insertLSN }, sh.2)
  | .crash => some ({ sh.1 with tuple := sh.1.logged, elm := fun _ => emptyCache }, sh.2)

/-- A new sequence; its tuple is logged. -/
def seqInit (d : SeqDef) : SeqState where
  tuple := ⟨d.start, 0, false⟩
  logged := ⟨d.start, 0, false⟩
  pageLSN := 1
  redoRecPtr := 0
  insertLSN := 1
  elm := fun _ => emptyCache

section
variable {d : SeqDef} {s : SeqState} {h : List ℤ}

/-- The invariant holds when the tuple is the logged one and nothing is cached. -/
theorem seqOk_of_logged (s : SeqState) {t : SeqTuple} (hcnt : t.logCnt = 0)
    (hrange : d.InRange t.lastValue)
    (huncalled : t.isCalled = false → t.lastValue = d.start) :
      SeqOk d { s with tuple := t, logged := t, elm := fun _ => emptyCache } := by
  obtain ⟨v, _, called⟩ := t
  subst hcnt
  have hzero : v + 0 * d.incby = v := by rw [zero_mul, add_zero]
  refine ⟨hrange, Int.le_refl 0, by show (0 : ℤ) ≤ 32; decide, ?_, ?_,
    fun hnot => ⟨huncalled hnot, rfl⟩,
    fun _ => ⟨0, by simp [emptyCache], fun hne => absurd rfl hne⟩⟩ <;>
    dsimp only <;> rw [hzero]
  exact hrange

/-- The new sequence. -/
theorem seqInit_ok (d : SeqDef) : SeqOk d (seqInit d) :=
  seqOk_of_logged (seqInit d) rfl d.start_inRange fun _ => rfl

/-- Recovery. -/
theorem SeqOk.crash (hs : SeqOk d s) :
    SeqOk d { s with tuple := s.logged, elm := fun _ => emptyCache } := by
  refine seqOk_of_logged s ?_ ?_ ?_ <;> rw [hs.logged_eq]
  · exact hs.logged_inRange
  · intro hnot
    obtain ⟨hlast, hcnt⟩ := hs.uncalled hnot
    rw [hlast, hcnt, zero_mul, add_zero]

/-! ### Values are those of a cycle -/

/-- The value is in a cycle from the start, or, for a sequence that starts over, from the other end
of the range. -/
def SeqDef.Reached (d : SeqDef) (v : ℤ) : Prop :=
  ∃ c, (c = d.start ∨ (d.cycle = true ∧ c = d.wrap)) ∧ ∃ i : ℕ, v = c + i * d.incby

/-- Going on by increments. -/
theorem SeqDef.Reached.add (hv : d.Reached v) (n : ℕ) : d.Reached (v + n * d.incby) := by
  obtain ⟨c, hc, i, rfl⟩ := hv
  refine ⟨c, hc, i + n, ?_⟩
  push_cast
  ring

/-- The start value. -/
theorem SeqDef.start_reached (d : SeqDef) : d.Reached d.start := ⟨d.start, .inl rfl, 0, by simp⟩

/-- The values that were returned, with the tuple and the caches. -/
structure Issued (d : SeqDef) (s : SeqState) (h : List ℤ) : Prop where
  inRange : ∀ v ∈ h, d.InRange v
  reached : ∀ v ∈ h, d.Reached v
  tuple_reached : d.Reached s.tuple.lastValue
  cache_reached : ∀ p, (s.elm p).last ≠ (s.elm p).cached → d.Reached (s.elm p).last

/-- The first value of a call that does not raise. -/
theorem firstFetched_reached (hi : Issued d s h)
    (hraise : ¬ (s.tuple.isCalled = true ∧ d.AtLimit s.tuple.lastValue ∧ d.cycle = false)) :
    d.Reached (firstFetched d s) := by
  unfold firstFetched SeqDef.first
  split_ifs with hcalled hlimit
  · have hcycle : d.cycle = true := by
      by_contra hnot
      exact hraise ⟨hcalled, hlimit, (Bool.not_eq_true _).mp hnot⟩
    exact ⟨d.wrap, .inr ⟨hcycle, rfl⟩, 0, by simp⟩
  · have := hi.tuple_reached.add 1
    rwa [Nat.cast_one, one_mul] at this
  · exact hi.tuple_reached

/-- A call that returns a value and leaves it as the last one of its session keeps the values in a
cycle. -/
theorem Issued.returned {c : SeqCache} (hi : Issued d s h) (hrange : d.InRange c.last)
    (hlast : d.Reached c.last)
    (htuple : d.Reached s'.tuple.lastValue) (helm : s'.elm = update s.elm session c) :
      Issued d s' (c.last :: h) := by
  refine ⟨List.forall_mem_cons.mpr ⟨hrange, hi.inRange⟩,
    List.forall_mem_cons.mpr ⟨hlast, hi.reached⟩, htuple, fun p => ?_⟩
  rw [helm]
  by_cases hp : p = session
  · rw [hp, update_self]
    exact fun _ => hlast
  · rw [update_of_ne hp]
    exact hi.cache_reached p

/-- After a fetch. -/
theorem Issued.fetch (hi : Issued d s h) (hdone : FetchDone d s session base s')
    (hbase : d.Reached base) :
    Issued d s' (base :: h) := by
  obtain ⟨n, hlast, helm⟩ := hdone.elm_eq
  exact hi.returned hdone.base_inRange hbase (hlast ▸ hbase.add n) helm

/-- After a cached value. -/
theorem Issued.useCached (hi : Issued d s h) (hs : SeqOk d s)
    (hne : (s.elm session).last ≠ (s.elm session).cached) :
    Issued d (s.useCached d session) (((s.elm session).last + d.incby) :: h) := by
  have hreached := (hi.cache_reached session hne).add 1
  rw [Nat.cast_one, one_mul] at hreached
  exact hi.returned (c := { s.elm session with last := _ }) (nextval_cached hs hne).1 hreached
    hi.tuple_reached rfl

/-- After recovery. -/
theorem Issued.crash (hi : Issued d s h) (hs : SeqOk d s) :
    Issued d { s with tuple := s.logged, elm := fun _ => emptyCache } h := by
  refine ⟨hi.inRange, hi.reached, ?_, fun _ hne => absurd rfl hne⟩
  have := hi.tuple_reached.add s.tuple.logCnt.toNat
  rw [Int.toNat_of_nonneg hs.logCnt_nonneg] at this
  rw [hs.logged_eq]
  exact this

/-! ### Distinct values -/

/-- The position of a value in the direction of the sequence. -/
def SeqDef.key (d : SeqDef) (v : ℤ) : ℤ := if d.incby > 0 then v else -v

/-- Increments add to the key. -/
theorem SeqDef.key_add (d : SeqDef) (v n : ℤ) :
    d.key (v + n * d.incby) = d.key v + n * d.key d.incby := by
  unfold SeqDef.key
  split_ifs
  · rfl
  · ring

/-- The key grows by each increment. -/
theorem SeqDef.key_incby_pos (d : SeqDef) : 0 < d.key d.incby := by
  have hne := d.incby_ne
  unfold SeqDef.key
  split_ifs <;> omega

/-- The key of the next value. -/
theorem SeqDef.key_next (d : SeqDef) (v : ℤ) : d.key (v + d.incby) = d.key v + d.key d.incby := by
  have := d.key_add v 1
  rwa [one_mul, one_mul] at this

/-- Later values have no smaller key. -/
theorem SeqDef.key_le_add (d : SeqDef) (v : ℤ) {n : ℤ} (hn : 0 ≤ n) :
    d.key v ≤ d.key (v + n * d.incby) := by
  have hnonneg := Int.mul_nonneg hn (Int.le_of_lt d.key_incby_pos)
  rw [d.key_add]
  omega

/-- The value is one that the session has cached. -/
def InCache (d : SeqDef) (c : SeqCache) (v : ℤ) : Prop :=
  d.key c.last < d.key v ∧ d.key v ≤ d.key c.cached

/-- A used-up cache holds nothing. -/
theorem not_inCache_of_eq {c : SeqCache} (hc : c.last = c.cached) (v : ℤ) : ¬ InCache d c v := by
  rintro ⟨hlow, hhigh⟩
  rw [hc] at hlow
  omega

/-- Returned and cached values are not ahead of the tuple, and a cached value is one session's and
is not returned yet. -/
structure Distinct (d : SeqDef) (s : SeqState) (h : List ℤ) : Prop where
  nodup : h.Nodup
  behind : ∀ v ∈ h, d.key v ≤ d.key s.tuple.lastValue
  cache_behind : ∀ p v, InCache d (s.elm p) v → d.key v ≤ d.key s.tuple.lastValue
  cache_fresh : ∀ p v, InCache d (s.elm p) v → v ∉ h
  cache_disjoint : ∀ p q v, p ≠ q → InCache d (s.elm p) v → ¬ InCache d (s.elm q) v
  uncalled : s.tuple.isCalled = false → h = [] ∧ ∀ p v, ¬ InCache d (s.elm p) v

/-- The first value that is fetched is ahead of all returned and cached ones. -/
theorem Distinct.ahead (hd : Distinct d s h) (hcycle : d.cycle = false)
    (hraise : ¬ (s.tuple.isCalled = true ∧ d.AtLimit s.tuple.lastValue ∧ d.cycle = false)) :
    (∀ v ∈ h, d.key v < d.key (firstFetched d s)) ∧ ∀ p v, InCache d (s.elm p) v →
    d.key v < d.key (firstFetched d s) := by
  cases hcalled : s.tuple.isCalled with
  | false =>
    obtain ⟨hnil, hempty⟩ := hd.uncalled hcalled
    subst hnil
    exact ⟨nofun, fun p v hv => absurd hv (hempty p v)⟩
  | true =>
    have hlimit : ¬ d.AtLimit s.tuple.lastValue := fun hat => hraise ⟨hcalled, hat, hcycle⟩
    have hpos := d.key_incby_pos
    have hkey : d.key (firstFetched d s) = d.key s.tuple.lastValue + d.key d.incby := by
      rw [firstFetched, if_pos hcalled, SeqDef.first, if_neg hlimit, d.key_next]
    refine ⟨fun v hv => ?_, fun p v hv => ?_⟩
    · have := hd.behind v hv
      omega
    · have := hd.cache_behind p v hv
      omega

/-- A call that fetches keeps values distinct. -/
theorem Distinct.fetch (hd : Distinct d s h) (hdone : FetchDone d s session base s')
    (hahead : (∀ v ∈ h, d.key v < d.key base) ∧ ∀ p v, InCache d (s.elm p) v →
      d.key v < d.key base) : Distinct d s' (base :: h) := by
  obtain ⟨hhist, hcaches⟩ := hahead
  obtain ⟨n, hlast, helm⟩ := hdone.elm_eq
  have hbase : d.key base ≤ d.key s'.tuple.lastValue := by
    rw [hlast]
    exact d.key_le_add base (Int.natCast_nonneg n)
  -- A cached value is ahead of `base` when it is the session's, and behind it when it is another
  -- one's.
  have hcases : ∀ p v, InCache d (s'.elm p) v →
    (p = session ∧ d.key base < d.key v ∧ d.key v ≤ d.key s'.tuple.lastValue) ∨
      (p ≠ session ∧ InCache d (s.elm p) v ∧ d.key v < d.key base) := by
    intro p v hv
    rw [helm] at hv
    by_cases hp : p = session
    · rw [hp, update_self] at hv
      exact .inl ⟨hp, hv.1, hlast ▸ hv.2⟩
    · rw [update_of_ne hp] at hv
      exact .inr ⟨hp, hv, hcaches p v hv⟩
  refine ⟨List.nodup_cons.mpr ⟨fun hmem => ?_, hd.nodup⟩, fun v hv => ?_,
    fun p v hv => ?_, fun p v hv hmem => ?_, fun p q v hpq hv hv' => ?_, fun hnot => ?_⟩
  · exact absurd (hhist base hmem) (Int.lt_irrefl _)
  · rcases List.mem_cons.mp hv with rfl | hv
    · exact hbase
    · have := hhist v hv
      omega
  · rcases hcases p v hv with ⟨_, _, hle⟩ | ⟨_, _, hlt⟩ <;> omega
  · rcases List.mem_cons.mp hmem with rfl | hmem
    · rcases hcases p v hv with ⟨_, hlt, _⟩ | ⟨_, _, hlt⟩ <;> omega
    · rcases hcases p v hv with ⟨_, hlt, _⟩ | ⟨_, hold, _⟩
      · have := hhist v hmem
        omega
      · exact hd.cache_fresh p v hold hmem
  · rcases hcases p v hv with ⟨hp, hlt, _⟩ | ⟨_, hold, hlt⟩ <;>
      rcases hcases q v hv' with ⟨hq, hlt', _⟩ | ⟨_, hold', hlt'⟩
    · exact hpq (hp.trans hq.symm)
    · omega
    · omega
    · exact hd.cache_disjoint p q v hpq hold hold'
  · exact absurd (hnot.symm.trans hdone.isCalled) (by decide)

/-- The next cached value is one that the session has cached. -/
theorem SeqOk.inCache_next (hs : SeqOk d s) (hne : (s.elm session).last ≠ (s.elm session).cached) :
    InCache d (s.elm session) ((s.elm session).last + d.incby) := by
  obtain ⟨m, hcached, _⟩ := hs.cached_succ hne
  have hpos := d.key_incby_pos
  refine ⟨by rw [d.key_next]; omega, ?_⟩
  rw [hcached]
  exact d.key_le_add _ (Int.natCast_nonneg m)

/-- A call with a cached value keeps values distinct. -/
theorem Distinct.useCached (hd : Distinct d s h) (hs : SeqOk d s)
    (hne : (s.elm session).last ≠ (s.elm session).cached) :
    Distinct d (s.useCached d session) (((s.elm session).last + d.incby) :: h) := by
  have hnext := hs.inCache_next hne
  -- What is cached after the call was cached before, and is not the value that is returned.
  have hcases : ∀ p v, InCache d ((s.useCached d session).elm p) v →
      InCache d (s.elm p) v ∧ v ≠ (s.elm session).last + d.incby := by
    intro p v hv
    unfold SeqState.useCached at hv
    dsimp only at hv
    by_cases hp : p = session
    · rw [hp, update_self] at hv
      rw [hp]
      exact ⟨⟨hnext.1.trans hv.1, hv.2⟩, fun heq => Int.lt_irrefl _ (heq ▸ hv.1)⟩
    · rw [update_of_ne hp] at hv
      refine ⟨hv, ?_⟩
      rintro rfl
      exact hd.cache_disjoint p session _ hp hv hnext
  refine ⟨List.nodup_cons.mpr ⟨hd.cache_fresh session _ hnext, hd.nodup⟩, fun v hv => ?_,
    fun p v hv => hd.cache_behind p v (hcases p v hv).1, fun p v hv hmem => ?_,
    fun p q v hpq hv hv' => hd.cache_disjoint p q v hpq (hcases p v hv).1 (hcases q v hv').1,
    fun hnot => ?_⟩
  · rcases List.mem_cons.mp hv with rfl | hv
    · exact hd.cache_behind session _ hnext
    · exact hd.behind v hv
  · rcases List.mem_cons.mp hmem with heq | hmem
    · exact (hcases p v hv).2 heq
    · exact hd.cache_fresh p v (hcases p v hv).1 hmem
  · exact absurd hnext ((hd.uncalled hnot).2 session _)

/-- Values are distinct when none is cached. -/
theorem distinct_of_emptyCache (hnodup : h.Nodup)
    (hbehind : ∀ v ∈ h, d.key v ≤ d.key s.tuple.lastValue) (helm : s.elm = fun _ => emptyCache)
    (huncalled : s.tuple.isCalled = false → h = []) : Distinct d s h := by
  have hempty : ∀ p v, ¬ InCache d (s.elm p) v := by
    rw [helm]
    exact fun _ => not_inCache_of_eq rfl
  exact ⟨hnodup, hbehind, fun p v hv => absurd hv (hempty p v), fun p v hv =>
    absurd hv (hempty p v), fun p q v _ hv => absurd hv (hempty p v),
    fun hnot => ⟨huncalled hnot, hempty⟩⟩

/-- After a crash, the tuple is ahead of what it was. -/
theorem Distinct.crash (hd : Distinct d s h) (hs : SeqOk d s) :
    Distinct d { s with tuple := s.logged, elm := fun _ => emptyCache } h := by
  have hle := d.key_le_add s.tuple.lastValue hs.logCnt_nonneg
  rw [hs.logged_eq]
  exact distinct_of_emptyCache hd.nodup (fun v hv => (hd.behind v hv).trans hle) rfl
    fun hnot => (hd.uncalled hnot).1

/-! ### Runs -/

/-- What holds of the state and the returned values. -/
structure HistoryInv (d : SeqDef) (sh : SeqState × List ℤ) : Prop where
  ok : SeqOk d sh.1
  issued : Issued d sh.1 sh.2
  distinct : d.cycle = false → Distinct d sh.1 sh.2

/-- At first nothing is issued. -/
theorem historyInv_init (d : SeqDef) : HistoryInv d (seqInit d, []) :=
  ⟨seqInit_ok d, ⟨nofun, nofun, d.start_reached, fun _ hne => absurd rfl hne⟩,
    fun _ => distinct_of_emptyCache List.nodup_nil nofun rfl fun _ => rfl⟩

/-- What a call does: it returns a cached value, or the first of the values that it fetches, or
raises at the limit. -/
theorem HistoryInv.call {sh : SeqState × List ℤ} (hinv : HistoryInv d sh)
    (hcache : d.cache + SEQ_LOG_VALS ≤ INT64_MAX) (session : ℕ) :
    (∃ v s', nextvalInternal d sh.1 session = (.ok v, s') ∧ HistoryInv d (s', v :: sh.2) ∧
      (s'.elm session).last = v ∧
      ((sh.1.elm session).last ≠ (sh.1.elm session).cached →
        v = (sh.1.elm session).last + d.incby) ∧
      ((sh.1.elm session).last = (sh.1.elm session).cached → d.cycle = false →
        ∀ w ∈ sh.2, d.key w < d.key v)) ∨
    nextvalInternal d sh.1 session = (.error d.limitError, sh.1) := by
  obtain ⟨hs, hi, hd⟩ := hinv
  by_cases hcached : (sh.1.elm session).last = (sh.1.elm session).cached
  · obtain ⟨fetch, log, logit, hdecide⟩ := decideLog_ok (s := sh.1) hcache
    rcases nextval_fetch hs hcached hdecide with ⟨_, _, _, herror⟩ | ⟨hraise, s', hcall, hdone⟩
    · exact .inr herror
    · refine .inl
        ⟨_, s', hcall, ⟨hdone.ok hs, hi.fetch hdone (firstFetched_reached hi hraise), fun hcycle =>
        (hd hcycle).fetch hdone ((hd hcycle).ahead hcycle hraise)⟩, ?_, fun hne =>
          absurd hcached hne, fun _ hcycle => ((hd hcycle).ahead hcycle hraise).1⟩
      obtain ⟨n, _, helm⟩ := hdone.elm_eq
      rw [helm, update_self]
  · refine .inl ⟨_, _, (nextval_cached hs hcached).2,
      ⟨hs.useCached hcached, hi.useCached hs hcached,
        fun hcycle => (hd hcycle).useCached hs hcached⟩, ?_,
      fun _ => rfl, fun heq => absurd heq hcached⟩
    unfold SeqState.useCached
    dsimp only
    rw [update_self]

/-- One event keeps the invariant. -/
theorem HistoryInv.step {sh sh' : SeqState × List ℤ} {e : SeqEvent} (hinv : HistoryInv d sh)
    (hcache : d.cache + SEQ_LOG_VALS ≤ INT64_MAX)
    (hstep : seqStep d sh e = some sh') : HistoryInv d sh' := by
  cases e with
  | nextval session =>
    rw [seqStep] at hstep
    rcases hinv.call hcache session with ⟨v, s', hcall, hinv', _⟩ | herror
    · rw [hcall] at hstep
      cases hstep
      exact hinv'
    · rw [herror] at hstep
      cases hstep
      exact hinv
  | checkpoint =>
    cases hstep
    -- Nothing that the invariant is about changes.
    exact ⟨{ hinv.ok with }, { hinv.issued with }, fun hcycle => { hinv.distinct hcycle with }⟩
  | crash =>
    cases hstep
    exact ⟨hinv.ok.crash, hinv.issued.crash hinv.ok,
      fun hcycle => (hinv.distinct hcycle).crash hinv.ok⟩

/-- What `nextval` is for, in a state and after the values that were returned. -/
structure HistoryOk (d : SeqDef) (s : SeqState) (h : List ℤ) : Prop where
  inRange : ∀ v ∈ h, d.minv ≤ v ∧ v ≤ d.maxv
  /-- Within a cycle the values are the start, or the other end of the range, and multiples of the
  increment. -/
  reached : ∀ v ∈ h, d.Reached v
  nodup : d.cycle = false → h.Nodup
  logCnt_nonneg : 0 ≤ s.tuple.logCnt
  /-- A call returns the session's next cached value, or fetches and returns one ahead of all
  returned ones, or raises at the limit and changes nothing. It does not overflow. -/
  call : ∀ session,
    (∃ v s', nextvalInternal d s session = (.ok v, s') ∧ (s'.elm session).last = v ∧
      ((s.elm session).last ≠ (s.elm session).cached → v = (s.elm session).last + d.incby) ∧
      ((s.elm session).last = (s.elm session).cached → d.cycle = false →
        ∀ w ∈ h, d.key w < d.key v)) ∨
    nextvalInternal d s session = (.error d.limitError, s)

/-- Every run of calls, checkpoints and crashes is right. -/
def NextvalCorrect (d : SeqDef) : Prop :=
  ∀ es s h, Runs.Run (seqStep d) (fun _ _ => True) (seqInit d, []) es (s, h) → HistoryOk d s h

/-- A small enough cache. -/
theorem nextvalCorrect_of_cache (hcache : d.cache + SEQ_LOG_VALS ≤ INT64_MAX) :
    NextvalCorrect d := by
  intro es s h hrun
  have hinv : HistoryInv d (s, h) :=
    hrun.invariant (HistoryInv d) (historyInv_init d) fun a e b ha _ hstep => ha.step hcache hstep
  refine ⟨hinv.issued.inRange, hinv.issued.reached, fun hcycle =>
    (hinv.distinct hcycle).nodup, hinv.ok.logCnt_nonneg, fun session => ?_⟩
  rcases hinv.call hcache session with ⟨v, s', hcall, _, hlast⟩ | herror
  · exact .inl ⟨v, s', hcall, hlast⟩
  · exact .inr herror

/-- A call that has to log does not get over a cache that leaves no room for the values to log. -/
theorem nextval_overflow (hempty : (s.elm session).last = (s.elm session).cached)
    (hforced : s.tuple.logCnt < (if s.tuple.isCalled then d.cache else d.cache - 1) ∨
      (!s.tuple.isCalled) = true)
    (hover : INT64_MAX < (if s.tuple.isCalled then d.cache else d.cache - 1) + SEQ_LOG_VALS) :
    nextvalInternal d s session = (.error .overflow, s) := by
  have hdecide : decideLog d s = .error .overflow := by
    unfold decideLog
    rw [if_pos hforced, int64, if_neg fun hand => absurd hover (Int.not_lt.mpr hand.2)]
    rfl
  unfold nextvalInternal
  rw [if_neg (not_not.mpr hempty), hdecide]

/-- The limit errors are not the overflow. -/
theorem SeqDef.limitError_ne (d : SeqDef) : d.limitError ≠ .overflow := by
  unfold SeqDef.limitError
  split_ifs <;> exact SeqError.noConfusion

/-- A call that overflows is not right. -/
theorem HistoryOk.not_overflow (hok : HistoryOk d s h) (session : ℕ) :
    nextvalInternal d s session ≠ (.error .overflow, s) := by
  intro hover
  rcases hok.call session with ⟨v, s', hcall, _⟩ | herror
  · rw [hover] at hcall
    cases congrArg Prod.fst hcall
  · rw [hover] at herror
    exact d.limitError_ne (Except.error.inj (congrArg Prod.fst herror)).symm

/-- Conversely. -/
theorem cache_of_nextvalCorrect (hcorrect : NextvalCorrect d) :
    d.cache + SEQ_LOG_VALS ≤ INT64_MAX := by
  by_contra hnot
  have hinit := hcorrect [] _ _ .nil
  by_cases hfirst : INT64_MAX < d.cache - 1 + SEQ_LOG_VALS
  · -- The first call overflows.
    exact hinit.not_overflow 0 (nextval_overflow rfl (.inr rfl) hfirst)
  · -- The first call has one value less to fetch and gets through, and the first call of another
    -- session overflows.
    obtain ⟨fetch, log, logit, hdecide⟩ : ∃ fetch log logit,
    decideLog d (seqInit d) = .ok (fetch, log, logit) := by
      refine ⟨d.cache - 1 + SEQ_LOG_VALS, d.cache - 1 + SEQ_LOG_VALS, true, ?_⟩
      have hcache := d.cache_pos
      unfold decideLog
      rw [if_pos (.inr rfl), show (seqInit d).tuple.isCalled = false from rfl, if_neg (by decide),
        int64_ok (by unfold INT64_MIN SEQ_LOG_VALS; omega) (by omega)]
      rfl
    rcases nextval_fetch (seqInit_ok d) (show ((seqInit d).elm 0).last = _ from rfl) hdecide
      with ⟨hcalled, _⟩ | ⟨_, s', hcall, hdone⟩
    · cases hcalled
    · have hrun : Runs.Run (seqStep d) (fun _ _ => True) (seqInit d, []) ([] ++ [.nextval 0])
          (s', [firstFetched d (seqInit d)]) := by
        refine .concat .nil trivial ?_
        rw [seqStep, hcall]
      refine (hcorrect _ _ _ hrun).not_overflow 1 (nextval_overflow ?_ ?_ ?_)
      · obtain ⟨n, _, helm⟩ := hdone.elm_eq
        rw [helm, update_of_ne (by decide)]
        rfl
      · have hlog := hdone.logCnt_le
        unfold SEQ_LOG_VALS INT64_MAX at *
        exact .inl (by omega)
      · rw [if_pos hdone.isCalled]
        omega

end

/-- `nextval` is right in every run exactly when the values to log can be added to the size of the
cache. -/
theorem nextval_correct_iff (d : SeqDef) : NextvalCorrect d ↔ d.cache ≤ 2^63 - 1 - 32 := by
  have hiff : d.cache + SEQ_LOG_VALS ≤ INT64_MAX ↔ d.cache ≤ 2^63 - 1 - 32 := by
    unfold SEQ_LOG_VALS INT64_MAX
    omega
  exact ⟨fun h => hiff.mp (cache_of_nextvalCorrect h),
    fun h => nextvalCorrect_of_cache (hiff.mpr h)⟩

/-- `CREATE SEQUENCE` with the default options, and a size of the cache. -/
def ascending (cache : ℤ) (hpos : 1 ≤ cache) (hhigh : cache ≤ INT64_MAX) : SeqDef where
  start := 1
  incby := 1
  maxv := INT64_MAX
  minv := 1
  cache := cache
  cycle := false
  incby_ne := by decide
  incby_low := by decide
  incby_high := by decide
  minv_low := by decide
  maxv_high := Int.le_refl _
  start_low := Int.le_refl _
  start_high := by decide
  cache_pos := hpos
  cache_high := hhigh

/-- With the default cache of one value, `nextval` is right. -/
theorem nextval_correct_default : NextvalCorrect (ascending 1 (by decide) (by decide)) :=
  (nextval_correct_iff _).mpr (by decide)

/-- With the largest cache, the first call overflows. -/
theorem nextval_largest_cache :
    (nextvalInternal (ascending INT64_MAX (by decide) (Int.le_refl _))
      (seqInit (ascending INT64_MAX (by decide) (Int.le_refl _))) 0).1
      = .error .overflow ∧
    ¬ NextvalCorrect (ascending INT64_MAX (by decide) (Int.le_refl _)) := by
  have hover := nextval_overflow (d := ascending INT64_MAX (by decide) (Int.le_refl _))
    (s := seqInit (ascending INT64_MAX (by decide) (Int.le_refl _)))
    (show (SeqState.elm _ 0).last = _ from rfl) (.inr rfl) (by decide)
  exact ⟨congrArg Prod.fst hover, fun hcorrect => (hcorrect [] _ _ .nil).not_overflow 0 hover⟩

end PgAutoIndex.Commands
