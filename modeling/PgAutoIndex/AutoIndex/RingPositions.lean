import Mathlib.Algebra.Order.BigOperators.Group.Finset
import PgAutoIndex.AutoIndex.Ring

/-!
# The ring's positions and counters

The invariant of the ring under every interleaving, as long as fewer than `2^64` calls push. A call
tests for a full ring with a tail that may be old and a head read later, and both only modulo the
ring size. What saves it is the compare-and-swap: it succeeds only when the tail has not moved since
it was read, and then the test was made with the current tail and a head that can only have moved on
(`PushOk`, at `claim`). So `head ≤ tail ≤ head + 4095` in every reachable state (`RingInv`), which
is what `ring_positions` reports, with what it says about the counters.

No word wraps: every position belongs to its own call (`RingInv.tail_eq`).
-/

namespace PgAutoIndex.AutoIndex

open Function Option

variable {ι : Type} [DecidableEq ι]

/-! ## Counting calls -/

omit [DecidableEq ι] in
/-- At most as many calls are counted as there are: `w` marks the calls counted. -/
theorem sum_le_card [Fintype ι] (w : PushPc → ℕ) (hw : ∀ pc, w pc ≤ 1) (f : ι → PushPc) :
    ∑ j, w (f j) ≤ Fintype.card ι := by
  simpa using Finset.sum_le_card_nsmul Finset.univ (fun j => w (f j)) 1 fun j _ => hw _

/-- A call that is not yet counted leaves room for one more; `pc` is a place where `w` marks
a call. -/
theorem sum_succ_le_card [Fintype ι] (w : PushPc → ℕ) (hw : ∀ pc, w pc ≤ 1) (f : ι → PushPc) (i : ι)
    (pc : PushPc) (hi : w (f i) = 0) (hpc : w pc = 1) :
    ∑ j, w (f j) + 1 ≤ Fintype.card ι := by
  have hsum := Runs.sum_update_add w f i pc
  have hle := sum_le_card w hw (update f i pc)
  omega

/-! ## The invariant -/

/-- What a call knows about the ring, by where it is. At `claim` the tail that it read may be old;
when it is still the current one, there is room for one more entry. -/
def PushOk (head tail : ℕ) (claims : List ι) (i : ι) : PushPc → Prop
  | .readHead t => t ≤ tail
  | .claim t => t ≤ tail ∧ (t = tail → t + 1 ≤ head + 4095)
  | .copy p | .count p | .written p => claims[p]? = some i
  | _ => True

variable {head tail : ℕ} {claims : List ι} {i : ι} {pc : PushPc} {s s' : RingState ι}
  {entry : ι → WorkloadEntry}

omit [DecidableEq ι] in
/-- A call that owns a position is the one that won it. -/
theorem PushOk.owner {p : ℕ} (h : PushOk head tail claims i pc) (hp : pc.pos = some p) :
    claims[p]? = some i := by
  cases pc <;> simp only [PushPc.pos, some.injEq, reduceCtorEq] at hp
  all_goals
    subst hp
    exact h

omit [DecidableEq ι] in
/-- The head moving on keeps what a call knows. -/
theorem PushOk.mono_head {head' : ℕ} (h : PushOk head tail claims i pc) (hle : head ≤ head') :
    PushOk head' tail claims i pc := by
  cases pc <;> simp only [PushOk] at h ⊢ <;> first | exact h |
    exact ⟨h.1, fun e => by have := h.2 e; omega⟩

omit [DecidableEq ι] in
/-- Another call's compare-and-swap keeps what a call knows: a tail read before it is now old. -/
theorem PushOk.concat {j : ι} (h : PushOk head tail claims i pc) :
    PushOk head (tail + 1) (claims ++ [j]) i pc := by
  have happend : ∀ p : ℕ, claims[p]? = some i → (claims ++ [j])[p]? = some i := by
    intro p hp
    rw [List.getElem?_append_left (List.getElem?_eq_some_iff.mp hp).1, hp]
  cases pc <;> simp only [PushOk] at h ⊢
  case readHead t => omega
  case claim t => omega
  all_goals exact happend _ h

/-- What the worker knows about the ring, by where it is. -/
def WorkerOk (head tail : ℕ) : WorkerPc → Prop
  | .idle => True
  | .readTail h => h = head
  | .scan h t _ _ => head ≤ h ∧ h ≤ t ∧ t ≤ tail

/-- The invariant of the ring. -/
structure RingInv [Fintype ι] (s : RingState ι) : Prop where
  head_le : s.head ≤ s.tail
  tail_le : s.tail ≤ s.head + 4095
  /-- Every position below `tail` was won by one compare-and-swap. -/
  claims_length : s.claims.length = s.tail
  push_ok : ∀ i, PushOk s.head s.tail s.claims i (s.push i)
  worker_ok : WorkerOk s.head s.tail s.worker
  /-- `tail` counts the calls that have won. -/
  tail_eq : s.tail = ∑ i, (s.push i).won
  written_eq : s.total_written = ∑ i, (s.push i).wrote
  dropped_eq : s.total_dropped = ∑ i, (s.push i).gaveUp
  written_by_eq : ∀ i, s.written_by i = (s.push i).wrote
  dropped_by_eq : ∀ i, s.dropped_by i = (s.push i).gaveUp

variable [Fintype ι]

omit [DecidableEq ι] in
/-- The invariant holds of the zeroed ring. -/
theorem ringInv_init : RingInv (RingState.init : RingState ι) := by
  constructor <;> simp [RingState.init, PushOk, WorkerOk, PushPc.won, PushPc.wrote, PushPc.gaveUp]

/-- A step of call `i` to `pc` keeps the invariant when the tail and the counters grow by what the
call has won, written or given up in the step, and every call still knows what it has to know. -/
theorem RingInv.call (h : RingInv s) (i : ι) (pc : PushPc)
    (hpush : s'.push = update s.push i pc) (hhead : s'.head = s.head)
    (hworker : s'.worker = s.worker) (htail : s'.tail + (s.push i).won = s.tail + pc.won)
    (hmono : s.tail ≤ s'.tail) (hcap : s'.tail ≤ s.head + 4095)
    (hlength : s'.claims.length = s'.tail)
    (hwritten : s'.total_written + (s.push i).wrote = s.total_written + pc.wrote)
    (hdropped : s'.total_dropped + (s.push i).gaveUp = s.total_dropped + pc.gaveUp)
    (hwrittenBy : s'.written_by = update s.written_by i pc.wrote)
    (hdroppedBy : s'.dropped_by = update s.dropped_by i pc.gaveUp)
    (hok : PushOk s.head s'.tail s'.claims i pc)
    (hothers : ∀ j, PushOk s.head s.tail s.claims j (s.push j) →
      PushOk s.head s'.tail s'.claims j (s.push j)) :
    RingInv s' := by
  -- Each count over all calls changes by what call `i` contributes to it.
  have hsum : ∀ w : PushPc → ℕ,
      ∑ j, w (s'.push j) + w (s.push i) = ∑ j, w (s.push j) + w pc := by
    intro w
    rw [hpush]
    exact Runs.sum_update_add w s.push i pc
  have hwon := hsum PushPc.won
  have hwrote := hsum PushPc.wrote
  have hgave := hsum PushPc.gaveUp
  have h1 := h.tail_eq
  have h2 := h.written_eq
  have h3 := h.dropped_eq
  refine ⟨?_, ?_, hlength, ?_, ?_, ?_, ?_, ?_, ?_, ?_⟩
  · have := h.head_le
    omega
  · omega
  · rw [hpush, hhead]
    exact (forall_update_iff s.push fun j pc => PushOk s.head s'.tail s'.claims j pc).mpr
      ⟨hok, fun j _ => hothers j (h.push_ok j)⟩
  · -- The tail moving on keeps what the worker knows.
    have hworker_ok := h.worker_ok
    rw [hhead, hworker]
    cases hpc : s.worker with
    | idle => trivial
    | readTail hd => rwa [hpc] at hworker_ok
    | scan hd tl usage i =>
      rw [hpc] at hworker_ok
      exact ⟨hworker_ok.1, hworker_ok.2.1, hworker_ok.2.2.trans hmono⟩
  · omega
  · omega
  · omega
  · rw [hpush, hwrittenBy, funext h.written_by_eq]
    exact fun j => (congrFun (comp_update PushPc.wrote s.push i pc) j).symm
  · rw [hpush, hdroppedBy, funext h.dropped_by_eq]
    exact fun j => (congrFun (comp_update PushPc.gaveUp s.push i pc) j).symm

/-- A step that only moves call `i`, from `old` to `pc`, and neither wins, writes nor gives up,
keeps the invariant. -/
theorem RingInv.move (h : RingInv s) (i : ι) {old : PushPc} (hold : s.push i = old) (pc : PushPc)
    (hwon : pc.won = old.won) (hwrote : pc.wrote = old.wrote) (hgave : pc.gaveUp = old.gaveUp)
    (hok : PushOk s.head s.tail s.claims i pc) (entries : Fin AUTOINDEX_RING_SIZE → WorkloadEntry) :
    RingInv { s with push := update s.push i pc, entries := entries } := by
  subst hold
  refine h.call i pc rfl rfl rfl ?_ le_rfl h.tail_le h.claims_length ?_ ?_ ?_ ?_ hok fun _ hj => hj
  · rw [hwon]
  · rw [hwrote]
  · rw [hgave]
  · rw [hwrote, ← h.written_by_eq i, update_eq_self]
  · rw [hgave, ← h.dropped_by_eq i, update_eq_self]

omit [DecidableEq ι] in
/-- The number of calls bounds the tail. -/
theorem RingInv.tail_le_card (h : RingInv s) : s.tail ≤ Fintype.card ι := by
  rw [h.tail_eq]
  exact sum_le_card _ (fun pc => by cases pc <;> simp [PushPc.won]) _

/-- The number of calls bounds the tail that a compare-and-swap can reach. -/
theorem RingInv.tail_succ_le (h : RingInv s) (hi : (s.push i).won = 0) :
    s.tail + 1 ≤ Fintype.card ι := by
  rw [h.tail_eq]
  exact sum_succ_le_card _ (fun pc => by cases pc <;> simp [PushPc.won]) _ i (.copy 0) hi rfl

/-- Every step of a call keeps the invariant. -/
theorem RingInv.push (hι : Fintype.card ι < 2^64) (h : RingInv s)
    (hs : ringBufferPush entry s i = some s') :
    RingInv s' := by
  have hi := h.push_ok i
  have hwb := h.written_by_eq i
  have hdb := h.dropped_by_eq i
  unfold ringBufferPush at hs
  generalize hpc : s.push i = pc at hs hi hwb hdb
  cases pc with
  | readTail =>
    cases hs
    exact h.move i hpc (.readHead s.tail) rfl rfl rfl le_rfl _
  | readHead t =>
    cases hs
    split_ifs with hfull
    · exact h.move i hpc .drop rfl rfl rfl trivial _
    · -- The test says something about the current ring only when the tail read is current.
      refine h.move i hpc (.claim t) rfl rfl rfl ⟨hi, ?_⟩ _
      intro hnow
      have hcard := h.tail_succ_le (i := i) (by rw [hpc]; rfl)
      have hle := h.head_le
      have hcap := h.tail_le
      rw [succ64_of_lt (by omega), ringSlot_eq_iff] at hfull
      omega
  | drop =>
    cases hs
    have hlt : s.total_dropped + 1 < 2^64 := by
      have hle := sum_succ_le_card PushPc.gaveUp (fun pc => by cases pc <;> simp [PushPc.gaveUp])
        s.push i .dropped (by rw [hpc]; rfl) rfl
      have heq := h.dropped_eq
      omega
    refine h.call i .dropped rfl rfl rfl ?_ le_rfl h.tail_le h.claims_length ?_ ?_ ?_ ?_ trivial
      fun _ hj => hj
    · simp [hpc, PushPc.won]
    · simp [hpc, PushPc.wrote]
    · simp [hpc, PushPc.gaveUp, succ64_of_lt hlt]
    · rw [show PushPc.dropped.wrote = s.written_by i by rw [hwb]; rfl, update_eq_self]
    · rw [hdb]
      rfl
  | claim t =>
    dsimp only at hs
    split_ifs at hs with hcas
    · -- The compare-and-swap succeeds: the tail read is still current, so there is room.
      cases hs
      have hcard := h.tail_succ_le (i := i) (by rw [hpc]; rfl)
      have hnext : succ64 t = s.tail + 1 := by rw [← hcas, succ64_of_lt (by omega)]
      have hroom := hi.2 hcas.symm
      refine h.call i (.copy t) rfl rfl rfl ?_ ?_ ?_ ?_ ?_ ?_ ?_ ?_ ?_ ?_
      · simp [hpc, PushPc.won, hnext]
      · simp only [hnext]
        omega
      · simp only [hnext]
        omega
      · simp [hnext, h.claims_length]
      · simp [hpc, PushPc.wrote]
      · simp [hpc, PushPc.gaveUp]
      · rw [show (PushPc.copy t).wrote = s.written_by i by rw [hwb]; rfl,
          update_eq_self]
      · rw [show (PushPc.copy t).gaveUp = s.dropped_by i by rw [hdb]; rfl,
          update_eq_self]
      · simp [PushOk, ← hcas, ← h.claims_length]
      · intro j hj
        simp only [hnext]
        exact hj.concat
    · cases hs
      exact h.move i hpc .readTail rfl rfl rfl trivial _
  | copy p =>
    cases hs
    exact h.move i hpc (.count p) rfl rfl rfl hi _
  | count p =>
    cases hs
    have hlt : s.total_written + 1 < 2^64 := by
      have hle := sum_succ_le_card PushPc.wrote (fun pc => by cases pc <;> simp [PushPc.wrote])
        s.push i (.written p) (by rw [hpc]; rfl) rfl
      have heq := h.written_eq
      omega
    refine h.call i (.written p) rfl rfl rfl ?_ le_rfl h.tail_le h.claims_length ?_ ?_ ?_ ?_ hi
      fun _ hj => hj
    · simp [hpc, PushPc.won]
    · simp [hpc, PushPc.wrote, succ64_of_lt hlt]
    · simp [hpc, PushPc.gaveUp]
    · rw [hwb]
      rfl
    · rw [show (PushPc.written p).gaveUp = s.dropped_by i by rw [hdb]; rfl,
        update_eq_self]
  | written p | dropped => cases hs

omit [DecidableEq ι] in
/-- Every step of the worker keeps the invariant. -/
theorem RingInv.drain (hι : Fintype.card ι < 2^64) (h : RingInv s) :
    RingInv (drainRingBuffer s) := by
  -- Only the last step of a drain changes `head`; every other step moves the worker alone.
  have hmove : ∀ (table : AdvisorHash) (folded : List ℕ) (pc : WorkerPc),
      WorkerOk s.head s.tail pc →
      RingInv { s with table := table, folded := folded, worker := pc } := by
    intro table folded pc hpc
    exact { h with worker_ok := hpc }
  have hw := h.worker_ok
  unfold drainRingBuffer
  cases hpc : s.worker with
  | idle => exact hmove s.table s.folded _ rfl
  | readTail hd =>
    rw [hpc] at hw
    exact hmove s.table s.folded _ ⟨hw.ge, hw.trans_le h.head_le, le_rfl⟩
  | scan hd tl usage i =>
    rw [hpc] at hw
    obtain ⟨hlo, hmid, hhi⟩ := hw
    dsimp only
    split_ifs with hend
    · -- The end of a drain: `head` becomes the tail that was read when the drain started.
      subst hend
      have hcap := h.tail_le
      exact { h with
        head_le := hhi
        tail_le := by show s.tail ≤ hd + 4095; omega
        push_ok := fun j => (h.push_ok j).mono_head hlo
        worker_ok := trivial }
    · have hcard := h.tail_le_card
      split
      · exact hmove _ s.folded _ ⟨hlo, hmid, hhi⟩
      · exact hmove s.table s.folded _ ⟨hlo, hmid, hhi⟩
      · exact hmove s.table s.folded _ ⟨hlo, hmid, hhi⟩
      · refine hmove s.table _ _ ?_
        rw [succ64_of_lt (by omega)]
        exact ⟨by omega, by omega, hhi⟩

/-- The invariant holds in every reachable state. -/
theorem ringInv_of_run (hι : Fintype.card ι < 2^64) {ok : RingState ι → Actor ι → Prop}
    {ls : List (Actor ι)} (h : Runs.Run (ringStep entry) ok .init ls s) : RingInv s := by
  refine h.invariant RingInv ringInv_init ?_
  intro a l b ha _ hstep
  cases l with
  | push i => exact ha.push hι hstep
  | worker =>
    cases hstep
    exact ha.drain hι

omit [Fintype ι] in
/-- No step of a call moves `head`, and only a compare-and-swap moves `tail`. -/
theorem ringBufferPush_head_tail (hs : ringBufferPush entry s i = some s') :
    s'.head = s.head ∧
    (s'.tail = s.tail ∨ (s.push i = .claim s.tail ∧ s'.tail = succ64 s.tail)) := by
  unfold ringBufferPush at hs
  cases hpc : s.push i <;> simp only [hpc, some.injEq, reduceCtorEq] at hs
  case claim t =>
    split_ifs at hs with hcas
    · cases hs
      subst hcas
      exact ⟨rfl, .inr ⟨rfl, rfl⟩⟩
    · cases hs
      exact ⟨rfl, .inl rfl⟩
  all_goals
    subst hs
    exact ⟨rfl, .inl rfl⟩

omit [DecidableEq ι] [Fintype ι] in
/-- The worker never moves `tail`, and moves `head` only to the tail that it has read. -/
theorem drainRingBuffer_head_tail (s : RingState ι) :
    (drainRingBuffer s).tail = s.tail ∧ ((drainRingBuffer s).head = s.head ∨
      ∃ usage i, s.worker = .scan (drainRingBuffer s).head (drainRingBuffer s).head usage i) := by
  unfold drainRingBuffer
  cases hpc : s.worker with
  | idle => exact ⟨rfl, .inl rfl⟩
  | readTail hd => exact ⟨rfl, .inl rfl⟩
  | scan hd tl usage i =>
    dsimp only
    split_ifs with hend
    · subst hend
      exact ⟨rfl, .inr ⟨usage, i, rfl⟩⟩
    · split <;> exact ⟨rfl, .inl rfl⟩

/-- Neither `head` nor `tail` ever decreases. -/
theorem RingInv.step_mono (hι : Fintype.card ι < 2^64) (h : RingInv s) {a : Actor ι}
    (hs : ringStep entry s a = some s') :
    s.head ≤ s'.head ∧ s.tail ≤ s'.tail := by
  cases a with
  | push i =>
    obtain ⟨hhead, htail | ⟨hpc, htail⟩⟩ := ringBufferPush_head_tail hs
    · omega
    · have hcard := h.tail_succ_le (i := i) (by rw [hpc]; rfl)
      rw [succ64_of_lt (by omega)] at htail
      omega
  | worker =>
    cases hs
    obtain ⟨htail, hhead | ⟨usage, i, hpc⟩⟩ := drainRingBuffer_head_tail s
    · omega
    · have hw := h.worker_ok
      rw [hpc] at hw
      exact ⟨hw.1, htail.ge⟩

/-- In every state that any interleaving of fewer than `2^64` pushes with the worker's drains
reaches: the ring holds at most 4095 entries; no step makes `head` or `tail` smaller; calls that
have won and not yet returned own different positions; `tail` is `total_written` plus the calls
between their compare-and-swap and their increment; and every call that has returned has made
exactly one increment, where the counters are the sums of the calls' increments. -/
theorem ring_positions (hι : Fintype.card ι < 2^64) (entry : ι → WorkloadEntry) (s : RingState ι)
    (h : RingReachable entry s) :
    (s.head ≤ s.tail ∧ s.tail ≤ s.head + 4095) ∧
      (∀ a s', ringStep entry s a = some s' → s.head ≤ s'.head ∧ s.tail ≤ s'.tail) ∧
      (∀ i j p q, i ≠ j → (s.push i).between = true → (s.push j).between = true →
        (s.push i).pos = some p → (s.push j).pos = some q → p ≠ q) ∧
      s.tail = s.total_written +
        (Finset.univ.filter fun i => (s.push i).between = true).card ∧
      (∀ i, (s.push i).finished = true → s.written_by i + s.dropped_by i = 1) ∧
      s.total_written = ∑ i, s.written_by i ∧ s.total_dropped = ∑ i, s.dropped_by i := by
  obtain ⟨ls, hrun⟩ := h
  have hinv := ringInv_of_run hι hrun
  refine ⟨⟨hinv.head_le, hinv.tail_le⟩, fun a s' hs => hinv.step_mono hι hs, ?_, ?_, ?_, ?_, ?_⟩
  · -- One position has one winner.
    intro i j p q hij hbi hbj hp hq hpq
    have hi := (hinv.push_ok i).owner hp
    have hj := (hinv.push_ok j).owner hq
    rw [hpq, hj] at hi
    exact hij (some.inj hi).symm
  · -- Call by call: one that has won has written, or is between its two steps.
    rw [hinv.tail_eq, hinv.written_eq, Finset.card_filter, ← Finset.sum_add_distrib]
    refine Finset.sum_congr rfl fun i _ => ?_
    cases s.push i <;> rfl
  · intro i hfin
    rw [hinv.written_by_eq, hinv.dropped_by_eq]
    cases hpc : s.push i <;> simp_all [PushPc.finished, PushPc.wrote, PushPc.gaveUp]
  · rw [hinv.written_eq]
    exact Finset.sum_congr rfl fun i _ => (hinv.written_by_eq i).symm
  · rw [hinv.dropped_eq]
    exact Finset.sum_congr rfl fun i _ => (hinv.dropped_by_eq i).symm

/-- Two calls read the same tail, the first wins its compare-and-swap, and the second loses its own.
-/
theorem ring_positions_race : ∃ s : RingState (Fin 2), RingReachable (fun _ => .zero) s ∧
    s.claims = [0] ∧ s.tail = 1 ∧
    s.tail = s.total_written + (Finset.univ.filter fun i => (s.push i).between = true).card := by
  have hs : Runs.execOk (ringStep fun _ : Fin 2 => .zero) (fun _ _ => true) .init
      [.push 0, .push 1, .push 0, .push 1, .push 0, .push 1] = some _ := rfl
  have hreach : RingReachable (fun _ => .zero) _ :=
    ⟨_, (Runs.run_of_execOk hs .nil).mono fun _ _ _ => trivial⟩
  exact ⟨_, hreach, rfl, rfl, (ring_positions (by simp) _ _ hreach).2.2.2.1⟩

end PgAutoIndex.AutoIndex
