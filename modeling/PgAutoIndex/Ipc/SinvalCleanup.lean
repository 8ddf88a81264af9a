import PgAutoIndex.Ipc.SinvalInvariant

/-!
# Cleaning the shared invalidation queue

The first loop of `SICleanupQueue` is a fold over the attached backends: it resets those behind
`lowbound` (`demote`) and takes the minimum over the others that listen. `Inv.cleaned` says what the
whole cleanup does, wrap-around or not, and `Inv.cleanup` that it keeps the invariant. A backend
whose `hasMessages` flag is off has read everything, so that it is never the one to be reset.
-/

namespace PgAutoIndex.Ipc

open Function List

variable {P M : Type} [DecidableEq P] {s s' : State P M} {lowbound k : ℤ} {p : P}

/-! ## The loop over the backends -/

/-- What the first loop of `SICleanupQueue` does to one backend. -/
def demote (lowbound : ℤ) (st : ProcState) : ProcState :=
  if st.resetState || st.sendOnly then st
  else if st.nextMsgNum < lowbound then { st with resetState := true } else st

/-- A backend stays in the queue when it was in it and is not late. -/
theorem demote_resetState_eq_false {st : ProcState} (hsend : st.sendOnly = false) :
    (demote lowbound st).resetState = false ↔ st.resetState = false ∧ lowbound ≤ st.nextMsgNum := by
  unfold demote
  cases hreset : st.resetState with
  | true => simp [hreset]
  | false =>
    by_cases hlow : st.nextMsgNum < lowbound
    · simp [hsend, hlow]
    · simp [hsend, hlow, hreset, Int.not_lt.mp hlow]

/-- Everything but `resetState` stays. -/
theorem demote_eq (lowbound : ℤ) (st : ProcState) :
    demote lowbound st = { st with resetState := (demote lowbound st).resetState } := by
  unfold demote
  split_ifs <;> rfl

/-- A turn of the loop writes one backend, and lowers `min` to the counter of one that stays in the
queue. -/
theorem scanProc_eq (lowbound : ℤ) (sc : Scan P) (p : P) :
    (scanProc lowbound sc p).procState = update sc.procState p (demote lowbound (sc.procState p)) ∧
      (scanProc lowbound sc p).min =
        if (demote lowbound (sc.procState p)).resetState || (sc.procState p).sendOnly then sc.min
        else if (sc.procState p).nextMsgNum < sc.min then (sc.procState p).nextMsgNum
          else sc.min := by
  by_cases hskip : ((sc.procState p).resetState || (sc.procState p).sendOnly) = true
  · rw [scanProc, demote, if_pos hskip, if_pos hskip, if_pos hskip, update_eq_self]
    exact ⟨rfl, rfl⟩
  · obtain ⟨hreset, hsend⟩ := Bool.or_eq_false_iff.mp (Bool.not_eq_true _ ▸ hskip)
    rw [scanProc, demote, if_neg hskip, if_neg hskip]
    by_cases hlow : (sc.procState p).nextMsgNum < lowbound
    · rw [if_pos hlow, if_pos hlow, Bool.true_or, if_pos rfl]
      exact ⟨rfl, rfl⟩
    · rw [if_neg hlow, if_neg hlow, hreset, hsend, Bool.or_self, if_neg Bool.false_ne_true,
        update_eq_self]
      exact ⟨rfl, rfl⟩

/-- The loop over the backends of a list without repetitions resets the late ones. -/
theorem foldl_scanProc_procState (lowbound : ℤ) {procs : List P} (hnodup : procs.Nodup)
    {sc : Scan P}
    (p : P) :
    (procs.foldl (scanProc lowbound) sc).procState p =
      if p ∈ procs then demote lowbound (sc.procState p) else sc.procState p := by
  rw [← Runs.foldl_update (demote lowbound) hnodup]
  induction procs generalizing sc with
  | nil => rfl
  | cons q procs ih =>
    rw [foldl_cons, foldl_cons, ih (nodup_cons.mp hnodup).2, (scanProc_eq lowbound sc q).1]

/-- The minimum is the least of where it starts and of the counters of the backends that stay in the
queue. -/
theorem le_foldl_scanProc_min_iff {lowbound m : ℤ} {procs : List P} (hnodup : procs.Nodup)
    {sc : Scan P} :
    m ≤ (procs.foldl (scanProc lowbound) sc).min ↔ m ≤ sc.min ∧
      ∀ p ∈ procs, (demote lowbound (sc.procState p)).resetState = false →
        (sc.procState p).sendOnly = false →
        m ≤ (sc.procState p).nextMsgNum := by
  induction procs generalizing sc with
  | nil => simp
  | cons q procs ih =>
    obtain ⟨hout, hnodup⟩ := nodup_cons.mp hnodup
    rw [foldl_cons, ih hnodup, forall_mem_cons, ← and_assoc]
    refine and_congr ?_ (forall₂_congr fun p hp => ?_)
    · rw [(scanProc_eq lowbound sc q).2]
      cases (demote lowbound (sc.procState q)).resetState <;>
        cases (sc.procState q).sendOnly <;> simp
      split_ifs <;> omega
    · rw [(scanProc_eq lowbound sc q).1, update_of_ne (ne_of_mem_of_not_mem hp hout)]

/-- What a cleanup does, with `k` what it takes off the counters. -/
structure Cleaned (s s' : State P M) (lowbound k : ℤ) : Prop where
  dvd : (4096 : ℤ) ∣ k
  min_nonneg : 0 ≤ s'.minMsgNum
  min_lt : s'.minMsgNum < MSGNUMWRAPAROUND
  le_min : s.minMsgNum ≤ s'.minMsgNum + k
  min_le : s'.minMsgNum + k ≤ s.maxMsgNum
  max : s'.maxMsgNum = s.maxMsgNum - k
  base : s'.base = s.base + k
  buffer : s'.buffer = s.buffer
  procs : s'.pgprocnos = s.pgprocnos
  pc : s'.pc = s.pc
  writeLock : s'.writeLock = s.writeLock
  readLock : s'.readLock = s.readLock
  log : s'.log = s.log
  finished : s'.finished = s.finished
  since : s'.since = s.since
  received : s'.received = s.received
  proc : ∀ p, p ∈ s.pgprocnos → ∃ signaled, s'.procState p =
    { demote lowbound (s.procState p) with
      nextMsgNum := (s.procState p).nextMsgNum - k, signaled := signaled }
  other : ∀ p, p ∉ s.pgprocnos → ∃ signaled, s'.procState p =
    { s.procState p with signaled := signaled }
  le_next : ∀ p, p ∈ s.pgprocnos → (demote lowbound (s.procState p)).resetState = false →
    (s.procState p).sendOnly = false → s'.minMsgNum + k ≤ (s.procState p).nextMsgNum

/-- A cleanup attaches and detaches nobody. -/
theorem Cleaned.active_eq (h : Cleaned s s' lowbound k) (p : P) :
    (s'.procState p).active = (s.procState p).active ∧
      (s'.procState p).sendOnly = (s.procState p).sendOnly := by
  by_cases hp : p ∈ s.pgprocnos
  · obtain ⟨_, hst⟩ := h.proc p hp
    rw [hst, demote_eq]
    exact ⟨rfl, rfl⟩
  · obtain ⟨_, hst⟩ := h.other p hp
    rw [hst]
    exact ⟨rfl, rfl⟩

/-- A cleanup keeps the listening backends. -/
theorem Cleaned.listening_iff (h : Cleaned s s' lowbound k) (p : P) :
    Listening s' p ↔ Listening s p := by
  unfold Listening
  rw [(h.active_eq p).1, (h.active_eq p).2]

/-- Signalling writes the `signaled` flag of at most one backend. -/
theorem signal_eq (procState : P → ProcState) (needSig : Option P) (p : P) :
    ∃ signaled, signal procState needSig p = { procState p with signaled := signaled } := by
  cases needSig with
  | none => exact ⟨(procState p).signaled, rfl⟩
  | some q =>
    by_cases hp : p = q
    · subst hp
      exact ⟨true, update_self _ _ _⟩
    · exact ⟨(procState p).signaled, update_of_ne hp _ _⟩

/-- `SICleanupQueue` takes `k` off the counters, with `k` the wrap-around or 0. -/
theorem siCleanupQueue_eq (hnodup : s.pgprocnos.Nodup) (minFree : ℤ) :
    ∃ k, (k = MSGNUMWRAPAROUND ∧ MSGNUMWRAPAROUND ≤ (scanQueue s minFree).min ∨
      k = 0 ∧ (scanQueue s minFree).min < MSGNUMWRAPAROUND) ∧
      ∃ procState, siCleanupQueue s minFree = { s with
        minMsgNum := (scanQueue s minFree).min - k
        maxMsgNum := s.maxMsgNum - k
        nextThreshold := threshold (s.maxMsgNum - (scanQueue s minFree).min)
        procState := signal procState (scanQueue s minFree).needSig
        base := s.base + k } ∧
      ∀ p, procState p = if p ∈ s.pgprocnos then
        { (scanQueue s minFree).procState p with nextMsgNum :=
          ((scanQueue s minFree).procState p).nextMsgNum - k }
        else (scanQueue s minFree).procState p := by
  by_cases hover : MSGNUMWRAPAROUND ≤ (scanQueue s minFree).min
  · exact ⟨MSGNUMWRAPAROUND, .inl ⟨rfl, hover⟩, _, if_pos hover, Runs.foldl_update
      (fun st : ProcState => { st with nextMsgNum := st.nextMsgNum - MSGNUMWRAPAROUND }) hnodup⟩
  · refine ⟨0, .inr ⟨rfl, Int.not_le.mp hover⟩, (scanQueue s minFree).procState, ?_, fun p => ?_⟩
    · rw [siCleanupQueue, if_neg hover]
      simp only [Int.sub_zero, Int.add_zero]
    · simp only [Int.sub_zero, ite_self]

/-- What `SICleanupQueue` does in a state that meets the invariant. -/
theorem Inv.cleaned (hi : Inv s) (minFree : ℤ) :
    ∃ k, Cleaned s (siCleanupQueue s minFree) (s.maxMsgNum - MAXNUMMESSAGES + minFree) k := by
  obtain ⟨lowbound, hlow⟩ : ∃ lowbound, lowbound = s.maxMsgNum - MAXNUMMESSAGES + minFree :=
    ⟨_, rfl⟩
  rw [← hlow]
  have hc := hi.counters
  have hmax_le := hc.max_le
  have hmin_lt := hc.min_lt
  have hmin_nonneg := hc.min_nonneg
  have hwrap : MSGNUMWRAPAROUND = 1073741824 := rfl
  obtain ⟨k, hk, procState, hstate, hrebase⟩ := siCleanupQueue_eq hi.procs_nodup minFree
  rw [hstate]
  set sc := scanQueue s minFree with hsc
  have hproc : ∀ p, sc.procState p =
      if p ∈ s.pgprocnos then demote lowbound (s.procState p) else s.procState p := by
    intro p
    rw [hsc, scanQueue, ← hlow]
    exact foldl_scanProc_procState lowbound hi.procs_nodup p
  obtain ⟨hle_max, hle_next⟩ := (le_foldl_scanProc_min_iff hi.procs_nodup).mp (Int.le_refl sc.min)
  dsimp only at hle_max hle_next
  rw [← hlow] at hle_next
  have hmin_le : s.minMsgNum ≤ sc.min := by
    refine (le_foldl_scanProc_min_iff hi.procs_nodup).mpr ⟨hc.min_le, fun p hp hreset hsend => ?_⟩
    have hlisten : Listening s p := ⟨(hi.mem_procs p).mp hp, hsend⟩
    exact ((hi.backend p hlisten).cursor ((demote_resetState_eq_false hsend).mp hreset).1).1
  refine ⟨k, ?_, ?_, ?_, ?_, ?_, rfl, rfl, rfl, rfl, rfl, rfl, rfl, rfl, rfl, rfl, rfl,
    fun p hp => ?_, fun p hp => ?_, fun p hp hreset hsend => ?_⟩
  · rcases hk with ⟨rfl, -⟩ | ⟨rfl, -⟩
    · exact ⟨262144, rfl⟩
    · exact ⟨0, rfl⟩
  · show 0 ≤ sc.min - k
    omega
  · show sc.min - k < MSGNUMWRAPAROUND
    omega
  · show s.minMsgNum ≤ sc.min - k + k
    omega
  · show sc.min - k + k ≤ s.maxMsgNum
    omega
  · obtain ⟨signaled, hsig⟩ := signal_eq procState sc.needSig p
    refine ⟨signaled, hsig.trans ?_⟩
    rw [hrebase p, if_pos hp, hproc p, if_pos hp, demote_eq lowbound (s.procState p)]
  · obtain ⟨signaled, hsig⟩ := signal_eq procState sc.needSig p
    refine ⟨signaled, hsig.trans ?_⟩
    rw [hrebase p, if_neg hp, hproc p, if_neg hp]
  · have := hle_next p hp hreset hsend
    show sc.min - k + k ≤ _
    omega

/-- A cleanup by a process that holds both locks keeps the invariant. -/
theorem Inv.cleanup (hi : Inv s) {minFree : ℤ} (hfree : minFree ≤ MAXNUMMESSAGES)
    (hreaders : s.readLock = [])
    (hquiet : ∀ p, (s.pc p).HoldsWrite → ∃ group data, s.pc p = .insertCheck group data) :
    Inv (siCleanupQueue s minFree) := by
  have hflag : ∀ p, ¬(s.pc p).Flagging := by
    intro p hp
    obtain ⟨group, data, hcheck⟩ := hquiet p hp.holdsWrite
    rw [hcheck] at hp
    exact hp
  obtain ⟨k, h⟩ := hi.cleaned minFree
  obtain ⟨lowbound, hlow⟩ : ∃ lowbound, lowbound = s.maxMsgNum - MAXNUMMESSAGES + minFree :=
    ⟨_, rfl⟩
  rw [← hlow] at h
  generalize siCleanupQueue s minFree = s' at h
  have hc := hi.counters
  have hlength := hc.length_log
  have hmax := h.max
  have hbase := h.base
  have hfinished := h.finished
  have hle_min := h.le_min
  have hmin_le := h.min_le
  have hmax_le := hc.max_le
  refine
    { counters :=
        { min_nonneg := h.min_nonneg, min_lt := h.min_lt, min_le := by omega, max_le := by omega
          length_log := by rw [h.log]; omega
          dvd_base := by rw [hbase]; exact Int.dvd_add hc.dvd_base h.dvd
          buffer := ?_ }
      procs_nodup := by rw [h.procs]; exact hi.procs_nodup
      mem_procs := fun p => by rw [h.procs, (h.active_eq p).1]; exact hi.mem_procs p
      holdsWrite := fun p => by rw [h.pc, h.writeLock]; exact hi.holdsWrite p
      holdsRead := fun p => by rw [h.pc, h.readLock]; exact hi.holdsRead p
      readers_nodup := by rw [h.readLock]; exact hi.readers_nodup
      finished_le := by rw [h.finished, h.log]; exact hi.finished_le
      finished_eq := fun _ => by rw [h.finished, h.log]; exact hi.finished_eq hflag
      backend := ?_
      here := ?_ }
  · intro i hlo hhi
    rw [h.log] at hhi ⊢
    rw [h.buffer]
    exact hc.buffer i (by omega) hhi
  · intro p hp
    rw [h.listening_iff p] at hp
    have hb := hi.backend p hp
    obtain ⟨signaled, hst⟩ := h.proc p ((hi.mem_procs p).mpr hp.1)
    have hreset : (s'.procState p).resetState = (demote lowbound (s.procState p)).resetState := by
      rw [hst]
    have hnext : (s'.procState p).nextMsgNum = (s.procState p).nextMsgNum - k := by rw [hst]
    have hmessages : (s'.procState p).hasMessages = (s.procState p).hasMessages := by
      rw [hst, demote_eq]
    refine ⟨?_, ?_, ?_, ?_⟩
    · rw [h.since, h.log]
      exact hb.since_le
    · rw [h.since, h.log, h.received]
      exact hb.received
    · intro hstays
      rw [hreset] at hstays
      obtain ⟨hmin, hle, hplace⟩ := hb.cursor ((demote_resetState_eq_false hp.2).mp hstays).1
      have hle_next := h.le_next p ((hi.mem_procs p).mpr hp.1) hstays hp.2
      rw [hnext, h.since, h.received]
      exact ⟨by omega, by omega, by omega⟩
    · -- A backend whose flag is off has read everything, so that it is not late.
      intro hnot hoff
      rw [h.pc] at hnot
      rw [hmessages] at hoff
      obtain ⟨hstays, hup⟩ := hb.flag hnot hoff
      have hun : ¬Unflagged s p := by
        rintro ⟨w, todo, data, hw, -⟩
        exact hflag w (by rw [hw]; trivial)
      have hall := hup.2 hun
      have hfin := hup.1
      rw [hreset, hnext, demote_resetState_eq_false hp.2]
      exact ⟨⟨hstays, by omega⟩, by omega, fun _ => by omega⟩
  · intro p
    have hhere := hi.here p
    rw [h.pc]
    cases hp : s.pc p <;> rw [hp] at hhere
    case insertWrite =>
      obtain ⟨group, data, hcheck⟩ := hquiet p (by rw [hp]; trivial)
      cases hp.symm.trans hcheck
    case readCopy =>
      have hmem := (hi.holdsRead p).mp (by rw [hp]; trivial)
      rw [hreaders] at hmem
      cases hmem
    case readTest | readLock => exact (h.listening_iff p).mpr hhere
    case readClear | readMax => exact ⟨(h.listening_iff p).mpr hhere.1, h.log ▸ hhere.2⟩
    case readReturn datasize before result =>
      cases result with
      | none => trivial
      | some data =>
        unfold LocalOk at hhere ⊢
        rwa [h.listening_iff, h.received, h.since]
    all_goals exact hhere

end PgAutoIndex.Ipc
