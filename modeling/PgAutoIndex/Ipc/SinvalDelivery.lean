import PgAutoIndex.Ipc.SinvalCleanup

/-!
# Delivery of shared invalidation messages

Every step keeps the invariant, and is for every listening backend of one of two kinds: it leaves
the backend in its segment of the order of publication, or it is the step in which a read of that
backend returns -1 and a new segment starts. `sinval_delivery` collects what follows for a whole
run.
-/

namespace PgAutoIndex.Ipc

open Function List Option

variable {P M : Type} [DecidableEq P] {s s' t : State P M} {p q : P} {pc pc' : Pc P M}

/-! ## Steps -/

/-- A step in which `p` stays in its segment: it may receive more of it, and as long as `p` is in
the reset state no read of `p` returns messages. -/
def Continues (s s' : State P M) (p : P) : Prop :=
  Listening s' p ∧ s'.since p = s.since p ∧ s.received p <+: s'.received p ∧
    ((s.procState p).resetState = true → (s'.procState p).resetState = true ∧
      ∀ datasize before data, s'.pc p = .readReturn datasize before (some data) → s'.pc p = s.pc p)

/-- A step in which a read of `p` returns -1, and `p` starts a new segment at the end of the order.
-/
def StartsOver (s s' : State P M) (p : P) : Prop :=
  (s.procState p).resetState = true ∧ (s'.procState p).resetState = false ∧
    (∃ datasize before, s.pc p = .readMax datasize before ∧
      s'.pc p = .readReturn datasize before none) ∧
    s'.since p = s.log.length ∧ s'.received p = []

/-- What a step owes: the invariant, and to every listening backend that it neither attaches nor
detaches, one of the two kinds of step. -/
def Delivers (s s' : State P M) : Prop :=
  Inv s' ∧ ∀ p, Listening s p → Continues s s' p ∨ StartsOver s s' p

/-- A step in which everybody stays in their segment. -/
def Stays (s s' : State P M) : Prop := Inv s' ∧ ∀ p, Listening s p → Continues s s' p

omit [DecidableEq P] in
theorem Stays.delivers (h : Stays s s') : Delivers s s' := ⟨h.1, fun p hp => .inl (h.2 p hp)⟩

omit [DecidableEq P] in
theorem Stays.trans (h : Stays s t) (h' : Stays t s') : Stays s s' := by
  refine ⟨h'.1, fun p hp => ?_⟩
  obtain ⟨hlisten, hsince, hreceived, hreset⟩ := h.2 p hp
  obtain ⟨hlisten', hsince', hreceived', hreset'⟩ := h'.2 p hlisten
  refine ⟨hlisten', hsince'.trans hsince, hreceived.trans hreceived', fun hr => ?_⟩
  obtain ⟨hr, hpc⟩ := hreset hr
  obtain ⟨hr, hpc'⟩ := hreset' hr
  refine ⟨hr, fun datasize before data hret => ?_⟩
  have hsame := hpc' datasize before data hret
  exact hsame.trans (hpc datasize before data (hsame ▸ hret))

omit [DecidableEq P] in
/-- A step that leaves the segment of `p` alone. -/
theorem continues_of_eq (hlisten : Listening s' p) (hsince : s'.since p = s.since p)
    (hreceived : s'.received p = s.received p)
    (hreset : (s.procState p).resetState = true → (s'.procState p).resetState = true)
    (hpc : (s.procState p).resetState = true → s'.pc p = s.pc p ∨
      ∀ datasize before data, s'.pc p ≠ .readReturn datasize before (some data)) :
    Continues s s' p := by
  refine ⟨hlisten, hsince, by rw [hreceived], fun h => ⟨hreset h, ?_⟩⟩
  intro datasize before data hret
  exact (hpc h).elim id fun hne => absurd hret (hne datasize before data)

/-- The places where no messages are returned. -/
def Pc.Silent : Pc P M → Prop
  | .readReturn _ _ (some _) => False
  | _ => True

omit [DecidableEq P] in
theorem Pc.Silent.ne (h : pc.Silent) (datasize : ℤ) (before : ℕ) (data : List M) :
    pc ≠ .readReturn datasize before (some data) := by
  rintro rfl
  exact h

/-- Moving a process to a place where it does not return messages. -/
theorem continues_update (hlisten : Listening s' p) (hsince : s'.since p = s.since p)
    (hreceived : s'.received p = s.received p)
    (hreset : (s.procState p).resetState = true → (s'.procState p).resetState = true)
    (hpc' : s'.pc = update s.pc q pc)
    (hpc : p = q → (s.procState p).resetState = true → pc.Silent) : Continues s s' p := by
  refine continues_of_eq hlisten hsince hreceived hreset fun h => ?_
  rw [hpc']
  by_cases hpq : p = q
  · subst hpq
    rw [update_self]
    exact .inr (hpc rfl h).ne
  · rw [update_of_ne hpq]
    exact .inl rfl

/-- A step of `q` on its own parts leaves the others alone. -/
theorem continues_own {st : ProcState} {since : ℕ} {received : List M} {writeLock : Option P}
    {readLock : List P} (hpq : p ≠ q) (hp : Listening s p) :
    Continues s (s.own q st since received pc writeLock readLock) p := by
  refine continues_of_eq ?_ (update_of_ne hpq _ _) (update_of_ne hpq _ _) ?_
    fun _ => .inl (update_of_ne hpq _ _)
  · simpa [State.own, Listening, hpq] using hp
  · simp [State.own, hpq]

/-- A step that moves `q`, and leaves segments and reset states alone. -/
theorem stays_of_goto (hi : Inv s') (hpc' : s'.pc = update s.pc q pc)
    (hproc : ∀ p, (s'.procState p).resetState = (s.procState p).resetState ∧
      (s'.procState p).active = (s.procState p).active ∧
      (s'.procState p).sendOnly = (s.procState p).sendOnly := by exact fun _ => ⟨rfl, rfl, rfl⟩)
    (hpc : pc.Silent := by trivial) (hsince : s'.since = s.since := by rfl)
    (hreceived : s'.received = s.received := by rfl) : Stays s s' := by
  refine ⟨hi, fun p hp => ?_⟩
  obtain ⟨hreset, hactive, hsendOnly⟩ := hproc p
  refine continues_update ?_ (by rw [hsince]) (by rw [hreceived]) (fun h => by rw [hreset]; exact h)
    hpc' fun _ _ => hpc
  exact ⟨by rw [hactive]; exact hp.1, by rw [hsendOnly]; exact hp.2⟩

/-- A step that moves `q` and the locks only. -/
theorem stays_of_move {writeLock : Option P} {readLock : List P}
    (hi : Inv ({ s with writeLock := writeLock, readLock := readLock }.goto q pc))
    (hpc : pc.Silent := by trivial) :
      Stays s ({ s with writeLock := writeLock, readLock := readLock }.goto q pc) :=
  stays_of_goto hi rfl

/-- A step that moves `q` between places with the same locks. -/
theorem Inv.goto_stays (hi : Inv s) (hpc : s.pc q = pc) (hl : LocalOk s q pc')
    (hlike : pc.Like pc' := by exact ⟨⟨id, id⟩, .rfl, .rfl, .rfl⟩)
    (hret : pc'.Silent := by trivial) : Stays s (s.goto q pc') :=
  stays_of_move (hi.goto hpc hlike hl)

/-- Setting one flag or clearing it. -/
theorem setProc_hasMessages (r : P) (flag : Bool) (p : P) :
    ∀ st, st = (s.setProc r { s.procState r with hasMessages := flag }).procState p →
    st.resetState = (s.procState p).resetState ∧ st.active = (s.procState p).active ∧
    st.sendOnly = (s.procState p).sendOnly := by
  rintro _ rfl
  by_cases hp : p = r
  · subst hp
    simp [State.setProc]
  · simp [State.setProc, hp]

/-- A cleanup leaves every segment alone, and takes nobody out of the reset state. -/
theorem Inv.cleanup_stays (hi : Inv s) (minFree : ℤ) (hfree : minFree ≤ MAXNUMMESSAGES)
    (hreaders : s.readLock = [])
    (hquiet : ∀ p, (s.pc p).HoldsWrite → ∃ group data, s.pc p = .insertCheck group data) :
    Stays s (siCleanupQueue s minFree) ∧ (siCleanupQueue s minFree).pc = s.pc := by
  obtain ⟨k, h⟩ := hi.cleaned minFree
  refine ⟨⟨hi.cleanup hfree hreaders hquiet, fun p hp => ?_⟩, h.pc⟩
  refine continues_of_eq ((h.listening_iff p).mpr hp) (by rw [h.since]) (by rw [h.received])
    (fun hreset => ?_) fun _ => .inl (by rw [h.pc])
  obtain ⟨signaled, hst⟩ := h.proc p ((hi.mem_procs p).mpr hp.1)
  rw [hst]
  simp [demote, hreset]

/-- The step at the head of `for (;;)`. -/
theorem Inv.insertCheck_stays (hi : Inv s) {group data : List M}
    (hpc : s.pc q = .insertCheck group data)
    (hstep : insertCheckStep s q group data = some s') : Stays s s' := by
  have hgroup : LocalOk s q (.insertCheck group data) := hpc ▸ hi.here q
  have hquantum : group.length ≤ 64 := hgroup
  have hq : (s.pc q).HoldsWrite := by
    rw [hpc]
    trivial
  unfold insertCheckStep at hstep
  by_cases hfull : s.maxMsgNum - s.minMsgNum + group.length > MAXNUMMESSAGES ∨
      s.maxMsgNum - s.minMsgNum ≥ s.nextThreshold
  · rw [if_pos hfull] at hstep
    split_ifs at hstep with hreaders
    have hquiet : ∀ p, (s.pc p).HoldsWrite → ∃ group data, s.pc p = .insertCheck group data :=
      fun p hp => ⟨group, data, by rw [hi.writer_unique hp hq, hpc]⟩
    obtain ⟨hstays, hpcs⟩ :=
      hi.cleanup_stays group.length (by show (group.length : ℤ) ≤ 4096; omega) hreaders hquiet
    have hclean := hstays.1
    have hpc' : (siCleanupQueue s group.length).pc q = .insertCheck group data := by rw [hpcs, hpc]
    cases hsig : (scanQueue s group.length).needSig with
    | none =>
      simp only [hsig, some.injEq] at hstep
      exact hstep ▸ hstays
    | some r =>
      simp only [hsig, some.injEq] at hstep
      subst hstep
      have hlock : (siCleanupQueue s group.length).writeLock = some q :=
        (hclean.holdsWrite q).mp (by rw [hpc']; trivial)
      refine hstays.trans
        (stays_of_move
          (hclean.move ⟨by simp [Pc.HoldsWrite],
            fun p hp => ?_, ?_, fun _ _ => Iff.rfl, hclean.readers_nodup⟩
        (by rw [hpc']; exact id) id (by rw [hpc']; rfl) hgroup))
      · rw [hlock]
        simp [Ne.symm hp]
      · rw [← hclean.holdsRead q, hpc']
        rfl
  · rw [if_neg hfull, some.injEq] at hstep
    subst hstep
    refine hi.goto_stays hpc ⟨by simp, ?_, by simp⟩
    have hroom : ¬(s.maxMsgNum - s.minMsgNum + group.length > 4096) := fun h => hfull (.inl h)
    simp only [length_nil]
    omega

/-- A step of a process inside one of the functions. -/
theorem Inv.run_delivers (hi : Inv s) (q : P) (hstep : runStep s q = some s') : Delivers s s' := by
  have hhere := hi.here q
  unfold runStep at hstep
  generalize hpc : s.pc q = pc at hstep hhere
  cases pc with
  | idle => cases hstep
  | insertLock data =>
    cases data with
    | nil =>
      cases hstep
      exact Stays.delivers (hi.goto_stays hpc trivial)
    | cons m data =>
      dsimp only at hstep
      split_ifs at hstep with hfree
      cases hstep
      exact Stays.delivers
        (stays_of_move
          (hi.takeWrite hfree id (by rw [hpc]; rfl) trivial (by rw [hpc]; rfl)
            (length_take_le _ _)))
  | insertCheck group data =>
    exact Stays.delivers (hi.insertCheck_stays hpc hstep)
  | insertRelock group data =>
    dsimp only at hstep
    split_ifs at hstep with hfree
    cases hstep
    exact Stays.delivers
      (stays_of_move (hi.takeWrite hfree id (by rw [hpc]; rfl) trivial (by rw [hpc]; rfl) hhere))
  | insertWrite done rest data max =>
    cases rest with
    | nil =>
      cases hstep
      exact Stays.delivers (stays_of_goto (hi.publish hpc) rfl)
    | cons m rest =>
      cases hstep
      exact Stays.delivers (stays_of_goto (hi.writeSlot hpc) rfl)
  | insertFlags todo data =>
    cases todo with
    | nil =>
      cases hstep
      exact Stays.delivers (stays_of_goto (hi.flagsDone hpc) rfl)
    | cons r todo =>
      cases hstep
      exact Stays.delivers
        (stays_of_goto (hi.setFlag hpc) rfl fun p => setProc_hasMessages r true p _ rfl)
  | readTest datasize =>
    dsimp only at hstep
    split_ifs at hstep with hmessages
    · cases hstep
      exact Stays.delivers (hi.goto_stays hpc hhere)
    · -- The unlocked test: a flag that is off belongs to a backend that is not in the reset state.
      cases hstep
      have hb := hi.backend q hhere
      obtain ⟨hreset, hup⟩ := hb.flag (by rw [hpc]; exact id) (by simpa using hmessages)
      have hplace := (hb.cursor hreset).2.2
      have hfinished := hup.1
      refine ⟨hi.goto hpc ⟨⟨id, id⟩, .rfl, .rfl, .rfl⟩ ⟨hhere, nil_suffix, fun _ => by omega⟩,
        fun p hp => .inl ?_⟩
      refine continues_update hp rfl rfl id rfl ?_
      rintro rfl hreset'
      cases hreset.symm.trans hreset'
  | readLock datasize =>
    cases hstep
    have hout : q ∉ s.readLock := by
      rw [← hi.holdsRead q, hpc]
      exact id
    refine Stays.delivers
      (stays_of_move
        (hi.move ⟨?_, fun _ _ => Iff.rfl, by simp [Pc.HoldsRead], fun p hp =>
          by simp [hp], nodup_cons.mpr ⟨hout, hi.readers_nodup⟩⟩
      (by rw [hpc]; exact id) id (by rw [hpc]; rfl) ⟨hhere, le_rfl⟩))
    rw [← hi.holdsWrite q, hpc]
    rfl
  | readClear datasize before =>
    cases hstep
    exact Stays.delivers
      (stays_of_goto (hi.readClear hpc) rfl fun p => setProc_hasMessages q false p _ rfl)
  | readMax datasize before =>
    cases hstep
    cases hreset : (s.procState q).resetState with
    | true =>
      refine ⟨hi.readReset hpc hreset, fun p hp => ?_⟩
      rw [readMaxStep_reset hreset]
      by_cases hpq : p = q
      · subst hpq
        refine .inr ⟨hreset, ?_, ⟨datasize, before, hpc, ?_⟩, ?_, ?_⟩ <;> simp [State.own]
      · exact .inl (continues_own hpq hp)
    | false =>
      refine ⟨hi.readMax hpc hreset, fun p hp => .inl ?_⟩
      rw [readMaxStep_read hreset]
      exact continues_update hp rfl rfl id rfl fun _ _ => trivial
  | readCopy datasize before max data =>
    cases hstep
    have hnot := hhere.2.not_reset
    by_cases hmore : data.length < datasize ∧ (s.procState q).nextMsgNum < max
    · refine ⟨hi.readCopy hpc hmore, fun p hp => .inl ?_⟩
      rw [readCopyStep_more hmore]
      by_cases hpq : p = q
      · subst hpq
        refine ⟨by simpa [State.own, Listening] using hp, by simp [State.own], by simp [State.own],
          fun h => ?_⟩
        cases hnot.symm.trans h
      · exact continues_own hpq hp
    · refine ⟨hi.readDone hpc hmore, fun p hp => .inl ?_⟩
      rw [readCopyStep_done hmore]
      by_cases hpq : p = q
      · subst hpq
        refine ⟨?_, by simp [State.own], by simp [State.own], fun h => ?_⟩
        · simp only [State.own, Listening, update_self]
          split <;> exact hp
        · cases hnot.symm.trans h
      · exact continues_own hpq hp
  | readReturn datasize before result =>
    cases hstep
    exact Stays.delivers (hi.goto_stays hpc trivial)
  | cleanupLock =>
    dsimp only at hstep
    split_ifs at hstep with hlocks
    cases hstep
    obtain ⟨hstays, hpcs⟩ := hi.cleanup_stays 0 (by decide) hlocks.2 fun p hp => by
      cases hlocks.1.symm.trans ((hi.holdsWrite p).mp hp)
    have hpc' : (siCleanupQueue s 0).pc q = .cleanupLock := by rw [hpcs, hpc]
    exact Stays.delivers (hstays.trans (hstays.1.goto_stays hpc' trivial))

omit [DecidableEq P] in
/-- Only an idle process passes the test for one. -/
theorem eq_idle_of_isIdle (h : pc.isIdle = true) : pc = .idle := by
  cases pc <;> first | rfl | cases h

/-- What every step owes; a backend that detaches is let go. -/
theorem Inv.step_delivers (hi : Inv s) {a : Action P M} (hstep : step s a = some s') :
    Inv s' ∧ ∀ p, Listening s p → a ≠ .detach p → Continues s s' p ∨ StartsOver s s' p := by
  have hdelivers : Delivers s s' →
      Inv s' ∧ ∀ p, Listening s p → a ≠ .detach p → Continues s s' p ∨ StartsOver s s' p :=
    fun h => ⟨h.1, fun p hp _ => h.2 p hp⟩
  cases a with
  | attach q sendOnly =>
    rw [step] at hstep
    split_ifs at hstep with hok
    cases hstep
    refine ⟨hi.attach sendOnly (eq_idle_of_isIdle hok.1), fun p hp _ => .inl ?_⟩
    unfold sharedInvalBackendInit
    split_ifs with hactive
    · exact continues_of_eq hp rfl rfl id fun _ => .inl rfl
    · have hpq : p ≠ q := by
        rintro rfl
        exact hactive hp.1
      refine continues_of_eq ?_ ?_ ?_ ?_ fun _ => .inl rfl
      · simpa [Listening, hpq] using hp
      all_goals simp [hpq]
  | detach q =>
    simp only [step] at hstep
    split_ifs at hstep with hok
    obtain ⟨t, ht, hinv⟩ := hi.detach (eq_idle_of_isIdle hok.1) hok.2.2
    rw [ht, some.injEq] at hstep
    subst hstep
    refine ⟨hinv, fun p hp hne => .inl ?_⟩
    have hpq : p ≠ q := by
      rintro rfl
      exact hne rfl
    obtain ⟨procs, -, rfl⟩ := map_eq_some_iff.mp ht
    refine continues_of_eq ?_ rfl rfl ?_ fun _ => .inl rfl
    · simpa [Listening, hpq] using hp
    · simp [hpq]
  -- Starting a function moves one idle process.
  | insert q data | cleanup q =>
    rw [step] at hstep
    split_ifs at hstep with hok
    cases hstep
    exact hdelivers (Stays.delivers (hi.goto_stays (eq_idle_of_isIdle hok) trivial))
  | read q datasize =>
    rw [step] at hstep
    split_ifs at hstep with hok
    cases hstep
    have hlisten : Listening s q := ⟨hok.2.1, by simpa using hok.2.2⟩
    exact hdelivers (Stays.delivers (hi.goto_stays (eq_idle_of_isIdle hok.1) hlisten))
  | run q => exact hdelivers (hi.run_delivers q hstep)

/-! ## Delivery -/

/-- Somewhere in a run of `as` from `s`, a read of `p` returns -1. -/
def ReturnsReset (s : State P M) (as : List (Action P M)) (p : P) : Prop :=
  ∃ as₁ t a u, as₁ ++ [a] <+: as ∧ Runs.Run step (fun _ a => a ≠ .detach p) s as₁ t ∧
    step t a = some u ∧ StartsOver t u p

/-- A backend in the reset state stays in it, and no read of it returns messages, until one returns
-1. -/
theorem Inv.reset_until_returned (hi : Inv s) (hp : Listening s p)
    (hreset : (s.procState p).resetState = true) {as : List (Action P M)}
    (hrun : Runs.Run step (fun _ a => a ≠ .detach p) s as s') :
    Inv s' ∧ (ReturnsReset s as p ∨ (Listening s' p ∧ (s'.procState p).resetState = true ∧
      ∀ datasize before data, s'.pc p = .readReturn datasize before (some data) →
        s'.pc p = s.pc p)) := by
  induction hrun with
  | nil => exact ⟨hi, .inr ⟨hp, hreset, fun _ _ _ _ => rfl⟩⟩
  | @concat as t u a hrun hne hstep ih =>
    obtain ⟨hit, hcase⟩ := ih
    obtain ⟨hiu, hkind⟩ := hit.step_delivers hstep
    refine ⟨hiu, ?_⟩
    rcases hcase with ⟨as₁, t₁, a₁, u₁, hsub, h⟩ | ⟨hlisten, hstays, hpc⟩
    · exact .inl ⟨as₁, t₁, a₁, u₁, hsub.trans (prefix_append _ _), h⟩
    · rcases hkind p hlisten hne with ⟨hlisten', -, -, hkeep⟩ | hover
      · obtain ⟨hstays', hpc'⟩ := hkeep hstays
        refine .inr ⟨hlisten', hstays', fun datasize before data hret => ?_⟩
        have hsame := hpc' datasize before data hret
        rw [hsame]
        exact hpc datasize before data (by rw [← hsame]; exact hret)
      · exact .inl ⟨as, t, a, u, prefix_rfl, hrun, hstep, hover⟩

/-- What a listening backend `p` can count on in a state. -/
structure Delivered (s : State P M) (p : P) : Prop where
  /-- What `p` has received is a segment of the order from its attachment or last reset on. -/
  segment : s.since p ≤ s.log.length ∧ s.received p <+: s.log.drop (s.since p)
  /-- Unless `p` is in the reset state, all that it has not received lies in the buffer. -/
  pending : (s.procState p).resetState = false →
    ∀ i : ℕ, s.since p + (s.received p).length ≤ i → i < s.log.length →
      s.log[i]? = some (s.buffer (slot i))
  /-- Every step leaves `p` in its segment, or is one in which a read of `p` returns -1. -/
  steps : ∀ a s', step s a = some s' → a ≠ .detach p → Continues s s' p ∨ StartsOver s s' p
  /-- If `p` is in the reset state, the next read of `p` to return returns -1. -/
  reset : (s.procState p).resetState = true → ∀ as s',
    Runs.Run step (fun _ a => a ≠ .detach p) s as s' →
    ReturnsReset s as p ∨ ∀ datasize before data,
      s'.pc p = .readReturn datasize before (some data) → s'.pc p = s.pc p
  /-- The messages that a read returns are the last ones received; if they are fewer than asked for,
  `p` has received all that was published when the read took its lock. -/
  caughtUp : ∀ datasize before data, s.pc p = .readReturn datasize before (some data) →
    data <:+ s.received p ∧ (data.length < datasize → before ≤ s.since p + (s.received p).length)

/-- The delivery of shared invalidation messages, in every state that any interleaving reaches. The
counters stay in the range of an `int`, a backend attaches at the end of the order, and every
listening backend gets what `Delivered` says, across wrap-arounds of the counters. -/
theorem sinval_delivery (buffer : Fin MAXNUMMESSAGES → M) (as : List (Action P M)) (s : State P M)
    (hrun : Runs.Run step (fun _ _ => True) (State.init buffer) as s) :
    (0 ≤ s.minMsgNum ∧ s.minMsgNum ≤ s.maxMsgNum ∧ s.maxMsgNum < 2^31) ∧
      (∀ p sendOnly s', (s.procState p).active = false → step s (.attach p sendOnly) = some s' →
        s'.since p = s.log.length ∧ s'.received p = []) ∧
      ∀ p, Listening s p → Delivered s p := by
  have hi : Inv s :=
    hrun.invariant Inv (inv_init buffer) fun _ _ _ hi _ hstep => (hi.step_delivers hstep).1
  have hc := hi.counters
  have hmin_lt : s.minMsgNum < 1073741824 := hc.min_lt
  have hmax_le := hc.max_le
  refine ⟨⟨hc.min_nonneg, hc.min_le, by omega⟩, ?_, ?_⟩
  · intro p sendOnly s' hfree hstep
    rw [step] at hstep
    split_ifs at hstep
    cases hstep
    simp [sharedInvalBackendInit, hfree]
  · intro p hp
    have hb := hi.backend p hp
    refine ⟨⟨hb.since_le, hb.received⟩, ?_, ?_, ?_, ?_⟩
    · intro hreset i hlow hhigh
      obtain ⟨hmin, -, hplace⟩ := hb.cursor hreset
      exact hc.buffer i (by omega) hhigh
    · intro a s' hstep hne
      exact (hi.step_delivers hstep).2 p hp hne
    · intro hreset as' s' hrun'
      exact (hi.reset_until_returned hp hreset hrun').2.imp id fun h => h.2.2
    · intro datasize before data hpc
      have hl := hi.here p
      rw [hpc] at hl
      exact hl.2

/-- Two backends attach, the first inserts two messages, and the second reads them. -/
theorem sinval_delivery_two :
    ∃ s : State Bool ℕ, Runs.Run step (fun _ _ => True) (State.init fun _ => 0)
        ([.attach false true, .attach true false, .insert false [7, 8]] ++
          replicate 9 (.run false) ++ [.read true 5] ++ replicate 7 (.run true)) s ∧
      s.pc true = .readReturn 5 2 (some [7, 8]) ∧ s.since true = 0 ∧ s.received true = [7, 8] ∧
      Delivered s true := by
  have hs : Runs.execOk step (fun _ _ => true) (State.init fun _ => 0)
    ([.attach false true, .attach true false, .insert false [7, 8]] ++
      replicate 9 (.run false) ++ [.read true 5] ++ replicate 7 (.run true)) = some _ := rfl
  have hrun := (Runs.run_of_execOk hs .nil).mono fun _ _ _ => trivial
  exact ⟨_, hrun, rfl, rfl, rfl, (sinval_delivery (fun _ => 0) _ _ hrun).2.2 true ⟨rfl, rfl⟩⟩

end PgAutoIndex.Ipc
