import PgAutoIndex.AutoIndex.RingPositions

/-!
# Dropped entries

A call of `ring_buffer_push` drops its entry when the successor of the tail that it has read and the
head that it reads afterwards have the same slot. Between the two reads the tail may have moved on,
and the head after it. If the head has passed the tail that was read, the test may see the head one
position further on, and take a ring with room for a full one (`ring_drops_spurious`).

Otherwise the test is right, if late: the head has only moved on since the tail was read, so that
the ring held 4095 entries at that moment (`ring_drops_when_full`).
-/

namespace PgAutoIndex.AutoIndex

open Function Option

variable {ι : Type} [DecidableEq ι] {i : ι} {pc : PushPc} {s s' : RingState ι}
  {entry : ι → WorkloadEntry} {ls : List (Actor ι)}

/-- At some moment between the first step of call `i` and its return the ring held 4095 entries. -/
def FullDuring (entry : ι → WorkloadEntry) (i : ι) (ls : List (Actor ι)) (s : RingState ι) : Prop :=
  Runs.Passes (ringStep entry) .init ls s fun ls₁ s₁ =>
    Actor.push i ∈ ls₁ ∧ (s₁.push i).finished = false ∧ s₁.tail = s₁.head + 4095

/-- The step is not a full test that succeeds with a head beyond the tail read before it. -/
def HeadNotPast (s : RingState ι) (a : Actor ι) : Prop :=
  ∀ i t, a = .push i → s.push i = .readHead t → ringSlot (succ64 t) = ringSlot s.head → s.head ≤ t

/-- What is known of the run of a call that is about to test for a full ring, or has found it full.
At `readHead` the ring had the tail that the call has read, and a head that can only have moved on.
-/
def DropOk (entry : ι → WorkloadEntry) (ls : List (Actor ι)) (s : RingState ι) (i : ι) :
    PushPc → Prop
  | .readHead t => Runs.Passes (ringStep entry) .init ls s fun ls₁ s₁ =>
      Actor.push i ∈ ls₁ ∧ s₁.push i = .readHead t ∧ s₁.tail = t ∧ s₁.head ≤ s.head
  | .drop | .dropped => FullDuring entry i ls s
  | _ => True

/-- Another step keeps what is known of the run of a call. -/
theorem DropOk.concat {a : Actor ι} (h : DropOk entry ls s i pc)
    (hs : ringStep entry s a = some s') (hhead : s.head ≤ s'.head) :
    DropOk entry (ls ++ [a]) s' i pc := by
  cases pc with
  | readHead t =>
    exact Runs.Passes.concat h hs fun _ _ ⟨hbegun, hpc, htail, hle⟩ =>
      ⟨hbegun, hpc, htail, hle.trans hhead⟩
  | drop | dropped => exact Runs.Passes.concat h hs fun _ _ hP => hP
  | _ => trivial

/-- A step of a call moves that call alone. -/
theorem ringBufferPush_push_of_ne {j : ι} (hs : ringBufferPush entry s i = some s') (hji : j ≠ i) :
    s'.push j = s.push j := by
  unfold ringBufferPush at hs
  split at hs
  case h_4 => split_ifs at hs <;> cases hs <;> exact update_of_ne hji _ _
  all_goals cases hs <;> exact update_of_ne hji _ _

variable [Fintype ι]

/-- A step of a call keeps what is known of its own run: the test succeeds only on a ring that was
full when the call read the tail. -/
theorem DropOk.own (hι : Fintype.card ι < 2^64)
    (hrun : Runs.Run (ringStep entry) (fun _ _ => True) .init ls s) (hok : HeadNotPast s (.push i))
    (h : DropOk entry ls s i (s.push i)) (hs : ringStep entry s (.push i) = some s') :
    DropOk entry (ls ++ [.push i]) s' i (s'.push i) := by
  have hrun' := hrun.concat trivial hs
  have hpush := hs
  simp only [ringStep, ringBufferPush] at hpush
  cases hpc : s.push i with
  | readTail =>
    simp only [hpc, some.injEq] at hpush
    have hpc' : s'.push i = .readHead s'.tail := by simp [← hpush]
    rw [hpc']
    exact .last hrun' ⟨by simp, hpc', rfl, le_rfl⟩
  | readHead t =>
    rw [hpc] at h
    simp only [hpc, some.injEq] at hpush
    have hpc' : s'.push i = if ringSlot (succ64 t) = ringSlot s.head then .drop else .claim t := by
      simp [← hpush]
    rw [hpc']
    split_ifs with htest
    · have hfit := (ringInv_of_run hι hrun).tail_succ_le (i := i) (by rw [hpc]; rfl)
      have hread := (ringInv_of_run hι hrun).push_ok i
      rw [hpc] at hread
      have hread : t ≤ s.tail := hread
      obtain ⟨ls₁, ls₂, s₁, rfl, hbefore, hafter, hbegun, hpc₁, rfl, hmono⟩ := h
      refine Runs.Passes.concat ⟨ls₁, ls₂, s₁, rfl, hbefore, hafter, hbegun, ?_, ?_⟩ hs
        fun _ _ hP => hP
      · simp [hpc₁, PushPc.finished]
      · -- The head is not beyond the tail read, so that the ring was full when the tail was read.
        have hcap := (ringInv_of_run hι hbefore).tail_le
        have hle := hok i _ rfl hpc htest
        rw [succ64_of_lt (by omega), ringSlot_eq_iff] at htest
        omega
    · trivial
  | drop =>
    rw [hpc] at h
    simp only [hpc, some.injEq] at hpush
    have hpc' : s'.push i = .dropped := by simp [← hpush]
    rw [hpc']
    exact Runs.Passes.concat h hs fun _ _ hP => hP
  | claim t =>
    simp only [hpc] at hpush
    split_ifs at hpush <;> cases hpush <;> simp [DropOk]
  | copy p | count p =>
    simp only [hpc, some.injEq] at hpush
    simp [← hpush, DropOk]
  | written p | dropped => simp [hpc] at hpush

/-- In a run in which no full test succeeds with a head beyond its tail, what is known of the run of
every call holds. -/
theorem dropOk_of_run (hι : Fintype.card ι < 2^64)
    (h : Runs.Run (ringStep entry) HeadNotPast .init ls s) (i : ι) :
    DropOk entry ls s i (s.push i) := by
  induction h with
  | nil => trivial
  | @concat ls s s' a hrun hok hs ih =>
    have hrun := hrun.mono fun _ _ _ => trivial
    have hmono := ((ringInv_of_run hι hrun).step_mono hι hs).1
    cases a with
    | worker =>
      -- The worker moves no call.
      have hpush : s'.push = s.push := by
        cases hs
        unfold drainRingBuffer
        cases s.worker with
        | scan hd tl usage i =>
          dsimp only
          split_ifs
          · rfl
          · split <;> rfl
        | _ => rfl
      rw [hpush]
      exact ih.concat hs hmono
    | push j =>
      by_cases hij : i = j
      · subst hij
        exact ih.own hι hrun hok hs
      · rw [ringBufferPush_push_of_ne hs hij]
        exact ih.concat hs hmono

/-- In every run of fewer than `2^64` pushes with the worker's drains in which no full test succeeds
with a head beyond the tail that the call read before it, a call that has dropped its entry did so
in a ring that held 4095 entries at some moment of the call. -/
theorem ring_drops_when_full (hι : Fintype.card ι < 2^64) (entry : ι → WorkloadEntry)
    (ls : List (Actor ι)) (s : RingState ι) (h : Runs.Run (ringStep entry) HeadNotPast .init ls s)
    (i : ι) (hi : s.push i = .dropped) : FullDuring entry i ls s := by
  have hknown := dropOk_of_run hι h i
  rwa [hi] at hknown

/-- The first call reads the tail of the empty ring, the second pushes its entry, the worker drains
it, and the first call reads the head, which is now one beyond its tail: it takes the ring, which is
empty again, for full. -/
theorem ring_drops_spurious : ∃ ls s, Runs.Run (ringStep fun _ : Fin 2 => .zero) (fun _ _ => True)
    .init ls s ∧ s.push 0 = .dropped ∧ s.total_dropped = 1 ∧
    ¬ FullDuring (fun _ => .zero) 0 ls s := by
  have hs : Runs.execOk (ringStep fun _ : Fin 2 => .zero) (fun _ _ => true) .init
      ([.push 0] ++ .replicate 5 (.push 1) ++ .replicate 6 .worker ++ .replicate 2 (.push 0)) =
        some _ := rfl
  refine ⟨_, _, (Runs.run_of_execOk hs .nil).mono fun _ _ _ => trivial, rfl, rfl, ?_⟩
  rintro ⟨ls₁, -, s₁, -, hbefore, -, -, -, hfull⟩
  -- Two calls never hold more than two positions.
  have hle := (ringInv_of_run (by simp) hbefore).tail_le_card
  simp only [Fintype.card_fin] at hle
  omega

omit [Fintype ι] in
/-- Until the worker's first drain ends, the head is beyond no tail. -/
theorem run_concat_push (h : Runs.Run (ringStep entry) HeadNotPast .init ls s)
    (hhead : s.head = 0) (i : ι) (s' : RingState ι) (hs : ringBufferPush entry s i = some s') :
    Runs.Run (ringStep entry) HeadNotPast .init (ls ++ [.push i]) s' :=
  h.concat (fun _ _ _ _ _ => by omega) hs

/-- Calls that push one after the other, before the worker's first drain, fill the ring. -/
theorem exists_run_filled {n : ℕ} (hn : n ≤ 4095) : ∃ ls s,
    Runs.Run (ringStep fun _ : Fin 4096 => .zero) HeadNotPast .init ls s ∧ s.head = 0 ∧ s.tail = n ∧
      ∀ i : Fin 4096, n ≤ i → s.push i = .readTail := by
  induction n with
  | zero => exact ⟨[], .init, .nil, rfl, rfl, fun _ _ => rfl⟩
  | succ n ih =>
    obtain ⟨ls, s, hrun, hhead, rfl, hpush⟩ := ih (by omega)
    let i : Fin 4096 := ⟨s.tail, by omega⟩
    have hi : s.push i = .readTail := hpush i le_rfl
    have hfree : ringSlot (succ64 s.tail) ≠ ringSlot 0 := by
      rw [succ64_of_lt (by omega), ne_eq, ringSlot_eq_iff]
      omega
    -- The call reads the tail, reads the head, and wins.
    have hread := run_concat_push hrun hhead i
      { s with push := update s.push i (.readHead s.tail) } (by simp [ringBufferPush, hi])
    have htest := run_concat_push hread hhead i
      { s with push := update s.push i (.claim s.tail) } (by simp [ringBufferPush, hhead, hfree])
    have hwon := run_concat_push htest hhead i
      { s with
        tail := succ64 s.tail, claims := s.claims ++ [i], push := update s.push i (.copy s.tail) }
      (by simp [ringBufferPush])
    refine ⟨_, _, hwon, hhead, succ64_of_lt (by omega), fun j hj => ?_⟩
    have hji : j ≠ i := by
      rintro rfl
      simp [i] at hj
    dsimp only
    rw [update_of_ne hji]
    exact hpush j (by omega)

/-- The last of 4096 calls finds the ring full. -/
theorem ring_drops_last :
    ∃ ls s, Runs.Run (ringStep fun _ : Fin 4096 => .zero) HeadNotPast .init ls s ∧
    s.push 4095 = .dropped ∧ FullDuring (fun _ => .zero) 4095 ls s := by
  obtain ⟨ls, s, hrun, hhead, htail, hpush⟩ := exists_run_filled le_rfl
  have hi : s.push 4095 = .readTail := hpush 4095 le_rfl
  have hfull : ringSlot (succ64 s.tail) = ringSlot 0 := by
    rw [htail]
    decide
  have hread := run_concat_push hrun hhead 4095
    { s with push := update s.push 4095 (.readHead s.tail) } (by simp [ringBufferPush, hi])
  have htest := run_concat_push hread hhead 4095
    { s with push := update s.push 4095 .drop } (by simp [ringBufferPush, hhead, hfull])
  have hdrop := run_concat_push htest hhead 4095
    { s with
      total_dropped := succ64 s.total_dropped
      dropped_by := update s.dropped_by 4095 (s.dropped_by 4095 + 1)
      push := update s.push 4095 .dropped } (by simp [ringBufferPush])
  have hdropped := update_self (4095 : Fin 4096) PushPc.dropped s.push
  exact ⟨_, _, hdrop, hdropped, ring_drops_when_full (by simp) _ _ _ hdrop 4095 hdropped⟩

end PgAutoIndex.AutoIndex
