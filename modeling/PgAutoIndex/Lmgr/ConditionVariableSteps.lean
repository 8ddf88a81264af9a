import PgAutoIndex.Lmgr.ConditionVariableInvariant

/-!
# The steps of condition variables keep the invariant

`Effect` says once what a step of a process can do, by where the process is (`step_effect`). From it
follow what the step does to others and what holds of the process itself afterwards (`Effect.by`),
and so `Inv.step`.
-/

namespace PgAutoIndex.Lmgr.ConditionVariable

open Function Option

variable {C P : Type}

/-! ## What holds of a process -/

/-- The steps that begin with `ConditionVariableCancelSleep`. -/
inductive CancelMove : List (Frame C P) → List (Frame C P) → Prop where
  | prepare : CancelMove (.loop cv timeout .prepare :: rest) (.loop cv timeout .push :: rest)
  | cancel : CancelMove (.loop cv timeout .cancel :: rest) rest
  | broadcast : CancelMove (.broadcast cv .cancel :: rest) (.broadcast cv .inspect :: rest)
  | abort : CancelMove (.cancelSleep :: rest) rest

section
variable {s s' : State C P} {a p : P} {cv : C} {rest frames : List (Frame C P)} {pc : BroadcastPc P}

/-- The invariant holds at the start. -/
theorem inv_init (latch : P → Bool) (pred : C → Bool) : Inv (init latch pred) := by
  refine ⟨⟨fun _ => List.nodup_nil, fun p => ?_, nofun⟩, fun p => ?_⟩
  · exact iff_of_false Bool.false_ne_true fun ⟨_, h⟩ => List.not_mem_nil h
  · exact .of_noTarget rfl nofun nofun rfl

/-- Who cancels a sleep has no sentinel. -/
theorem CancelMove.not_sentinel {frames' : List (Frame C P)} (h : CancelMove frames frames')
    (hs : s.stack a = frames) (cv : C) : ¬ Sentinel s a cv := by
  rintro ⟨pc, rest, heq, hpc⟩
  cases hs.symm.trans heq
  cases h
  exact hpc

/-- Who is about to pop for a signal is free. -/
theorem free_of_signal (hs : s.stack a = .signal cv .pop :: rest) : Free s a := by
  intro f rest' heq
  cases hs.symm.trans heq
  exact .inr (.inl ⟨cv, rfl⟩)

/-- Nothing but a latch or a predicate changes without a process. -/
theorem ProcOk.of_env (h : ProcOk s p) (hwake : s'.wakeup = s.wakeup)
    (htarget : s'.target = s.target) (hstack : s'.stack = s.stack)
    (hlatch : s.latch p = true → s.target p ≠ none → s'.latch p = true)
    (hpred : ∀ cv, s'.pred cv = true → s.pred cv = true) : ProcOk s' p := by
  cases s
  cases s'
  dsimp only at hwake htarget hstack
  subst hwake htarget hstack
  refine { h with
    awake := fun cv hcv => ?_
    covered := fun cv timeout pc rest hb hpc hcv hp hm => ?_ }
  · refine (h.awake cv hcv).imp_right (Or.imp_left fun hl => hlatch hl ?_)
    rw [hcv]
    exact some_ne_none cv
  · exact h.covered cv timeout pc rest hb hpc hcv (hpred cv hp) hm

variable (h : Inv s)
include h

/-- What a process does when it can begin something is nothing, or an interrupted sleep. -/
theorem Inv.interrupted (hi : interruptible (s.stack a) = true) : Interrupted (s.stack a) := by
  cases hst : s.stack a with
  | nil => exact nofun
  | cons f rest =>
    rw [hst] at hi
    intro f' hf
    rcases List.mem_cons.mp hf with rfl | hf
    · match f', hi with
      | .loop cv timeout (.interrupts done), _ => exact ⟨cv, timeout, done, rfl⟩
    · exact (h.proc a).tail_of_cons hst f' hf

/-- In `ConditionVariableBroadcast`, once its own sleep is cancelled, an entry of the process is its
sentinel. -/
theorem Inv.sentinel_of_mem (hs : s.stack a = .broadcast cv pc :: rest)
    (hpc : pc ≠ .cancel) {cv' : C} (hmem : a ∈ s.wakeup cv') : cv' = cv ∧ pc.HaveSentinel := by
  have ht := (h.proc a).broadcasting cv pc rest hs hpc
  rcases (h.proc a).owner cv' hmem with ht' | ⟨pc', rest', heq, hpc'⟩
  · cases ht.symm.trans ht'
  · cases hs.symm.trans heq
    exact ⟨rfl, hpc'⟩

/-- While its own sleep is cancelled and it has no sentinel, a process in
`ConditionVariableBroadcast` is in no list. -/
theorem Inv.not_mem_of_broadcast (hs : s.stack a = .broadcast cv pc :: rest)
    (hpc : pc ≠ .cancel) (hnot : ¬ pc.HaveSentinel) (cv' : C) : a ∉ s.wakeup cv' :=
  fun hm => hnot (h.sentinel_of_mem hs hpc hm).2

end

/-! ## Latches -/

section
variable [DecidableEq P] {s : State C P} {a p q r : P}

/-- The latch of the process to be woken is set, if there is one. -/
def State.wake (s : State C P) : Option P → State C P
  | none => s
  | some proc => s.setLatch proc

/-- Whose latch the next step of `a` sets. -/
def toWake (a : P) : List (Frame C P) → Option P
  | .signal _ (.setLatch proc) :: _ | .broadcast _ (.first proc _) :: _ => proc
  | .broadcast _ (.next proc _) :: _ => if proc = some a then none else proc
  | _ => none

/-- Setting a latch changes nothing else. -/
theorem wake_same (s : State C P) (proc : Option P) :
    (s.wake proc).wakeup = s.wakeup ∧ (s.wake proc).linked = s.linked ∧
    (s.wake proc).stack = s.stack ∧ (s.wake proc).target = s.target ∧
    (s.wake proc).pred = s.pred := by
  cases proc <;> exact ⟨rfl, rfl, rfl, rfl, rfl⟩

/-- A latch that is set stays set. -/
theorem wake_mono (proc : Option P) (h : s.latch p = true) : (s.wake proc).latch p = true := by
  cases proc with
  | none => exact h
  | some x => exact setLatch_mono h x

/-- The latch that is set next. -/
theorem Pending.toWake_eq (h : Pending s r q) : toWake r (s.stack r) = some q := by
  rcases h with ⟨cv, rest, hs⟩ | ⟨cv, h, rest, hs⟩ | ⟨cv, h, rest, hs, hne⟩
  · rw [hs]
    rfl
  · rw [hs]
    rfl
  · rw [hs, toWake, if_neg (by simpa using hne)]

/-- That latch is then set. -/
theorem Pending.latch_wake (h : Pending s a q) :
    (s.wake (toWake a (s.stack a))).latch q = true := by
  rw [h.toWake_eq]
  exact update_self _ _ _

/-- Without a latch to set, none is pending. -/
theorem no_pending (h : toWake a (s.stack a) = none) (q : P) (hq : Pending s a q) :
    s.latch q = true := by
  rw [hq.toWake_eq] at h
  cases h

end

variable [DecidableEq C] [DecidableEq P]

/-! ## What a step can do -/

/-- A process is added at the end of a list. -/
def State.pushTail (s : State C P) (cv : C) (p : P) : State C P :=
  { s with wakeup := update s.wakeup cv (s.wakeup cv ++ [p]), linked := update s.linked p true }

/-- The head of a list is taken out. -/
def State.popHead (s : State C P) (cv : C) (x : P) (xs : List P) : State C P :=
  { s with wakeup := update s.wakeup cv xs, linked := update s.linked x false }

/-- The steps inside the loop that touch no shared data. -/
inductive LoopMove (s : State C P) (a : P) (cv : C) (timeout : ℤ) :
    Label C P → LoopPc → LoopPc → Prop where
  | found (h : s.pred cv = true) : LoopMove s a cv timeout (.run a) .test .cancel
  | sleep (h : ¬ s.pred cv = true) : LoopMove s a cv timeout (.run a) .test .sleep
  | wait (h : s.target a = some cv) : LoopMove s a cv timeout (.run a) .sleep .wait
  | prepare (h : s.target a ≠ some cv) : LoopMove s a cv timeout (.run a) .sleep .prepare
  | latched (h : s.latch a = true) : LoopMove s a cv timeout (.run a) .wait .reset
  | linked (h : s.linked a = true) : LoopMove s a cv timeout (.run a) .check (.interrupts false)
  | again : LoopMove s a cv timeout (.run a) .timedOut .test
  | timeout : LoopMove s a cv timeout (.timeout a) .wait .reset
  | done (elapsed : ℤ) (done : Bool) : LoopMove s a cv timeout (.proceed a elapsed)
    (.interrupts done) .test
  | timedOut (elapsed : ℤ) (done : Bool) : LoopMove s a cv timeout (.proceed a elapsed)
    (.interrupts done) .timedOut
  | goOn (elapsed : ℤ) (h : s.target a = some cv) : LoopMove s a cv timeout (.proceed a elapsed)
    (.interrupts false) .wait
  | giveUp : LoopMove s a cv timeout (.giveUp a) .timedOut .cancel

/-- What a step of a process can do. -/
inductive Effect (s : State C P) (a : P) : Label C P → State C P → Prop where
  | move {pc pc' : LoopPc} (hs : s.stack a = .loop cv timeout pc :: rest)
    (hmove : LoopMove s a cv timeout l pc pc') :
    Effect s a l (s.goto a (.loop cv timeout pc' :: rest))
  | reset (hs : s.stack a = .loop cv timeout .reset :: rest) :
    Effect s a (.run a)
      (({ s with latch := update s.latch a false } : State C P).goto a
        (.loop cv timeout .check :: rest))
  | push (hs : s.stack a = .loop cv timeout .push :: rest) (hl : s.linked a = false) :
    Effect s a (.run a)
      ((({ s with target := update s.target a (some cv) } : State C P).pushTail cv a).goto a
        (.loop cv timeout .test :: rest))
  | pushAgain (hs : s.stack a = .loop cv timeout .check :: rest) (hl : s.linked a = false) :
    Effect s a (.run a) ((s.pushTail cv a).goto a (.loop cv timeout (.interrupts true) :: rest))
  | cancel (hs : s.stack a = frames) {frames' : List (Frame C P)}
    (hmove : CancelMove frames frames') :
    Effect s a (.run a) ((conditionVariableCancelSleep a s).1.goto a frames')
  | signalNone (hs : s.stack a = .signal cv .pop :: rest) :
    Effect s a (.run a) (s.goto a (.signal cv (.setLatch none) :: rest))
  | signalPop (x : P) (xs : List P) (hs : s.stack a = .signal cv .pop :: rest)
    (hw : s.wakeup cv = x :: xs) :
    Effect s a (.run a) ((s.popHead cv x xs).goto a (.signal cv (.setLatch (some x)) :: rest))
  | signalWake (proc : Option P) (hs : s.stack a = .signal cv (.setLatch proc) :: rest) :
    Effect s a (.run a) ((s.wake proc).goto a rest)
  | inspectNone (hs : s.stack a = .broadcast cv .inspect :: rest) (hw : s.wakeup cv = []) :
    Effect s a (.run a) (s.goto a (.broadcast cv (.first none false) :: rest))
  | inspectOne (x : P) (hs : s.stack a = .broadcast cv .inspect :: rest) (hw : s.wakeup cv = [x]) :
    Effect s a (.run a) ((s.popHead cv x []).goto a (.broadcast cv (.first (some x) false) :: rest))
  | inspectMore (x : P) (xs : List P) (hs : s.stack a = .broadcast cv .inspect :: rest)
    (hl : s.linked a = false) (hw : s.wakeup cv = x :: xs) :
    Effect s a (.run a)
      (((s.popHead cv x xs).pushTail cv a).goto a (.broadcast cv (.first (some x) true) :: rest))
  | latch {pc : BroadcastPc P} (haveSentinel : Bool) (hs : s.stack a = .broadcast cv pc :: rest)
    (hpc : ∃ proc, pc = .first proc haveSentinel ∨ pc = .next proc haveSentinel) :
    Effect s a (.run a)
      ((s.wake (toWake a (s.stack a))).goto a
        (.broadcast cv (if haveSentinel = true then .again else .finished) :: rest))
  | popNone (hs : s.stack a = .broadcast cv .again :: rest) (hw : s.wakeup cv = []) :
    Effect s a (.run a) (s.goto a (.broadcast cv (.next none (s.linked a)) :: rest))
  | pop (x : P) (xs : List P) (hs : s.stack a = .broadcast cv .again :: rest)
    (hw : s.wakeup cv = x :: xs) :
    Effect s a (.run a)
      ((s.popHead cv x xs).goto a
        (.broadcast cv (.next (some x) ((s.popHead cv x xs).linked a)) :: rest))
  | finish (hs : s.stack a = .broadcast cv .finished :: rest) : Effect s a (.run a) (s.goto a rest)
  | start (op : Op C) (hi : interruptible (s.stack a) = true) :
    Effect s a (.start a op) (start s a op)
  | abort (done : Bool) (hs : s.stack a = .loop cv timeout (.interrupts done) :: rest) :
    Effect s a (.abort a) (s.goto a [.cancelSleep])

variable {s s' s₁ : State C P} {a p q r : P} {cv : C} {timeout : ℤ} {rest frames : List (Frame C P)}
  {l : Label C P}

/-- The list without its head. -/
theorem popHead_wakeup_self (x : P) (xs : List P) : (s.popHead cv x xs).wakeup cv = xs :=
  update_self _ _ _

/-- An empty list has no head. -/
theorem popHeadNode_nil (h : s.wakeup cv = []) : proclistPopHeadNode cv s = (none, s) := by
  rw [proclistPopHeadNode, h]

variable {x : P} {xs : List P} {pc : BroadcastPc P}

/-- The head of a list is taken out. -/
theorem popHeadNode_cons (h : s.wakeup cv = x :: xs) :
    proclistPopHeadNode cv s = (some x, s.popHead cv x xs) := by
  rw [proclistPopHeadNode, h]
  rfl

/-- Only a process that is not linked is added. -/
theorem pushTail_eq_some (h : proclistPushTail cv a s = some s') :
    s.linked a = false ∧ s' = s.pushTail cv a := by
  rw [proclistPushTail] at h
  split_ifs at h with hl
  exact ⟨Bool.not_eq_true _ ▸ hl, (some_inj.mp h).symm⟩

/-- What a step of a sleep does. -/
theorem runLoop_effect {pc : LoopPc} (hs : s.stack a = .loop cv timeout pc :: rest)
    (hrun : runLoop s a cv timeout rest pc = some s') :
    Effect s a (.run a) s' := by
  cases pc with
  | prepare =>
    cases hrun
    exact .cancel hs .prepare
  | push =>
    obtain ⟨s₁, hpush, hrun⟩ := bind_eq_some_iff.mp hrun
    obtain ⟨hl, rfl⟩ := pushTail_eq_some hpush
    cases hrun
    exact .push hs hl
  | test =>
    cases hrun
    split_ifs with hpred
    · exact .move hs (.found hpred)
    · exact .move hs (.sleep hpred)
  | sleep =>
    cases hrun
    split_ifs with ht
    · exact .move hs (.wait ht)
    · exact .move hs (.prepare ht)
  | wait =>
    rw [runLoop] at hrun
    split_ifs at hrun with hlatch
    cases hrun
    exact .move hs (.latched hlatch)
  | reset =>
    cases hrun
    exact .reset hs
  | check =>
    rw [runLoop] at hrun
    split_ifs at hrun with hl
    · cases hrun
      exact .move hs (.linked hl)
    · obtain ⟨s₁, hpush, hrun⟩ := bind_eq_some_iff.mp hrun
      obtain ⟨hl, rfl⟩ := pushTail_eq_some hpush
      cases hrun
      exact .pushAgain hs hl
  | interrupts done => cases hrun
  | timedOut =>
    cases hrun
    exact .move hs .again
  | cancel =>
    cases hrun
    exact .cancel hs .cancel

/-- What a step of a signal does. -/
theorem runSignal_effect {pc : SignalPc P} (hs : s.stack a = .signal cv pc :: rest) :
    Effect s a (.run a) (runSignal s a cv rest pc) := by
  cases pc with
  | pop =>
    cases hw : s.wakeup cv with
    | nil =>
      rw [runSignal, popHeadNode_nil hw]
      exact .signalNone hs
    | cons x xs =>
      rw [runSignal, popHeadNode_cons hw]
      exact .signalPop x xs hs hw
  | setLatch proc => cases proc <;> exact .signalWake _ hs

/-- What a step of a broadcast does. -/
theorem runBroadcast_effect (hs : s.stack a = .broadcast cv pc :: rest)
    (hrun : runBroadcast s a cv rest pc = some s') :
    Effect s a (.run a) s' := by
  cases pc with
  | cancel =>
    cases hrun
    exact .cancel hs .broadcast
  | inspect =>
    rw [runBroadcast] at hrun
    split_ifs at hrun with hl
    cases hw : s.wakeup cv with
    | nil =>
      simp only [popHeadNode_nil hw, if_pos hw] at hrun
      cases hrun
      exact .inspectNone hs hw
    | cons x xs =>
      simp only [popHeadNode_cons hw] at hrun
      split_ifs at hrun with hxs
      · obtain rfl : xs = [] := (popHead_wakeup_self x xs).symm.trans hxs
        cases hrun
        exact .inspectOne x hs hw
      · obtain ⟨s₁, hpush, hrun⟩ := bind_eq_some_iff.mp hrun
        obtain ⟨-, rfl⟩ := pushTail_eq_some hpush
        cases hrun
        exact .inspectMore x xs hs (Bool.not_eq_true _ ▸ hl) hw
  | first proc haveSentinel =>
    have heff := Effect.latch haveSentinel hs ⟨proc, .inl rfl⟩
    rw [hs] at heff
    cases hrun
    cases proc <;> exact heff
  | again =>
    cases hw : s.wakeup cv with
    | nil =>
      rw [runBroadcast, popHeadNode_nil hw] at hrun
      cases hrun
      exact .popNone hs hw
    | cons x xs =>
      rw [runBroadcast, popHeadNode_cons hw] at hrun
      cases hrun
      exact .pop x xs hs hw
  | next proc haveSentinel =>
    have heff := Effect.latch haveSentinel hs ⟨proc, .inr rfl⟩
    rw [hs] at heff
    cases hrun
    cases proc with
    | none => exact heff
    | some x =>
      by_cases hx : x = a
      · rw [toWake, if_pos (congrArg some hx)] at heff
        simp only [if_pos hx]
        exact heff
      · rw [toWake, if_neg (mt some_inj.mp hx)] at heff
        simp only [if_neg hx]
        exact heff
  | finished =>
    cases hrun
    exact .finish hs

/-- What any step does. -/
theorem step_effect (hl : l.actor = some a) (hstep : step s l = some s') : Effect s a l s' := by
  cases l with
  | start p op =>
    cases hl
    rw [step] at hstep
    split_ifs at hstep with hi
    cases hstep
    exact .start op hi
  | run p =>
    cases hl
    rw [step, run] at hstep
    split at hstep
    case h_1 => cases hstep
    case h_2 hs => exact runLoop_effect hs hstep
    case h_3 hs =>
      cases hstep
      exact runSignal_effect hs
    case h_4 hs => exact runBroadcast_effect hs hstep
    case h_5 hs =>
      cases hstep
      exact .cancel hs .abort
  | timeout p =>
    cases hl
    rw [step] at hstep
    split at hstep
    case h_1 hs =>
      split_ifs at hstep
      cases hstep
      exact .move hs .timeout
    case h_2 => cases hstep
  | proceed p elapsed =>
    cases hl
    rw [step] at hstep
    split at hstep
    case h_1 cv timeout done rest hs =>
      cases hstep
      unfold proceed
      split_ifs with hdone htime
      · exact .move hs (.done elapsed done)
      · exact .move hs (.timedOut elapsed done)
      · rw [not_or, not_not, Bool.not_eq_true] at hdone
        rw [hdone.1] at hs
        exact .move hs (.goOn elapsed hdone.2)
    case h_2 => cases hstep
  | giveUp p =>
    cases hl
    rw [step] at hstep
    split at hstep
    case h_1 hs =>
      cases hstep
      exact .move hs .giveUp
    case h_2 => cases hstep
  | abort p =>
    cases hl
    rw [step] at hstep
    split at hstep
    case h_1 cv timeout done rest hs =>
      cases hstep
      exact .abort done hs
    case h_2 => cases hstep
  | setLatch p | resetLatch p | falsify cv => cases hl

/-! ## ConditionVariableBroadcast -/

section
variable (h : Inv s)
include h

/-- A step of `ConditionVariableBroadcast` after its own sleep has been cancelled: it goes on, with
its sentinel behind those that it still has to take out, or it returns. -/
theorem broadcast_by (hs : s.stack a = .broadcast cv pc :: rest) (hpc : pc ≠ .cancel)
    (hs₁ : s₁.stack = s.stack ∧ s₁.target = s.target ∧ s₁.pred = s.pred)
    (hlatch : ∀ p, s.latch p = true → s₁.latch p = true)
    (hpending : ∀ q, Pending s a q → s₁.latch q = true) (hqueue : QueueStep a s (s₁.goto a frames))
    (hother : ∀ cv', cv' ≠ cv → s₁.wakeup cv' = s.wakeup cv')
    (hframes : (∃ pc', frames = .broadcast cv pc' :: rest ∧ (a ∈ s₁.wakeup cv → pc'.HaveSentinel) ∧
        ∀ p, p ≠ a → (pc = .inspect ∨ pc.HaveSentinel ∧ Before p a (s.wakeup cv)) →
          p ∈ s₁.wakeup cv → pc'.HaveSentinel ∧ Before p a (s₁.wakeup cv)) ∨
      frames = rest ∧ pc = .finished ∧ s₁.wakeup cv = s.wakeup cv) : StepOk a s
      (s₁.goto a frames) := by
  obtain ⟨hstack, htarget, hpred⟩ := hs₁
  have ht := (h.proc a).broadcasting cv pc rest hs hpc
  have htail := (h.proc a).tail_of_cons hs
  have htop : (s₁.goto a frames).stack a = frames := update_self _ _ _
  refine ⟨⟨fun p hp => ?_, fun p _ => by rw [goto_target, htarget], fun p _ =>
    hlatch p, hqueue, hpending, fun p cv' hp hw hm => ?_,
    fun cv' hp => .inl (hpred ▸ hp)⟩,
    .of_noTarget (by rw [goto_target, htarget, ht]) (fun cv' hm => ?_) ?_ ?_⟩
  · rw [goto_stack, update_of_ne hp, hstack]
  · obtain ⟨pc', rest', heq, hcond⟩ := hw
    cases hs.symm.trans heq
    have hcond := hcond.resolve_left hpc
    rcases hframes with ⟨pc', rfl, -, hwake⟩ | ⟨-, rfl, -⟩
    · exact ⟨pc', rest, htop, .inr (.inr (hwake p hp hcond hm))⟩
    · rcases hcond with heq | ⟨hhave, -⟩
      · cases heq
      · exact hhave.elim
  · have hcv : cv' = cv := by
      by_contra hne
      rw [goto_wakeup, hother cv' hne] at hm
      exact hne (h.sentinel_of_mem hs hpc hm).1
    subst hcv
    rcases hframes with ⟨pc', rfl, hsent, -⟩ | ⟨rfl, rfl, hw⟩
    · exact ⟨pc', rest, htop, hsent hm⟩
    · exact absurd (hw ▸ hm) (h.not_mem_of_broadcast hs hpc id cv')
  · rw [htop]
    rcases hframes with ⟨pc', rfl, -⟩ | ⟨rfl, -⟩
    · exact htail
    · exact htail.tail
  · rw [htop]
    rcases hframes with ⟨pc', rfl, -⟩ | ⟨rfl, -⟩
    · exact .inr rfl
    · exact htail.topOk fun _ => rfl

/-- A broadcast puts its sentinel behind the others. -/
theorem inspectMore_by (hs : s.stack a = .broadcast cv .inspect :: rest)
    (hl : s.linked a = false) (hw : s.wakeup cv = x :: xs) :
    StepOk a s (((s.popHead cv x xs).pushTail cv a).goto a
      (.broadcast cv (.first (some x) true) :: rest)) := by
  have hqueue : ((s.popHead cv x xs).pushTail cv a).wakeup = update s.wakeup cv (xs ++ [a]) := by
    simp [State.pushTail, State.popHead]
  refine broadcast_by h hs nofun ⟨rfl, rfl, rfl⟩ (fun _ => id) (no_pending (by rw [hs]; rfl))
    (.popPush cv x xs hl hw hqueue rfl ?_) (fun cv' hne => ?_)
    (.inl ⟨_, rfl, fun _ => trivial, fun p hp _ hm => ⟨trivial, ?_⟩⟩)
  · exact .inr (.inl ⟨cv, true, rest, update_self _ _ _⟩)
  · rw [hqueue, update_of_ne hne]
  · rw [hqueue, update_self] at hm ⊢
    exact before_concat (by simpa [hp] using hm)

/-- A latch is set, and the loop goes on or ends. -/
theorem latch_by {haveSentinel : Bool} (hs : s.stack a = .broadcast cv pc :: rest)
    (hpc : pc ≠ .cancel ∧ pc ≠ .inspect ∧ (pc.HaveSentinel ↔ haveSentinel = true))
    (hframes : frames = .broadcast cv (if haveSentinel = true then .again else .finished) :: rest) :
    StepOk a s ((s.wake (toWake a (s.stack a))).goto a frames) := by
  obtain ⟨hw, hl, hsame⟩ := wake_same s (toWake a (s.stack a))
  have hagain : pc.HaveSentinel →
      (if haveSentinel = true then BroadcastPc.again else .finished : BroadcastPc P).HaveSentinel :=
        fun hhave => by
    rw [if_pos (hpc.2.2.mp hhave)]
    trivial
  refine broadcast_by h hs hpc.1 hsame (fun _ => wake_mono _) (fun q hq => hq.latch_wake)
    (.same hw hl) (fun _ _ => by rw [hw]) (.inl ⟨_, hframes, fun hm => ?_,
    fun p hp hcond hm => ?_⟩)
  · rw [hw] at hm
    exact hagain (h.sentinel_of_mem hs hpc.1 hm).2
  · rw [hw]
    have hhave := hcond.resolve_left hpc.2.1
    exact ⟨hagain hhave.1, hhave.2⟩

/-- A broadcast takes out the next process. -/
theorem pop_by (hs : s.stack a = .broadcast cv .again :: rest)
    (hw : s.wakeup cv = x :: xs) :
    StepOk a s ((s.popHead cv x xs).goto a
      (.broadcast cv (.next (some x) ((s.popHead cv x xs).linked a)) :: rest)) := by
  have hqueue : (s.popHead cv x xs).wakeup cv = xs := popHead_wakeup_self x xs
  have hnodup := h.queues.nodup cv
  rw [hw] at hnodup
  -- the sentinel is found where it still is
  have hstill : a ∈ (s.popHead cv x xs).wakeup cv →
      (BroadcastPc.next (some x) ((s.popHead cv x xs).linked a)).HaveSentinel := by
    intro hm
    have hqueues : Queues (s.popHead cv x xs) := h.queues.pop hw rfl rfl
    rw [(hqueues.linked_iff a).mpr ⟨cv, hm⟩]
    trivial
  refine broadcast_by h hs nofun ⟨rfl, rfl, rfl⟩ (fun _ => id) (no_pending (by rw [hs]; rfl))
    (.pop cv x xs hw rfl rfl fun hx => ?_)
    (fun _ hne => update_of_ne hne _ _) (.inl ⟨_, rfl, hstill, fun p _ hcond hm => ?_⟩)
  · exact .inr (.inr ⟨cv, _, rest, update_self _ _ _, hx⟩)
  · -- the sentinel is not the head, since there is a process before it
    have hbefore := (hcond.resolve_left nofun).2
    rw [hqueue] at hm hstill ⊢
    rw [hw] at hbefore
    have hbefore' := (hbefore.of_cons hnodup hm).2
    exact ⟨hstill hbefore'.mem.2, hbefore'⟩

/-! ## The other steps -/

/-- A step in the loop, or from it, that leaves the lists and what is said of the process alone. -/
theorem loop_by {pc : LoopPc} (hs : s.stack a = .loop cv timeout pc :: rest)
    (hcheck : pc = .check → s.linked a = true) (htail : Interrupted frames.tail)
    (htop : TopOk (s.target a) frames)
    (huntested : ∀ cv' timeout' pc' rest', body frames = .loop cv' timeout' pc' :: rest' →
      pc'.Untested → s.target a = some cv' → s.pred cv' = true → cv' = cv ∧ pc.Untested) :
    StepOk a s (s.goto a frames) := by
  have hfree := free_of_loop hs
  have hstep := stepBy_goto hfree frames
  have hframes : (s.goto a frames).stack a = frames := update_self _ _ _
  refine ⟨hstep,
    .of_own h hstep (fun _ _ _ => hfree.not_broadcast) rfl (fun _ => id) (by rwa [hframes])
      (by rwa [hframes]) (.inr ⟨id, fun cv' hcv hin => .inl ?_⟩)
    fun cv' timeout' pc' rest' hb hpc hcv hp => ?_⟩
  · rcases hin with hm | ⟨cv₁, timeout₁, rest₁, heq⟩
    · exact hm
    · cases hs.symm.trans heq
      exact (h.proc a).mem_of_linked h.queues hfree (hcheck rfl) hcv
  · rw [hframes] at hb
    obtain ⟨rfl, hpc₀⟩ := huntested cv' timeout' pc' rest' hb hpc hcv hp
    exact ⟨hp, timeout, pc, rest, by rw [hs]; rfl, hpc₀⟩

/-- A sleep goes on. -/
theorem LoopMove.by {pc pc' : LoopPc} (hs : s.stack a = .loop cv timeout pc :: rest)
    (hmove : LoopMove s a cv timeout l pc pc') :
    StepOk a s (s.goto a (.loop cv timeout pc' :: rest)) := by
  have hasleep := (h.proc a).asleep cv timeout pc rest hs
  refine loop_by h hs ?_ ((h.proc a).tail_of_cons hs) ⟨?_, ?_⟩
    fun cv' timeout' pc'' rest' hb hpc hcv hp => ?_
  · rintro rfl
    cases hmove with
    | linked hl => exact hl
  · cases hmove with
    | wait ht | goOn _ ht => exact fun _ => ht
    | latched | timeout => exact fun _ => hasleep trivial
    | _ => exact fun hpc => hpc.elim
  · cases hmove <;> exact nofun
  · cases hb
    refine ⟨rfl, ?_⟩
    cases hmove with
    | sleep hnot => exact absurd hp hnot
    | wait | latched | timeout | linked | goOn => trivial
    | _ => exact hpc.elim

/-- The process adds itself to the wait list, and will test the predicate before it sleeps. -/
theorem push_by {pc pc' : LoopPc} (hs : s.stack a = .loop cv timeout pc :: rest)
    (hl : s.linked a = false)
    (hs₁ : s₁.wakeup = s.wakeup ∧ s₁.linked = s.linked ∧ s₁.latch = s.latch ∧ s₁.pred = s.pred ∧
      s₁.stack = s.stack)
    (hother : ∀ p, p ≠ a → s₁.target p = s.target p) (htarget : s₁.target a = some cv)
    (hpc : ¬ pc'.Asleep ∧ ¬ pc'.Untested ∧ pc' ≠ .push) :
    StepOk a s ((s₁.pushTail cv a).goto a (.loop cv timeout pc' :: rest)) := by
  obtain ⟨hw, hlinked, hlatch, hpred, hstack⟩ := hs₁
  generalize hframes : Frame.loop cv timeout pc' :: rest = frames
  have hqueue : QueueStep a s ((s₁.pushTail cv a).goto a frames) :=
    .push cv hl (by rw [← hw]; rfl) (by rw [← hlinked]; rfl)
  have htop : ((s₁.pushTail cv a).goto a frames).stack a = frames := update_self _ _ _
  have hmem : a ∈ ((s₁.pushTail cv a).goto a frames).wakeup cv := by simp [State.pushTail]
  refine ⟨.of_free (free_of_loop hs) (fun p hp => ?_) hother (fun p _ => congrFun hlatch p) hqueue
    fun cv' hp => .inl (hpred ▸ hp), .of_top ?_ ?_ (fun cv' hm => .inl ?_)
    (fun cv' hcv => .inl ?_) fun cv' timeout' pc'' rest' hb hpc'' => ?_⟩
  · rw [goto_stack, update_of_ne hp]
    exact congrFun hstack p
  · rw [htop, ← hframes]
    exact (h.proc a).tail_of_cons hs
  · rw [htop, ← hframes]
    exact ⟨fun hpc' => absurd hpc' hpc.1, fun hpc' => absurd hpc' hpc.2.2⟩
  · rw [(h.queues.step hqueue).unique a cv' cv hm hmem]
    exact htarget
  · cases htarget.symm.trans hcv
    exact hmem
  · rw [htop, ← hframes] at hb
    cases hb
    exact absurd hpc'' hpc.2.1

/-- The steps of `ConditionVariableSignal` keep what the process does apart from it. -/
theorem signal_by {pc : SignalPc P} (hs : s.stack a = .signal cv pc :: rest) (hstep : StepBy a s s')
    (hsame : s'.target = s.target ∧ s'.pred = s.pred)
    (hlatch : ∀ p, s.latch p = true → s'.latch p = true)
    (hframes : (∃ pc', s'.stack a = .signal cv pc' :: rest) ∨ s'.stack a = rest)
    (hmem : ∀ cv', a ∈ s'.wakeup cv' → a ∈ s.wakeup cv')
    (hpop : ∀ cv', a ∈ s.wakeup cv' → a ∈ s'.wakeup cv' ∨ Pending s' a a) : ProcOk s' a := by
  have hrest := (h.proc a).tail_of_cons hs
  have hbody : body (s'.stack a) = rest := by
    rcases hframes with ⟨pc', hs'⟩ | hs'
    · rw [hs']
      rfl
    · rw [hs', hrest.body_eq]
  have hidle : rest = [] → s.target a = none := fun hnil => (h.proc a).idle (by rw [hs, hnil]; rfl)
  refine .of_own h hstep (fun _ _ _ heq => ?_) (by rw [hsame.1]) hmem ?_ ?_
    (.inr ⟨hlatch a, fun cv' _ hin => hpop cv' ?_⟩) fun cv' timeout' pc' rest' hb hpc _ hp => ?_
  · cases hs.symm.trans heq
  · rcases hframes with ⟨pc', hs'⟩ | hs'
    · rwa [hs']
    · rw [hs']
      exact hrest.tail
  · rcases hframes with ⟨pc', hs'⟩ | hs'
    · rwa [hs']
    · rw [hs']
      exact hrest.topOk hidle
  · refine hin.resolve_right ?_
    rintro ⟨_, _, _, heq⟩
    cases hs.symm.trans heq
  · exact ⟨hsame.2 ▸ hp, timeout', pc', rest', by rw [hs, ← hb, hbody]; rfl, hpc⟩

/-- A process begins something. -/
theorem start_by (op : Op C) (hi : interruptible (s.stack a) = true) :
    StepOk a s (start s a op) := by
  have hfree := free_of_interruptible hi
  have hbelow := h.interrupted hi
  have hidle : s.stack a = [] → s.target a = none := fun hnil => (h.proc a).idle (by rw [hnil]; rfl)
  have hcheck : ¬ ∃ cv timeout rest, s.stack a = .loop cv timeout .check :: rest := by
    rintro ⟨cv, timeout, rest, hs⟩
    rw [hs] at hi
    cases hi
  have hgoto : ∀ s₁ : State C P, s₁.wakeup = s.wakeup → s₁.linked = s.linked →
    s₁.target = s.target → s₁.latch = s.latch → s₁.stack = s.stack →
      (∀ cv, s₁.pred cv = true → s.pred cv = true ∨
        op.frame = (.broadcast cv .cancel : Frame C P)) →
      StepOk a s (s₁.goto a (op.frame :: s.stack a)) := by
    intro s₁ hw hl ht hlatch hst hpred
    have htop : (s₁.goto a (op.frame :: s.stack a)).stack a = op.frame :: s.stack a :=
      update_self _ _ _
    have hstep : StepBy a s (s₁.goto a (op.frame :: s.stack a)) := by
      refine .of_free hfree (fun p hp => ?_) (fun p _ => congrFun ht p)
        (fun p _ => congrFun hlatch p) (.same hw hl) fun cv hp => ?_
      · rw [goto_stack, update_of_ne hp, hst]
      · refine (hpred cv hp).imp_right fun hf => ⟨s.stack a, ?_⟩
        rw [htop, hf]
    refine ⟨hstep,
      .of_own h hstep (fun _ _ _ => hfree.not_broadcast) (congrFun ht a) (fun cv hm => hw ▸ hm)
        (by rwa [htop]) ?_
      (.inr ⟨fun hl => hlatch ▸ hl, fun cv _ hin => .inl (hw ▸ hin.resolve_right hcheck)⟩)
        fun cv timeout pc rest hb hpc _ hp => ?_⟩
    · rw [htop]
      cases op with
      | wait cv timeout prepare => cases prepare <;> exact ⟨fun hpc => hpc.elim, nofun⟩
      | signal cv => exact hidle
      | broadcast cv | makeTrue cv => exact .inl rfl
    · rw [htop] at hb
      cases op with
      | wait cv' timeout' prepare =>
        cases hb
        cases prepare <;> exact hpc.elim
      | signal cv' =>
        exact ⟨(hpred cv hp).resolve_right nofun, timeout, pc, rest, hbelow.body_eq.trans hb, hpc⟩
      | broadcast cv' | makeTrue cv' => cases hb
  cases op with
  | makeTrue cv' =>
    refine hgoto _ rfl rfl rfl rfl rfl fun cv hp => ?_
    by_cases hcv : cv = cv'
    · exact .inr (by rw [hcv]; rfl)
    · exact .inl ((update_of_ne hcv _ _).symm.trans hp)
  | _ => exact hgoto s rfl rfl rfl rfl rfl fun _ => .inl

end

/-- What any step of a process does. -/
theorem Effect.by (h : Inv s) (heff : Effect s a l s') : StepOk a s s' := by
  cases heff with
  | move hs hmove => exact hmove.by h hs
  | @reset rest cv timeout hs =>
    have hfree := free_of_loop hs
    have hasleep := (h.proc a).asleep _ _ .reset _ hs trivial
    have hstep : StepBy a s
        (({ s with latch := update s.latch a false } : State C P).goto a
          (.loop cv timeout .check :: rest)) :=
      .of_free hfree (fun _ hp => update_of_ne hp _ _) (fun _ _ => rfl)
        (fun _ hp => update_of_ne hp _ _) (.same rfl rfl) fun _ => .inl
    refine ⟨hstep,
      .of_own h hstep (fun _ _ _ => hfree.not_broadcast) rfl (fun _ => id) ?_ ?_
        (.inl ⟨_, _, _, update_self _ _ _⟩)
      fun cv timeout pc rest hb _ _ hp => ?_⟩
    · rw [goto_stack, update_self]
      exact (h.proc a).tail_of_cons hs
    · rw [goto_stack, update_self]
      exact ⟨fun _ => hasleep, nofun⟩
    · rw [goto_stack, update_self] at hb
      cases hb
      exact ⟨hp, _, .reset, _, by rw [hs]; rfl, trivial⟩
  | push hs hl =>
    exact push_by h hs hl ⟨rfl, rfl, rfl, rfl, rfl⟩ (fun _ hp => update_of_ne hp _ _)
      (update_self _ _ _) ⟨id, id, nofun⟩
  | pushAgain hs hl =>
    exact push_by h hs hl ⟨rfl, rfl, rfl, rfl, rfl⟩ (fun _ _ => rfl)
      ((h.proc a).asleep _ _ .check _ hs trivial) ⟨id, id, nofun⟩
  | @cancel frames hs frames' hmove =>
    have htail : ∀ {f rest}, frames = f :: rest → Interrupted rest :=
      fun heq => (h.proc a).tail_of_cons (hs.trans heq)
    refine cancelSleep_step h (hmove.not_sentinel hs) (fun q hq => ?_) (fun p cv hw => ?_) ?_ ?_
    · have hnone := hq.toWake_eq
      rw [hs] at hnone
      cases hmove <;> cases hnone
    · obtain ⟨pc, rest, heq, -⟩ := hw
      cases hs.symm.trans heq
      cases hmove
      exact ⟨.inspect, rest, update_self _ _ _, .inr (.inl rfl)⟩
    · cases hmove with
      | prepare | broadcast => exact htail rfl
      | cancel | abort => exact (htail rfl).tail
    · cases hmove with
      | prepare => exact ⟨fun hpc => hpc.elim, fun _ => rfl⟩
      | broadcast => exact .inr rfl
      | cancel | abort => exact (htail rfl).topOk fun _ => rfl
  | @signalNone rest cv hs =>
    have hstep := stepBy_goto (free_of_signal hs) (.signal cv (.setLatch none) :: rest)
    exact ⟨hstep,
      signal_by h hs hstep ⟨rfl, rfl⟩ (fun _ => id) (.inl ⟨_, update_self _ _ _⟩) (fun _ => id)
        fun _ => .inl⟩
  | @signalPop rest cv x xs hs hw =>
    have hpend : Pending ((s.popHead cv x xs).goto a (.signal cv (.setLatch (some x)) :: rest)) a
        x := .inl ⟨cv, rest, update_self _ _ _⟩
    have hstep : StepBy a s
        ((s.popHead cv x xs).goto a (.signal cv (.setLatch (some x)) :: rest)) :=
      .of_free (free_of_signal hs) (fun _ hp => update_of_ne hp _ _) (fun _ _ => rfl)
        (fun _ _ => rfl) (.pop cv x xs hw rfl rfl fun _ => hpend) fun _ => .inl
    have hwake : ∀ cv', cv' ≠ cv → (s.popHead cv x xs).wakeup cv' = s.wakeup cv' :=
      fun _ hne => update_of_ne hne _ _
    have hpop : (s.popHead cv x xs).wakeup cv = xs := update_self _ _ _
    refine ⟨hstep,
      signal_by h hs hstep ⟨rfl, rfl⟩ (fun _ => id) (.inl ⟨_, update_self _ _ _⟩) (fun cv' hm => ?_)
        fun cv' hm => ?_⟩
    · by_cases hcv : cv' = cv
      · rw [hcv, goto_wakeup, hpop] at hm
        rw [hcv, hw]
        exact List.mem_cons_of_mem x hm
      · rwa [goto_wakeup, hwake cv' hcv] at hm
    · by_cases hcv : cv' = cv
      · -- the process may be the head of the list itself
        rw [hcv, hw] at hm
        rw [hcv, goto_wakeup, hpop]
        rcases List.mem_cons.mp hm with rfl | hm
        · exact .inr hpend
        · exact .inl hm
      · rw [goto_wakeup, hwake cv' hcv]
        exact .inl hm
  | @signalWake rest cv proc hs =>
    have hpend : ∀ q, Pending s a q → (s.wake proc).latch q = true := by
      intro q hq
      have hlatch := hq.latch_wake
      rwa [hs] at hlatch
    have hstep : StepBy a s ((s.wake proc).goto a rest) := by
      refine ⟨fun p hp => ?_, fun p _ => ?_, fun p _ =>
        wake_mono proc, ?_, hpend, fun p cv' _ hw => ?_, fun cv' hp => .inl ?_⟩
      · cases proc <;> exact update_of_ne hp _ _
      · cases proc <;> rfl
      · cases proc <;> exact .same rfl rfl
      · obtain ⟨pc', rest', heq, -⟩ := hw
        cases hs.symm.trans heq
      · cases proc <;> exact hp
    refine ⟨hstep,
      signal_by h hs hstep ?_ (fun _ => wake_mono proc) (.inr (update_self _ _ _)) (fun cv' => ?_)
        fun cv' => ?_⟩
    · cases proc <;> exact ⟨rfl, rfl⟩
    · cases proc <;> exact id
    · cases proc <;> exact .inl
  | start op hi => exact start_by h op hi
  | abort done hs =>
    exact loop_by h hs nofun nofun trivial nofun
  | inspectNone hs hw | popNone hs hw =>
    refine broadcast_by h hs nofun ⟨rfl, rfl, rfl⟩ (fun _ => id) (no_pending (by rw [hs]; rfl))
      (.same rfl rfl) (fun _ _ => rfl) (.inl ⟨_, rfl, ?_, ?_⟩)
    all_goals
      rw [hw]
      simp
  | @inspectOne rest cv x hs hw =>
    refine broadcast_by h hs nofun ⟨rfl, rfl, rfl⟩ (fun _ => id) (no_pending (by rw [hs]; rfl))
      (.pop cv x [] hw rfl rfl fun _ => ?_)
      (fun _ hne => update_of_ne hne _ _) (.inl ⟨_, rfl, ?_, ?_⟩)
    · exact .inr (.inl ⟨cv, false, rest, update_self _ _ _⟩)
    all_goals
      rw [popHead_wakeup_self]
      simp
  | inspectMore x xs hs hl hw => exact inspectMore_by h hs hl hw
  | latch haveSentinel hs hpc =>
    refine latch_by h hs ?_ rfl
    obtain ⟨proc, rfl | rfl⟩ := hpc <;> cases haveSentinel <;> simp [BroadcastPc.HaveSentinel]
  | pop x xs hs hw => exact pop_by h hs hw
  | finish hs =>
    exact broadcast_by h hs nofun ⟨rfl, rfl, rfl⟩ (fun _ => id) (no_pending (by rw [hs]; rfl))
      (.same rfl rfl) (fun _ _ => rfl) (.inr ⟨rfl, rfl, rfl⟩)

/-- Any step from a state with the invariant. -/
theorem step_by (h : Inv s) (hl : l.actor = some a) (hstep : step s l = some s') : StepOk a s s' :=
  (step_effect hl hstep).by h

/-- Every step keeps the invariant. -/
theorem Inv.step {l : Label C P} (h : Inv s) (hstep : ConditionVariable.step s l = some s') :
    Inv s' := by
  cases hl : l.actor with
  | some a =>
    obtain ⟨hby, hown⟩ := step_by h hl hstep
    refine ⟨h.queues.step hby.queue, fun p => ?_⟩
    by_cases hp : p = a
    · exact hp ▸ hown
    · exact (h.proc p).of_stepBy h.queues hby hp
  | none =>
    cases l with
    | setLatch q =>
      cases hstep
      exact ⟨⟨h.queues.nodup, h.queues.linked_iff, h.queues.unique⟩, fun p =>
        (h.proc p).of_env rfl rfl rfl (fun hl _ => setLatch_mono hl q) fun _ hp => hp⟩
    | resetLatch q =>
      rw [ConditionVariable.step] at hstep
      split_ifs at hstep with hst
      cases hstep
      refine ⟨⟨h.queues.nodup, h.queues.linked_iff, h.queues.unique⟩, fun p =>
        (h.proc p).of_env rfl rfl rfl (fun hl ht => ?_) fun _ hp => hp⟩
      -- A process that does nothing has no sleep prepared.
      have hpq : p ≠ q := by
        rintro rfl
        exact ht ((h.proc p).idle (by rw [hst]; rfl))
      show update s.latch q false p = true
      rwa [update_of_ne hpq]
    | falsify cv =>
      cases hstep
      refine ⟨⟨h.queues.nodup, h.queues.linked_iff, h.queues.unique⟩, fun p =>
        (h.proc p).of_env rfl rfl rfl (fun hl _ => hl) fun cv' hp => ?_⟩
      have hp' : update s.pred cv false cv' = true := hp
      rw [update_apply] at hp'
      split_ifs at hp'
      exact hp'
    | _ => cases hl

end PgAutoIndex.Lmgr.ConditionVariable
