import PgAutoIndex.Fairness
import PgAutoIndex.Lmgr.ConditionVariableBroadcast

/-!
# Condition variables lose no wakeup

`leaves_sleep`: in a weakly fair behaviour, a process that sleeps on a condition variable leaves the
sleep unless the predicate becomes false. Whoever made the predicate true is in a broadcast that
will take the process out of the list (`queued_leadsTo`); then its latch is set
(`pending_leadsTo_set`); and then it finds that it is not in the list any more
(`woken_leadsTo_left`).

`condition_variable_wakeups` has all results, and `condition_variable_late_latch` two runs that show
what does not hold.
-/

namespace PgAutoIndex.Lmgr.ConditionVariable

open Runs Fairness Function

variable {C P : Type} [DecidableEq C] [DecidableEq P] {s s' : State C P} {p r : P} {cv : C}
  {timeout : ℤ} {rest : List (Frame C P)} {l : Label C P}

/-! ## No process stays asleep -/

/-- In `ConditionVariableTimedSleep`, past its entry. -/
def LoopPc.InSleep : LoopPc → Prop
  | .wait | .reset | .check | .interrupts _ => True
  | _ => False

/-- The process is in a sleep on `cv`, and in no interrupt handler. -/
def InSleep (s : State C P) (p : P) (cv : C) : Prop :=
  ∃ timeout pc rest, s.stack p = .loop cv timeout pc :: rest ∧ pc.InSleep

/-- The process is in no sleep on `cv`, or the predicate is false. -/
def Left (p : P) (cv : C) (s : State C P) : Prop := ¬ InSleep s p cv ∨ s.pred cv = false

/-- How far the process is from leaving a sleep, once it has been taken out of the list. -/
def LoopPc.toLeave : LoopPc → ℕ
  | .interrupts true => 1
  | .check => 2
  | .reset => 3
  | .wait => 4
  | .interrupts false => 5
  | _ => 0

/-- In a sleep on `cv` that the process will leave when it comes to examine the wait list, or to
compare its sleep target. -/
structure Woken (p : P) (cv : C) (timeout : ℤ) (pc : LoopPc) (rest : List (Frame C P))
    (s : State C P) : Prop where
  inv : Inv s
  stack : s.stack p = .loop cv timeout pc :: rest
  inSleep : pc.InSleep
  leaves : pc = .interrupts true ∨ p ∉ s.wakeup cv ∨ s.target p ≠ some cv

/-- In a sleep on `cv` and in its wait list, although the predicate is true. -/
structure Queued (p : P) (cv : C) (s : State C P) : Prop where
  inv : Inv s
  pred : s.pred cv = true
  target : s.target p = some cv
  mem : p ∈ s.wakeup cv
  stack : ∃ timeout pc rest, s.stack p = .loop cv timeout pc :: rest ∧ pc.InSleep ∧
    pc ≠ .interrupts true

/-- A process in a sleep is in the wait list, or has been woken. -/
theorem queued_or_woken (h : Inv s) (hsleep : InSleep s p cv) (hpred : s.pred cv = true) :
    Queued p cv s ∨ ∃ timeout pc rest, Woken p cv timeout pc rest s := by
  obtain ⟨timeout, pc, rest, hs, hpc⟩ := hsleep
  by_cases hq : pc ≠ .interrupts true ∧ p ∈ s.wakeup cv ∧ s.target p = some cv
  · exact .inl ⟨h, hpred, hq.2.2, hq.2.1, timeout, pc, rest, hs, hpc, hq.1⟩
  · exact .inr ⟨timeout, pc, rest, h, hs, hpc, by tauto⟩

/-- What a process does next in a sleep: it leaves it, or goes on inside. -/
theorem sleep_step {pc : LoopPc} (hs : s.stack p = .loop cv timeout pc :: rest) (hpc : pc.InSleep)
    (hl : l.actor = some p) (hstep : step s l = some s') :
    ¬ InSleep s' p cv ∨ (∃ pc', s' = s.goto p (.loop cv timeout pc' :: rest) ∧
        (pc = .wait ∧ pc' = .reset ∨ pc = .check ∧ s.linked p = true ∧ pc' = .interrupts false ∨
          pc = .interrupts false ∧ s.target p = some cv ∧ pc' = .wait)) ∨
      (pc = .reset ∧ s' = ({ s with latch := update s.latch p false } : State C P).goto p
        (.loop cv timeout .check :: rest)) ∨
      (pc = .check ∧ s.linked p = false ∧ s'.stack p = .loop cv timeout
        (.interrupts true) :: rest) := by
  have hout : ∀ f fs, s'.stack p = f :: fs →
      (∀ timeout pc, f = .loop cv timeout pc → ¬ pc.InSleep) → ¬ InSleep s' p cv := by
    rintro f fs hf hnot ⟨timeout', pc', rest', hs', hpc'⟩
    rw [hf] at hs'
    exact hnot timeout' pc' (List.cons.inj hs').1 hpc'
  cases step_effect hl hstep with
  | start op =>
    refine .inl (hout op.frame (s.stack p) (by cases op <;> exact update_self _ _ _)
      fun timeout' pc' heq => ?_)
    cases op with
    | wait cv' timeout'' prepare =>
      cases heq
      cases prepare <;> exact id
    | _ => cases heq
  | abort => exact .inl (hout _ _ (update_self _ _ _) nofun)
  | @move _ _ _ _ _ pc' hs' hmove =>
    cases hs.symm.trans hs'
    cases hmove with
    | latched | timeout => exact .inr (.inl ⟨.reset, rfl, .inl ⟨rfl, rfl⟩⟩)
    | linked hlinked => exact .inr (.inl ⟨.interrupts false, rfl, .inr (.inl ⟨rfl, hlinked, rfl⟩)⟩)
    | goOn _ ht => exact .inr (.inl ⟨.wait, rfl, .inr (.inr ⟨rfl, ht, rfl⟩)⟩)
    | done | timedOut =>
      refine .inl (hout _ _ (update_self _ _ _) fun timeout' pc' heq => ?_)
      cases heq
      exact id
    | _ => exact hpc.elim
  | reset hs' =>
    cases hs.symm.trans hs'
    exact .inr (.inr (.inl ⟨rfl, rfl⟩))
  | pushAgain hs' hlinked =>
    cases hs.symm.trans hs'
    exact .inr (.inr (.inr ⟨rfl, hlinked, update_self _ _ _⟩))
  | push hs' =>
    cases hs.symm.trans hs'
    exact hpc.elim
  | cancel hs' hmove =>
    cases hs.symm.trans hs'
    cases hmove <;> exact hpc.elim
  | signalNone hs' | signalPop _ _ hs' | signalWake _ hs' | inspectNone hs' | inspectOne _ hs'
  | inspectMore _ _ hs' | latch _ hs' | popNone hs' | pop _ _ hs'
  | finish hs' => cases hs.symm.trans hs'

/-- A step of a process that has been woken brings it nearer to leaving its sleep. -/
theorem Woken.own_step {pc : LoopPc} (h : Woken p cv timeout pc rest s) (hl : l.actor = some p)
    (hstep : step s l = some s') :
    Left p cv s' ∨ ∃ pc', Woken p cv timeout pc' rest s' ∧ pc'.toLeave < pc.toLeave := by
  have hinv' := h.inv.step hstep
  have hfree := free_of_loop h.stack
  rcases sleep_step h.stack h.inSleep hl hstep with hout | ⟨pc', rfl, hcases⟩ | ⟨rfl, rfl⟩ |
    ⟨rfl, -, hs'⟩
  · exact .inl (.inl hout)
  · have hs' : (s.goto p (.loop cv timeout pc' :: rest)).stack p = .loop cv timeout pc' :: rest :=
      update_self _ _ _
    rcases hcases with ⟨rfl, rfl⟩ | ⟨rfl, hlinked, rfl⟩ | ⟨rfl, ht, rfl⟩
    · exact .inr ⟨.reset, ⟨hinv', hs', trivial, .inr (h.leaves.resolve_left (by simp))⟩, by decide⟩
    · -- It cannot be found in the list.
      have ht := (h.inv.proc p).asleep cv timeout .check rest h.stack trivial
      rcases h.leaves with heq | hnot | hne
      · cases heq
      · exact absurd ((h.inv.proc p).mem_of_linked h.inv.queues hfree hlinked ht) hnot
      · exact absurd ht hne
    · exact .inr ⟨.wait, ⟨hinv', hs', trivial, .inr (h.leaves.resolve_left (by simp))⟩, by decide⟩
  · exact .inr
      ⟨.check, ⟨hinv', update_self _ _ _, trivial, .inr (h.leaves.resolve_left (by simp))⟩,
        by decide⟩
  · exact .inr ⟨.interrupts true, ⟨hinv', hs', trivial, .inl rfl⟩, by decide⟩

/-- A step of another process leaves a process woken. -/
theorem Woken.other_step {pc : LoopPc} (h : Woken p cv timeout pc rest s) (hl : l.actor ≠ some p)
    (hstep : step s l = some s') :
    Woken p cv timeout pc rest s' := by
  obtain ⟨hstack, htarget, hmem⟩ := step_of_not_actor h.inv hl hstep
  refine ⟨h.inv.step hstep, hstack.trans h.stack, h.inSleep, ?_⟩
  rw [htarget]
  exact h.leaves.imp_right (Or.imp_left fun hnot hm => hnot (hmem cv hm))

/-- The process has left the sleep on `cv`, or will when it comes to examine the wait list. -/
def LeftOrWoken (p : P) (cv : C) (s : State C P) : Prop :=
  Left p cv s ∨ ∃ timeout pc rest, Woken p cv timeout pc rest s

omit [DecidableEq C] [DecidableEq P] in
/-- Someone is in a broadcast that will take a process out of the list. -/
theorem Queued.exists_willWake (h : Queued p cv s) : ∃ r, WillWake s r p cv := by
  obtain ⟨timeout, pc, rest, hs, hsleep, hpc⟩ := h.stack
  refine (h.inv.proc p).covered cv timeout pc rest (by rw [hs]; rfl) ?_ h.target h.pred h.mem
  cases pc with
  | interrupts done =>
    cases done
    · trivial
    · exact absurd rfl hpc
  | wait => trivial
  | reset => trivial
  | check => trivial
  | _ => exact hsleep.elim

theorem Queued.step (h : Queued p cv s) (hw : WillWake s r p cv)
    (hstep : ConditionVariable.step s l = some s') :
    LeftOrWoken p cv s' ∨ (Queued p cv s' ∧ WillWake s' r p cv) := by
  by_cases hleft : Left p cv s'
  · exact .inl (.inl hleft)
  · obtain ⟨hin, hpred⟩ : InSleep s' p cv ∧ s'.pred cv = true := by simpa [Left] using hleft
    rcases queued_or_woken (h.inv.step hstep) hin hpred with hq | hwoken
    · rcases willWake_step h.inv h.mem hw hstep with ⟨-, hw'⟩ | ⟨hnot, -⟩
      · exact .inr ⟨hq, hw'⟩
      · exact absurd hq.mem hnot
    · exact .inl (.inr hwoken)

/-- Where a process is in a broadcast, and how many steps it takes at most once it has inspected the
queue. -/
def broadcastRank (r : P) (cv : C) (s : State C P) : ℕ :=
  match s.stack r with
  | .broadcast _ pc :: _ => pc.rank r (s.wakeup cv)
  | _ => 0

omit [DecidableEq C] in
theorem broadcastRank_eq {pc : BroadcastPc P} (hs : s.stack r = .broadcast cv pc :: rest) :
    broadcastRank r cv s = pc.rank r (s.wakeup cv) := by
  rw [broadcastRank, hs]

omit [DecidableEq C] [DecidableEq P] in
theorem runnable_of_broadcast {pc : BroadcastPc P} (hs : s.stack r = .broadcast cv pc :: rest) :
    Runnable s r :=
  ⟨_, rest, hs, nofun⟩

section Fair

variable {beh : Behaviour (step (C := C) (P := P))} (hfair : WeaklyFair beh Label.actor Runnable)

include hfair

/-- A process that has been woken takes a step towards leaving its sleep, as soon as its latch is
set or it does not wait for it. -/
theorem woken_leadsTo_nearer {pc : LoopPc} :
    beh.LeadsTo (fun s => Woken p cv timeout pc rest s ∧ (pc = .wait → s.latch p = true))
    fun s => Left p cv s ∨ ∃ pc', Woken p cv timeout pc' rest s ∧ pc'.toLeave < pc.toLeave := by
  refine hfair.leadsTo p (fun _ => 0) ?_ ?_
  · rintro s ⟨hw, hlatch⟩
    refine ⟨_, rest, hw.stack, fun cv' timeout' heq => hlatch ?_⟩
    cases heq
    rfl
  · rintro s l s' ⟨hw, hlatch⟩ hstep
    by_cases hl : l.actor = some p
    · exact .inl (hw.own_step hl hstep)
    · refine .inr ⟨⟨hw.other_step hl hstep, fun hpc => ?_⟩, Nat.le_refl 0,
        fun hact => absurd hact hl⟩
      -- Only the process itself resets its latch while it sleeps.
      have hset := hlatch hpc
      cases ha : l.actor with
      | none =>
        cases l with
        | setLatch q =>
          cases hstep
          exact setLatch_mono hset q
        | resetLatch q =>
          rw [step] at hstep
          split_ifs at hstep with hst
          cases hstep
          have hpq : p ≠ q := by
            rintro rfl
            cases hw.stack.symm.trans hst
          show update s.latch q false p = true
          rwa [update_of_ne hpq]
        | falsify cv' =>
          cases hstep
          exact hset
        | _ => cases ha
      | some a => exact (step_by hw.inv ha hstep).1.latch p (fun hpa => hl (by rw [ha, hpa])) hset

/-- A latch that is to be set is set, unless the process goes on before. -/
theorem pending_leadsTo_set : beh.LeadsTo (fun s => Woken p cv timeout .wait rest s ∧ Pending s r p)
    fun s => (Left p cv s ∨ ∃ pc', Woken p cv timeout pc' rest s ∧
      pc'.toLeave < LoopPc.wait.toLeave) ∨
      (Woken p cv timeout .wait rest s ∧ (LoopPc.wait = .wait → s.latch p = true)) := by
  refine hfair.leadsTo r (fun _ => 0) ?_ ?_
  · rintro s ⟨-, ⟨cv', rest', heq⟩ | ⟨cv', h', rest', heq⟩ | ⟨cv', h', rest', heq, -⟩⟩
    all_goals exact ⟨_, _, heq, nofun⟩
  · rintro s l s' ⟨hw, hpend⟩ hstep
    by_cases hlp : l.actor = some p
    · exact .inl (.inl (hw.own_step hlp hstep))
    · have hw' := hw.other_step hlp hstep
      by_cases hlr : l.actor = some r
      · exact .inl (.inr ⟨hw', fun _ => (step_by hw.inv hlr hstep).1.pending p hpend⟩)
      · exact .inr ⟨⟨hw', hpend.congr (step_of_not_actor hw.inv hlr hstep).1⟩, Nat.le_refl 0,
          fun hact => absurd hact hlr⟩

/-- A process that has been woken leaves its sleep. -/
theorem woken_leadsTo_left {pc : LoopPc} : beh.LeadsTo (Woken p cv timeout pc rest)
    (Left p cv) := by
  -- Induction on the distance. Where the process waits for its latch, somebody is about to set it.
  induction hk : pc.toLeave using Nat.strong_induction_on generalizing pc with
  | _ k ih =>
    subst hk
    have hnear : beh.LeadsTo (fun s =>
      ∃ pc', Woken p cv timeout pc' rest s ∧ pc'.toLeave < pc.toLeave) (Left p cv) := by
      rintro n ⟨pc', hw, hlt⟩
      exact ih _ hlt rfl n hw
    intro n h
    by_cases hwait : pc = .wait ∧ (beh.state n).latch p = false
    case neg =>
      exact (woken_leadsTo_nearer hfair).or_trans hnear n ⟨h, fun hpc => by simpa [hpc] using hwait⟩
    obtain ⟨rfl, hlatch⟩ := hwait
    have ht := (h.inv.proc p).asleep cv timeout .wait rest h.stack trivial
    have hnot : p ∉ (beh.state n).wakeup cv :=
      (h.leaves.resolve_left (by simp)).resolve_right (fun hne => hne ht)
    obtain ⟨r, hr⟩ : ∃ r, Pending (beh.state n) r p := by
      rcases (h.inv.proc p).awake cv ht with hm | hl | hpend | ⟨cv', timeout', rest', hchk⟩
      · exact absurd hm hnot
      · cases hlatch.symm.trans hl
      · exact hpend
      · cases h.stack.symm.trans hchk
    exact ((pending_leadsTo_set hfair).or_trans (woken_leadsTo_nearer hfair)).or_trans hnear n
      ⟨h, hr⟩

omit hfair in
/-- The process is still to be taken out by a broadcast, which is at a point with a property. -/
def ToBeWoken (p : P) (cv : C) (r : P) (N : BroadcastPc P → Prop) (s : State C P) : Prop :=
  Queued p cv s ∧ WillWake s r p cv ∧ ∃ pc rest, s.stack r = .broadcast cv pc :: rest ∧ N pc

/-- A broadcast that is before some step comes behind it. -/
theorem broadcast_leadsTo_next {pc₀ : BroadcastPc P} {N : BroadcastPc P → Prop}
    (hnext : ∀ s s' rest, Inv s → s.stack r = .broadcast cv pc₀ :: rest →
      step s (.run r) = some s' → ∃ pc rest', s'.stack r = .broadcast cv pc :: rest' ∧ N pc) :
    beh.LeadsTo (ToBeWoken p cv r (· = pc₀)) fun s =>
      LeftOrWoken p cv s ∨ ToBeWoken p cv r N s := by
  refine hfair.leadsTo r (fun _ => 0) ?_ ?_
  · rintro s ⟨-, -, pc, rest, hs, -⟩
    exact runnable_of_broadcast hs
  · rintro s l s' ⟨hq, hw, pc, rest, hs, rfl⟩ hstep
    rcases hq.step hw hstep with hdone | ⟨hq', hw'⟩
    · exact .inl (.inl hdone)
    · by_cases hl : l.actor = some r
      · obtain ⟨rfl, -⟩ := broadcast_run hs hl hstep
        exact .inl (.inr ⟨hq', hw', hnext s s' rest hq.inv hs hstep⟩)
      · obtain ⟨hst, -⟩ := rank_le_of_other_step cv hq.inv hl hstep pc
        exact .inr ⟨⟨hq', hw', pc, rest, hst.trans hs, rfl⟩, Nat.le_refl 0,
          fun hact => absurd hact hl⟩

/-- A broadcast that has inspected the queue takes the process out. -/
theorem inspected_leadsTo : beh.LeadsTo (ToBeWoken p cv r BroadcastPc.Inspected)
    (LeftOrWoken p cv) := by
  refine hfair.leadsTo r (broadcastRank r cv) ?_ ?_
  · rintro s ⟨-, -, pc, rest, hs, -⟩
    exact runnable_of_broadcast hs
  · rintro s l s' ⟨hq, hw, pc, rest, hs, hpc⟩ hstep
    rcases hq.step hw hstep with hdone | ⟨hq', hw'⟩
    · exact .inl hdone
    · right
      by_cases hl : l.actor = some r
      · -- The broadcast is not at its end, since the process is still before its sentinel.
        have hfin : pc ≠ .finished := fun hfin => hw.not_finished (hfin ▸ hs)
        obtain ⟨rfl, -⟩ := broadcast_run hs hl hstep
        obtain ⟨pc', hs', hpc', hlt⟩ := rank_lt_of_own_step hq.inv hs hpc hfin hstep
        rw [broadcastRank_eq hs, broadcastRank_eq hs']
        exact ⟨⟨hq', hw', pc', rest, hs', hpc'⟩, hlt.le, fun _ => hlt⟩
      · obtain ⟨hst, hle⟩ := rank_le_of_other_step cv hq.inv hl hstep pc
        have hs' := hst.trans hs
        rw [broadcastRank_eq hs, broadcastRank_eq hs']
        exact ⟨⟨hq', hw', pc, rest, hs', hpc⟩, hle, fun hact => absurd hact hl⟩

/-- A process in the wait list of a condition variable whose predicate is true is taken out. -/
theorem queued_leadsTo : beh.LeadsTo (Queued p cv) (LeftOrWoken p cv) := by
  intro n h
  obtain ⟨r, hw⟩ := h.exists_willWake
  have hinspect : beh.LeadsTo (ToBeWoken p cv r (· = .inspect)) (LeftOrWoken p cv) := by
    refine (broadcast_leadsTo_next hfair fun s s' rest hinv hs hstep => ?_).or_trans
      (inspected_leadsTo hfair)
    obtain ⟨pc, hs', hpc, -⟩ := rank_of_inspect hinv hs hstep
    exact ⟨pc, rest, hs', hpc⟩
  have hcancel : beh.LeadsTo (ToBeWoken p cv r (· = .cancel)) (LeftOrWoken p cv) := by
    refine (broadcast_leadsTo_next hfair fun s s' rest _ hs hstep => ?_).or_trans hinspect
    rw [step, run, hs] at hstep
    cases hstep
    exact ⟨_, rest, update_self _ _ _, rfl⟩
  obtain ⟨pc, rest, hs, -⟩ := id hw
  by_cases hpc : pc = .cancel
  · exact hcancel n ⟨h, hw, pc, rest, hs, hpc⟩
  · by_cases hins : pc = .inspect
    · exact hinspect n ⟨h, hw, pc, rest, hs, hins⟩
    · exact inspected_leadsTo hfair n ⟨h, hw, pc, rest, hs, hpc, hins⟩

/-- A process does not stay in a sleep while the predicate remains true. -/
theorem leaves_sleep (hinv : Inv (beh.state 0)) : beh.LeadsTo (InSleep · p cv) (Left p cv) := by
  have hwoken : beh.LeadsTo (fun s => ∃ timeout pc rest, Woken p cv timeout pc rest s)
      (Left p cv) := by
    rintro n ⟨timeout, pc, rest, h⟩
    exact woken_leadsTo_left hfair n h
  intro n hsleep
  have hinv : Inv (beh.state n) := beh.invariant Inv hinv (fun s l s' h hstep => h.step hstep) n
  cases hpred : (beh.state n).pred cv with
  | false => exact ⟨n, le_rfl, .inr hpred⟩
  | true =>
    rcases queued_or_woken hinv hsleep hpred with hq | hw
    · exact (queued_leadsTo hfair).or_trans hwoken n hq
    · exact hwoken n hw

end Fair

/-! ## The results -/

/-- Condition variables lose no wakeup. In every state that is reached: when a broadcast that begins
there returns, who was in the wait list has been taken out of it, by itself or by somebody who has
set its latch since or is about to; a broadcast takes no more of its own steps than the queue is
long, twice, and one, after it has inspected it; no process is stuck on an assertion; and a process
that cancels its sleep is told whether it has consumed a signal, which is not passed on. And a
process does not stay in a sleep forever while the predicate remains true, if every process that can
run does so again and again. -/
theorem condition_variable_wakeups (latch : P → Bool) (pred : C → Bool) :
    (∀ ls s, Run step (fun _ _ => True) (init latch pred) ls s →
      (∀ b cv rest ls' t rest', s.stack b = .broadcast cv .cancel :: rest →
        Run step (Within b cv) s ls' t →
        t.stack b = .broadcast cv .finished :: rest' → ∀ q ∈ s.wakeup cv, TakenOut cv q s ls' t) ∧
      (∀ b cv rest s' ls' t, s.stack b = .broadcast cv .inspect :: rest →
        step s (.run b) = some s' → Run step (Within b cv) s' ls' t →
        ls'.countP (fun l => decide (l.actor = some b)) ≤ 2 * (s.wakeup cv).length + 1) ∧
      (∀ p, Runnable s p → ∃ l s', l.actor = some p ∧ step s l = some s') ∧
      ∀ p cv, Cancelling s p → s.target p = some cv →
        ((conditionVariableCancelSleep p s).2 = true ↔ p ∉ s.wakeup cv) ∧
        (conditionVariableCancelSleep p s).1.wakeup cv = (s.wakeup cv).erase p ∧
        (∀ cv', cv' ≠ cv → (conditionVariableCancelSleep p s).1.wakeup cv' = s.wakeup cv') ∧
        (conditionVariableCancelSleep p s).1.latch = s.latch ∧
        (conditionVariableCancelSleep p s).1.stack = s.stack) ∧
    ∀ beh : Behaviour (step (C := C) (P := P)), beh.state 0 = init latch pred →
      WeaklyFair beh Label.actor Runnable →
      ∀ p cv n, InSleep (beh.state n) p cv →
        ∃ m, n ≤ m ∧ (¬ InSleep (beh.state m) p cv ∨ (beh.state m).pred cv = false) := by
  refine ⟨fun ls s hrun => ?_, fun beh hstart hfair p cv n hsleep => ?_⟩
  · have hinv : Inv s :=
      hrun.invariant Inv (inv_init latch pred) fun a l b ha _ hstep => ha.step hstep
    exact ⟨fun b cv rest ls' t rest' hcall hrun' hret q hq =>
      broadcast_takes_out hinv hcall hrun' hret hq,
      fun b cv rest s' ls' t hs hstep hrun' => broadcast_steps_le hinv hs hstep hrun',
        fun p hp => runnable_enabled hinv hp,
      fun p cv hcancel ht => cancelSleep_reports hinv hcancel ht⟩
  · exact leaves_sleep hfair (hstart ▸ inv_init latch pred) n hsleep

/-! ## What does not hold -/

/-- Four processes and one condition variable; all latches are reset, and the predicate is false. -/
def fourProcesses : State Unit (Fin 4) := init (fun _ => false) fun _ => false

/-- A process begins to wait and comes to sleep. -/
def fallAsleep (p : Fin 4) : List (Label Unit (Fin 4)) :=
  [.start p (.wait () (-1) true), .run p, .run p, .run p, .run p]

/-- Processes 1 and 2 sleep; process 1 is signaled by process 3, and then aborted. -/
def signaledThenAborted : List (Label Unit (Fin 4)) :=
  fallAsleep 1 ++ fallAsleep 2 ++
    [.setLatch 1, .run 1, .run 1, .run 1, .start 3 (.signal ()), .run 3, .run 3, .abort 1]

/-- The broadcast of process 0 has not returned. -/
def withinBroadcast (s : State Unit (Fin 4)) (l : Label Unit (Fin 4)) : Bool :=
  match s.stack 0 with
  | .broadcast _ .finished :: _ => decide (l.actor ≠ some 0)
  | _ => true

theorem run_of_exec {u : State Unit (Fin 4)} {ls : List (Label Unit (Fin 4))}
    (h : execOk step (fun _ _ => true) fourProcesses ls = some u) :
    Run step (fun _ _ => True) fourProcesses ls u := by
  have hrun :=
    run_of_execOk h (.nil : Run step (fun _ _ => true = true) fourProcesses [] fourProcesses)
  exact hrun.mono fun _ _ _ => trivial

theorem within_run_of_exec {s u : State Unit (Fin 4)} {ls : List (Label Unit (Fin 4))}
    (h : execOk step withinBroadcast s ls = some u) :
    Run step (Within 0 ()) s ls u := by
  have hrun := run_of_execOk h (.nil : Run step (fun a l => withinBroadcast a l = true) s [] s)
  refine hrun.mono fun s l h hl rest hs => ?_
  rw [withinBroadcast, hs] at h
  exact of_decide_eq_true h hl

/-- A broadcast can return before the latch of a process that was in the list at its call is set:
process 2 has taken process 1 out and not set its latch yet. And a signal that a process consumes
when it cancels its sleep is lost: process 1 was signaled and then aborted, and process 2 sleeps on
while nobody does anything. -/
theorem condition_variable_late_latch :
    (∃ ls s ls' t rest rest', Run step (fun _ _ => True) fourProcesses ls s ∧
      s.stack 0 = .broadcast () .cancel :: rest ∧ Run step (Within 0 ()) s ls' t ∧
      t.stack 0 = .broadcast () .finished :: rest' ∧ 1 ∈ s.wakeup () ∧ t.latch 1 = false ∧
      ∀ l ∈ ls', l.actor ≠ some 1) ∧
    ∃ ls s s', Run step (fun _ _ => True) fourProcesses ls s ∧ Cancelling s 1 ∧
      (conditionVariableCancelSleep 1 s).2 = true ∧ step s (.run 1) = some s' ∧
      s'.wakeup () = [2] ∧ InSleep s' 2 () ∧ s'.latch 2 = false ∧ ∀ p, p ≠ 2 → s'.stack p = [] := by
  constructor
  · have hs : execOk step (fun _ _ => true) fourProcesses
        (fallAsleep 1 ++ [.start 0 (.broadcast ())]) = some _ := rfl
    refine ⟨_, _, [.start 2 (.signal ()), .run 2, .run 0, .run 0, .run 0], _, [], [],
      run_of_exec hs, rfl, within_run_of_exec rfl, rfl, ?_, rfl, by decide⟩
    decide
  · have hs : execOk step (fun _ _ => true) fourProcesses signaledThenAborted = some _ := rfl
    refine ⟨_, _, _, run_of_exec hs, trivial, rfl, rfl, rfl, ⟨-1, .wait, [], rfl, trivial⟩, rfl, ?_⟩
    decide

/-- Process 1 sleeps until process 0 makes the predicate true. -/
def wakeLabels : List (Label Unit (Fin 4)) :=
  fallAsleep 1 ++ [.start 0 (.makeTrue ()), .run 0, .run 0, .run 0, .run 0, .run 1, .run 1, .run 1,
    .proceed 1 0, .run 1, .run 1]

/-- After that only the latch of process 0 is set, again and again. -/
def wakeLabel (n : ℕ) : Label Unit (Fin 4) := wakeLabels.getD n (.setLatch 0)

/-- The states of this behaviour. -/
def wakeState : ℕ → State Unit (Fin 4)
  | 0 => fourProcesses
  | n + 1 => (step (wakeState n) (wakeLabel n)).getD (wakeState n)

theorem wakeLabel_of_le {n : ℕ} (hn : 16 ≤ n) : wakeLabel n = .setLatch 0 := by
  rw [wakeLabel, List.getD_eq_getElem?_getD, List.getElem?_eq_none hn]
  rfl

/-- The behaviour: each of its steps can be taken. -/
def wakeBehaviour : Behaviour (step (C := Unit) (P := Fin 4)) where
  state := wakeState
  label := wakeLabel
  step_eq n := by
    have hsome : (step (wakeState n) (wakeLabel n)).isSome := by
      rcases lt_or_ge n 16 with hn | hn
      · revert n
        decide +kernel
      · rw [wakeLabel_of_le hn]
        rfl
    obtain ⟨s', hs'⟩ := Option.isSome_iff_exists.mp hsome
    rw [hs', wakeState, hs']
    rfl

/-- In the end no process does anything. -/
theorem wakeState_stack (k : ℕ) (p : Fin 4) : (wakeState (16 + k)).stack p = [] := by
  induction k with
  | zero =>
    revert p
    decide +kernel
  | succ k ih =>
    rw [← add_assoc, wakeState, wakeLabel_of_le (Nat.le_add_right 16 k)]
    exact ih

theorem wakeBehaviour_fair : WeaklyFair wakeBehaviour Label.actor Runnable := by
  rintro p n
  refine ⟨16 + n, Nat.le_add_left n 16, .inl ?_⟩
  rintro ⟨f, rest, hs, -⟩
  cases (wakeState_stack n p).symm.trans hs

/-- A broadcast takes the two processes out that wait at its call; a process that cancels its sleep
after a signal is told so, and the other waiter remains; and a process that sleeps in a fair
behaviour leaves its sleep. -/
theorem condition_variable_wakeups_two :
    (∃ (s : State Unit (Fin 4)) (ls' : List (Label Unit (Fin 4))) (t : State Unit (Fin 4)),
      2 ∈ s.wakeup () ∧ TakenOut () 2 s ls' t ∧ t.latch 2 = true) ∧
    (∃ s : State Unit (Fin 4), 1 ∉ s.wakeup () ∧ (conditionVariableCancelSleep 1 s).2 = true ∧
      (conditionVariableCancelSleep 1 s).1.wakeup () = [2]) ∧
    InSleep (wakeBehaviour.state 5) 1 () ∧
      ∃ m, 5 ≤ m ∧
        (¬ InSleep (wakeBehaviour.state m) 1 () ∨ (wakeBehaviour.state m).pred () = false) := by
  have hwakeups :=
    condition_variable_wakeups (C := Unit) (P := Fin 4) (fun _ => false) fun _ => false
  refine ⟨?_, ?_, ?_⟩
  · have hs : execOk step (fun _ _ => true) fourProcesses
        (fallAsleep 1 ++ fallAsleep 2 ++ [.start 0 (.makeTrue ())]) = some _ := rfl
    have htaken := (hwakeups.1 _ _ (run_of_exec hs)).1 0 () []
      [.run 0, .run 0, .run 0, .run 1, .run 1, .run 1, .run 0, .run 0, .run 0, .run 0] _ [] rfl
      (within_run_of_exec rfl) rfl 2
    exact ⟨_, _, _, by decide, htaken (by decide), rfl⟩
  · have hs : execOk step (fun _ _ => true) fourProcesses signaledThenAborted = some _ := rfl
    obtain ⟨htold, herase, -⟩ := (hwakeups.1 _ _ (run_of_exec hs)).2.2.2 1 () trivial rfl
    exact ⟨_, by decide, htold.mpr (by decide), herase⟩
  · have hsleep : InSleep (wakeBehaviour.state 5) 1 () := ⟨-1, .wait, [], rfl, trivial⟩
    exact ⟨hsleep, hwakeups.2 wakeBehaviour rfl wakeBehaviour_fair 1 () 5 hsleep⟩

end PgAutoIndex.Lmgr.ConditionVariable
