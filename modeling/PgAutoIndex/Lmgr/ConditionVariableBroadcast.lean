import PgAutoIndex.Lmgr.ConditionVariableSteps
import PgAutoIndex.Runs

/-!
# ConditionVariableBroadcast

`broadcast_takes_out`: when a `ConditionVariableBroadcast` returns, whoever was in the wait list at
the call has been taken out since. It may have done so itself; otherwise its latch has been set
since or is the next thing that somebody sets. It need not be the broadcaster who takes it out, and
so the latch need not be set when the broadcast returns.

`broadcast_steps_le`: a broadcast takes a number of steps that depends on the length of the queue
when it inspects it, whatever the others do. The rank is the number of entries up to the sentinel,
which no step of another process increases.

`ConditionVariableCancelSleep` reports a signal that the process has consumed, and does not pass it
on (`cancelSleep_reports`).
-/

namespace PgAutoIndex.Lmgr.ConditionVariable

open Runs Function List

variable {C P : Type} [DecidableEq C] [DecidableEq P] {s s' t : State C P} {a b p q r : P} {cv : C}
  {timeout : ℤ} {rest : List (Frame C P)}
  {l : Label C P} {ls : List (Label C P)}

/-! ## Steps -/

/-- Steps that no process takes leave the lists and what the processes do alone. -/
theorem env_step (hl : l.actor = none) (hstep : step s l = some s') :
    s'.wakeup = s.wakeup ∧ s'.stack = s.stack ∧ s'.target = s.target := by
  cases l with
  | setLatch q =>
    cases hstep
    exact ⟨rfl, rfl, rfl⟩
  | resetLatch q =>
    rw [step] at hstep
    split_ifs at hstep
    cases hstep
    exact ⟨rfl, rfl, rfl⟩
  | falsify cv =>
    cases hstep
    exact ⟨rfl, rfl, rfl⟩
  | _ => cases hl

/-- A step that a process does not take leaves alone what it does, and adds it to no list. -/
theorem step_of_not_actor (h : Inv s) (hl : l.actor ≠ some p) (hstep : step s l = some s') :
    s'.stack p = s.stack p ∧ s'.target p = s.target p ∧ ∀ cv, p ∈ s'.wakeup cv →
    p ∈ s.wakeup cv := by
  cases ha : l.actor with
  | none =>
    obtain ⟨hw, hstack, htarget⟩ := env_step ha hstep
    exact ⟨congrFun hstack p, congrFun htarget p, fun cv hm => hw ▸ hm⟩
  | some a =>
    have hpa : p ≠ a := fun hpa => hl (by rw [ha, hpa])
    have hby := (step_by h ha hstep).1
    exact ⟨hby.stack p hpa, hby.target p hpa, fun cv =>
      (hby.queue.listStep h.queues cv).mem_of_mem hpa⟩

/-- The step of a process that is about to set a latch. -/
theorem pending_run (hp : Pending s r q) (hl : l.actor = some r) (hstep : step s l = some s') :
    l = .run r := by
  have hwake := hp.toWake_eq
  cases step_effect hl hstep with
  | move hs | abort _ hs =>
    rw [hs] at hwake
    cases hwake
  | start op hi =>
    -- what can be interrupted wakes nobody
    generalize s.stack r = frames at hi hwake
    match frames, hi with
    | [], _ | .loop _ _ (.interrupts _) :: _, _ => cases hwake
  | _ => rfl

variable {pc : BroadcastPc P} {x : P}

/-- The step of a process in `ConditionVariableBroadcast`: it goes on until it is finished. -/
theorem broadcast_run (hs : s.stack a = .broadcast cv pc :: rest) (hl : l.actor = some a)
    (hstep : step s l = some s') :
    l = .run a ∧ (pc ≠ .finished → ∃ pc', s'.stack a = .broadcast cv pc' :: rest) := by
  cases step_effect hl hstep with
  | start op hi =>
    rw [hs] at hi
    cases hi
  | cancel hs' hmove =>
    cases hs.symm.trans hs'
    cases hmove
    exact ⟨rfl, fun _ => ⟨_, update_self _ _ _⟩⟩
  | finish hs' =>
    cases hs.symm.trans hs'
    exact ⟨rfl, fun hne => absurd rfl hne⟩
  | inspectNone hs' | inspectOne _ hs' | inspectMore _ _ hs' | latch _ hs' | popNone hs'
  | pop _ _ hs' =>
    cases hs.symm.trans hs'
    exact ⟨rfl, fun _ => ⟨_, update_self _ _ _⟩⟩
  | move hs' | reset hs' | push hs' | pushAgain hs' | signalNone hs' | signalPop _ _ hs'
  | signalWake _ hs' | abort _ hs' => cases hs.symm.trans hs'

/-! ## Who was in the list when a broadcast began -/

/-- The broadcast of `b` on `cv` has not returned before the step. -/
def Within (b : P) (cv : C) (s : State C P) (l : Label C P) : Prop :=
  l.actor = some b → ∀ rest, s.stack b ≠ .broadcast cv .finished :: rest

/-- Somebody sets the latch of `q`. -/
def LatchSet (q : P) (s : State C P) (ls : List (Label C P)) (t : State C P) : Prop :=
  During step s ls t fun s₁ l s₂ _ => ∃ r, Pending s₁ r q ∧ l = .run r ∧ s₂.latch q = true

/-- `q` is taken out of the list of `cv`: by itself, or by somebody who is about to set its latch,
or since when somebody has set its latch. -/
def TakenOut (cv : C) (q : P) (s : State C P) (ls : List (Label C P)) (t : State C P) : Prop :=
  During step s ls t fun s₁ l s₂ ls₂ =>
    q ∈ s₁.wakeup cv ∧ q ∉ s₂.wakeup cv ∧
      (l.actor = some q ∨ (∃ r, Pending t r q) ∨ LatchSet q s₂ ls₂ t)

/-- Who has been taken out has been taken out, and a latch that was to be set may have been set. -/
theorem TakenOut.concat {u : State C P} (h : TakenOut cv q s ls t) (hinv : Inv t)
    (hstep : step t l = some u) : TakenOut cv q s (ls ++ [l]) u := by
  refine During.concat h hstep fun s₁ l₁ s₂ ls₂ hrun hE => ?_
  obtain ⟨hin, hout, hwoken⟩ := hE
  refine ⟨hin, hout, ?_⟩
  rcases hwoken with hself | ⟨r, hr⟩ | hset
  · exact .inl hself
  · right
    by_cases hlr : l.actor = some r
    · exact .inr
        (During.last hrun hstep ⟨r, hr, pending_run hr hlr hstep,
          (step_by hinv hlr hstep).1.pending q hr⟩)
    · exact .inl ⟨r, hr.congr (step_of_not_actor hinv hlr hstep).1⟩
  · exact .inr (.inr (During.concat hset hstep fun _ _ _ _ _ hE => hE))

omit [DecidableEq P] in
theorem not_before_self {l : List P} (hnodup : l.Nodup) : ¬ Before p p l := by
  rintro ⟨l₁, l₂, rfl, hp⟩
  rw [nodup_append] at hnodup
  exact hnodup.2.2 p hp p mem_cons_self rfl

/-- The broadcaster's own entry is gone after its next step. -/
theorem not_mem_of_own_step (h : Inv s) (hw : WillWake s b b cv) (hmem : b ∈ s.wakeup cv)
    (hl : l.actor = some b) (hstep : step s l = some s') :
    b ∉ s'.wakeup cv := by
  obtain ⟨pc, rest, hs, hpc⟩ := hw
  obtain ⟨rfl, -⟩ := broadcast_run hs hl hstep
  by_cases hcancel : pc = .cancel
  · subst hcancel
    obtain ⟨-, -, -, -, hlinked, -⟩ :=
      cancelSleep_spec (h.proc b) h.queues (CancelMove.broadcast.not_sentinel hs)
    have hinv' := h.step hstep
    rw [step, run, hs] at hstep
    cases hstep
    exact hinv'.queues.not_mem hlinked cv
  · obtain ⟨-, hhave⟩ := h.sentinel_of_mem hs hcancel hmem
    rcases hpc with hpc | hpc | ⟨-, hbefore⟩
    · exact absurd hpc hcancel
    · rw [hpc] at hhave
      exact hhave.elim
    · exact absurd hbefore (not_before_self (h.queues.nodup cv))

/-- Who will be woken by `b` is, after a step, still to be woken by it or has been taken out. -/
theorem willWake_step (h : Inv s) (hmem : q ∈ s.wakeup cv) (hw : WillWake s b q cv)
    (hstep : step s l = some s') :
    (q ∈ s'.wakeup cv ∧ WillWake s' b q cv) ∨
    (q ∉ s'.wakeup cv ∧ ∃ a, l.actor = some a ∧ (a = q ∨ Pending s' a q)) := by
  cases ha : l.actor with
  | none =>
    obtain ⟨hwake, hstack, -⟩ := env_step ha hstep
    refine .inl ⟨hwake ▸ hmem, ?_⟩
    unfold WillWake
    rw [hwake, hstack]
    exact hw
  | some a =>
    have hby := (step_by h ha hstep).1
    by_cases hmem' : q ∈ s'.wakeup cv
    · refine .inl ⟨hmem', ?_⟩
      by_cases hba : b = a
      · subst hba
        by_cases hqb : q = b
        · subst hqb
          exact absurd hmem' (not_mem_of_own_step h hw hmem ha hstep)
        · exact hby.willWake q cv hqb hw hmem'
      · exact hby.willWake_of_ne h.queues hba hw hmem'
    · refine .inr ⟨hmem', a, rfl, ?_⟩
      by_cases hqa : q = a
      · exact .inl hqa.symm
      · exact .inr ((hby.queue.listStep h.queues cv).woken_of_not_mem hqa hmem hmem')

/-- While a broadcast goes on, who was in the list at its call has been taken out or will be. -/
theorem broadcast_run_spec (h : Inv s) (hcall : s.stack b = .broadcast cv .cancel :: rest)
    (hrun : Run step (Within b cv) s ls t) :
    Inv t ∧ (∃ pc, t.stack b = .broadcast cv pc :: rest) ∧
      ∀ q ∈ s.wakeup cv, TakenOut cv q s ls t ∨ (q ∈ t.wakeup cv ∧ WillWake t b q cv) := by
  induction hrun with
  | nil => exact ⟨h, ⟨_, hcall⟩, fun q hq => .inr ⟨hq, .cancel, rest, hcall, .inl rfl⟩⟩
  | @concat ls t u l hrun hok hstep ih =>
    obtain ⟨hinv, ⟨pc, hpc⟩, hq⟩ := ih
    refine ⟨hinv.step hstep, ?_, fun q hmem => ?_⟩
    · by_cases ha : l.actor = some b
      · exact (broadcast_run hpc ha hstep).2 fun hfin => hok ha rest (hfin ▸ hpc)
      · exact ⟨pc, (step_of_not_actor hinv ha hstep).1.trans hpc⟩
    · rcases hq q hmem with hout | ⟨hin, hw⟩
      · exact .inl (hout.concat hinv hstep)
      · rcases willWake_step hinv hin hw hstep with hstill | ⟨hnot, a, ha, hwho⟩
        · exact .inr hstill
        · refine .inl (During.last (hrun.mono fun _ _ _ => trivial) hstep ⟨hin, hnot, ?_⟩)
          rcases hwho with rfl | hpend
          · exact .inl ha
          · exact .inr (.inl ⟨a, hpend⟩)

omit [DecidableEq C] [DecidableEq P] in
/-- A broadcast that has returned wakes nobody. -/
theorem WillWake.not_finished (h : WillWake s r p cv) :
    s.stack r ≠ .broadcast cv .finished :: rest := by
  obtain ⟨pc, rest', hs, hpc⟩ := h
  intro hfin
  cases hs.symm.trans hfin
  rcases hpc with heq | heq | ⟨hhave, -⟩
  · cases heq
  · cases heq
  · exact hhave

/-- When a broadcast returns, who was in the list at its call has been taken out since. -/
theorem broadcast_takes_out (h : Inv s) (hcall : s.stack b = .broadcast cv .cancel :: rest)
    (hrun : Run step (Within b cv) s ls t) {rest' : List (Frame C P)}
    (hreturn : t.stack b = .broadcast cv .finished :: rest') (hq : q ∈ s.wakeup cv) :
      TakenOut cv q s ls t := by
  obtain ⟨-, -, hall⟩ := broadcast_run_spec h hcall hrun
  exact (hall q hq).resolve_right fun hstill => hstill.2.not_finished hreturn

/-! ## A broadcast ends -/

/-- How many entries a broadcast takes out at most, with its sentinel in the list or not. -/
def ahead (b : P) (l : List P) : ℕ := if b ∈ l then l.idxOf b + 1 else 1

theorem ahead_append {l₁ l₂ : List P} (h : b ∉ l₁) : ahead b (l₁ ++ b :: l₂) = l₁.length + 1 := by
  rw [ahead, if_pos (mem_append_right _ mem_cons_self), idxOf_append_of_notMem h,
    idxOf_cons_self, add_zero]

theorem ahead_of_not_mem {l : List P} (h : b ∉ l) : ahead b l = 1 := if_neg h

theorem one_le_ahead (b : P) (l : List P) : 1 ≤ ahead b l := by
  unfold ahead
  split_ifs <;> omega

theorem ahead_concat {l : List P} (h : b ∈ l) (x : P) : ahead b (l ++ [x]) = ahead b l := by
  rw [ahead, ahead, if_pos h, if_pos (mem_append_left _ h), idxOf_append_of_mem h]

/-- Taking out the head, if that is not the entry. -/
theorem ahead_cons {l : List P} (h : b ∈ l) (hx : b ≠ x) : ahead b (x :: l) = ahead b l + 1 := by
  rw [ahead, ahead, if_pos h, if_pos (mem_cons_of_mem x h), idxOf_cons_ne _ hx.symm]

theorem ahead_erase_le {l : List P} (h : b ∈ l) (hx : b ≠ x) : ahead b (l.erase x) ≤ ahead b l := by
  obtain ⟨l₁, l₂, rfl, hnot⟩ := eq_append_cons_of_mem h
  by_cases hmem : x ∈ l₁
  · rw [erase_append_left _ hmem, ahead_append hnot, ahead_append fun h =>
      hnot (mem_of_mem_erase h), length_erase_of_mem hmem]
    omega
  · rw [erase_append_right _ hmem, erase_cons_tail (by simpa using hx), ahead_append hnot,
      ahead_append hnot]

/-- Others do not put anything before the sentinel. -/
theorem ListStep.ahead_le {woken : P → Prop} {l l' : List P} (h : ListStep a woken l l')
    (hnodup : l.Nodup) (hb : b ≠ a) : ahead b l' ≤ ahead b l := by
  by_cases hmem' : b ∈ l'
  case neg =>
    rw [ahead_of_not_mem hmem']
    exact one_le_ahead _ _
  have hmem := h.mem_of_mem hb hmem'
  -- what is taken out before the sentinel brings it nearer to the head
  have hpop : ∀ {x xs}, (x :: xs).Nodup → b ∈ xs → ahead b xs ≤ ahead b (x :: xs) := by
    intro x xs hnodup hxs
    have hbx : b ≠ x := fun hbx => (nodup_cons.mp hnodup).1 (hbx ▸ hxs)
    rw [ahead_cons hxs hbx]
    omega
  cases h with
  | same => exact le_rfl
  | push => rw [ahead_concat hmem]
  | pop x xs => exact hpop hnodup hmem'
  | popPush x xs =>
    have hxs : b ∈ xs := by simpa [hb] using hmem'
    rw [ahead_concat hxs]
    exact hpop hnodup hxs
  | delete => exact ahead_erase_le hmem hb

/-- How many steps a broadcast takes at most, once it has inspected the queue. -/
def BroadcastPc.rank (b : P) (queue : List P) : BroadcastPc P → ℕ
  | .first _ true | .next _ true => 2 * ahead b queue + 1
  | .first _ false | .next _ false => 1
  | .again => 2 * ahead b queue
  | .cancel | .inspect | .finished => 0

/-- The broadcast has inspected the queue. -/
def BroadcastPc.Inspected (pc : BroadcastPc P) : Prop := pc ≠ .cancel ∧ pc ≠ .inspect

theorem rank_le_of_ahead_le {l l' : List P} (h : ahead b l' ≤ ahead b l) :
    pc.rank b l' ≤ pc.rank b l := by
  cases pc with
  | first proc haveSentinel => cases haveSentinel <;> simp only [BroadcastPc.rank] <;> omega
  | next proc haveSentinel => cases haveSentinel <;> simp only [BroadcastPc.rank] <;> omega
  | again =>
    simp only [BroadcastPc.rank]
    omega
  | _ => exact le_rfl

/-- Taking out the head, if the sentinel is still there, leaves one entry less before it. -/
theorem rank_lt_of_pop {xs : List P} {haveSentinel : Bool} (hnodup : (x :: xs).Nodup)
    (h : haveSentinel = true → b ∈ xs) :
    (BroadcastPc.next (some x) haveSentinel).rank b xs < BroadcastPc.again.rank b (x :: xs) := by
  cases haveSentinel with
  | false =>
    have hone := one_le_ahead b (x :: xs)
    simp only [BroadcastPc.rank]
    omega
  | true =>
    have hmem := h rfl
    have hbx : b ≠ x := fun hbx => (nodup_cons.mp hnodup).1 (hbx ▸ hmem)
    simp only [BroadcastPc.rank]
    rw [ahead_cons hmem hbx]
    omega

/-- Each step of a broadcast that has inspected the queue decreases the rank. -/
theorem rank_lt_of_own_step (h : Inv s) (hs : s.stack b = .broadcast cv pc :: rest)
    (hpc : pc.Inspected) (hfin : pc ≠ .finished) (hstep : step s (.run b) = some s') :
    ∃ pc', s'.stack b = .broadcast cv pc' :: rest ∧ pc'.Inspected ∧
      pc'.rank b (s'.wakeup cv) < pc.rank b (s.wakeup cv) := by
  have hinv' := h.step hstep
  cases step_effect rfl hstep with
  | latch haveSentinel hs' hproc =>
    cases hs.symm.trans hs'
    refine ⟨_, update_self _ _ _, by cases haveSentinel <;> simp [BroadcastPc.Inspected], ?_⟩
    rw [goto_wakeup, (wake_same s _).1]
    obtain ⟨proc, rfl | rfl⟩ := hproc <;> cases haveSentinel <;> simp [BroadcastPc.rank]
  | popNone hs' hw =>
    cases hs.symm.trans hs'
    refine ⟨_, update_self _ _ _, by simp [BroadcastPc.Inspected], ?_⟩
    have hl : s.linked b = false := h.queues.linked_eq_false_iff.mpr fun cv' hm => by
      obtain ⟨rfl, -⟩ := h.sentinel_of_mem hs nofun hm
      rw [hw] at hm
      exact List.not_mem_nil hm
    have hone := one_le_ahead b (s.wakeup cv)
    rw [hl]
    simp only [BroadcastPc.rank]
    omega
  | pop x xs hs' hw =>
    cases hs.symm.trans hs'
    refine ⟨_, update_self _ _ _, by simp [BroadcastPc.Inspected], ?_⟩
    have hnodup := h.queues.nodup cv
    rw [goto_wakeup, popHead_wakeup_self, hw]
    refine rank_lt_of_pop (hw ▸ hnodup) fun hl => ?_
    obtain ⟨cv', hm⟩ := (hinv'.queues.linked_iff b).mp hl
    obtain ⟨rfl, -⟩ := hinv'.sentinel_of_mem (update_self _ _ _) nofun hm
    rwa [goto_wakeup, popHead_wakeup_self] at hm
  | cancel hs' hmove =>
    cases hs.symm.trans hs'
    cases hmove
    exact absurd rfl hpc.1
  | inspectNone hs' | inspectOne _ hs' | inspectMore _ _ hs' =>
    cases hs.symm.trans hs'
    exact absurd rfl hpc.2
  | finish hs' =>
    cases hs.symm.trans hs'
    exact absurd rfl hfin
  | move hs' | reset hs' | push hs' | pushAgain hs' | signalNone hs' | signalPop _ _ hs'
  | signalWake _ hs' => cases hs.symm.trans hs'

/-- The rank of a broadcast does not increase by a step of another process. -/
theorem rank_le_of_other_step (cv : C) (h : Inv s) (hl : l.actor ≠ some b)
    (hstep : step s l = some s') (pc : BroadcastPc P) :
    s'.stack b = s.stack b ∧ pc.rank b (s'.wakeup cv) ≤ pc.rank b (s.wakeup cv) := by
  cases ha : l.actor with
  | none =>
    obtain ⟨hw, hst, -⟩ := env_step ha hstep
    exact ⟨by rw [hst], by rw [hw]⟩
  | some a =>
    have hba : b ≠ a := fun hba => hl (by rw [ha, hba])
    have hby := (step_by h ha hstep).1
    exact ⟨hby.stack b hba,
      rank_le_of_ahead_le ((hby.queue.listStep h.queues cv).ahead_le (h.queues.nodup cv) hba)⟩

/-- The steps that a broadcast has taken since it inspected the queue, and those that it may still
take. -/
theorem broadcast_rank_run (h : Inv s) (hs : s.stack b = .broadcast cv pc :: rest)
    (hpc : pc.Inspected) (hrun : Run step (Within b cv) s ls t) :
    Inv t ∧ ∃ pc', t.stack b = .broadcast cv pc' :: rest ∧ pc'.Inspected ∧
      pc'.rank b (t.wakeup cv) + ls.countP (fun l => decide (l.actor = some b)) ≤
        pc.rank b (s.wakeup cv) := by
  induction hrun with
  | nil => exact ⟨h, pc, hs, hpc, le_rfl⟩
  | @concat ls t u l _ hok hstep ih =>
    obtain ⟨hinv, pc', hs', hpc', hle⟩ := ih
    refine ⟨hinv.step hstep, ?_⟩
    rw [countP_append, countP_singleton]
    by_cases ha : l.actor = some b
    · have hfin : pc' ≠ .finished := fun hfin => hok ha rest (hfin ▸ hs')
      obtain ⟨pc'', hs'', hpc'', hlt⟩ :=
        rank_lt_of_own_step hinv hs' hpc' hfin ((broadcast_run hs' ha hstep).1 ▸ hstep)
      refine ⟨pc'', hs'', hpc'', ?_⟩
      rw [if_pos (decide_eq_true ha)]
      omega
    · obtain ⟨hst, hle'⟩ := rank_le_of_other_step cv hinv ha hstep pc'
      refine ⟨pc', hst.trans hs', hpc', ?_⟩
      rw [if_neg (by simpa using ha)]
      omega

/-- After the queue has been inspected, the rank is bounded by its length. -/
theorem rank_of_inspect (h : Inv s) (hs : s.stack b = .broadcast cv .inspect :: rest)
    (hstep : step s (.run b) = some s') :
    ∃ pc, s'.stack b = .broadcast cv pc :: rest ∧ pc.Inspected ∧
      pc.rank b (s'.wakeup cv) ≤ 2 * (s.wakeup cv).length + 1 := by
  cases step_effect rfl hstep with
  | inspectNone hs' | inspectOne _ hs' =>
    cases hs.symm.trans hs'
    exact ⟨_, update_self _ _ _, by simp [BroadcastPc.Inspected], Nat.le_add_left _ _⟩
  | inspectMore x xs hs' hl hw =>
    cases hs.symm.trans hs'
    have hxs : b ∉ xs := fun hb => h.queues.not_mem hl cv (hw ▸ mem_cons_of_mem x hb)
    refine ⟨_, update_self _ _ _, by simp [BroadcastPc.Inspected], ?_⟩
    simp only [BroadcastPc.rank, goto_wakeup, State.pushTail, popHead_wakeup_self, update_self]
    rw [ahead_append hxs, hw, length_cons]
  | cancel hs' hmove =>
    cases hs.symm.trans hs'
    cases hmove
  | latch _ hs' hproc =>
    cases hs.symm.trans hs'
    obtain ⟨proc, heq | heq⟩ := hproc <;> cases heq
  | move hs' | reset hs' | push hs' | pushAgain hs' | signalNone hs' | signalPop _ _ hs'
  | signalWake _ hs' | popNone hs' | pop _ _ hs' | finish hs' =>
    cases hs.symm.trans hs'

/-- A broadcast returns after a number of its own steps that is bounded by the length of the queue
when it was inspected. -/
theorem broadcast_steps_le (h : Inv s) (hs : s.stack b = .broadcast cv .inspect :: rest)
    (hstep : step s (.run b) = some s')
    (hrun : Run step (Within b cv) s' ls t) :
      ls.countP (fun l => decide (l.actor = some b)) ≤ 2 * (s.wakeup cv).length + 1 := by
  obtain ⟨pc, hpc, hinspected, hle⟩ := rank_of_inspect h hs hstep
  obtain ⟨-, pc', -, -, hcount⟩ := broadcast_rank_run (h.step hstep) hpc hinspected hrun
  omega

/-! ## No assertion fails -/

/-- The process does something, and does not wait for its latch. -/
def Runnable (s : State C P) (p : P) : Prop :=
  ∃ f rest, s.stack p = f :: rest ∧ ∀ cv timeout, f = .loop cv timeout .wait → s.latch p = true

/-- A process in `ConditionVariableBroadcast` can take its next step. -/
theorem broadcast_enabled (h : Inv s) (hs : s.stack a = .broadcast cv pc :: rest) :
    ∃ s', step s (.run a) = some s' := by
  rw [step, run, hs]
  cases pc with
  | inspect =>
    have hl : s.linked a = false :=
      h.queues.linked_eq_false_iff.mpr (h.not_mem_of_broadcast hs (by simp) id)
    simp only [runBroadcast, hl, Bool.false_eq_true, if_false]
    split_ifs with hempty
    · exact ⟨_, rfl⟩
    · -- The sentinel can be pushed, since the process has not become linked by taking out the head.
      have hl' : (proclistPopHeadNode cv s).2.linked a = false := by
        cases hw : s.wakeup cv with
        | nil => rwa [popHeadNode_nil hw]
        | cons x xs =>
          rw [popHeadNode_cons hw]
          show update s.linked x false a = false
          rw [update_apply, hl, ite_self]
      simp only [proclistPushTail, hl', Bool.false_eq_true, if_false]
      exact ⟨_, rfl⟩
  | _ => exact ⟨_, rfl⟩

/-- A process that does something and does not wait for its latch can go on: no assertion fails. -/
theorem runnable_enabled (h : Inv s) (hr : Runnable s a) :
    ∃ l s', l.actor = some a ∧ step s l = some s' := by
  obtain ⟨f, rest, hs, hwait⟩ := hr
  cases f with
  | loop cv timeout pc =>
    have hfree := free_of_loop hs
    cases pc with
    | push =>
      have ht := (h.proc a).pushing cv timeout rest hs
      have hl : s.linked a = false := h.queues.linked_eq_false_iff.mpr fun cv' hm => by
        cases ht.symm.trans ((h.proc a).target_of_mem hfree hm)
      refine ⟨.run a, ?_⟩
      simp only [step, run, hs, runLoop, proclistPushTail, hl, Bool.false_eq_true, if_false]
      exact ⟨_, rfl, rfl⟩
    | wait =>
      refine ⟨.run a, ?_⟩
      simp only [step, run, hs, runLoop, hwait cv timeout rfl, if_true]
      exact ⟨_, rfl, rfl⟩
    | check =>
      refine ⟨.run a, ?_⟩
      by_cases hl : s.linked a = true
      · simp only [step, run, hs, runLoop, hl, if_true]
        exact ⟨_, rfl, rfl⟩
      · simp only [step, run, hs, runLoop, proclistPushTail, hl]
        exact ⟨_, rfl, rfl⟩
    | interrupts done =>
      refine ⟨.proceed a 0, ?_⟩
      simp only [step, hs]
      exact ⟨_, rfl, rfl⟩
    | _ =>
      refine ⟨.run a, ?_⟩
      simp only [step, run, hs, runLoop]
      exact ⟨_, rfl, rfl⟩
  | broadcast cv pc =>
    obtain ⟨s', hs'⟩ := broadcast_enabled h hs
    exact ⟨.run a, s', rfl, hs'⟩
  | _ =>
    refine ⟨.run a, ?_⟩
    simp only [step, run, hs]
    exact ⟨_, rfl, rfl⟩

/-! ## ConditionVariableCancelSleep -/

/-- The next step of the process is `ConditionVariableCancelSleep`. -/
def Cancelling (s : State C P) (p : P) : Prop :=
  match s.stack p with
  | .loop _ _ .prepare :: _ | .loop _ _ .cancel :: _ | .broadcast _ .cancel ::
    _ | .cancelSleep :: _ => True
  | _ => False

omit [DecidableEq C] [DecidableEq P] in
theorem Cancelling.not_sentinel (h : Cancelling s p) : ¬ Sentinel s p cv := by
  rintro ⟨pc, rest, hs, hpc⟩
  rw [Cancelling, hs] at h
  cases pc with
  | cancel => exact hpc
  | _ => exact h

/-- `ConditionVariableCancelSleep` returns whether another process has taken the process out of the
wait list; if not, it takes it out itself. No other process and no latch is touched, so a signal is
not passed on. -/
theorem cancelSleep_reports (h : Inv s) (hcancel : Cancelling s p) (ht : s.target p = some cv) :
    ((conditionVariableCancelSleep p s).2 = true ↔ p ∉ s.wakeup cv) ∧
    (conditionVariableCancelSleep p s).1.wakeup cv = (s.wakeup cv).erase p ∧
      (∀ cv', cv' ≠ cv → (conditionVariableCancelSleep p s).1.wakeup cv' = s.wakeup cv') ∧
      (conditionVariableCancelSleep p s).1.latch = s.latch ∧
      (conditionVariableCancelSleep p s).1.stack = s.stack := by
  have hiff : s.linked p = true ↔ p ∈ s.wakeup cv := by
    refine ⟨fun hl => ?_, fun hm => (h.queues.linked_iff p).mpr ⟨cv, hm⟩⟩
    obtain ⟨cv', hm⟩ := (h.queues.linked_iff p).mp hl
    have ht' := ((h.proc p).owner cv' hm).resolve_right hcancel.not_sentinel
    rw [ht] at ht'
    exact Option.some_inj.mp ht' ▸ hm
  by_cases hl : s.linked p = true
  · rw [cancelSleep_linked ht hl]
    exact ⟨iff_of_false Bool.false_ne_true fun hnot =>
      hnot (hiff.mp hl), update_self _ _ _, fun cv' hcv => update_of_ne hcv _ _, rfl, rfl⟩
  · have hnot : p ∉ s.wakeup cv := fun hm => hl (hiff.mpr hm)
    rw [cancelSleep_unlinked ht hl]
    exact ⟨iff_of_true rfl hnot, (erase_of_not_mem hnot).symm, fun _ _ => rfl, rfl, rfl⟩

end PgAutoIndex.Lmgr.ConditionVariable
