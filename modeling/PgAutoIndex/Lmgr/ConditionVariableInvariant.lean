import PgAutoIndex.Lmgr.ConditionVariable

/-!
# The invariant of condition variables

A process that has been taken out of a wait list is awake, or its latch is set, or someone is about
to set it (`Pending`): it is put back only after its latch has been reset. And where a process has
found the predicate false and is still in the wait list although the predicate is true by now,
someone is in `ConditionVariableBroadcast` who will take it out (`WillWake`): who made the predicate
true has not inspected the queue yet, or has its sentinel behind the process.

A step changes what belongs to the process that takes it, and beyond that only the wait lists, by
adding itself at the end, taking out the head or taking out itself, and latches, by setting them.
`StepBy` says this once, with what the process still owes to others; `ProcOk.of_stepBy` is what
follows for all other processes.
-/

namespace PgAutoIndex.Lmgr.ConditionVariable

open Function List

variable {C P : Type} {s s' : State C P} {a p q r : P} {cv : C}

/-! ## Small facts about the model -/

section Simp

variable [DecidableEq P] (s : State C P) (p : P) (fs : List (Frame C P))

/-- `goto` keeps the wait lists. -/
@[simp] theorem goto_wakeup : (s.goto p fs).wakeup = s.wakeup := rfl

/-- `goto` keeps the sleep targets. -/
@[simp] theorem goto_target : (s.goto p fs).target = s.target := rfl

/-- `goto` keeps the latches. -/
@[simp] theorem goto_latch : (s.goto p fs).latch = s.latch := rfl

/-- `goto` keeps the predicates. -/
@[simp] theorem goto_pred : (s.goto p fs).pred = s.pred := rfl

/-- `goto` sets one stack. -/
@[simp] theorem goto_stack : (s.goto p fs).stack = update s.stack p fs := rfl

/-- `setLatch` sets one latch. -/
@[simp] theorem setLatch_latch : (s.setLatch p).latch = update s.latch p true := rfl

variable {s p} in
/-- A latch that is set stays set. -/
theorem setLatch_mono (h : s.latch p = true) (q : P) : (s.setLatch q).latch p = true := by
  rw [setLatch_latch, update_apply, h, ite_self]

end Simp

/-! ## Definitions -/

/-- Somewhere before an entry of the list. -/
def Before (p r : P) (l : List P) : Prop := ∃ l₁ l₂, l = l₁ ++ r :: l₂ ∧ p ∈ l₁

/-- The next step of `r` is to set the latch of `q`. -/
def Pending (s : State C P) (r q : P) : Prop :=
  (∃ cv rest, s.stack r = .signal cv (.setLatch (some q)) :: rest) ∨
    (∃ cv h rest, s.stack r = .broadcast cv (.first (some q) h) :: rest) ∨
    ∃ cv h rest, s.stack r = .broadcast cv (.next (some q) h) :: rest ∧ q ≠ r

/-- In `ConditionVariableBroadcast` with `have_sentinel` true. -/
def BroadcastPc.HaveSentinel : BroadcastPc P → Prop
  | .first _ true | .again | .next _ true => True
  | _ => False

/-- In `ConditionVariableTimedSleep` up to the examination of the wait list. -/
def LoopPc.Asleep : LoopPc → Prop
  | .wait | .reset | .check => True
  | _ => False

/-- The predicate was false when it was tested last, and the process will not test it before it has
been taken out of the wait list. -/
def LoopPc.Untested : LoopPc → Prop
  | .sleep | .wait | .reset | .check | .interrupts false => True
  | _ => False

/-- The entry of `p` in the list of `cv` may be its sentinel. -/
def Sentinel (s : State C P) (p : P) (cv : C) : Prop :=
  ∃ pc rest, s.stack p = .broadcast cv pc :: rest ∧ pc.HaveSentinel

/-- `r` is in a `ConditionVariableBroadcast` that will take `p` out of the list of `cv`. -/
def WillWake (s : State C P) (r p : P) (cv : C) : Prop :=
  ∃ pc rest, s.stack r = .broadcast cv pc :: rest ∧
    (pc = .cancel ∨ pc = .inspect ∨ pc.HaveSentinel ∧ Before p r (s.wakeup cv))

/-- What the process does apart from a `ConditionVariableSignal`, which does not touch its sleep. -/
def body : List (Frame C P) → List (Frame C P)
  | .signal _ _ :: rest => rest
  | frames => frames

/-- The wait lists: a process is in one of them once or not at all. -/
structure Queues (s : State C P) : Prop where
  nodup : ∀ cv, (s.wakeup cv).Nodup
  linked_iff : ∀ p, s.linked p = true ↔ ∃ cv, p ∈ s.wakeup cv
  unique : ∀ p cv cv', p ∈ s.wakeup cv → p ∈ s.wakeup cv' → cv = cv'

/-- What holds of one process. -/
structure ProcOk (s : State C P) (p : P) : Prop where
  tail : ∀ f ∈ (s.stack p).tail, ∃ cv timeout done, f = .loop cv timeout (.interrupts done)
  owner : ∀ cv, p ∈ s.wakeup cv → s.target p = some cv ∨ Sentinel s p cv
  broadcasting : ∀ cv pc rest, s.stack p = .broadcast cv pc :: rest → pc ≠ .cancel →
    s.target p = none
  asleep : ∀ cv timeout pc rest, s.stack p = .loop cv timeout pc :: rest → pc.Asleep →
    s.target p = some cv
  pushing : ∀ cv timeout rest, s.stack p = .loop cv timeout .push :: rest → s.target p = none
  idle : body (s.stack p) = [] → s.target p = none
  awake : ∀ cv, s.target p = some cv → p ∈ s.wakeup cv ∨ s.latch p = true ∨ (∃ r, Pending s r p) ∨
    ∃ cv' timeout rest, s.stack p = .loop cv' timeout .check :: rest
  covered : ∀ cv timeout pc rest, body (s.stack p) = .loop cv timeout pc :: rest → pc.Untested →
    s.target p = some cv → s.pred cv = true →
    p ∈ s.wakeup cv → ∃ r, WillWake s r p cv

/-- The invariant, of the wait lists and of each process. -/
structure Inv (s : State C P) : Prop where
  queues : Queues s
  proc : ∀ p, ProcOk s p

/-! ## Places in a list -/

variable {l : List P} {x : P}

/-- Both are in the list. -/
theorem Before.mem (h : Before p r l) : p ∈ l ∧ r ∈ l := by
  obtain ⟨l₁, l₂, rfl, hp⟩ := h
  exact ⟨mem_append_left _ hp, mem_append_right _ mem_cons_self⟩

/-- An entry at the end keeps the order. -/
theorem Before.concat (h : Before p r l) (x : P) : Before p r (l ++ [x]) := by
  obtain ⟨l₁, l₂, rfl, hp⟩ := h
  exact ⟨l₁, l₂ ++ [x], by simp, hp⟩

/-- Who is added comes behind the others. -/
theorem before_concat (h : p ∈ l) : Before p r (l ++ [r]) := ⟨l, [], rfl, h⟩

/-- An entry that has another one before it is not the head; and what is left when the head is taken
out keeps its order. -/
theorem Before.of_cons (h : Before p r (x :: l)) (hnodup : (x :: l).Nodup) (hp : p ∈ l) :
    r ≠ x ∧ Before p r l := by
  obtain ⟨l₁, l₂, heq, hmem⟩ := h
  cases l₁ with
  | nil => cases hmem
  | cons y l₁ =>
    obtain ⟨rfl, rfl⟩ := cons.inj heq
    have hx := (nodup_cons.mp hnodup).1
    refine ⟨fun hr => hx (hr ▸ mem_append_right _ mem_cons_self), l₁, l₂, rfl, ?_⟩
    rcases List.mem_cons.mp hmem with rfl | hmem
    · exact absurd hp hx
    · exact hmem

/-- Taking out a third entry keeps the order. -/
theorem Before.erase [DecidableEq P] (h : Before p r l) (hp : p ≠ x) (hr : r ≠ x) :
    Before p r (l.erase x) := by
  obtain ⟨l₁, l₂, rfl, hmem⟩ := h
  have hp' : p ∈ l₁.erase x := (mem_erase_of_ne hp).mpr hmem
  by_cases hx : x ∈ l₁
  · exact ⟨l₁.erase x, l₂, erase_append_left _ hx, hp'⟩
  · rw [erase_append_right _ hx, erase_cons_tail (by simpa using hr)]
    exact ⟨l₁, l₂.erase x, rfl, hmem⟩

/-- Who is not linked is in no list. -/
theorem Queues.linked_eq_false_iff (h : Queues s) : s.linked p = false ↔ ∀ cv, p ∉ s.wakeup cv := by
  rw [← Bool.not_eq_true, h.linked_iff, not_exists]

/-- Who is not linked is not in this list. -/
theorem Queues.not_mem (h : Queues s) (hp : s.linked p = false) (cv : C) : p ∉ s.wakeup cv :=
  h.linked_eq_false_iff.mp hp cv

/-- Whose latch is set next depends on the stack. -/
theorem Pending.congr (h : s'.stack r = s.stack r) (hp : Pending s r q) : Pending s' r q := by
  unfold Pending at hp ⊢
  rwa [h]

/-! ## Processes that owe nothing -/

/-- The process is neither about to set a latch nor in `ConditionVariableBroadcast`. -/
def Free (s : State C P) (a : P) : Prop :=
  ∀ f rest, s.stack a = f :: rest → (∃ cv timeout pc, f = .loop cv timeout pc) ∨
    (∃ cv, f = .signal cv .pop) ∨ f = .cancelSleep

/-- A free process is about to set no latch. -/
theorem Free.not_pending (h : Free s a) : ¬ Pending s a q := by
  rintro (⟨cv, rest, hs⟩ | ⟨cv, hh, rest, hs⟩ | ⟨cv, hh, rest, hs, -⟩) <;> simpa using h _ _ hs

/-- A free process is in no broadcast. -/
theorem Free.not_broadcast (h : Free s a) {pc : BroadcastPc P} {rest : List (Frame C P)} :
    s.stack a ≠ .broadcast cv pc :: rest := by
  intro hs
  simpa using h _ _ hs

/-- A process that sleeps is free. -/
theorem free_of_loop {timeout : ℤ} {pc : LoopPc} {rest : List (Frame C P)}
    (h : s.stack a = .loop cv timeout pc :: rest) : Free s a := by
  intro f rest' hs
  rw [h] at hs
  exact .inl ⟨cv, timeout, pc, (cons.inj hs).1.symm⟩

/-- A process that can begin something is free. -/
theorem free_of_interruptible (h : interruptible (s.stack a) = true) : Free s a := by
  intro f rest hs
  rw [hs] at h
  cases f with
  | loop cv timeout pc => exact .inl ⟨cv, timeout, pc, rfl⟩
  | _ => simp [interruptible] at h

/-- The entry of a process that is not in `ConditionVariableBroadcast` is that of its sleep. -/
theorem ProcOk.target_of_mem (h : ProcOk s a) (hfree : Free s a) (hmem : a ∈ s.wakeup cv) :
    s.target a = some cv := by
  rcases h.owner cv hmem with ht | ⟨pc, rest, hs, -⟩
  · exact ht
  · exact absurd hs hfree.not_broadcast

/-- Who is free and linked is in the list it sleeps on. -/
theorem ProcOk.mem_of_linked (h : ProcOk s a) (hqueues : Queues s) (hfree : Free s a)
    (hl : s.linked a = true) (ht : s.target a = some cv) :
    a ∈ s.wakeup cv := by
  obtain ⟨cv', hmem⟩ := (hqueues.linked_iff a).mp hl
  rw [h.target_of_mem hfree hmem] at ht
  exact Option.some_inj.mp ht ▸ hmem

/-- Sleeps that were interrupted: below what a process does there is nothing else. -/
def Interrupted (frames : List (Frame C P)) : Prop :=
  ∀ f ∈ frames, ∃ cv timeout done, f = .loop cv timeout (.interrupts done)

/-- What is known of the prepared sleep of a process from what it does first. -/
def TopOk (target : Option C) : List (Frame C P) → Prop
  | [] => target = none
  | .loop cv _ pc :: _ => (pc.Asleep → target = some cv) ∧ (pc = .push → target = none)
  | .signal _ _ :: rest => rest = [] → target = none
  | .broadcast _ pc :: _ => pc = .cancel ∨ target = none
  | .cancelSleep :: _ => True

section Own

variable {frames rest : List (Frame C P)}

/-- Below interrupted sleeps are interrupted sleeps. -/
theorem Interrupted.tail (h : Interrupted frames) : Interrupted frames.tail :=
  fun f hf => h f (mem_of_mem_tail hf)

/-- No signal is above interrupted sleeps. -/
theorem Interrupted.body_eq (h : Interrupted frames) : body frames = frames := by
  cases frames with
  | nil => rfl
  | cons f rest =>
    obtain ⟨cv, timeout, done, rfl⟩ := h f mem_cons_self
    rfl

/-- Coming back to interrupted sleeps. -/
theorem Interrupted.topOk (h : Interrupted frames) {target : Option C}
    (ht : frames = [] → target = none) : TopOk target frames := by
  cases frames with
  | nil => exact ht rfl
  | cons f rest =>
    obtain ⟨cv, timeout, done, rfl⟩ := h f mem_cons_self
    exact ⟨fun hpc => hpc.elim, nofun⟩

/-- Below the first frame are interrupted sleeps. -/
theorem ProcOk.tail_of_cons (h : ProcOk s a) {f : Frame C P} (hs : s.stack a = f :: rest) :
    Interrupted rest := by
  have htail := h.tail
  rwa [hs] at htail

/-- What holds of a process, by what it does first. -/
theorem ProcOk.of_top (htail : Interrupted (s.stack a).tail) (htop : TopOk (s.target a) (s.stack a))
    (howner : ∀ cv, a ∈ s.wakeup cv → s.target a = some cv ∨ Sentinel s a cv)
    (hawake : ∀ cv, s.target a = some cv → a ∈ s.wakeup cv ∨ s.latch a = true ∨
      (∃ r, Pending s r a) ∨ ∃ cv' timeout rest, s.stack a = .loop cv' timeout .check :: rest)
    (hcovered : ∀ cv timeout pc rest, body (s.stack a) = .loop cv timeout pc :: rest → pc.Untested →
      s.target a = some cv → s.pred cv = true →
      a ∈ s.wakeup cv → ∃ r, WillWake s r a cv) : ProcOk s a := by
  refine ⟨htail, howner, fun cv pc rest hs hpc => ?_,
    fun cv timeout pc rest hs hpc => ?_, fun cv timeout rest hs => ?_, fun hbody => ?_, hawake,
    hcovered⟩
  · rw [hs] at htop
    exact htop.resolve_left hpc
  · rw [hs] at htop
    exact htop.1 hpc
  · rw [hs] at htop
    exact htop.2 rfl
  · cases hst : s.stack a with
    | nil =>
      rw [hst] at htop
      exact htop
    | cons f rest =>
      rw [hst] at htop hbody
      cases f with
      | signal cv pc => exact htop hbody
      | _ => cases hbody

/-- A process without a prepared sleep, in no list or in the list of its sentinel. -/
theorem ProcOk.of_noTarget (htarget : s.target a = none)
    (hmem : ∀ cv, a ∈ s.wakeup cv → Sentinel s a cv) (htail : Interrupted (s.stack a).tail)
    (htop : TopOk none (s.stack a)) : ProcOk s a := by
  refine .of_top htail (htarget ▸ htop) (fun cv h => .inr (hmem cv h)) (fun cv h => ?_)
    fun cv timeout pc rest _ _ h => ?_
  all_goals cases htarget.symm.trans h

end Own

/-! ## What a step does to the wait lists -/

variable [DecidableEq C] [DecidableEq P]

/-- What a step of `a` does to the wait lists. Who is taken out has its latch set next. -/
inductive QueueStep (a : P) (s s' : State C P) : Prop where
  | same (hw : s'.wakeup = s.wakeup) (hl : s'.linked = s.linked)
  | push (cv : C) (h : s.linked a = false)
    (hw : s'.wakeup = update s.wakeup cv (s.wakeup cv ++ [a]))
    (hl : s'.linked = update s.linked a true)
  | pop (cv : C) (x : P) (xs : List P) (h : s.wakeup cv = x :: xs)
    (hw : s'.wakeup = update s.wakeup cv xs)
    (hl : s'.linked = update s.linked x false) (hx : x ≠ a → Pending s' a x)
  | popPush (cv : C) (x : P) (xs : List P) (ha : s.linked a = false) (h : s.wakeup cv = x :: xs)
    (hw : s'.wakeup = update s.wakeup cv (xs ++ [a]))
    (hl : s'.linked = update (update s.linked x false) a true) (hx : Pending s' a x)
  | delete (cv : C) (h : a ∈ s.wakeup cv)
    (hw : s'.wakeup = update s.wakeup cv ((s.wakeup cv).erase a))
    (hl : s'.linked = update s.linked a false)

namespace Queues

/-- Adding an unlinked process at the end. -/
theorem push (h : Queues s) (cv : C) (ha : s.linked a = false)
    (hw : s'.wakeup = update s.wakeup cv (s.wakeup cv ++ [a]))
    (hl : s'.linked = update s.linked a true) : Queues s' := by
  have hmem : ∀ p cv', p ∈ s'.wakeup cv' ↔ p ∈ s.wakeup cv' ∨ (p = a ∧ cv' = cv) := by
    intro p cv'
    rw [hw, update_apply]
    by_cases hcv : cv' = cv <;> simp [hcv]
  refine ⟨fun cv' => ?_, fun p => ?_, fun p cv₁ cv₂ h₁ h₂ => ?_⟩
  · rw [hw, update_apply]
    split_ifs with hcv
    · rw [nodup_append]
      refine ⟨h.nodup cv, nodup_singleton a, fun x hx y hy heq => ?_⟩
      rw [mem_singleton] at hy
      exact h.not_mem ha cv (hy ▸ heq ▸ hx)
    · exact h.nodup cv'
  · rw [hl, update_apply]
    simp only [hmem]
    by_cases hp : p = a
    · simp [hp]
    · simp [hp, h.linked_iff p]
  · rcases (hmem p cv₁).mp h₁ with h₁ | ⟨rfl, rfl⟩
    · rcases (hmem p cv₂).mp h₂ with h₂ | ⟨rfl, rfl⟩
      · exact h.unique p _ _ h₁ h₂
      · exact absurd h₁ (h.not_mem ha _)
    · rcases (hmem p cv₂).mp h₂ with h₂ | ⟨-, h₂⟩
      · exact absurd h₂ (h.not_mem ha _)
      · exact h₂.symm

/-- Taking out a process that is in the list. -/
theorem remove (h : Queues s) (hx : x ∈ s.wakeup cv)
    (hw : s'.wakeup = update s.wakeup cv ((s.wakeup cv).erase x))
    (hlink : s'.linked = update s.linked x false) : Queues s' := by
  have hmem : ∀ p cv', p ∈ s'.wakeup cv' ↔ p ∈ s.wakeup cv' ∧ p ≠ x := by
    intro p cv'
    rw [hw, update_apply]
    split_ifs with hcv
    · rw [hcv, (h.nodup cv).mem_erase_iff, and_comm]
    · refine ⟨fun hp => ⟨hp, ?_⟩, fun hp => hp.1⟩
      rintro rfl
      exact hcv (h.unique p _ _ hp hx)
  refine ⟨fun cv' => ?_, fun p => ?_, fun p cv₁ cv₂ h₁ h₂ =>
    h.unique p _ _ ((hmem p _).mp h₁).1 ((hmem p _).mp h₂).1⟩
  · rw [hw, update_apply]
    split_ifs
    · exact (h.nodup cv).erase x
    · exact h.nodup cv'
  · rw [hlink, update_apply]
    simp only [hmem]
    by_cases hp : p = x
    · simp [hp]
    · simp [hp, h.linked_iff p]

/-- Taking out the head. -/
theorem pop {xs : List P} (h : Queues s) (hx : s.wakeup cv = x :: xs)
    (hw : s'.wakeup = update s.wakeup cv xs)
    (hl : s'.linked = update s.linked x false) : Queues s' :=
  h.remove (hx ▸ mem_cons_self) (by rw [hw, hx, erase_cons_head]) hl

/-- A step keeps the wait lists well formed. -/
theorem step (h : Queues s) (hq : QueueStep a s s') : Queues s' := by
  cases hq with
  | same hw hl =>
    exact ⟨fun cv => hw ▸ h.nodup cv, fun p => by rw [hw, hl, h.linked_iff],
      fun p cv cv' => by rw [hw]; exact h.unique p cv cv'⟩
  | push cv ha hw hl => exact h.push cv ha hw hl
  | pop cv x xs hx hw hl _ => exact h.pop hx hw hl
  | popPush cv x xs ha hx hw hl _ =>
    -- The queue without its head, and then with the sentinel.
    have hmid : Queues { s with
        wakeup := update s.wakeup cv xs
        linked := update s.linked x false } := h.pop hx rfl rfl
    refine hmid.push cv ?_ (by rw [hw]; simp) hl
    show update s.linked x false a = false
    rw [update_apply, ha, ite_self]
  | delete cv ha hw hl => exact h.remove ha hw hl

end Queues

/-- What a step of `a` does to one list; who is taken out is `woken`. -/
inductive ListStep (a : P) (woken : P → Prop) : List P → List P → Prop where
  | same (l : List P) : ListStep a woken l l
  | push (l : List P) : ListStep a woken l (l ++ [a])
  | pop (x : P) (xs : List P) (hx : x ≠ a → woken x) : ListStep a woken (x :: xs) xs
  | popPush (x : P) (xs : List P) (ha : a ∉ x :: xs) (hx : woken x) :
    ListStep a woken (x :: xs) (xs ++ [a])
  | delete (l : List P) : ListStep a woken l (l.erase a)

/-- What a step does to each list. -/
theorem QueueStep.listStep (hq : QueueStep a s s') (h : Queues s) (cv : C) :
    ListStep a (Pending s' a) (s.wakeup cv) (s'.wakeup cv) := by
  -- the list that changes, or another one
  have hupdate : ∀ {cv' : C} {l : List P}, ListStep a (Pending s' a) (s.wakeup cv') l →
      ListStep a (Pending s' a) (s.wakeup cv) (update s.wakeup cv' l cv) := by
    intro cv' l hl
    by_cases hcv : cv = cv'
    · rwa [hcv, update_self]
    · rw [update_of_ne hcv]
      exact .same _
  cases hq with
  | same hw _ => exact hw ▸ .same _
  | push cv' _ hw _ => exact hw ▸ hupdate (.push _)
  | pop cv' x xs hx hw _ hpend => exact hw ▸ hupdate (hx ▸ .pop x xs hpend)
  | popPush cv' x xs ha hx hw _ hpend =>
    exact hw ▸ hupdate (hx ▸ .popPush x xs (hx ▸ h.not_mem ha cv') hpend)
  | delete cv' _ hw _ => exact hw ▸ hupdate (.delete _)

namespace ListStep

variable {woken : P → Prop} {l l' : List P}

/-- Other processes are not added to a list. -/
theorem mem_of_mem (h : ListStep a woken l l') (hp : p ≠ a) (hmem : p ∈ l') : p ∈ l := by
  cases h with
  | same => exact hmem
  | push => simpa [hp] using hmem
  | pop x xs => exact mem_cons_of_mem x hmem
  | popPush x xs => exact mem_cons_of_mem x (by simpa [hp] using hmem)
  | delete => exact mem_of_mem_erase hmem

/-- Another process that is taken out of a list is woken. -/
theorem woken_of_not_mem (h : ListStep a woken l l') (hp : p ≠ a) (hmem : p ∈ l) (hnot : p ∉ l') :
    woken p := by
  cases h with
  | same => exact absurd hmem hnot
  | push => exact absurd (mem_append_left _ hmem) hnot
  | pop x xs hx =>
    rcases List.mem_cons.mp hmem with rfl | hmem
    · exact hx hp
    · exact absurd hmem hnot
  | popPush x xs _ hx =>
    rcases List.mem_cons.mp hmem with rfl | hmem
    · exact hx
    · exact absurd (mem_append_left _ hmem) hnot
  | delete => exact absurd ((mem_erase_of_ne hp).mpr hmem) hnot

/-- A process keeps its place before another one's entry. -/
theorem before (h : ListStep a woken l l') (hnodup : l.Nodup) (hr : r ≠ a) (hbefore : Before p r l)
    (hmem : p ∈ l') : Before p r l' := by
  cases h with
  | same => exact hbefore
  | push => exact hbefore.concat a
  | pop x xs => exact (hbefore.of_cons hnodup hmem).2
  | popPush x xs ha =>
    -- The process is not the one that pushes its sentinel, since that one was not in the list.
    have hpa : p ≠ a := fun hpa => ha (hpa ▸ hbefore.mem.1)
    exact (hbefore.of_cons hnodup (by simpa [hpa] using hmem)).2.concat a
  | delete =>
    refine hbefore.erase ?_ hr
    rintro rfl
    exact absurd hmem hnodup.not_mem_erase

end ListStep

/-! ## What a step does to other processes -/

/-- What a step of `a` does besides what only concerns `a`. -/
structure StepBy (a : P) (s s' : State C P) : Prop where
  stack : ∀ p, p ≠ a → s'.stack p = s.stack p
  target : ∀ p, p ≠ a → s'.target p = s.target p
  latch : ∀ p, p ≠ a → s.latch p = true → s'.latch p = true
  queue : QueueStep a s s'
  /-- A latch that is to be set is set. -/
  pending : ∀ q, Pending s a q → s'.latch q = true
  /-- A process that is to be taken out is taken out, or still to be taken out. -/
  willWake : ∀ p cv, p ≠ a → WillWake s a p cv → p ∈ s'.wakeup cv → WillWake s' a p cv
  /-- Who makes a predicate true will look at the whole queue. -/
  pred : ∀ cv, s'.pred cv = true → s.pred cv = true ∨
    ∃ rest, s'.stack a = .broadcast cv .cancel :: rest

namespace StepBy

/-- A latch that was to be set is set, or still to be set. -/
theorem pending_or (h : StepBy a s s') (hp : ∃ r, Pending s r q) :
    s'.latch q = true ∨ ∃ r, Pending s' r q := by
  obtain ⟨r, hr⟩ := hp
  by_cases hra : r = a
  · subst hra
    exact .inl (h.pending q hr)
  · exact .inr ⟨r, hr.congr (h.stack r hra)⟩

/-- Who will wake a process goes on to, whoever takes the step. -/
theorem willWake_of_ne (h : StepBy a s s') (hqueues : Queues s) (hr : r ≠ a)
    (hw : WillWake s r p cv) (hmem : p ∈ s'.wakeup cv) : WillWake s' r p cv := by
  obtain ⟨pc, rest, hstack, hpc⟩ := hw
  refine ⟨pc, rest, (h.stack r hr).trans hstack, ?_⟩
  rcases hpc with hpc | hpc | ⟨hpc, hbefore⟩
  · exact .inl hpc
  · exact .inr (.inl hpc)
  · exact .inr (.inr ⟨hpc, (h.queue.listStep hqueues cv).before (hqueues.nodup cv) hr hbefore hmem⟩)

end StepBy

/-- What holds of a process holds after a step of another one. -/
theorem ProcOk.of_stepBy (h : ProcOk s p) (hqueues : Queues s) (hstep : StepBy a s s')
    (hp : p ≠ a) : ProcOk s' p := by
  have hstack := hstep.stack p hp
  have htarget := hstep.target p hp
  have hlist := hstep.queue.listStep hqueues
  refine ⟨hstack ▸ h.tail, fun cv hmem => ?_, hstack ▸ htarget ▸ h.broadcasting,
    hstack ▸ htarget ▸ h.asleep, hstack ▸ htarget ▸ h.pushing,
    hstack ▸ htarget ▸ h.idle, fun cv hcv => ?_,
    fun cv timeout pc rest hbody hpc hcv hpred hmem => ?_⟩
  · rw [htarget]
    refine (h.owner cv ((hlist cv).mem_of_mem hp hmem)).imp_right ?_
    rintro ⟨pc, rest, hs, hpc⟩
    exact ⟨pc, rest, hstack.trans hs, hpc⟩
  · rw [htarget] at hcv
    rw [hstack]
    rcases h.awake cv hcv with hmem | hl | hpend | hcheck
    · -- In the list: it stays there, or `a` has taken it out and sets its latch next.
      by_cases hmem' : p ∈ s'.wakeup cv
      · exact .inl hmem'
      · exact .inr (.inr (.inl ⟨a, (hlist cv).woken_of_not_mem hp hmem hmem'⟩))
    · exact .inr (.inl (hstep.latch p hp hl))
    · exact .inr ((hstep.pending_or hpend).imp_right .inl)
    · exact .inr (.inr (.inr hcheck))
  · rw [hstack] at hbody
    rw [htarget] at hcv
    rcases hstep.pred cv hpred with hpred | ⟨rest', hmakes⟩
    · obtain ⟨r, hr⟩ :=
        h.covered cv timeout pc rest hbody hpc hcv hpred ((hlist cv).mem_of_mem hp hmem)
      refine ⟨r, ?_⟩
      by_cases hra : r = a
      · subst hra
        exact hstep.willWake p cv hp hr hmem
      · exact hstep.willWake_of_ne hqueues hra hr hmem
    · exact ⟨a, .cancel, rest', hmakes, .inl rfl⟩

/-- The step of a process that owes nothing and sets no latch. -/
theorem StepBy.of_free (hfree : Free s a) (hstack : ∀ p, p ≠ a → s'.stack p = s.stack p)
    (htarget : ∀ p, p ≠ a → s'.target p = s.target p)
    (hlatch : ∀ p, p ≠ a → s'.latch p = s.latch p) (hqueue : QueueStep a s s')
    (hpred : ∀ cv, s'.pred cv = true → s.pred cv = true ∨
      ∃ rest, s'.stack a = .broadcast cv .cancel :: rest) : StepBy a s s' where
  stack := hstack
  target := htarget
  latch p hp hl := (hlatch p hp).trans hl
  queue := hqueue
  pending q hpend := absurd hpend hfree.not_pending
  willWake _ cv _ hw _ := by
    obtain ⟨pc, rest, hs, -⟩ := hw
    exact absurd hs hfree.not_broadcast
  pred := hpred

/-- A step that only changes where the process is. -/
theorem stepBy_goto (hfree : Free s a) (frames : List (Frame C P)) : StepBy a s (s.goto a frames) :=
  .of_free hfree (fun _ hp => update_of_ne hp _ _) (fun _ _ => rfl) (fun _ _ => rfl) (.same rfl rfl)
    fun _ h => .inl h

/-! ## What holds of the process that takes the step -/

/-- What is to be shown of a step of `a`: what it does to others, and what holds of `a` afterwards.
-/
abbrev StepOk (a : P) (s s' : State C P) : Prop := StepBy a s s' ∧ ProcOk s' a

/-- A process that is in no broadcast, and neither adds itself to a list nor changes its sleep
target. It may have taken itself out with a signal, and it may have reset its latch before it looks
at the list. -/
theorem ProcOk.of_own (h : Inv s) (hstep : StepBy a s s')
    (hnot : ∀ cv pc rest, s.stack a ≠ .broadcast cv pc :: rest) (htarget : s'.target a = s.target a)
    (hmem : ∀ cv, a ∈ s'.wakeup cv → a ∈ s.wakeup cv) (htail : Interrupted (s'.stack a).tail)
    (htop : TopOk (s.target a) (s'.stack a))
    (hawake : (∃ cv timeout rest, s'.stack a = .loop cv timeout .check :: rest) ∨
      ((s.latch a = true → s'.latch a = true) ∧
      ∀ cv, s.target a = some cv →
        (a ∈ s.wakeup cv ∨ ∃ cv' timeout rest, s.stack a = .loop cv' timeout .check :: rest) →
        a ∈ s'.wakeup cv ∨ Pending s' a a))
    (huntested : ∀ cv timeout pc rest, body (s'.stack a) = .loop cv timeout pc :: rest →
      pc.Untested → s.target a = some cv → s'.pred cv = true →
      s.pred cv = true ∧ ∃ timeout pc rest, body (s.stack a) = .loop cv timeout pc :: rest ∧
      pc.Untested) : ProcOk s' a := by
  have hold := h.proc a
  refine .of_top htail (htarget ▸ htop) (fun cv hm => .inl ?_) (fun cv hcv => ?_)
    fun cv timeout pc rest hb hpc hcv hp hm => ?_
  · rw [htarget]
    refine (hold.owner cv (hmem cv hm)).resolve_right ?_
    rintro ⟨pc, rest, hs, -⟩
    exact hnot _ _ _ hs
  · rw [htarget] at hcv
    rcases hawake with hcheck | ⟨hlatch, hlist⟩
    · exact .inr (.inr (.inr hcheck))
    · rcases hold.awake cv hcv with hm | hl | hpend | hcheck
      · exact (hlist cv hcv (.inl hm)).imp_right fun hp => .inr (.inl ⟨a, hp⟩)
      · exact .inr (.inl (hlatch hl))
      · exact .inr ((hstep.pending_or hpend).imp_right .inl)
      · exact (hlist cv hcv (.inr hcheck)).imp_right fun hp => .inr (.inl ⟨a, hp⟩)
  · rw [htarget] at hcv
    obtain ⟨hp₀, timeout₀, pc₀, rest₀, hb₀, hpc₀⟩ := huntested cv timeout pc rest hb hpc hcv hp
    obtain ⟨r, hr⟩ := hold.covered cv timeout₀ pc₀ rest₀ hb₀ hpc₀ hcv hp₀ (hmem cv hm)
    have hra : r ≠ a := by
      rintro rfl
      obtain ⟨pc₁, rest₁, hs, -⟩ := hr
      exact hnot _ _ _ hs
    exact ⟨r, hstep.willWake_of_ne h.queues hra hr hm⟩

/-! ## ConditionVariableCancelSleep -/

/-- Without a prepared sleep nothing happens. -/
theorem cancelSleep_none (ht : s.target a = none) :
    conditionVariableCancelSleep a s = (s, false) := by
  rw [conditionVariableCancelSleep, ht]

/-- A sleeper that is linked leaves its list. -/
theorem cancelSleep_linked (ht : s.target a = some cv) (hl : s.linked a = true) :
    conditionVariableCancelSleep a s =
      ({ proclistDelete cv a s with target := update s.target a none }, false) := by
  rw [conditionVariableCancelSleep, ht]
  exact if_pos hl

/-- A sleeper taken out before is told so. -/
theorem cancelSleep_unlinked (ht : s.target a = some cv) (hl : ¬ s.linked a = true) :
    conditionVariableCancelSleep a s = ({ s with target := update s.target a none }, true) := by
  rw [conditionVariableCancelSleep, ht]
  exact if_neg hl

/-- After `ConditionVariableCancelSleep` the process has no sleep prepared and is in no list; the
rest is as it was. -/
theorem cancelSleep_spec (h : ProcOk s a) (hqueues : Queues s) (hnot : ∀ cv, ¬ Sentinel s a cv) :
    let s' := (conditionVariableCancelSleep a s).1
    s'.stack = s.stack ∧ s'.latch = s.latch ∧ s'.pred = s.pred ∧
      s'.target = update s.target a none ∧ s'.linked a = false ∧
      (s'.wakeup = s.wakeup ∧ s'.linked = s.linked ∨ ∃ cv, a ∈ s.wakeup cv ∧
        s'.wakeup = update s.wakeup cv ((s.wakeup cv).erase a) ∧
        s'.linked = update s.linked a false) := by
  have howner : ∀ {cv}, a ∈ s.wakeup cv → s.target a = some cv :=
    fun {cv} hmem => (h.owner cv hmem).resolve_right (hnot cv)
  cases ht : s.target a with
  | none =>
    have hl : s.linked a = false := hqueues.linked_eq_false_iff.mpr fun cv hmem => by
      cases ht.symm.trans (howner hmem)
    rw [cancelSleep_none ht]
    exact ⟨rfl, rfl, rfl, by rw [← ht, update_eq_self], hl, .inl ⟨rfl, rfl⟩⟩
  | some cv =>
    by_cases hl : s.linked a = true
    · obtain ⟨cv', hmem⟩ := (hqueues.linked_iff a).mp hl
      have hcv : cv' = cv := Option.some_inj.mp ((howner hmem).symm.trans ht)
      rw [cancelSleep_linked ht hl]
      exact ⟨rfl, rfl, rfl, rfl, update_self _ _ _, .inr ⟨cv, hcv ▸ hmem, rfl, rfl⟩⟩
    · rw [cancelSleep_unlinked ht hl]
      exact ⟨rfl, rfl, rfl, rfl, Bool.not_eq_true _ ▸ hl, .inl ⟨rfl, rfl⟩⟩

/-- A step that begins with `ConditionVariableCancelSleep`. -/
theorem cancelSleep_step (h : Inv s) {frames : List (Frame C P)} (hnot : ∀ cv, ¬ Sentinel s a cv)
    (hpend : ∀ q, ¬ Pending s a q)
    (hwake : ∀ p cv, WillWake s a p cv →
      WillWake ((conditionVariableCancelSleep a s).1.goto a frames) a p cv)
    (htail : Interrupted frames.tail) (htop : TopOk none frames) :
    StepOk a s ((conditionVariableCancelSleep a s).1.goto a frames) := by
  obtain ⟨hstack, hlatch, hpred, htarget, hlinked, hqueue⟩ :=
    cancelSleep_spec (h.proc a) h.queues hnot
  generalize (conditionVariableCancelSleep a s).1 = s₁ at *
  have hstep : QueueStep a s (s₁.goto a frames) := by
    rcases hqueue with ⟨hw, hl⟩ | ⟨cv, hmem, hw, hl⟩
    · exact .same hw hl
    · exact .delete cv hmem hw hl
  refine ⟨⟨fun p hp => ?_, fun p hp => ?_, fun p _ hl => ?_, hstep, fun q hq =>
    absurd hq (hpend q), fun p cv _ hw _ => hwake p cv hw, fun cv hcv => .inl ?_⟩,
    .of_noTarget ?_ (fun cv hmem => ?_) ?_ ?_⟩
  · rw [goto_stack, update_of_ne hp, hstack]
  · rw [goto_target, htarget, update_of_ne hp]
  · rwa [goto_latch, hlatch]
  · rwa [goto_pred, hpred] at hcv
  · rw [goto_target, htarget, update_self]
  · exact absurd hmem ((h.queues.step hstep).not_mem hlinked cv)
  · rwa [goto_stack, update_self]
  · rwa [goto_stack, update_self]

end PgAutoIndex.Lmgr.ConditionVariable
