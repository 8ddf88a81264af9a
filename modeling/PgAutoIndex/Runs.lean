import Mathlib.Data.Fintype.BigOperators

/-!
# Runs of a machine

Two ways to speak about the runs of a machine. A machine whose calls always succeed is run by
folding a list of calls, and what holds along the run is stated over its initial parts `take n`: the
first theorems take such a statement apart at the run's first or last call.

A machine whose steps may be disabled is a function `step : S → L → Option S`, and `Run step ok s ls
t` is a run from `s` to `t` with labels `ls`, each step of which meets the condition `ok` in the
state it is taken from. `Run.invariant` is the induction rule for such runs, and `run_of_execOk`
makes a run out of an evaluation. Where the state has one part for each of finitely many processes,
a step moves one of them, and `sum_update_add` says what that does to a count of processes.
-/

namespace Runs

open Function

variable {S L : Type*}

/-- What holds after every call of a run holds after every call but the last, and after the last. -/
theorem forall_take_concat (P : List L → Prop) (ls : List L) (l : L) :
    (∀ n ≤ (ls ++ [l]).length, P ((ls ++ [l]).take n)) ↔
      (∀ n ≤ ls.length, P (ls.take n)) ∧ P (ls ++ [l]) := by
  constructor
  · intro h
    refine ⟨fun n hn => ?_, ?_⟩
    · have := h n (by simp; omega)
      rwa [List.take_append_of_le_length hn] at this
    · have := h (ls.length + 1) (by simp)
      rwa [List.take_of_length_le (by simp)] at this
  · rintro ⟨h, hlast⟩ n hn
    -- An initial part of the longer run is all of it, or one of the shorter run.
    rcases lt_or_ge ls.length n with hlt | hge
    · rwa [List.take_of_length_le (by simp; omega)]
    · rw [List.take_append_of_le_length hge]
      exact h n hge

/-- What holds of every call of a run, after the calls before it, holds of the first call, and of
the others. -/
theorem forall_call_cons (Q : List L → L → Prop) (l : L) (ls : List L) :
    (∀ n l', (l :: ls)[n]? = some l' → Q ((l :: ls).take n) l') ↔
      Q [] l ∧ ∀ n l', ls[n]? = some l' → Q (l :: ls.take n) l' := by
  constructor
  · intro h
    exact ⟨h 0 l rfl, fun n l' hn => h (n + 1) l' hn⟩
  · rintro ⟨hfirst, h⟩ (_ | n) l' hn
    · cases hn
      exact hfirst
    · exact h n l' hn

/-- What holds of every call of a run holds of every call of its first part, and of every call of
the rest. -/
theorem forall_call_append (Q : List L → L → Prop) (ls ms : List L) :
    (∀ n l', (ls ++ ms)[n]? = some l' → Q ((ls ++ ms).take n) l') ↔
      (∀ n l', ls[n]? = some l' → Q (ls.take n) l') ∧
        ∀ n l', ms[n]? = some l' → Q (ls ++ ms.take n) l' := by
  induction ls generalizing Q with
  | nil => simp
  | cons l ls ih =>
    rw [List.cons_append, forall_call_cons, ih (fun before l' => Q (l :: before) l'),
      forall_call_cons Q l ls, and_assoc]
    rfl

/-- What holds of every call of a run, after the calls before it, holds of every call but the last,
and of the last. -/
theorem forall_call_concat (Q : List L → L → Prop) (ls : List L) (l : L) :
    (∀ n l', (ls ++ [l])[n]? = some l' → Q ((ls ++ [l]).take n) l') ↔
      (∀ n l', ls[n]? = some l' → Q (ls.take n) l') ∧ Q ls l := by
  rw [forall_call_append, forall_call_cons (fun before l' => Q (ls ++ before) l')]
  simp

/-- The runs of `step` from `s` whose steps all meet `ok`, with their labels. -/
inductive Run (step : S → L → Option S) (ok : S → L → Prop) (s : S) : List L → S → Prop where
  /-- The run of no steps. -/
  | nil : Run step ok s [] s
  /-- A run with one more step. -/
  | concat {ls : List L} {t u : S} {l : L} :
      Run step ok s ls t → ok t l → step t l = some u → Run step ok s (ls ++ [l]) u

variable {step : S → L → Option S} {ok : S → L → Prop} {s t : S} {ls : List L}

/-- What holds at the start and is kept by every step holds in every state reached. -/
theorem Run.invariant (h : Run step ok s ls t) (Inv : S → Prop) (hstart : Inv s)
    (hstep : ∀ a l b, Inv a → ok a l → step a l = some b → Inv b) : Inv t := by
  induction h with
  | nil => exact hstart
  | concat _ hok hl ih => exact hstep _ _ _ ih hok hl

/-- A run whose steps meet a condition is a run whose steps meet any weaker one. -/
theorem Run.mono {ok' : S → L → Prop} (h : Run step ok s ls t) (hok : ∀ a l, ok a l → ok' a l) :
    Run step ok' s ls t := by
  induction h with
  | nil => exact .nil
  | concat _ hl hs ih => exact ih.concat (hok _ _ hl) hs

/-- In a run from `s` to `t` there is a step with a property, which may speak of the rest of the
run. -/
def During (step : S → L → Option S) (s : S) (ls : List L) (t : S)
    (E : S → L → S → List L → Prop) : Prop :=
  ∃ ls₁ l ls₂ s₁ s₂, ls = ls₁ ++ l :: ls₂ ∧ Run step (fun _ _ => True) s ls₁ s₁ ∧
    step s₁ l = some s₂ ∧
    Run step (fun _ _ => True) s₂ ls₂ t ∧ E s₁ l s₂ ls₂

/-- The last step of a run has the property. -/
theorem During.last {E : S → L → S → List L → Prop} {l : L} {u : S}
    (h : Run step (fun _ _ => True) s ls t) (hl : step t l = some u)
    (hE : E t l u []) : During step s (ls ++ [l]) u E :=
  ⟨ls, l, [], t, u, rfl, h, hl, .nil, hE⟩

/-- A step that had the property is still there when the run goes on, and may have another property
then. -/
theorem During.concat {E E' : S → L → S → List L → Prop} {l : L} {u : S} (h : During step s ls t E)
    (hl : step t l = some u)
    (hE : ∀ s₁ l₁ s₂ ls₂, Run step (fun _ _ => True) s₂ ls₂ t → E s₁ l₁ s₂ ls₂ →
      E' s₁ l₁ s₂ (ls₂ ++ [l])) :
    During step s (ls ++ [l]) u E' := by
  obtain ⟨ls₁, l₁, ls₂, s₁, s₂, rfl, hbefore, hstep, hafter, h⟩ := h
  exact ⟨ls₁, l₁, ls₂ ++ [l], s₁, s₂, by simp, hbefore, hstep, hafter.concat trivial hl,
    hE _ _ _ _ hafter h⟩

/-- A run from `s` to `t` passes through a state with a property, which may speak of the steps
before. -/
def Passes (step : S → L → Option S) (s : S) (ls : List L) (t : S) (P : List L → S → Prop) : Prop :=
  ∃ ls₁ ls₂ u, ls = ls₁ ++ ls₂ ∧ Run step (fun _ _ => True) s ls₁ u ∧
    Run step (fun _ _ => True) u ls₂ t ∧ P ls₁ u

/-- The last state of a run has the property. -/
theorem Passes.last {P : List L → S → Prop} (h : Run step (fun _ _ => True) s ls t) (hP : P ls t) :
    Passes step s ls t P :=
  ⟨ls, [], t, by simp, h, .nil, hP⟩

/-- A run that goes on has passed through the states that it passed through before. -/
theorem Passes.concat {P P' : List L → S → Prop} {l : L} {u : S} (h : Passes step s ls t P)
    (hl : step t l = some u) (hP : ∀ ls₁ v, P ls₁ v → P' ls₁ v) :
    Passes step s (ls ++ [l]) u P' := by
  obtain ⟨ls₁, ls₂, v, rfl, hbefore, hafter, hv⟩ := h
  exact ⟨ls₁, ls₂ ++ [l], v, by simp, hbefore, hafter.concat trivial hl, hP _ _ hv⟩

/-- Run the labels in order, and check a condition before each step. -/
def execOk (step : S → L → Option S) (ok : S → L → Bool) (s : S) : List L → Option S
  | [] => some s
  | l :: ls => if ok s l then (step s l).bind fun t => execOk step ok t ls else none

/-- A checked evaluation continues a run whose steps meet the condition. -/
theorem run_of_execOk {okb : S → L → Bool} {u : S} (h : execOk step okb t ls = some u)
    {ls₀ : List L} (h₀ : Run step (fun a l => okb a l = true) s ls₀ t) :
    Run step (fun a l => okb a l = true) s (ls₀ ++ ls) u := by
  induction ls generalizing t ls₀ with
  | nil =>
    cases h
    simpa using h₀
  | cons l ls ih =>
    simp only [execOk] at h
    split_ifs at h with hok
    obtain ⟨a, ha, hu⟩ := Option.bind_eq_some_iff.mp h
    have := ih hu (h₀.concat hok ha)
    simpa using this

/-- A machine whose steps are never disabled has a run for every list of labels. -/
theorem run_foldl (f : S → L → S) {s : S} {ls : List L} :
    Run (fun a l => some (f a l)) (fun _ _ => True) s ls (ls.foldl f s) := by
  induction ls using List.reverseRecOn with
  | nil => exact .nil
  | append_singleton ls l ih =>
    rw [List.foldl_append]
    exact ih.concat trivial rfl

/-! ## Counting processes -/

/-- Moving one process changes a sum over all processes by that process's terms. -/
theorem sum_update_add {ι β : Type*} [DecidableEq ι] [Fintype ι] (w : β → ℕ) (f : ι → β)
    (a : ι) (b : β) :
    ∑ i, w (update f a b i) + w (f a) = ∑ i, w (f i) + w b := by
  have hcomp : ∀ i, w (update f a b i) = update (fun i => w (f i)) a (w b) i :=
    congrFun (comp_update w f a b)
  simp only [hcomp]
  rw [Finset.sum_update_of_mem (Finset.mem_univ a), add_assoc, add_comm (w b),
    Finset.sdiff_singleton_eq_erase, Finset.sum_erase_add _ _ (Finset.mem_univ a)]

/-- Rewriting the part of each process of a list without repetitions rewrites each of them once. -/
theorem foldl_update {ι β : Type*} [DecidableEq ι] (g : β → β) {l : List ι}
    (hl : l.Nodup) {f : ι → β}
    (i : ι) :
    l.foldl (fun f j => update f j (g (f j))) f i = if i ∈ l then g (f i) else f i := by
  induction l generalizing f with
  | nil => simp
  | cons j l ih =>
    obtain ⟨hj, hl⟩ := List.nodup_cons.mp hl
    rw [List.foldl_cons, ih hl]
    by_cases hij : i = j
    · subst hij
      simp [hj]
    · simp [hij]

end Runs
