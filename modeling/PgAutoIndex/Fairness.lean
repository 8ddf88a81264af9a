import Mathlib.Algebra.GroupWithZero.Nat
import Mathlib.Algebra.BigOperators.Group.Finset.Basic

/-!
# Fair behaviours

A behaviour of a machine `step : S → L → Option S` is an infinite run of it. The steps are taken by
agents, and a behaviour is weakly fair when an agent that stays runnable takes a step sooner or
later.

`WeaklyFair.leadsTo` is the rule by which such a behaviour comes to a goal: one agent can go on
until the goal is reached, each of its steps brings the goal nearer, and no step of another agent
takes it away. Goals that are reached one after the other are put together by
`Behaviour.LeadsTo.or_trans`.
-/

namespace Fairness

variable {S L A : Type*} {step : S → L → Option S}

/-- An infinite run. -/
structure Behaviour (step : S → L → Option S) where
  state : ℕ → S
  label : ℕ → L
  step_eq : ∀ n, step (state n) (label n) = some (state (n + 1))

/-- What holds at the start and is kept by every step holds always. -/
theorem Behaviour.invariant (b : Behaviour step) (Inv : S → Prop) (hstart : Inv (b.state 0))
    (hstep : ∀ s l s', Inv s → step s l = some s' → Inv s') (n : ℕ) :
    Inv (b.state n) := by
  induction n with
  | zero => exact hstart
  | succ n ih => exact hstep _ _ _ ih (b.step_eq n)

/-- From every state in which `P` holds the behaviour comes to one in which `Q` does. -/
def Behaviour.LeadsTo (b : Behaviour step) (P Q : S → Prop) : Prop :=
  ∀ n, P (b.state n) → ∃ m, n ≤ m ∧ Q (b.state m)

theorem Behaviour.LeadsTo.or_trans {b : Behaviour step} {P Q R : S → Prop}
    (h : b.LeadsTo P fun s => Q s ∨ R s) (h' : b.LeadsTo R Q) : b.LeadsTo P Q := by
  intro n hP
  obtain ⟨m, hm, hQ | hR⟩ := h n hP
  · exact ⟨m, hm, hQ⟩
  · obtain ⟨m', hm', hQ⟩ := h' m hR
    exact ⟨m', hm.trans hm', hQ⟩

/-- Again and again, an agent takes a step or cannot run. -/
def WeaklyFair (b : Behaviour step) (actor : L → Option A) (Runnable : S → A → Prop) : Prop :=
  ∀ a n, ∃ m, n ≤ m ∧ (¬ Runnable (b.state m) a ∨ actor (b.label m) = some a)

/-- If an agent can run as long as `P` holds, its steps decrease a rank that no step increases, and
`P` holds until `Q` does, then `P` leads to `Q`. -/
theorem WeaklyFair.leadsTo {b : Behaviour step} {actor : L → Option A} {Runnable : S → A → Prop}
    (hfair : WeaklyFair b actor Runnable) {P Q : S → Prop}
    (a : A) (rank : S → ℕ) (hrunnable : ∀ s, P s → Runnable s a)
    (hstep : ∀ s l s', P s → step s l = some s' →
      Q s' ∨ (P s' ∧ rank s' ≤ rank s ∧ (actor l = some a → rank s' < rank s))) :
    b.LeadsTo P Q := by
  -- Induction on the rank: until the agent takes a step, `P` holds and the rank does not increase.
  intro n
  induction hr : rank (b.state n) using Nat.strong_induction_on generalizing n with
  | _ r ih =>
    intro hP
    by_contra hnever
    have hnot : ∀ m, n ≤ m → ¬ Q (b.state m) := fun m hm hQ => hnever ⟨m, hm, hQ⟩
    have hkeep : ∀ k, P (b.state (n + k)) ∧ rank (b.state (n + k)) ≤ rank (b.state n) := by
      intro k
      induction k with
      | zero => exact ⟨hP, le_rfl⟩
      | succ k ihk =>
        rcases hstep _ _ _ ihk.1 (b.step_eq (n + k)) with hQ | ⟨hP', hle, -⟩
        · exact absurd hQ (hnot _ (by omega))
        · exact ⟨hP', hle.trans ihk.2⟩
    obtain ⟨m, hm, hacts⟩ := hfair a n
    obtain ⟨k, rfl⟩ := Nat.exists_eq_add_of_le hm
    obtain ⟨hPk, hrk⟩ := hkeep k
    rcases hacts with hblocked | hactor
    · exact hblocked (hrunnable _ hPk)
    · rcases hstep _ _ _ hPk (b.step_eq (n + k)) with hQ | ⟨hP', -, hlt⟩
      · exact hnot _ (by omega) hQ
      · obtain ⟨m', hm', hQ⟩ :=
          ih (rank (b.state (n + k + 1))) (by have := hlt hactor; omega) (n + k + 1) rfl hP'
        exact hnot m' (by omega) hQ

end Fairness
