import Mathlib.Algebra.BigOperators.Group.Finset.Basic

/-!
# Two kinds of things laid out in alternating groups

Things of two kinds share one row of places. The row is made of groups, alternately of the first and
of the second kind. `T k` is the number of things of the first kind up to its group `k`, and `S k`
the number of things of the second kind up to the group that comes after it. So the thing `x` of the
first kind in group `k` stands behind `S (k - 1)` things of the second kind (`LeftAt`), and the
thing `y` of the second kind in group `k` stands behind `T k` things of the first kind (`RightAt`);
both are numbered from 1.

The places of the first kind are then unique, as long as the counts do not decrease.
-/

namespace Interleaved

variable {T S : ℕ → ℕ}

/-- The counts do not decrease up to a group. -/
def MonoUpTo (f : ℕ → ℕ) (top : ℕ) : Prop := ∀ i j, i ≤ j → j ≤ top → f i ≤ f j

/-- The group of a thing: the first one whose count reaches it. -/
structure InGroup (f : ℕ → ℕ) (x k : ℕ) : Prop where
  le : x ≤ f k
  lt : ∀ j < k, f j < x

/-- Later things are in later groups. -/
theorem InGroup.mono {f : ℕ → ℕ} {x x' k k' : ℕ} (h : InGroup f x k) (h' : InGroup f x' k')
    (hx : x ≤ x') : k ≤ k' := by
  by_contra hlt
  have := h.lt k' (by omega)
  have := h'.le
  omega

/-- The group of a thing is unique. -/
theorem InGroup.unique {f : ℕ → ℕ} {x k k' : ℕ} (h : InGroup f x k)
    (h' : InGroup f x k') : k = k' :=
  le_antisymm (h.mono h' le_rfl) (h'.mono h le_rfl)

/-- How many things of the second kind are before the group `k` of the first kind. -/
def before (S : ℕ → ℕ) (k : ℕ) : ℕ := if k = 0 then 0 else S (k - 1)

theorem before_succ (S : ℕ → ℕ) (k : ℕ) : before S (k + 1) = S k := if_neg (Nat.succ_ne_zero k)

/-- The place of a thing of the first kind. -/
def LeftAt (T S : ℕ → ℕ) (top x p : ℕ) : Prop := ∃ k, k ≤ top ∧ InGroup T x k ∧ p = x + before S k

/-- The place of a thing of the second kind. -/
def RightAt (T S : ℕ → ℕ) (top y p : ℕ) : Prop := ∃ k, k ≤ top ∧ InGroup S y k ∧ p = y + T k

variable {top : ℕ}

theorem before_mono (hS : MonoUpTo S top) {k k' : ℕ} (h : k ≤ k') (htop : k' ≤ top) :
    before S k ≤ before S k' := by
  unfold before
  split_ifs with h1 h2
  · exact le_rfl
  · exact Nat.zero_le _
  · omega
  · exact hS _ _ (by omega) (by omega)

/-- Things of the first kind have places of their own. -/
theorem LeftAt.inj (hS : MonoUpTo S top) {x x' p : ℕ} (h : LeftAt T S top x p)
    (h' : LeftAt T S top x' p) : x = x' := by
  obtain ⟨k, hk, hgroup, rfl⟩ := h
  obtain ⟨k', hk', hgroup', heq⟩ := h'
  rcases le_total x x' with hle | hle
  · have := before_mono hS (hgroup.mono hgroup' hle) hk'
    omega
  · have := before_mono hS (hgroup'.mono hgroup hle) hk
    omega

end Interleaved
