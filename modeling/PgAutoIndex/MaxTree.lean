import Mathlib.Algebra.BigOperators.Group.Finset.Basic
import Mathlib.Tactic.Linarith

/-!
# A tree of maxima in an array

A binary tree is stored in an array of `n` nodes, the children of node `x` at `2 * x + 1` and `2 * x
+ 2`. The first `m` nodes are inner nodes, and each holds the maximum of its children, those missing
at the end of the array left out (`Consistent`). When a leaf is changed, the maxima on its way up
are corrected, up to the first one that stays (`propagate`). From an inner node with at least `v`
the way down to a leaf with at least `v`, to the left where there is a choice, ends at the leftmost
such leaf (`descend_spec`).

Node `y` is `k` levels under node `x` when `(y + 1) / 2^k = x + 1`.
-/

namespace MaxTree

open Function

variable {α : Type*} [LinearOrder α] [OrderBot α]

/-- The maximum of the children of a node. -/
def childMax (n : ℕ) (nodes : ℕ → α) (x : ℕ) : α :=
  max (if 2 * x + 1 < n then nodes (2 * x + 1)
    else ⊥) (if 2 * x + 2 < n then nodes (2 * x + 2) else ⊥)

/-- Each inner node holds the maximum of its children. -/
def Consistent (n m : ℕ) (nodes : ℕ → α) : Prop := ∀ x, x < m → nodes x = childMax n nodes x

/-- Each inner node but `i` holds the maximum of its children. -/
def ExceptAt (n m : ℕ) (nodes : ℕ → α) (i : ℕ) : Prop :=
  ∀ x, x < m → x ≠ i → nodes x = childMax n nodes x

variable {i n x y : ℕ} {v : α} {nodes : ℕ → α}

section Update

variable {n m : ℕ} {nodes : ℕ → α}

/-- The children of a node decide its maximum. -/
theorem childMax_update (hleft : i ≠ 2 * x + 1) (hright : i ≠ 2 * x + 2) (v : α) :
    childMax n (update nodes i v) x = childMax n nodes x := by
  unfold childMax
  rw [update_of_ne hleft.symm, update_of_ne hright.symm]

/-- A node is at least its children. -/
theorem Consistent.child_le (h : Consistent n m nodes) {c : ℕ} (hx : x < m) (hc : c < n)
    (hchild : c = 2 * x + 1 ∨ c = 2 * x + 2) : nodes c ≤ nodes x := by
  rw [h x hx]
  unfold childMax
  rcases hchild with rfl | rfl
  · rw [if_pos hc]
    exact le_max_left _ _
  · rw [if_pos hc]
    exact le_max_right _ _

/-- A node with at least `v` has a child with at least `v`. -/
theorem Consistent.exists_child (h : Consistent n m nodes) (hx : x < m) (hpos : ⊥ < v)
    (hv : v ≤ nodes x) :
    (2 * x + 1 < n ∧ v ≤ nodes (2 * x + 1)) ∨ (2 * x + 2 < n ∧ v ≤ nodes (2 * x + 2)) := by
  rw [h x hx] at hv
  rcases le_max_iff.mp hv with hleft | hright
  · split_ifs at hleft with hl
    · exact .inl ⟨hl, hleft⟩
    · exact absurd hleft hpos.not_ge
  · split_ifs at hright with hr
    · exact .inr ⟨hr, hright⟩
    · exact absurd hright hpos.not_ge

/-- Changing a leaf leaves at most its parent in the wrong. -/
theorem Consistent.update_leaf (h : Consistent n m nodes) (hi : m ≤ i) (v : α) :
    ExceptAt n m (update nodes i v) ((i - 1) / 2) := by
  intro x hx hne
  rw [update_of_ne (by omega), childMax_update (by omega) (by omega), h x hx]

/-- Correcting the node in the wrong passes the trouble on to its parent. -/
theorem ExceptAt.correct {p : ℕ} (h : ExceptAt n m nodes p) (hpos : 0 < p) :
    ExceptAt n m (update nodes p (childMax n nodes p)) ((p - 1) / 2) := by
  intro x hx hne
  rw [childMax_update (by omega) (by omega)]
  by_cases hxp : x = p
  · rw [hxp, update_self]
  · rw [update_of_ne hxp, h x hx hxp]

/-- There is nothing above the root. -/
theorem ExceptAt.correct_root (h : ExceptAt n m nodes 0) :
    Consistent n m (update nodes 0 (childMax n nodes 0)) := by
  intro x hx
  rw [childMax_update (by omega) (by omega)]
  by_cases hx0 : x = 0
  · rw [hx0, update_self]
  · rw [update_of_ne hx0, h x hx hx0]

/-- A node that holds the maximum of its children is not in the wrong. -/
theorem ExceptAt.consistent {p : ℕ} (h : ExceptAt n m nodes p) (hp : nodes p = childMax n nodes p) :
    Consistent n m nodes := by
  intro x hx
  by_cases hxp : x = p
  · rw [hxp, hp]
  · exact h x hx hxp

end Update

/-- Correct the maxima above node `i`, up to the root or to one that stays. -/
def propagate (n : ℕ) : ℕ → ℕ → (ℕ → α) → ℕ → α
  | 0, _, nodes => nodes
  | fuel + 1, i, nodes =>
    let p := (i - 1) / 2
    let newvalue := childMax n nodes p
    if nodes p = newvalue then nodes
    else if p > 0 then propagate n fuel p (update nodes p newvalue)
    else update nodes p newvalue

/-- After a change at node `i`, the tree is consistent again. -/
theorem propagate_consistent {m : ℕ} (fuel : ℕ) (hi : 0 < i) (hfuel : i ≤ fuel)
    (h : ExceptAt n m nodes ((i - 1) / 2)) : Consistent n m (propagate n fuel i nodes) := by
  induction fuel generalizing i nodes with
  | zero => omega
  | succ fuel ih =>
    rw [propagate]
    split_ifs with heq hpos
    · exact h.consistent heq
    · exact ih hpos (by omega) (h.correct hpos)
    · have hzero : (i - 1) / 2 = 0 := by omega
      rw [hzero] at h ⊢
      exact h.correct_root

/-- Only nodes above `i` change. -/
theorem propagate_of_le (fuel : ℕ) (hy : (i - 1) / 2 < y) :
    propagate n fuel i nodes y = nodes y := by
  induction fuel generalizing i nodes with
  | zero => rfl
  | succ fuel ih =>
    rw [propagate]
    split_ifs
    · rfl
    · rw [ih (by omega), update_of_ne (by omega)]
    · exact update_of_ne (by omega) _ _

/-- Compute the inner nodes below `k` anew, from the last to the first. -/
def rebuild (n : ℕ) : ℕ → (ℕ → α) → ℕ → α
  | 0, nodes => nodes
  | k + 1, nodes => rebuild n k (update nodes k (childMax n nodes k))

/-- Only the nodes below `k` change. -/
theorem rebuild_of_le {k : ℕ} (hy : k ≤ y) : rebuild n k nodes y = nodes y := by
  induction k generalizing nodes with
  | zero => rfl
  | succ k ih => rw [rebuild, ih (by omega), update_of_ne (by omega)]

/-- When the nodes from `k` on are right, all are. -/
theorem rebuild_consistent {m k : ℕ} (h : ∀ x, k ≤ x → x < m → nodes x = childMax n nodes x) :
    Consistent n m (rebuild n k nodes) := by
  induction k generalizing nodes with
  | zero => exact fun x => h x (Nat.zero_le x)
  | succ k ih =>
    refine ih fun x hk hx => ?_
    rw [childMax_update (by omega) (by omega)]
    by_cases hxk : x = k
    · rw [hxk, update_self]
    · rw [update_of_ne hxk, h x (by omega) hx]

/-! ## Looking for a leaf -/

section Search

variable {n m : ℕ} {nodes : ℕ → α}

/-- A node is at most what those above it hold. -/
theorem Consistent.le_of_under (h : Consistent n m nodes) (hn : n ≤ 2 * m + 1) (k : ℕ) (hy : y < n)
    (hlow : (x + 1) * 2^k ≤ y + 1) (hhigh : y + 1 < (x + 2) * 2^k) : nodes y ≤ nodes x := by
  induction k generalizing x with
  | zero => rw [show y = x by omega]
  | succ k ih =>
    rw [Nat.pow_succ'] at hlow hhigh
    -- The child of `x` on the way to `y`.
    obtain ⟨c, hc, hclow, hchigh⟩ : ∃ c, (c = 2 * x + 1 ∨ c = 2 * x + 2) ∧ (c + 1) * 2^k ≤ y + 1 ∧
        y + 1 < (c + 2) * 2^k := by
      by_cases hleft : y + 1 < (2 * x + 3) * 2^k
      · exact ⟨2 * x + 1, .inl rfl, by linarith, hleft⟩
      · exact ⟨2 * x + 2, .inr rfl, not_lt.mp hleft, by linarith⟩
    have hcy : c + 1 ≤ (c + 1) * 2^k := Nat.le_mul_of_pos_right _ (Nat.two_pow_pos k)
    exact (ih hclow hchigh).trans (h.child_le (by omega) (by omega) hc)

/-- The way down from a node to a leaf with at least `v`, to the left where there is a choice; none
when a node promises what its children do not hold. -/
def descend (n m : ℕ) (nodes : ℕ → α) (v : α) : ℕ → ℕ → Option ℕ
  | 0, _ => none
  | fuel + 1, x =>
    if x < m then
      if 2 * x + 1 < n ∧ nodes (2 * x + 1) ≥ v then descend n m nodes v fuel (2 * x + 1)
      else if 2 * x + 2 < n ∧ nodes (2 * x + 2) ≥ v then descend n m nodes v fuel (2 * x + 2)
      else none
    else some x

omit [OrderBot α] in
/-- What is found is a leaf with at least `v`. -/
theorem descend_sound {fuel : ℕ} (hx : x < n) (hv : v ≤ nodes x)
    (h : descend n m nodes v fuel x = some y) : m ≤ y ∧ y < n ∧ v ≤ nodes y := by
  induction fuel generalizing x with
  | zero => exact absurd h (by simp [descend])
  | succ fuel ih =>
    rw [descend] at h
    split_ifs at h with hinner hleft hright
    · exact ih hleft.1 hleft.2 h
    · exact ih hright.1 hright.2 h
    · rw [Option.some.injEq] at h
      subst h
      exact ⟨by omega, hx, hv⟩

/-- From a node `k` levels above the leaves, the way down ends at the leftmost leaf under it with at
least `v`. -/
theorem descend_spec (h : Consistent n m nodes) (hn : n ≤ 2 * m + 1) {k : ℕ}
    (hpos : 0 < k → ⊥ < v) {fuel : ℕ}
    (hfuel : k < fuel) (hlow : m + 1 ≤ (x + 1) * 2^k) (hhigh : (x + 2) * 2^k ≤ 2 * (m + 1))
    (hx : x < n) (hv : v ≤ nodes x) :
    ∃ y, descend n m nodes v fuel x = some y ∧ y < n ∧ v ≤ nodes y ∧ (x + 1) * 2^k ≤ y + 1 ∧
      y + 1 < (x + 2) * 2^k ∧
      ∀ y', (x + 1) * 2^k ≤ y' + 1 → y' < y → nodes y' < v := by
  induction k generalizing fuel x with
  | zero =>
    obtain _ | fuel := fuel
    · omega
    exact ⟨x, by rw [descend, if_neg (by omega)], hx, hv, by omega, by omega,
      fun y' hge hlt => by omega⟩
  | succ k ih =>
    obtain _ | fuel := fuel
    · omega
    have hpow : 0 < 2^k := Nat.two_pow_pos k
    rw [Nat.pow_succ'] at hlow hhigh ⊢
    have hinner : x < m := by nlinarith
    rw [descend, if_pos hinner]
    by_cases hleft : 2 * x + 1 < n ∧ nodes (2 * x + 1) ≥ v
    · rw [if_pos hleft]
      obtain ⟨y, hy, hyn, hval, hge, hlt, hfirst⟩ :=
        ih (fun _ => hpos k.succ_pos) (Nat.lt_of_succ_lt_succ hfuel)
        (by linarith) (by linarith) hleft.1 hleft.2
      exact ⟨y, hy, hyn, hval, by linarith, by linarith, fun y' hge' => hfirst y' (by linarith)⟩
    · -- The parent is up to one of its children, and it is not the left one.
      have hright := (h.exists_child hinner (hpos k.succ_pos) hv).resolve_left hleft
      rw [if_neg hleft, if_pos hright]
      obtain ⟨y, hy, hyn, hval, hge, hlt, hfirst⟩ :=
        ih (fun _ => hpos k.succ_pos) (Nat.lt_of_succ_lt_succ hfuel)
        (by linarith) (by linarith) hright.1 hright.2
      refine ⟨y, hy, hyn, hval, by linarith, by linarith, fun y' hge' hlt' => ?_⟩
      by_cases hunder : y' + 1 < (2 * x + 3) * 2^k
      · -- Under the left child nothing has `v`.
        have hle := h.le_of_under hn k (hlt'.trans hyn) (by linarith) hunder
        exact hle.trans_lt (not_le.mp fun hge => hleft ⟨by nlinarith, hge⟩)
      · exact hfirst y' (not_lt.mp hunder) hlt'

end Search

end MaxTree
