import Mathlib.Algebra.GroupWithZero.Nat
import Mathlib.Algebra.BigOperators.Group.Finset.Basic

/-!
# Ranges

The functions of `rangetypes.c` on which multiranges rest, for a range type without canonical
function: a range type over a subtype whose values are taken to be dense. A bound is infinite or has
a value that is inclusive or exclusive, and it knows whether it is a lower or an upper bound
(`RangeBound`).

A range is empty or has a lower and an upper bound (`RangeType`). That the lower bound is not above
the upper one is part of the value, in the words of `range_cmp_bounds`; `rangeSerialize` is what
establishes it.
-/

namespace PgAutoIndex.Adt

variable {α : Type} [LinearOrder α]

/-- A bound: no value if it is infinite, otherwise the value and whether it is inclusive; and
whether the bound is a lower one. -/
structure RangeBound (α : Type) where
  val : Option (α × Bool)
  lower : Bool
  deriving DecidableEq, Repr

/-- Whether the bound itself belongs; an infinite one does not. -/
def RangeBound.inclusive (b : RangeBound α) : Bool :=
  match b.val with
  | none => false
  | some (_, inclusive) => inclusive

/-- The bound of what is on the other side of it: `inclusive` is inverted and `lower` is set. -/
def RangeBound.flip (b : RangeBound α) (lower : Bool) : RangeBound α :=
  ⟨b.val.map fun p => (p.1, !p.2), lower⟩

/-- The errors of the functions. -/
inductive RangeError where
  /-- range lower bound must be less than or equal to range upper bound -/
  | lowerAboveUpper
  /-- result of range difference would not be contiguous -/
  | differenceNotContiguous
  /-- unexpected case in range_minus -/
  | unexpectedCase
  /-- result of range union would not be contiguous -/
  | unionNotContiguous
  /-- An assertion fails. -/
  | assertion
  /-- An array is written behind its end. -/
  | arrayOverrun
  deriving DecidableEq, Repr

/-- Compare two bounds. -/
def rangeCmpBounds (b1 b2 : RangeBound α) : Ordering :=
  match b1.val, b2.val with
  | none, none => if b1.lower = b2.lower then .eq else if b1.lower then .lt else .gt
  | none, some _ => if b1.lower then .lt else .gt
  | some _, none => if b2.lower then .gt else .lt
  | some (v1, inclusive1), some (v2, inclusive2) =>
    match compare v1 v2 with
    | .eq =>
      if inclusive1 = false ∧ inclusive2 = false then
        if b1.lower = b2.lower then .eq else if b1.lower then .gt else .lt
      else if inclusive1 = false then if b1.lower then .gt else .lt
      else if inclusive2 = false then if b2.lower then .lt else .gt
      else .eq
    | result => result

/-- Compare the values of two bounds only. -/
def rangeCmpBoundValues (b1 b2 : RangeBound α) : Ordering :=
  match b1.val, b2.val with
  | none, none => if b1.lower = b2.lower then .eq else if b1.lower then .lt else .gt
  | none, some _ => if b1.lower then .lt else .gt
  | some _, none => if b2.lower then .gt else .lt
  | some (v1, _), some (v2, _) => compare v1 v2

/-- A range. -/
inductive RangeType (α : Type) [LinearOrder α] where
  | empty
  | range (lower upper : Option (α × Bool)) (h : rangeCmpBounds ⟨lower, true⟩ ⟨upper, false⟩ ≠ .gt)

/-- A lower bound that the check of `range_serialize` lets pass is not above the upper bound. -/
theorem rangeCmpBounds_ne_gt {lower upper : Option (α × Bool)}
    (hgt : rangeCmpBoundValues ⟨lower, true⟩ ⟨upper, false⟩ ≠ .gt)
    (heq : ¬ (rangeCmpBoundValues ⟨lower, true⟩ ⟨upper, false⟩ = .eq ∧
      ¬ ((⟨lower, true⟩ : RangeBound α).inclusive = true ∧
        (⟨upper, false⟩ : RangeBound α).inclusive = true))) :
    rangeCmpBounds ⟨lower, true⟩ ⟨upper, false⟩ ≠ .gt := by
  unfold rangeCmpBounds
  rcases lower with _ | ⟨v1, inclusive1⟩ <;> rcases upper with _ | ⟨v2, inclusive2⟩
  · simp
  · simp
  · simp
  · dsimp only at heq hgt ⊢
    cases hcmp : compare v1 v2 with
    | lt => simp
    | gt => exact absurd hcmp hgt
    | eq =>
      have hinc : inclusive1 = true ∧ inclusive2 = true := by
        by_contra hnot
        exact heq ⟨hcmp, hnot⟩
      simp [hinc.1, hinc.2]

/-- Build a range from its bounds. -/
def rangeSerialize (lower upper : RangeBound α) (empty : Bool) : Except RangeError (RangeType α) :=
  if empty then .ok .empty
  else if lower.lower ≠ true ∨ upper.lower ≠ false then .error .assertion
  else if hgt : rangeCmpBoundValues ⟨lower.val, true⟩ ⟨upper.val, false⟩ = .gt
    then .error .lowerAboveUpper
  else if heq : rangeCmpBoundValues ⟨lower.val, true⟩ ⟨upper.val, false⟩ = .eq ∧
      ¬ ((⟨lower.val, true⟩ : RangeBound α).inclusive = true ∧
        (⟨upper.val, false⟩ : RangeBound α).inclusive = true) then .ok .empty
  else .ok (.range lower.val upper.val (rangeCmpBounds_ne_gt hgt heq))

/-- `make_range` for a range type without canonical function. -/
def makeRange (lower upper : RangeBound α) : Except RangeError (RangeType α) :=
  rangeSerialize lower upper false

/-- Whether the range is empty. -/
def rangeIsEmpty : RangeType α → Bool
  | .empty => true
  | .range .. => false

/-! ## Comparing ranges -/

/-- Whether the first range ends before the second. -/
def rangeBeforeInternal : RangeType α → RangeType α → Bool
  | .range _ u1 _, .range l2 _ _ => rangeCmpBounds ⟨u1, false⟩ ⟨l2, true⟩ = .lt
  | _, _ => false

/-- Whether an upper and a lower bound meet without a point between them, and without a common one.
-/
def boundsAdjacent (boundA boundB : RangeBound α) : Bool :=
  match rangeCmpBoundValues boundA boundB with
  | .lt => false
  | .eq => boundA.inclusive != boundB.inclusive
  | .gt => false

/-- Whether one range ends where the other begins. -/
def rangeAdjacentInternal : RangeType α → RangeType α → Bool
  | .range l1 u1 _, .range l2 u2 _ =>
    boundsAdjacent ⟨u1, false⟩ ⟨l2, true⟩ || boundsAdjacent ⟨u2, false⟩ ⟨l1, true⟩
  | _, _ => false

/-- Whether the ranges have a common part. -/
def rangeOverlapsInternal : RangeType α → RangeType α → Bool
  | .range l1 u1 _, .range l2 u2 _ =>
    if rangeCmpBounds ⟨l1, true⟩ ⟨l2, true⟩ ≠ .lt ∧
        rangeCmpBounds ⟨l1, true⟩ ⟨u2, false⟩ ≠ .gt then true
    else if rangeCmpBounds ⟨l2, true⟩ ⟨l1, true⟩ ≠ .lt ∧
        rangeCmpBounds ⟨l2, true⟩ ⟨u1, false⟩ ≠ .gt then true
    else false
  | _, _ => false

/-- Whether the first range ends no later than the second. -/
def rangeOverleftInternal : RangeType α → RangeType α → Bool
  | .range _ u1 _, .range _ u2 _ => rangeCmpBounds ⟨u1, false⟩ ⟨u2, false⟩ ≠ .gt
  | _, _ => false

/-- The order in which ranges are sorted. -/
def rangeCompare : RangeType α → RangeType α → Ordering
  | .empty, .empty => .eq
  | .empty, .range .. => .lt
  | .range .., .empty => .gt
  | .range l1 u1 _, .range l2 u2 _ =>
    match rangeCmpBounds ⟨l1, true⟩ ⟨l2, true⟩ with
    | .eq => rangeCmpBounds ⟨u1, false⟩ ⟨u2, false⟩
    | cmp => cmp

/-! ## Set operations -/

/-- The first range without the second, if that is a range. -/
def rangeMinusInternal : RangeType α → RangeType α → Except RangeError (RangeType α)
  | .range l1 u1 h1, .range l2 u2 _ =>
    let cmpL1L2 := rangeCmpBounds ⟨l1, true⟩ ⟨l2, true⟩
    let cmpL1U2 := rangeCmpBounds ⟨l1, true⟩ ⟨u2, false⟩
    let cmpU1L2 := rangeCmpBounds ⟨u1, false⟩ ⟨l2, true⟩
    let cmpU1U2 := rangeCmpBounds ⟨u1, false⟩ ⟨u2, false⟩
    if cmpL1L2 = .lt ∧ cmpU1U2 = .gt then .error .differenceNotContiguous
    else if cmpL1U2 = .gt ∨ cmpU1L2 = .lt then .ok (.range l1 u1 h1)
    else if cmpL1L2 ≠ .lt ∧ cmpU1U2 ≠ .gt then .ok .empty
    else if cmpL1L2 ≠ .gt ∧ cmpU1L2 ≠ .lt ∧ cmpU1U2 ≠ .gt then
      makeRange ⟨l1, true⟩ ((⟨l2, true⟩ : RangeBound α).flip false)
    else if cmpL1L2 ≠ .lt ∧ cmpU1U2 ≠ .lt ∧ cmpL1U2 ≠ .gt then
      makeRange ((⟨u2, false⟩ : RangeBound α).flip true) ⟨u1, false⟩
    else .error .unexpectedCase
  | r1, _ => .ok r1

/-- The union; if `strict`, only of ranges that meet. -/
def rangeUnionInternal (r1 r2 : RangeType α) (strict : Bool) : Except RangeError (RangeType α) :=
  match r1, r2 with
  | .empty, r2 => .ok r2
  | r1, .empty => .ok r1
  | .range l1 u1 h1, .range l2 u2 h2 =>
    if strict = true ∧ rangeOverlapsInternal (.range l1 u1 h1) (.range l2 u2 h2) = false ∧
        rangeAdjacentInternal (.range l1 u1 h1) (.range l2 u2 h2) = false then
      .error .unionNotContiguous
    else
      let resultLower := if rangeCmpBounds ⟨l1, true⟩ ⟨l2, true⟩ = .lt then l1 else l2
      let resultUpper := if rangeCmpBounds ⟨u1, false⟩ ⟨u2, false⟩ = .gt then u1 else u2
      makeRange ⟨resultLower, true⟩ ⟨resultUpper, false⟩

/-- The common part of two ranges. -/
def rangeIntersectInternal (r1 r2 : RangeType α) : Except RangeError (RangeType α) :=
  match r1, r2 with
  | .range l1 u1 h1, .range l2 u2 h2 =>
    if rangeOverlapsInternal (.range l1 u1 h1) (.range l2 u2 h2) = false then .ok .empty
    else
      let resultLower := if rangeCmpBounds ⟨l1, true⟩ ⟨l2, true⟩ ≠ .lt then l1 else l2
      let resultUpper := if rangeCmpBounds ⟨u1, false⟩ ⟨u2, false⟩ ≠ .gt then u1 else u2
      makeRange ⟨resultLower, true⟩ ⟨resultUpper, false⟩
  | _, _ => .ok .empty

/-- The two parts that a range leaves of another one, if it takes something out of its middle.
Neither range should be empty. -/
def rangeSplitInternal :
    RangeType α → RangeType α → Except RangeError (Option (RangeType α × RangeType α))
  | .range l1 u1 _, .range l2 u2 _ =>
    if rangeCmpBounds ⟨l1, true⟩ ⟨l2, true⟩ = .lt ∧
        rangeCmpBounds ⟨u1, false⟩ ⟨u2, false⟩ = .gt then do
      let output1 ← makeRange ⟨l1, true⟩ ((⟨l2, true⟩ : RangeBound α).flip false)
      let output2 ← makeRange ((⟨u2, false⟩ : RangeBound α).flip true) ⟨u1, false⟩
      .ok (some (output1, output2))
    else .ok none
  | _, _ => .ok none

/-! ## Points -/

/-- A point is behind a lower bound. -/
def AboveLower (x : α) : Option (α × Bool) → Prop
  | none => True
  | some (a, true) => a ≤ x
  | some (a, false) => a < x

/-- A point is before an upper bound. -/
def BelowUpper (x : α) : Option (α × Bool) → Prop
  | none => True
  | some (a, true) => x ≤ a
  | some (a, false) => x < a

/-- A point is in a range. -/
def RangeType.Mem (x : α) : RangeType α → Prop
  | .empty => False
  | .range lower upper _ => AboveLower x lower ∧ BelowUpper x upper

end PgAutoIndex.Adt
