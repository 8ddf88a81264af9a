import PgAutoIndex.Adt.Rangetypes

/-!
# Multiranges

`multirangetypes.c`: a multirange is a list of ranges as `multirange_canonicalize` leaves them.
`multirange_canonicalize` sorts an array of ranges and merges it in place: the ranges that are kept
are written at the front of the array that is being read. Union puts two arrays one behind the
other; minus and intersection walk through both in tandem and write to a new array of fixed size.
All make their result a multirange by `multirange_canonicalize`.

An array is a list with its length as capacity (`storeRange`), or a list with the capacity beside it
(`pushRange`); a write behind its end is an error. The position `i2` in the second multirange is the
list of the ranges from it on, and `r2` is its head.
-/

namespace PgAutoIndex.Adt

variable {α : Type} [LinearOrder α]

/-- Write to a slot of an array. -/
def storeRange (ranges : List (RangeType α)) (k : ℕ) (r : RangeType α) :
    Except RangeError (List (RangeType α)) :=
  if k < ranges.length then .ok (ranges.set k r) else .error .arrayOverrun

/-- Write to the next slot of an array of some capacity. -/
def pushRange (capacity : ℕ) (ranges : List (RangeType α)) (r : RangeType α) :
    Except RangeError (List (RangeType α)) :=
  if ranges.length < capacity then .ok (ranges ++ [r]) else .error .arrayOverrun

/-! ## multirange_canonicalize -/

/-- The loop over the sorted array from slot `i` on, of which `n` slots are left; `count` slots have
been written, and the last one of them is `lastRange`. -/
def canonicalizeLoop :
    ℕ → ℕ → List (RangeType α) → ℕ → Option (RangeType α) →
    Except RangeError (List (RangeType α) × ℕ)
  | 0, _, ranges, count, _ => .ok (ranges, count)
  | n + 1, i, ranges, count, lastRange =>
    match ranges[i]? with
    | none => .error .arrayOverrun
    | some currentRange =>
      if rangeIsEmpty currentRange then canonicalizeLoop n (i + 1) ranges count lastRange
      else
        match lastRange with
        | none => do
          let ranges ← storeRange ranges count currentRange
          canonicalizeLoop n (i + 1) ranges (count + 1) (some currentRange)
        | some lastRange =>
          if rangeAdjacentInternal lastRange currentRange then do
            let merged ← rangeUnionInternal lastRange currentRange false
            let ranges ← storeRange ranges (count - 1) merged
            canonicalizeLoop n (i + 1) ranges count (some merged)
          else if rangeBeforeInternal lastRange currentRange then do
            let ranges ← storeRange ranges count currentRange
            canonicalizeLoop n (i + 1) ranges (count + 1) (some currentRange)
          else do
            let merged ← rangeUnionInternal lastRange currentRange true
            let ranges ← storeRange ranges (count - 1) merged
            canonicalizeLoop n (i + 1) ranges count (some merged)

/-- The ranges that `multirange_canonicalize` leaves in the array. -/
def multirangeCanonicalize (ranges : List (RangeType α)) :
    Except RangeError (List (RangeType α)) := do
  let (ranges, count) ← canonicalizeLoop ranges.length 0
    (ranges.mergeSort fun r1 r2 => rangeCompare r1 r2 ≠ .gt) 0 none
  .ok (ranges.take count)

/-! ## Union, minus, intersection -/

/-- The ranges of both, in canonical form. -/
def multirangeUnion (mr1 mr2 : List (RangeType α)) : Except RangeError (List (RangeType α)) :=
  if mr1 = [] then .ok mr2
  else if mr2 = [] then .ok mr1
  else multirangeCanonicalize (mr1 ++ mr2)

/-- Discard ranges of the second multirange while they are before `r1`. -/
def discardBefore (r1 : RangeType α) : List (RangeType α) → List (RangeType α)
  | [] => []
  | r2 :: rest => if rangeBeforeInternal r2 r1 then discardBefore r1 rest else r2 :: rest

/-- Subtract ranges of the second multirange from `r1` until it is gone or they have passed it. The
result is what is left of `r1`, the ranges of the second multirange that are left, and the array. -/
def minusInner (capacity : ℕ) : RangeType α → List (RangeType α) → List (RangeType α) →
    Except RangeError (RangeType α × List (RangeType α) × List (RangeType α))
  | r1, [], ranges3 => .ok (r1, [], ranges3)
  | r1, r2 :: rest, ranges3 => do
    match ← rangeSplitInternal r1 r2 with
    | some (output1, r1) =>
      let ranges3 ← pushRange capacity ranges3 output1
      minusInner capacity r1 rest ranges3
    | none =>
      if rangeOverlapsInternal r1 r2 then
        let r1 ← rangeMinusInternal r1 r2
        if rangeIsEmpty r1 || rangeBeforeInternal r1 r2 then .ok (r1, r2 :: rest, ranges3)
        else minusInner capacity r1 rest ranges3
      else .ok (r1, r2 :: rest, ranges3)

/-- The loop over the first multirange. -/
def minusOuter (capacity : ℕ) :
    List (RangeType α) → List (RangeType α) → List (RangeType α) →
    Except RangeError (List (RangeType α))
  | [], _, ranges3 => .ok ranges3
  | r1 :: ranges1, ranges2, ranges3 => do
    let (r1, ranges2, ranges3) ← minusInner capacity r1 (discardBefore r1 ranges2) ranges3
    let ranges3 ← pushRange capacity ranges3 r1
    minusOuter capacity ranges1 ranges2 ranges3

/-- What the first has and the second has not. -/
def multirangeMinus (mr1 mr2 : List (RangeType α)) : Except RangeError (List (RangeType α)) :=
  if mr1 = [] ∨ mr2 = [] then .ok mr1
  else do
    let ranges3 ← minusOuter (mr1.length + mr2.length) mr1 mr2 []
    multirangeCanonicalize ranges3

/-- Intersect `r1` with ranges of the second multirange until they have passed it. -/
def intersectInner (capacity : ℕ) (r1 : RangeType α) : List (RangeType α) → List (RangeType α) →
    Except RangeError (List (RangeType α) × List (RangeType α))
  | [], ranges3 => .ok ([], ranges3)
  | r2 :: rest, ranges3 =>
    if rangeOverlapsInternal r1 r2 then do
      let r3 ← rangeIntersectInternal r1 r2
      let ranges3 ← pushRange capacity ranges3 r3
      if rangeOverleftInternal r2 r1 then intersectInner capacity r1 rest ranges3
      else .ok (r2 :: rest, ranges3)
    else .ok (r2 :: rest, ranges3)

/-- The loop over the first multirange, which ends when there are no more ranges in the second one.
-/
def intersectOuter (capacity : ℕ) :
    List (RangeType α) → List (RangeType α) → List (RangeType α) →
    Except RangeError (List (RangeType α))
  | [], _, ranges3 => .ok ranges3
  | r1 :: ranges1, ranges2, ranges3 => do
    let (ranges2, ranges3) ← intersectInner capacity r1 (discardBefore r1 ranges2) ranges3
    if ranges2 = [] then .ok ranges3 else intersectOuter capacity ranges1 ranges2 ranges3

/-- What both have. -/
def multirangeIntersect (mr1 mr2 : List (RangeType α)) : Except RangeError (List (RangeType α)) :=
  if mr1 = [] ∨ mr2 = [] then .ok []
  else do
    let ranges3 ← intersectOuter (mr1.length + mr2.length) mr1 mr2 []
    multirangeCanonicalize ranges3

/-! ## What the results are -/

/-- A point is in one of the ranges. -/
def MemRanges (x : α) (ranges : List (RangeType α)) : Prop := ∃ r ∈ ranges, r.Mem x

/-- The ranges of a multirange: each has a point, and of two of them the earlier one is before the
later one with a point between them. So they are in increasing order, disjoint and not adjacent. -/
structure IsMultirange (ranges : List (RangeType α)) : Prop where
  nonempty : ∀ r ∈ ranges, ∃ x, r.Mem x
  separated : ranges.Pairwise fun r s => ∃ z, (∀ x, r.Mem x → x < z) ∧ ∀ y, s.Mem y → z < y

end PgAutoIndex.Adt
