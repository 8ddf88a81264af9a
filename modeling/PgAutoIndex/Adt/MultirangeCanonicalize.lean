import PgAutoIndex.Adt.Multirangetypes
import PgAutoIndex.Adt.RangetypesCuts

/-!
# multirange_canonicalize

A list of ranges none of which is empty is a list of intervals of cuts (`Covers`). The points of a
list of ranges are followed as cuts (`CutMem`), which is what the functions on ranges are described
with.

`canonicalizeLoop_spec` is the invariant of merging in place: the front of the array holds separated
intervals with the points of what has been read, and the rest of it has not been written. It rests
on the order of the array, in which no range starts before the ones that have been read; ranges that
compare equal are equal, so that it does not matter how the sort orders them.
`multirangeCanonicalize_spec` is the result.
-/

namespace PgAutoIndex.Adt

open List hiding Mem mem_append mem_cons not_mem_nil getElem?_eq_some_iff
open Intervals

variable {α : Type} [LinearOrder α]

/-! ## Ranges as intervals -/

/-- A cut is in one of the ranges. -/
def CutMem (c : Cut α) (ranges : List (RangeType α)) : Prop :=
  ∃ r ∈ ranges, ∃ i, r.interval = some i ∧ i.Mem c

/-- The ranges are not empty and have these intervals. -/
def Covers (ranges : List (RangeType α)) (is : List (HalfOpen (Cut α))) : Prop :=
  ranges.map RangeType.interval = is.map some

variable {c : Cut α} {r : RangeType α} {ranges sorted : List (RangeType α)} {i j : HalfOpen (Cut α)}
  {is : List (HalfOpen (Cut α))}

/-- A cut is in the ranges of either list. -/
theorem cutMem_append {ranges' : List (RangeType α)} :
    CutMem c (ranges ++ ranges') ↔ CutMem c ranges ∨ CutMem c ranges' := by
  unfold CutMem
  simp only [List.mem_append, or_and_right, exists_or]

/-- A cut is in a range by its interval. -/
theorem cutMem_singleton (hr : r.interval = some i) : CutMem c [r] ↔ i.Mem c := by
  constructor
  · rintro ⟨s, hs, j, hj, hc⟩
    rw [mem_singleton.mp hs, hr] at hj
    rwa [Option.some_inj.mp hj]
  · exact fun hc => ⟨r, mem_cons_self, i, hr, hc⟩

/-- The points of a list of ranges, as cuts. -/
theorem memRanges_iff {x : α} : MemRanges x ranges ↔ CutMem (cutAt x false) ranges := by
  unfold MemRanges CutMem
  simp only [mem_iff]

namespace Covers

/-- No ranges, no intervals. -/
theorem nil : Covers ([] : List (RangeType α)) [] := rfl

/-- One more range in front. -/
theorem cons (hr : r.interval = some i) (h : Covers ranges is) :
    Covers (r :: ranges) (i :: is) := by
  rw [Covers, map_cons, map_cons, hr, h]

/-- One more range at the end. -/
theorem concat (h : Covers ranges is) (hr : r.interval = some i) :
    Covers (ranges ++ [r]) (is ++ [i]) := by
  rw [Covers, map_append, map_append, h, map_singleton, map_singleton, hr]

/-- The interval of the first range. -/
theorem of_cons (h : Covers (r :: ranges) is) :
    ∃ i is', is = i :: is' ∧ r.interval = some i ∧ Covers ranges is' := by
  cases is with
  | nil => cases h
  | cons i is =>
    obtain ⟨hr, h⟩ := List.cons.inj h
    exact ⟨i, is, rfl, hr, h⟩

/-- The interval of the last range. -/
theorem of_concat (h : Covers (ranges ++ [r]) is) :
    ∃ i is', is = is' ++ [i] ∧ r.interval = some i ∧ Covers ranges is' := by
  rw [Covers, map_append, map_singleton] at h
  obtain ⟨is', last, rfl, hfront, hlast⟩ := map_eq_append_iff.mp h.symm
  obtain ⟨i, rfl, hi⟩ := map_eq_singleton_iff.mp hlast
  exact ⟨i, is', rfl, hi.symm, hfront.symm⟩

/-- The ranges have the cuts of their intervals. -/
theorem cutMem_iff (h : Covers ranges is) (c : Cut α) : CutMem c ranges ↔ Mem c is := by
  have hmap : CutMem c ranges ↔ ∃ i, some i ∈ ranges.map RangeType.interval ∧ i.Mem c := by
    simp only [CutMem, mem_map]
    grind
  rw [hmap, h]
  simp [Mem]

end Covers

/-! ## Merging in place -/

/-- Writing behind the first `k` slots makes the first `k + 1` slots. -/
theorem storeRange_eq {k : ℕ} (h : k < ranges.length) (r : RangeType α) :
    storeRange ranges k r = .ok (ranges.set k r) ∧ (ranges.set k r).take (k + 1) =
      ranges.take k ++ [r] := by
  refine ⟨if_pos h, ?_⟩
  have hlen : k < (ranges.set k r).length := by rwa [length_set]
  rw [take_succ_eq_append_getElem hlen, getElem_set_self, take_set_of_le le_rfl]

/-- What has been merged: the intervals of the slots that have been written, the last of them, and
the points. The last interval starts before those that are still to be read. -/
structure Merged (sorted out : List (RangeType α)) (i : ℕ)
    (lastRange : Option (RangeType α)) : Prop where
  intervals : ∃ is, Covers out is ∧ Separated is ∧ (∀ c, CutMem c (sorted.take i) ↔ Mem c is) ∧
    ∀ k, is.getLast? = some k → ∀ r ∈ sorted.drop i, ∀ j, r.interval = some j → k.lo ≤ j.lo
  last : lastRange = out.getLast?

/-- The points when one more range has been read. -/
theorem cutMem_take_succ {i : ℕ} (h : sorted[i]? = some r) (c : Cut α) :
    CutMem c (sorted.take (i + 1)) ↔ CutMem c (sorted.take i) ∨
    ∃ j, r.interval = some j ∧ j.Mem c := by
  obtain ⟨hlt, hget⟩ := getElem?_eq_some_iff.mp h
  rw [take_succ_eq_append_getElem hlt, hget, cutMem_append]
  simp [CutMem]

/-- What is left later was left before. -/
theorem mem_drop_of_succ {i : ℕ} (h : r ∈ sorted.drop (i + 1)) : r ∈ sorted.drop i := by
  rw [← drop_drop] at h
  exact mem_of_mem_drop h

section

variable {sorted out : List (RangeType α)} {i : ℕ} {r : RangeType α}

/-- An empty range adds nothing. -/
theorem Merged.skip {lastRange : Option (RangeType α)} (h : Merged sorted out i lastRange)
    (hi : sorted[i]? = some r) (hr : r.interval = none) :
    Merged sorted out (i + 1) lastRange := by
  obtain ⟨is, hcov, hsep, hpts, hle⟩ := h.intervals
  refine ⟨⟨is, hcov, hsep, fun c => ?_, fun k hk s hs => hle k hk s (mem_drop_of_succ hs)⟩, h.last⟩
  rw [cutMem_take_succ hi, hr, hpts]
  simp

variable {init : List (RangeType α)} {lastRange : RangeType α}

/-- A range that touches the last one is merged with it. -/
theorem Merged.merge (h : Merged sorted (init ++ [lastRange]) i (some lastRange))
    (hi : sorted[i]? = some r) (hr : r.interval = some j)
    (hnot : rangeAdjacentInternal lastRange r = true ∨ rangeBeforeInternal lastRange r = false)
    (strict : Bool) :
    ∃ merged, rangeUnionInternal lastRange r strict = .ok merged ∧
      Merged sorted (init ++ [merged]) (i + 1) (some merged) := by
  obtain ⟨is, hcov, hsep, hpts, hle⟩ := h.intervals
  obtain ⟨k, is', rfl, hlast, hinit⟩ := hcov.of_concat
  have hlo : k.lo ≤ j.lo := by
    obtain ⟨hlt, hget⟩ := getElem?_eq_some_iff.mp hi
    refine hle k (getLast?_concat ..) r ?_ j hr
    rw [drop_eq_getElem_cons hlt, hget]
    exact mem_cons_self
  have hkj : k.lo ≤ j.hi := hlo.trans j.lt.le
  -- By the sorting, it is the end of the last range that touches.
  have hjk : j.lo ≤ k.hi := by
    rcases hnot with hadj | hbefore
    · rcases (adjacent_iff hlast hr).mp hadj with heq | heq
      · exact heq.ge
      · exact absurd (hlo.trans_lt j.lt) (not_lt.mpr heq.le)
    · rw [← Bool.not_eq_true, before_iff hlast hr, not_le] at hbefore
      exact hbefore.le
  obtain ⟨merged, hunion, hm⟩ := union_eq hlast hr strict hkj hjk
  refine ⟨merged, hunion,
    ⟨is' ++ [k.hull j], hinit.concat hm, hsep.replaceLast (min_eq_left hlo), fun c => ?_,
      fun k' hk' s hs j' hj' => ?_⟩, by simp⟩
  · rw [cutMem_take_succ hi, hpts, hr, mem_append, mem_append, mem_cons, mem_cons,
      HalfOpen.mem_hull hkj hjk]
    simp only [not_mem_nil, or_false, Option.some_inj, exists_eq_left']
    rw [or_assoc]
  · rw [getLast?_concat, Option.some_inj] at hk'
    rw [← hk', show (k.hull j).lo = k.lo from min_eq_left hlo]
    exact hle k (getLast?_concat ..) s (mem_drop_of_succ hs) j' hj'

variable (hsorted : sorted.Pairwise fun r s => rangeCompare r s ≠ .gt)
include hsorted

/-- A range that is kept apart from those before it. -/
theorem Merged.append (hcov : Covers out is) (hpts : ∀ c, CutMem c (sorted.take i) ↔ Mem c is)
    (hi : sorted[i]? = some r) (hr : r.interval = some j)
    (hsep : Separated (is ++ [j])) : Merged sorted (out ++ [r]) (i + 1) (some r) := by
  refine ⟨⟨is ++ [j], hcov.concat hr, hsep, fun c => ?_, fun k hk => ?_⟩, by simp⟩
  · rw [cutMem_take_succ hi, hpts, hr, mem_append, mem_cons]
    simp [not_mem_nil]
  · rw [getLast?_concat, Option.some_inj] at hk
    rw [← hk]
    intro s hs j' hj'
    -- The range that is read and those that follow are sorted.
    obtain ⟨hlt, hget⟩ := getElem?_eq_some_iff.mp hi
    have hdrop : (sorted.drop i).Pairwise fun r s => rangeCompare r s ≠ .gt :=
      hsorted.sublist (drop_sublist i sorted)
    rw [drop_eq_getElem_cons hlt, hget] at hdrop
    exact rangeCompare_le hr hj' ((pairwise_cons.mp hdrop).1 s hs)

/-- The first range that is not empty. -/
theorem Merged.first (h : Merged sorted out i none) (hi : sorted[i]? = some r)
    (hr : r.interval = some j) : Merged sorted (out ++ [r]) (i + 1) (some r) := by
  obtain ⟨is, hcov, -, hpts, -⟩ := h.intervals
  obtain rfl : out = [] := getLast?_eq_none_iff.mp h.last.symm
  obtain rfl : is = [] := map_eq_nil_iff.mp hcov.symm
  exact .append hsorted hcov hpts hi hr (pairwise_singleton _ _)

/-- A range behind a gap. -/
theorem Merged.gap (h : Merged sorted (init ++ [lastRange]) i (some lastRange))
    (hi : sorted[i]? = some r)
    (hr : r.interval = some j) (hadj : rangeAdjacentInternal lastRange r = false)
    (hbefore : rangeBeforeInternal lastRange r = true) :
      Merged sorted (init ++ [lastRange] ++ [r]) (i + 1) (some r) := by
  obtain ⟨is, hcov, hsep, hpts, -⟩ := h.intervals
  obtain ⟨k, is', rfl, hlast, hinit⟩ := hcov.of_concat
  have hlt : k.hi < j.lo := by
    refine lt_of_le_of_ne ((before_iff hlast hr).mp hbefore) fun heq => ?_
    rw [(adjacent_iff hlast hr).mpr (.inl heq)] at hadj
    cases hadj
  exact .append hsorted hcov hpts hi hr (hsep.concat hlt)

/-- The loop has returned, with the first slots of the array as its result. -/
def Canonicalized (sorted : List (RangeType α))
    (result : Except RangeError (List (RangeType α) × ℕ)) : Prop :=
  ∃ ranges count lastRange, result = .ok (ranges, count) ∧ count ≤ sorted.length ∧
    Merged sorted (ranges.take count) sorted.length lastRange

/-- Merging in place: no write is behind the end of the array or before what is to be read, no error
is raised, and the slots that have been written have separated intervals with the points of the
array. -/
theorem canonicalizeLoop_spec {n count : ℕ} {lastRange : Option (RangeType α)}
    (hlen : i + n = sorted.length) (hlength : ranges.length = sorted.length)
    (hdrop : ranges.drop i = sorted.drop i) (hcount : count ≤ i)
    (h : Merged sorted (ranges.take count) i lastRange) :
    Canonicalized sorted (canonicalizeLoop n i ranges count lastRange) := by
  induction n generalizing i ranges count lastRange with
  | zero =>
    obtain rfl : i = sorted.length := by omega
    exact ⟨ranges, count, lastRange, rfl, hcount, h⟩
  | succ n ih =>
    have hi : i < sorted.length := by omega
    have hget : ranges[i]? = sorted[i]? := by
      have := congrArg (·[0]?) hdrop
      simpa [getElem?_drop] using this
    obtain ⟨r, hr⟩ : ∃ r, sorted[i]? = some r := ⟨sorted[i], getElem?_eq_getElem hi⟩
    -- A write to a slot that has been read leaves the rest of the array alone.
    have hset : ∀ (k : ℕ) (s : RangeType α), k ≤ i →
        (ranges.set k s).drop (i + 1) = sorted.drop (i + 1) := by
      intro k s hk
      rw [drop_set_of_lt (by omega), ← drop_drop, hdrop, drop_drop]
    have hnext : ranges.drop (i + 1) = sorted.drop (i + 1) := by rw [← drop_drop, hdrop, drop_drop]
    rw [canonicalizeLoop, hget, hr]
    dsimp only
    by_cases hempty : rangeIsEmpty r = true
    · rw [if_pos hempty]
      exact ih (by omega) hlength hnext (by omega) (h.skip hr (rangeIsEmpty_iff.mp hempty))
    rw [if_neg hempty]
    obtain ⟨j, hj⟩ : ∃ j, r.interval = some j :=
      Option.ne_none_iff_exists'.mp fun hnone => hempty (rangeIsEmpty_iff.mpr hnone)
    -- A write behind the slots that have been written so far.
    have hpush : Merged sorted (ranges.take count ++ [r]) (i + 1) (some r) →
      Canonicalized sorted (do
        let ranges ← storeRange ranges count r
        canonicalizeLoop n (i + 1) ranges (count + 1) (some r)) := by
      intro hm
      obtain ⟨hstore, htake⟩ := storeRange_eq (show count < ranges.length by omega) r
      rw [hstore]
      exact ih (by omega) (by rw [length_set, hlength]) (hset count r hcount) (by omega)
        (by rwa [htake])
    cases lastRange with
    | none => exact hpush (h.first hsorted hr hj)
    | some lastRange =>
      obtain ⟨init, hinit⟩ : ∃ init, ranges.take count = init ++ [lastRange] :=
        ⟨_, getLast?_eq_some_iff.mp h.last.symm |>.choose_spec⟩
      have hpos : 0 < count := by
        by_contra hzero
        rw [Nat.eq_zero_of_not_pos hzero, take_zero] at hinit
        cases init <;> cases hinit
      have hfront : ranges.take (count - 1) = init := by
        have := congrArg (take (count - 1)) hinit
        have hlen' := congrArg length hinit
        rw [length_take, length_append, length_singleton] at hlen'
        rwa [take_take, Nat.min_eq_left (by omega), take_left' (by omega)] at this
      -- The last slot that has been written is written again.
      have hmerge : ∀ strict, rangeAdjacentInternal lastRange r = true ∨
        rangeBeforeInternal lastRange r = false → Canonicalized sorted (do
          let merged ← rangeUnionInternal lastRange r strict
          let ranges ← storeRange ranges (count - 1) merged
          canonicalizeLoop n (i + 1) ranges count (some merged)) := by
        intro strict hnot
        obtain ⟨merged, hunion, hm⟩ := (hinit ▸ h).merge hr hj hnot strict
        obtain ⟨hstore, htake⟩ := storeRange_eq (show count - 1 < ranges.length by omega) merged
        rw [Nat.sub_add_cancel hpos, hfront] at htake
        rw [hunion]
        simp only [bind, Except.bind]
        rw [hstore]
        exact ih (by omega) (by rw [length_set, hlength]) (hset _ merged (by omega)) (by omega)
          (by rwa [htake])
      dsimp only
      by_cases hadj : rangeAdjacentInternal lastRange r = true
      · rw [if_pos hadj]
        exact hmerge false (.inl hadj)
      rw [if_neg hadj]
      split_ifs with hbefore
      · refine hpush ?_
        rw [hinit]
        exact (hinit ▸ h).gap hsorted hr hj (by simpa using hadj) hbefore
      · exact hmerge true (.inr (by simpa using hbefore))

end

/-! ## multirange_canonicalize -/

/-- What ranges are sorted by: the start of the interval and then its end, empty ranges first. -/
def RangeType.sortKey : RangeType α → WithBot (Cut α ×ₗ Cut α)
  | .empty => ⊥
  | .range l u _ => (toLex (lowerCut l, upperCut u) : Cut α ×ₗ Cut α)

/-- Ranges are sorted by their keys. -/
theorem rangeCompare_ne_gt_iff {s : RangeType α} :
    rangeCompare r s ≠ .gt ↔ r.sortKey ≤ s.sortKey := by
  cases r with
  | empty => cases s <;> simp [rangeCompare, RangeType.sortKey]
  | range l u h =>
    cases s with
    | empty => simp [rangeCompare, RangeType.sortKey]
    | range l' u' h' =>
      rw [RangeType.sortKey, RangeType.sortKey, WithBot.coe_le_coe, Prod.Lex.toLex_le_toLex,
        rangeCompare]
      cases hcmp : rangeCmpBounds ⟨l, true⟩ ⟨l', true⟩ with
      | lt => simp [(cmp_lower_lower l l').mp hcmp]
      | gt =>
        have hlt := (cmp_lower_lower_gt l l').mp hcmp
        simp [hlt.not_gt, hlt.ne']
      | eq =>
        have hle : ¬ lowerCut l < lowerCut l' := fun hlt => by
          rw [(cmp_lower_lower l l').mpr hlt] at hcmp; cases hcmp
        have hge : ¬ lowerCut l' < lowerCut l := fun hlt => by
          rw [(cmp_lower_lower_gt l l').mpr hlt] at hcmp; cases hcmp
        have heq : lowerCut l = lowerCut l' := le_antisymm (not_lt.mp hge) (not_lt.mp hle)
        rw [ne_eq, cmp_upper_upper_gt, not_lt]
        simp [heq]

/-- The sort puts the ranges in order. -/
theorem pairwise_sorted (ranges : List (RangeType α)) :
    (ranges.mergeSort fun r1 r2 => rangeCompare r1 r2 ≠ .gt).Pairwise
      fun r s => rangeCompare r s ≠ .gt := by
  have hpairwise :=
    @pairwise_mergeSort _
      (fun r1 r2 : RangeType α => decide (rangeCompare r1 r2 ≠ .gt)) ?_ ?_ ranges
  · exact hpairwise.imp of_decide_eq_true
  · intro a b c hab hbc
    simp only [decide_eq_true_eq, rangeCompare_ne_gt_iff] at hab hbc ⊢
    exact hab.trans hbc
  · intro a b
    simp only [Bool.or_eq_true, decide_eq_true_eq, rangeCompare_ne_gt_iff]
    exact le_total _ _

/-- `multirange_canonicalize` returns separated ranges with the same points, at most as many as it
was given. -/
theorem multirangeCanonicalize_spec (ranges : List (RangeType α)) :
    ∃ l is, multirangeCanonicalize ranges = .ok l ∧ l.length ≤ ranges.length ∧
    Covers l is ∧ Separated is ∧ ∀ c, CutMem c ranges ↔ Mem c is := by
  have hsorted := pairwise_sorted ranges
  have hperm := mergeSort_perm ranges fun r1 r2 => rangeCompare r1 r2 ≠ .gt
  generalize hs : (ranges.mergeSort fun r1 r2 => rangeCompare r1 r2 ≠ .gt) = sorted at hsorted hperm
  have hstart : Merged sorted (sorted.take 0) 0 none := by
    refine ⟨⟨[], Covers.nil, List.Pairwise.nil, fun c => ?_, nofun⟩, rfl⟩
    exact iff_of_false (fun ⟨r, hr, _⟩ => List.not_mem_nil hr) (not_mem_nil c)
  obtain ⟨ranges', count, lastRange, hloop, hcount, hmerged⟩ :=
    canonicalizeLoop_spec hsorted (zero_add _) rfl rfl le_rfl hstart
  obtain ⟨is, hcov, hsep, hpts, -⟩ := hmerged.intervals
  refine ⟨ranges'.take count, is, ?_, ?_, hcov, hsep, fun c => ?_⟩
  · unfold multirangeCanonicalize
    rw [hs, ← hperm.length_eq, hloop]
    rfl
  · rw [← hperm.length_eq, length_take]
    omega
  · rw [← hpts, take_length]
    unfold CutMem
    simp only [hperm.mem_iff]

end PgAutoIndex.Adt
