import Mathlib.Algebra.Order.Field.Basic
import Mathlib.Tactic.NormNum
import PgAutoIndex.Adt.MultirangeCanonicalize

/-!
# The set algebra of multiranges

The loops of minus and intersection are described by what they take from the second list: the ranges
that are dropped from it end before what is left of the first list starts. Each of them writes at
most one range for a range that it drops and one for each range of the first list, which is why the
array is large enough.

In a dense order the lists that `multirange_canonicalize` leaves are the lists of separated
intervals (`isMultirange_iff`), since there is a value in each interval and in each gap; so they are
determined by their points.
-/

namespace PgAutoIndex.Adt

open List hiding Mem mem_append mem_cons
open Intervals

variable {α : Type} [LinearOrder α]

/-! ## Discarding ranges -/

variable {c : Cut α} {i j : HalfOpen (Cut α)} {is js dropped : List (HalfOpen (Cut α))}
  {r1 : RangeType α}
  {mr1 mr2 ranges ranges1 ranges2 : List (RangeType α)}

/-- The ranges that are discarded end before `r1` starts, the others end behind its start. -/
theorem discardBefore_spec (hr1 : r1.interval = some i) (h : Covers ranges2 js)
    (hsep : Separated js) :
    ∃ dropped js', js = dropped ++ js' ∧ Covers (discardBefore r1 ranges2) js' ∧ Separated js' ∧
      (discardBefore r1 ranges2).length ≤ ranges2.length ∧ (∀ d ∈ dropped, d.hi ≤ i.lo) ∧
      ∀ j ∈ js', i.lo < j.hi := by
  induction ranges2 generalizing js with
  | nil =>
    exact ⟨[], js, rfl, h, hsep, le_rfl, nofun, fun j hj => by
      rw [map_eq_nil_iff.mp h.symm] at hj
      cases hj⟩
  | cons r2 rest ih =>
    obtain ⟨j, js', rfl, hr2, h⟩ := h.of_cons
    rw [discardBefore]
    split_ifs with hbefore
    · obtain ⟨dropped, js'', rfl, hcov, hsep', hlen, hdropped, hleft⟩ :=
        ih h (pairwise_cons.mp hsep).2
      refine ⟨j :: dropped, js'', rfl, hcov, hsep', by rw [length_cons]; omega, ?_, hleft⟩
      exact forall_mem_cons.mpr ⟨(before_iff hr2 hr1).mp hbefore, hdropped⟩
    · have hlt : i.lo < j.hi := not_le.mp fun hle => hbefore ((before_iff hr2 hr1).mpr hle)
      refine ⟨[], j :: js', rfl, h.cons hr2, hsep, le_rfl, nofun,
        forall_mem_cons.mpr ⟨hlt, fun k hk => ?_⟩⟩
      exact hlt.trans (((pairwise_cons.mp hsep).1 k hk).trans k.lt)

/-- Ranges that end before a point do not have it. -/
theorem mem_append_of_hi_le (h : ∀ d ∈ dropped, d.hi ≤ c) : Mem c (dropped ++ js) ↔ Mem c js := by
  rw [mem_append]
  refine or_iff_right ?_
  rintro ⟨d, hd, -, hlt⟩
  exact absurd hlt (not_lt.mpr (h d hd))

/-- What is left of the second list, when the ranges dropped from it end before `c`. -/
def Rest (js : List (HalfOpen (Cut α))) (ranges : List (RangeType α)) (c : Cut α) : Prop :=
  ∃ dropped js', js = dropped ++ js' ∧ Covers ranges js' ∧ ∀ d ∈ dropped, d.hi ≤ c

/-- Nothing is passed over yet. -/
theorem Covers.rest (h : Covers ranges js) : Rest js ranges c :=
  ⟨[], js, rfl, h, nofun⟩

/-- An interval before the cut is passed over. -/
theorem Rest.cons (h : Rest js ranges c) (hj : j.hi ≤ c) : Rest (j :: js) ranges c := by
  obtain ⟨dropped, js', rfl, hcov, hdropped⟩ := h
  exact ⟨j :: dropped, js', rfl, hcov, forall_mem_cons.mpr ⟨hj, hdropped⟩⟩

/-- There is room. -/
theorem pushRange_eq {capacity : ℕ} (h : ranges.length < capacity) (r : RangeType α) :
    pushRange capacity ranges r = .ok (ranges ++ [r]) := if_pos h

/-! ## The inner loops -/

section Inner

variable (capacity : ℕ) (ranges3 : List (RangeType α)) (hcov : Covers ranges2 js)
  (hsep : Separated js) (hr1 : r1.interval = some i)
  (hend : ∀ j ∈ js, i.lo < j.hi) (hcap : ranges3.length + ranges2.length < capacity)
include hcov hsep hr1 hend hcap

/-- What the inner loop of minus leaves: the points of `r1` that are not in the second multirange.
The ranges that it drops from that end before `r1` does. -/
theorem minusInner_spec :
    ∃ r1' ranges2' new, minusInner capacity r1 ranges2 ranges3 =
      .ok (r1', ranges2', ranges3 ++ new) ∧ new.length + ranges2'.length ≤ ranges2.length ∧
      Rest js ranges2' i.hi ∧ ∀ c, CutMem c (new ++ [r1']) ↔ i.Mem c ∧ ¬ Mem c js := by
  induction ranges2 generalizing js r1 i ranges3 with
  | nil =>
    obtain rfl : js = [] := map_eq_nil_iff.mp hcov.symm
    refine ⟨r1, [], [], by rw [minusInner, append_nil], le_rfl, hcov.rest, fun c => ?_⟩
    rw [nil_append, cutMem_singleton hr1, and_iff_left (not_mem_nil c)]
  | cons r2 rest ih =>
    obtain ⟨j, js, rfl, hr2, hrest⟩ := hcov.of_cons
    obtain ⟨hgap, hsep'⟩ := pairwise_cons.mp hsep
    have hij : i.lo < j.hi := hend j mem_cons_self
    have hjlt := j.lt
    have hend' : ∀ k ∈ js, j.hi < k.hi := fun k hk => (hgap k hk).trans k.lt
    rw [length_cons] at hcap
    simp only [not_mem_cons_iff hgap]
    rw [minusInner]
    by_cases hsplit : i.lo < j.lo ∧ j.hi < i.hi
    · -- The range takes something out of the middle.
      obtain ⟨hlo, hhi⟩ := hsplit
      obtain ⟨output1, left, heq, ho, hl⟩ := split_eq hr1 hr2 hlo hhi
      obtain ⟨r1', ranges2', new, hrun, hlen, hleft, hpts⟩ :=
        ih (ranges3 ++ [output1]) hrest hsep' hl hend' (by
        rw [length_append, length_singleton]
        omega)
      rw [heq]
      simp only [bind, Except.bind]
      rw [pushRange_eq (by omega)]
      dsimp only
      refine ⟨r1', ranges2', output1 :: new, by rw [hrun, append_assoc]; rfl,
        by rw [length_cons, length_cons]; omega,
        hleft.cons hhi.le, fun c => ?_⟩
      rw [cons_append, ← singleton_append, cutMem_append, cutMem_singleton ho, hpts]
      constructor
      · rintro (⟨h1, h2⟩ | ⟨⟨h1, h2⟩, h3⟩)
        · exact ⟨⟨h1, by order⟩, .inl h2⟩
        · exact ⟨⟨by order, h2⟩, .inr ⟨h1, h3⟩⟩
      · rintro ⟨⟨h1, h2⟩, h3 | ⟨h3, h4⟩⟩
        · exact .inl ⟨h1, h3⟩
        · exact .inr ⟨⟨h3, h2⟩, h4⟩
    rw [split_none hr1 hr2 hsplit]
    simp only [bind, Except.bind]
    by_cases hover : rangeOverlapsInternal r1 r2 = true
    · rw [if_pos hover]
      have hji := ((overlaps_iff hr1 hr2).mp hover).2
      rcases minus_eq hr1 hr2 hsplit hij hji with ⟨hlo, hhi, heq⟩ | ⟨hlo, r1', hhi, heq, hr1'⟩ |
        ⟨hhi, r1', hlo, heq, hr1'⟩
      · -- Nothing is left.
        rw [heq]
        refine ⟨.empty, r2 :: rest, [], by simp [rangeIsEmpty], by simp, hcov.rest,
          fun c => iff_of_false ?_ ?_⟩
        · rintro ⟨r, hr, k, hk, -⟩
          rw [mem_singleton.mp hr] at hk
          cases hk
        · rintro ⟨⟨h1, h2⟩, h3 | ⟨h3, -⟩⟩ <;> order
      · -- What is left is before the range, which may also take something from the next one.
        have hbefore : rangeBeforeInternal r1' r2 = true := (before_iff hr1' hr2).mpr le_rfl
        rw [heq]
        refine ⟨r1', r2 :: rest, [], by simp [hbefore], by simp, hcov.rest, fun c => ?_⟩
        rw [nil_append, cutMem_singleton hr1']
        constructor
        · rintro ⟨h1, h2⟩
          exact ⟨⟨h1, by order⟩, .inl h2⟩
        · rintro ⟨⟨h1, h2⟩, h3 | ⟨h3, -⟩⟩
          · exact ⟨h1, h3⟩
          · order
      · -- What is left is behind the range, which is done.
        have hempty : rangeIsEmpty r1' = false := by
          rw [← Bool.not_eq_true, rangeIsEmpty_iff, hr1']
          exact Option.some_ne_none _
        have hbefore : rangeBeforeInternal r1' r2 = false := by
          rw [← Bool.not_eq_true, before_iff hr1' hr2, not_le]
          exact hji
        obtain ⟨r1'', ranges2', new, hrun, hlen, hleft, hpts⟩ :=
          ih ranges3 hrest hsep' hr1' hend' (by omega)
        rw [heq]
        refine ⟨r1'', ranges2', new, by simp [hempty, hbefore, hrun], by rw [length_cons]; omega,
          hleft.cons hhi.le, fun c => ?_⟩
        rw [hpts]
        constructor
        · rintro ⟨⟨h1, h2⟩, h3⟩
          exact ⟨⟨by order, h2⟩, .inr ⟨h1, h3⟩⟩
        · rintro ⟨⟨h1, h2⟩, h3 | ⟨h3, h4⟩⟩
          · order
          · exact ⟨⟨h3, h2⟩, h4⟩
    · -- The ranges that are left are behind `r1`.
      have hij' : i.hi ≤ j.lo := not_lt.mp fun hlt => hover ((overlaps_iff hr1 hr2).mpr ⟨hij, hlt⟩)
      rw [if_neg hover]
      refine ⟨r1, r2 :: rest, [], by rw [append_nil], by simp, hcov.rest, fun c => ?_⟩
      rw [nil_append, cutMem_singleton hr1]
      exact (and_iff_left_of_imp fun hc => .inl (hc.2.trans_le hij')).symm

/-- What the inner loop of intersection writes: the points of `r1` that are in the second
multirange. -/
theorem intersectInner_spec :
    ∃ ranges2' new, intersectInner capacity r1 ranges2 ranges3 = .ok (ranges2', ranges3 ++ new) ∧
      new.length + ranges2'.length ≤ ranges2.length + 1 ∧
      Rest js ranges2' i.hi ∧ ∀ c, CutMem c new ↔ i.Mem c ∧ Mem c js := by
  induction ranges2 generalizing js ranges3 with
  | nil =>
    obtain rfl : js = [] := map_eq_nil_iff.mp hcov.symm
    refine ⟨[], [], by rw [intersectInner, append_nil], Nat.zero_le _, hcov.rest, fun c => ?_⟩
    exact iff_of_false (fun ⟨r, hr, _⟩ => not_mem_nil hr) fun hand => not_mem_nil c hand.2
  | cons r2 rest ih =>
    obtain ⟨j, js, rfl, hr2, hrest⟩ := hcov.of_cons
    obtain ⟨hgap, hsep'⟩ := pairwise_cons.mp hsep
    have hlater : ∀ {c}, Mem c js → j.hi < c := fun hc => le_of_mem hgap hc
    have hij : i.lo < j.hi := hend j mem_cons_self
    rw [length_cons] at hcap
    rw [intersectInner]
    by_cases hover : rangeOverlapsInternal r1 r2 = true
    · have hji := ((overlaps_iff hr1 hr2).mp hover).2
      obtain ⟨r3, heq, hr3⟩ := intersect_eq hr1 hr2 hij hji
      rw [if_pos hover, heq]
      simp only [bind, Except.bind]
      rw [pushRange_eq (by omega)]
      dsimp only
      by_cases hleft : rangeOverleftInternal r2 r1 = true
      · -- The range of the second multirange is used up.
        rw [if_pos hleft]
        obtain ⟨ranges2', new, hrun, hlen, hkept, hpts⟩ :=
          ih (ranges3 ++ [r3]) hrest hsep' (fun k hk => hend k (mem_cons_of_mem j hk)) (by
          rw [length_append, length_singleton]
          omega)
        refine ⟨ranges2', r3 :: new, by rw [hrun, append_assoc]; rfl,
          by rw [length_cons, length_cons]; omega,
          hkept.cons ((overleft_iff hr2 hr1).mp hleft), fun c => ?_⟩
        rw [← singleton_append, cutMem_append, cutMem_singleton hr3, hpts,
          HalfOpen.mem_inter, mem_cons]
        tauto
      · -- The range goes on behind `r1`, and those that follow are behind `r1`.
        have hlt : i.hi < j.hi := not_le.mp fun hle => hleft ((overleft_iff hr2 hr1).mpr hle)
        rw [if_neg hleft]
        refine ⟨r2 :: rest, [r3], rfl, by rw [length_singleton]; omega, hcov.rest, fun c => ?_⟩
        rw [cutMem_singleton hr3, HalfOpen.mem_inter, mem_cons]
        refine and_congr_right fun hc => (or_iff_left fun h => ?_).symm
        exact absurd (hlt.trans (hlater h)) (not_lt.mpr hc.2.le)
    · have hij' : i.hi ≤ j.lo := not_lt.mp fun hlt => hover ((overlaps_iff hr1 hr2).mpr ⟨hij, hlt⟩)
      rw [if_neg hover]
      refine ⟨r2 :: rest, [], by rw [append_nil], by simp, hcov.rest, fun c =>
        iff_of_false (fun ⟨r, hr, _⟩ => not_mem_nil hr) ?_⟩
      exact fun hand => (not_mem_cons_iff hgap).mpr (.inl (hand.1.2.trans_le hij')) hand.2

end Inner

/-! ## The loops over the first multirange -/

section Outer

variable (capacity : ℕ) (ranges3 : List (RangeType α)) (hcov : Covers ranges1 is)
  (hsep : Separated is) (hcov2 : Covers ranges2 js) (hsep2 : Separated js)
  (hcap : ranges3.length + ranges1.length + ranges2.length ≤ capacity)
include hcov hsep hcov2 hsep2 hcap

/-- A loop over the first multirange that writes for each range its points that `F` selects by the
second one. -/
theorem outer_spec (F : Prop → Prop)
    (outer : List (RangeType α) → List (RangeType α) → List (RangeType α) →
      Except RangeError (List (RangeType α)))
    (hnil : ∀ ranges2 ranges3, outer [] ranges2 ranges3 = .ok ranges3)
    (hcons : ∀ {r1 i ranges2 js} (ranges1 ranges3), Covers (discardBefore r1 ranges2) js →
      Separated js → r1.interval = some i → (∀ j ∈ js, i.lo < j.hi) →
      ranges3.length + (discardBefore r1 ranges2).length < capacity →
      ∃ ranges2' new, outer (r1 :: ranges1) ranges2 ranges3 =
        outer ranges1 ranges2' (ranges3 ++ new) ∧
        new.length + ranges2'.length ≤ (discardBefore r1 ranges2).length + 1 ∧
        Rest js ranges2' i.hi ∧ ∀ c, CutMem c new ↔ i.Mem c ∧ F (Mem c js)) :
    ∃ result, outer ranges1 ranges2 ranges3 = .ok result ∧ ∀ c, CutMem c result ↔
      CutMem c ranges3 ∨ (Mem c is ∧ F (Mem c js)) := by
  induction ranges1 generalizing is ranges2 js ranges3 with
  | nil =>
    obtain rfl : is = [] := map_eq_nil_iff.mp hcov.symm
    exact ⟨ranges3, hnil _ _, fun c => (or_iff_left fun hand => not_mem_nil c hand.1).symm⟩
  | cons r1 ranges1 ih =>
    obtain ⟨i, is, rfl, hr1, hcov⟩ := hcov.of_cons
    obtain ⟨hgap, hsep'⟩ := pairwise_cons.mp hsep
    rw [length_cons] at hcap
    obtain ⟨dropped, js', rfl, hcov2', hsep2', hlen, hdropped, hend⟩ :=
      discardBefore_spec hr1 hcov2 hsep2
    obtain ⟨ranges2', new, hrun, hnew, ⟨dropped', js'', rfl, hcov2'', hdropped'⟩, hpts⟩ :=
      hcons ranges1 ranges3 hcov2' hsep2' hr1 hend (by omega)
    obtain ⟨result, hresult, hres⟩ :=
      ih (ranges3 ++ new) hcov hsep' hcov2'' (pairwise_append.mp hsep2').2.1 (by
      rw [length_append]
      omega)
    refine ⟨result, hrun.trans hresult, fun c => ?_⟩
    rw [hres, cutMem_append, hpts, or_assoc, mem_cons, or_and_right]
    refine or_congr_right (or_congr (and_congr_right fun hc => ?_) (and_congr_right fun hc => ?_))
    · -- What was dropped before `r1` does not matter to its points.
      rw [mem_append_of_hi_le fun d hd => (hdropped d hd).trans hc.1]
    · -- Nor does what was dropped so far matter to the points of the ranges that follow.
      have hlt : i.hi < c := le_of_mem hgap hc
      rw [mem_append_of_hi_le fun d hd => ((hdropped d hd).trans i.lt.le).trans hlt.le,
        mem_append_of_hi_le fun d hd => (hdropped' d hd).trans hlt.le]

/-- The loop takes the difference. -/
theorem minusOuter_spec :
    ∃ result, minusOuter capacity ranges1 ranges2 ranges3 = .ok result ∧ ∀ c, CutMem c result ↔
      CutMem c ranges3 ∨ (Mem c is ∧ ¬ Mem c js) := by
  refine outer_spec capacity ranges3 hcov hsep hcov2 hsep2 hcap Not _ (fun _ _ => rfl)
    fun ranges1 ranges3 hcov hsep hr1 hend hcap => ?_
  obtain ⟨r1', ranges2', new, hrun, hnew, hrest, hpts⟩ :=
    minusInner_spec capacity ranges3 hcov hsep hr1 hend hcap
  refine ⟨ranges2', new ++ [r1'], ?_, by rw [length_append, length_singleton]; omega, hrest, hpts⟩
  rw [minusOuter, hrun]
  simp only [bind, Except.bind]
  rw [pushRange_eq (by rw [length_append]; omega), append_assoc]

/-- The loop takes the intersection. -/
theorem intersectOuter_spec :
    ∃ result, intersectOuter capacity ranges1 ranges2 ranges3 = .ok result ∧ ∀ c, CutMem c result ↔
      CutMem c ranges3 ∨ (Mem c is ∧ Mem c js) := by
  refine outer_spec capacity ranges3 hcov hsep hcov2 hsep2 hcap id _ (fun _ _ => rfl)
    fun ranges1 ranges3 hcov hsep hr1 hend hcap => ?_
  obtain ⟨ranges2', new, hrun, hnew, hrest, hpts⟩ :=
    intersectInner_spec capacity ranges3 hcov hsep hr1 hend hcap
  refine ⟨ranges2', new, ?_, hnew, hrest, hpts⟩
  rw [intersectOuter, hrun]
  simp only [bind, Except.bind]
  split_ifs with hnil
  · -- There is nothing left to intersect with.
    rw [hnil]
    cases ranges1 <;> rfl
  · rfl

end Outer

/-! ## Multiranges -/

/-- No ranges, no points. -/
theorem not_memRanges_nil (x : α) : ¬ MemRanges x [] := fun ⟨_, hr, _⟩ => not_mem_nil hr

section Dense

variable [DenselyOrdered α] [NoMinOrder α] [NoMaxOrder α] [Nonempty α]

/-- An interval is followed by a gap before the next one exactly if there is a point between their
points. -/
theorem gap_iff {j : HalfOpen (Cut α)} :
    i.hi < j.lo ↔ ∃ z : α, (∀ x, i.Mem (cutAt x false) → x < z) ∧ ∀ y, j.Mem (cutAt y false) →
    z < y := by
  constructor
  · intro hlt
    obtain ⟨p, ⟨z, rfl⟩, hle, hlt⟩ := exists_cutAt _ _ hlt
    refine ⟨z, fun x hx => ?_, fun y hy => ?_⟩
    · have hxz : cutAt x false < cutAt z false := hx.2.trans_le hle
      simpa [cutAt_lt] using hxz
    · have hzy : cutAt z false < cutAt y false := hlt.trans_le hy.1
      simpa [cutAt_lt] using hzy
  · rintro ⟨z, hbelow, habove⟩
    -- The first interval ends before `z`, since otherwise it has a point from `z` on.
    have hi : i.hi ≤ cutAt z false := by
      by_contra hlt
      obtain ⟨p, ⟨x, rfl⟩, hle, hlt'⟩ :=
        exists_cutAt (max i.lo (cutAt z false)) i.hi (max_lt i.lt (not_le.mp hlt))
      have hxz := hbelow x ⟨(le_max_left _ _).trans hle, hlt'⟩
      have hzx : cutAt z false ≤ cutAt x false := (le_max_right _ _).trans hle
      exact absurd hzx (not_le.mpr (cutAt_lt.mpr (.inl hxz)))
    have hj : cutAt z true ≤ j.lo := by
      by_contra hlt
      obtain ⟨p, ⟨y, rfl⟩, hle, hlt'⟩ :=
        exists_cutAt j.lo (min (cutAt z true) j.hi) (lt_min (not_le.mp hlt) j.lt)
      have hzy := habove y ⟨hle, hlt'.trans_le (min_le_right _ _)⟩
      have hyz : cutAt y false < cutAt z true := hlt'.trans_le (min_le_left _ _)
      exact absurd hyz (not_lt.mpr (cutAt_le.mpr (.inl hzy)))
    exact hi.trans_lt ((cutAt_lt.mpr (.inr ⟨rfl, rfl⟩)).trans_le hj)

/-- The intervals are separated exactly if there is a point between the points of any two ranges. -/
theorem Covers.separated_iff {is : List (HalfOpen (Cut α))} (h : Covers ranges is) :
    Separated is ↔ ranges.Pairwise fun r s =>
      ∃ z, (∀ x, r.Mem x → x < z) ∧ ∀ y, s.Mem y → z < y := by
  have hranges : (ranges.Pairwise fun r s => ∃ z, (∀ x, r.Mem x → x < z) ∧ ∀ y, s.Mem y → z < y) ↔
      (ranges.map RangeType.interval).Pairwise fun o o' =>
        ∃ z, (∀ x, (∃ i, o = some i ∧ i.Mem (cutAt x false)) → x < z) ∧
          ∀ y, (∃ j, o' = some j ∧ j.Mem (cutAt y false)) → z < y := by
    rw [pairwise_map]
    simp only [mem_iff]
  rw [hranges, h, pairwise_map]
  unfold Separated
  simp only [gap_iff, Option.some_inj, exists_eq_left']

/-- The lists as `multirange_canonicalize` leaves them are those of separated intervals. -/
theorem isMultirange_iff : IsMultirange ranges ↔ ∃ is, Covers ranges is ∧ Separated is := by
  constructor
  · rintro ⟨hnonempty, hsep⟩
    have hcovers : ∃ is, Covers ranges is := by
      clear hsep
      induction ranges with
      | nil => exact ⟨[], Covers.nil⟩
      | cons r ranges ih =>
        obtain ⟨x, hx⟩ := hnonempty r mem_cons_self
        obtain ⟨i, hr, -⟩ := mem_iff.mp hx
        obtain ⟨is, h⟩ := ih fun s hs => hnonempty s (mem_cons_of_mem r hs)
        exact ⟨i :: is, h.cons hr⟩
    obtain ⟨is, h⟩ := hcovers
    exact ⟨is, h, h.separated_iff.mpr hsep⟩
  · rintro ⟨is, h, hsep⟩
    refine ⟨fun r hr => ?_, h.separated_iff.mp hsep⟩
    have hmem : r.interval ∈ is.map some := h ▸ mem_map_of_mem hr
    obtain ⟨i, -, hi⟩ := mem_map.mp hmem
    obtain ⟨p, ⟨x, rfl⟩, hle, hlt⟩ := exists_cutAt i.lo i.hi i.lt
    exact ⟨x, mem_iff.mpr ⟨i, hi.symm, hle, hlt⟩⟩

/-- `multirange_canonicalize` makes a multirange of the points. -/
theorem multirangeCanonicalize_isMultirange (ranges : List (RangeType α)) :
    ∃ l, multirangeCanonicalize ranges = .ok l ∧ l.length ≤ ranges.length ∧
    IsMultirange l ∧ ∀ x, MemRanges x l ↔ MemRanges x ranges := by
  obtain ⟨l, is, hl, hlen, hcov, hsep, hpts⟩ := multirangeCanonicalize_spec ranges
  refine ⟨l, hl, hlen, isMultirange_iff.mpr ⟨is, hcov, hsep⟩, fun x => ?_⟩
  rw [memRanges_iff, memRanges_iff, hcov.cutMem_iff, hpts]

/-- A multirange is determined by its points. -/
theorem IsMultirange.eq_of_points {l l' : List (RangeType α)} (h : IsMultirange l)
    (h' : IsMultirange l') (hsame : ∀ x, MemRanges x l ↔ MemRanges x l') :
    l = l' := by
  obtain ⟨is, hcov, hsep⟩ := isMultirange_iff.mp h
  obtain ⟨js, hcov', hsep'⟩ := isMultirange_iff.mp h'
  have his : is = js := by
    refine Separated.eq_of_points (P :=
      fun p => ∃ x : α, p = cutAt x false) exists_cutAt hsep hsep' ?_
    rintro p ⟨x, rfl⟩
    rw [← hcov.cutMem_iff, ← hcov'.cutMem_iff, ← memRanges_iff, ← memRanges_iff, hsame]
  -- Lists of ranges with the same intervals are the same.
  exact map_injective_iff.mpr interval_injective (hcov.trans (his ▸ hcov').symm)

variable (h1 : IsMultirange mr1) (h2 : IsMultirange mr2)
include h1 h2

/-- What an operation on multiranges writes becomes a multirange with the points of the operation on
sets. -/
theorem canonicalize_points (F : Prop → Prop) {run : Except RangeError (List (RangeType α))}
    (h : ∀ {is js}, Covers mr1 is → Separated is → Covers mr2 js → Separated js →
      ∃ result, run = .ok result ∧ ∀ c, CutMem c result ↔ CutMem c [] ∨ (Mem c is ∧ F (Mem c js))) :
    ∃ l, run >>= multirangeCanonicalize = .ok l ∧ IsMultirange l ∧ ∀ x, MemRanges x l ↔
      MemRanges x mr1 ∧ F (MemRanges x mr2) := by
  obtain ⟨is, hcov1, hsep1⟩ := isMultirange_iff.mp h1
  obtain ⟨js, hcov2, hsep2⟩ := isMultirange_iff.mp h2
  obtain ⟨result, rfl, hrun⟩ := h hcov1 hsep1 hcov2 hsep2
  obtain ⟨l, hl, -, hmulti, hpts⟩ := multirangeCanonicalize_isMultirange result
  refine ⟨l, hl, hmulti, fun x => ?_⟩
  rw [hpts, memRanges_iff, memRanges_iff, memRanges_iff, hrun, hcov1.cutMem_iff, hcov2.cutMem_iff]
  exact or_iff_right fun hmem => not_memRanges_nil x (memRanges_iff.mpr hmem)

/-- The union of multiranges. -/
theorem multirangeUnion_isMultirange :
    ∃ l, multirangeUnion mr1 mr2 = .ok l ∧ IsMultirange l ∧ ∀ x, MemRanges x l ↔
      MemRanges x mr1 ∨ MemRanges x mr2 := by
  unfold multirangeUnion
  by_cases hmr1 : mr1 = []
  · rw [if_pos hmr1, hmr1]
    exact ⟨mr2, rfl, h2, fun x => (or_iff_right (not_memRanges_nil x)).symm⟩
  rw [if_neg hmr1]
  by_cases hmr2 : mr2 = []
  · rw [if_pos hmr2, hmr2]
    exact ⟨mr1, rfl, h1, fun x => (or_iff_left (not_memRanges_nil x)).symm⟩
  rw [if_neg hmr2]
  obtain ⟨l, hl, -, hmulti, hpts⟩ := multirangeCanonicalize_isMultirange (mr1 ++ mr2)
  refine ⟨l, hl, hmulti, fun x => ?_⟩
  rw [hpts, memRanges_iff, cutMem_append, ← memRanges_iff, ← memRanges_iff]

/-- The difference of multiranges. -/
theorem multirangeMinus_isMultirange :
    ∃ l, multirangeMinus mr1 mr2 = .ok l ∧ IsMultirange l ∧ ∀ x, MemRanges x l ↔
      MemRanges x mr1 ∧ ¬ MemRanges x mr2 := by
  unfold multirangeMinus
  by_cases hempty : mr1 = [] ∨ mr2 = []
  · rw [if_pos hempty]
    refine ⟨mr1, rfl, h1, fun x => ?_⟩
    rcases hempty with rfl | rfl
    · exact iff_of_false (not_memRanges_nil x) fun hand => not_memRanges_nil x hand.1
    · exact (and_iff_left (not_memRanges_nil x)).symm
  rw [if_neg hempty]
  exact canonicalize_points h1 h2 Not fun hcov1 hsep1 hcov2 hsep2 =>
    minusOuter_spec _ [] hcov1 hsep1 hcov2 hsep2 (by rw [length_nil, zero_add])

/-- The intersection of multiranges. -/
theorem multirangeIntersect_isMultirange :
    ∃ l, multirangeIntersect mr1 mr2 = .ok l ∧ IsMultirange l ∧ ∀ x, MemRanges x l ↔
      MemRanges x mr1 ∧ MemRanges x mr2 := by
  unfold multirangeIntersect
  by_cases hempty : mr1 = [] ∨ mr2 = []
  · rw [if_pos hempty]
    refine ⟨[], rfl, isMultirange_iff.mpr ⟨[], Covers.nil, List.Pairwise.nil⟩, fun x =>
      iff_of_false (not_memRanges_nil x) fun hand => ?_⟩
    rcases hempty with rfl | rfl
    · exact not_memRanges_nil x hand.1
    · exact not_memRanges_nil x hand.2
  rw [if_neg hempty]
  exact canonicalize_points h1 h2 id fun hcov1 hsep1 hcov2 hsep2 =>
    intersectOuter_spec _ [] hcov1 hsep1 hcov2 hsep2 (by rw [length_nil, zero_add])

end Dense

/-- Over a dense order without endpoints, multiranges are an algebra of sets.
`multirange_canonicalize` makes a multirange of any ranges, with the same points, and ranges with
the same points become the same multirange. Union, minus and intersection of multiranges are
multiranges with the points of the union, the difference and the intersection. Nothing of this ends
in an error, nor in a write behind the end of an array. -/
theorem multirange_set_algebra [DenselyOrdered α] [NoMinOrder α] [NoMaxOrder α] [Nonempty α] :
    (∀ ranges : List (RangeType α), ∃ l, multirangeCanonicalize ranges = .ok l ∧
      l.length ≤ ranges.length ∧ IsMultirange l ∧
      ∀ x, MemRanges x l ↔ MemRanges x ranges) ∧
    (∀ ranges ranges' : List (RangeType α), (∀ x, MemRanges x ranges ↔ MemRanges x ranges') →
      multirangeCanonicalize ranges = multirangeCanonicalize ranges') ∧
    ∀ mr1 mr2 : List (RangeType α), IsMultirange mr1 → IsMultirange mr2 →
      (∃ l, multirangeUnion mr1 mr2 = .ok l ∧ IsMultirange l ∧ ∀ x, MemRanges x l ↔
        MemRanges x mr1 ∨ MemRanges x mr2) ∧
      (∃ l, multirangeMinus mr1 mr2 = .ok l ∧ IsMultirange l ∧ ∀ x, MemRanges x l ↔
        MemRanges x mr1 ∧ ¬ MemRanges x mr2) ∧
      ∃ l, multirangeIntersect mr1 mr2 = .ok l ∧ IsMultirange l ∧ ∀ x, MemRanges x l ↔
        MemRanges x mr1 ∧ MemRanges x mr2 := by
  refine ⟨multirangeCanonicalize_isMultirange, fun ranges ranges' hsame => ?_, fun mr1 mr2 h1 h2 =>
    ⟨multirangeUnion_isMultirange h1 h2, multirangeMinus_isMultirange h1 h2,
      multirangeIntersect_isMultirange h1 h2⟩⟩
  obtain ⟨l, hl, -, hmulti, hpts⟩ := multirangeCanonicalize_isMultirange ranges
  obtain ⟨l', hl', -, hmulti', hpts'⟩ := multirangeCanonicalize_isMultirange ranges'
  rw [hl, hl', hmulti.eq_of_points hmulti' fun x => by rw [hpts, hpts', hsame]]

/-- The range `[0, 3)`. -/
def zeroToThree : RangeType ℚ := .range (some (0, true)) (some (3, false)) (by decide)

/-- The range `(1, 2]`. -/
def oneToTwo : RangeType ℚ := .range (some (1, false)) (some (2, true)) (by decide)

/-- A range with a hole. -/
theorem multirange_set_algebra_rat : ∃ l, multirangeMinus [zeroToThree]
    [oneToTwo] = .ok l ∧ IsMultirange l ∧
    ∀ x, MemRanges x l ↔ MemRanges x [zeroToThree] ∧ ¬ MemRanges x [oneToTwo] := by
  have h1 : IsMultirange [zeroToThree] := by
    refine ⟨fun r hr => ⟨0, ?_⟩, pairwise_singleton _ _⟩
    rw [mem_singleton.mp hr]
    exact ⟨by show (0 : ℚ) ≤ 0; norm_num, by show (0 : ℚ) < 3; norm_num⟩
  have h2 : IsMultirange [oneToTwo] := by
    refine ⟨fun r hr => ⟨2, ?_⟩, pairwise_singleton _ _⟩
    rw [mem_singleton.mp hr]
    exact ⟨by show (1 : ℚ) < 2; norm_num, by show (2 : ℚ) ≤ 2; norm_num⟩
  exact ((multirange_set_algebra (α := ℚ)).2.2 _ _ h1 h2).2.1

end PgAutoIndex.Adt
