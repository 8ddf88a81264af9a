import Mathlib.Algebra.GroupWithZero.Nat
import Mathlib.Algebra.BigOperators.Group.Finset.Basic

/-!
# Separated intervals

Half-open intervals of a linear order, in lists. A list is separated (`Separated`) when each
interval ends before the next one starts, with something between them.

A set of points that has one in every interval tells separated lists apart
(`Separated.eq_of_points`): the first intervals start together, since a point of the earlier start
is in one list only, and end together, since a point of the later end is; and the rests have the
same points.
-/

namespace Intervals

open List

variable {C : Type} [LinearOrder C]

/-- An interval from `lo` up to `hi`, without `hi`. -/
structure HalfOpen (C : Type) [LinearOrder C] where
  lo : C
  hi : C
  lt : lo < hi

/-- A point is in an interval. -/
def HalfOpen.Mem (c : C) (i : HalfOpen C) : Prop := i.lo ≤ c ∧ c < i.hi

/-- The smallest interval that has two others. -/
def HalfOpen.hull (i j : HalfOpen C) : HalfOpen C :=
  ⟨min i.lo j.lo, max i.hi j.hi, (min_le_left _ _).trans_lt (i.lt.trans_le (le_max_left _ _))⟩

/-- What two intervals that overlap have in common. -/
def HalfOpen.inter (i j : HalfOpen C) (hlo : i.lo < j.hi) (hhi : j.lo < i.hi) : HalfOpen C :=
  ⟨max i.lo j.lo, min i.hi j.hi, max_lt (lt_min i.lt hlo) (lt_min hhi j.lt)⟩

variable {i j : HalfOpen C} {c : C} {l l' : List (HalfOpen C)}

/-- Two intervals that touch fill their hull. -/
theorem HalfOpen.mem_hull (hlo : i.lo ≤ j.hi) (hhi : j.lo ≤ i.hi) :
    (i.hull j).Mem c ↔ i.Mem c ∨ j.Mem c := by
  unfold HalfOpen.Mem HalfOpen.hull
  rw [min_le_iff, lt_max_iff]
  constructor
  · rintro ⟨hc, hc'⟩
    rcases lt_or_ge c i.lo with h | h
    · exact .inr ⟨hc.resolve_left (not_le.mpr h), h.trans_le hlo⟩
    · rcases lt_or_ge c i.hi with h' | h'
      · exact .inl ⟨h, h'⟩
      · exact .inr ⟨hhi.trans h', hc'.resolve_left (not_lt.mpr h')⟩
  · rintro (⟨h, h'⟩ | ⟨h, h'⟩)
    · exact ⟨.inl h, .inl h'⟩
    · exact ⟨.inr h, .inr h'⟩

theorem HalfOpen.mem_inter (hlo : i.lo < j.hi) (hhi : j.lo < i.hi) :
    (i.inter j hlo hhi).Mem c ↔ i.Mem c ∧ j.Mem c := by
  unfold HalfOpen.Mem HalfOpen.inter
  rw [max_le_iff, lt_min_iff]
  tauto

/-- A point is in one of the intervals. -/
def Mem (c : C) (l : List (HalfOpen C)) : Prop := ∃ i ∈ l, i.Mem c

theorem not_mem_nil (c : C) : ¬ Mem c [] := by
  rintro ⟨i, hi, _⟩
  cases hi

theorem mem_cons : Mem c (i :: l) ↔ i.Mem c ∨ Mem c l := exists_mem_cons_iff _ _ _

theorem mem_append : Mem c (l ++ l') ↔ Mem c l ∨ Mem c l' := by
  unfold Mem
  simp only [List.mem_append, or_and_right, exists_or]

/-- The intervals are in order, with gaps between them. -/
def Separated (l : List (HalfOpen C)) : Prop := l.Pairwise fun i j => i.hi < j.lo

/-- One more interval behind the last one. -/
theorem Separated.concat (h : Separated (l ++ [i])) (hlt : i.hi < j.lo) :
    Separated (l ++ [i] ++ [j]) := by
  refine pairwise_append.mpr ⟨h, pairwise_singleton _ _, fun k hk m hm => ?_⟩
  rw [mem_singleton.mp hm]
  rcases List.mem_append.mp hk with hk | hk
  · have hki := (pairwise_append.mp h).2.2 k hk i mem_cons_self
    exact hki.trans (i.lt.trans hlt)
  · rwa [mem_singleton.mp hk]

/-- The last interval ends later. -/
theorem Separated.replaceLast (h : Separated (l ++ [i])) (heq : j.lo = i.lo) :
    Separated (l ++ [j]) := by
  obtain ⟨hl, _, hlast⟩ := pairwise_append.mp h
  refine pairwise_append.mpr ⟨hl, pairwise_singleton _ _, fun k hk m hm => ?_⟩
  rw [mem_singleton.mp hm, heq]
  exact hlast k hk i mem_cons_self

/-- All points of a list are behind a bound of its intervals. -/
theorem le_of_mem {d : C} (h : ∀ i ∈ l, d < i.lo) (hc : Mem c l) : d < c := by
  obtain ⟨i, hi, hlo, _⟩ := hc
  exact lt_of_lt_of_le (h i hi) hlo

/-- The points outside a separated list: those before its first interval, and those behind that one
and outside the rest. -/
theorem not_mem_cons_iff (h : ∀ k ∈ l, j.hi < k.lo) :
    ¬ Mem c (j :: l) ↔ c < j.lo ∨ j.hi ≤ c ∧ ¬ Mem c l := by
  rw [mem_cons]
  constructor
  · intro hnot
    rcases lt_or_ge c j.lo with hc | hc
    · exact .inl hc
    · exact .inr ⟨not_lt.mp fun hlt => hnot (.inl ⟨hc, hlt⟩), fun hm => hnot (.inr hm)⟩
  · rintro (hc | ⟨hc, hnot⟩) (hm | hm)
    · exact absurd hm.1 (not_le.mpr hc)
    · exact absurd (le_of_mem h hm) (not_lt.mpr (hc.le.trans j.lt.le))
    · exact absurd hm.2 (not_lt.mpr hc)
    · exact hnot hm

section

variable {P : C → Prop}

/-- What the first interval has that the second list does not: nothing before the start of the
second list. -/
theorem start_le (hP : ∀ c d, c < d → ∃ p, P p ∧ c ≤ p ∧ p < d) (h' : Separated (j :: l'))
    (hsame : ∀ p, P p → Mem p (i :: l) → Mem p (j :: l')) : j.lo ≤ i.lo := by
  by_contra hlt
  rw [not_le] at hlt
  obtain ⟨p, hp, hle, hpmin⟩ := hP i.lo (min i.hi j.lo) (lt_min i.lt hlt)
  obtain ⟨hphi, hplo⟩ := lt_min_iff.mp hpmin
  obtain ⟨k, hk, hklo, _⟩ := hsame p hp (mem_cons.mpr (.inl ⟨hle, hphi⟩))
  rcases List.mem_cons.mp hk with rfl | hk
  · exact absurd hklo (not_le.mpr hplo)
  · have hjk := (pairwise_cons.mp h').1 k hk
    exact absurd (hklo.trans_lt hplo) (not_lt.mpr (j.lt.trans hjk).le)

/-- The first interval of a list does not end before that of another one with the same points and
the same start. -/
theorem end_le (hP : ∀ c d, c < d → ∃ p, P p ∧ c ≤ p ∧ p < d) (h' : Separated (j :: l'))
    (hlo : i.lo = j.lo) (hsame : ∀ p, P p → Mem p (i :: l) → Mem p (j :: l')) : i.hi ≤ j.hi := by
  by_contra hlt
  rw [not_le] at hlt
  -- The rest of the second list has what is between the two ends, and starts behind the first of
  -- them.
  have hrest : ∀ p, P p → Mem p [⟨j.hi, i.hi, hlt⟩] → Mem p l' := by
    rintro p hp ⟨_, hk, hle, hphi⟩
    cases mem_singleton.mp hk
    have hpi : i.Mem p := ⟨by rw [hlo]; exact j.lt.le.trans hle, hphi⟩
    rcases mem_cons.mp (hsame p hp (mem_cons.mpr (.inl hpi))) with hj | hl
    · exact absurd hj.2 (not_lt.mpr hle)
    · exact hl
  cases l' with
  | nil =>
    obtain ⟨p, hp, hbetween⟩ := hP _ _ hlt
    obtain ⟨_, hk, _⟩ := hrest p hp (mem_cons.mpr (.inl hbetween))
    cases hk
  | cons k l' =>
    obtain ⟨hjk, hl'⟩ := pairwise_cons.mp h'
    exact absurd (start_le hP hl' hrest) (not_le.mpr (hjk k mem_cons_self))

/-- The points of the rest of a list. -/
theorem mem_tail_iff (h : Separated (i :: l)) {p : C} : Mem p l ↔ Mem p (i :: l) ∧ i.hi ≤ p := by
  constructor
  · intro hp
    exact ⟨mem_cons.mpr (.inr hp), (le_of_mem (pairwise_cons.mp h).1 hp).le⟩
  · rintro ⟨hp, hle⟩
    rcases mem_cons.mp hp with hi | hl
    · exact absurd hi.2 (not_lt.mpr hle)
    · exact hl

/-- Separated lists with the same points are the same. -/
theorem Separated.eq_of_points (hP : ∀ c d, c < d → ∃ p, P p ∧ c ≤ p ∧ p < d) (h : Separated l)
    (h' : Separated l') (hsame : ∀ p, P p → (Mem p l ↔ Mem p l')) : l = l' := by
  have hnonempty : ∀ i : HalfOpen C, ∃ p, P p ∧ i.Mem p := by
    intro i
    obtain ⟨p, hp, hle, hlt⟩ := hP i.lo i.hi i.lt
    exact ⟨p, hp, hle, hlt⟩
  induction l generalizing l' with
  | nil =>
    cases l' with
    | nil => rfl
    | cons j l' =>
      obtain ⟨p, hp, hj⟩ := hnonempty j
      exact absurd ((hsame p hp).mpr (mem_cons.mpr (.inl hj))) (not_mem_nil p)
  | cons i l ih =>
    cases l' with
    | nil =>
      obtain ⟨p, hp, hi⟩ := hnonempty i
      exact absurd ((hsame p hp).mp (mem_cons.mpr (.inl hi))) (not_mem_nil p)
    | cons j l' =>
      have hlo : i.lo = j.lo :=
        le_antisymm (start_le hP h fun p hp => (hsame p hp).mpr)
          (start_le hP h' fun p hp => (hsame p hp).mp)
      have hhi : i.hi = j.hi :=
        le_antisymm (end_le hP h' hlo fun p hp => (hsame p hp).mp)
          (end_le hP h hlo.symm fun p hp => (hsame p hp).mpr)
      have hhead : i = j := by
        cases i
        cases j
        subst hlo hhi
        rfl
      subst hhead
      congr 1
      refine ih (pairwise_cons.mp h).2 (pairwise_cons.mp h').2 fun p hp => ?_
      rw [mem_tail_iff h, mem_tail_iff h', hsame p hp]

end

end Intervals
