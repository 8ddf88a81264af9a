import Mathlib.Data.Prod.Lex
import Mathlib.Order.WithBot
import Mathlib.Tactic.Order
import PgAutoIndex.Intervals
import PgAutoIndex.Adt.Rangetypes

/-!
# Ranges are intervals of cuts

A bound stands for a cut in the order of the values: before a value or behind it, or at one of the
two ends (`Cut`). A lower bound `[a` and an upper bound `a)` are the cut before `a`; `(a` and `a]`
are the cut behind it. So a range is a half-open interval of cuts (`RangeType.interval`), and a
value is in the range when the cut before it is in the interval (`mem_iff`).

`range_cmp_bounds` compares cuts (`cmp_lower_lower`, `cmp_upper_upper`); where it compares an upper
bound with a lower one, it tells whether the upper cut is at most the lower one (`cmp_upper_lower`).
Each function on ranges thus has a meaning for intervals, with no cases of inclusive, exclusive and
infinite bounds left: the lemmas from `before_iff` on.
-/

namespace PgAutoIndex.Adt

open Intervals

variable {α : Type} [LinearOrder α]

/-- A cut: before or behind a value, or at one of the two ends. -/
abbrev Cut (α : Type) : Type := WithBot (WithTop (α ×ₗ Bool))

/-- The cut before (`false`) or behind (`true`) a value. -/
def cutAt (a : α) (behind : Bool) : Cut α :=
  (((toLex (a, behind) : α ×ₗ Bool) : WithTop (α ×ₗ Bool)) : Cut α)

/-- The cut at which a range with a lower bound starts. -/
def lowerCut : Option (α × Bool) → Cut α
  | none => ⊥
  | some (a, inclusive) => cutAt a !inclusive

/-- The cut at which a range with an upper bound ends. -/
def upperCut : Option (α × Bool) → Cut α
  | none => ⊤
  | some (a, inclusive) => cutAt a inclusive

variable {a b x : α} {i j : Bool} {l l' u u' : Option (α × Bool)} {r s : RangeType α}

/-- Cuts are ordered by value, then side. -/
theorem cutAt_lt : cutAt a i < cutAt b j ↔ a < b ∨ a = b ∧ i < j := by
  unfold cutAt
  rw [WithBot.coe_lt_coe, WithTop.coe_lt_coe, Prod.Lex.toLex_lt_toLex]

/-- Cuts are ordered by value, then side. -/
theorem cutAt_le : cutAt a i ≤ cutAt b j ↔ a < b ∨ a = b ∧ i ≤ j := by
  unfold cutAt
  rw [WithBot.coe_le_coe, WithTop.coe_le_coe, Prod.Lex.toLex_le_toLex]

omit [LinearOrder α] in
/-- Equal cuts have equal values and sides. -/
theorem cutAt_inj : cutAt a i = cutAt b j ↔ a = b ∧ i = j := by
  unfold cutAt
  rw [WithBot.coe_inj, WithTop.coe_inj, toLex_inj, Prod.mk_inj]

/-- Minus infinity is below the other cuts. -/
theorem bot_lt_cutAt (a : α) (i : Bool) : (⊥ : Cut α) < cutAt a i := WithBot.bot_lt_coe _

/-- Infinity is above the other cuts. -/
theorem cutAt_lt_top (a : α) (i : Bool) : cutAt a i < (⊤ : Cut α) :=
  WithBot.coe_lt_coe.mpr (WithTop.coe_lt_top _)

/-! ## Comparing bounds -/

variable (l l' u u')

/-- Comparing the other way round. -/
theorem rangeCmpBounds_swap (b b' : RangeBound α) :
    rangeCmpBounds b' b = (rangeCmpBounds b b').swap := by
  obtain ⟨_ | ⟨v, i⟩, l⟩ := b <;> obtain ⟨_ | ⟨v', i'⟩, l'⟩ := b'
  · cases l <;> cases l' <;> rfl
  · cases l <;> rfl
  · cases l' <;> rfl
  · unfold rangeCmpBounds
    dsimp only
    rcases lt_trichotomy v v' with hv | rfl | hv
    · rw [compare_lt_iff_lt.mpr hv, compare_gt_iff_gt.mpr hv]
      rfl
    · rw [compare_eq_iff_eq.mpr rfl]
      cases i <;> cases i' <;> cases l <;> cases l' <;> rfl
    · rw [compare_lt_iff_lt.mpr hv, compare_gt_iff_gt.mpr hv]
      rfl

/-- Bounds at the same value are compared by their kinds. -/
theorem cmp_values {lower lower' : Bool} :
    rangeCmpBounds ⟨some (a, i), lower⟩ ⟨some (b, j), lower'⟩ = .lt ↔
    a < b ∨ a = b ∧ rangeCmpBounds ⟨some (a, i), lower⟩ ⟨some (a, j), lower'⟩ = .lt := by
  rcases lt_trichotomy a b with hab | rfl | hab
  · simp [rangeCmpBounds, compare_lt_iff_lt.mpr hab, hab]
  · simp
  · simp [rangeCmpBounds, compare_gt_iff_gt.mpr hab, hab.not_gt, hab.ne']

/-- Lower bounds compare as their cuts. -/
theorem cmp_lower_lower : rangeCmpBounds ⟨l, true⟩ ⟨l', true⟩ = .lt ↔ lowerCut l < lowerCut l' := by
  rcases l with _ | ⟨a, i⟩ <;> rcases l' with _ | ⟨b, j⟩
  · simp [rangeCmpBounds, lowerCut]
  · simp [rangeCmpBounds, lowerCut, bot_lt_cutAt]
  · simp [rangeCmpBounds, lowerCut]
  · rw [cmp_values, lowerCut, lowerCut, cutAt_lt]
    exact or_congr_right (and_congr_right fun _ => by cases i <;> cases j <;> simp [rangeCmpBounds])

/-- Upper bounds compare as their cuts. -/
theorem cmp_upper_upper :
    rangeCmpBounds ⟨u, false⟩ ⟨u', false⟩ = .lt ↔ upperCut u < upperCut u' := by
  rcases u with _ | ⟨a, i⟩ <;> rcases u' with _ | ⟨b, j⟩
  · simp [rangeCmpBounds, upperCut]
  · simp [rangeCmpBounds, upperCut]
  · simp [rangeCmpBounds, upperCut, cutAt_lt_top]
  · rw [cmp_values, upperCut, upperCut, cutAt_lt]
    exact or_congr_right (and_congr_right fun _ => by cases i <;> cases j <;> simp [rangeCmpBounds])

/-- An upper bound is below a lower one when a range that ends with the one has no point with a
range that starts with the other. -/
theorem cmp_upper_lower : rangeCmpBounds ⟨u, false⟩ ⟨l, true⟩ = .lt ↔ upperCut u ≤ lowerCut l := by
  rcases u with _ | ⟨a, i⟩ <;> rcases l with _ | ⟨b, j⟩
  · simp [rangeCmpBounds, upperCut, lowerCut]
  · simp [rangeCmpBounds, upperCut, lowerCut, (cutAt_lt_top b (!j)).ne]
  · simp [rangeCmpBounds, upperCut, lowerCut, (bot_lt_cutAt a i).ne']
  · rw [cmp_values, upperCut, lowerCut, cutAt_le]
    exact or_congr_right (and_congr_right fun _ => by cases i <;> cases j <;> simp [rangeCmpBounds])

/-- Lower bounds compare as their cuts. -/
theorem cmp_lower_lower_gt :
    rangeCmpBounds ⟨l, true⟩ ⟨l', true⟩ = .gt ↔ lowerCut l' < lowerCut l := by
  rw [rangeCmpBounds_swap, Ordering.swap_eq_gt, cmp_lower_lower]

/-- Upper bounds compare as their cuts. -/
theorem cmp_upper_upper_gt :
    rangeCmpBounds ⟨u, false⟩ ⟨u', false⟩ = .gt ↔ upperCut u' < upperCut u := by
  rw [rangeCmpBounds_swap, Ordering.swap_eq_gt, cmp_upper_upper]

/-- A lower bound above an upper one. -/
theorem cmp_lower_upper_gt :
    rangeCmpBounds ⟨l, true⟩ ⟨u, false⟩ = .gt ↔ upperCut u ≤ lowerCut l := by
  rw [rangeCmpBounds_swap, Ordering.swap_eq_gt, cmp_upper_lower]

variable {l l' u u'}

/-! ## Intervals -/

/-- The interval of a range that is not empty. -/
def RangeType.interval : RangeType α → Option (HalfOpen (Cut α))
  | .empty => none
  | .range l u h =>
    some ⟨lowerCut l, upperCut u, lt_of_not_ge fun hle => h ((cmp_lower_upper_gt l u).mpr hle)⟩

/-- A cut has one lower bound. -/
theorem lowerCut_inj (h : lowerCut l = lowerCut l') : l = l' := by
  rcases l with _ | ⟨a, i⟩ <;> rcases l' with _ | ⟨b, j⟩
  · rfl
  · exact absurd h (bot_lt_cutAt b (!j)).ne
  · exact absurd h (bot_lt_cutAt a (!i)).ne'
  · obtain ⟨hab, hij⟩ := cutAt_inj.mp h
    rw [hab, Bool.not_inj hij]

/-- A cut has one upper bound. -/
theorem upperCut_inj (h : upperCut u = upperCut u') : u = u' := by
  rcases u with _ | ⟨a, i⟩ <;> rcases u' with _ | ⟨b, j⟩
  · rfl
  · exact absurd h (cutAt_lt_top b j).ne'
  · exact absurd h (cutAt_lt_top a i).ne
  · obtain ⟨hab, hij⟩ := cutAt_inj.mp h
    rw [hab, hij]

/-- A range is known by its interval. -/
theorem interval_injective : Function.Injective (RangeType.interval (α := α)) := by
  rintro (_ | ⟨l, u, h⟩) (_ | ⟨l', u', h'⟩) heq
  · rfl
  · cases heq
  · cases heq
  · have heq := Option.some_inj.mp heq
    obtain rfl := lowerCut_inj (congrArg HalfOpen.lo heq)
    obtain rfl := upperCut_inj (congrArg HalfOpen.hi heq)
    rfl

/-- The empty range has no interval. -/
theorem rangeIsEmpty_iff : rangeIsEmpty r = true ↔ r.interval = none := by
  cases r <;> simp [rangeIsEmpty, RangeType.interval]

/-- A point is above a lower bound by its cut. -/
theorem aboveLower_iff : AboveLower x l ↔ lowerCut l ≤ cutAt x false := by
  rcases l with _ | ⟨a, _ | _⟩
  · exact ⟨fun _ => bot_le, fun _ => trivial⟩
  · show a < x ↔ cutAt a true ≤ cutAt x false
    simp [cutAt_le]
  · show a ≤ x ↔ cutAt a false ≤ cutAt x false
    simp [cutAt_le, ← le_iff_lt_or_eq]

/-- A point is below an upper bound by its cut. -/
theorem belowUpper_iff : BelowUpper x u ↔ cutAt x false < upperCut u := by
  rcases u with _ | ⟨a, _ | _⟩
  · exact ⟨fun _ => cutAt_lt_top x false, fun _ => trivial⟩
  · show x < a ↔ cutAt x false < cutAt a false
    simp [cutAt_lt]
  · show x ≤ a ↔ cutAt x false < cutAt a true
    simp [cutAt_lt, ← le_iff_lt_or_eq]

/-- A value is in a range when the cut before it is in its interval. -/
theorem mem_iff : r.Mem x ↔ ∃ i, r.interval = some i ∧ i.Mem (cutAt x false) := by
  cases r with
  | empty => simp [RangeType.Mem, RangeType.interval]
  | range l u h =>
    rw [RangeType.Mem, aboveLower_iff, belowUpper_iff]
    constructor
    · exact fun hand => ⟨_, rfl, hand⟩
    · rintro ⟨i, hi, hmem⟩
      obtain rfl := Option.some_inj.mp hi
      exact hmem

/-- Between two cuts there is a value, that is, the cut before it. -/
theorem exists_cutAt [DenselyOrdered α] [NoMinOrder α] [NoMaxOrder α] [Nonempty α] (c d : Cut α)
    (h : c < d) :
    ∃ p, (∃ x : α, p = cutAt x false) ∧ c ≤ p ∧ p < d := by
  induction c using WithBot.recBotCoe with
  | bot =>
    -- Before the cut `d` there is a value.
    induction d using WithBot.recBotCoe with
    | bot => exact absurd h (lt_irrefl _)
    | coe d =>
      induction d using WithTop.recTopCoe with
      | top => exact ⟨_, ⟨Classical.arbitrary α, rfl⟩, bot_le, cutAt_lt_top _ _⟩
      | coe d =>
        obtain ⟨x, hx⟩ := exists_lt (ofLex d).1
        exact ⟨_, ⟨x, rfl⟩, bot_le, (cutAt_lt (j := (ofLex d).2)).mpr (.inl hx)⟩
  | coe c =>
    induction c using WithTop.recTopCoe with
    | top => exact absurd h (not_lt.mpr le_top)
    | coe c =>
      obtain ⟨a, i⟩ := c
      cases i with
      | false => exact ⟨_, ⟨a, rfl⟩, le_rfl, h⟩
      | true =>
        -- Behind `a` and before the cut `d` there is a value.
        induction d using WithBot.recBotCoe with
        | bot => exact absurd h not_lt_bot
        | coe d =>
          induction d using WithTop.recTopCoe with
          | top =>
            obtain ⟨x, hx⟩ := exists_gt a
            exact ⟨_, ⟨x, rfl⟩, cutAt_le.mpr (.inl hx), cutAt_lt_top _ _⟩
          | coe d =>
            obtain ⟨b, j⟩ := d
            have hab : a < b := by
              rcases cutAt_lt.mp h with hab | ⟨_, hlt⟩
              · exact hab
              · exact absurd hlt (by cases j <;> decide)
            obtain ⟨x, hax, hxb⟩ := exists_between hab
            exact ⟨_, ⟨x, rfl⟩, cutAt_le.mpr (.inl hax), cutAt_lt.mpr (.inl hxb)⟩

/-! ## The functions on ranges -/

section

variable {i j : HalfOpen (Cut α)}

/-- Adjacent bounds are one cut. -/
theorem boundsAdjacent_iff (u l : Option (α × Bool)) :
    boundsAdjacent ⟨u, false⟩ ⟨l, true⟩ = true ↔ upperCut u = lowerCut l := by
  rcases u with _ | ⟨a, i⟩ <;> rcases l with _ | ⟨b, j⟩
  · simp [boundsAdjacent, rangeCmpBoundValues, upperCut, lowerCut]
  · simp [boundsAdjacent, rangeCmpBoundValues, upperCut, lowerCut, (cutAt_lt_top b (!j)).ne']
  · simp [boundsAdjacent, rangeCmpBoundValues, upperCut, lowerCut, (bot_lt_cutAt a i).ne']
  · simp only [boundsAdjacent, rangeCmpBoundValues, upperCut, lowerCut, cutAt_inj]
    rcases lt_trichotomy a b with hab | rfl | hab
    · simp [compare_lt_iff_lt.mpr hab, hab.ne]
    · cases i <;> cases j <;> simp [RangeBound.inclusive]
    · simp [compare_gt_iff_gt.mpr hab, hab.ne']

/-- A range is built from a lower cut and an upper cut behind it. -/
theorem makeRange_eq (h : lowerCut l < upperCut u) :
    ∃ r, makeRange ⟨l, true⟩ ⟨u, false⟩ = .ok r ∧ r.interval =
      some ⟨lowerCut l, upperCut u, h⟩ := by
  have hne : rangeCmpBounds ⟨l, true⟩ ⟨u, false⟩ ≠ .gt :=
    fun hgt => absurd ((cmp_lower_upper_gt l u).mp hgt) (not_le.mpr h)
  refine ⟨.range l u hne, ?_, rfl⟩
  have hvalues : rangeCmpBoundValues ⟨l, true⟩ ⟨u, false⟩ ≠ .gt ∧
    ¬ (rangeCmpBoundValues ⟨l, true⟩ ⟨u, false⟩ = .eq ∧
      ¬ ((⟨l, true⟩ : RangeBound α).inclusive = true ∧
        (⟨u, false⟩ : RangeBound α).inclusive = true)) := by
    rcases l with _ | ⟨a, i⟩ <;> rcases u with _ | ⟨b, j⟩
    · simp [rangeCmpBoundValues]
    · simp [rangeCmpBoundValues]
    · simp [rangeCmpBoundValues]
    · rcases cutAt_lt.mp h with hab | ⟨rfl, hij⟩
      · simp [rangeCmpBoundValues, compare_lt_iff_lt.mpr hab]
      · have hij : i = true ∧ j = true := by
          cases i <;> cases j <;> first | exact ⟨rfl, rfl⟩ | exact absurd hij (by decide)
        simp [rangeCmpBoundValues, RangeBound.inclusive, hij]
  unfold makeRange rangeSerialize
  rw [if_neg Bool.false_ne_true, if_neg (by simp), dif_neg hvalues.1, dif_neg hvalues.2]

/-- A range is built from bounds at the ends of an interval. -/
theorem makeRange_of_cuts (hl : lowerCut l = i.lo) (hu : upperCut u = i.hi) :
    ∃ r, makeRange ⟨l, true⟩ ⟨u, false⟩ = .ok r ∧ r.interval = some i := by
  obtain ⟨lo, hi, hlt⟩ := i
  obtain rfl : lowerCut l = lo := hl
  obtain rfl : upperCut u = hi := hu
  exact makeRange_eq hlt

omit [LinearOrder α] in
/-- The lower bound of what is taken away becomes the upper bound of what is left. -/
theorem upperCut_flip (h : lowerCut l ≠ ⊥) :
    upperCut ((⟨l, true⟩ : RangeBound α).flip false).val = lowerCut l := by
  rcases l with _ | ⟨a, i⟩
  · exact absurd rfl h
  · rfl

omit [LinearOrder α] in
/-- A flipped upper bound is the same cut. -/
theorem lowerCut_flip (h : upperCut u ≠ ⊤) :
    lowerCut ((⟨u, false⟩ : RangeBound α).flip true).val = upperCut u := by
  rcases u with _ | ⟨a, i⟩
  · exact absurd rfl h
  · show cutAt a (!!i) = cutAt a i
    rw [Bool.not_not]

/-- What is left before a range. -/
theorem makeRange_flip_lower (h : lowerCut l < lowerCut l') :
    ∃ r, makeRange ⟨l, true⟩ ((⟨l', true⟩ : RangeBound α).flip false) = .ok r ∧
      r.interval = some ⟨lowerCut l, lowerCut l', h⟩ :=
  makeRange_of_cuts rfl (upperCut_flip (ne_bot_of_gt h))

/-- What is left behind a range. -/
theorem makeRange_flip_upper (h : upperCut u' < upperCut u) :
    ∃ r, makeRange ((⟨u', false⟩ : RangeBound α).flip true) ⟨u, false⟩ = .ok r ∧
      r.interval = some ⟨upperCut u', upperCut u, h⟩ :=
  makeRange_of_cuts (lowerCut_flip (ne_top_of_lt h)) rfl

variable (hr : r.interval = some i) (hs : s.interval = some j)
include hr hs

/-- `range_before` on intervals. -/
theorem before_iff : rangeBeforeInternal r s = true ↔ i.hi ≤ j.lo := by
  rcases r with _ | ⟨l, u, h⟩ <;> cases hr
  rcases s with _ | ⟨l', u', h'⟩ <;> cases hs
  exact decide_eq_true_iff.trans (cmp_upper_lower l' u)

/-- `range_adjacent` on intervals. -/
theorem adjacent_iff : rangeAdjacentInternal r s = true ↔ i.hi = j.lo ∨ j.hi = i.lo := by
  rcases r with _ | ⟨l, u, h⟩ <;> cases hr
  rcases s with _ | ⟨l', u', h'⟩ <;> cases hs
  exact Bool.or_eq_true_iff.trans (or_congr (boundsAdjacent_iff u l') (boundsAdjacent_iff u' l))

/-- `range_overlaps` on intervals. -/
theorem overlaps_iff : rangeOverlapsInternal r s = true ↔ i.lo < j.hi ∧ j.lo < i.hi := by
  have hlu := i.lt
  have hlu' := j.lt
  rcases r with _ | ⟨l, u, h⟩ <;> cases hr
  rcases s with _ | ⟨l', u', h'⟩ <;> cases hs
  simp only [rangeOverlapsInternal, ne_eq, cmp_lower_lower, cmp_lower_upper_gt, not_lt, not_le]
  constructor
  · intro hover
    split_ifs at hover with h1 h2
    · exact ⟨h1.2, h1.1.trans_lt hlu⟩
    · exact ⟨h2.1.trans_lt hlu', h2.2⟩
  · rintro ⟨h1, h2⟩
    rcases le_total (lowerCut l') (lowerCut l) with hle | hle
    · rw [if_pos ⟨hle, h1⟩]
    · split_ifs with hfirst hsecond
      · rfl
      · rfl
      · exact absurd ⟨hle, h2⟩ hsecond

/-- `range_overleft` on intervals. -/
theorem overleft_iff : rangeOverleftInternal r s = true ↔ i.hi ≤ j.hi := by
  rcases r with _ | ⟨l, u, h⟩ <;> cases hr
  rcases s with _ | ⟨l', u', h'⟩ <;> cases hs
  exact decide_eq_true_iff.trans ((cmp_upper_upper_gt u u').not.trans not_lt)

/-- A range is taken out of the middle of another one. -/
theorem split_eq (hlo : i.lo < j.lo) (hhi : j.hi < i.hi) :
    ∃ r1 r2, rangeSplitInternal r s = .ok (some (r1, r2)) ∧ r1.interval = some ⟨i.lo, j.lo, hlo⟩ ∧
      r2.interval = some ⟨j.hi, i.hi, hhi⟩ := by
  rcases r with _ | ⟨l, u, h⟩ <;> cases hr
  rcases s with _ | ⟨l', u', h'⟩ <;> cases hs
  obtain ⟨r1, hr1, hi1⟩ := makeRange_flip_lower hlo
  obtain ⟨r2, hr2, hi2⟩ := makeRange_flip_upper hhi
  refine ⟨r1, r2, ?_, hi1, hi2⟩
  rw [rangeSplitInternal,
    if_pos ⟨(cmp_lower_lower l l').mpr hlo, (cmp_upper_upper_gt u u').mpr hhi⟩, hr1, hr2]
  rfl

/-- Otherwise it is not split. -/
theorem split_none (hnot : ¬ (i.lo < j.lo ∧ j.hi < i.hi)) : rangeSplitInternal r s = .ok none := by
  rcases r with _ | ⟨l, u, h⟩ <;> cases hr
  rcases s with _ | ⟨l', u', h'⟩ <;> cases hs
  rw [rangeSplitInternal, if_neg]
  rwa [cmp_lower_lower, cmp_upper_upper_gt]

/-- The conditions of `range_minus_internal`, as conditions on intervals. -/
theorem minus_eq (hsplit : ¬ (i.lo < j.lo ∧ j.hi < i.hi)) (hlo : i.lo < j.hi) (hhi : j.lo < i.hi) :
    (j.lo ≤ i.lo ∧ i.hi ≤ j.hi ∧ rangeMinusInternal r s = .ok .empty) ∨
    (∃ (h : i.lo < j.lo) (r' : RangeType α), i.hi ≤ j.hi ∧ rangeMinusInternal r s = .ok r' ∧
      r'.interval = some ⟨i.lo, j.lo, h⟩) ∨
    ∃ (h : j.hi < i.hi) (r' : RangeType α), j.lo ≤ i.lo ∧ rangeMinusInternal r s = .ok r' ∧
      r'.interval = some ⟨j.hi, i.hi, h⟩ := by
  rcases r with _ | ⟨l, u, h⟩ <;> cases hr
  rcases s with _ | ⟨l', u', h'⟩ <;> cases hs
  simp only [rangeMinusInternal, ne_eq, cmp_lower_lower, cmp_lower_lower_gt, cmp_upper_upper,
    cmp_upper_upper_gt, cmp_lower_upper_gt, cmp_upper_lower]
  rw [if_neg hsplit, if_neg (not_or.mpr ⟨not_le.mpr hlo, not_le.mpr hhi⟩)]
  rcases lt_or_ge (lowerCut l) (lowerCut l') with hll | hll
  · -- Something is left before the second range.
    have huu : upperCut u ≤ upperCut u' := not_lt.mp fun huu => hsplit ⟨hll, huu⟩
    obtain ⟨r', hr', hi'⟩ := makeRange_flip_lower hll
    right; left
    refine ⟨hll, r', huu, ?_, hi'⟩
    rw [if_neg fun hand =>
      hand.1 hll, if_pos ⟨not_lt.mpr hll.le, not_le.mpr hhi, not_lt.mpr huu⟩, hr']
  · rcases le_or_gt (upperCut u) (upperCut u') with huu | huu
    · left
      exact ⟨hll, huu, by rw [if_pos ⟨not_lt.mpr hll, not_lt.mpr huu⟩]⟩
    · -- Something is left behind it.
      obtain ⟨r', hr', hi'⟩ := makeRange_flip_upper huu
      right; right
      refine ⟨huu, r', hll, ?_, hi'⟩
      rw [if_neg fun hand => hand.2 huu, if_neg fun hand =>
        hand.2.2 huu, if_pos ⟨not_lt.mpr hll, not_lt.mpr huu.le, not_le.mpr hlo⟩, hr']

/-- The union of two ranges that touch is a range. -/
theorem union_eq (strict : Bool) (hlo : i.lo ≤ j.hi) (hhi : j.lo ≤ i.hi) :
    ∃ r', rangeUnionInternal r s strict = .ok r' ∧ r'.interval = some (i.hull j) := by
  have hcond : ¬ (strict = true ∧ rangeOverlapsInternal r s = false ∧
      rangeAdjacentInternal r s = false) := by
    rintro ⟨-, hover, hadj⟩
    rw [← Bool.not_eq_true, overlaps_iff hr hs] at hover
    rw [← Bool.not_eq_true, adjacent_iff hr hs] at hadj
    rcases hlo.lt_or_eq with hlt | heq
    · rcases hhi.lt_or_eq with hlt' | heq
      · exact hover ⟨hlt, hlt'⟩
      · exact hadj (.inl heq.symm)
    · exact hadj (.inr heq.symm)
  rcases r with _ | ⟨l, u, h⟩ <;> cases hr
  rcases s with _ | ⟨l', u', h'⟩ <;> cases hs
  rw [rangeUnionInternal, if_neg hcond]
  apply makeRange_of_cuts
  · show _ = min (lowerCut l) (lowerCut l')
    rw [apply_ite lowerCut, min_def_lt]
    exact if_congr (cmp_lower_lower l l') rfl rfl
  · show _ = max (upperCut u) (upperCut u')
    rw [apply_ite upperCut, max_comm, max_def_lt]
    exact if_congr (cmp_upper_upper_gt u u') rfl rfl

/-- The intersection of two ranges that overlap is a range. -/
theorem intersect_eq (hlo : i.lo < j.hi) (hhi : j.lo < i.hi) :
    ∃ r', rangeIntersectInternal r s = .ok r' ∧ r'.interval = some (i.inter j hlo hhi) := by
  have hover := (overlaps_iff hr hs).mpr ⟨hlo, hhi⟩
  rcases r with _ | ⟨l, u, h⟩ <;> cases hr
  rcases s with _ | ⟨l', u', h'⟩ <;> cases hs
  rw [rangeIntersectInternal, if_neg (by rw [hover]; exact Bool.noConfusion)]
  apply makeRange_of_cuts
  · show _ = max (lowerCut l) (lowerCut l')
    rw [ite_not, apply_ite lowerCut, max_def_lt]
    exact if_congr (cmp_lower_lower l l') rfl rfl
  · show _ = min (upperCut u) (upperCut u')
    rw [ite_not, apply_ite upperCut, min_comm, min_def_lt]
    exact if_congr (cmp_upper_upper_gt u u') rfl rfl

/-- Ranges are sorted by the starts of their intervals, empty ones first. -/
theorem rangeCompare_le (h : rangeCompare r s ≠ .gt) : i.lo ≤ j.lo := by
  rcases r with _ | ⟨l, u, h⟩ <;> cases hr
  rcases s with _ | ⟨l', u', h'⟩ <;> cases hs
  refine not_lt.mp fun hlt => h ?_
  rw [rangeCompare, (cmp_lower_lower_gt l l').mpr hlt]

end

end PgAutoIndex.Adt
