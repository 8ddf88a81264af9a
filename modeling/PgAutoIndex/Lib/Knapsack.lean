import Mathlib.Algebra.Order.BigOperators.Group.Finset
import Mathlib.Algebra.Order.Ring.Nat

/-!
# The discrete knapsack

Model of `src/backend/lib/knapsack.c`. The items are taken one after another; before item `i`,
`values[w]` is the largest value of items below `i` with total weight at most `w`, and `sets[w]` a
set of items with that value. The pass for an item goes from large weights to small ones, so that
the entries it reads are still those of the pass before (`scanWeights_entry`); an item of weight 0
reads the very entry it writes.

The values are exact numbers: elements of an ordered semiring, where the source has floating-point
numbers.
-/

namespace PgAutoIndex.Lib

open Function

variable {R : Type*}

/-- The arrays that `DiscreteKnapsack` works on. -/
structure KnapsackState (R : Type*) where
  values : ℕ → R
  sets : ℕ → Finset ℕ

section Model

variable [Semiring R] [LinearOrder R]

/-- The value of an item, 1 if `item_values` is not given. -/
def itemValue (itemValues : Option (List R)) (i : ℕ) : R :=
  match itemValues with
  | some values => values.getD i 0
  | none => 1

/-- The arrays before the first item; each set has the unused high bit. -/
def knapsackInit (numItems : ℕ) : KnapsackState R := ⟨fun _ => 0, fun _ => {numItems}⟩

/-- The body of the inner loop: item `i` of weight `iw` and value `iv` at total weight `j`. -/
def tryItem (i iw : ℕ) (iv : R) (j : ℕ) (state : KnapsackState R) : KnapsackState R :=
  let ow := j - iw
  if state.values j ≤ state.values ow + iv then
    let sets := if j ≠ ow then update state.sets j (state.sets ow) else state.sets
    let sets := update sets j (insert i (sets j))
    ⟨update state.values j (state.values ow + iv), sets⟩
  else state

/-- The inner loop, from `j` down to the weight of the item. -/
def scanWeights (i iw : ℕ) (iv : R) : ℕ → KnapsackState R → KnapsackState R
  | 0, state => if 0 ≥ iw then tryItem i iw iv 0 state else state
  | j + 1, state =>
    if j + 1 ≥ iw then scanWeights i iw iv j (tryItem i iw iv (j + 1) state) else state

/-- The arrays after the first `n` items. -/
def knapsackLoop (maxWeight : ℕ) (itemWeights : List ℕ) (itemValues : Option (List R)) :
    ℕ → KnapsackState R
  | 0 => knapsackInit itemWeights.length
  | i + 1 => scanWeights i (itemWeights.getD i 0) (itemValue itemValues i) maxWeight
      (knapsackLoop maxWeight itemWeights itemValues i)

/-- `DiscreteKnapsack`. -/
def discreteKnapsack (maxWeight : ℕ) (itemWeights : List ℕ)
    (itemValues : Option (List R)) : Finset ℕ :=
  ((knapsackLoop maxWeight itemWeights itemValues itemWeights.length).sets maxWeight).erase
    itemWeights.length

end Model

/-! ## A pass -/

section Pass

variable [Semiring R] [LinearOrder R] (i iw : ℕ) (iv : R)

/-- The value and the set at a weight. -/
def KnapsackState.entry (state : KnapsackState R) (w : ℕ) : R × Finset ℕ :=
  (state.values w, state.sets w)

/-- The entry at a weight after an item is tried, from the entry itself and the one of the weight
that is left. -/
def triedEntry (own left : R × Finset ℕ) : R × Finset ℕ :=
  if own.1 ≤ left.1 + iv then (left.1 + iv, insert i left.2) else own

/-- Trying an item changes one entry. -/
theorem tryItem_of_ne {j w : ℕ} (h : w ≠ j) (state : KnapsackState R) :
    (tryItem i iw iv j state).entry w = state.entry w := by
  unfold tryItem KnapsackState.entry
  simp only
  split
  · simp only [update_of_ne h]
    split
    · rw [update_of_ne h]
    · rfl
  · rfl

/-- Trying an item reads the entry of the weight that is left, also when it is the one written. -/
theorem tryItem_self (j : ℕ) (state : KnapsackState R) :
    (tryItem i iw iv j state).entry j = triedEntry i iv (state.entry j) (state.entry (j - iw)) := by
  unfold tryItem triedEntry KnapsackState.entry
  simp only
  split
  · simp only [update_self]
    split_ifs with hself
    · rw [update_self]
    · rw [← not_not.mp hself]
  · rfl

/-- What the pass for an item leaves at a weight, from the entries of the pass before. -/
theorem scanWeights_entry (j w : ℕ) (state : KnapsackState R) :
    (scanWeights i iw iv j state).entry w =
      if iw ≤ w ∧ w ≤ j then triedEntry i iv (state.entry w) (state.entry (w - iw))
      else state.entry w := by
  induction j generalizing state with
  | zero =>
    rw [scanWeights]
    by_cases hiw : 0 ≥ iw
    · rw [if_pos hiw]
      by_cases hw : w = 0
      · rw [hw, if_pos ⟨hiw, le_rfl⟩, tryItem_self]
      · rw [if_neg (by omega), tryItem_of_ne i iw iv hw]
    · rw [if_neg hiw, if_neg (by omega)]
  | succ j ih =>
    rw [scanWeights]
    by_cases hiw : j + 1 ≥ iw
    · rw [if_pos hiw, ih]
      by_cases hlast : w = j + 1
      · -- The rest of the loop does not come back to this weight.
        rw [if_neg (by omega), if_pos ⟨by omega, by omega⟩, hlast, tryItem_self]
      · -- Smaller weights read entries that are not written yet.
        rw [tryItem_of_ne i iw iv hlast]
        by_cases hle : iw ≤ w ∧ w ≤ j
        · rw [if_pos hle, if_pos ⟨hle.1, by omega⟩, tryItem_of_ne i iw iv (by omega)]
        · rw [if_neg hle, if_neg (by omega)]
    · rw [if_neg hiw, if_neg (by omega)]

end Pass

/-! ## All passes -/

section Optimal

variable [Semiring R] [LinearOrder R] (weight : ℕ → ℕ) (value : ℕ → R)

/-- The entry is that of a best set among the first `n` items of weight at most `w`, with the unused
bit `high` and all items of weight 0. -/
structure BestEntry (n high w : ℕ) (entry : R × Finset ℕ) : Prop where
  high_mem : high ∈ entry.2
  items : ∀ i ∈ entry.2.erase high, i < n
  value_eq : entry.1 = ∑ i ∈ entry.2.erase high, value i
  weight_le : ∑ i ∈ entry.2.erase high, weight i ≤ w
  best : ∀ s : Finset ℕ, (∀ i ∈ s, i < n) → ∑ i ∈ s, weight i ≤ w → ∑ i ∈ s, value i ≤ entry.1
  free : ∀ i, i < n → weight i = 0 → i ∈ entry.2

variable {weight value}

/-- Before the first item. -/
theorem bestEntry_init (high w : ℕ) : BestEntry weight value 0 high w (0, {high}) := by
  refine ⟨Finset.mem_singleton_self _, by simp, by simp, by simp, ?_, nofun⟩
  intro s hs _
  rw [Finset.eq_empty_of_forall_notMem fun i hi => absurd (hs i hi) (Nat.not_lt_zero _)]
  exact le_of_eq Finset.sum_empty

/-- An item that is heavier than the weight changes nothing. -/
theorem BestEntry.skip {n high w : ℕ} {entry : R × Finset ℕ}
    (h : BestEntry weight value n high w entry)
    (hheavy : w < weight n) : BestEntry weight value (n + 1) high w entry := by
  refine { h with items := fun i hi => Nat.lt_succ_of_lt (h.items i hi), best := ?_, free := ?_ }
  · intro s hs hweight
    refine h.best s (fun i hi => lt_of_le_of_ne (Nat.le_of_lt_succ (hs i hi)) ?_) hweight
    rintro rfl
    have := Finset.single_le_sum (f := weight) (fun _ _ => Nat.zero_le _) hi
    omega
  · intro i hi hzero
    rcases Nat.lt_succ_iff_lt_or_eq.mp hi with hlt | rfl
    · exact h.free i hlt hzero
    · omega

variable [IsOrderedRing R]

/-- A set of the first `n + 1` items is worth at most what the best set without item `n`, or the
best one for the weight that is left with item `n`, is worth. -/
theorem BestEntry.le_of_subset {n high w : ℕ} {own left : R × Finset ℕ}
    (hown : BestEntry weight value n high w own)
    (hleft : BestEntry weight value n high (w - weight n) left) (s : Finset ℕ)
    (hs : ∀ i ∈ s, i < n + 1)
    (hweight : ∑ i ∈ s, weight i ≤ w) :
      ∑ i ∈ s, value i ≤ own.1 ∨ ∑ i ∈ s, value i ≤ left.1 + value n := by
  by_cases hn : n ∈ s
  · right
    rw [← Finset.sum_erase_add s value hn]
    rw [← Finset.sum_erase_add s weight hn] at hweight
    refine add_le_add_left (hleft.best _ ?_ (by omega)) _
    intro i hi
    obtain ⟨hne, hmem⟩ := Finset.mem_erase.mp hi
    exact lt_of_le_of_ne (Nat.le_of_lt_succ (hs i hmem)) hne
  · left
    refine hown.best s (fun i hi => lt_of_le_of_ne (Nat.le_of_lt_succ (hs i hi)) ?_) hweight
    rintro rfl
    exact hn hi

/-- Trying item `n` gives a best entry for the first `n + 1` items. -/
theorem BestEntry.tried {n high w : ℕ} {own left : R × Finset ℕ}
    (hown : BestEntry weight value n high w own)
    (hleft : BestEntry weight value n high (w - weight n) left) (hfits : weight n ≤ w)
    (hn : n < high)
    (hvalue : 0 ≤ value n) (halias : weight n = 0 → left = own) :
    BestEntry weight value (n + 1) high w (triedEntry n (value n) own left) := by
  unfold triedEntry
  split_ifs with htake
  · have hnew : n ∉ left.2.erase high := fun hmem => absurd (hleft.items n hmem) (lt_irrefl n)
    have herase : (insert n left.2).erase high = insert n (left.2.erase high) :=
      Finset.erase_insert_of_ne (by omega)
    refine ⟨Finset.mem_insert_of_mem hleft.high_mem, ?_, ?_, ?_, ?_, ?_⟩
    · intro i hi
      rw [herase] at hi
      rcases Finset.mem_insert.mp hi with rfl | hmem
      · exact Nat.lt_succ_self _
      · exact Nat.lt_succ_of_lt (hleft.items i hmem)
    · rw [herase, Finset.sum_insert hnew, hleft.value_eq, add_comm]
    · rw [herase, Finset.sum_insert hnew]
      have := hleft.weight_le
      omega
    · intro s hs hweight
      rcases hown.le_of_subset hleft s hs hweight with hle | hle
      · exact hle.trans htake
      · exact hle
    · intro i hi hzero
      rcases Nat.lt_succ_iff_lt_or_eq.mp hi with hlt | rfl
      · exact Finset.mem_insert_of_mem (hleft.free i hlt hzero)
      · exact Finset.mem_insert_self _ _
  · refine { hown with
      items := fun i hi => Nat.lt_succ_of_lt (hown.items i hi)
      best := ?_
      free := ?_ }
    · intro s hs hweight
      rcases hown.le_of_subset hleft s hs hweight with hle | hle
      · exact hle
      · exact hle.trans (not_le.mp htake).le
    · intro i hi hzero
      rcases Nat.lt_succ_iff_lt_or_eq.mp hi with hlt | rfl
      · exact hown.free i hlt hzero
      · -- An item of weight 0 is always taken.
        rw [halias hzero] at htake
        exact absurd (le_add_of_nonneg_right hvalue) htake

/-- After the passes for the first `n` items, each entry is best for them. -/
theorem knapsackLoop_best {maxWeight : ℕ} {itemWeights : List ℕ} {itemValues : Option (List R)}
    (hvalues : ∀ i, i < itemWeights.length → 0 ≤ itemValue itemValues i) {n : ℕ}
    (hn : n ≤ itemWeights.length) {w : ℕ}
    (hw : w ≤ maxWeight) :
    BestEntry (fun i => itemWeights.getD i 0) (itemValue itemValues) n itemWeights.length w
      ((knapsackLoop maxWeight itemWeights itemValues n).entry w) := by
  induction n generalizing w with
  | zero => exact bestEntry_init _ _
  | succ n ih =>
    rw [knapsackLoop, scanWeights_entry]
    by_cases hfits : itemWeights.getD n 0 ≤ w
    · rw [if_pos ⟨hfits, hw⟩]
      refine (ih (by omega) hw).tried (ih (by omega) (by omega)) hfits (by omega)
        (hvalues n (by omega)) ?_
      intro hzero
      rw [hzero, Nat.sub_zero]
    · rw [if_neg fun h => hfits h.1]
      exact (ih (by omega) hw).skip (by omega)

/-- `DiscreteKnapsack` is optimal: it returns item indexes of total weight at most `maxWeight` and
of the greatest total value among all such sets, with every item of weight 0. -/
theorem discreteKnapsack_optimal (maxWeight : ℕ) (itemWeights : List ℕ)
    (itemValues : Option (List R))
    (hvalues : ∀ i, i < itemWeights.length → 0 ≤ itemValue itemValues i) :
    (∀ i ∈ discreteKnapsack maxWeight itemWeights itemValues, i < itemWeights.length) ∧
      ∑ i ∈ discreteKnapsack maxWeight itemWeights itemValues, itemWeights.getD i 0 ≤ maxWeight ∧
      (∀ s : Finset ℕ, (∀ i ∈ s, i < itemWeights.length) → ∑ i ∈ s,
        itemWeights.getD i 0 ≤ maxWeight →
        ∑ i ∈ s, itemValue itemValues i ≤
          ∑ i ∈ discreteKnapsack maxWeight itemWeights itemValues, itemValue itemValues i) ∧
      ∀ i, i < itemWeights.length → itemWeights.getD i 0 = 0 →
        i ∈ discreteKnapsack maxWeight itemWeights itemValues := by
  have hbest := knapsackLoop_best hvalues le_rfl (le_refl maxWeight)
  refine ⟨hbest.items, hbest.weight_le, ?_, ?_⟩
  · intro s hs hweight
    exact (hbest.best s hs hweight).trans_eq hbest.value_eq
  · intro i hi hzero
    exact Finset.mem_erase.mpr ⟨by omega, hbest.free i hi hzero⟩

end Optimal

/-- Three items, the last of weight 0: the second and the third are taken. -/
theorem discreteKnapsack_optimal_three :
    (∀ i, i < 3 → 0 ≤ itemValue (some [4, 5, 0]) i) ∧ discreteKnapsack 5 [3, 4, 0]
    (some [4, 5, 0]) = {1, 2} ∧
      ∀ s : Finset ℕ, (∀ i ∈ s, i < 3) → ∑ i ∈ s, [3, 4, 0].getD i 0 ≤ 5 →
        ∑ i ∈ s, itemValue (some [4, 5, 0]) i ≤
          ∑ i ∈ discreteKnapsack 5 [3, 4, 0] (some [4, 5, 0]), itemValue (some [4, 5, 0]) i :=
  ⟨fun _ _ => Nat.zero_le _, by decide,
    (discreteKnapsack_optimal 5 [3, 4, 0] (some [4, 5, 0]) fun _ _ => Nat.zero_le _).2.2.1⟩

end PgAutoIndex.Lib
