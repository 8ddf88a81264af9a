import Mathlib.Data.List.Chain
import PgAutoIndex.Gin.PostingList

/-!
# Merging posting lists

The model of `ginMergeItemPointers` in `access/gin/ginpostinglist.c`, which merges two arrays of
item pointers in increasing order. Arrays that do not overlap are copied one behind the other; this
is what the merging loop would do with them (`mergeLoop_of_before`).
-/

namespace PgAutoIndex.Gin

open List ItemPointerData

/-- The loops of `ginMergeItemPointers`, from what is left of the two arrays. -/
def mergeLoop : List ItemPointerData → List ItemPointerData → List ItemPointerData
  | [], b => b
  | a, [] => a
  | x :: a, y :: b =>
    if y.Before x then y :: mergeLoop (x :: a) b
    else if ¬ x.Before y then
      -- only keep one copy of the identical items
      y :: mergeLoop a b
    else x :: mergeLoop a (y :: b)
termination_by a b => a.length + b.length

/-- `ginMergeItemPointers`: the merged items and `nmerged`. -/
def ginMergeItemPointers : List ItemPointerData → List ItemPointerData → List ItemPointerData × ℕ
  | x :: a, y :: b =>
    let na := (x :: a).length
    let nb := (y :: b).length
    if (a.getLastD x).Before y then (x :: a ++ y :: b, na + nb)
    else if (b.getLastD y).Before x then (y :: b ++ x :: a, na + nb)
    else (mergeLoop (x :: a) (y :: b), (mergeLoop (x :: a) (y :: b)).length)
  | a, b => (a ++ b, a.length + b.length)

variable {x y : ItemPointerData} {a b : List ItemPointerData}

/-- The order is transitive. -/
theorem before_trans {z : ItemPointerData} (hxy : x.Before y) (hyz : y.Before z) : x.Before z :=
  Nat.lt_trans hxy hyz

/-- The order is total. -/
theorem eq_of_not_before (hxy : ¬ x.Before y) (hyx : ¬ y.Before x) : x = y := by
  have hx := x.posid.toNat_lt
  have hy := y.posid.toNat_lt
  rw [before_iff] at hxy hyx
  cases x
  cases y
  simp only [mk.injEq, ← UInt32.toNat_inj, ← UInt16.toNat_inj]
  dsimp only at *
  omega

/-- The merge has the items of both lists. -/
theorem mem_mergeLoop (a b : List ItemPointerData) : x ∈ mergeLoop a b ↔ x ∈ a ∨ x ∈ b := by
  fun_induction mergeLoop a b with
  | case1 b => simp
  | case2 a => simp
  | case3 y a z b hzy ih => rw [mem_cons, ih, mem_cons (l := b), or_left_comm]
  | case4 y a z b hzy hyz ih =>
    obtain rfl := eq_of_not_before hyz hzy
    rw [mem_cons, ih, mem_cons, mem_cons, or_or_distrib_left]
  | case5 y a z b hzy hyz ih => rw [mem_cons, ih, mem_cons (l := a), or_assoc]

/-- The merge is in order. -/
theorem pairwise_mergeLoop (ha : a.Pairwise Before) (hb : b.Pairwise Before) :
    (mergeLoop a b).Pairwise Before := by
  fun_induction mergeLoop a b with
  | case1 b => exact hb
  | case2 a => exact ha
  | case3 y a z b hzy ih =>
    obtain ⟨hz, hb⟩ := pairwise_cons.mp hb
    have hy : ∀ x ∈ y :: a, z.Before x :=
      forall_mem_cons.mpr ⟨hzy, fun x hx => before_trans hzy ((pairwise_cons.mp ha).1 x hx)⟩
    exact pairwise_cons.mpr ⟨fun x hx => ((mem_mergeLoop _ _).mp hx).elim (hy x) (hz x), ih ha hb⟩
  | case4 y a z b hzy hyz ih =>
    obtain rfl := eq_of_not_before hyz hzy
    obtain ⟨hy, ha⟩ := pairwise_cons.mp ha
    obtain ⟨hy', hb⟩ := pairwise_cons.mp hb
    exact pairwise_cons.mpr ⟨fun x hx => ((mem_mergeLoop _ _).mp hx).elim (hy x) (hy' x), ih ha hb⟩
  | case5 y a z b hzy hyz ih =>
    obtain ⟨hy, ha⟩ := pairwise_cons.mp ha
    have hz : ∀ x ∈ z :: b, y.Before x :=
      have hyz := not_not.mp hyz
      forall_mem_cons.mpr ⟨hyz, fun x hx => before_trans hyz ((pairwise_cons.mp hb).1 x hx)⟩
    exact pairwise_cons.mpr ⟨fun x hx => ((mem_mergeLoop _ _).mp hx).elim (hy x) (hz x), ih ha hb⟩

/-- The order is transitive. -/
instance : IsTrans ItemPointerData Before := ⟨fun _ _ _ => before_trans⟩

/-- A list in order has no duplicates. -/
theorem nodup_of_pairwise (ha : a.Pairwise Before) : a.Nodup :=
  ha.imp fun h => by
    rintro rfl
    exact Nat.lt_irrefl _ h

/-- Items in increasing order are determined by the set of them. -/
theorem eq_of_pairwise (ha : a.Pairwise Before) (hb : b.Pairwise Before)
    (h : ∀ x, x ∈ a ↔ x ∈ b) : a = b := by
  have hperm : a ~ b := (perm_ext_iff_of_nodup (nodup_of_pairwise ha) (nodup_of_pairwise hb)).mpr h
  exact hperm.eq_of_pairwise (fun x y _ _ hxy hyx =>
    absurd (before_trans hxy hyx) (Nat.lt_irrefl _)) ha hb

/-- Arrays that do not overlap are merged into the one followed by the other. -/
theorem mergeLoop_of_before (ha : a.Pairwise Before) (hb : b.Pairwise Before)
    (h : ∀ x ∈ a.getLast?, ∀ y ∈ b.head?, x.Before y) :
    mergeLoop a b = a ++ b ∧ mergeLoop b a = a ++ b := by
  have happend : (a ++ b).Pairwise Before := by
    rw [← isChain_iff_pairwise] at *
    exact isChain_append.mpr ⟨ha, hb, h⟩
  constructor
  · exact eq_of_pairwise (pairwise_mergeLoop ha hb) happend fun x => by
      rw [mem_mergeLoop, mem_append]
  · exact eq_of_pairwise (pairwise_mergeLoop hb ha) happend fun x => by
      rw [mem_mergeLoop, mem_append, or_comm]

/-- The fast paths give the merge too. -/
theorem ginMergeItemPointers_eq (ha : a.Pairwise Before) (hb : b.Pairwise Before) :
    ginMergeItemPointers a b = (mergeLoop a b, (mergeLoop a b).length) := by
  cases a with
  | nil => simp [ginMergeItemPointers, mergeLoop]
  | cons x a =>
    cases b with
    | nil => simp [ginMergeItemPointers, mergeLoop]
    | cons y b =>
      rw [ginMergeItemPointers, getLastD_eq_getLast?, getLastD_eq_getLast?]
      split_ifs with hab hba
      · rw [(mergeLoop_of_before ha hb (by simpa [getLast?_cons] using hab)).1, length_append]
      · rw [(mergeLoop_of_before hb ha (by simpa [getLast?_cons] using hba)).2,
          length_append, add_comm]
      · rfl

/-- **Merging item pointers is set union:** for arrays in increasing order, `ginMergeItemPointers`
returns the items of both in increasing order and without duplicates, with their number, and it
returns what the merging loop makes of them, also where it only copies the arrays. -/
theorem gin_merge_is_union (ha : a.Pairwise Before) (hb : b.Pairwise Before) :
    (ginMergeItemPointers a b).1.Pairwise Before ∧ (ginMergeItemPointers a b).1.Nodup ∧
      (∀ x, x ∈ (ginMergeItemPointers a b).1 ↔ x ∈ a ∨ x ∈ b) ∧
      (ginMergeItemPointers a b).2 = (ginMergeItemPointers a b).1.length ∧
      (ginMergeItemPointers a b).1 = mergeLoop a b := by
  have hmerged := pairwise_mergeLoop ha hb
  rw [ginMergeItemPointers_eq ha hb]
  exact ⟨hmerged, nodup_of_pairwise hmerged, fun _ => mem_mergeLoop a b, rfl, rfl⟩

/-- Lists that meet in one item. -/
theorem gin_merge_touching :
    (ginMergeItemPointers [⟨5, 1⟩, ⟨6, 2⟩] [⟨6, 2⟩, ⟨6, 3⟩]).1 = mergeLoop [⟨5, 1⟩, ⟨6, 2⟩]
    [⟨6, 2⟩, ⟨6, 3⟩] :=
  (gin_merge_is_union (by decide) (by decide)).2.2.2.2

end PgAutoIndex.Gin
