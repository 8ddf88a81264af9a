import Mathlib.Algebra.BigOperators.Group.Finset.Basic

/-!
# Binary search

The search for the place where a condition stops to hold: `search q fuel low high` halves the range
from `low` to `high`, to the right of the middle where `q` holds there and to its left where it does
not. When `q` holds up to some place and nowhere after it, the result is that place (`search_spec`);
in a list that increases, it separates the elements up to a bound from those above
(`searchList_spec`).

A list that is cut into blocks is searched in two steps: first for the block, by the keys of the
heads, then in the block. `Located` says of a place that the search for a bound may stop there, and
`located_flatMap` takes it from the list of blocks to the list itself.
-/

namespace BinarySearch

open List

/-- Halve the range from `low` to `high` as often as the fuel allows; a range of `fuel` places needs
no more. -/
def search (q : ℕ → Bool) : ℕ → ℕ → ℕ → ℕ
  | 0, low, _ => low
  | fuel + 1, low, high =>
    if high > low then
      let mid := low + (high - low) / 2
      if q mid then search q fuel (mid + 1) high else search q fuel low mid
    else low

/-- The search ends in the range, behind places where the condition holds and before places where it
does not. -/
theorem search_spec (q : ℕ → Bool) (fuel low high : ℕ) (hle : low ≤ high)
    (hfuel : high - low ≤ fuel)
    (hmono : ∀ i j, i ≤ j → j < high → q j = true → q i = true) :
    low ≤ search q fuel low high ∧ search q fuel low high ≤ high ∧
      (∀ i, low ≤ i → i < search q fuel low high → q i = true) ∧
      ∀ i, search q fuel low high ≤ i → i < high → q i = false := by
  induction fuel generalizing low high with
  | zero =>
    rw [search]
    refine ⟨le_rfl, hle, ?_, ?_⟩ <;> intro i <;> omega
  | succ fuel ih =>
    rw [search]
    split_ifs with hmore
    · set mid := low + (high - low) / 2 with hmid
      by_cases hq : q mid = true
      · rw [if_pos hq]
        obtain ⟨hlow, hhigh, hin, hout⟩ := ih (mid + 1) high (by omega) (by omega) hmono
        refine ⟨by omega, hhigh, fun i hi hlt => ?_, hout⟩
        rcases lt_or_ge mid i with hmi | hmi
        · exact hin i hmi hlt
        · exact hmono i mid hmi (by omega) hq
      · rw [if_neg hq]
        obtain ⟨hlow, hhigh, hin, hout⟩ :=
          ih low mid (by omega) (by omega) fun i j hij hj => hmono i j hij (by omega)
        refine ⟨hlow, by omega, hin, fun i hi hlt => ?_⟩
        rcases lt_or_ge i mid with hmi | hmi
        · exact hout i hi hmi
        · -- Were the condition true behind the middle, it would be true there.
          by_contra htrue
          exact hq (hmono mid i hmi hlt (by simpa using htrue))
    · refine ⟨le_rfl, hle, ?_, ?_⟩ <;> intro i <;> omega

section List

variable {α : Type*} (f : α → ℕ) (p : ℕ → Bool) (l : List α)

/-- The search in a list, for the place where the condition on the keys stops to hold. -/
def searchList (default : ℕ) : ℕ :=
  search (fun i => p ((l[i]?.map f).getD default)) l.length 0 l.length

/-- The condition holds of the elements before the place found, and not of the others. -/
theorem searchList_spec (default : ℕ) (hinc : l.Pairwise fun a b => f a < f b)
    (hp : ∀ a b, a ≤ b → p b = true → p a = true) :
    searchList f p l default ≤ l.length ∧
      (∀ a ∈ l.take (searchList f p l default), p (f a) = true) ∧
      ∀ a ∈ l.drop (searchList f p l default), p (f a) = false := by
  have hkey : ∀ i (hi : i < l.length), (l[i]?.map f).getD default = f l[i] := by
    intro i hi
    rw [getElem?_eq_getElem hi]
    rfl
  have hmono : ∀ i j, i ≤ j → j < l.length →
      p ((l[j]?.map f).getD default) = true → p ((l[i]?.map f).getD default) = true := by
    intro i j hij hj hpj
    rw [hkey j hj] at hpj
    rw [hkey i (by omega)]
    refine hp _ _ ?_ hpj
    rcases lt_or_ge i j with hlt | hge
    · exact le_of_lt (pairwise_iff_getElem.mp hinc i j (by omega) hj hlt)
    · have : i = j := by omega
      subst this
      exact le_rfl
  obtain ⟨-, hle, hin, hout⟩ := search_spec _ l.length 0 l.length (Nat.zero_le _) (by omega) hmono
  refine ⟨hle, fun a ha => ?_, fun a ha => ?_⟩
  · obtain ⟨i, hi, rfl⟩ := mem_take_iff_getElem.mp ha
    have hi' : i < searchList f p l default ∧ i < l.length := by omega
    have := hin i (Nat.zero_le i) hi'.1
    rwa [hkey i hi'.2] at this
  · obtain ⟨i, hi, rfl⟩ := mem_drop_iff_getElem.mp ha
    have hi' : searchList f p l default + i < l.length := by omega
    have := hout (searchList f p l default + i) (Nat.le_add_right _ _) hi'
    rwa [hkey _ hi'] at this

end List

section Blocks

variable {α β : Type*} (f : α → ℕ) (x : ℕ)

/-- The last element up to `x` is at place `i`, or there is none and `i` is the first place. -/
def Located (l : List α) (i : ℕ) : Prop :=
  ∃ pre a post, l = pre ++ a :: post ∧ pre.length = i ∧ (pre = [] ∨ f a ≤ x) ∧ ∀ b ∈ post, x < f b

/-- A place among the keys is a place in the list. -/
theorem Located.of_map {key : β → ℕ} {blocks : List β} {i : ℕ}
    (h : Located id x (blocks.map key) i) :
    Located key x blocks i := by
  obtain ⟨keys, k, keys', hsplit, rfl, hfst, hrest⟩ := h
  obtain ⟨pre, rest, rfl, rfl, hmap⟩ := map_eq_append_iff.mp hsplit
  obtain ⟨b, post, rfl, rfl, rfl⟩ := map_eq_cons_iff.mp hmap
  refine ⟨pre, b, post, rfl, (length_map _).symm, hfst.imp_left map_eq_nil_iff.mp, fun c hc => ?_⟩
  exact hrest _ (mem_map_of_mem hc)

section

variable {f x} {g : β → List α} {key : β → ℕ} {blocks : List β}
  (hinc : (blocks.flatMap g).Pairwise fun a b => f a < f b)
  (hhead : ∀ c ∈ blocks, ∃ a, (g c).head? = some a ∧ f a = key c)
include hinc hhead

/-- When the keys of all blocks are above `x`, so are the elements. -/
theorem lt_of_keys (hkeys : ∀ c ∈ blocks, x < key c) : ∀ a ∈ blocks.flatMap g, x < f a := by
  intro a ha
  obtain ⟨c, hc, hac⟩ := mem_flatMap.mp ha
  obtain ⟨d, hd, hkey⟩ := hhead c hc
  have hx : x < f d := hkey ▸ hkeys c hc
  have hblock := (pairwise_flatMap.mp hinc).1 c hc
  obtain ⟨t, ht⟩ := head?_eq_some_iff.mp hd
  rw [ht] at hac hblock
  rcases mem_cons.mp hac with rfl | hat
  · exact hx
  · exact lt_trans hx ((pairwise_cons.mp hblock).1 a hat)

/-- The keys of the blocks increase. -/
theorem pairwise_keys : (blocks.map key).Pairwise (· < ·) := by
  rw [pairwise_map]
  refine (pairwise_flatMap.mp hinc).2.imp_of_mem ?_
  intro c d hc hd hlt
  obtain ⟨a, ha, hkey⟩ := hhead c hc
  obtain ⟨b, hb, hkey'⟩ := hhead d hd
  rw [← hkey, ← hkey']
  exact hlt a (mem_of_mem_head? ha) b (mem_of_mem_head? hb)

end

/-- The search in the block that was located: either the block starts above `x`, and then so does
the list, or the search finds the last element up to `x`. -/
theorem located_flatMap {g : β → List α} {key : β → ℕ} {pre post : List β} {b : β} (default : ℕ)
    (hinc : ((pre ++ b :: post).flatMap g).Pairwise fun a b => f a < f b)
    (hhead : ∀ c ∈ pre ++ b :: post, ∃ a, (g c).head? = some a ∧ f a = key c)
    (hpre : pre = [] ∨ key b ≤ x) (hpost : ∀ c ∈ post, x < key c) :
    (searchList f (fun k => x ≥ k) (g b) default = 0 ∧
      ∀ a ∈ (pre ++ b :: post).flatMap g, x < f a) ∨
      ∃ n a, searchList f (fun k => x ≥ k) (g b) default = n + 1 ∧ (g b)[n]? = some a ∧
        (pre ++ b :: post).flatMap g =
          (pre.flatMap g ++ (g b).take n) ++ a :: ((g b).drop (n + 1) ++ post.flatMap g) ∧
        f a ≤ x ∧ ∀ c ∈ (g b).drop (n + 1) ++ post.flatMap g, x < f c := by
  have hflat : (pre ++ b :: post).flatMap g = pre.flatMap g ++ (g b ++ post.flatMap g) := by
    rw [flatMap_append, flatMap_cons]
  rw [hflat] at hinc ⊢
  have hblock : (g b).Pairwise fun a b => f a < f b :=
    (pairwise_append.mp (pairwise_append.mp hinc).2.1).1
  -- The blocks behind this one are above `x`.
  have hbehind : ∀ a ∈ post.flatMap g, x < f a := by
    refine lt_of_keys (pairwise_append.mp (pairwise_append.mp hinc).2.1).2.1 ?_ hpost
    exact fun c hc => hhead c (by simp [hc])
  obtain ⟨hle, hin, hout⟩ := searchList_spec f (fun k => x ≥ k) (g b) default hblock
    (fun i j hij hj => by simp only [decide_eq_true_eq] at hj ⊢; omega)
  obtain ⟨d, hd, hkey⟩ := hhead b (by simp)
  cases hn : searchList f (fun k => x ≥ k) (g b) default with
  | zero =>
    refine .inl ⟨rfl, ?_⟩
    rw [hn, drop_zero] at hout
    have hall : ∀ a ∈ g b, x < f a := fun a ha => by simpa using hout a ha
    -- The head of the block is above `x`, so the block is the first one.
    have hfirst : pre = [] := by
      rcases hpre with h | h
      · exact h
      · have := hall d (mem_of_mem_head? hd)
        omega
    rw [hfirst, flatMap_nil, nil_append]
    exact forall_mem_append.mpr ⟨hall, hbehind⟩
  | succ n =>
    rw [hn] at hle hin hout
    have hget : (g b)[n]? = some (g b)[n] := getElem?_eq_getElem (by omega)
    refine .inr ⟨n, (g b)[n], rfl, hget, ?_, ?_, ?_⟩
    · have hsplit : g b = (g b).take n ++ (g b)[n] :: (g b).drop (n + 1) := by
        rw [← drop_eq_getElem_cons (by omega), take_append_drop]
      conv => lhs; rw [hsplit]
      simp only [append_assoc, cons_append]
    · have hmem : (g b)[n] ∈ (g b).take (n + 1) := mem_take_iff_getElem.mpr ⟨n, by omega, rfl⟩
      simpa using hin _ hmem
    · exact forall_mem_append.mpr ⟨fun c hc => by simpa using hout c hc, hbehind⟩

end Blocks

end BinarySearch
