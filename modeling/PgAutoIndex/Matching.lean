import Mathlib.Algebra.GroupWithZero.Nat
import Mathlib.Algebra.BigOperators.Group.Finset.Basic

/-!
# Matchings of a bipartite graph

A matching is a finite set of edges no two of which share an end. It has at most as many edges as a
set of vertices that covers all edges (`IsMatching.card_le_of_cover`), so a matching with as many
edges as a cover is a maximum one. `IsMatching.card_le_of_closed` is the form in which a search for
augmenting paths uses this: when the search comes to an end without one, the vertices it has not
reached on the left and the neighbours of those it has reached are such a cover.
-/

namespace Matching

variable {U V : Type*}

/-- A set of edges no two of which share an end. -/
structure IsMatching (E : U → V → Prop) (S : Finset (U × V)) : Prop where
  edge : ∀ p ∈ S, E p.1 p.2
  left_inj : ∀ p ∈ S, ∀ q ∈ S, p.1 = q.1 → p = q
  right_inj : ∀ p ∈ S, ∀ q ∈ S, p.2 = q.2 → p = q

variable [DecidableEq U] {E : U → V → Prop} {S T : Finset (U × V)}

/-- A matching has at most as many edges as a cover has vertices. -/
theorem IsMatching.card_le_of_cover (h : IsMatching E T) (A : Finset U) (B : Finset V)
    (hcover : ∀ u v, E u v → u ∈ A ∨ v ∈ B) :
    T.card ≤ A.card + B.card := by
  have hleft : (T.filter fun p => p.1 ∈ A).card ≤ A.card := by
    refine Finset.card_le_card_of_injOn Prod.fst (fun p hp => (Finset.mem_filter.mp hp).2)
      fun p hp q hq heq => ?_
    exact h.left_inj p (Finset.mem_filter.mp hp).1 q (Finset.mem_filter.mp hq).1 heq
  have hright : (T.filter fun p => p.1 ∉ A).card ≤ B.card := by
    refine Finset.card_le_card_of_injOn Prod.snd (fun p hp => ?_) fun p hp q hq heq => ?_
    · obtain ⟨hmem, hnot⟩ := Finset.mem_filter.mp hp
      exact (hcover p.1 p.2 (h.edge p hmem)).resolve_left hnot
    · exact h.right_inj p (Finset.mem_filter.mp hp).1 q (Finset.mem_filter.mp hq).1 heq
  have hsplit := Finset.card_filter_add_card_filter_not (s := T) fun p => p.1 ∈ A
  omega

/-- Let `R` hold every unmatched vertex of the left side `X`, and let every neighbour of `R` be
matched with a vertex of `R`. Then no matching has more edges. -/
theorem IsMatching.card_le_of_closed [DecidableEq V] (h : IsMatching E T) (X R : Finset U)
    (hleft : ∀ u v, E u v → u ∈ X)
    (hmatched : ∀ u ∈ X, u ∉ R → ∃ v, (u, v) ∈ S)
    (hclosed : ∀ u ∈ R, ∀ v, E u v → ∃ u' ∈ R, (u', v) ∈ S) : T.card ≤ S.card := by
  -- The cover: what `R` does not hold, and the partners of `R`.
  have hcover :=
    h.card_le_of_cover (X \ R) ((S.filter fun p => p.1 ∈ R).image Prod.snd) fun u v he => by
    by_cases hu : u ∈ R
    · obtain ⟨u', hu', hmem⟩ := hclosed u hu v he
      exact .inr (Finset.mem_image.mpr ⟨(u', v), Finset.mem_filter.mpr ⟨hmem, hu'⟩, rfl⟩)
    · exact .inl (Finset.mem_sdiff.mpr ⟨hleft u v he, hu⟩)
  have hunreached : (X \ R).card ≤ (S.filter fun p => p.1 ∉ R).card := by
    refine (Finset.card_le_card fun u hu => ?_).trans (Finset.card_image_le (f := Prod.fst))
    obtain ⟨huX, huR⟩ := Finset.mem_sdiff.mp hu
    obtain ⟨v, hmem⟩ := hmatched u huX huR
    exact Finset.mem_image.mpr ⟨(u, v), Finset.mem_filter.mpr ⟨hmem, huR⟩, rfl⟩
  have hpartners : ((S.filter fun p => p.1 ∈ R).image Prod.snd).card ≤
      (S.filter fun p => p.1 ∈ R).card := Finset.card_image_le
  have hsplit := Finset.card_filter_add_card_filter_not (s := S) fun p => p.1 ∈ R
  omega

end Matching
