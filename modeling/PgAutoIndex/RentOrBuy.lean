import Mathlib.Algebra.Order.BigOperators.Group.List
import Mathlib.Tactic.Linarith
import Mathlib.Tactic.Ring

/-!
# Renting in batches

The rent-or-buy problem with costs that arrive in batches. A policy pays every cost of a batch, and
only then compares: it buys once it has paid for at least `m` costs and they come to at least the
price `B`. The best one could do with all costs known in advance is to pay the smaller of their sum
and `B`.

When each batch is one small cost and `m` is one, the policy pays about twice that. In general it
pays more, by the batch with which it buys, since it was below the price only before that batch, and
by what the first `m - 1` costs come to above the price, since it may not buy before. `pays_le` is
that bound.
-/

namespace RentOrBuy

open List

variable {K : Type*} [CommRing K] [LinearOrder K]

/-- What the policy pays for the remaining batches, when it has paid `rent` for `count` costs. -/
def pays (B : K) (m : ℕ) (rent : K) (count : ℕ) : List (List K) → K
  | [] => 0
  | b :: bs => b.sum +
      if m ≤ count + b.length ∧ B ≤ rent + b.sum then B
      else pays B m (rent + b.sum) (count + b.length) bs

/-- The cost of the batch with which the policy buys, `0` if it does not. -/
def buyingBatch (B : K) (m : ℕ) (rent : K) (count : ℕ) : List (List K) → K
  | [] => 0
  | b :: bs =>
      if m ≤ count + b.length ∧ B ≤ rent + b.sum then b.sum
      else buyingBatch B m (rent + b.sum) (count + b.length) bs

variable [IsStrictOrderedRing K]

/-- A policy that may not buy yet has paid at most the price, or what the first costs come to. -/
theorem paid_le {B : K} {m : ℕ} {past : List K} (rest : List K) (hrest : ∀ c ∈ rest, 0 ≤ c)
    (hwait : past.length < m ∨ past.sum < B) :
    past.sum ≤ B + max 0 (((past ++ rest).take (m - 1)).sum - B) := by
  rcases hwait with hcount | hrent
  · -- Too few costs so far: they are among the first `m - 1`.
    have htake : (past ++ rest).take (m - 1) = past ++ rest.take (m - 1 - past.length) := by
      rw [take_append, take_of_length_le (by omega)]
    have hnonneg : 0 ≤ (rest.take (m - 1 - past.length)).sum :=
      sum_nonneg fun c hc => hrest c (mem_of_mem_take hc)
    have hmax := le_max_right 0 (((past ++ rest).take (m - 1)).sum - B)
    rw [htake, sum_append] at hmax ⊢
    linarith
  · -- Below the price so far.
    have hmax := le_max_left 0 (((past ++ rest).take (m - 1)).sum - B)
    linarith

/-- The bound, for a policy that has paid for the costs `past` and has not bought. -/
theorem past_add_pays_le {B : K} {m : ℕ} (hB : 0 ≤ B) (bs : List (List K)) (past : List K)
    (hpast : ∀ c ∈ past, 0 ≤ c) (hbs : ∀ b ∈ bs, ∀ c ∈ b, 0 ≤ c)
    (hwait : past.length < m ∨ past.sum < B) :
    past.sum + pays B m past.sum past.length bs ≤
      2 * min (past ++ bs.flatten).sum B + buyingBatch B m past.sum past.length bs +
        max 0 (((past ++ bs.flatten).take (m - 1)).sum - B) := by
  induction bs generalizing past with
  | nil =>
    -- No batch is left: what has been paid is below both terms of the minimum, doubled.
    have hnonneg : 0 ≤ past.sum := sum_nonneg hpast
    have hle := paid_le [] (by simp) hwait
    have hmax := le_max_left 0 (((past ++ []).take (m - 1)).sum - B)
    simp only [pays, buyingBatch, flatten_nil, append_nil, add_zero] at hle hmax ⊢
    rcases min_cases past.sum B with ⟨hmin, -⟩ | ⟨hmin, -⟩ <;> rw [hmin] <;> linarith
  | cons b bs ih =>
    obtain ⟨hb, hbs'⟩ := forall_mem_cons.mp hbs
    have hall : ∀ c ∈ (b :: bs).flatten, 0 ≤ c := by
      intro c hc
      obtain ⟨b', hb', hc'⟩ := mem_flatten.mp hc
      exact hbs b' hb' c hc'
    rw [pays, buyingBatch]
    split_ifs with hbuy
    · -- Bought: the costs paid come to the price, so that the smaller of the two is the price.
      have hsum : (past ++ (b :: bs).flatten).sum = past.sum + b.sum + bs.flatten.sum := by
        simp [add_assoc]
      have hflat : 0 ≤ bs.flatten.sum :=
        sum_nonneg fun c hc => hall c (mem_append_right b hc)
      have hmin : min (past ++ (b :: bs).flatten).sum B = B :=
        min_eq_right (by rw [hsum]; linarith [hbuy.2])
      have hle := paid_le (b :: bs).flatten hall hwait
      rw [hmin]
      calc past.sum + (b.sum + B)
          ≤ B + max 0 (((past ++ (b :: bs).flatten).take (m - 1)).sum - B) + (b.sum + B) := by
            gcongr
        _ = 2 * B + b.sum + max 0 (((past ++ (b :: bs).flatten).take (m - 1)).sum - B) := by ring
    · -- Not bought: the batch joins the costs paid.
      have hwait' : (past ++ b).length < m ∨ (past ++ b).sum < B := by
        rw [not_and_or, not_le, not_le] at hbuy
        simpa using hbuy
      have hnext := ih (past ++ b) (by simpa [or_imp, forall_and] using ⟨hpast, hb⟩) hbs' hwait'
      rw [flatten_cons, ← add_assoc, sum_append, sum_append]
      simpa [sum_append] using hnext

/-- The policy pays at most twice the optimum, and in addition the batch with which it buys and what
the costs before the `m`-th come to above the price. -/
theorem pays_le {B : K} {m : ℕ} (hB : 0 ≤ B) (hm : 0 < m) (bs : List (List K))
    (hbs : ∀ b ∈ bs, ∀ c ∈ b, 0 ≤ c) :
    pays B m 0 0 bs ≤ 2 * min bs.flatten.sum B + buyingBatch B m 0 0 bs +
      max 0 ((bs.flatten.take (m - 1)).sum - B) := by
  have h := past_add_pays_le hB bs [] (by simp) hbs (.inl hm)
  simpa using h

end RentOrBuy
