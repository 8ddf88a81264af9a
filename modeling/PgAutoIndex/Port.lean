import PgAutoIndex.Bytes

/-!
# What the files of the server share

Constants and helpers of `pg_config.h`, `c.h` and `port/pg_bitutils.h` that more than one of the
modelled files uses.
-/

namespace PgAutoIndex

/-- `BLCKSZ`, the size of a page. -/
def BLCKSZ : ℕ := 8192

/-- `MAXALIGN` and `MAXALIGN64`. -/
def maxalign (len : ℕ) : ℕ := (len + 7) / 8 * 8

/-- Subtraction of unsigned 64-bit integers. -/
def sub64 (a b : ℕ) : ℕ := (a + 2^64 - b) % 2^64

/-- Without a borrow it is subtraction. -/
theorem sub64_of_le {a b : ℕ} (hle : b ≤ a) (hlt : a < 2^64) : sub64 a b = a - b := by
  unfold sub64
  omega

/-- `pg_nextpower2_32` and `pg_nextpower2_64`, which differ in the type only. -/
def pgNextpower2 (num : ℕ) : ℕ :=
  if num &&& (num - 1) = 0 then num else 1 <<< (Nat.log2 num + 1)

/-- The smallest power of two that is not below a positive number. -/
theorem pgNextpower2_spec {num : ℕ} (hpos : 0 < num) :
    ∃ k, pgNextpower2 num = 2^k ∧ num ≤ 2^k ∧ 2^k < 2 * num := by
  have hlow := Nat.log2_self_le (Nat.ne_of_gt hpos)
  have hhigh : num < 2^(Nat.log2 num + 1) := Nat.lt_log2_self
  unfold pgNextpower2
  generalize Nat.log2 num = l at *
  split_ifs with hand
  · have hpow := Bytes.eq_two_pow_of_and_pred hlow hhigh hand
    exact ⟨l, hpow, Nat.le_of_eq hpow, by omega⟩
  · refine ⟨l + 1, Nat.one_shiftLeft _, Nat.le_of_lt hhigh, ?_⟩
    -- A power of two would have passed the test.
    have hne : num ≠ 2^l := by
      rintro rfl
      rw [Nat.and_two_pow_sub_one_eq_mod, Nat.mod_self] at hand
      exact hand rfl
    omega

end PgAutoIndex
