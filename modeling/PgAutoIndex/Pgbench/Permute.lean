import Mathlib.Data.Int.CardIntervalMod
import Mathlib.Data.Int.ConditionallyCompleteOrder
import Mathlib.Data.Nat.Bitwise
import Mathlib.Data.Nat.Prime.Basic

/-!
# The permutation function of pgbench

`permute` of `src/bin/pgbench/pgbench.c`. Each of its six rounds multiplies, xors and rotates the
values below a power of two, does the same with the values at the upper end, counted from there, and
adds an offset. The values that the pseudorandom generator gives are arbitrary, but do not depend on
the value permuted.

Words are numbers below `2^64`, with the wrap-around of their arithmetic written out.
-/

namespace PgAutoIndex.Pgbench

open Set

/-- The values that a round draws: two of `pg_prng_uint64` for each half, and one of
`pg_prng_uint64_range` up to `size - 1`. -/
structure Round (size : ℕ) where
  lowerFactor : ℕ
  lowerXor : ℕ
  upperFactor : ℕ
  upperXor : ℕ
  offset : ℕ
  offset_lt : offset < size

/-- Multiply by an odd number, xor and rotate a value of at most `masklen` bits, with two values
drawn. -/
def scramble (masklen m r v : ℕ) : ℕ :=
  let mask := 1 <<< masklen - 1
  let m := (m &&& mask) ||| 1
  let r := r &&& mask
  let v := (v * m % 2^64 ^^^ r) &&& mask
  (v <<< 1 % 2^64 &&& mask) ||| v >>> (masklen - 1)

/-- A round of the loop of `permute`. -/
def permuteRound {size : ℕ} (masklen : ℕ) (v : ℕ) (round : Round size) : ℕ :=
  let mask := 1 <<< masklen - 1
  let v := if v ≤ mask then scramble masklen round.lowerFactor round.lowerXor v else v
  let t := (size - 1 + 2^64 - v) % 2^64
  let v := if t ≤ mask
    then (size - 1 + 2^64 - scramble masklen round.upperFactor round.upperXor t) % 2^64 else v
  (v + round.offset) % 2^64 % size

/-- `permute`, with what the seed makes the generator give in each round. -/
def permute (val isize : ℤ) (rounds : Fin 6 → Round isize.toNat) : ℤ :=
  if isize < 2 then 0
  else
    let size := isize.toNat
    let v := (val % 2^64).toNat % size
    ((List.ofFn rounds).foldl (permuteRound size.log2) v : ℕ)

/-! ## Bijections of an initial segment -/

variable {size masklen m r : ℕ}

/-- A map of an initial segment to itself that is injective there. -/
theorem bijOn_of_injOn {f : ℕ → ℕ} (hmaps : MapsTo f (Iio size) (Iio size))
    (hinj : InjOn f (Iio size)) : BijOn f (Iio size) (Iio size) :=
  ((finite_Iio size).injOn_iff_bijOn_of_mapsTo hmaps).mp hinj

theorem bijOn_reflect (size : ℕ) : BijOn (size - 1 - ·) (Iio size) (Iio size) := by
  refine bijOn_of_injOn (fun v hv => ?_) fun v hv w hw h => ?_
  all_goals
    simp only [mem_Iio] at *
    omega

theorem bijOn_offset (offset : ℕ) (h : 0 < size) :
    BijOn (fun v => (v + offset) % size) (Iio size) (Iio size) := by
  refine bijOn_of_injOn (fun v _ => Nat.mod_lt _ h) fun v hv w hw heq => ?_
  exact (Nat.ModEq.add_right_cancel' offset heq).eq_of_lt_of_lt hv hw

/-- The integers of the segment. -/
theorem bijOn_toNat {isize : ℤ} {f : ℤ → ℤ} {g : ℕ → ℕ}
    (hg : BijOn g (Iio isize.toNat) (Iio isize.toNat))
    (hf : ∀ val ∈ Ico 0 isize, f val = g val.toNat) : BijOn f (Ico 0 isize) (Ico 0 isize) := by
  have hinv : InvOn Nat.cast Int.toNat (Ico 0 isize) (Iio isize.toNat) :=
    ⟨fun val hval => Int.toNat_of_nonneg hval.1, fun v _ => Int.toNat_natCast v⟩
  have hcast : MapsTo Nat.cast (Iio isize.toNat) (Ico 0 isize) :=
    fun v hv => ⟨Int.natCast_nonneg v, Int.lt_toNat.mp hv⟩
  have htoNat :=
    hinv.bijOn (fun val hval => (Int.toNat_lt_toNat (hval.1.trans_lt hval.2)).mpr hval.2) hcast
  exact ((htoNat.symm hinv.symm).comp (hg.comp htoNat)).congr fun val hval => (hf val hval).symm

/-- Multiplication of a value of `k + 1` bits by an odd number, and xor. -/
def mix (k m r v : ℕ) : ℕ := v * (m % 2^(k + 1) ||| 1) % 2^(k + 1) ^^^ r % 2^(k + 1)

/-- The upmost of `k + 1` bits moves to the lower end. -/
def rotate (k v : ℕ) : ℕ := 2 * (v % 2^k) + v / 2^k

theorem mix_lt (k m r v : ℕ) : mix k m r v < 2^(k + 1) :=
  Nat.xor_lt_two_pow (Nat.mod_lt _ (Nat.two_pow_pos _)) (Nat.mod_lt _ (Nat.two_pow_pos _))

/-- Odd numbers are coprime to powers of two. -/
theorem bijOn_mix (k m r : ℕ) : BijOn (mix k m r) (Iio (2^(k + 1))) (Iio (2^(k + 1))) := by
  refine bijOn_of_injOn (fun v _ => mix_lt k m r v) fun v hv w hw heq => ?_
  have hodd : Odd (m % 2^(k + 1) ||| 1) := Nat.odd_iff.mpr (Nat.or_mod_two_eq_one.mpr (.inr rfl))
  have hcoprime := (Nat.coprime_two_left.mpr hodd).pow_left (k + 1)
  exact (Nat.ModEq.cancel_right_of_coprime hcoprime (Nat.xor_left_inj.mp heq)).eq_of_lt_of_lt hv hw

theorem bijOn_rotate (k : ℕ) : BijOn (rotate k) (Iio (2^(k + 1))) (Iio (2^(k + 1))) := by
  have hmod := fun v => Nat.mod_lt v (Nat.two_pow_pos k)
  have hbit : ∀ v ∈ Iio (2^(k + 1)), v / 2^k < 2 := fun v hv => Nat.div_lt_of_lt_mul hv
  refine bijOn_of_injOn (fun v hv => ?_) fun v hv w hw heq => ?_
  · have := hmod v
    have := hbit v hv
    rw [mem_Iio, rotate, pow_succ]
    omega
  · have hsplit : ∀ a b c d : ℕ, b < 2 → d < 2 → 2 * a + b = 2 * c + d → a = c ∧ b = d := by omega
    obtain ⟨hlow, hhigh⟩ := hsplit _ _ _ _ (hbit v hv) (hbit w hw) heq
    rw [← Nat.div_add_mod v (2^k), ← Nat.div_add_mod w (2^k), hlow, hhigh]

theorem scramble_eq {k : ℕ} (hk : k < 63) (v : ℕ) :
    scramble (k + 1) m r v = rotate k (mix k m r v) := by
  have hdvd : 2^(k + 1) ∣ 2^64 := Nat.pow_dvd_pow 2 (by omega)
  have hlt := mix_lt k m r v
  unfold scramble rotate
  simp only [Nat.one_shiftLeft, Nat.and_two_pow_sub_one_eq_mod, Nat.xor_mod_two_pow, Nat.mod_mod,
    Nat.mod_mod_of_dvd _ hdvd,
    Nat.add_sub_cancel]
  change (mix k m r v <<< 1 % 2^(k + 1)) ||| mix k m r v >>> k = _
  rw [pow_succ] at hlt ⊢
  rw [Nat.shiftLeft_eq, pow_one, Nat.mul_mod_mul_right, Nat.shiftRight_eq_div_pow, mul_comm _ 2,
    ← pow_one 2, ← Nat.two_pow_add_eq_or_of_lt (Nat.div_lt_of_lt_mul hlt), pow_one]

theorem bijOn_scramble {k : ℕ} (hk : k < 63) (m r : ℕ) :
    BijOn (scramble (k + 1) m r) (Iio (2^(k + 1))) (Iio (2^(k + 1))) :=
  ((bijOn_rotate k).comp (bijOn_mix k m r)).congr fun v _ => (scramble_eq hk v).symm

section
variable (hpos : masklen ≠ 0) (hlt : masklen < 64) (hle : 2^masklen ≤ size)
include hpos hlt hle

/-- Scrambling the lower half. -/
theorem bijOn_lower (m r : ℕ) :
    BijOn (fun v => if v ≤ 1 <<< masklen - 1 then scramble masklen m r v
      else v) (Iio size) (Iio size) := by
  obtain ⟨k, rfl⟩ := Nat.exists_eq_succ_of_ne_zero hpos
  have hbij := bijOn_scramble (k := k) (by omega) m r
  have hmask : ∀ v, v ≤ 1 <<< (k + 1) - 1 ↔ v < 2^(k + 1) := fun v => by
    have := Nat.two_pow_pos (k + 1)
    rw [Nat.one_shiftLeft]
    omega
  simp only [Nat.succ_eq_add_one, hmask] at hle ⊢
  refine bijOn_of_injOn (fun v hv => ?_) fun v hv w hw heq => ?_
  · rw [mem_Iio]
    split_ifs with h
    · exact (hbij.mapsTo h).trans_le hle
    · exact hv
  · split_ifs at heq with h h'
    · exact hbij.injOn h h' heq
    · exact absurd (heq ▸ hbij.mapsTo h) h'
    · exact absurd (heq ▸ hbij.mapsTo ‹_›) h
    · exact heq

/-- A round is a bijection. -/
theorem bijOn_permuteRound (hsize : size < 2^63) (round : Round size) :
    BijOn (fun v => permuteRound masklen v round) (Iio size) (Iio size) := by
  have hupper :=
    (bijOn_reflect size).comp
      ((bijOn_lower hpos hlt hle round.upperFactor round.upperXor).comp (bijOn_reflect size))
  have hlower := bijOn_lower hpos hlt hle round.lowerFactor round.lowerXor
  refine ((bijOn_offset round.offset (Nat.zero_lt_of_lt round.offset_lt)).comp
    (hupper.comp hlower)).congr fun v hv => ?_
  have hu := hlower.mapsTo hv
  have hreflect := (bijOn_reflect size).mapsTo hu
  have hw := (bijOn_lower hpos hlt hle round.upperFactor round.upperXor).mapsTo hreflect
  have hoffset := round.offset_lt
  unfold permuteRound
  simp only [Function.comp_apply, mem_Iio] at hu hreflect hw ⊢
  generalize (if v ≤ 1 <<< masklen - 1 then _ else v) = u at hu hreflect hw ⊢
  have ht : (size - 1 + 2^64 - u) % 2^64 = size - 1 - u := by omega
  rw [ht]
  split_ifs at hw ⊢
  · have hback : (size - 1 + 2^64 - scramble masklen round.upperFactor round.upperXor
      (size - 1 - u)) % 2^64 =
        size - 1 - scramble masklen round.upperFactor round.upperXor (size - 1 - u) := by omega
    rw [hback]
    congr 1
    omega
  · congr 1
    omega

end

theorem bijOn_foldl {α : Type*} {f : ℕ → α → ℕ}
    (h : ∀ a, BijOn (fun v => f v a) (Iio size) (Iio size)) (as : List α) :
    BijOn (fun v => as.foldl f v) (Iio size) (Iio size) := by
  induction as with
  | nil => exact bijOn_id _
  | cons a as ih => exact ih.comp (h a)

/-- For every size and every choice of the values drawn, `permute` is a permutation of the numbers
below the size. -/
theorem permute_bijective (isize : ℤ) (hmin : 2 ≤ isize) (hmax : isize < 2^63)
    (rounds : Fin 6 → Round isize.toNat) :
    BijOn (fun val => permute val isize rounds) (Ico 0 isize) (Ico 0 isize) := by
  have hlog : isize.toNat.log2 < 63 := (Nat.log2_lt (by omega)).mpr (by omega)
  have hone : 1 ≤ isize.toNat.log2 := (Nat.le_log2 (by omega)).mpr (by omega)
  have hbij :=
    bijOn_foldl (bijOn_permuteRound (by omega) (by omega) (Nat.log2_self_le (by omega)) (by omega))
      (List.ofFn rounds)
  refine bijOn_toNat hbij fun val hval => ?_
  rw [permute, if_neg (by omega)]
  dsimp only
  rw [Int.emod_eq_of_lt hval.1 (hval.2.trans (by omega)),
    Nat.mod_eq_of_lt ((Int.toNat_lt_toNat (by omega)).mpr hval.2)]

/-- The numbers below three, with the same values drawn in every round. -/
theorem permute_bijective_three : (2 : ℤ) ≤ 3 ∧ (3 : ℤ) < 2^63 ∧
    BijOn (fun val => permute val 3 fun _ => ⟨5, 1, 3, 0, 2, by decide⟩) (Ico 0 3) (Ico 0 3) :=
  ⟨by decide, by decide, permute_bijective 3 (by decide) (by decide) _⟩

end PgAutoIndex.Pgbench
