import Mathlib.Algebra.GroupWithZero.Nat
import Mathlib.Algebra.BigOperators.Group.List.Basic

/-!
# Bytes in memory

Memory is a list of bytes, a pointer into it is an offset, and reading past its end fails. A word of
16 bits is stored with its low byte first (`le16`) and read back by `word16`; `leBytes` and
`toWords` are the same for longer numbers and for arrays of words. A file is also a row of blocks of
one size: `blockOf` is the block with a number, and `blockOf_flatMap` says what the blocks of a file
are that was put together.

What lies at an offset is stated as `mem.drop pos = bytes ++ rest`: the form in which a reader that
moves along the memory uses it (`getElem?_of_drop`, `drop_add_of_drop`).
-/

namespace Bytes

open List

/-- Numerals of bytes: every module takes them by this instance, whatever else it imports. -/
instance instNeZeroByte : NeZero 256 := ⟨Nat.succ_ne_zero 255⟩

/-- The byte at an offset where a known byte lies. -/
theorem getElem?_of_drop {mem rest : List UInt8} {pos : ℕ} {b : UInt8}
    (h : mem.drop pos = b :: rest) : mem[pos]? = some b := by
  have hhead : (mem.drop pos)[0]? = some b := by rw [h]; rfl
  rwa [getElem?_drop, add_zero] at hhead

/-- What follows the bytes at an offset lies at the offset after them. -/
theorem drop_add_of_drop {mem bytes rest : List UInt8} {pos : ℕ}
    (h : mem.drop pos = bytes ++ rest) : mem.drop (pos + bytes.length) = rest := by
  rw [← drop_drop, h, drop_left]

/-- A word of 16 bits, low byte first. -/
def le16 (n : ℕ) : List UInt8 := [UInt8.ofNat n, UInt8.ofNat (n / 256)]

@[simp] theorem length_le16 (n : ℕ) : (le16 n).length = 2 := rfl

/-- The word of 16 bits at an offset. -/
def word16 (mem : List UInt8) (pos : ℕ) : Option ℕ := do
  let low ← mem[pos]?
  let high ← mem[pos + 1]?
  some (low.toNat + 256 * high.toNat)

/-- Reading a stored word gives its low 16 bits. -/
theorem word16_of_drop {mem rest : List UInt8} {pos n : ℕ} (h : mem.drop pos = le16 n ++ rest) :
    word16 mem pos = some (n % 2^16) := by
  have hlow : mem[pos]? = some (UInt8.ofNat n) := getElem?_of_drop h
  have hrest : mem.drop pos = [UInt8.ofNat n] ++ UInt8.ofNat (n / 256) :: rest := h
  have hhigh := getElem?_of_drop (drop_add_of_drop hrest)
  have hval : n % 256 + 256 * (n / 256 % 256) = n % 65536 := by omega
  rw [length_singleton] at hhigh
  simp [word16, hlow, hhigh, hval]

/-! ## Numbers in bytes -/

/-- The lowest `k` bytes of a number, low byte first. -/
def leBytes : ℕ → ℕ → List UInt8
  | 0, _ => []
  | k + 1, n => UInt8.ofNat n :: leBytes k (n / 256)

/-- The number that bytes stand for. -/
def leNat : List UInt8 → ℕ
  | [] => 0
  | b :: bytes => b.toNat + 256 * leNat bytes

@[simp] theorem length_leBytes (k n : ℕ) : (leBytes k n).length = k := by
  induction k generalizing n with
  | zero => rfl
  | succ k ih => rw [leBytes, length_cons, ih]

/-- A number that fits is read back. -/
theorem leNat_leBytes {k n : ℕ} (h : n < 256^k) : leNat (leBytes k n) = n := by
  induction k generalizing n with
  | zero =>
    rw [leBytes, leNat]
    omega
  | succ k ih =>
    have hdiv : n / 256 < 256^k := Nat.div_lt_of_lt_mul (by rwa [pow_succ, mul_comm] at h)
    rw [leBytes, leNat, ih hdiv, UInt8.toNat_ofNat']
    omega

/-- The words of 16 bits that bytes stand for. -/
def toWords : List UInt8 → List ℕ
  | low :: high :: bytes => (low.toNat + 256 * high.toNat) :: toWords bytes
  | _ => []

/-- Words are read back. -/
theorem toWords_flatMap {words : List ℕ} (h : ∀ w ∈ words, w < 65536) :
    toWords (words.flatMap le16) = words := by
  induction words with
  | nil => rfl
  | cons w words ih =>
    have hw := h w mem_cons_self
    have hval : (UInt8.ofNat w).toNat + 256 * (UInt8.ofNat (w / 256)).toNat = w := by
      rw [UInt8.toNat_ofNat', UInt8.toNat_ofNat']
      omega
    show ((UInt8.ofNat w).toNat + 256 * (UInt8.ofNat (w / 256)).toNat) :: toWords
      (words.flatMap le16) = w :: words
    rw [hval, ih fun v hv => h v (mem_cons_of_mem w hv)]

theorem length_flatMap_le16 (words : List ℕ) : (words.flatMap le16).length = 2 * words.length := by
  induction words with
  | nil => rfl
  | cons w words ih =>
    rw [flatMap_cons, length_append, length_le16, ih, length_cons]
    omega

/-- An array of numbers of `k` bytes each. -/
def leNats (k : ℕ) : ℕ → List UInt8 → List ℕ
  | 0, _ => []
  | n + 1, bytes => leNat (bytes.take k) :: leNats k n (bytes.drop k)

/-- An array of numbers that fit is read back. -/
theorem leNats_flatMap {k : ℕ} {words : List ℕ} (h : ∀ w ∈ words, w < 256^k) (rest : List UInt8) :
    leNats k words.length (words.flatMap (leBytes k) ++ rest) = words := by
  induction words with
  | nil => rfl
  | cons w words ih =>
    rw [flatMap_cons, append_assoc, length_cons, leNats, take_left' (length_leBytes k w),
      drop_left' (length_leBytes k w),
      leNat_leBytes (h w mem_cons_self), ih fun v hv => h v (mem_cons_of_mem w hv)]

/-! ## Blocks of one size -/

section

variable {α : Type} {f : α → List UInt8} {k : ℕ}

/-- The blocks of a list in which all have the same length. -/
theorem length_flatMap_const {β : Type} {f : α → List β} {l : List α}
    (h : ∀ a ∈ l, (f a).length = k) : (l.flatMap f).length = l.length * k := by
  rw [length_flatMap, map_congr_left h, map_const', sum_replicate_nat]

/-- A block of a file is found at its number times the size of a block. -/
theorem take_drop_flatMap {l : List α} (h : ∀ a ∈ l, (f a).length = k) {i : ℕ} {a : α}
    (hi : l[i]? = some a) (rest : List UInt8) :
    ((l.flatMap f ++ rest).drop (i * k)).take k = f a := by
  induction l generalizing i with
  | nil => cases hi
  | cons b l ih =>
    have hb := h b mem_cons_self
    cases i with
    | zero =>
      rw [getElem?_cons_zero, Option.some_inj] at hi
      rw [zero_mul, drop_zero, flatMap_cons, append_assoc, ← hi, take_left' hb]
    | succ i =>
      rw [Nat.succ_mul, add_comm, ← drop_drop, flatMap_cons, append_assoc, drop_left' hb]
      exact ih (fun c hc => h c (mem_cons_of_mem b hc)) hi

end

/-- The block with a number, if a file is long enough to have it. -/
def blockOf (k : ℕ) (file : List UInt8) (b : ℕ) : Option (List UInt8) :=
  if b < file.length / k then some ((file.drop (b * k)).take k) else none

/-- A file made of blocks has them, and no others. -/
theorem blockOf_flatMap {k : ℕ} (hk : 0 < k) {g : ℕ → List UInt8}
    (h : ∀ b, (g b).length = k) (n b : ℕ) :
    blockOf k ((range n).flatMap g) b = if b < n then some (g b) else none := by
  have hlength : ((range n).flatMap g).length = n * k := by
    rw [length_flatMap_const fun a _ => h a, length_range]
  unfold blockOf
  rw [hlength, Nat.mul_div_cancel n hk]
  by_cases hb : b < n
  · have hget : (range n)[b]? = some b := by rw [getElem?_range hb]
    have hblock := take_drop_flatMap (fun a _ => h a) hget []
    rw [append_nil] at hblock
    rw [if_pos hb, if_pos hb, hblock]
  · rw [if_neg hb, if_neg hb]

/-- A file of full blocks is the list of its blocks. -/
theorem flatMap_blockOf {k : ℕ} {file : List UInt8} {n : ℕ} (h : file.length = n * k) :
    (range n).flatMap (fun b => (file.drop (b * k)).take k) = file := by
  induction n generalizing file with
  | zero =>
    rw [zero_mul] at h
    rw [eq_nil_of_length_eq_zero h]
    rfl
  | succ n ih =>
    have hrest : (file.drop k).length = n * k := by
      rw [length_drop, h, Nat.succ_mul, Nat.add_sub_cancel]
    rw [range_succ_eq_map, flatMap_cons, flatMap_map, zero_mul, drop_zero]
    calc file.take k ++ (range n).flatMap (fun b => (file.drop ((b + 1) * k)).take k)
        = file.take k ++ (range n).flatMap (fun b => ((file.drop k).drop (b * k)).take k) := by
          congr 2
          funext b
          rw [drop_drop, Nat.succ_mul, add_comm]
      _ = file.take k ++ file.drop k := by rw [ih hrest]
      _ = file := take_append_drop k file

/-! ## Powers of two -/

/-- A number that has no bit in common with the one before it is its highest bit. -/
theorem eq_two_pow_of_and_pred {n j : ℕ} (hlow : 2^j ≤ n) (hhigh : n < 2^(j + 1))
    (h : n &&& (n - 1) = 0) : n = 2^j := by
  by_contra hnot
  have htest := Nat.testBit_and n (n - 1) j
  rw [h, Nat.zero_testBit, Nat.testBit_of_two_pow_le_and_two_pow_add_one_gt hlow hhigh,
    Nat.testBit_of_two_pow_le_and_two_pow_add_one_gt (by omega) (by omega)] at htest
  exact absurd htest (by decide)

/-! ## Scanning -/

/-- The loop `while (i < stop && p(i)) i++`: where it ends when it starts at `i`. -/
def scanWhile (p : ℕ → Bool) (stop i : ℕ) : ℕ :=
  if i < stop ∧ p i = true then scanWhile p stop (i + 1) else i
termination_by stop - i

theorem le_scanWhile (p : ℕ → Bool) (stop i : ℕ) : i ≤ scanWhile p stop i := by
  fun_induction scanWhile p stop i <;> omega

theorem scanWhile_le {p : ℕ → Bool} {stop i : ℕ} (h : i ≤ stop) : scanWhile p stop i ≤ stop := by
  fun_induction scanWhile p stop i with
  | case1 i hi ih => exact ih (by omega)
  | case2 i hi => exact h

/-- The predicate holds of all that is scanned. -/
theorem of_lt_scanWhile {p : ℕ → Bool} {stop i x : ℕ} (hx : i ≤ x) (hlt : x < scanWhile p stop i) :
    p x = true := by
  fun_induction scanWhile p stop i with
  | case1 i hi ih =>
    rcases Nat.eq_or_lt_of_le hx with rfl | hx
    · exact hi.2
    · exact ih hx hlt
  | case2 i hi => omega

/-- The scan ends before `stop` only where the predicate fails. -/
theorem eq_false_of_scanWhile_lt {p : ℕ → Bool} {stop i : ℕ} (h : scanWhile p stop i < stop) :
    p (scanWhile p stop i) = false := by
  fun_induction scanWhile p stop i with
  | case1 i hi ih => exact ih h
  | case2 i hi => simpa [h] using hi

end Bytes
