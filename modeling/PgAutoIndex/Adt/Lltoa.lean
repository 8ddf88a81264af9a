import PgAutoIndex.Adt.Strtoint

/-!
# Writing integers

Model of `pg_ulltoa_n` and `pg_lltoa` in `src/backend/utils/adt/numutils.c`. The memory that the
caller provides is a list of bytes; a write outside of it has the result `none`. Positions are
integers, so that a position before the start shows.

The length is computed first, and the digits are written from the last one to the first, two at a
time. `Emitted` says what is in the memory after `i` digits; `memcpy2_emitted` is one pair, and the
groups of eight, four and two digits are sequences of pairs.
-/

namespace PgAutoIndex.Adt

open List Option

/-! ## The functions -/

/-- `MAXINT8LEN`. -/
def MAXINT8LEN : ℕ := 20

/-- `DIGIT_TABLE`: the two digits of 0, 1 and so on up to 99. -/
def digitTable (k : ℕ) : Fin 256 :=
  Fin.ofNat 256 (48 + (if k % 2 = 0 then k / 2 / 10 else k / 2 % 10))

/-- `decimalLength64`; `Nat.log2` is `pg_leftmost_one_pos64`, and the table of powers has entries up
to 19. -/
def decimalLength64 (v : ℕ) : ℕ :=
  let t := (Nat.log2 v + 1) * 1233 / 4096
  t + (if v ≥ 10^t then 1 else 0)

/-- Write one byte. -/
def writeByte (a : List (Fin 256)) (pos : ℤ) (c : Fin 256) : Option (List (Fin 256)) :=
  if 0 ≤ pos ∧ pos < a.length then some (a.set pos.toNat c) else none

/-- `memcpy(pos, DIGIT_TABLE + k, 2)`. -/
def memcpy2 (a : List (Fin 256)) (pos : ℤ) (k : ℕ) : Option (List (Fin 256)) :=
  (writeByte a pos (digitTable k)).bind fun a => writeByte a (pos + 1) (digitTable (k + 1))

/-- Eight digits, from the body of the loop. -/
def memcpy8 (a : List (Fin 256)) (pos : ℤ) (value3 : ℕ) : Option (List (Fin 256)) :=
  let c := value3 % 10000
  let d := value3 / 10000
  let c0 := (c % 100) <<< 1
  let c1 := (c / 100) <<< 1
  let d0 := (d % 100) <<< 1
  let d1 := (d / 100) <<< 1
  (memcpy2 a (pos - 2) c0).bind fun a => (memcpy2 a (pos - 4) c1).bind fun a =>
    (memcpy2 a (pos - 6) d0).bind fun a => memcpy2 a (pos - 8) d1

/-- The loop of `pg_ulltoa_n`, for a text that starts at `start`; the result is the memory with `i`
and `value`. -/
def ulltoaLoop (start olength : ℕ) (a : List (Fin 256)) (i value : ℕ) :
    Option (List (Fin 256) × ℕ × ℕ) :=
  if 100000000 ≤ value then
    let q := value / 100000000
    let value3 := (value - 100000000 * q) % 2^32
    let pos : ℤ := start + olength - i
    match memcpy8 a pos value3 with
    | none => none
    | some a => ulltoaLoop start olength a (i + 8) q
  else some (a, i, value)
termination_by value
decreasing_by omega

/-- Four more digits when there are more than four. -/
def ulltoaFour (start olength : ℕ) (a : List (Fin 256)) (i value2 : ℕ) :
    Option (List (Fin 256) × ℕ × ℕ) :=
  if value2 ≥ 10000 then
    let c := value2 - 10000 * (value2 / 10000)
    let c0 := (c % 100) <<< 1
    let c1 := (c / 100) <<< 1
    let pos : ℤ := start + olength - i
    (memcpy2 a (pos - 2) c0).bind fun a =>
      (memcpy2 a (pos - 4) c1).map fun a => (a, i + 4, value2 / 10000)
  else some (a, i, value2)

/-- Two more digits when there are more than two. -/
def ulltoaTwo (start olength : ℕ) (a : List (Fin 256)) (i value2 : ℕ) :
    Option (List (Fin 256) × ℕ × ℕ) :=
  if value2 ≥ 100 then
    let c := (value2 % 100) <<< 1
    let pos : ℤ := start + olength - i
    (memcpy2 a (pos - 2) c).map fun a => (a, i + 2, value2 / 100)
  else some (a, i, value2)

/-- The last one or two digits. -/
def ulltoaLast (start olength : ℕ) (a : List (Fin 256)) (i value2 : ℕ) : Option (List (Fin 256)) :=
  if value2 ≥ 10 then
    let c := value2 <<< 1
    let pos : ℤ := start + olength - i
    memcpy2 a (pos - 2) c
  else writeByte a start (Fin.ofNat 256 (48 + value2))

/-- `pg_ulltoa_n` at `a + start`; the result is the memory and the length. -/
def pgUlltoaN (value : ℕ) (a : List (Fin 256)) (start : ℕ) : Option (List (Fin 256) × ℕ) :=
  if value = 0 then (writeByte a start 48).map fun a => (a, 1)
  else
    let olength := decimalLength64 value
    match ulltoaLoop start olength a 0 value with
    | none => none
    | some (a, i, value) =>
      match ulltoaFour start olength a i (value % 2^32) with
      | none => none
      | some (a, i, value2) =>
        match ulltoaTwo start olength a i value2 with
        | none => none
        | some (a, i, value2) => (ulltoaLast start olength a i value2).map fun a => (a, olength)

/-- `pg_lltoa`. -/
def pgLltoa (value : ℤ) (a : List (Fin 256)) : Option (List (Fin 256) × ℕ) :=
  let uvalue := (value % 2^64).toNat
  let signed :=
    if value < 0 then (writeByte a 0 charMinus).map fun a => (a, (2^64 - uvalue) % 2^64, 1)
    else some (a, uvalue, 0)
  match signed with
  | none => none
  | some (a, uvalue, len) =>
    match pgUlltoaN uvalue a len with
    | none => none
    | some (a, n) => (writeByte a ((len + n : ℕ) : ℤ) 0).map fun a => (a, len + n)

/-! ## The canonical text -/

/-- The character of a decimal digit. -/
def digitByte (d : ℕ) : Fin 256 := Fin.ofNat 256 (48 + d)

/-- The decimal text of a natural number. -/
def natText (n : ℕ) : List (Fin 256) := (Nat.toDigits 10 n).map fun c => Fin.ofNat 256 c.toNat

/-- The decimal text of an integer. -/
def intText (v : ℤ) : List (Fin 256) :=
  if v < 0 then charMinus :: natText v.natAbs else natText v.natAbs

theorem digitChar_byte : ∀ d :
    Fin 10, Fin.ofNat 256 (Nat.digitChar d.val).toNat = digitByte d.val := by decide

/-- The last digit of a text comes off the end. -/
theorem natText_eq (n : ℕ) :
    natText n = (if n < 10 then [] else natText (n / 10)) ++ [digitByte (n % 10)] := by
  unfold natText
  rw [Nat.toDigits_eq_if (by decide)]
  have hlast : Fin.ofNat 256 (Nat.digitChar (n % 10)).toNat = digitByte (n % 10) :=
    digitChar_byte ⟨n % 10, Nat.mod_lt _ (by decide)⟩
  split_ifs with h
  · rw [map_singleton, ← hlast, Nat.mod_eq_of_lt h]
    rfl
  · rw [map_append, map_singleton, ← hlast]

theorem length_natText (n : ℕ) :
    (natText n).length = (if n < 10 then 0 else (natText (n / 10)).length) + 1 := by
  conv_lhs => rw [natText_eq]
  split_ifs
  · rfl
  · rw [length_append, length_singleton]

theorem length_natText_pos (n : ℕ) : 0 < (natText n).length := by
  rw [length_natText]
  omega

/-- A number of `L` digits is at least the power of ten before and below the power after. -/
theorem natText_bounds (n : ℕ) (hn : 0 < n) :
    10^((natText n).length - 1) ≤ n ∧ n < 10^(natText n).length := by
  induction n using Nat.strong_induction_on with
  | _ n ih =>
    rw [length_natText]
    split_ifs with h
    · exact ⟨hn, h⟩
    · obtain ⟨hlow, hhigh⟩ := ih (n / 10) (by omega) (by omega)
      have hpos := length_natText_pos (n / 10)
      generalize (natText (n / 10)).length = L at hlow hhigh hpos ⊢
      obtain _ | L := L
      · omega
      rw [Nat.add_sub_cancel] at hlow ⊢
      omega

/-- The digit at a place, counted from the end. -/
theorem natText_getElem? (n j : ℕ) (hj : j < (natText n).length) :
    (natText n)[(natText n).length - 1 - j]? = some (digitByte (n / 10^j % 10)) := by
  induction n using Nat.strong_induction_on generalizing j with
  | _ n ih =>
    have hlength := length_natText n
    rw [natText_eq]
    split_ifs at hlength ⊢ with h
    · obtain rfl : j = 0 := by omega
      rw [pow_zero, Nat.div_one]
      rfl
    · rw [length_append, length_singleton, Nat.add_sub_cancel]
      cases j with
      | zero =>
        rw [Nat.sub_zero, getElem?_append_right (Nat.le_refl _), Nat.sub_self, Nat.pow_zero,
          Nat.div_one]
        rfl
      | succ j =>
        have hlt : j < (natText (n / 10)).length := by omega
        rw [getElem?_append_left (by omega),
          show (natText (n / 10)).length - (j + 1) = (natText (n / 10)).length - 1 - j by omega,
          ih (n / 10) (by omega) j hlt, Nat.div_div_eq_div_mul, Nat.pow_succ']

/-! ## The length -/

theorem lt_of_pow_lt {k l : ℕ} : 10^k < 10^l → k < l := (Nat.pow_lt_pow_iff_right (by decide)).mp

/-- The estimate of the length from the position of the highest bit is right or one too small. -/
theorem estimate_bounds : ∀ k : Fin 64, 10^((k.val + 1) * 1233 / 4096 - 1) ≤ 2^k.val ∧
    2^(k.val + 1) ≤ 10^((k.val + 1) * 1233 / 4096 + 1) := by decide +kernel

/-- `decimalLength64` is the number of digits. -/
theorem decimalLength64_eq {v : ℕ} (hpos : 0 < v) (hv : v < 2^64) :
    decimalLength64 v = (natText v).length := by
  have hlog : Nat.log2 v < 64 := (Nat.log2_lt (by omega)).mpr hv
  obtain ⟨hlow, hhigh⟩ := estimate_bounds ⟨Nat.log2 v, hlog⟩
  have hself : 2^(Nat.log2 v) ≤ v := Nat.log2_self_le (by omega)
  have hlt : v < 2^(Nat.log2 v + 1) := Nat.lt_log2_self
  obtain ⟨htextlow, htexthigh⟩ := natText_bounds v hpos
  have hlength := length_natText_pos v
  unfold decimalLength64
  dsimp only at hlow hhigh ⊢
  generalize (Nat.log2 v + 1) * 1233 / 4096 = t at hlow hhigh ⊢
  generalize (natText v).length = L at htextlow htexthigh hlength ⊢
  split_ifs with hge
  · -- The power of ten is reached, so there is one digit more.
    have h1 := lt_of_pow_lt (lt_of_le_of_lt hge htexthigh)
    have h2 := lt_of_pow_lt (lt_of_le_of_lt htextlow (lt_of_lt_of_le hlt hhigh))
    omega
  · have h1 := lt_of_pow_lt (lt_of_le_of_lt (hlow.trans hself) htexthigh)
    have h2 := lt_of_pow_lt (lt_of_le_of_lt htextlow (not_le.mp hge))
    omega

/-! ## The digits -/

variable {a : List (Fin 256)} {pos : ℤ} {i value2 : ℕ}

/-- A write inside of the memory. -/
theorem writeByte_eq {p : ℕ} (h : p < a.length) (hpos : pos = p) (c : Fin 256) :
    writeByte a pos c = some (a.set p c) := by
  subst hpos
  exact if_pos ⟨by omega, by omega⟩

/-- The pair of digits of a number below 100 in the table. -/
theorem digitTable_pair (c : ℕ) :
    digitTable (c <<< 1) = digitByte (c / 10) ∧ digitTable (c <<< 1 + 1) = digitByte (c % 10) := by
  unfold digitTable digitByte
  constructor
  · rw [if_pos (by omega)]
    congr 2
    omega
  · rw [if_neg (by omega)]
    congr 2
    omega

section
variable {N start L : ℕ} {a₀ : List (Fin 256)}

/-- The last `i` digits of the number are in their places in the memory, and the rest of it is as
before. -/
structure Emitted (N start L : ℕ) (a₀ : List (Fin 256)) (i : ℕ) (a : List (Fin 256)) : Prop where
  length_eq : a.length = a₀.length
  get : ∀ p, a[p]? =
    if start + L - i ≤ p ∧ p < start + L then some (digitByte (N / 10^(start + L - 1 - p) % 10))
    else a₀[p]?

theorem emitted_zero : Emitted N start L a₀ 0 a₀ := ⟨rfl, fun p => by rw [if_neg (by omega)]⟩

variable (hroom : start + L ≤ a₀.length)
include hroom

/-- One digit written before the ones that are there. -/
theorem Emitted.set (h : Emitted N start L a₀ i a) (hi : i < L) {p : ℕ} (hp : p = start + L - i - 1)
    {d : ℕ} (hd : d = N / 10^i % 10) :
    Emitted N start L a₀ (i + 1) (a.set p (digitByte d)) := by
  refine ⟨by rw [length_set, h.length_eq], fun q => ?_⟩
  rw [getElem?_set, h.length_eq, h.get q]
  by_cases hpq : p = q
  · subst hpq
    rw [if_pos rfl, if_pos (by omega), if_pos (by omega), hd, show start + L - 1 - p = i by omega]
  · rw [if_neg hpq]
    by_cases hin : start + L - i ≤ q ∧ q < start + L
    · rw [if_pos hin, if_pos (by omega)]
    · rw [if_neg hin, if_neg (by omega)]

/-- A pair of digits. -/
theorem memcpy2_emitted (h : Emitted N start L a₀ i a) (hi : i + 2 ≤ L)
    (hpos : pos = start + L - i - 2)
    {c : ℕ} (hc : c = N / 10^i % 100) :
    ∃ a', memcpy2 a pos (c <<< 1) = some a' ∧ Emitted N start L a₀ (i + 2) a' := by
  obtain ⟨hlow, hhigh⟩ := digitTable_pair c
  have hlength := h.length_eq
  have hdiv : N / 10^(i + 1) = N / 10^i / 10 := by rw [pow_succ, Nat.div_div_eq_div_mul]
  -- The order of the two writes makes no difference.
  have hwrite : memcpy2 a pos (c <<< 1)
      = some ((a.set (start + L - i - 1) (digitByte (c % 10))).set (start + L - (i + 1) - 1)
        (digitByte (c / 10))) := by
    unfold memcpy2
    rw [writeByte_eq (p := start + L - (i + 1) - 1) (by omega) (by omega), bind_some,
      writeByte_eq (p := start + L - i - 1) (by rw [length_set]; omega) (by omega), hlow,
      hhigh, set_comm]
    omega
  refine ⟨_, hwrite, ?_⟩
  have hone := h.set hroom (by omega) rfl (d := c % 10) (by omega)
  exact hone.set hroom (by omega) rfl (by rw [hdiv]; omega)

omit hroom in
/-- There are more than `k` digits left when the rest of the number is at least that power of ten.
-/
theorem lt_of_pow_le (hN : N < 10^L) {k : ℕ} (h : 10^k ≤ N / 10^i) : i + k < L := by
  have hle : 10^k * 10^i ≤ N := (Nat.le_div_iff_mul_le (Nat.pow_pos (by decide))).mp h
  rw [← pow_add] at hle
  have := lt_of_pow_lt (lt_of_le_of_lt hle hN)
  omega

omit hroom in
theorem div_pow_add (N i k : ℕ) : N / 10^(i + k) = N / 10^i / 10^k := by
  rw [pow_add, Nat.div_div_eq_div_mul]

/-- Two pairs. -/
theorem memcpy4_emitted (h : Emitted N start L a₀ i a) (hi : i + 4 ≤ L) (hpos : pos = start + L - i)
    {c : ℕ} (hc : c = N / 10^i % 10^4) :
    ∃ a', ((memcpy2 a (pos - 2) ((c % 100) <<< 1)).bind fun a => memcpy2 a (pos - 4)
      ((c / 100) <<< 1)) = some a' ∧
      Emitted N start L a₀ (i + 4) a' := by
  have h2 := div_pow_add N i 2
  obtain ⟨a1, hw1, he1⟩ :=
    memcpy2_emitted hroom h (by omega) (show pos - 2 = start + L - i - 2 by omega)
      (show c % 100 = _ by omega)
  obtain ⟨a2, hw2, he2⟩ :=
    memcpy2_emitted hroom he1 (by omega) (show pos - 4 = start + L - (i + 2 : ℕ) - 2 by omega)
    (show c / 100 = _ by omega)
  exact ⟨a2, by rw [hw1, bind_some, hw2], he2⟩

/-- Eight digits. -/
theorem memcpy8_emitted (h : Emitted N start L a₀ i a) (hi : i + 8 ≤ L) (hpos : pos = start + L - i)
    {value3 : ℕ}
    (hc : value3 = N / 10^i % 10^8) :
    ∃ a', memcpy8 a pos value3 = some a' ∧ Emitted N start L a₀ (i + 8) a' := by
  have h4 := div_pow_add N i 4
  obtain ⟨a1, hw1, he1⟩ :=
    memcpy4_emitted hroom h (by omega) hpos (show value3 % 10000 = _ by omega)
  obtain ⟨a2, hw2, he2⟩ :=
    memcpy4_emitted hroom he1 (by omega) (show pos - 4 = start + L - (i + 4 : ℕ) by omega)
    (show value3 / 10000 = _ by omega)
  refine ⟨a2, ?_, he2⟩
  rw [show pos - 4 - 2 = pos - 6 by omega, show pos - 4 - 4 = pos - 8 by omega] at hw2
  unfold memcpy8
  dsimp only
  rw [← Option.bind_assoc, hw1]
  exact hw2

/-- What a part of the function leaves: some digits are written and the rest of the number is not 0.
-/
structure Progress (N start L : ℕ) (a₀ : List (Fin 256))
    (result : List (Fin 256) × ℕ × ℕ) : Prop where
  emitted : Emitted N start L a₀ result.2.1 result.1
  value_eq : result.2.2 = N / 10^result.2.1
  value_pos : 0 < result.2.2

omit hroom in
/-- After more digits, the rest of the number is what they leave. -/
theorem Progress.next {v k : ℕ} (h : Progress N start L a₀ (a, i, v)) {a' : List (Fin 256)}
    (hemitted : Emitted N start L a₀ (i + k) a') (hk : 10^k ≤ v) :
    Progress N start L a₀ (a', i + k, v / 10^k) := by
  refine ⟨hemitted, ?_, Nat.div_pos hk (Nat.pow_pos (by decide))⟩
  show v / 10^k = N / 10^(i + k)
  rw [div_pow_add, ← show v = N / 10^i from h.value_eq]

variable (hN : N < 10^L)
include hN

/-- The loop leaves at most eight digits. -/
theorem ulltoaLoop_progress (value : ℕ) (h : Progress N start L a₀ (a, i, value)) :
    ∃ result, ulltoaLoop start L a i value = some result ∧ Progress N start L a₀ result ∧
      result.2.2 < 10^8 := by
  induction value using Nat.strong_induction_on generalizing a i with
  | _ value ih =>
    rw [ulltoaLoop]
    split_ifs with hlarge
    · have hvalue : value = N / 10^i := h.value_eq
      have hleft := lt_of_pow_le hN (i := i) (k := 8) (by omega)
      have hbefore : Emitted N start L a₀ i a := h.emitted
      obtain ⟨a', hwrite, hemitted⟩ := memcpy8_emitted hroom hbefore (by omega) rfl
        (show (value - 100000000 * (value / 100000000)) % 2^32 = N / 10^i % 10^8 by omega)
      dsimp only
      rw [hwrite]
      exact ih (value / 100000000) (by omega) (h.next hemitted hlarge)
    · exact ⟨_, rfl, h, by show value < 10^8; omega⟩

/-- Then at most four. -/
theorem ulltoaFour_progress (h : Progress N start L a₀ (a, i, value2)) (hlt : value2 < 10^8) :
    ∃ result, ulltoaFour start L a i value2 = some result ∧ Progress N start L a₀ result ∧
      result.2.2 < 10^4 := by
  have hvalue : value2 = N / 10^i := h.value_eq
  unfold ulltoaFour
  split_ifs with hlarge
  · have hleft := lt_of_pow_le hN (i := i) (k := 4) (by omega)
    have hemitted : Emitted N start L a₀ i a := h.emitted
    obtain ⟨a1, hw1, he1⟩ :=
      memcpy4_emitted hroom hemitted (by omega) rfl
        (show value2 - 10000 * (value2 / 10000) = _ by omega)
    exact ⟨_, Option.map_bind.symm.trans (congrArg (Option.map _) hw1), h.next (k := 4) he1 hlarge,
      by show value2 / 10000 < 10^4; omega⟩
  · exact ⟨_, rfl, h, by show value2 < 10^4; omega⟩

/-- Then at most two. -/
theorem ulltoaTwo_progress (h : Progress N start L a₀ (a, i, value2)) (hlt : value2 < 10^4) :
    ∃ result, ulltoaTwo start L a i value2 = some result ∧ Progress N start L a₀ result ∧
      result.2.2 < 10^2 := by
  have hvalue : value2 = N / 10^i := h.value_eq
  unfold ulltoaTwo
  split_ifs with hlarge
  · have hleft := lt_of_pow_le hN (i := i) (k := 2) (by omega)
    have hemitted : Emitted N start L a₀ i a := h.emitted
    obtain ⟨a1, hw1, he1⟩ :=
      memcpy2_emitted hroom hemitted (by omega) rfl (show value2 % 100 = _ by omega)
    dsimp only
    rw [hw1]
    exact ⟨_, rfl, h.next (k := 2) he1 hlarge, by show value2 / 100 < 10^2; omega⟩
  · exact ⟨_, rfl, h, by show value2 < 10^2; omega⟩

variable (hlow : 10^(L - 1) ≤ N)
include hlow

omit hroom in
/-- A number with a power of ten at the top has that many digits. -/
theorem eq_add_of_bounds {k : ℕ} (hk : 10^k ≤ N / 10^i) (hk' : N / 10^i < 10^(k + 1)) :
    L = i + k + 1 := by
  have hgt := lt_of_pow_le hN hk
  have hlt : N < 10^(k + 1) * 10^i := (Nat.div_lt_iff_lt_mul (Nat.pow_pos (by decide))).mp hk'
  rw [← pow_add] at hlt
  have := lt_of_pow_lt (lt_of_le_of_lt hlow hlt)
  omega

/-- And then all are written. -/
theorem ulltoaLast_emitted (h : Progress N start L a₀ (a, i, value2)) (hlt : value2 < 10^2) :
    ∃ a', ulltoaLast start L a i value2 = some a' ∧ Emitted N start L a₀ L a' := by
  have hvalue : value2 = N / 10^i := h.value_eq
  have hpos : 0 < value2 := h.value_pos
  have hemitted : Emitted N start L a₀ i a := h.emitted
  unfold ulltoaLast
  split_ifs with hlarge
  · have hL := eq_add_of_bounds hN hlow (i := i) (k := 1) (by omega) (by omega)
    obtain ⟨a1, hw1, he1⟩ :=
      memcpy2_emitted hroom hemitted (by omega) rfl (show value2 = N / 10^i % 100 by omega)
    exact ⟨a1, hw1, hL ▸ he1⟩
  · have hL := eq_add_of_bounds hN hlow (i := i) (k := 0) (by omega) (by omega)
    have hlength := hemitted.length_eq
    refine ⟨_, writeByte_eq (p := start) (by omega) rfl _, ?_⟩
    have hset := hemitted.set hroom (by omega) (p := start) (by omega) (d := value2) (by omega)
    rw [show i + 1 = L by omega] at hset
    exact hset

omit hN hlow in
/-- With all digits written, the text is in the memory. -/
theorem Emitted.eq_append (h : Emitted N start L a₀ L a) (hL : L = (natText N).length) :
    a = a₀.take start ++ (natText N ++ a₀.drop (start + L)) := by
  have htake : (a₀.take start).length = start := length_take_of_le (by omega)
  apply ext_getElem?
  intro p
  rw [h.get p]
  by_cases hbefore : p < start
  · rw [if_neg (by omega), getElem?_append_left (by omega), getElem?_take_of_lt hbefore]
  · rw [getElem?_append_right (by omega), htake]
    by_cases hin : p < start + L
    · have hdigit := natText_getElem? N (start + L - 1 - p) (by omega)
      rw [if_pos (by omega), getElem?_append_left (by omega), ← hdigit]
      congr 1
      omega
    · rw [if_neg (by omega), getElem?_append_right (by omega), getElem?_drop]
      congr 1
      omega

end

/-- `pg_ulltoa_n` writes the decimal text and returns its length. -/
theorem pgUlltoaN_eq {value : ℕ} (hvalue : value < 2^64) {start : ℕ}
    (hroom : start + (natText value).length ≤ a.length) :
    pgUlltoaN value a start
      = some (a.take start ++ (natText value ++ a.drop (start + (natText value).length)),
        (natText value).length) := by
  unfold pgUlltoaN
  split_ifs with hzero
  · subst hzero
    have hlength : (natText 0).length = 1 := by decide
    rw [writeByte_eq (p := start) (by omega) rfl, set_eq_take_append_cons_drop, if_pos (by omega)]
    rfl
  · have hpos : 0 < value := Nat.pos_of_ne_zero hzero
    obtain ⟨hlow, hhigh⟩ := natText_bounds value hpos
    rw [decimalLength64_eq hpos hvalue]
    have hbegin : Progress value start (natText value).length a (a, 0, value) :=
      ⟨emitted_zero, by rw [pow_zero, Nat.div_one], hpos⟩
    obtain ⟨⟨a1, i1, v1⟩, hloop, hprogress1, hlt1⟩ := ulltoaLoop_progress hroom hhigh value hbegin
    have hmod : v1 % 2^32 = v1 := Nat.mod_eq_of_lt (by dsimp only at hlt1; omega)
    obtain ⟨⟨a2, i2, v2⟩, hfour, hprogress2, hlt2⟩ :=
      ulltoaFour_progress hroom hhigh hprogress1 hlt1
    obtain ⟨⟨a3, i3, v3⟩, htwo, hprogress3, hlt3⟩ := ulltoaTwo_progress hroom hhigh hprogress2 hlt2
    obtain ⟨a4, hlast, hemitted⟩ := ulltoaLast_emitted hroom hhigh hlow hprogress3 hlt3
    dsimp only
    rw [hloop]
    dsimp only
    rw [hmod, hfour]
    dsimp only
    rw [htwo]
    dsimp only
    rw [hlast, map_some, hemitted.eq_append hroom rfl]

/-! ## The whole text -/

theorem length_intText (v : ℤ) :
    (intText v).length = (if v < 0 then 1 else 0) + (natText v.natAbs).length := by
  unfold intText
  split_ifs
  · rw [length_cons]
    omega
  · omega

/-- The text of an integer of 64 bits has at most `MAXINT8LEN` characters. -/
theorem length_intText_le {v : ℤ} (hmin : -2^63 ≤ v) (hmax : v < 2^63) :
    (intText v).length ≤ MAXINT8LEN := by
  have hnat : (natText v.natAbs).length ≤ 19 := by
    by_cases hzero : v.natAbs = 0
    · rw [hzero]
      decide
    · obtain ⟨hlow, _⟩ := natText_bounds v.natAbs (by omega)
      have := lt_of_pow_lt (l := 19) (lt_of_le_of_lt hlow (by omega))
      omega
  rw [length_intText, MAXINT8LEN]
  split_ifs <;> omega

/-- The digits and the NUL behind a sign. -/
theorem digits_nul {u : ℕ} (hu : u < 2^64) (sign rest : List (Fin 256))
    (hroom : (natText u).length < rest.length) :
    (match pgUlltoaN u (sign ++ rest) sign.length with
      | none => none
      | some (a, n) =>
        (writeByte a ((sign.length + n : ℕ) : ℤ) 0).map fun a => (a, sign.length + n))
      = some (sign ++ (natText u ++ 0 :: rest.drop ((natText u).length + 1)),
        sign.length + (natText u).length) := by
  rw [pgUlltoaN_eq hu (by rw [length_append]; omega)]
  dsimp only
  have hmemory : (sign ++ rest).take sign.length ++
    (natText u ++ (sign ++ rest).drop (sign.length + (natText u).length))
      = (sign ++ natText u) ++ rest.drop (natText u).length := by
    rw [take_left, drop_append, append_assoc, drop_of_length_le (by omega), nil_append,
      Nat.add_sub_cancel_left]
  have hwrite : ((sign ++ natText u) ++ rest.drop (natText u).length).set
    (sign.length + (natText u).length) 0
      = (sign ++ natText u) ++ 0 :: rest.drop ((natText u).length + 1) := by
    rw [← length_append, set_append_right _ _ (Nat.le_refl _), Nat.sub_self,
      drop_eq_getElem_cons hroom]
    rfl
  have hlength : sign.length + (natText u).length
      < ((sign ++ natText u) ++ rest.drop (natText u).length).length := by
    rw [length_append, length_append, length_drop]
    omega
  rw [hmemory, writeByte_eq hlength rfl, hwrite, append_assoc]
  rfl

/-- `pg_lltoa` writes the text of the integer and a NUL, and returns the length of the text. -/
theorem pgLltoa_eq {v : ℤ} (hmin : -2^63 ≤ v) (hmax : v < 2^63)
    (hroom : (intText v).length < a.length) :
    pgLltoa v a = some (intText v ++ (0 :: a.drop ((intText v).length + 1)),
      (intText v).length) := by
  rw [length_intText] at hroom ⊢
  unfold pgLltoa intText
  split_ifs at hroom ⊢ with hneg
  · have huvalue : (2^64 - (v % 2^64).toNat) % 2^64 = v.natAbs := by omega
    obtain ⟨b, rest, rfl⟩ := exists_cons_of_length_pos (l := a) (by omega)
    have hwrite : writeByte (b :: rest) 0 charMinus = some (charMinus :: rest) :=
      writeByte_eq (p := 0) (by rw [length_cons]; omega) rfl charMinus
    dsimp only
    rw [huvalue, hwrite, map_some]
    rw [length_cons] at hroom
    have hdigits := digits_nul (show v.natAbs < 2^64 by omega) [charMinus] rest (by omega)
    refine hdigits.trans ?_
    rw [show 1 + (natText v.natAbs).length + 1 = (natText v.natAbs).length + 1 + 1 by omega,
      drop_succ_cons]
    rfl
  · have huvalue : (v % 2^64).toNat = v.natAbs := by omega
    rw [huvalue]
    have hdigits := digits_nul (show v.natAbs < 2^64 by omega) [] a (by omega)
    rw [nil_append, nil_append, length_nil, zero_add] at hdigits
    rw [zero_add]
    exact hdigits

/-! ## Reading what was written -/

theorem isDigit_digitByte : ∀ d : Fin 10, decRadix.isDigit (digitByte d.val) = true ∧
    (decRadix.digitValue (digitByte d.val)).toNat = d.val := by decide

theorem DigitText.append {r : Radix} {q q' vs vs'} (h : DigitText r q vs)
    (h' : DigitText r q' vs') :
    DigitText r (q ++ q') (vs ++ vs') := by
  induction h with
  | nil => exact h'
  | digit hb _ ih => exact .digit hb ih
  | underscore hb _ ih => exact .underscore hb ih

/-- The text of a number is made of digits that have its value. -/
theorem natText_digits (n : ℕ) :
    ∃ vs, DigitText decRadix (natText n) vs ∧ digitsFrom 10 0 vs = n := by
  induction n using Nat.strong_induction_on with
  | _ n ih =>
    obtain ⟨hdigit, hvalue⟩ := isDigit_digitByte ⟨n % 10, Nat.mod_lt _ (by decide)⟩
    have hlast : DigitText decRadix [digitByte (n % 10)] [n % 10] := by
      have := DigitText.digit hdigit (DigitText.nil (r := decRadix))
      rwa [hvalue] at this
    rw [natText_eq]
    split_ifs with h
    · refine ⟨[n % 10], hlast, ?_⟩
      show 0 * 10 + n % 10 = n
      omega
    · obtain ⟨vs, htext, hvs⟩ := ih (n / 10) (by omega)
      refine ⟨vs ++ [n % 10], htext.append hlast, ?_⟩
      show foldl _ 0 (vs ++ [n % 10]) = n
      rw [foldl_append]
      show digitsFrom 10 0 vs * 10 + n % 10 = n
      omega

theorem natText_isDigit (n : ℕ) : ∀ b ∈ natText n, decRadix.isDigit b = true := by
  induction n using Nat.strong_induction_on with
  | _ n ih =>
    have hlast := (isDigit_digitByte ⟨n % 10, Nat.mod_lt _ (by decide)⟩).1
    rw [natText_eq, forall_mem_append, forall_mem_singleton]
    refine ⟨?_, hlast⟩
    split_ifs with h
    · exact nofun
    · exact ih (n / 10) (by omega)

/-- The text of a number is a literal. -/
theorem natText_literal (n : ℕ) : Literal (natText n) n := by
  obtain ⟨vs, htext, hvalue⟩ := natText_digits n
  have hne : natText n ≠ [] := ne_nil_of_length_pos (length_natText_pos n)
  have hfirst : deref (natText n) ≠ charUnderscore := by
    obtain ⟨b, t, hcons⟩ := exists_cons_of_ne_nil hne
    have hdigit := natText_isDigit n b (hcons ▸ mem_cons_self)
    rw [hcons]
    exact (decRadix_ok.printable b hdigit).2.2.2.1
  have := Literal.decimal htext (mt htext.eq_nil_iff.mpr hne) hfirst
  rwa [hvalue] at this

/-- The text of an integer is a text of it. -/
theorem intText_isIntText (v : ℤ) : IntText (intText v) v := by
  have hliteral := natText_literal v.natAbs
  have hnone : ∀ b ∈ ([] : List (Fin 256)), isspace b = true := nofun
  unfold intText
  split_ifs with hneg
  · have htext := IntText.mk hnone .minus hliteral hnone
    rw [if_pos rfl, show -(v.natAbs : ℤ) = v by omega, append_nil] at htext
    exact htext
  · have htext := IntText.mk hnone .none hliteral hnone
    rw [if_neg (by decide), show (v.natAbs : ℤ) = v by omega, append_nil] at htext
    exact htext

/-! ## Input and output -/

/-- Integers are read and written exactly.
* For every text without a NUL, `pg_strtoint64_safe` and `pg_strtoint16_safe` succeed exactly when
  it is the text of an integer that fits the type, and then return it.
* The fast path never changes the outcome, whether it is a value or one of the errors.
* In a memory of `MAXINT8LEN + 1` bytes `pg_lltoa` writes the decimal text of the integer with a NUL
  behind it and nothing outside, and returns the length of the text; `pg_strtoint64_safe` reads the
  integer from it. -/
theorem integers_read_and_written :
    (∀ (s : List (Fin 256)) (v : ℤ), (0 : Fin 256) ∉ s →
      (pgStrtoint64Safe s = .ok v ↔ IntText s v ∧ -2^63 ≤ v ∧ v ≤ 2^63 - 1)) ∧
    (∀ (s : List (Fin 256)) (v : ℤ), (0 : Fin 256) ∉ s →
      (pgStrtoint16Safe s = .ok v ↔ IntText s v ∧ -2^15 ≤ v ∧ v ≤ 2^15 - 1)) ∧
    (∀ s : List (Fin 256), pgStrtoint64Safe s = slow ⟨64, "bigint"⟩ s false ∧
      pgStrtoint16Safe s = slow ⟨16, "smallint"⟩ s false) ∧
    ∀ (v : ℤ) (a : List (Fin 256)), -2^63 ≤ v → v ≤ 2^63 - 1 → a.length = MAXINT8LEN + 1 →
      pgLltoa v a = some (intText v ++ (0 :: a.drop ((intText v).length + 1)), (intText v).length) ∧
      pgStrtoint64Safe (intText v) = .ok v := by
  refine ⟨fun s v hnul => strtointSafe_eq_ok_iff (by decide) hnul v, fun s v hnul =>
    strtointSafe_eq_ok_iff (by decide) hnul v,
    fun s => ⟨strtointSafe_eq_slow (by decide) s, strtointSafe_eq_slow (by decide) s⟩,
      fun v a hmin hmax ha => ⟨?_, ?_⟩⟩
  · have hle := length_intText_le hmin (by omega)
    exact pgLltoa_eq hmin (by omega) (by omega)
  · have hslow : slow ⟨64, "bigint"⟩ (intText v) false = .ok v :=
      slow_complete (by decide) (intText_isIntText v) hmin hmax
    exact (strtointSafe_eq_slow (by decide) _).trans hslow

end PgAutoIndex.Adt
