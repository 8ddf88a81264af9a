import Mathlib.Algebra.BigOperators.Group.Finset.Basic
import PgAutoIndex.Port

/-!
# Simple-8b codewords

`simple8b_encode`, `simple8b_decode` and `simple8b_contains` of `integerset.c`. A codeword packs the
differences between successive integers, each less one, into 60 bits, under a selector of four bits
that says how many there are and how wide. The encoder looks for the narrowest mode that it can
fill, and has a codeword of its own for a first difference that fits in none.

Words are numbers below `2^64`, with the wrap-around of their arithmetic written out. The
differences of a list (`diffs`) and their packing (`packed`) say what a codeword holds; decoding
undoes both.
-/

namespace PgAutoIndex.Lib

open List Option

/-- `simple8b_modes`: bits for each integer, and number of integers. -/
def simple8bModes : List (ℕ × ℕ) :=
  [(0, 240), (0, 120), (1, 60), (2, 30), (3, 20), (4, 15), (5, 12), (6, 10), (7, 8),
    (8, 7), (10, 6),
    (12, 5), (15, 4), (20, 3), (30, 2), (60, 1), (0, 0)]

/-- `bits_per_int` of a mode. -/
def bitsPerInt (selector : ℕ) : ℕ := (simple8bModes[selector]?.getD (0, 0)).1

/-- `num_ints` of a mode. -/
def numInts (selector : ℕ) : ℕ := (simple8bModes[selector]?.getD (0, 0)).2

/-- `EMPTY_CODEWORD`. -/
def EMPTY_CODEWORD : ℕ := 0x0FFFFFFFFFFFFFFF

/-- The difference that is encoded for a value after `last`. -/
def encodedDiff (value last : ℕ) : ℕ := sub64 (sub64 value last) 1

/-- The loop of `simple8b_encode` that selects a mode, with `i` differences accepted and `diff` the
next one. -/
def selectMode (ints : List ℕ) : ℕ → ℕ → ℕ → ℕ → ℕ → Option ℕ
  | 0, _, _, _, _ => none
  | fuel + 1, selector, i, diff, lastVal =>
    if diff ≥ 1 <<< bitsPerInt selector then
      let selector := selector + 1
      if i ≥ numInts selector then some selector else selectMode ints fuel selector i diff lastVal
    else
      let i := i + 1
      if i ≥ numInts selector then some selector
      else
        let next := ints[i]?.getD 0
        selectMode ints fuel selector i (encodedDiff next lastVal) next

/-- The loop of `simple8b_encode` that shifts the differences in, the last one first, down to index
1. -/
def packLoop (ints : List ℕ) (bits : ℕ) : ℕ → ℕ → ℕ
  | 0, codeword => codeword
  | i + 1, codeword =>
    let diff := encodedDiff (ints[i + 1]?.getD 0) (ints[i]?.getD 0)
    packLoop ints bits i (((codeword ||| diff) <<< bits) % 2^64)

/-- `simple8b_encode`: the codeword and the number of integers encoded. The two counters of the
selecting loop grow to 16 and 240 at most. -/
def simple8bEncode (ints : List ℕ) (base : ℕ) : Option (ℕ × ℕ) :=
  let first := ints[0]?.getD 0
  (selectMode ints 257 0 0 (encodedDiff first base) first).map fun selector =>
    let nints := numInts selector
    let bits := bitsPerInt selector
    if nints = 0 then (EMPTY_CODEWORD, 0)
    else
      let codeword :=
        if bits > 0 then packLoop ints bits (nints - 1) 0 ||| encodedDiff first base else 0
      (codeword ||| (selector <<< 60) % 2^64, nints)

/-- The loop of `simple8b_decode`. -/
def decodeLoop (bits : ℕ) : ℕ → ℕ → ℕ → List ℕ
  | 0, _, _ => []
  | n + 1, codeword, currValue =>
    let diff := codeword &&& ((1 <<< bits) - 1)
    let currValue := (currValue + (1 + diff)) % 2^64
    currValue :: decodeLoop bits n (codeword >>> bits) currValue

/-- `simple8b_decode`. -/
def simple8bDecode (codeword base : ℕ) : List ℕ :=
  let selector := codeword >>> 60
  if codeword = EMPTY_CODEWORD then []
  else decodeLoop (bitsPerInt selector) (numInts selector) codeword base

/-- The loop of `simple8b_contains`. -/
def containsLoop (bits key : ℕ) : ℕ → ℕ → ℕ → Bool
  | 0, _, _ => false
  | n + 1, codeword, currValue =>
    let diff := codeword &&& ((1 <<< bits) - 1)
    let currValue := (currValue + (1 + diff)) % 2^64
    if currValue ≥ key then currValue == key
    else containsLoop bits key n (codeword >>> bits) currValue

/-- `simple8b_contains`. -/
def simple8bContains (codeword key base : ℕ) : Bool :=
  let selector := codeword >>> 60
  if codeword = EMPTY_CODEWORD then false
  else if bitsPerInt selector = 0 then sub64 key base ≤ numInts selector
  else containsLoop (bitsPerInt selector) key (numInts selector) codeword base

/-! ## Modes -/

/-- The modes before the sentinel hold at least one integer, and at most 60 bits. -/
theorem mode_spec {selector : ℕ} (h : selector < 16) :
    0 < numInts selector ∧ numInts selector ≤ 240 ∧
    bitsPerInt selector * numInts selector ≤ 60 := by
  revert selector
  decide

/-- The next mode is at least as wide. -/
theorem bitsPerInt_le_succ {selector : ℕ} (h : selector < 15) :
    bitsPerInt selector ≤ bitsPerInt (selector + 1) := by
  revert selector
  decide

/-! ## Differences and their packing -/

/-- The encoded differences of a list after `base`. -/
def diffs (base : ℕ) : List ℕ → List ℕ
  | [] => []
  | x :: xs => (x - base - 1) :: diffs x xs

/-- The list that starts after `base` and has the given differences. -/
def undiff (base : ℕ) : List ℕ → List ℕ
  | [] => []
  | d :: ds => (base + (1 + d)) :: undiff (base + (1 + d)) ds

@[simp] theorem length_diffs (base : ℕ) (xs : List ℕ) : (diffs base xs).length = xs.length := by
  induction xs generalizing base with
  | nil => rfl
  | cons x xs ih => rw [diffs, length_cons, ih, length_cons]

theorem diffs_take (base : ℕ) (xs : List ℕ) (n : ℕ) :
    diffs base (xs.take n) = (diffs base xs).take n := by
  induction xs generalizing base n with
  | nil => simp [diffs]
  | cons x xs ih =>
    cases n with
    | zero => rfl
    | succ n => rw [take_succ_cons, diffs, diffs, take_succ_cons, ih]

/-- An increasing list is given by its differences. -/
theorem undiff_diffs (base : ℕ) (xs : List ℕ) (h : (base :: xs).Pairwise (· < ·)) :
    undiff base (diffs base xs) = xs := by
  induction xs generalizing base with
  | nil => rfl
  | cons x xs ih =>
    rw [pairwise_cons] at h
    have hlt : base < x := h.1 x mem_cons_self
    have hx : base + (1 + (x - base - 1)) = x := by omega
    rw [diffs, undiff, hx, ih x h.2]

/-- The differences in one number, the first one lowest. -/
def packed (bits : ℕ) : List ℕ → ℕ
  | [] => 0
  | d :: ds => packed bits ds * 2^bits + d

theorem packed_lt (bits : ℕ) (ds : List ℕ) (h : ∀ d ∈ ds, d < 2^bits) :
    packed bits ds < 2^(bits * ds.length) := by
  induction ds with
  | nil => exact Nat.one_pos
  | cons d ds ih =>
    have hd := h d mem_cons_self
    have hds := ih fun e he => h e (mem_cons_of_mem d he)
    rw [packed, length_cons, Nat.mul_succ, pow_add]
    calc packed bits ds * 2^bits + d < packed bits ds * 2^bits + 2^bits := Nat.add_lt_add_left hd _
      _ = (packed bits ds + 1) * 2^bits := (Nat.succ_mul _ _).symm
      _ ≤ 2^(bits * ds.length) * 2^bits := Nat.mul_le_mul_right _ hds

/-- Decoding reads the differences back, whatever stands above them. -/
theorem decodeLoop_packed (bits : ℕ) (ds : List ℕ) (high base : ℕ) (hds : ∀ d ∈ ds, d < 2^bits)
    (hlt : ∀ x ∈ undiff base ds, x < 2^64) :
    decodeLoop bits ds.length (packed bits ds + high * 2^(bits * ds.length)) base =
      undiff base ds := by
  induction ds generalizing base with
  | nil => rfl
  | cons d ds ih =>
    have hd := hds d mem_cons_self
    have hword : packed bits (d :: ds) + high * 2^(bits * (d :: ds).length) =
        (packed bits ds + high * 2^(bits * ds.length)) * 2^bits + d := by
      rw [packed, length_cons, Nat.mul_succ, Nat.pow_add, Nat.add_mul, Nat.mul_assoc]
      omega
    have hdiff : ((packed bits ds + high * 2^(bits * ds.length)) * 2^bits + d) &&&
        ((1 <<< bits) - 1) = d := by
      rw [Nat.one_shiftLeft, Nat.and_two_pow_sub_one_eq_mod, Nat.mul_add_mod_of_lt hd]
    have hshift : ((packed bits ds + high * 2^(bits * ds.length)) * 2^bits + d) >>> bits =
        packed bits ds + high * 2^(bits * ds.length) := by
      rw [Nat.shiftRight_eq_div_pow, add_comm, Nat.add_mul_div_right _ _ (Nat.two_pow_pos bits),
        Nat.div_eq_of_lt hd, zero_add]
    have hvalue : (base + (1 + d)) % 2^64 = base + (1 + d) :=
      Nat.mod_eq_of_lt (hlt _ (by rw [undiff]; exact mem_cons_self))
    rw [length_cons, decodeLoop, ← length_cons (a := d), hword]
    simp only [hdiff, hshift, hvalue]
    rw [undiff, ih (base + (1 + d)) (fun e he => hds e (mem_cons_of_mem d he))
      fun x hx => hlt x (by rw [undiff]; exact mem_cons_of_mem _ hx)]

/-- The value before the one at an index. -/
def valueBefore (base : ℕ) (xs : List ℕ) : ℕ → ℕ
  | 0 => base
  | i + 1 => xs[i]?.getD 0

/-- An increasing list of words, after `base`. -/
structure Increasing (base : ℕ) (xs : List ℕ) : Prop where
  pairwise : (base :: xs).Pairwise (· < ·)
  lt : ∀ x ∈ xs, x < 2^64

variable {base mode : ℕ} {xs : List ℕ}

theorem Increasing.tail {x : ℕ} (h : Increasing base (x :: xs)) : Increasing x xs :=
  ⟨(pairwise_cons.mp h.pairwise).2, fun y hy => h.lt y (mem_cons_of_mem x hy)⟩

/-- The difference that the encoder computes is the one at its index. -/
theorem encodedDiff_eq (h : Increasing base xs) {i : ℕ} (hi : i < xs.length) :
    (diffs base xs)[i]? = some (encodedDiff (xs[i]?.getD 0) (valueBefore base xs i)) := by
  induction xs generalizing base i with
  | nil => cases hi
  | cons x xs ih =>
    have hlt : base < x := (pairwise_cons.mp h.pairwise).1 x mem_cons_self
    have hx := h.lt x mem_cons_self
    cases i with
    | zero =>
      have hsub : encodedDiff x base = x - base - 1 := by
        unfold encodedDiff
        rw [sub64_of_le (le_of_lt hlt) hx, sub64_of_le (by omega) (by omega)]
      simp [diffs, valueBefore, hsub]
    | succ i =>
      have hrest := ih h.tail (i := i) (by simpa using hi)
      rw [diffs, getElem?_cons_succ, hrest, getElem?_cons_succ]
      congr 2
      cases i <;> rfl

/-- Shifting in the differences from the last one down to index 1. -/
theorem packLoop_eq (h : Increasing base xs) (bits n : ℕ) (hn : n ≤ xs.length)
    (hbits : bits * n ≤ 60) (hds : ∀ d ∈ (diffs base xs).take n, d < 2^bits) (i : ℕ) (hi : i < n) :
    packLoop xs bits i (packed bits (((diffs base xs).take n).drop (i + 1)) * 2^bits) =
      packed bits (((diffs base xs).take n).drop 1) * 2^bits := by
  induction i with
  | zero => rfl
  | succ i ih =>
    set ds := (diffs base xs).take n with hds_def
    have hlen : ds.length = n := by rw [hds_def, length_take, length_diffs]; omega
    obtain ⟨d, hd⟩ : ∃ d, ds[i + 1]? = some d := ⟨_, getElem?_eq_getElem (by omega)⟩
    have hdiff : encodedDiff (xs[i + 1]?.getD 0) (xs[i]?.getD 0) = d := by
      have := encodedDiff_eq h (i := i + 1) (by omega)
      rw [hds_def, getElem?_take_of_lt hi, this, some.injEq] at hd
      exact hd
    have hmem : d ∈ ds := mem_of_getElem? hd
    have hdrop : ds.drop (i + 1) = d :: ds.drop (i + 2) := by
      have hlt : i + 1 < ds.length := by omega
      rw [drop_eq_getElem_cons hlt]
      rw [getElem?_eq_getElem hlt, some.injEq] at hd
      rw [hd]
    have hor : packed bits (ds.drop (i + 2)) * 2^bits ||| d = packed bits (ds.drop (i + 1)) := by
      rw [hdrop, packed, mul_comm, Nat.two_pow_add_eq_or_of_lt (hds d hmem)]
    -- What is shifted fits in the bits of the codeword.
    have hfit : packed bits (ds.drop (i + 1)) * 2^bits < 2^64 := by
      have hlt := packed_lt bits (ds.drop (i + 1)) fun e he => hds e (mem_of_mem_drop he)
      rw [length_drop, hlen] at hlt
      calc packed bits (ds.drop (i + 1)) * 2^bits < 2^(bits * (n - (i + 1))) * 2^bits :=
            Nat.mul_lt_mul_of_pos_right hlt (Nat.two_pow_pos bits)
        _ = 2^(bits * (n - (i + 1) + 1)) := by rw [← pow_add, Nat.mul_succ]
        _ ≤ 2^(bits * n) := Nat.pow_le_pow_right (by omega) (Nat.mul_le_mul_left bits (by omega))
        _ ≤ 2^60 := Nat.pow_le_pow_right (by omega) hbits
        _ < 2^64 := by decide
    rw [packLoop]
    simp only [hdiff, hor, Nat.shiftLeft_eq, Nat.mod_eq_of_lt hfit]
    exact ih (by omega)

/-! ## Selecting a mode -/

/-- The loop ends with a mode that the list fills, or with the sentinel when the first difference
fits in no mode. -/
theorem selectMode_spec (h : Increasing base xs) (hlen : 240 ≤ xs.length) (fuel selector i : ℕ)
    (hsel : selector < 16) (hi : i < numInts selector)
    (hds : ∀ d ∈ (diffs base xs).take i, d < 2^bitsPerInt selector)
    (hfuel : (16 - selector) + (240 - i) < fuel) :
    ∃ mode, selectMode xs fuel selector i (encodedDiff (xs[i]?.getD 0) (valueBefore base xs i))
        (xs[i]?.getD 0) = some mode ∧
      (mode = 16 ∧ 2^60 ≤ encodedDiff (xs[0]?.getD 0) base ∨
        (mode < 16 ∧ ∀ d ∈ (diffs base xs).take (numInts mode), d < 2^bitsPerInt mode)) := by
  induction fuel generalizing selector i with
  | zero => cases hfuel
  | succ fuel ih =>
    obtain ⟨hpos, hmax, -⟩ := mode_spec hsel
    have hdiff := encodedDiff_eq h (i := i) (by omega)
    rw [selectMode]
    split_ifs with hlarge
    · rcases lt_or_ge selector 15 with h15 | h15
      · -- The differences accepted so far fit in the wider mode.
        have hwider : ∀ d ∈ (diffs base xs).take i, d < 2^bitsPerInt (selector + 1) := fun d hd =>
          lt_of_lt_of_le (hds d hd) (Nat.pow_le_pow_right (by omega) (bitsPerInt_le_succ h15))
        by_cases hfull : i ≥ numInts (selector + 1)
        · rw [if_pos hfull]
          refine ⟨selector + 1, rfl, .inr ⟨by omega, fun d hd => hwider d ?_⟩⟩
          have : (diffs base xs).take (numInts (selector + 1)) =
              ((diffs base xs).take i).take (numInts (selector + 1)) := by
            rw [take_take, Nat.min_eq_left hfull]
          rw [this] at hd
          exact mem_of_mem_take hd
        · rw [if_neg hfull]
          exact ih (selector + 1) i (by omega) (by omega) hwider (by omega)
      · obtain rfl : selector = 15 := by omega
        obtain rfl : i = 0 := Nat.lt_one_iff.mp hi
        exact ⟨16, rfl, .inl ⟨rfl, hlarge⟩⟩
    · -- One more difference is accepted.
      have haccept : ∀ d ∈ (diffs base xs).take (i + 1), d < 2^bitsPerInt selector := by
        intro d hd
        rw [take_add_one, hdiff, toList_some] at hd
        rcases List.mem_append.mp hd with hd | hd
        · exact hds d hd
        · rw [mem_singleton.mp hd]
          omega
      by_cases hfull : i + 1 ≥ numInts selector
      · rw [if_pos hfull]
        have hn : numInts selector = i + 1 := by omega
        exact ⟨selector, rfl, .inr ⟨hsel, by rw [hn]; exact haccept⟩⟩
      · rw [if_neg hfull]
        exact ih selector (i + 1) hsel (by omega) haccept (by omega)

/-! ## Encoding and decoding -/

/-- The codeword of a mode that is filled: the packed differences under the selector. -/
theorem codeword_eq (h : Increasing base xs) (hlen : 240 ≤ xs.length) (hmode : mode < 16)
    (hds : ∀ d ∈ (diffs base xs).take (numInts mode), d < 2^bitsPerInt mode) :
    ((if bitsPerInt mode > 0 then packLoop xs (bitsPerInt mode) (numInts mode - 1) 0 |||
          encodedDiff (xs[0]?.getD 0) base else 0) ||| (mode <<< 60) % 2^64) =
      packed (bitsPerInt mode) ((diffs base xs).take (numInts mode)) + mode * 2^60 := by
  obtain ⟨hpos, hmax, hbits⟩ := mode_spec hmode
  set ds := (diffs base xs).take (numInts mode) with hds_def
  have hlength : ds.length = numInts mode := by rw [hds_def, length_take, length_diffs]; omega
  have hselector : (mode <<< 60) % 2^64 = mode * 2^60 := by
    omega
  have hlt : packed (bitsPerInt mode) ds < 2^60 := by
    have := packed_lt (bitsPerInt mode) ds hds
    rw [hlength] at this
    exact lt_of_lt_of_le this (Nat.pow_le_pow_right (by omega) hbits)
  have hword : (if bitsPerInt mode > 0 then packLoop xs (bitsPerInt mode) (numInts mode - 1) 0 |||
      encodedDiff (xs[0]?.getD 0) base else 0) = packed (bitsPerInt mode) ds := by
    obtain ⟨d, rest, hcons⟩ : ∃ d rest, ds = d :: rest := exists_cons_of_length_pos (by omega)
    split_ifs with hzero
    · have hloop :=
        packLoop_eq h (bitsPerInt mode) (numInts mode) (by omega) hbits hds (numInts mode - 1)
        (by omega)
      rw [← hds_def, Nat.sub_add_cancel hpos, drop_of_length_le (le_of_eq hlength)] at hloop
      simp only [packed, Nat.zero_mul] at hloop
      have hd : encodedDiff (xs[0]?.getD 0) base = d := by
        have hfirst := encodedDiff_eq h (i := 0) (by omega)
        have : ds[0]? = some d := by rw [hcons]; rfl
        rw [hds_def, getElem?_take_of_lt hpos, hfirst, some.injEq] at this
        exact this
      rw [hloop, hd, hcons, drop_one, tail_cons, packed, Nat.mul_comm,
        Nat.two_pow_add_eq_or_of_lt (hds d (by rw [hcons]; exact mem_cons_self))]
    · -- Differences of no bits are zero.
      have hb : bitsPerInt mode = 0 := by omega
      have := packed_lt (bitsPerInt mode) ds hds
      rw [hb, Nat.zero_mul] at this
      rw [hb]
      omega
  rw [hword, hselector, Nat.or_comm, Nat.mul_comm mode, ← Nat.two_pow_add_eq_or_of_lt hlt,
    Nat.add_comm]

/-- A codeword of a mode, taken apart. -/
theorem codeword_parts {word : ℕ} (hword : word < 2^60) (hzero : mode = 0 → word = 0) :
    (word + mode * 2^60) >>> 60 = mode ∧ word + mode * 2^60 ≠ EMPTY_CODEWORD := by
  constructor
  · omega
  · unfold EMPTY_CODEWORD
    omega

/-- The loop of `simple8b_contains` looks the key up in what decoding gives, if that is increasing.
-/
theorem containsLoop_iff (bits key n codeword base : ℕ)
    (hinc : (decodeLoop bits n codeword base).Pairwise (· < ·)) :
    containsLoop bits key n codeword base = true ↔ key ∈ decodeLoop bits n codeword base := by
  induction n generalizing codeword base with
  | zero => simp [containsLoop, decodeLoop]
  | succ n ih =>
    rw [decodeLoop] at hinc ⊢
    rw [containsLoop]
    set value := (base + (1 + (codeword &&& 1 <<< bits - 1))) % 2^64
    obtain ⟨hfirst, hrest⟩ := pairwise_cons.mp hinc
    split_ifs with hge
    · -- All later values are larger than the key.
      rw [beq_iff_eq, List.mem_cons]
      constructor
      · intro heq
        exact .inl heq.symm
      · rintro (heq | hmem)
        · exact heq.symm
        · have := hfirst key hmem
          omega
    · rw [ih _ _ hrest, List.mem_cons]
      have hne : key ≠ value := by omega
      simp only [hne, false_or]

/-- Differences of zero give consecutive values. -/
theorem mem_undiff_zero (base : ℕ) (ds : List ℕ) (hds : ∀ d ∈ ds, d = 0) (x : ℕ) :
    x ∈ undiff base ds ↔ base < x ∧ x ≤ base + ds.length := by
  induction ds generalizing base with
  | nil => simp [undiff]
  | cons d ds ih =>
    have hd := hds d mem_cons_self
    rw [undiff, List.mem_cons, ih _ fun e he => hds e (mem_cons_of_mem d he), length_cons]
    omega

/-- What `simple8b_encode` makes of the values after `base`: a codeword for the first `n` of them.
-/
structure Encodes (codeword base : ℕ) (xs : List ℕ) : Prop where
  decode : simple8bDecode codeword base = xs
  contains : ∀ key, base < key → key < 2^64 → (simple8bContains codeword key base = true ↔ key ∈ xs)

/-- The codeword of a filled mode. -/
theorem encodes_mode (h : Increasing base xs) (hlen : 240 ≤ xs.length) (hmode : mode < 16)
    (hds : ∀ d ∈ (diffs base xs).take (numInts mode), d < 2^bitsPerInt mode) :
    Encodes (packed (bitsPerInt mode) ((diffs base xs).take (numInts mode)) + mode * 2^60) base
      (xs.take (numInts mode)) := by
  obtain ⟨hpos, hmax, hbits⟩ := mode_spec hmode
  set ds := (diffs base xs).take (numInts mode) with hds_def
  have hlength : ds.length = numInts mode := by rw [hds_def, length_take, length_diffs]; omega
  have hlt := packed_lt (bitsPerInt mode) ds hds
  rw [hlength] at hlt
  have hword : packed (bitsPerInt mode) ds < 2^60 :=
    lt_of_lt_of_le hlt (Nat.pow_le_pow_right (by omega) hbits)
  have hzero : mode = 0 → packed (bitsPerInt mode) ds = 0 := by
    rintro rfl
    exact Nat.lt_one_iff.mp hlt
  obtain ⟨hselector, hne⟩ := codeword_parts hword hzero
  -- The values encoded are those that the differences give.
  have hpair : (base :: xs.take (numInts mode)).Pairwise (· < ·) :=
    h.pairwise.sublist ((take_sublist _ _).cons_cons base)
  have hundiff : undiff base ds = xs.take (numInts mode) := by
    rw [hds_def, ← diffs_take, undiff_diffs base _ hpair]
  have hvalues : ∀ x ∈ undiff base ds, x < 2^64 := by
    rw [hundiff]
    exact fun x hx => h.lt x (mem_of_mem_take hx)
  have hdecode : decodeLoop (bitsPerInt mode) (numInts mode)
      (packed (bitsPerInt mode) ds + mode * 2^60) base = xs.take (numInts mode) := by
    have hshift : mode * 2^60 = mode * 2^(60 - bitsPerInt mode * numInts mode) *
        2^(bitsPerInt mode * numInts mode) := by
      rw [mul_assoc, ← pow_add, Nat.sub_add_cancel hbits]
    have := decodeLoop_packed (bitsPerInt mode) ds
      (mode * 2^(60 - bitsPerInt mode * numInts mode)) base hds hvalues
    rw [hlength, ← hshift, hundiff] at this
    exact this
  constructor
  · unfold simple8bDecode
    rw [if_neg hne, hselector, hdecode]
  · intro key hkey hkey64
    unfold simple8bContains
    rw [if_neg hne, hselector]
    by_cases hb : bitsPerInt mode = 0
    · rw [if_pos hb, decide_eq_true_eq, sub64_of_le (le_of_lt hkey) hkey64, ← hundiff,
        mem_undiff_zero base ds (fun d hd => by have := hds d hd; rw [hb] at this; omega), hlength]
      omega
    · rw [if_neg hb, containsLoop_iff, hdecode]
      rw [hdecode]
      exact (pairwise_cons.mp hpair).2

/-- `simple8b_encode` on at least 240 increasing values gives a codeword for the first of them, the
empty one when the first difference is too large. -/
theorem simple8bEncode_spec (h : Increasing base xs) (hlen : 240 ≤ xs.length) :
    ∃ mode ≤ 16, selectMode xs 257 0 0 (encodedDiff (xs[0]?.getD 0) base)
      (xs[0]?.getD 0) = some mode ∧
      ∃ codeword n, simple8bEncode xs base = some (codeword, n) ∧ n ≤ 240 ∧
        Encodes codeword base (xs.take n) ∧
        (n = 0 ↔ 2^60 ≤ encodedDiff (xs[0]?.getD 0) base) := by
  obtain ⟨mode, hmode, hcases⟩ := selectMode_spec h hlen 257 0 0 (by decide) (by decide)
    (by simp) (by decide)
  refine ⟨mode, by omega, hmode, ?_⟩
  unfold simple8bEncode
  simp only
  rw [show selectMode xs 257 0 0 (encodedDiff (xs[0]?.getD 0) base) (xs[0]?.getD 0) =
    some mode from hmode,
    map_some]
  rcases hcases with ⟨rfl, hlarge⟩ | ⟨hlt, hds⟩
  · exact ⟨EMPTY_CODEWORD, 0, rfl, Nat.zero_le 240,
      ⟨by simp [simple8bDecode], by simp [simple8bContains]⟩, iff_of_true rfl hlarge⟩
  · obtain ⟨hpos, hmax, hbits⟩ := mode_spec hlt
    rw [if_neg (by omega), codeword_eq h hlen hlt hds]
    refine ⟨_, _, rfl, hmax, encodes_mode h hlen hlt hds, iff_of_false (by omega) (not_le.mpr ?_)⟩
    -- The first difference is among those that fit in the mode.
    have hfirst := (getElem?_take_of_lt hpos).trans (encodedDiff_eq h (i := 0) (by omega))
    have hwidth : bitsPerInt mode ≤ 60 := (Nat.le_mul_of_pos_right _ hpos).trans hbits
    exact (hds _ (mem_of_getElem? hfirst)).trans_le (Nat.pow_le_pow_right (by decide) hwidth)

/-- For every base and every increasing array of at least 240 words after it, the selecting loop of
`simple8b_encode` ends at a mode or at the sentinel, and never reads past it, as the selector only
grows. The codeword decodes to the first `n` values, `n` is zero exactly when the first difference
less one has more than 60 bits, and `simple8b_contains` finds exactly these values. -/
theorem simple8b_codec (base : ℕ) (ints : List ℕ) (h : Increasing base ints)
    (hlen : 240 ≤ ints.length) :
    ∃ mode ≤ 16, selectMode ints 257 0 0 (encodedDiff (ints[0]?.getD 0) base)
      (ints[0]?.getD 0) = some mode ∧
      ∃ codeword n, simple8bEncode ints base = some (codeword, n) ∧ n ≤ ints.length ∧
        simple8bDecode codeword base = ints.take n ∧ (n = 0 ↔ 2^60 ≤ ints[0]?.getD 0 - base - 1) ∧
        ∀ key, base < key → key < 2^64 →
          (simple8bContains codeword key base = true ↔ key ∈ ints.take n) := by
  obtain ⟨mode, hmode, hselect, codeword, n, hencode, hn, hcode, hempty⟩ :=
    simple8bEncode_spec h hlen
  refine ⟨mode, hmode, hselect, codeword, n, hencode, hn.trans hlen, hcode.decode, ?_,
    hcode.contains⟩
  cases ints with
  | nil => cases hlen
  | cons x xs =>
    have hfirst : x - base - 1 = encodedDiff x base :=
      some.inj (encodedDiff_eq h (i := 0) (Nat.succ_pos _))
    rw [getElem?_cons_zero, getD_some, hfirst]
    exact hempty

/-- The numbers from 1 to 240 are one run. -/
theorem simple8b_codec_run :
    simple8bEncode (range' 1 240) 0 = some (0, 240) ∧ simple8bDecode 0 0 = range' 1 240 ∧
    ∀ key, 0 < key → key < 2^64 → (simple8bContains 0 key 0 = true ↔ key ∈ range' 1 240) := by
  have hinc : Increasing 0 (range' 1 240) := ⟨by decide +kernel, by decide +kernel⟩
  obtain ⟨-, -, -, codeword, n, hencode, -, hdecode, -, hcontains⟩ :=
    simple8b_codec 0 (range' 1 240) hinc length_range'.ge
  have hrun : simple8bEncode (range' 1 240) 0 = some (0, 240) := by decide +kernel
  obtain ⟨rfl, rfl⟩ := Prod.mk.inj (some.inj (hrun.symm.trans hencode))
  rw [take_of_length_le length_range'.le] at hdecode hcontains
  exact ⟨hrun, hdecode, hcontains⟩

end PgAutoIndex.Lib
