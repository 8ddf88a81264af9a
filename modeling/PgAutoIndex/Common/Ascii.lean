import PgAutoIndex.Utf8

/-!
# Checking a chunk of bytes for ASCII

Model of `is_valid_ascii` in `src/include/utils/ascii.h` for both ways that it is built: with
vectors of bytes of some width, and with 64-bit integers that stand in for vectors of eight bytes.
With integers, adding 0x7F to each byte sets its high bit unless it is zero; a carry into the next
byte can only come from a byte with the high bit, and then the other accumulator already shows that
the chunk is not ASCII.

An integer is the number of its bytes (`ofLanes`), and the conjunction works byte by byte
(`land_ofLanes`). What an accumulator shows at the end it owes to single chunks (`or_land_ne_zero`,
`land_eq_iff`).
-/

namespace PgAutoIndex.Common

open Utf8 List

/-! ## With vectors -/

/-- `vector8_or`. -/
def vector8Or (v1 v2 : List ℕ) : List ℕ := zipWith (· ||| ·) v1 v2

/-- `vector8_eq`: all bits of a byte are set where the bytes are equal. -/
def vector8Eq (v1 v2 : List ℕ) : List ℕ := zipWith (fun a b => if a = b then 0xFF else 0) v1 v2

/-- `vector8_is_highbit_set`. -/
def vector8IsHighbitSet (v : List ℕ) : Bool := v.any fun b => b &&& 0x80 ≠ 0

/-- The loop of `is_valid_ascii` with vectors, over a number of chunks. -/
def simdLoop (width : ℕ) : ℕ → List Byte → List ℕ → List ℕ
  | 0, _, highbitCum => highbitCum
  | n + 1, s, highbitCum =>
    let chunk := (s.take width).map Fin.val
    let highbitCum := vector8Or highbitCum (vector8Eq chunk (replicate width 0))
    let highbitCum := vector8Or highbitCum chunk
    simdLoop width n (s.drop width) highbitCum

/-- `is_valid_ascii` with vectors of a width. -/
def isValidAsciiSimd (width : ℕ) (s : List Byte) : Bool :=
  !vector8IsHighbitSet (simdLoop width (s.length / width) s (replicate width 0))

/-! ## With integers -/

/-- The number whose bytes, the lowest first, are given. -/
def ofLanes : List ℕ → ℕ
  | [] => 0
  | b :: bs => b + 256 * ofLanes bs

/-- `vector8_broadcast` for integers. -/
def broadcast64 (c : ℕ) : ℕ := (2^64 - 1) / 0xFF * c

/-- The loop of `is_valid_ascii` with integers, over a number of chunks. -/
def scalarLoop : ℕ → List Byte → ℕ → ℕ → ℕ × ℕ
  | 0, _, zeroCum, highbitCum => (zeroCum, highbitCum)
  | n + 1, s, zeroCum, highbitCum =>
    let chunk := ofLanes ((s.take 8).map Fin.val)
    let zeroCum := zeroCum &&& ((chunk + broadcast64 0x7F) % 2^64)
    let highbitCum := highbitCum ||| chunk
    scalarLoop n (s.drop 8) zeroCum highbitCum

/-- `is_valid_ascii` with integers. -/
def isValidAsciiScalar (s : List Byte) : Bool :=
  let (zeroCum, highbitCum) := scalarLoop (s.length / 8) s (broadcast64 0x80) (broadcast64 0)
  if highbitCum &&& broadcast64 0x80 ≠ 0 then false
  else if zeroCum ≠ broadcast64 0x80 then false
  else true

/-! ## Both are exact -/

/-- The byte is ASCII and not zero. -/
def IsAscii (b : Byte) : Prop := 1 ≤ b.val ∧ b.val < 0x80

/-- Whether a byte is ASCII is decidable. -/
instance instDecidableIsAscii (b : Byte) : Decidable (IsAscii b) :=
  inferInstanceAs (Decidable (_ ∧ _))

theorem highbit_iff : ∀ b : Fin 256, b.val &&& 0x80 ≠ 0 ↔ 0x80 ≤ b.val := by decide +kernel

/-- The bits of a disjunction under a mask. -/
theorem or_land_ne_zero (a b m : ℕ) : (a ||| b) &&& m ≠ 0 ↔ a &&& m ≠ 0 ∨ b &&& m ≠ 0 := by
  rw [Nat.and_or_distrib_right, Ne, Nat.or_eq_zero_iff]
  omega

/-- The high bits of a disjunction of vectors. -/
theorem vector8IsHighbitSet_or {v1 v2 : List ℕ} (h : v1.length = v2.length) :
    vector8IsHighbitSet (vector8Or v1 v2) = true ↔
    vector8IsHighbitSet v1 = true ∨ vector8IsHighbitSet v2 = true := by
  unfold vector8IsHighbitSet vector8Or
  induction v1 generalizing v2 with
  | nil =>
    obtain rfl := length_eq_zero_iff.mp h.symm
    simp
  | cons a v1 ih =>
    obtain ⟨b, v2, rfl⟩ := exists_cons_of_length_eq_add_one h.symm
    rw [zipWith_cons_cons, any_cons, any_cons, any_cons, Bool.or_eq_true, Bool.or_eq_true,
      Bool.or_eq_true, ih (Nat.succ.inj h), decide_eq_true_eq, decide_eq_true_eq, decide_eq_true_eq,
      or_land_ne_zero]
    exact or_or_or_comm

/-- What a chunk of a text that is not ASCII leaves in the accumulator. -/
theorem vector8_chunk (width : ℕ) {chunk : List Byte} (h : chunk.length = width) :
    vector8IsHighbitSet (vector8Eq (chunk.map Fin.val) (replicate width 0)) = true ∨
      vector8IsHighbitSet (chunk.map Fin.val) = true ↔ ¬ ∀ b ∈ chunk, IsAscii b := by
  unfold vector8IsHighbitSet vector8Eq
  induction chunk generalizing width with
  | nil => simp
  | cons a chunk ih =>
    obtain ⟨width, rfl⟩ : ∃ w, width = w + 1 := ⟨chunk.length, h.symm⟩
    rw [map_cons, replicate_succ, zipWith_cons_cons, any_cons, any_cons, forall_mem_cons,
      Bool.or_eq_true, Bool.or_eq_true, or_or_or_comm, ih width (Nat.succ.inj h), decide_eq_true_eq,
      decide_eq_true_eq,
      highbit_iff a, not_and_or]
    apply or_congr_left
    unfold IsAscii
    split_ifs with hzero
    all_goals
      simp
      omega

/-- A vector has no high bit at the start. -/
theorem vector8IsHighbitSet_zero (width : ℕ) :
    ¬ vector8IsHighbitSet (replicate width 0) = true := by
  unfold vector8IsHighbitSet
  rw [any_eq_true]
  rintro ⟨b, hb, hset⟩
  rw [eq_of_mem_replicate hb] at hset
  exact absurd hset (by decide)

theorem length_vector8Or {v1 v2 : List ℕ} {width : ℕ} (h1 : v1.length = width)
    (h2 : v2.length = width) : (vector8Or v1 v2).length = width := by
  rw [vector8Or, length_zipWith, h1, h2, Nat.min_self]

/-- The first chunk and the rest of a text. -/
theorem forall_chunk (width : ℕ) (s : List Byte) (P : Byte → Prop) :
    (∀ b ∈ s, P b) ↔ (∀ b ∈ s.take width, P b) ∧ ∀ b ∈ s.drop width, P b := by
  conv_lhs => rw [← take_append_drop width s]
  exact forall_mem_append

/-- The accumulator shows a high bit when one was there before or a byte is not ASCII. -/
theorem simdLoop_highbit {width n : ℕ} {s : List Byte} {highbitCum : List ℕ}
    (hs : s.length = n * width) (hcum : highbitCum.length = width) :
    vector8IsHighbitSet (simdLoop width n s highbitCum) = true ↔
    vector8IsHighbitSet highbitCum = true ∨ ¬ ∀ b ∈ s, IsAscii b := by
  induction n generalizing s highbitCum with
  | zero =>
    obtain rfl := length_eq_zero_iff.mp (hs.trans (zero_mul width))
    simp [simdLoop]
  | succ n ih =>
    rw [Nat.succ_mul] at hs
    have hchunk : (s.take width).length = width := length_take_of_le (by omega)
    have hmap : ((s.take width).map Fin.val).length = width := by rw [length_map, hchunk]
    have heq : (vector8Eq ((s.take width).map Fin.val) (replicate width 0)).length = width := by
      rw [vector8Eq, length_zipWith, hmap, length_replicate, Nat.min_self]
    have hor := length_vector8Or hcum heq
    rw [simdLoop, ih (by rw [length_drop]; omega) (length_vector8Or hor hmap),
      vector8IsHighbitSet_or (hor.trans hmap.symm),
      vector8IsHighbitSet_or (hcum.trans heq.symm), forall_chunk width s, not_and_or,
      ← vector8_chunk width hchunk]
    tauto

variable {s : List Byte} {n : ℕ} {xs ys : List ℕ}

/-- With vectors the check is exact on whole chunks. -/
theorem isValidAsciiSimd_iff {width : ℕ} (h : s.length = s.length / width * width) :
    isValidAsciiSimd width s = true ↔ ∀ b ∈ s, IsAscii b := by
  have hloop := simdLoop_highbit h (length_replicate (a := 0))
  rw [isValidAsciiSimd, Bool.not_eq_true', ← Bool.not_eq_true, hloop, not_or, not_not]
  exact ⟨fun hand => hand.2, fun hall => ⟨vector8IsHighbitSet_zero width, hall⟩⟩

/-! ### Integers byte by byte -/

/-- A number is given by its lowest byte and the rest. -/
theorem eq_of_byte {m : ℕ} (hlow : m % 2^8 = n % 2^8) (hhigh : m / 2^8 = n / 2^8) : m = n := by
  omega

/-- The conjunction of two numbers is taken byte by byte. -/
theorem land_ofLanes (h : xs.length = ys.length) (hx : ∀ x ∈ xs, x < 256) (hy : ∀ y ∈ ys, y < 256) :
    ofLanes xs &&& ofLanes ys = ofLanes (zipWith (· &&& ·) xs ys) := by
  induction xs generalizing ys with
  | nil => exact Nat.zero_and _
  | cons x xs ih =>
    obtain ⟨y, ys, rfl⟩ := exists_cons_of_length_eq_add_one h.symm
    rw [forall_mem_cons] at hx hy
    have hrest := ih (Nat.succ.inj h) hx.2 hy.2
    have hlow : ∀ {z k}, z < 256 → (z + 256 * k) % 2^8 = z := by omega
    have hlane : x &&& y < 2^8 := Nat.and_lt_two_pow x hy.1
    rw [zipWith_cons_cons, ofLanes, ofLanes, ofLanes]
    apply eq_of_byte
    · rw [Nat.and_mod_two_pow, hlow hx.1, hlow hy.1]
      omega
    · have hxhigh : (x + 256 * ofLanes xs) / 2^8 = ofLanes xs := by omega
      have hyhigh : (y + 256 * ofLanes ys) / 2^8 = ofLanes ys := by omega
      rw [Nat.and_div_two_pow, hxhigh, hyhigh, hrest]
      omega

/-- Bytes below 0x80 can be added to 0x7F without a carry. -/
theorem add_ofLanes (xs : List ℕ) (c : ℕ) :
    ofLanes xs + ofLanes (replicate xs.length c) = ofLanes (xs.map (· + c)) := by
  induction xs with
  | nil => rfl
  | cons x xs ih =>
    rw [length_cons, replicate_succ, map_cons, ofLanes, ofLanes, ofLanes, ← ih]
    omega

theorem ofLanes_lt (hx : ∀ x ∈ xs, x < 256) : ofLanes xs < 256 ^ xs.length := by
  induction xs with
  | nil => exact Nat.one_pos
  | cons x xs ih =>
    rw [forall_mem_cons] at hx
    have := ih hx.2
    rw [ofLanes, length_cons, pow_succ]
    omega

/-- A broadcast is the same byte in all eight places. -/
theorem broadcast64_eq (c : ℕ) : broadcast64 c = ofLanes (replicate 8 c) := by
  show (2^64 - 1) / 0xFF * c = _
  simp only [replicate, ofLanes]
  omega

theorem lt_of_mem_bytes : ∀ x ∈ s.map Fin.val, x < 256 := by
  intro x hx
  obtain ⟨b, _, rfl⟩ := mem_map.mp hx
  exact b.isLt

theorem lt_of_mem_replicate {c : ℕ} (hc : c < 256) : ∀ x ∈ replicate n c, x < 256 := by
  intro x hx
  rw [eq_of_mem_replicate hx]
  exact hc

/-- The integer has a high bit where one of its bytes has. -/
theorem land_broadcast {v : List ℕ} (h : v.length = 8) (hv : ∀ x ∈ v, x < 256) :
    ofLanes v &&& broadcast64 0x80 ≠ 0 ↔ vector8IsHighbitSet v = true := by
  rw [broadcast64_eq, ← h, land_ofLanes length_replicate.symm hv (lt_of_mem_replicate (by decide))]
  clear h hv
  unfold vector8IsHighbitSet
  induction v with
  | nil => simp [ofLanes]
  | cons x v ih =>
    rw [length_cons, replicate_succ, zipWith_cons_cons, ofLanes, any_cons, Bool.or_eq_true, ← ih,
      decide_eq_true_eq]
    omega

theorem vector8IsHighbitSet_bytes (s : List Byte) :
    vector8IsHighbitSet (s.map Fin.val) = true ↔ ¬ ∀ b ∈ s, b.val < 0x80 := by
  rw [vector8IsHighbitSet, any_map, any_eq_true]
  simp only [Function.comp_apply, decide_eq_true_eq, highbit_iff, not_forall, not_lt, exists_prop]

/-- The accumulator of all bits shows a high bit when one was there before or a byte has one. -/
theorem scalarLoop_highbit {zeroCum highbitCum : ℕ} (hs : s.length = n * 8) :
    (scalarLoop n s zeroCum highbitCum).2 &&& broadcast64 0x80 ≠ 0 ↔
      highbitCum &&& broadcast64 0x80 ≠ 0 ∨ ¬ ∀ b ∈ s, b.val < 0x80 := by
  induction n generalizing s zeroCum highbitCum with
  | zero =>
    obtain rfl := length_eq_zero_iff.mp hs
    simp [scalarLoop]
  | succ n ih =>
    have hchunk : ((s.take 8).map Fin.val).length = 8 := by
      rw [length_map]
      exact length_take_of_le (by omega)
    rw [scalarLoop, ih (by rw [length_drop]; omega), or_land_ne_zero,
      land_broadcast hchunk lt_of_mem_bytes,
      vector8IsHighbitSet_bytes, or_assoc, forall_chunk 8 s, not_and_or]

theorem and_highbit_of_pos : ∀ b : Fin 128, 0x80 &&& (b.val + 0x7F) =
    if b.val = 0 then 0 else 0x80 := by decide

/-- The high bits after 0x7F was added to bytes without one are those of the bytes that are not
zero. -/
theorem land_sum {chunk : List Byte} (hlt : ∀ b ∈ chunk, b.val < 0x80) :
    ofLanes (zipWith (· &&& ·) (replicate chunk.length 0x80) ((chunk.map Fin.val).map (· + 0x7F))) =
      ofLanes (replicate chunk.length 0x80) ↔
      ∀ b ∈ chunk, b.val ≠ 0 := by
  induction chunk with
  | nil => simp
  | cons b chunk ih =>
    rw [forall_mem_cons] at hlt
    have hlane : 0x80 &&& (b.val + 0x7F) = if b.val = 0 then 0 else 0x80 :=
      and_highbit_of_pos ⟨b.val, hlt.1⟩
    rw [forall_mem_cons, ← ih hlt.2, length_cons, replicate_succ, map_cons, map_cons,
      zipWith_cons_cons, ofLanes, ofLanes, hlane]
    split_ifs <;> omega

/-- What one chunk without high bits leaves of the accumulator of zeros at its start. -/
theorem broadcast_land_sum {chunk : List Byte} (hchunk : chunk.length = 8)
    (hlt : ∀ b ∈ chunk, b.val < 0x80) :
    broadcast64 0x80 &&& ((ofLanes (chunk.map Fin.val) + broadcast64 0x7F) % 2^64) =
      broadcast64 0x80 ↔ ∀ b ∈ chunk, b.val ≠ 0 := by
  have hsumlt : ∀ x ∈ (chunk.map Fin.val).map (· + 0x7F), x < 256 := by
    intro x hx
    rw [map_map] at hx
    obtain ⟨b, hb, rfl⟩ := mem_map.mp hx
    have := hlt b hb
    show b.val + 0x7F < 256
    omega
  -- No byte carries into the next one, and the sum stays below 2^64.
  have hbound := ofLanes_lt hsumlt
  have hadd := add_ofLanes (chunk.map Fin.val) 0x7F
  rw [length_map, length_map, hchunk] at hbound
  rw [length_map, hchunk] at hadd
  rw [← land_sum hlt, broadcast64_eq, broadcast64_eq, hadd,
    Nat.mod_eq_of_lt (b := 2^64) hbound, hchunk,
    land_ofLanes (by simp [hchunk]) (lt_of_mem_replicate (by decide)) hsumlt]

/-- A conjunction is the whole mask when both of its parts have it. -/
theorem land_eq_iff {z c m : ℕ} (hz : z &&& m = z) : z &&& c = m ↔ z = m ∧ m &&& c = m := by
  constructor
  · intro h
    have hzm : z = m := by
      calc z = z &&& (z &&& c) := by rw [h, hz]
        _ = m := by rw [← Nat.and_assoc, Nat.and_self, h]
    exact ⟨hzm, hzm ▸ h⟩
  · rintro ⟨rfl, h⟩
    exact h

/-- On bytes without a high bit the accumulator of zeros keeps its start exactly when no byte is
zero. -/
theorem scalarLoop_zero {zeroCum highbitCum : ℕ} (hs : s.length = n * 8)
    (hz : zeroCum &&& broadcast64 0x80 = zeroCum)
    (hlt : ∀ b ∈ s, b.val < 0x80) :
    (scalarLoop n s zeroCum highbitCum).1 = broadcast64 0x80 ↔
    zeroCum = broadcast64 0x80 ∧ ∀ b ∈ s, b.val ≠ 0 := by
  induction n generalizing s zeroCum highbitCum with
  | zero =>
    obtain rfl := length_eq_zero_iff.mp hs
    simp [scalarLoop]
  | succ n ih =>
    obtain ⟨hchunklt, hrestlt⟩ := (forall_chunk 8 s _).mp hlt
    rw [scalarLoop,
      ih (by rw [length_drop]; omega)
        (by rw [Nat.and_assoc, Nat.and_comm _ (broadcast64 0x80), ← Nat.and_assoc, hz]) hrestlt,
        land_eq_iff hz,
      broadcast_land_sum (length_take_of_le (by omega)) hchunklt, and_assoc,
      forall_chunk 8 s fun b => b.val ≠ 0]

/-- With integers the check is exact on whole chunks. -/
theorem isValidAsciiScalar_iff (h : s.length = s.length / 8 * 8) :
    isValidAsciiScalar s = true ↔ ∀ b ∈ s, IsAscii b := by
  unfold isValidAsciiScalar
  dsimp only
  by_cases hascii : ∀ b ∈ s, b.val < 0x80
  · have hspec : (∀ b ∈ s, IsAscii b) ↔ ∀ b ∈ s, b.val ≠ 0 :=
      ⟨fun hall b hb => Nat.one_le_iff_ne_zero.mp (hall b hb).1,
        fun hall b hb => ⟨Nat.one_le_iff_ne_zero.mpr (hall b hb), hascii b hb⟩⟩
    have hclear : ¬ (broadcast64 0 &&& broadcast64 0x80 ≠ 0 ∨ ¬ ∀ b ∈ s, b.val < 0x80) :=
      fun hor => hor.elim (by decide) fun hnot => hnot hascii
    rw [if_neg (mt (scalarLoop_highbit h).mp hclear), hspec,
      ← (scalarLoop_zero h (Nat.and_self _) hascii).trans (and_iff_right rfl)]
    split_ifs with hzero
    · exact iff_of_false nofun hzero
    · exact iff_of_true rfl (not_not.mp hzero)
  · rw [if_pos ((scalarLoop_highbit h).mpr (.inr hascii))]
    exact ⟨nofun, fun hall => absurd (fun b hb => (hall b hb).2) hascii⟩

/-! ## Either build -/

/-- How the vectors are built: with a width, or as integers (`USE_NO_SIMD`). -/
inductive VectorBuild
  | simd (width : ℕ) (pos : 0 < width)
  | noSimd

/-- `sizeof(Vector8)`. -/
def VectorBuild.size : VectorBuild → ℕ
  | .simd width _ => width
  | .noSimd => 8

theorem VectorBuild.size_pos (v : VectorBuild) : 0 < v.size := by
  cases v with
  | simd width pos => exact pos
  | noSimd => decide

/-- `is_valid_ascii`. -/
def isValidAscii : VectorBuild → List Byte → Bool
  | .simd width _, s => isValidAsciiSimd width s
  | .noSimd, s => isValidAsciiScalar s

/-- The check is exact on whole chunks. -/
theorem isValidAscii_iff (v : VectorBuild) (h : s.length = n * v.size) :
    isValidAscii v s = true ↔ ∀ b ∈ s, IsAscii b := by
  have hdiv : s.length = s.length / v.size * v.size := by
    rw [h, Nat.mul_div_cancel n v.size_pos]
  cases v with
  | simd width pos => exact isValidAsciiSimd_iff hdiv
  | noSimd => exact isValidAsciiScalar_iff hdiv

end PgAutoIndex.Common
