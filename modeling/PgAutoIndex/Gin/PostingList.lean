import PgAutoIndex.Port

/-!
# Compressed posting lists of GIN

The model of `ginCompressPostingList` and its decoders in `access/gin/ginpostinglist.c`. A posting
list segment is a stretch of memory: the first item as it is, the number of payload bytes, and the
distances between neighbouring items in varbyte encoding, seven bits to a byte with the high bit set
on all bytes but the last.
-/

namespace PgAutoIndex.Gin

open List Option
open Bytes (le16 word16)

/-! ## Item pointers -/

/-- `ItemPointerData`: the block number and the offset number of a heap tuple. -/
structure ItemPointerData where
  blkid : UInt32
  posid : UInt16
deriving DecidableEq, Repr

/-- `ginCompareItemPointers(a, b) < 0`. -/
def ItemPointerData.Before (a b : ItemPointerData) : Prop :=
  a.blkid.toNat <<< 32 ||| a.posid.toNat < b.blkid.toNat <<< 32 ||| b.posid.toNat

/-- The order is decidable. -/
instance instDecidableBefore (a b : ItemPointerData) : Decidable (a.Before b) :=
  inferInstanceAs (Decidable (_ < _))

/-- `MaxHeapTuplesPerPageBits`. -/
def maxHeapTuplesPerPageBits : ℕ := 11

/-- `MaxBytesPerInteger`. -/
def maxBytesPerInteger : ℕ := 7

/-- `itemptr_to_uint64`. -/
def itemptrToUint64 (iptr : ItemPointerData) : ℕ :=
  iptr.blkid.toNat <<< maxHeapTuplesPerPageBits ||| iptr.posid.toNat

/-- `uint64_to_itemptr`. -/
def uint64ToItemptr (val : ℕ) : ItemPointerData where
  posid := UInt16.ofNat (val &&& ((1 <<< maxHeapTuplesPerPageBits) - 1))
  blkid := UInt32.ofNat (val >>> maxHeapTuplesPerPageBits)

/-! ## Varbyte encoding -/

/-- `encode_varbyte`: the bytes written for a value. -/
def encodeVarbyte (val : ℕ) : List UInt8 :=
  if 0x7F < val then UInt8.ofNat (0x80 ||| (val &&& 0x7F)) :: encodeVarbyte (val >>> 7)
  else [UInt8.ofNat val]
termination_by val
decreasing_by
  rw [Nat.shiftRight_eq_div_pow]
  omega

/-- The nested reads of `decode_varbyte`, with the number of bytes that may still follow the next
one. The last byte is taken without a test of its high bit. -/
def decodeBytes (mem : List UInt8) : ℕ → ℕ → ℕ → ℕ → Option (ℕ × ℕ)
  | 0, shift, val, ptr => do
    let c ← mem[ptr]?
    some (val ||| c.toNat <<< shift, ptr + 1)
  | more + 1, shift, val, ptr => do
    let c ← mem[ptr]?
    let val := val ||| (c.toNat &&& 0x7F) <<< shift
    if c.toNat &&& 0x80 ≠ 0 then decodeBytes mem more (shift + 7) val (ptr + 1)
    else some (val, ptr + 1)

/-- `decode_varbyte`: the value at a pointer and the pointer behind it. -/
def decodeVarbyte (mem : List UInt8) (ptr : ℕ) : Option (ℕ × ℕ) :=
  decodeBytes mem (maxBytesPerInteger - 1) 0 0 ptr

/-! ## Segments -/

/-- `SHORTALIGN`. -/
def shortalign (len : ℕ) : ℕ := (len + 1) / 2 * 2

/-- `SHORTALIGN_DOWN`. -/
def shortalignDown (len : ℕ) : ℕ := len / 2 * 2

/-- `offsetof(GinPostingList, bytes)`: six bytes of the first item and two of the length. -/
def offsetofBytes : ℕ := 8

/-- The six bytes of an item pointer. -/
def itemPointerBytes (iptr : ItemPointerData) : List UInt8 :=
  le16 (iptr.blkid.toNat >>> 16) ++ le16 (iptr.blkid.toNat &&& 0xFFFF) ++ le16 iptr.posid.toNat

/-- The item pointer stored at an offset. -/
def itemPointerAt (mem : List UInt8) (pos : ℕ) : Option ItemPointerData := do
  let hi ← word16 mem pos
  let lo ← word16 mem (pos + 2)
  let posid ← word16 mem (pos + 4)
  some ⟨UInt32.ofNat (hi <<< 16 ||| lo), UInt16.ofNat posid⟩

/-- `SizeOfGinPostingList`, for the segment at an offset. -/
def sizeOfGinPostingList (mem : List UInt8) (segment : ℕ) : Option ℕ := do
  let nbytes ← word16 mem (segment + 6)
  some (offsetofBytes + shortalign nbytes)

/-- The loop of `ginCompressPostingList`: the payload and the number of items packed, starting from
the payload `out` with `totalpacked` items in it. -/
def packItems (maxbytes : ℕ) :
    List ItemPointerData → ℕ → List UInt8 → ℕ → List UInt8 × ℕ
  | [], _, out, totalpacked => (out, totalpacked)
  | item :: rest, prev, out, totalpacked =>
    let val := itemptrToUint64 item
    let delta := sub64 val prev
    if maxbytes - out.length ≥ maxBytesPerInteger then
      packItems maxbytes rest val (out ++ encodeVarbyte delta) (totalpacked + 1)
    else if (encodeVarbyte delta).length > maxbytes - out.length then
      -- output is full
      (out, totalpacked)
    else packItems maxbytes rest val (out ++ encodeVarbyte delta) (totalpacked + 1)

/-- `ginCompressPostingList`: the memory of the segment and the number of items written. `junk` is
what the allocated payload area holds before. -/
def ginCompressPostingList (first : ItemPointerData) (rest : List ItemPointerData) (maxsize : ℕ)
    (junk : ℕ → UInt8) : List UInt8 × ℕ :=
  let maxsize := shortalignDown maxsize
  let maxbytes := maxsize - offsetofBytes
  let (out, totalpacked) := packItems maxbytes rest (itemptrToUint64 first) [] 1
  let nbytes := out.length % 2^16
  let bytes := out ++ ((range maxbytes).drop out.length).map junk
  -- the padding byte after an odd number of bytes
  let bytes := if nbytes ≠ shortalign nbytes then bytes.set nbytes 0 else bytes
  (itemPointerBytes first ++ le16 nbytes ++ bytes, totalpacked)

/-- The inner loop of `ginPostingListDecodeAllSegments`: the items from `ptr` up to `endptr`. Each
round moves `ptr`, so `fuel` rounds are enough when it bounds the distance. -/
def decodeItems (mem : List UInt8) (endptr : ℕ) : ℕ → ℕ → ℕ → Option (List ItemPointerData)
  | fuel, ptr, val =>
    if ptr < endptr then
      match fuel with
      | 0 => none
      | fuel + 1 => do
        let (delta, ptr) ← decodeVarbyte mem ptr
        let val := (val + delta) % 2^64
        let items ← decodeItems mem endptr fuel ptr val
        some (uint64ToItemptr val :: items)
    else some []

/-- The outer loop of `ginPostingListDecodeAllSegments`, from the segment at an offset. -/
def decodeSegments (mem : List UInt8) (endseg : ℕ) : ℕ → ℕ → Option (List ItemPointerData)
  | fuel, segment =>
    if segment < endseg then
      match fuel with
      | 0 => none
      | fuel + 1 => do
        let first ← itemPointerAt mem segment
        let nbytes ← word16 mem (segment + 6)
        let ptr := segment + offsetofBytes
        let items ← decodeItems mem (ptr + nbytes) nbytes ptr (itemptrToUint64 first)
        let size ← sizeOfGinPostingList mem segment
        let others ← decodeSegments mem endseg fuel (segment + size)
        some (first :: items ++ others)
    else some []

/-- `ginPostingListDecodeAllSegments`: the items of the segments in the first `len` bytes. -/
def ginPostingListDecodeAllSegments (mem : List UInt8) (len : ℕ) : Option (List ItemPointerData) :=
  decodeSegments mem len len 0

/-- `ginPostingListDecode`. -/
def ginPostingListDecode (plist : List UInt8) : Option (List ItemPointerData) := do
  let size ← sizeOfGinPostingList plist 0
  ginPostingListDecodeAllSegments plist size

/-! ## Items as integers -/

/-- An item with an offset number that fits in its eleven bits. -/
def ItemPointerData.Packable (iptr : ItemPointerData) : Prop :=
  1 ≤ iptr.posid.toNat ∧ iptr.posid.toNat ≤ 2047

section Memory

variable {iptr a b first item : ItemPointerData} {items rest : List ItemPointerData}
  {mem image post : List UInt8} {prev val n k ptr fuel segment : ℕ}

/-- The packed value as a sum. -/
theorem itemptrToUint64_eq (h : iptr.Packable) :
    itemptrToUint64 iptr = 2^11 * iptr.blkid.toNat + iptr.posid.toNat := by
  obtain ⟨-, hmax⟩ := h
  have hlt : iptr.posid.toNat < 2^11 := by omega
  rw [itemptrToUint64, maxHeapTuplesPerPageBits, Nat.shiftLeft_eq, mul_comm,
    ← Nat.two_pow_add_eq_or_of_lt hlt]

/-- A packed value has 43 bits. -/
theorem itemptrToUint64_lt (h : iptr.Packable) : itemptrToUint64 iptr < 2^43 := by
  have hblk := iptr.blkid.toNat_lt
  have hpos := h.2
  rw [itemptrToUint64_eq h]
  omega

/-- An item pointer survives its packing into an integer. -/
theorem uint64ToItemptr_itemptrToUint64 (h : iptr.Packable) :
    uint64ToItemptr (itemptrToUint64 iptr) = iptr := by
  have hpos := h.2
  have hmask : (1 <<< maxHeapTuplesPerPageBits) - 1 = 2^11 - 1 := by decide
  have hlow : itemptrToUint64 iptr % 2^11 = iptr.posid.toNat := by
    rw [itemptrToUint64_eq h]; omega
  have hhigh : itemptrToUint64 iptr / 2^11 = iptr.blkid.toNat := by
    rw [itemptrToUint64_eq h]; omega
  unfold uint64ToItemptr
  rw [hmask, Nat.and_two_pow_sub_one_eq_mod, maxHeapTuplesPerPageBits,
    Nat.shiftRight_eq_div_pow, hlow, hhigh]
  simp

/-- The order as one of numbers. -/
theorem before_iff : a.Before b ↔
    2^32 * a.blkid.toNat + a.posid.toNat < 2^32 * b.blkid.toNat + b.posid.toNat := by
  have hwide : ∀ iptr : ItemPointerData, iptr.blkid.toNat <<< 32 ||| iptr.posid.toNat =
      2^32 * iptr.blkid.toNat + iptr.posid.toNat := by
    intro iptr
    have hlt : iptr.posid.toNat < 2^32 := Nat.lt_trans iptr.posid.toNat_lt (by decide)
    rw [Nat.shiftLeft_eq, Nat.mul_comm, ← Nat.two_pow_add_eq_or_of_lt hlt]
  rw [ItemPointerData.Before, hwide, hwide]

/-- The order of item pointers is the order of the integers they are packed into. -/
theorem itemptrToUint64_lt_of_before (ha : a.Packable) (hb : b.Packable) (h : a.Before b) :
    itemptrToUint64 a < itemptrToUint64 b := by
  have hmaxa := ha.2
  rw [before_iff] at h
  rw [itemptrToUint64_eq ha, itemptrToUint64_eq hb]
  omega

/-! ## Varbyte encoding and decoding -/

/-- Seven bits are one byte. -/
theorem encodeVarbyte_of_le (val : ℕ) (h : val ≤ 0x7F) : encodeVarbyte val = [UInt8.ofNat val] := by
  rw [encodeVarbyte, if_neg (by omega)]

/-- The low seven bits. -/
theorem and_0x7F (c : ℕ) : c &&& 0x7F = c % 2^7 := Nat.and_two_pow_sub_one_eq_mod c 7

/-- More bits take a continued byte. -/
theorem encodeVarbyte_of_lt (val : ℕ) (h : 0x7F < val) :
    encodeVarbyte val = UInt8.ofNat (2^7 + val % 2^7) :: encodeVarbyte (val / 2^7) := by
  have hor : 0x80 ||| val % 2^7 = 2^7 + val % 2^7 :=
    (Nat.two_pow_add_eq_or_of_lt (Nat.mod_lt val (Nat.two_pow_pos 7)) 1).symm
  rw [encodeVarbyte, if_pos h, and_0x7F, hor, Nat.shiftRight_eq_div_pow]

/-- A value of at most `7 * k` bits takes at most `k` bytes. -/
theorem length_encodeVarbyte_le (k val : ℕ) (h : val < 2^(7 * (k + 1))) :
    (encodeVarbyte val).length ≤ k + 1 := by
  induction k generalizing val with
  | zero =>
    rw [encodeVarbyte_of_le val (by omega)]
    simp
  | succ k ih =>
    by_cases hle : val ≤ 0x7F
    · rw [encodeVarbyte_of_le val hle]
      simp
    · have hdiv : val / 2^7 < 2^(7 * (k + 1)) := by
        rw [Nat.div_lt_iff_lt_mul (by decide), ← pow_add]
        exact h
      rw [encodeVarbyte_of_lt val (by omega), length_cons]
      exact Nat.succ_le_succ (ih _ hdiv)

/-- A value takes a byte at least. -/
theorem length_encodeVarbyte_pos (val : ℕ) : 0 < (encodeVarbyte val).length := by
  rw [encodeVarbyte]
  split <;> simp

/-- Bits above are added. -/
theorem or_shiftLeft_eq {shift : ℕ} (c : ℕ) (h : val < 2^shift) :
    val ||| c <<< shift = val + 2^shift * c := by
  rw [Nat.shiftLeft_eq, mul_comm, Nat.or_comm, ← Nat.two_pow_add_eq_or_of_lt h, add_comm]

/-- The high bit of a byte. -/
theorem and_0x80_ne_zero (c : ℕ) (h : c < 2^8) : c &&& 0x80 ≠ 0 ↔ 2^7 ≤ c := by
  revert c
  decide +kernel

/-- Decoding in the middle of an integer: the bits read so far stand below the shift, and the bytes
of the higher bits `n` follow. -/
theorem decodeBytes_encodeVarbyte (more : ℕ) {shift : ℕ} (hval : val < 2^shift)
    (hn : n < 2^(7 * (more + 1))) (hmem : mem.drop ptr = encodeVarbyte n ++ post) :
    decodeBytes mem more shift val ptr =
      some (val + 2^shift * n, ptr + (encodeVarbyte n).length) := by
  induction more generalizing shift val n ptr with
  | zero =>
    have hle : n ≤ 0x7F := by omega
    rw [encodeVarbyte_of_le n hle] at hmem ⊢
    have hc := Bytes.getElem?_of_drop hmem
    have hbyte : n % 256 = n := by omega
    simp [decodeBytes, hc, hbyte, or_shiftLeft_eq n hval]
  | succ more ih =>
    by_cases hle : n ≤ 0x7F
    · rw [encodeVarbyte_of_le n hle] at hmem ⊢
      have hc := Bytes.getElem?_of_drop hmem
      have hbyte : (UInt8.ofNat n).toNat = n := by simp; omega
      have hmask : n &&& 0x7F = n := by
        rw [and_0x7F]; omega
      have hhigh : ¬ n &&& 0x80 ≠ 0 := by
        rw [and_0x80_ne_zero n (by omega)]; omega
      simp only [decodeBytes, hc, bind_eq_bind, bind_some, hbyte, hmask,
        if_neg hhigh, or_shiftLeft_eq n hval, length_singleton]
    · rw [encodeVarbyte_of_lt n (by omega)] at hmem ⊢
      have hc := Bytes.getElem?_of_drop hmem
      have hbyte : (UInt8.ofNat (2^7 + n % 2^7)).toNat = 2^7 + n % 2^7 := by simp; omega
      have hmask : (2^7 + n % 2^7) &&& 0x7F = n % 2^7 := by
        rw [and_0x7F]; omega
      have hhigh : (2^7 + n % 2^7) &&& 0x80 ≠ 0 := by
        rw [and_0x80_ne_zero _ (by omega)]; omega
      have hval' : val + 2^shift * (n % 2^7) < 2^(shift + 7) := by
        calc val + 2^shift * (n % 2^7) < 2^shift + 2^shift * (n % 2^7) := by omega
          _ = 2^shift * (n % 2^7 + 1) := by rw [Nat.mul_add, Nat.mul_one, Nat.add_comm]
          _ ≤ 2^shift * 2^7 := Nat.mul_le_mul_left _ (by omega)
          _ = 2^(shift + 7) := (Nat.pow_add 2 shift 7).symm
      have hdiv : n / 2^7 < 2^(7 * (more + 1)) := by
        rw [Nat.div_lt_iff_lt_mul (by decide), ← pow_add]
        exact hn
      have hsum : val + 2^shift * (n % 2^7) + 2^(shift + 7) * (n / 2^7) = val + 2^shift * n := by
        rw [Nat.pow_add, Nat.mul_assoc, Nat.add_assoc, ← Nat.mul_add, Nat.mod_add_div]
      have hrest := ih hval' hdiv (Bytes.drop_add_of_drop (show mem.drop ptr = [_] ++ _ from hmem))
      rw [length_singleton] at hrest
      simp only [decodeBytes, hc, bind_eq_bind, bind_some, hbyte, hmask,
        if_pos hhigh, or_shiftLeft_eq _ hval, hrest, hsum, length_cons]
      rw [add_assoc, add_comm 1]

/-- `decode_varbyte` reads back what `encode_varbyte` wrote, for integers of 49 bits. -/
theorem decodeVarbyte_encodeVarbyte (hn : n < 2^49)
    (hmem : mem.drop ptr = encodeVarbyte n ++ post) :
    decodeVarbyte mem ptr = some (n, ptr + (encodeVarbyte n).length) := by
  have h := decodeBytes_encodeVarbyte 6 (Nat.two_pow_pos 0) hn hmem
  rwa [pow_zero, zero_add, one_mul] at h

/-! ## Packing the items -/

/-- The payload for items that follow an item with the integer `prev`. -/
def payload : ℕ → List ItemPointerData → List UInt8
  | _, [] => []
  | prev, item :: rest =>
    encodeVarbyte (sub64 (itemptrToUint64 item) prev) ++ payload (itemptrToUint64 item) rest

/-- The integer of the last item, or `prev` if there is none. -/
def lastFrom : ℕ → List ItemPointerData → ℕ
  | prev, [] => prev
  | _, item :: rest => lastFrom (itemptrToUint64 item) rest

/-- Items in increasing order behind an item with the integer `prev`. -/
def IncreasingFrom : ℕ → List ItemPointerData → Prop
  | _, [] => True
  | prev, item :: rest =>
    item.Packable ∧ prev < itemptrToUint64 item ∧ IncreasingFrom (itemptrToUint64 item) rest

/-- Items in order have increasing values. -/
theorem increasingFrom_of_pairwise (hpack : ∀ item ∈ first :: rest, item.Packable)
    (hsorted : (first :: rest).Pairwise ItemPointerData.Before) :
    IncreasingFrom (itemptrToUint64 first) rest := by
  induction rest generalizing first with
  | nil => trivial
  | cons item rest ih =>
    obtain ⟨hbefore, hsorted⟩ := pairwise_cons.mp hsorted
    obtain ⟨hfirst, hpack⟩ := forall_mem_cons.mp hpack
    have hitem := hpack item mem_cons_self
    exact ⟨hitem, itemptrToUint64_lt_of_before hfirst hitem (hbefore item mem_cons_self),
      ih hpack hsorted⟩

/-- So has a part of them. -/
theorem IncreasingFrom.take (h : IncreasingFrom prev items) (k : ℕ) :
    IncreasingFrom prev (items.take k) := by
  induction items generalizing prev k with
  | nil => simp [IncreasingFrom]
  | cons item rest ih =>
    cases k with
    | zero => trivial
    | succ k => exact ⟨h.1, h.2.1, ih h.2.2 k⟩

/-- The distance to a later item does not wrap around, and fits in the bytes of an integer. -/
theorem delta_eq (hpack : item.Packable) (hlt : prev < itemptrToUint64 item) :
    sub64 (itemptrToUint64 item) prev = itemptrToUint64 item - prev ∧
      itemptrToUint64 item - prev < 2^49 := by
  have hmax := itemptrToUint64_lt hpack
  unfold sub64
  omega

/-- The packing loop writes the payload of a number `k` of items that fits, and leaves an item out
only when the bytes for the distance to it do not fit behind. -/
theorem packItems_spec {maxbytes : ℕ} (totalpacked : ℕ) (out : List UInt8)
    (hinc : IncreasingFrom prev items) (hout : out.length ≤ maxbytes) :
    ∃ k ≤ items.length,
      packItems maxbytes items prev out totalpacked =
        (out ++ payload prev (items.take k), totalpacked + k) ∧
      (out ++ payload prev (items.take k)).length ≤ maxbytes ∧
      ∀ next ∈ items[k]?, maxbytes < (out ++ payload prev (items.take k)).length +
        (encodeVarbyte (itemptrToUint64 next - lastFrom prev (items.take k))).length := by
  induction items generalizing prev totalpacked out with
  | nil => exact ⟨0, by simp [packItems, payload, hout]⟩
  | cons item rest ih =>
    obtain ⟨hpack, hlt, hrest⟩ := hinc
    obtain ⟨hdelta, hbits⟩ := delta_eq hpack hlt
    have hseven := length_encodeVarbyte_le 6 _ hbits
    by_cases hfull : maxbytes - out.length < maxBytesPerInteger ∧
        maxbytes - out.length < (encodeVarbyte (itemptrToUint64 item - prev)).length
    · -- less than seven bytes left, and the next distance does not fit
      refine ⟨0, by omega, ?_, by simpa [payload] using hout, ?_⟩
      · simp only [packItems, hdelta, payload, take_zero, append_nil]
        rw [if_neg (by omega), if_pos hfull.2]
        rfl
      · intro next hnext
        obtain rfl : item = next := by simpa using hnext
        simp only [take_zero, payload, append_nil, lastFrom]
        omega
    · have hroom : (out ++ encodeVarbyte (itemptrToUint64 item - prev)).length ≤ maxbytes := by
        rw [length_append]
        unfold maxBytesPerInteger at hfull
        omega
      obtain ⟨k, hk, heq, hlen, hnext⟩ := ih (totalpacked + 1) _ hrest hroom
      have hstep : packItems maxbytes (item :: rest) prev out totalpacked =
          packItems maxbytes rest (itemptrToUint64 item)
            (out ++ encodeVarbyte (itemptrToUint64 item - prev)) (totalpacked + 1) := by
        simp only [packItems, hdelta]
        split_ifs with hseven' hlong
        · rfl
        · exact absurd ⟨by omega, hlong⟩ hfull
        · rfl
      refine ⟨k + 1, by simpa using hk, ?_, ?_, ?_⟩
      · rw [hstep, heq, take_succ_cons, payload, hdelta, append_assoc,
          add_assoc, add_comm 1 k]
      · rwa [take_succ_cons, payload, hdelta, ← append_assoc]
      · intro next hmem
        rw [take_succ_cons, payload, hdelta, ← append_assoc, lastFrom]
        exact hnext next (by simpa using hmem)

/-! ## Reading the items -/

/-- An item takes a byte at least. -/
theorem length_le_length_payload (prev : ℕ) (items : List ItemPointerData) :
    items.length ≤ (payload prev items).length := by
  induction items generalizing prev with
  | nil => simp
  | cons item rest ih =>
    have hpos := length_encodeVarbyte_pos (sub64 (itemptrToUint64 item) prev)
    have hrest := ih (itemptrToUint64 item)
    rw [payload, length_append, length_cons]
    omega

/-- A part of the items takes no more bytes. -/
theorem length_payload_take_le (prev k : ℕ) (items : List ItemPointerData) :
    (payload prev (items.take k)).length ≤ (payload prev items).length := by
  induction items generalizing prev k with
  | nil => simp
  | cons item rest ih =>
    cases k with
    | zero => simp [payload]
    | succ k =>
      have hrest := ih (itemptrToUint64 item) k
      simp only [take_succ_cons, payload, length_append]
      omega

/-- The last of the first items of a list is the item before the next one. -/
theorem lastFrom_take (first : ItemPointerData) (hk : k ≤ rest.length) :
    ∃ last, (first :: rest)[k]? = some last ∧
      lastFrom (itemptrToUint64 first) (rest.take k) = itemptrToUint64 last := by
  induction rest generalizing first k with
  | nil => exact ⟨first, by simp at hk; simp [hk, lastFrom]⟩
  | cons item rest ih =>
    cases k with
    | zero => exact ⟨first, rfl, rfl⟩
    | succ k =>
      obtain ⟨last, hlast, heq⟩ := ih item (by simpa using hk)
      exact ⟨last, by simpa using hlast, heq⟩

/-- The inner decoding loop reads back the items of a payload. -/
theorem decodeItems_payload (hinc : IncreasingFrom prev items)
    (hmem : mem.drop ptr = payload prev items ++ post) (hfuel : items.length ≤ fuel) :
    decodeItems mem (ptr + (payload prev items).length) fuel ptr prev = some items := by
  induction items generalizing fuel ptr prev with
  | nil =>
    unfold decodeItems
    simp [payload]
  | cons item rest ih =>
    obtain ⟨hpack, hlt, hrest⟩ := hinc
    obtain ⟨hdelta, hbits⟩ := delta_eq hpack hlt
    obtain ⟨fuel, rfl⟩ : ∃ n, fuel = n + 1 := ⟨fuel - 1, by simp at hfuel; omega⟩
    rw [payload, hdelta, append_assoc] at hmem
    have hpos := length_encodeVarbyte_pos (itemptrToUint64 item - prev)
    have hval : (prev + (itemptrToUint64 item - prev)) % 18446744073709551616 =
        itemptrToUint64 item := by
      have hmax := itemptrToUint64_lt hpack
      omega
    have hread := decodeVarbyte_encodeVarbyte hbits hmem
    have hothers := ih hrest (Bytes.drop_add_of_drop hmem) (by simpa using hfuel)
    rw [payload, hdelta, length_append, ← add_assoc]
    rw [decodeItems, if_pos (by omega)]
    simp [hread, hval, hothers, uint64ToItemptr_itemptrToUint64 hpack]

/-! ## Segments in memory -/

/-- An item pointer has six bytes. -/
theorem length_itemPointerBytes (iptr : ItemPointerData) : (itemPointerBytes iptr).length = 6 := rfl

/-- The item pointer that was written is read. -/
theorem itemPointerAt_of_drop {pos : ℕ} (hmem : mem.drop pos = itemPointerBytes iptr ++ post) :
    itemPointerAt mem pos = some iptr := by
  have hblk := iptr.blkid.toNat_lt
  have hposid := iptr.posid.toNat_lt
  rw [itemPointerBytes, append_assoc, append_assoc] at hmem
  have hmem2 : mem.drop (pos + 2) = _ := Bytes.drop_add_of_drop hmem
  have hmem4 : mem.drop (pos + 4) = _ := Bytes.drop_add_of_drop hmem2
  have hhi : word16 mem pos = some (iptr.blkid.toNat / 2^16) := by
    rw [Bytes.word16_of_drop hmem, Nat.shiftRight_eq_div_pow, Nat.mod_eq_of_lt (by omega)]
  have hlo : word16 mem (pos + 2) = some (iptr.blkid.toNat % 2^16) := by
    rw [Bytes.word16_of_drop hmem2, show (0xFFFF : ℕ) = 2^16 - 1 from rfl,
      Nat.and_two_pow_sub_one_eq_mod, Nat.mod_mod]
  have hoff : word16 mem (pos + 4) = some iptr.posid.toNat := by
    rw [Bytes.word16_of_drop hmem4, Nat.mod_eq_of_lt hposid]
  have hjoin : (iptr.blkid.toNat / 2^16) <<< 16 ||| iptr.blkid.toNat % 2^16 =
      iptr.blkid.toNat := by
    rw [Nat.or_comm, or_shiftLeft_eq _ (Nat.mod_lt _ (by decide)), Nat.mod_add_div]
  simp only [itemPointerAt, hhi, hlo, hoff, hjoin, bind_eq_bind, bind_some,
    UInt32.ofNat_toNat, UInt16.ofNat_toNat]

/-- The bytes of a segment that holds these items: its `SizeOfGinPostingList` bytes. -/
def IsSegment (image : List UInt8) (items : List ItemPointerData) : Prop :=
  ∃ first rest pad, items = first :: rest ∧ IncreasingFrom (itemptrToUint64 first) rest ∧
    (payload (itemptrToUint64 first) rest).length < 2^16 ∧
    pad.length = shortalign (payload (itemptrToUint64 first) rest).length -
      (payload (itemptrToUint64 first) rest).length ∧
    image = itemPointerBytes first ++ (le16 (payload (itemptrToUint64 first) rest).length ++
      (payload (itemptrToUint64 first) rest ++ pad))

/-- Alignment only adds bytes. -/
theorem le_shortalign (len : ℕ) : len ≤ shortalign len := by
  unfold shortalign; omega

/-- The length field of a segment, and its size. -/
theorem sizeOfGinPostingList_segment (hseg : IsSegment image items)
    (hmem : mem.drop segment = image ++ post) :
    sizeOfGinPostingList mem segment = some image.length := by
  obtain ⟨first, rest, pad, rfl, -, hlen, hpad, rfl⟩ := hseg
  generalize payload (itemptrToUint64 first) rest = out at *
  have hle := le_shortalign out.length
  rw [append_assoc] at hmem
  have hmem6 : mem.drop (segment + 6) = _ := Bytes.drop_add_of_drop hmem
  have hnbytes := Bytes.word16_of_drop hmem6
  rw [Nat.mod_eq_of_lt hlen] at hnbytes
  simp only [sizeOfGinPostingList, hnbytes, offsetofBytes, length_append,
    length_itemPointerBytes, Bytes.length_le16, hpad, bind_eq_bind, bind_some,
    some.injEq]
  omega

/-- The decoder reads the items of a segment and goes on behind it. -/
theorem decodeSegments_segment {endseg : ℕ} (fuel : ℕ) (hseg : IsSegment image items)
    (hmem : mem.drop segment = image ++ post) (hend : segment < endseg) :
    decodeSegments mem endseg (fuel + 1) segment =
      (decodeSegments mem endseg fuel (segment + image.length)).map (items ++ ·) := by
  have hsize := sizeOfGinPostingList_segment hseg hmem
  obtain ⟨first, rest, pad, rfl, hinc, hlen, -, himage⟩ := hseg
  rw [himage, append_assoc] at hmem
  generalize hv : itemptrToUint64 first = v at *
  have hfirst := itemPointerAt_of_drop hmem
  have hmem6 : mem.drop (segment + 6) = _ := Bytes.drop_add_of_drop hmem
  rw [append_assoc] at hmem6
  have hmem8 : mem.drop (segment + offsetofBytes) = _ := Bytes.drop_add_of_drop hmem6
  rw [append_assoc] at hmem8
  have hnbytes := Bytes.word16_of_drop hmem6
  rw [Nat.mod_eq_of_lt hlen] at hnbytes
  have hitems := decodeItems_payload hinc hmem8 (length_le_length_payload v rest)
  rw [decodeSegments, if_pos hend]
  simp only [hfirst, hnbytes, hsize, hv, hitems, bind_eq_bind, bind_some]
  cases decodeSegments mem endseg fuel _ <;> rfl

/-- A segment is not empty. -/
theorem length_pos_of_isSegment (hseg : IsSegment image items) : 0 < image.length := by
  obtain ⟨first, rest, pad, -, -, -, -, rfl⟩ := hseg
  rw [length_append, length_itemPointerBytes]
  omega

/-- Decoding segments that lie one behind the other gives their items in order. -/
theorem decodeSegments_concat {segs : List (List UInt8 × List ItemPointerData)}
    (hsegs : ∀ s ∈ segs, IsSegment s.1 s.2)
    (hmem : mem.drop segment = segs.flatMap (·.1) ++ post)
    (hfuel : (segs.flatMap (·.1)).length ≤ fuel) :
    decodeSegments mem (segment + (segs.flatMap (·.1)).length) fuel segment =
      some (segs.flatMap (·.2)) := by
  induction segs generalizing fuel segment with
  | nil =>
    unfold decodeSegments
    simp
  | cons s segs ih =>
    obtain ⟨hseg, hsegs⟩ := forall_mem_cons.mp hsegs
    have hpos := length_pos_of_isSegment hseg
    simp only [flatMap_cons, length_append, append_assoc] at hmem hfuel ⊢
    obtain _ | fuel := fuel
    · omega
    rw [decodeSegments_segment fuel hseg hmem (by omega), ← add_assoc,
      ih hsegs (Bytes.drop_add_of_drop hmem) (by omega)]
    rfl

/-- A segment at the start of the memory. -/
theorem ginPostingListDecode_append (hseg : IsSegment image items) (post : List UInt8) :
    sizeOfGinPostingList (image ++ post) 0 = some image.length ∧
      ginPostingListDecode (image ++ post) = some items := by
  have hsize : sizeOfGinPostingList (image ++ post) 0 = some image.length :=
    sizeOfGinPostingList_segment hseg rfl
  have hmem : (image ++ post).drop 0 = [(image, items)].flatMap (·.1) ++ post := by simp
  have hdecode := decodeSegments_concat (by simpa using hseg) hmem (Nat.le_refl _)
  exact ⟨hsize,
    by simpa [ginPostingListDecode, hsize, ginPostingListDecodeAllSegments] using hdecode⟩

end Memory

/-! ## Round trips -/

/-- The arguments of a call of `ginCompressPostingList`: at least one item, in increasing order,
with offset numbers of eleven bits, and room for at least one byte of payload. -/
structure PostingInput where
  first : ItemPointerData
  rest : List ItemPointerData
  maxsize : ℕ
  junk : ℕ → UInt8
  packable : ∀ item ∈ first :: rest, item.Packable
  sorted : (first :: rest).Pairwise ItemPointerData.Before
  room : offsetofBytes < shortalignDown maxsize

namespace PostingInput

variable (p : PostingInput)

/-- All the items of the call. -/
def items : List ItemPointerData := p.first :: p.rest

/-- The segment that the call returns, with all the memory allocated for it. -/
def segment : List UInt8 := (ginCompressPostingList p.first p.rest p.maxsize p.junk).1

/-- The number of items that the call has written. -/
def nwritten : ℕ := (ginCompressPostingList p.first p.rest p.maxsize p.junk).2

/-- The bytes that a caller copies: the first `SizeOfGinPostingList` bytes. -/
def image : List UInt8 := p.segment.take ((sizeOfGinPostingList p.segment 0).getD 0)

/-- The payload cannot outgrow its length field of 16 bits: either `maxsize` does not let it, or the
distances of all the items take less. -/
def Fits : Prop :=
  p.maxsize ≤ 65543 ∨ (payload (itemptrToUint64 p.first) p.rest).length < 2^16

/-- What a call that fits writes: the first item, the length of the payload of `nwritten` items,
this payload, and the rest of the allocated area. -/
theorem segment_spec (hfits : p.Fits) :
    ∃ k ≤ p.rest.length, p.nwritten = k + 1 ∧ ∃ out tail,
      out = payload (itemptrToUint64 p.first) (p.rest.take k) ∧ out.length < 2^16 ∧
      out.length + tail.length = shortalignDown p.maxsize - offsetofBytes ∧
      p.segment = itemPointerBytes p.first ++ (le16 out.length ++ (out ++ tail)) ∧
      ∀ next ∈ p.rest[k]?, shortalignDown p.maxsize - offsetofBytes < out.length +
        (encodeVarbyte (itemptrToUint64 next -
          lastFrom (itemptrToUint64 p.first) (p.rest.take k))).length := by
  have hinc := increasingFrom_of_pairwise p.packable p.sorted
  obtain ⟨k, hk, heq, hlen, hnext⟩ :=
    packItems_spec 1 [] hinc (Nat.zero_le (shortalignDown p.maxsize - offsetofBytes))
  rw [nil_append] at heq hlen hnext
  have hlt : (payload (itemptrToUint64 p.first) (p.rest.take k)).length < 2^16 := by
    rcases hfits with hmax | htotal
    · unfold shortalignDown offsetofBytes at hlen
      omega
    · exact Nat.lt_of_le_of_lt (length_payload_take_le _ k _) htotal
  refine ⟨k, hk, ?_, ?_⟩
  · simp only [nwritten, ginCompressPostingList, heq]
    omega
  · simp only [segment, ginCompressPostingList, heq, append_assoc, Nat.mod_eq_of_lt hlt]
    generalize payload (itemptrToUint64 p.first) (p.rest.take k) = out at *
    split_ifs with hodd
    · refine ⟨out, _, rfl, hlt, ?_, by rw [set_append_right _ _ (Nat.le_refl _)], hnext⟩
      simp only [length_set, length_map, length_drop, length_range]
      omega
    · refine ⟨out, _, rfl, hlt, ?_, rfl, hnext⟩
      simp only [length_map, length_drop, length_range]
      omega

/-- The memory of a call that fits begins with the bytes of a segment of its first items. -/
theorem image_spec (hfits : p.Fits) :
    IsSegment p.image (p.items.take p.nwritten) ∧ (∃ tail, p.segment = p.image ++ tail) ∧
      p.image.length ≤ p.maxsize ∧ 1 ≤ p.nwritten ∧ p.nwritten ≤ p.items.length ∧
      ∃ nbytes, word16 p.segment 6 = some nbytes ∧
        ∀ last next, p.items[p.nwritten - 1]? = some last → p.items[p.nwritten]? = some next →
          shortalignDown p.maxsize - offsetofBytes - nbytes <
            (encodeVarbyte (itemptrToUint64 next - itemptrToUint64 last)).length := by
  obtain ⟨k, hk, hnwritten, out, tail, hout, hlt, htail, hsegment, hnext⟩ := p.segment_spec hfits
  obtain ⟨last, hlast, hlastFrom⟩ := lastFrom_take p.first hk
  have hinc := (increasingFrom_of_pairwise p.packable p.sorted).take k
  have halign : shortalign out.length ≤ shortalignDown p.maxsize - offsetofBytes := by
    unfold shortalign shortalignDown offsetofBytes at *
    omega
  -- the padding byte belongs to the image, the rest of the allocated area does not
  obtain ⟨pad, hpad⟩ : ∃ pad, pad = tail.take (shortalign out.length - out.length) := ⟨_, rfl⟩
  have hlenpad : pad.length = shortalign out.length - out.length := by
    rw [hpad, length_take]
    omega
  have hseg : IsSegment (itemPointerBytes p.first ++ (le16 out.length ++ (out ++ pad)))
      (p.items.take p.nwritten) := by
    rw [hnwritten]
    subst hout
    exact ⟨p.first, p.rest.take k, pad, rfl, hinc, hlt, hlenpad, rfl⟩
  have hsplit : p.segment = (itemPointerBytes p.first ++ (le16 out.length ++ (out ++ pad))) ++
      tail.drop (shortalign out.length - out.length) := by
    simp only [hsegment, hpad, append_assoc, take_append_drop]
  have himage : itemPointerBytes p.first ++ (le16 out.length ++ (out ++ pad)) = p.image := by
    rw [image, hsplit, (ginPostingListDecode_append hseg _).1, getD_some, take_left]
  refine ⟨himage ▸ hseg, ⟨_, himage ▸ hsplit⟩, ?_, by omega, ?_, out.length, ?_, ?_⟩
  · have hroom := p.room
    rw [← himage]
    simp only [length_append, length_itemPointerBytes, Bytes.length_le16, hlenpad]
    unfold shortalign shortalignDown offsetofBytes at *
    omega
  · rw [hnwritten, items, length_cons]
    omega
  · have hmem : p.segment.drop 6 = le16 out.length ++ (out ++ tail) := by
      rw [hsegment, ← length_itemPointerBytes p.first, drop_left]
    rw [Bytes.word16_of_drop hmem, Nat.mod_eq_of_lt hlt]
  · intro last' next hlast' hnext'
    rw [hnwritten, Nat.add_sub_cancel] at hlast'
    obtain rfl : last = last' := some.inj (hlast.symm.trans hlast')
    rw [hnwritten] at hnext'
    have hfull := hnext next (by simpa [items] using hnext')
    rw [hlastFrom] at hfull
    omega

end PostingInput

/-- **Compressed posting lists read back:** a call of `ginCompressPostingList` whose payload can be
counted in 16 bits encodes the first `nwritten` items in at most `maxsize` bytes, leaves an item out
only when the next distance does not fit, and `ginPostingListDecode` returns exactly those items;
the segments of several calls, one behind the other, decode to the items of all of them. -/
theorem posting_list_round_trip (ps : List PostingInput) (hps : ∀ p ∈ ps, p.Fits) :
    (∀ p ∈ ps, 1 ≤ p.nwritten ∧ p.nwritten ≤ p.items.length ∧
      sizeOfGinPostingList p.segment 0 = some p.image.length ∧ p.image.length ≤ p.maxsize ∧
      (∃ nbytes, word16 p.segment 6 = some nbytes ∧
        ∀ last next, p.items[p.nwritten - 1]? = some last → p.items[p.nwritten]? = some next →
          shortalignDown p.maxsize - offsetofBytes - nbytes <
            (encodeVarbyte (itemptrToUint64 next - itemptrToUint64 last)).length) ∧
      ginPostingListDecode p.segment = some (p.items.take p.nwritten)) ∧
    ginPostingListDecodeAllSegments (ps.flatMap (·.image)) (ps.flatMap (·.image)).length =
      some (ps.flatMap fun p => p.items.take p.nwritten) := by
  constructor
  · intro p hp
    obtain ⟨hseg, ⟨tail, hsplit⟩, hsize, hone, hle, hnbytes⟩ := p.image_spec (hps p hp)
    obtain ⟨hsizeOf, hdecode⟩ := ginPostingListDecode_append hseg tail
    exact ⟨hone, hle, hsplit ▸ hsizeOf, hsize, hnbytes, hsplit ▸ hdecode⟩
  · have hsegs : ∀ s ∈ ps.map fun p => (p.image, p.items.take p.nwritten), IsSegment s.1 s.2 := by
      simpa using fun p hp => (p.image_spec (hps p hp)).1
    have hdecode := decodeSegments_concat hsegs
      (show (ps.flatMap (·.image)).drop 0 = _ ++ [] by simp [flatMap_map]) (Nat.le_refl _)
    simpa [ginPostingListDecodeAllSegments, flatMap_map] using hdecode

/-- A call with room for the distances to two of its three later items. -/
def shortPosting : PostingInput where
  first := ⟨5, 3⟩
  rest := [⟨5, 4⟩, ⟨6, 1⟩, ⟨700, 9⟩]
  maxsize := 13
  junk := fun _ => 0
  packable := by
    unfold ItemPointerData.Packable
    decide
  sorted := by decide
  room := by decide

/-- A short list, and its segment twice. -/
theorem posting_list_round_trip_short :
    shortPosting.Fits ∧ ginPostingListDecode shortPosting.segment =
      some (shortPosting.items.take shortPosting.nwritten) ∧
    ginPostingListDecodeAllSegments (shortPosting.image ++ shortPosting.image)
        (shortPosting.image ++ shortPosting.image).length =
      some (shortPosting.items.take shortPosting.nwritten ++
        shortPosting.items.take shortPosting.nwritten) := by
  have hfits : shortPosting.Fits := Or.inl (by decide)
  have h := posting_list_round_trip [shortPosting, shortPosting] (by simpa using hfits)
  exact ⟨hfits, (h.1 shortPosting (by simp)).2.2.2.2.2, by simpa using h.2⟩

/-! ## A payload that outgrows its length field -/

section Overlong

variable (d : ℕ) {n : ℕ} {item : ItemPointerData}

/-- `n` items on every `d`-th block from `blk` on. -/
def spacedFrom : ℕ → ℕ → List ItemPointerData
  | 0, _ => []
  | n + 1, blk => ⟨UInt32.ofNat blk, 1⟩ :: spacedFrom n (blk + d)

/-- There are `n` items. -/
theorem length_spacedFrom (n blk : ℕ) : (spacedFrom d n blk).length = n := by
  induction n generalizing blk with
  | zero => rfl
  | succ n ih => rw [spacedFrom, length_cons, ih]

/-- The items are on blocks from `blk` on. -/
theorem mem_spacedFrom {blk : ℕ} (h : item ∈ spacedFrom d n blk) (hmax : blk + d * n < 2^32) :
    item.posid = 1 ∧ blk ≤ item.blkid.toNat := by
  induction n generalizing blk with
  | zero => simp [spacedFrom] at h
  | succ n ih =>
    rw [Nat.mul_succ] at hmax
    rw [spacedFrom, List.mem_cons] at h
    rcases h with rfl | h
    · have hval : (UInt32.ofNat blk).toNat = blk := by
        rw [UInt32.toNat_ofNat', Nat.mod_eq_of_lt (by omega)]
      exact ⟨rfl, Nat.le_of_eq hval.symm⟩
    · obtain ⟨hpos, hblk⟩ := ih h (by omega)
      exact ⟨hpos, by omega⟩

/-- Offset 1 can be packed. -/
theorem packable_of_posid_eq_one (h : item.posid = 1) : item.Packable := by
  unfold ItemPointerData.Packable
  rw [h]
  decide

/-- The packed value for offset 1. -/
theorem itemptrToUint64_one (blk : ℕ) (hblk : blk < 2^32) :
    itemptrToUint64 ⟨UInt32.ofNat blk, 1⟩ = 2^11 * blk + 1 := by
  rw [itemptrToUint64_eq (packable_of_posid_eq_one rfl), UInt32.toNat_ofNat',
    Nat.mod_eq_of_lt hblk]
  rfl

/-- They are in order. -/
theorem pairwise_spacedFrom (hd : 0 < d) (n blk : ℕ) (hmax : blk + d * n < 2^32) :
    (spacedFrom d n blk).Pairwise ItemPointerData.Before := by
  induction n generalizing blk with
  | zero => exact List.Pairwise.nil
  | succ n ih =>
    rw [Nat.mul_succ] at hmax
    refine List.Pairwise.cons ?_ (ih (blk + d) (by omega))
    intro item hitem
    obtain ⟨hpos, hblk⟩ := mem_spacedFrom d hitem (by omega)
    rw [before_iff, hpos, UInt32.toNat_ofNat', Nat.mod_eq_of_lt (by omega)]
    dsimp only
    omega

/-- The payload of spaced items takes the same number of bytes for each of them. -/
theorem length_payload_spacedFrom (n blk : ℕ) (hmax : blk + d * n < 2^32) :
    (payload (2^11 * blk + 1) (spacedFrom d n (blk + d))).length =
      n * (encodeVarbyte (2^11 * d)).length := by
  induction n generalizing blk with
  | zero => rw [zero_mul]; rfl
  | succ n ih =>
    rw [Nat.mul_succ] at hmax
    have hdelta : sub64 (2^11 * (blk + d) + 1) (2^11 * blk + 1) = 2^11 * d := by
      unfold sub64; omega
    rw [spacedFrom, payload, itemptrToUint64_one _ (by omega), hdelta, length_append,
      ih (blk + d) (by omega), Nat.add_one_mul n, add_comm]

/-- With room for the whole payload, the packing loop writes all the items. -/
theorem packItems_of_room {maxbytes prev : ℕ} {items : List ItemPointerData} (totalpacked : ℕ)
    (out : List UInt8) (hroom : (out ++ payload prev items).length ≤ maxbytes) :
    packItems maxbytes items prev out totalpacked =
      (out ++ payload prev items, totalpacked + items.length) := by
  induction items generalizing prev totalpacked out with
  | nil => simp [packItems, payload]
  | cons item rest ih =>
    rw [payload, ← append_assoc] at hroom ⊢
    have hrest := ih (totalpacked + 1) _ hroom
    rw [length_append, length_append] at hroom
    have hfits : ¬ (encodeVarbyte (sub64 (itemptrToUint64 item) prev)).length >
        maxbytes - out.length := by omega
    simp only [packItems, if_neg hfits, ite_self, hrest, length_cons]
    rw [add_right_comm, add_assoc]

/-- A call with one item on block 0 and `n` more items, each `d` blocks after the one before. -/
def spacedPosting (n maxsize : ℕ) (hd : 0 < d) (hmax : 0 + d * (n + 1) < 2^32)
    (hroom : offsetofBytes < shortalignDown maxsize) : PostingInput where
  first := ⟨UInt32.ofNat 0, 1⟩
  rest := spacedFrom d n (0 + d)
  maxsize := maxsize
  junk := fun _ => 0
  packable := fun _ hitem =>
    packable_of_posid_eq_one (mem_spacedFrom d hitem hmax).1
  sorted := pairwise_spacedFrom d hd (n + 1) 0 hmax
  room := hroom

/-- With room for all its distances, such a call writes all the items. -/
theorem spacedPosting_spec (n maxsize : ℕ) (hd : 0 < d) (hmax : 0 + d * (n + 1) < 2^32)
    (hroom : offsetofBytes < shortalignDown maxsize)
    (hfit : n * (encodeVarbyte (2^11 * d)).length ≤ shortalignDown maxsize - offsetofBytes) :
    (spacedPosting d n maxsize hd hmax hroom).nwritten = n + 1 ∧
      ∃ bytes, (spacedPosting d n maxsize hd hmax hroom).segment =
        itemPointerBytes ⟨UInt32.ofNat 0, 1⟩ ++
          (le16 (n * (encodeVarbyte (2^11 * d)).length % 2^16) ++ bytes) := by
  have hlen : (payload (itemptrToUint64 ⟨UInt32.ofNat 0, 1⟩) (spacedFrom d n (0 + d))).length =
      n * (encodeVarbyte (2^11 * d)).length :=
    length_payload_spacedFrom d n 0 (by rw [Nat.mul_succ] at hmax; omega)
  have hpack := packItems_of_room 1 [] (hlen.trans_le hfit)
  rw [nil_append, length_spacedFrom] at hpack
  simp only [PostingInput.nwritten, PostingInput.segment, ginCompressPostingList, spacedPosting,
    hpack, hlen, append_assoc]
  exact ⟨add_comm 1 n, _, rfl⟩

/-- A step of 1024 blocks takes four bytes. -/
theorem length_encodeVarbyte_1024 : (encodeVarbyte (2^11 * 1024)).length = 4 := by
  rw [encodeVarbyte_of_lt _ (by decide), encodeVarbyte_of_lt _ (by decide),
    encodeVarbyte_of_lt _ (by decide), encodeVarbyte_of_le _ (by decide)]
  rfl

/-- 16385 items whose distances take 65536 bytes, with room for all of them. -/
def overlongPosting : PostingInput :=
  spacedPosting 1024 16384 65544 (by decide) (by decide) (by decide)

/-- All items of the long call are written, but the 65536 bytes of their payload are counted as
none, and only the first item is read back. -/
theorem overlongPosting_loses_items :
    overlongPosting.nwritten = 16385 ∧
      ginPostingListDecode overlongPosting.segment = some [⟨0, 1⟩] := by
  obtain ⟨hnwritten, bytes, hsegment⟩ := spacedPosting_spec 1024 16384 65544 (by decide)
    (by decide) (by decide) (by rw [length_encodeVarbyte_1024]; decide)
  have hzero : 16384 * 4 % 2^16 = 0 := by decide
  rw [length_encodeVarbyte_1024, hzero] at hsegment
  refine ⟨hnwritten, ?_⟩
  rw [overlongPosting, hsegment]
  -- A segment whose length field is zero reads as its first item.
  have himage : IsSegment (itemPointerBytes ⟨UInt32.ofNat 0, 1⟩ ++ le16 0) [⟨UInt32.ofNat 0, 1⟩] :=
    ⟨_, [], [], rfl, trivial, by simp [payload], by simp [payload, shortalign], by simp [payload]⟩
  exact (ginPostingListDecode_append himage bytes).2

end Overlong

end PgAutoIndex.Gin
