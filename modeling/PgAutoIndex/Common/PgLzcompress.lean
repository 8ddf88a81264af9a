import PgAutoIndex.BackCopy

/-!
# The pglz compressor and decompressor

`pg_lzcompress.c`. Pointers into the source are offsets, and the output is the list of the bytes
written so far. The history table is a pair of arrays of indices: `hist_start` gives the first entry
of each hash list, and the entries of a list are linked both ways, with entry 0 for the end of a
list. The entries are static, so that a call finds there whatever an earlier one left behind.

Loops whose end is not evident from their form take fuel and give `none` when it runs out. A result
of -1 is the inner `none`.
-/

namespace PgAutoIndex.Common

/-- `PGLZ_HISTORY_SIZE`. -/
def PGLZ_HISTORY_SIZE : ℕ := 4096

/-- `PGLZ_MAX_MATCH`. -/
def PGLZ_MAX_MATCH : ℕ := 273

/-- `PGLZ_Strategy`. -/
structure PGLZStrategy where
  min_input_size : ℤ
  max_input_size : ℤ
  min_comp_rate : ℤ
  first_success_by : ℤ
  match_size_good : ℤ
  match_size_drop : ℤ

/-- `PGLZ_strategy_default`. -/
def strategyDefault : PGLZStrategy := ⟨32, 2147483647, 25, 1024, 128, 10⟩

/-- `PGLZ_strategy_always`. -/
def strategyAlways : PGLZStrategy := ⟨0, 2147483647, 0, 2147483647, 128, 6⟩

/-! ## The history table -/

/-- `PGLZ_HistEntry`; links are indices of entries, and `none` is `NULL`. -/
structure HistEntry where
  next : ℕ
  prev : Option ℕ
  hindex : ℕ
  pos : ℕ

/-- `hist_start` and `hist_entries`, with the local variables `hist_next` and `hist_recycle`. -/
structure History where
  start : ℕ → ℕ
  entries : ℕ → HistEntry
  histNext : ℕ
  recycle : Bool

/-- `INVALID_ENTRY`. -/
def INVALID_ENTRY : ℕ := 0

/-- Write one entry. -/
def History.setEntry (h : History) (i : ℕ) (e : HistEntry) : History :=
  { h with entries := Function.update h.entries i e }

/-- Write one element of `hist_start`. -/
def History.setStart (h : History) (k i : ℕ) : History :=
  { h with start := Function.update h.start k i }

section

-- How the platform widens a `char` to an `int`: with its sign, or without.
variable (widen : UInt8 → BitVec 32)

/-- `pglz_hist_idx`. -/
def histIdx (source : List UInt8) (s mask : ℕ) : ℕ :=
  let c := fun i => widen (source[s + i]?.getD 0)
  let hash := if source.length - s < 4 then c 0
    else (c 0 <<< 6) ^^^ (c 1 <<< 4) ^^^ (c 2 <<< 2) ^^^ c 3
  (hash &&& BitVec.ofNat 32 mask).toNat

/-- The part of `pglz_hist_add` that takes a used entry off its list. -/
def histDelink (h : History) (i : ℕ) : History :=
  let h := match (h.entries i).prev with
    | none => h.setStart (h.entries i).hindex (h.entries i).next
    | some prev => h.setEntry prev { h.entries prev with next := (h.entries i).next }
  -- The link to the next entry is never `NULL`: at the end of a list it is entry 0.
  let next := (h.entries i).next
  h.setEntry next { h.entries next with prev := (h.entries i).prev }

/-- The part of `pglz_hist_add` that puts entry `i` at the head of list `hindex`. -/
def histLink (h : History) (i hindex pos : ℕ) : History :=
  let head := h.start hindex
  let h := h.setEntry i ⟨head, none, hindex, pos⟩
  -- An empty list has entry 0 for its head, which may be scribbled on.
  let h := h.setEntry head { h.entries head with prev := some i }
  h.setStart hindex i

/-- The part of `pglz_hist_add` that moves on to the next entry. -/
def histAdvance (h : History) : History :=
  if h.histNext + 1 ≥ PGLZ_HISTORY_SIZE + 1 then { h with histNext := 1, recycle := true }
  else { h with histNext := h.histNext + 1 }

/-- `pglz_hist_add`. -/
def histAdd (source : List UInt8) (mask : ℕ) (h : History) (s : ℕ) : History :=
  let hindex := histIdx widen source s mask
  let i := h.histNext
  let h := if h.recycle then histDelink h i else h
  histAdvance (histLink h i hindex s)

/-- The loop over the matched characters: `pglz_hist_add` for `len` positions from `dp` on. -/
def histAddMany (source : List UInt8) (mask : ℕ) (h : History) (dp : ℕ) : ℕ → History
  | 0 => h
  | len + 1 => histAddMany source mask (histAdd widen source mask h dp) (dp + 1) len

/-! ## Searching the history -/

/-- The comparison loop of `pglz_find_match` from `ip` and `hp`, with room for `room` more
characters: how many agree. -/
def matchLength (source : List UInt8) (ip hp : ℕ) : ℕ → ℕ
  | 0 => 0
  | room + 1 =>
    if ip < source.length ∧ source[ip]? = source[hp]? then matchLength source (ip + 1)
      (hp + 1) room + 1
    else 0

/-- The length of the match at `hp`, when the best so far has length `len`. -/
def thisLength (source : List UInt8) (ip hp len : ℕ) : ℕ :=
  if len ≥ 16 then
    -- `memcmp` first
    if (source.drop ip).take len = (source.drop hp).take len then
      len + matchLength source (ip + len) (hp + len) (PGLZ_MAX_MATCH - len)
    else 0
  else matchLength source ip hp PGLZ_MAX_MATCH

/-- The loop of `pglz_find_match` over a list from entry `hent` on. -/
def findMatchLoop (source : List UInt8) (entries : ℕ → HistEntry) (input : ℕ) (goodDrop : ℤ) :
    ℕ → ℕ → ℤ → ℕ → ℕ → Option (ℕ × ℕ)
  | 0, _, _, _, _ => none
  | fuel + 1, hent, goodMatch, len, off =>
    if hent = INVALID_ENTRY then some (len, off)
    else
      let hp := (entries hent).pos
      let thisoff := input - hp
      if thisoff ≥ 0x0fff then some (len, off)
      else
        let thislen := thisLength source input hp len
        let best := if thislen > len then (thislen, thisoff) else (len, off)
        let hent := (entries hent).next
        if hent ≠ INVALID_ENTRY ∧ best.1 ≥ goodMatch then some best
        else findMatchLoop source entries input goodDrop fuel hent
          (goodMatch - (goodMatch * goodDrop).tdiv 100) best.1 best.2

/-- `pglz_find_match`: length and offset of a match, if it saves at least a byte. -/
def findMatch (source : List UInt8) (h : History) (input mask : ℕ) (goodMatch goodDrop : ℤ) :
    Option (Option (ℕ × ℕ)) :=
  (findMatchLoop source h.entries input goodDrop (PGLZ_HISTORY_SIZE + 1)
    (h.start (histIdx widen source input mask)) goodMatch 0 0).map fun best =>
      if best.1 > 2 then some best else none

/-! ## Output -/

/-- The output with its control byte: `ctrlp` is its place (`none` for the dummy before the first
one), `ctrlb` the bits collected for it, `ctrl` the next bit, an `unsigned char`. -/
structure Output where
  bytes : List UInt8
  ctrlp : Option ℕ
  ctrlb : ℕ
  ctrl : ℕ

/-- `*ctrlp = ctrlb`. -/
def Output.storeCtrl (o : Output) : List UInt8 :=
  match o.ctrlp with
  | none => o.bytes
  | some p => o.bytes.set p (UInt8.ofNat o.ctrlb)

/-- `pglz_out_ctrl`; the byte reserved here is written when its bits are known. -/
def outCtrl (o : Output) : Output :=
  if o.ctrl &&& 0xff = 0 then
    let bytes := o.storeCtrl
    ⟨bytes ++ [0], some bytes.length, 0, 1⟩
  else o

/-- `pglz_out_literal`. -/
def outLiteral (o : Output) (byte : UInt8) : Output :=
  let o := outCtrl o
  { o with bytes := o.bytes ++ [byte], ctrl := (o.ctrl <<< 1) % 256 }

/-- The bytes of a tag. -/
def tagBytes (len off : ℕ) : List UInt8 :=
  if len > 17 then
    [UInt8.ofNat (((off &&& 0xf00) >>> 4) ||| 0x0f), UInt8.ofNat (off &&& 0xff),
      UInt8.ofNat (len - 18)]
  else [UInt8.ofNat (((off &&& 0xf00) >>> 4) ||| (len - 3)), UInt8.ofNat (off &&& 0xff)]

/-- `pglz_out_tag`. -/
def outTag (o : Output) (len off : ℕ) : Output :=
  let o := outCtrl o
  { o with
    bytes := o.bytes ++ tagBytes len off
    ctrlb := o.ctrlb ||| o.ctrl
    ctrl := (o.ctrl <<< 1) % 256 }

/-! ## Compressing -/

/-- The parameters that `pglz_compress` computes before its loop. -/
structure Params where
  goodMatch : ℤ
  goodDrop : ℤ
  resultMax : ℤ
  firstSuccessBy : ℤ
  mask : ℕ

/-- `good_match` from the strategy. -/
def limitGoodMatch (matchSizeGood : ℤ) : ℤ :=
  if matchSizeGood > PGLZ_MAX_MATCH then PGLZ_MAX_MATCH else if matchSizeGood < 17 then 17
  else matchSizeGood

/-- `good_drop` and `need_rate` from the strategy, with their upper limit. -/
def limitRate (upper rate : ℤ) : ℤ := if rate < 0 then 0 else if rate > upper then upper else rate

/-- `result_max`; the first form avoids an overflow. -/
def resultMax (slen : ℕ) (needRate : ℤ) : ℤ :=
  if slen > 2147483647 / 100 then ((slen : ℤ).tdiv 100) * (100 - needRate)
  else (slen * (100 - needRate)).tdiv 100

/-- The result of an operation on `int32`, unless it overflows. -/
def int32 (value : ℤ) : Option ℤ := if -2^31 ≤ value ∧ value < 2^31 then some value else none

/-- `result_max` in the type of the code. -/
def resultMaxInt32 (slen : ℕ) (needRate : ℤ) : Option ℤ := do
  let slen ← int32 slen
  let rate ← int32 (100 - needRate)
  if slen > 2147483647 / 100 then int32 (slen.tdiv 100 * rate)
  else do
    let product ← int32 (slen * rate)
    int32 (product.tdiv 100)

/-- `hashsz`. -/
def hashSize (slen : ℕ) : ℕ :=
  if slen < 128 then 512 else if slen < 256 then 1024 else if slen < 512 then 2048
  else if slen < 1024 then 4096 else 8192

/-- The parameters for a source and a strategy. -/
def params (slen : ℕ) (strategy : PGLZStrategy) : Params where
  goodMatch := limitGoodMatch strategy.match_size_good
  goodDrop := limitRate 100 strategy.match_size_drop
  resultMax := resultMax slen (limitRate 99 strategy.min_comp_rate)
  firstSuccessBy := strategy.first_success_by
  mask := hashSize slen - 1

/-- The loop of `pglz_compress`: whether it comes to the end of the source, and the output that it
leaves, also when it gives up. -/
def compressLoop (source : List UInt8) (pr : Params) :
    ℕ → ℕ → History → Output → Bool → Option (Bool × Output)
  | 0, _, _, _, _ => none
  | fuel + 1, dp, h, o, found =>
    if dp < source.length then
      if (o.bytes.length : ℤ) ≥ pr.resultMax then some (false, o)
      else if !found && decide ((o.bytes.length : ℤ) ≥ pr.firstSuccessBy) then some (false, o)
      else
        match findMatch widen source h dp pr.mask pr.goodMatch pr.goodDrop with
        | none => none
        | some (some (len, off)) =>
          compressLoop source pr fuel (dp + len) (histAddMany widen source pr.mask h dp len)
            (outTag o len off) true
        | some none =>
          compressLoop source pr fuel (dp + 1) (histAdd widen source pr.mask h dp)
            (outLiteral o (source[dp]?.getD 0)) found
    else some (true, o)

/-- The history table at the beginning: the lists are empty. -/
def initialHistory (static : History) (slen : ℕ) : History :=
  { static with
    start := fun k => if k < hashSize slen then 0 else static.start k
    histNext := 1
    recycle := false }

/-- What `pglz_compress` has written to `dest` when it returns, with a size or with -1. -/
def pglzCompressDest (static : History) (strategy : Option PGLZStrategy) (source : List UInt8) :
    Option (List UInt8) :=
  let strategy := strategy.getD strategyDefault
  let slen := source.length
  if strategy.match_size_good ≤ 0 ∨ (slen : ℤ) < strategy.min_input_size ∨
      (slen : ℤ) > strategy.max_input_size then some []
  else
    (compressLoop widen source (params slen strategy) (slen + 1) 0 (initialHistory static slen)
      ⟨[], none, 0, 0⟩ false).map fun (done, o) => if done then o.storeCtrl else o.bytes

/-- `pglz_compress`, on a history table with the contents `static`: the bytes written, or -1. -/
def pglzCompress (static : History) (strategy : Option PGLZStrategy) (source : List UInt8) :
    Option (Option (List UInt8)) :=
  let strategy := strategy.getD strategyDefault
  let slen := source.length
  if strategy.match_size_good ≤ 0 ∨ (slen : ℤ) < strategy.min_input_size ∨
      (slen : ℤ) > strategy.max_input_size then some none
  else
    let pr := params slen strategy
    (compressLoop widen source pr (slen + 1) 0 (initialHistory static slen) ⟨[], none, 0, 0⟩
      false).map fun (done, o) =>
        let bytes := o.storeCtrl
        if done ∧ (bytes.length : ℤ) < pr.resultMax then some bytes else none

end

/-! ## Decompressing -/

/-- The copying loop of `pglz_decompress`, which doubles the offset, and the copy after it. -/
def copyMatch : ℕ → List UInt8 → ℕ → ℕ → Option (List UInt8)
  | 0, _, _, _ => none
  | fuel + 1, out, off, len =>
    if off < len then
      copyMatch fuel (out ++ (out.drop (out.length - off)).take off) (off + off) (len - off)
    else some (out ++ (out.drop (out.length - off)).take len)

/-- `memcpy(dp, dp - off, n)` in `dest`, unless it reads what is not written yet, reads where it
writes, or writes behind the first `rawsize` bytes. -/
def memcpyChecked (rawsize : ℕ) (out : List UInt8) (off n : ℕ) : Option (List UInt8) :=
  if off ≤ out.length ∧ n ≤ off ∧ out.length + n ≤ rawsize then
    some (out ++ (out.drop (out.length - off)).take n)
  else none

/-- `copyMatch` by copies that are checked. -/
def copyMatchChecked (rawsize : ℕ) : ℕ → List UInt8 → ℕ → ℕ → Option (List UInt8)
  | 0, _, _, _ => none
  | fuel + 1, out, off, len =>
    if off < len then do
      let out ← memcpyChecked rawsize out off off
      copyMatchChecked rawsize fuel out (off + off) (len - off)
    else memcpyChecked rawsize out off len

/-- What a tag reads: length, offset, and the place behind it. A byte behind the end of the source
is read as 0; the test of that place rejects the tag whatever the byte is. -/
def readTag (src : List UInt8) (sp : ℕ) : ℕ × ℕ × ℕ :=
  let b := fun i => (src[sp + i]?.getD 0).toNat
  let len := (b 0 &&& 0x0f) + 3
  let off := ((b 0 &&& 0xf0) <<< 4) ||| b 1
  if len = 18 then (len + b 2, off, sp + 3) else (len, off, sp + 2)

section

-- How a match is copied: `copyMatch`, or `copyMatchChecked` for the same with its bounds tested.
variable (copy : ℕ → List UInt8 → ℕ → ℕ → Option (List UInt8))

/-- The loop of `pglz_decompress` over the items of one control byte, with `count` items left. The
inner `none` is the result -1. A literal is written only below `rawsize`. -/
def decompressItems (src : List UInt8) (rawsize : ℕ) :
    ℕ → ℕ → ℕ → List UInt8 → Option (Option (ℕ × List UInt8))
  | 0, _, sp, out => some (some (sp, out))
  | count + 1, ctrl, sp, out =>
    if sp < src.length ∧ out.length < rawsize then
      if ctrl &&& 1 ≠ 0 then
        let (len, off, sp) := readTag src sp
        if sp > src.length ∨ off = 0 ∨ off > out.length then some none
        else
          let len := min len (rawsize - out.length)
          match copy (len + 1) out off len with
          | none => none
          | some out => decompressItems src rawsize count (ctrl >>> 1) sp out
      else
        decompressItems src rawsize count (ctrl >>> 1) (sp + 1) (out ++ [src[sp]?.getD 0])
    else some (some (sp, out))

/-- The outer loop of `pglz_decompress`. -/
def decompressLoop (src : List UInt8) (rawsize : ℕ) :
    ℕ → ℕ → List UInt8 → Option (Option (ℕ × List UInt8))
  | 0, _, _ => none
  | fuel + 1, sp, out =>
    if sp < src.length ∧ out.length < rawsize then
      match decompressItems copy src rawsize 8 (src[sp]?.getD 0).toNat (sp + 1) out with
      | none => none
      | some none => some none
      | some (some (sp, out)) => decompressLoop src rawsize fuel sp out
    else some (some (sp, out))

end

/-- `pglz_decompress`: the bytes written, whose number is the result, or -1. -/
def pglzDecompress (src : List UInt8) (rawsize : ℕ) (checkComplete : Bool) :
    Option (Option (List UInt8)) :=
  (decompressLoop copyMatch src rawsize (src.length + 1) 0 []).map fun result =>
    result.bind fun (sp, out) =>
      if checkComplete ∧ (out.length ≠ rawsize ∨ sp ≠ src.length) then none else some out

end PgAutoIndex.Common
