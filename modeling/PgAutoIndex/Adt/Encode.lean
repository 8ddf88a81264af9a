import Mathlib.Data.Nat.Bitwise
import Mathlib.Tactic.IntervalCases

/-!
# Base-n decoding

Model of `pg_base64_decode_internal` and `base32hex_decode` in `src/backend/utils/adt/encode.c`.
Both loops collect the bits of the symbols in a buffer and write a byte out of eight of them, so
that the bytes written and the bits still in the buffer are at each point the bits of the symbols
read (`Inv64.add`, `base32hexLoop_reads`). base32hex refuses a symbol after a `=` and writes nothing
for it. base64 adds a `=` to the buffer as six zero bits and notes only where the first one stood:
its output is right where the `=` fill the last group of four and nothing follows them
(`decode_exact`), but a group that one `=` leaves unfinished is written as if the `=` were a symbol.
-/

namespace PgAutoIndex.Adt

open List Except

/-- The entries of `enclist` that decode symbols of a fixed number of bits. -/
inductive Encoding
  | base64
  | base64url
  | base32hex
deriving DecidableEq

/-- What the decoders report. -/
inductive DecodeError
  -- unexpected "=" while decoding %s sequence
  | unexpectedPad (scheme : Encoding)
  -- invalid symbol "%.*s" found while decoding %s sequence
  | invalidSymbol (symbol : List UInt8) (scheme : Encoding)
  -- invalid %s end sequence
  | invalidEnd (scheme : Encoding)
deriving DecidableEq

/-- The characters that both decoders skip. -/
def isSpace (c : UInt8) : Bool := c = 32 ∨ c = 9 ∨ c = 10 ∨ c = 13

/-- `n` table entries of -1. -/
def gap (n : ℕ) : List (Option ℕ) := replicate n none

/-- `n` table entries that count up from `a`. -/
def run (a n : ℕ) : List (Option ℕ) := (range' a n).map some

/-- `b64lookup`. -/
def b64lookup : List (Option ℕ) :=
  gap 43 ++ run 62 1 ++ gap 3 ++ run 63 1 ++ run 52 10 ++ gap 7 ++ run 0 26 ++ gap 6 ++
    run 26 26 ++ gap 5

/-- `b32hexlookup`. -/
def b32hexlookup : List (Option ℕ) :=
  gap 48 ++ run 0 10 ++ gap 7 ++ run 10 22 ++ gap 10 ++ run 10 22 ++ gap 9

/-- The variables of `pg_base64_decode_internal`. `buf` never holds more than four symbols of six
bits. -/
structure Base64State where
  dst : List UInt8 := []
  buf : ℕ := 0
  pos : ℕ := 0
  /-- `end`: how many bytes a group with a `=` stands for, 0 before the first `=`. -/
  last : ℕ := 0

/-- Adds six bits to the buffer and writes a group of four out. -/
def Base64State.add (s : Base64State) (b : ℕ) : Base64State :=
  let buf := s.buf <<< 6 + b
  if s.pos + 1 = 4 then
    { s with
      dst := s.dst ++ .ofNat (buf >>> 16) ::
        ((if s.last = 0 ∨ s.last > 1 then [.ofNat (buf >>> 8)] else []) ++
        if s.last = 0 ∨ s.last > 2 then [.ofNat buf] else [])
      buf := 0
      pos := 0 }
  else { s with buf, pos := s.pos + 1 }

/-- The name of the scheme in a report. -/
def scheme (url : Bool) : Encoding := if url then .base64url else .base64

/-- base64url's symbols as base64's. -/
def fromUrl (url : Bool) (c : UInt8) : UInt8 :=
  if url ∧ c = 45 then 43 else if url ∧ c = 95 then 47 else c

/-- The value of a base64 symbol. -/
def value64 (c : UInt8) : Option ℕ := if 0 < c ∧ c < 127 then b64lookup.getD c.toNat none else none

/-- The value of a base32hex symbol. -/
def value32 (c : UInt8) : Option ℕ := if c < 128 then b32hexlookup.getD c.toNat none else none

section Decoders

-- `mblen` is `pg_mblen_range` on what is left of the text.
variable (mblen : List UInt8 → ℕ)

/-- The loop of `pg_base64_decode_internal`. -/
def base64Loop (url : Bool) : List UInt8 → Base64State → Except DecodeError Base64State
  | [], s => ok s
  | c :: src, s =>
    if isSpace c then base64Loop url src s
    else if fromUrl url c = 61 then
      if s.last ≠ 0 then base64Loop url src (s.add 0)
      else if s.pos = 2 then base64Loop url src (.add { s with last := 1 } 0)
      else if s.pos = 3 then base64Loop url src (.add { s with last := 2 } 0)
      else error (.unexpectedPad (scheme url))
    else
      match value64 (fromUrl url c) with
      | none => error (.invalidSymbol ((c :: src).take (mblen (c :: src))) (scheme url))
      | some b => base64Loop url src (s.add b)

/-- What `pg_base64_decode_internal` does after its loop. -/
def base64End (url : Bool) (s : Base64State) : Except DecodeError (List UInt8) :=
  if s.pos = 2 then
    let buf := s.buf <<< 12
    ok (s.dst ++ [.ofNat (buf >>> 16)])
  else if s.pos = 3 then
    let buf := s.buf <<< 6
    ok (s.dst ++ [.ofNat (buf >>> 16), .ofNat (buf >>> 8)])
  else if s.pos ≠ 0 then error (.invalidEnd (scheme url))
  else ok s.dst

/-- `pg_base64_decode_internal`. -/
def pgBase64DecodeInternal (url : Bool) (src : List UInt8) : Except DecodeError (List UInt8) :=
  base64Loop mblen url src {} >>= base64End url

/-- The inner loop of `base32hex_decode`, with the bits left in the buffer. -/
def base32hexBytes (dst : List UInt8) (buffer bits : ℕ) : List UInt8 × ℕ × ℕ :=
  if 8 ≤ bits then
    base32hexBytes (dst ++ [.ofNat (buffer >>> (bits - 8))])
      (buffer &&& (1 <<< (bits - 8) - 1)) (bits - 8)
  else (dst, buffer, bits)

/-- The loop of `base32hex_decode`; `fin` is its `end`. -/
def base32hexLoop : List UInt8 → List UInt8 → ℕ → ℕ → ℕ → Bool → Except DecodeError (List UInt8)
  | [], dst, _, _, _, _ => ok dst
  | c :: src, dst, buffer, bits, pos, fin =>
    if isSpace c then base32hexLoop src dst buffer bits pos fin
    else if c = 61 then
      if ¬ fin ∧ pos ≠ 2 ∧ pos ≠ 4 ∧ pos ≠ 5 ∧ pos ≠ 7 then error (.unexpectedPad .base32hex)
      else base32hexLoop src dst buffer bits (pos + 1) true
    else if fin then error (.invalidSymbol ((c :: src).take (mblen (c :: src))) .base32hex)
    else
      match value32 c with
      | none => error (.invalidSymbol ((c :: src).take (mblen (c :: src))) .base32hex)
      | some val =>
        let (dst, buffer, bits) := base32hexBytes dst (buffer <<< 5 ||| val) (bits + 5)
        base32hexLoop src dst buffer bits (if pos + 1 = 8 then 0 else pos + 1) fin

/-- The decoder of an entry of `enclist`. -/
def decode (e : Encoding) (src : List UInt8) : Except DecodeError (List UInt8) :=
  match e with
  | .base64 => pgBase64DecodeInternal mblen false src
  | .base64url => pgBase64DecodeInternal mblen true src
  | .base32hex => base32hexLoop mblen src [] 0 0 0 false

end Decoders

/-! ### What a text stands for -/

/-- The lowest `n` bits of a number, from the highest one. -/
def bits : ℕ → ℕ → List Bool
  | 0, _ => []
  | n + 1, x => x.testBit n :: bits n x

/-- The bits of bytes. -/
def bytes (dst : List UInt8) : List Bool := dst.flatMap fun b => bits 8 b.toNat

/-- The codes of base64's symbols in the order of their values. -/
def alphabet : List ℕ := range' 65 26 ++ range' 97 26 ++ range' 48 10 ++ [43, 47]

/-- The number of bits of a symbol. -/
def Encoding.width : Encoding → ℕ
  | .base32hex => 5
  | _ => 6

/-- The value of a symbol. base64url has `-` and `_` for `+` and `/`, which it takes as well;
base32hex has the digits and the letters up to V, of either case. -/
def Encoding.index (c : ℕ) : Encoding → ℕ
  | .base64 => alphabet.idxOf c
  | .base64url => alphabet.idxOf (if c = 45 then 43 else if c = 95 then 47 else c)
  | .base32hex => (range' 48 10 ++ range' 65 22).idxOf (if 97 ≤ c then c - 32 else c)

/-- The bit string of symbols. -/
def Encoding.bitString (e : Encoding) (symbols : List UInt8) : List Bool :=
  symbols.flatMap fun c => bits e.width (e.index c.toNat)

/-- A text without its white space. -/
def dense (src : List UInt8) : List UInt8 := src.filter (! isSpace ·)

/-- The characters of a text that are neither white space nor `=`. -/
def symbols (src : List UInt8) : List UInt8 := (dense src).filter (· ≠ 61)

/-- The symbols of a text come first and `m` times `=` after them. -/
def Trailing (src : List UInt8) (m : ℕ) : Prop := dense src = symbols src ++ replicate m 61

/-- No symbol follows a `=`, and if there are any `=`, they fill the last group of four. -/
def Padded (src : List UInt8) : Prop :=
  ∃ m, Trailing src m ∧ (m = 0 ∨ (symbols src).length % 4 + m = 4)

/-- No symbol follows a `=`, and `out` holds the bits of the symbols up to the last full byte. -/
def Exact (e : Encoding) (src out : List UInt8) : Prop :=
  (∃ m, Trailing src m) ∧ bytes out = (e.bitString (symbols src)).take
    (8 * (e.width * (symbols src).length / 8))

variable {e : Encoding} {url : Bool} {n m w x y b buffer pos : ℕ} {c : UInt8}
  {mblen : List UInt8 → ℕ}
  {src rest dst out acc : List UInt8} {s t : Base64State} {fin : Bool}

theorem bits_length : ∀ n, (bits n x).length = n
  | 0 => rfl
  | n + 1 => congrArg (· + 1) (bits_length n)

theorem bits_congr (h : ∀ i < n, x.testBit i = y.testBit i) : bits n x = bits n y := by
  induction n with
  | zero => rfl
  | succ n ih => rw [bits, bits, h n (by omega), ih fun i hi => h i (by omega)]

theorem bits_add : ∀ m, bits (m + n) x = bits m (x >>> n) ++ bits n x
  | 0 => by rw [Nat.zero_add]; rfl
  | m + 1 => by
    rw [Nat.succ_add, bits, bits_add m, bits, cons_append, Nat.testBit_shiftRight, Nat.add_comm n]

/-- A number with `w` more bits at its end. -/
theorem bits_push (hb : b < 2 ^ w) : bits (n + w) (x <<< w + b) = bits n x ++ bits w b := by
  have hbit : ∀ i, (x <<< w + b).testBit i = if i < w then b.testBit i else x.testBit (i - w) := by
    intro i
    rw [Nat.shiftLeft_eq, Nat.mul_comm, Nat.testBit_two_pow_mul_add _ hb]
  rw [bits_add]
  congr 1
  · exact bits_congr fun i _ => by simp [Nat.testBit_shiftRight, hbit]
  · exact bits_congr fun i hi => by simp [hbit, hi]

theorem bits_ofNat : bits 8 (UInt8.ofNat x).toNat = bits 8 x :=
  bits_congr fun i hi => by rw [UInt8.toNat_ofNat', Nat.testBit_mod_two_pow]; simp [hi]

/-- The bytes written are what the bit string has of full bytes once fewer than eight bits are left
over. -/
theorem bytes_eq_take {all : List Bool} (hn : n < 8) (h : bytes out ++ bits n x = all) :
    bytes out = all.take (8 * (all.length / 8)) := by
  have hlen : (bytes out).length = 8 * out.length := by
    simp [bytes, length_flatMap, bits_length, map_const', Nat.mul_comm]
  rw [← h, length_append, bits_length, hlen, Nat.mul_add_div (by omega), Nat.div_eq_of_lt hn,
    Nat.add_zero, ← hlen,
    take_left]

/-- The tables hold the values of the symbols. -/
theorem index_of_value64 (h : value64 (fromUrl url c) = some b) :
    b < 64 ∧ (scheme url).index c.toNat = b := by
  have hall : ∀ url, ∀ c < 256, ∀ b, value64 (fromUrl url (.ofNat c)) = some b →
      b < 64 ∧ (scheme url).index c = b := by
    decide +kernel
  exact hall url _ c.toNat_lt b (by rwa [UInt8.ofNat_toNat])

theorem index_of_value32 (h : value32 c = some b) :
    b < 32 ∧ Encoding.base32hex.index c.toNat = b := by
  have hall : ∀ c < 256, ∀ b, value32 (.ofNat c) = some b →
      b < 32 ∧ Encoding.base32hex.index c = b := by
    decide +kernel
  exact hall _ c.toNat_lt b (by rwa [UInt8.ofNat_toNat])

/-- Before the first `=` the bytes written and the buffer are the bits of the symbols `acc` read. -/
structure Inv64 (url : Bool) (acc : List UInt8) (s : Base64State) : Prop where
  last : s.last = 0
  pos : s.pos = acc.length % 4
  reads : bytes s.dst ++ bits (6 * s.pos) s.buf = (scheme url).bitString acc

theorem bytes_append : bytes (dst ++ out) = bytes dst ++ bytes out := flatMap_append

theorem bytes_cons : bytes (.ofNat x :: out) = bits 8 x ++ bytes out := by
  rw [bytes, flatMap_cons, bits_ofNat]; rfl

theorem width_scheme : (scheme url).width = 6 := by cases url <;> rfl

theorem Inv64.add (h : Inv64 url acc s) (hc : value64 (fromUrl url c) = some b) :
    Inv64 url (acc ++ [c]) (s.add b) := by
  obtain ⟨hb, hi⟩ := index_of_value64 hc
  have hpush := bits_push (n := 6 * s.pos) (x := s.buf) (w := 6) hb
  have hbits : (scheme url).bitString (acc ++ [c]) = bytes s.dst ++ bits (6 * s.pos + 6)
      (s.buf <<< 6 + b) := by
    rw [hpush, ← append_assoc, h.reads]
    simp [Encoding.bitString, hi, width_scheme]
  have hpos := h.pos
  unfold Base64State.add
  split
  · -- The fourth symbol: the 24 bits are three bytes.
    refine ⟨h.last, by simp; omega, ?_⟩
    have h24 : ∀ x, bits 24 x = bits 8 (x >>> 16) ++ (bits 8 (x >>> 8) ++ bits 8 x) := fun x => by
      rw [bits_add (m := 8) (n := 16), bits_add (m := 8) (n := 8)]
    rw [hbits, show s.pos = 3 by omega, h24]
    simp only [h.last, true_or, if_true, singleton_append, bytes_append, bytes_cons, append_assoc]
    rfl
  · exact ⟨h.last, by simp; omega, by rw [hbits]; rfl⟩

/-- White space does not change what the loop returns. -/
theorem base64Loop_dense (h : base64Loop mblen url src s = ok t) :
    base64Loop mblen url (dense src) s = ok t := by
  fun_induction base64Loop mblen url src s <;> simp_all [dense, base64Loop]

/-- The loop over symbols and then `rest`. -/
theorem base64Loop_symbols (hsrc : ∀ c ∈ src, isSpace c = false ∧ c ≠ 61) (hs : Inv64 url acc s)
    (h : base64Loop mblen url (src ++ rest) s = ok t) :
    ∃ s', Inv64 url (acc ++ src) s' ∧ base64Loop mblen url rest s' = ok t := by
  induction src generalizing acc s with
  | nil => exact ⟨s, by rwa [append_nil], h⟩
  | cons c src ih =>
    obtain ⟨⟨hc, hpad⟩, hsrc⟩ := forall_mem_cons.mp hsrc
    have hpad' : fromUrl url c ≠ 61 := by
      unfold fromUrl
      split_ifs <;> simp_all
    rw [cons_append, base64Loop, hc, if_neg (by simp), if_neg hpad'] at h
    split at h
    · cases h
    · next b hb =>
      obtain ⟨s', hs', h'⟩ := ih hsrc (hs.add hb) h
      exact ⟨s', by rwa [append_assoc] at hs', h'⟩

/-- The `=` that fill up a group do not change what is written. -/
theorem base64_pads (hl : s.last = 0) (hm : m = 0 ∨ s.pos + m = 4)
    (h : (base64Loop mblen url (replicate m 61) s >>= base64End url) = ok out) :
    base64End url s = ok out := by
  obtain rfl | hm := hm
  · exact h
  have hpad : fromUrl url 61 = 61 := by cases url <;> rfl
  have hs : isSpace 61 = false := rfl
  obtain ⟨dst, buf, pos, last⟩ := s
  obtain rfl : last = 0 := hl
  obtain rfl : m = 4 - pos := by simp at hm; omega
  have hpos : pos ≤ 4 := by simp at hm; omega
  interval_cases pos <;>
    simp_all [base64Loop, base64End, Base64State.add, replicate, bind, Except.bind,
      ← Nat.shiftLeft_add]

theorem shiftLeft_shiftRight_add {a b : ℕ} : x <<< a >>> (a + b) = x >>> b := by
  rw [Nat.shiftRight_add, Nat.shiftLeft_shiftRight]

/-- What the end writes leaves fewer than eight bits over. -/
theorem Inv64.end (hs : Inv64 url acc s) (h : base64End url s = ok out) :
    ∃ n x, n < 8 ∧ bytes out ++ bits n x = (scheme url).bitString acc := by
  rw [← hs.reads]
  unfold base64End at h
  split_ifs at h with h2 h3 h0
  · cases h
    refine ⟨4, s.buf, by omega, ?_⟩
    rw [h2, bytes_append, bytes_cons, shiftLeft_shiftRight_add (a := 12) (b := 4), append_assoc]
    exact congrArg _ (bits_add (n := 4) 8).symm
  · cases h
    refine ⟨2, s.buf, by omega, ?_⟩
    rw [h3, bytes_append, bytes_cons, bytes_cons, shiftLeft_shiftRight_add (a := 6) (b := 10),
      shiftLeft_shiftRight_add (a := 6) (b := 2), append_assoc]
    refine congrArg _ (.symm ((bits_add (n := 10) 8).trans ?_))
    rw [bits_add (n := 2) 8, append_assoc]
    rfl
  · cases h
    exact ⟨0, 0, by omega, by rw [not_not.mp h0]; rfl⟩

/-- After a first `=`, every group that is begun writes another byte. -/
theorem base64_pads_grow (hl : s.last ≠ 0)
    (h : (base64Loop mblen url (replicate m 61) s >>= base64End url) = ok out) :
    s.dst.length ≤ out.length ∧ (out.length = s.dst.length → s.pos = 0 ∧ m = 0) := by
  induction m generalizing s with
  | zero =>
    replace h : base64End url s = ok out := h
    unfold base64End at h
    split_ifs at h with h2 h3 h0 <;> cases h <;> simp_all
  | succ m ih =>
    have hpad : fromUrl url 61 = 61 := by cases url <;> rfl
    rw [replicate_succ, base64Loop, if_neg (by decide), if_pos hpad, if_pos hl] at h
    have hadd := ih (s := s.add 0) (by unfold Base64State.add; split_ifs <;> exact hl) h
    unfold Base64State.add at hadd
    split_ifs at hadd <;> simp at hadd ⊢ <;> omega

/-- Before the first `=`, the bytes written and the buffer hold six bits for each symbol. -/
theorem Inv64.length (h : Inv64 url acc s) : 8 * s.dst.length + 6 * s.pos = 6 * acc.length := by
  have hlen := congrArg List.length h.reads
  simpa [bytes, Encoding.bitString, length_flatMap, bits_length, map_const', width_scheme,
    Nat.mul_comm]
    using hlen

/-- If as many bytes are written as the symbols hold, the `=` fill up a group. -/
theorem Inv64.filled (hs : Inv64 url acc s)
    (h : (base64Loop mblen url (replicate m 61) s >>= base64End url) = ok out)
    (hout : out.length = 6 * acc.length / 8) : m = 0 ∨ acc.length % 4 + m = 4 := by
  have hlength := hs.length
  have hpad : fromUrl url 61 = 61 := by cases url <;> rfl
  rw [← hs.pos]
  cases m with
  | zero => exact .inl rfl
  | succ m =>
    rw [replicate_succ, base64Loop, if_neg (by decide), if_pos hpad,
      if_neg (not_not.mpr hs.last)] at h
    split_ifs at h with h2 h3
    · -- The first `=` is the third of its group, and the next one has to end it.
      cases m with
      | zero =>
        replace h : base64End url _ = ok out := h
        simp [base64End, Base64State.add, h2] at h
        simp [← h] at hout
        omega
      | succ m =>
        rw [replicate_succ, base64Loop, if_neg (by decide), if_pos hpad,
          if_pos (by simp [Base64State.add, h2])] at h
        have hgrow := base64_pads_grow (by simp [Base64State.add, h2]) h
        simp [Base64State.add, h2] at hgrow
        omega
    · have hgrow := base64_pads_grow (by simp [Base64State.add, h3]) h
      simp [Base64State.add, h3] at hgrow
      omega
    · cases h

/-- The state at the first `=` of a text whose symbols come first. -/
theorem base64_trailing (hd : Trailing src m) (h : pgBase64DecodeInternal mblen url src = ok out) :
    ∃ s, Inv64 url (symbols src) s ∧
      (base64Loop mblen url (replicate m 61) s >>= base64End url) = ok out := by
  have hS : ∀ c ∈ symbols src, isSpace c = false ∧ c ≠ 61 := by simp +contextual [symbols, dense]
  unfold pgBase64DecodeInternal at h
  cases ht : base64Loop mblen url src {} with
  | error e => rw [ht] at h; cases h
  | ok t =>
    rw [ht] at h
    obtain ⟨s, hs, hl⟩ := base64Loop_symbols hS (show Inv64 url [] {} from ⟨rfl, rfl, rfl⟩)
      (hd ▸ base64Loop_dense ht)
    exact ⟨s, hs, by rwa [hl]⟩

/-- base64 writes the bits of the symbols, up to fewer than eight, where the `=` fill the last
group. -/
theorem base64_reads (url : Bool) (h : pgBase64DecodeInternal mblen url src = ok out)
    (hp : Padded src) :
    (∃ m, Trailing src m) ∧ ∃ n x, n < 8 ∧ bytes out ++ bits n x =
      (scheme url).bitString (symbols src) := by
  obtain ⟨m, hd, hm⟩ := hp
  obtain ⟨s, hs, hl⟩ := base64_trailing hd h
  exact ⟨⟨m, hd⟩, hs.end (base64_pads hs.last (hs.pos ▸ hm) hl)⟩

theorem base32hexBytes_reads (dst : List UInt8) (buffer n : ℕ) :
    (base32hexBytes dst buffer n).2.2 < 8 ∧ bytes (base32hexBytes dst buffer n).1 ++
      bits (base32hexBytes dst buffer n).2.2 (base32hexBytes dst buffer n).2.1 =
        bytes dst ++ bits n buffer := by
  fun_induction base32hexBytes dst buffer n with
  | case1 dst buffer n hn ih =>
    refine ⟨ih.1, ih.2.trans ?_⟩
    obtain ⟨k, rfl⟩ := Nat.exists_eq_add_of_le hn
    rw [Nat.add_sub_cancel_left, bytes_append, bytes_cons, bits_add, append_assoc, append_assoc]
    congr 2
    exact bits_congr fun i hi => by simp [Nat.one_shiftLeft, hi]
  | case2 dst buffer n hn => exact ⟨by simpa using hn, rfl⟩

/-- After a `=` base32hex takes nothing but more of them. -/
theorem base32hexLoop_end (hfin : fin = true)
    (h : base32hexLoop mblen src dst buffer n pos fin = ok out) :
    (∃ m, dense src = replicate m 61) ∧ out = dst := by
  fun_induction base32hexLoop mblen src dst buffer n pos fin with
  | case1 => exact ⟨⟨0, rfl⟩, by simpa using h.symm⟩
  | case2 c src dst buffer n pos fin hc ih => simpa [dense, hc] using ih hfin h
  | case4 src dst buffer n pos fin _ _ ih =>
    obtain ⟨⟨m, hm⟩, hout⟩ := ih rfl h
    exact ⟨⟨m + 1, congrArg (61 :: ·) hm⟩, hout⟩
  | _ => simp_all

theorem base32hexLoop_reads (acc : List UInt8) (hfin : fin = false) (hn : n < 8)
    (hi : bytes dst ++ bits n buffer = Encoding.base32hex.bitString acc)
    (h : base32hexLoop mblen src dst buffer n pos fin = ok out) : (∃ m, Trailing src m) ∧
      ∃ n x, n < 8 ∧ bytes out ++ bits n x = Encoding.base32hex.bitString (acc ++ symbols src) := by
  fun_induction base32hexLoop mblen src dst buffer n pos fin generalizing acc with
  | case1 dst buffer n =>
    cases h
    exact ⟨⟨0, rfl⟩, n, buffer, hn, by simpa [symbols, dense] using hi⟩
  | case2 c src dst buffer n pos fin hc ih =>
    simpa [Trailing, dense, symbols, hc] using ih acc hfin hn hi h
  | case4 src dst buffer n pos fin =>
    obtain ⟨⟨m, hm⟩, rfl⟩ := base32hexLoop_end rfl h
    have hd : dense (61 :: src) = replicate (m + 1) 61 := congrArg (61 :: ·) hm
    have hnil : symbols (61 :: src) = [] := by simp [symbols, hd]
    exact ⟨⟨m + 1, by rw [Trailing, hnil, hd, nil_append]⟩, n, buffer, hn,
      by rwa [hnil, append_nil]⟩
  | case7 c src dst buffer n pos fin hc hpad _ b hb dst' buffer' n' heq ih =>
    obtain ⟨hb, hidx⟩ := index_of_value32 hb
    have hbytes := base32hexBytes_reads dst (buffer <<< 5 ||| b) (n + 5)
    rw [heq] at hbytes
    have hi' : bytes dst' ++ bits n' buffer' = Encoding.base32hex.bitString (acc ++ [c]) := by
      rw [hbytes.2, ← Nat.shiftLeft_add_eq_or_of_lt hb, bits_push hb, ← append_assoc, hi]
      simp [Encoding.bitString, hidx, Encoding.width]
    simpa [Trailing, dense, symbols, hc, hpad] using ih (acc ++ [c]) hfin hbytes.1 hi' h
  | _ => simp_all

/-- A decoder that succeeds writes the bits of the symbols up to the last full byte, and no symbol
follows a `=`, exactly if it is the one of base32hex or the `=` fill the last group. -/
theorem decode_exact (h : decode mblen e src = ok out) :
    Exact e src out ↔ (e ≠ .base32hex → Padded src) := by
  have hlen : (e.bitString (symbols src)).length = e.width * (symbols src).length := by
    simp [Encoding.bitString, length_flatMap, bits_length, map_const', Nat.mul_comm]
  constructor
  · rintro ⟨⟨m, hd⟩, hout⟩ he
    have hwidth : e.width = 6 := by cases e <;> first | rfl | exact absurd rfl he
    have hbytes : out.length = 6 * (symbols src).length / 8 := by
      have hlength := congrArg List.length hout
      rw [length_take, hlen, hwidth] at hlength
      simp [bytes, length_flatMap, bits_length, map_const'] at hlength
      omega
    obtain ⟨url, hurl⟩ : ∃ url, pgBase64DecodeInternal mblen url src = ok out := by
      cases e with
      | base64 => exact ⟨false, h⟩
      | base64url => exact ⟨true, h⟩
      | base32hex => exact absurd rfl he
    obtain ⟨s, hs, hl⟩ := base64_trailing hd hurl
    exact ⟨m, hd, hs.filled hl hbytes⟩
  intro hp
  have hread : (∃ m, Trailing src m) ∧ ∃ n x, n < 8 ∧
      bytes out ++ bits n x = e.bitString (symbols src) := by
    cases e with
    | base64 => exact base64_reads false h (hp (by simp))
    | base64url => exact base64_reads true h (hp (by simp))
    | base32hex => exact base32hexLoop_reads [] rfl (by omega) rfl h
  obtain ⟨hd, n, x, hn, hr⟩ := hread
  exact ⟨hd, by rw [← hlen, bytes_eq_take hn hr]⟩

/-- `QUI` with a line break and one `=` is two bytes. -/
theorem decode_exact_padded : decode (fun _ => 1) .base64 [81, 85, 73, 10, 61] = ok [65, 66] ∧
    Exact .base64 [81, 85, 73, 10, 61] [65, 66] :=
  have hok : decode (fun _ => 1) .base64 [81, 85, 73, 10, 61] = ok [65, 66] := by decide
  ⟨hok, (decode_exact hok).mpr fun _ => ⟨1, rfl, by decide⟩⟩

/-- `QQ=` is taken, and as two bytes: its 12 bits hold only one. -/
theorem decode_invents_byte :
    ¬ ∀ mblen e src out, decode mblen e src = ok out → Exact e src out := by
  intro h
  have hx := (h (fun _ => 1) .base64 [81, 81, 61] [65, 0] (by decide)).2
  revert hx
  decide

end PgAutoIndex.Adt
