import Mathlib.Algebra.BigOperators.Group.Finset.Basic
import PgAutoIndex.Bytes

/-!
# UTF-8

The encoding of RFC 3629: a code point up to U+10FFFF that is no surrogate is written in one to four
bytes, as few as possible (`encode`). `IsChar` are the byte sequences that arise so from code points
other than 0. `isChar_iff` gives their byte ranges. The first byte decides the length, so that a
text has at most one character at its start (`IsChar.eq_of_prefix`).

`IsText` are the concatenations of characters, and `LongestText s n` says that the first `n` bytes
of `s` are the longest such start of `s`.
-/

namespace Utf8

open List

/-- A byte. -/
abbrev Byte := Fin 256

/-- The code points that can be encoded: no surrogates, nothing above U+10FFFF. -/
def IsScalar (cp : ℕ) : Prop := cp < 0xD800 ∨ (0xE000 ≤ cp ∧ cp ≤ 0x10FFFF)

/-- The bytes of a code point, as few as possible. -/
def encode (cp : ℕ) : List Byte :=
  if cp < 0x80 then [Fin.ofNat 256 cp]
  else if cp < 0x800 then [Fin.ofNat 256 (0xC0 + cp / 64), Fin.ofNat 256 (0x80 + cp % 64)]
  else if cp < 0x10000 then
    [Fin.ofNat 256 (0xE0 + cp / 4096), Fin.ofNat 256 (0x80 + cp / 64 % 64),
      Fin.ofNat 256 (0x80 + cp % 64)]
  else
    [Fin.ofNat 256 (0xF0 + cp / 262144), Fin.ofNat 256 (0x80 + cp / 4096 % 64),
      Fin.ofNat 256 (0x80 + cp / 64 % 64),
      Fin.ofNat 256 (0x80 + cp % 64)]

/-- The bytes of a character other than NUL. -/
def IsChar (c : List Byte) : Prop := ∃ cp, cp ≠ 0 ∧ IsScalar cp ∧ c = encode cp

/-- A byte after the first one of a character. -/
def IsTail (b : Byte) : Prop := 0x80 ≤ b.val ∧ b.val ≤ 0xBF

/-- Whether a byte is a tail is decidable. -/
instance instDecidableIsTail (b : Byte) : Decidable (IsTail b) :=
  inferInstanceAs (Decidable (_ ∧ _))

/-- The second byte of a character of three or four bytes: after some first bytes, a part of the
range would be an overlong form, a surrogate or a code point that is too large. -/
def IsSecond (a b : Byte) : Prop :=
  (if a.val = 0xE0 then 0xA0 else if a.val = 0xF0 then 0x90 else 0x80) ≤ b.val ∧
    b.val ≤ (if a.val = 0xED then 0x9F else if a.val = 0xF4 then 0x8F else 0xBF)

/-- Whether a byte can be second is decidable. -/
instance instDecidableIsSecond (a b : Byte) : Decidable (IsSecond a b) :=
  inferInstanceAs (Decidable (_ ∧ _))

/-- The byte ranges of characters, as in section 4 of RFC 3629. -/
inductive CharBytes : List Byte → Prop
  | one {a : Byte} : 1 ≤ a.val → a.val < 0x80 → CharBytes [a]
  | two {a b : Byte} : 0xC2 ≤ a.val → a.val ≤ 0xDF → IsTail b → CharBytes [a, b]
  | three {a b c : Byte} :
    0xE0 ≤ a.val → a.val ≤ 0xEF → IsSecond a b → IsTail c → CharBytes [a, b, c]
  | four {a b c d : Byte} :
    0xF0 ≤ a.val → a.val ≤ 0xF4 → IsSecond a b → IsTail c → IsTail d → CharBytes [a, b, c, d]

variable {n : ℕ} {c s : List Byte}

/-- A byte is given by its number. -/
theorem eq_ofNat {a : Byte} (h : a.val = n) : a = Fin.ofNat 256 n := by
  apply Fin.ext
  show a.val = n % 256
  omega

theorem val_ofNat (h : n < 256) : (Fin.ofNat 256 n).val = n := Nat.mod_eq_of_lt h

theorem isTail_ofNat (h : n < 64) : IsTail (Fin.ofNat 256 (0x80 + n)) := by
  unfold IsTail
  rw [val_ofNat (by omega)]
  omega

/-- The second bytes, with the range of the first byte told apart. -/
theorem IsSecond.isTail {a b : Byte} (h : IsSecond a b) : IsTail b := by
  unfold IsSecond at h
  unfold IsTail
  split_ifs at h <;> omega

/-- Characters are the byte sequences in the ranges of RFC 3629. -/
theorem isChar_iff : IsChar c ↔ CharBytes c := by
  constructor
  · rintro ⟨cp, hpos, hscalar, rfl⟩
    unfold IsScalar at hscalar
    unfold encode
    split_ifs with h1 h2 h3
    · apply CharBytes.one <;> rw [val_ofNat (by omega)] <;> omega
    · refine .two ?_ ?_ (isTail_ofNat (by omega)) <;> rw [val_ofNat (by omega)] <;> omega
    · refine .three ?_ ?_ ?_ (isTail_ofNat (by omega)) <;>
        simp (disch := omega) only [IsSecond, val_ofNat]
      · omega
      · omega
      · split_ifs <;> omega
    · refine .four ?_ ?_ ?_ (isTail_ofNat (by omega)) (isTail_ofNat (by omega)) <;>
        simp (disch := omega) only [IsSecond, val_ofNat]
      · omega
      · omega
      · split_ifs <;> omega
  · intro h
    cases h with
    | @one a hlow hhigh =>
      refine ⟨a.val, by omega, .inl (by omega), ?_⟩
      rw [encode, if_pos hhigh, ← eq_ofNat rfl]
    | @two a b hlow hhigh htail =>
      obtain ⟨hblow, hbhigh⟩ := htail
      refine ⟨(a.val - 0xC0) * 64 + (b.val - 0x80), by omega, .inl (by omega), ?_⟩
      simp (disch := omega) only [encode, if_neg, if_pos, cons.injEq]
      exact ⟨eq_ofNat (by omega), eq_ofNat (by omega), trivial⟩
    | @three a b c hlow hhigh hsecond htail =>
      obtain ⟨hblow, hbhigh⟩ := hsecond.isTail
      obtain ⟨hclow, hchigh⟩ := htail
      have hrange : (a.val = 0xE0 → 0xA0 ≤ b.val) ∧ (a.val = 0xED → b.val ≤ 0x9F) := by
        unfold IsSecond at hsecond
        split_ifs at hsecond <;> omega
      refine ⟨(a.val - 0xE0) * 4096 + (b.val - 0x80) * 64 + (c.val - 0x80), by omega, ?_, ?_⟩
      · unfold IsScalar
        omega
      · simp (disch := omega) only [encode, if_neg, if_pos, cons.injEq]
        exact ⟨eq_ofNat (by omega), eq_ofNat (by omega), eq_ofNat (by omega), trivial⟩
    | @four a b c d hlow hhigh hsecond htail htail' =>
      obtain ⟨hblow, hbhigh⟩ := hsecond.isTail
      obtain ⟨hclow, hchigh⟩ := htail
      obtain ⟨hdlow, hdhigh⟩ := htail'
      have hrange : (a.val = 0xF0 → 0x90 ≤ b.val) ∧ (a.val = 0xF4 → b.val ≤ 0x8F) := by
        unfold IsSecond at hsecond
        split_ifs at hsecond <;> omega
      refine ⟨(a.val - 0xF0) * 262144 + (b.val - 0x80) * 4096 + (c.val - 0x80) * 64 +
        (d.val - 0x80), by omega, ?_, ?_⟩
      · unfold IsScalar
        omega
      · simp (disch := omega) only [encode, if_neg, cons.injEq]
        exact ⟨eq_ofNat (by omega), eq_ofNat (by omega), eq_ofNat (by omega),
          eq_ofNat (by omega), trivial⟩

/-! ## Texts -/

/-- The length of the character that starts with a byte. -/
def charLength (a : Byte) : ℕ :=
  if a.val < 0x80 then 1 else if a.val < 0xE0 then 2 else if a.val < 0xF0 then 3 else 4

/-- A character is its first byte, which decides the length, and bytes that continue it. -/
theorem CharBytes.bytes (h : CharBytes c) :
    ∃ a r, c = a :: r ∧ (a.val < 0x80 ∨ 0xC2 ≤ a.val ∧ a.val ≤ 0xF4) ∧
    c.length = charLength a ∧ ∀ x ∈ r, IsTail x := by
  have hlength : ∀ a r, c = a :: r → c.length = charLength a := by
    rintro a r rfl
    unfold charLength
    cases h <;> split_ifs <;> first | rfl | omega
  cases h with
  | @one a _ ha => exact ⟨a, [], rfl, .inl ha, hlength a _ rfl, forall_mem_nil _⟩
  | @two a b _ _ hb => exact ⟨a, [b], rfl, by omega, hlength a _ rfl, forall_mem_singleton.mpr hb⟩
  | @three a b c _ _ hb hc =>
    exact ⟨a, [b, c], rfl, by omega, hlength a _ rfl,
      forall_mem_cons.mpr ⟨hb.isTail, forall_mem_singleton.mpr hc⟩⟩
  | @four a b c d _ _ hb hc hd =>
    exact ⟨a, [b, c, d], rfl, by omega, hlength a _ rfl,
      forall_mem_cons.mpr ⟨hb.isTail, forall_mem_cons.mpr ⟨hc, forall_mem_singleton.mpr hd⟩⟩⟩

/-- The first byte of a character is not one that continues a character, all others are; below 0x80
there are no others. -/
theorem IsChar.bytes (h : IsChar c) :
    ∃ a r, c = a :: r ∧ ¬ IsTail a ∧ (∀ x ∈ r, IsTail x) ∧ (a.val < 0x80 → r = []) := by
  obtain ⟨a, r, rfl, hlead, hlength, htails⟩ := (isChar_iff.mp h).bytes
  refine ⟨a, r, rfl, fun ⟨_, _⟩ => by omega, htails, fun ha => ?_⟩
  rw [charLength, if_pos ha] at hlength
  exact length_eq_zero_iff.mp (Nat.succ.inj hlength)

theorem IsChar.ne_nil (h : IsChar c) : c ≠ [] := by
  obtain ⟨a, r, rfl, _⟩ := h.bytes
  exact cons_ne_nil a r

/-- There is at most one character at the start of a text. -/
theorem IsChar.eq_of_prefix {c' : List Byte} (hc : IsChar c) (hc' : IsChar c') (h : c <+: s)
    (h' : c' <+: s) :
    c = c' := by
  obtain ⟨a, r, rfl, _, hlength, _⟩ := (isChar_iff.mp hc).bytes
  obtain ⟨a', r', rfl, _, hlength', _⟩ := (isChar_iff.mp hc').bytes
  obtain ⟨t, rfl⟩ := h
  obtain ⟨t', heq⟩ := h'
  obtain rfl : a' = a := (cons.inj heq).1
  have hsame : (a' :: r').length = (a' :: r).length := hlength'.trans hlength.symm
  exact (append_inj heq hsame).1.symm

/-- A concatenation of characters. -/
inductive IsText : List Byte → Prop
  | nil : IsText []
  | cons {c rest : List Byte} : IsChar c → IsText rest → IsText (c ++ rest)

/-- A text goes on with a text. -/
theorem IsText.append {t t' : List Byte} (ht : IsText t) (ht' : IsText t') : IsText (t ++ t') := by
  induction ht with
  | nil => exact ht'
  | cons hc _ ih =>
    rw [append_assoc]
    exact .cons hc ih

theorem IsChar.isText (hc : IsChar c) : IsText c := append_nil c ▸ .cons hc .nil

/-- The first `n` bytes of `s` are the longest start of it that is a text. -/
structure LongestText (s : List Byte) (n : ℕ) : Prop where
  length_le : n ≤ s.length
  text : IsText (s.take n)
  longest : ∀ m, m ≤ s.length → IsText (s.take m) → m ≤ n

/-- Without a character at the start there is no text. -/
theorem longestText_zero (h : ∀ c, IsChar c → ¬ c <+: s) : LongestText s 0 := by
  refine ⟨Nat.zero_le _, IsText.nil, fun m hm htext => ?_⟩
  generalize hpre : s.take m = pre at htext
  cases htext with
  | nil =>
    have := congrArg length hpre
    rw [length_take, length_nil] at this
    omega
  | @cons c rest hc _ =>
    refine absurd ?_ (h c hc)
    exact (prefix_append c rest).trans (hpre ▸ take_prefix m s)

/-- A character at the start is part of the text. -/
theorem LongestText.cons (hc : IsChar c) (h : LongestText s n) :
    LongestText (c ++ s) (c.length + n) := by
  refine ⟨?_, ?_, fun m hm htext => ?_⟩
  · rw [length_append]
    exact Nat.add_le_add_left h.length_le _
  · rw [take_length_add_append]
    exact .cons hc h.text
  · generalize hpre : (c ++ s).take m = pre at htext
    cases htext with
    | nil =>
      have := congrArg length hpre
      rw [length_take, length_nil] at this
      omega
    | @cons c' rest hc' hrest =>
      have hstart : c' <+: c ++ s := (prefix_append c' rest).trans (hpre ▸ take_prefix m (c ++ s))
      obtain rfl := hc.eq_of_prefix hc' (prefix_append c s) hstart
      -- The rest of the text is one of the rest of the bytes.
      have hlength := congrArg length hpre
      rw [length_take, length_append, length_append] at hlength
      rw [length_append] at hm
      have hmc : m = c.length + (m - c.length) := by omega
      rw [hmc, take_length_add_append] at hpre
      have hrest' : s.take (m - c.length) = rest := append_cancel_left hpre
      have := h.longest (m - c.length) (by omega) (hrest' ▸ hrest)
      omega

/-- What comes after a text decides how much more there is. -/
theorem LongestText.append {t : List Byte} (ht : IsText t) (h : LongestText s n) :
    LongestText (t ++ s) (t.length + n) := by
  induction ht with
  | nil =>
    rw [nil_append, length_nil, zero_add]
    exact h
  | cons hc _ ih =>
    rw [append_assoc, length_append, add_assoc]
    exact ih.cons hc

/-- The longest text at the start is unique. -/
theorem LongestText.unique {n' : ℕ} (h : LongestText s n) (h' : LongestText s n') : n = n' :=
  le_antisymm (h'.longest n h.length_le h.text) (h.longest n' h'.length_le h'.text)

end Utf8
