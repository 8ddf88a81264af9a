import Mathlib.Algebra.BigOperators.Group.Finset.Basic
import PgAutoIndex.Bytes

/-!
# Reading integers

Model of `pg_strtoint16_safe`, `pg_strtoint32_safe` and `pg_strtoint64_safe` in
`src/backend/utils/adt/numutils.c`, which differ in the type only. A pointer into the text is what
is left of the text from there, and behind its end there is the NUL. The character classes are those
of the C locale.

The accumulator is tested before each multiplication. What the test lets through does not wrap
around, and what it stops is out of range for either sign (`accumulate_eq`, `digitLoop_complete`).
The fast path is a shortcut: where it has a result of its own, the slow path has the same
(`strtointSafe_eq_slow`).
-/

namespace PgAutoIndex.Adt

open List Option

/-! ## Characters -/

/-- The minus sign. -/
def charMinus : Fin 256 := 45
/-- The plus sign. -/
def charPlus : Fin 256 := 43
/-- The underscore. -/
def charUnderscore : Fin 256 := 95
/-- The digit 0. -/
def charZero : Fin 256 := 48

/-- `isspace`: blank, or one of the characters from tab to carriage return. -/
def isspace (b : Fin 256) : Bool := b.val = 32 || (9 ≤ b.val && b.val ≤ 13)

/-- The character is a digit from 0 to a last one. -/
def isDigitTo (last : ℕ) (b : Fin 256) : Bool := 48 ≤ b.val && b.val ≤ 48 + last

/-- `isxdigit`. -/
def isxdigit (b : Fin 256) : Bool :=
  isDigitTo 9 b || (65 ≤ b.val && b.val ≤ 70) || (97 ≤ b.val && b.val ≤ 102)

/-- `hexlookup`. -/
def hexlookup (b : Fin 256) : ℤ :=
  if isDigitTo 9 b then b.val - 48
  else if 65 ≤ b.val ∧ b.val ≤ 70 then b.val - 55
  else if 97 ≤ b.val ∧ b.val ≤ 102 then b.val - 87
  else -1

/-- What `*ptr` reads. -/
def deref (ptr : List (Fin 256)) : Fin 256 := ptr.headD 0

/-! ## The functions -/

/-- What the functions differ in: the width of the type and its name. -/
structure IntType where
  width : ℕ
  typname : String

/-- `PG_INT16_MIN` and the like. -/
def IntType.min (ty : IntType) : ℤ := -2^(ty.width - 1)

/-- `PG_INT16_MAX` and the like. -/
def IntType.max (ty : IntType) : ℤ := 2^(ty.width - 1) - 1

/-- The errors, with what their messages are made of. -/
inductive StrtointError
  /-- value "%s" is out of range for type %s -/
  | outOfRange (s : List (Fin 256)) (typname : String)
  /-- invalid input syntax for type %s: "%s" -/
  | invalidSyntax (typname : String) (s : List (Fin 256))

/-- What the loops over digits differ in. -/
structure Radix where
  base : ℕ
  isDigit : Fin 256 → Bool
  digitValue : Fin 256 → ℤ
  underscoreFirst : Bool

/-- The loop for 0x. -/
def hexRadix : Radix := ⟨16, isxdigit, hexlookup, true⟩
/-- The loop for 0o. -/
def octRadix : Radix := ⟨8, isDigitTo 7, fun b => b.val - 48, true⟩
/-- The loop for 0b. -/
def binRadix : Radix := ⟨2, isDigitTo 1, fun b => b.val - 48, true⟩
/-- The loop for decimal digits. -/
def decRadix : Radix := ⟨10, isDigitTo 9, fun b => b.val - 48, false⟩

/-- The letter behind a 0, in upper or lower case. -/
def prefixRadix (b : Fin 256) : Option Radix :=
  if b.val = 120 ∨ b.val = 88 then some hexRadix
  else if b.val = 111 ∨ b.val = 79 then some octRadix
  else if b.val = 98 ∨ b.val = 66 then some binRadix
  else none

/-- `-(PG_INT16_MIN / base)` and the like; the division truncates. -/
def threshold (ty : IntType) (base : ℕ) : ℤ := -(ty.min.tdiv base)

/-- `tmp * base + digit` in the unsigned type. -/
def accumulate (ty : IntType) (base tmp : ℕ) (digit : ℤ) : ℕ :=
  ((tmp * base + digit) % 2^ty.width).toNat

/-- `pg_neg_u16_overflow` and the like, with `none` for an overflow. -/
def pgNegOverflow (ty : IntType) (a : ℕ) : Option ℤ := if -(a : ℤ) < ty.min then none else some (-a)

/-- The end of both paths: the sign and the range. -/
def finish (ty : IntType) (s : List (Fin 256)) (neg : Bool) (tmp : ℕ) : Except StrtointError ℤ :=
  if neg then
    match pgNegOverflow ty tmp with
    | none => .error (.outOfRange s ty.typname)
    | some result => .ok result
  else if (tmp : ℤ) > ty.max then .error (.outOfRange s ty.typname)
  else .ok tmp

/-- The loop over digits; the result is where it stops and the accumulator. -/
def digitLoop (ty : IntType) (s : List (Fin 256)) (r : Radix) (firstdigit : List (Fin 256)) :
    List (Fin 256) → ℕ → Except StrtointError (List (Fin 256) × ℕ)
  | [], tmp => .ok ([], tmp)
  | b :: ptr, tmp =>
    if r.isDigit b then
      if (tmp : ℤ) > threshold ty r.base then .error (.outOfRange s ty.typname)
      else digitLoop ty s r firstdigit ptr (accumulate ty r.base tmp (r.digitValue b))
    else if b = charUnderscore then
      -- An underscore may not be first in a decimal number.
      if !r.underscoreFirst ∧ (b :: ptr).length = firstdigit.length then
        .error (.invalidSyntax ty.typname s)
      -- It must be followed by more digits.
      else if deref ptr = 0 ∨ !r.isDigit (deref ptr) then .error (.invalidSyntax ty.typname s)
      else digitLoop ty s r firstdigit ptr tmp
    else .ok (b :: ptr, tmp)

/-- The sign; a minus that the fast path has seen stays. -/
def handleSign (ptr : List (Fin 256)) (neg : Bool) : List (Fin 256) × Bool :=
  if deref ptr = charMinus then (ptr.tail, true)
  else if deref ptr = charPlus then (ptr.tail, neg)
  else (ptr, neg)

/-- Which loop runs, and where it starts. -/
def chooseRadix (ptr : List (Fin 256)) : Radix × List (Fin 256) :=
  if deref ptr = charZero then
    match prefixRadix (deref ptr.tail) with
    | some r => (r, ptr.tail.tail)
    | none => (decRadix, ptr)
  else (decRadix, ptr)

/-- The digits, and what may follow them. -/
def processDigits (ty : IntType) (s : List (Fin 256)) (neg : Bool) (r : Radix)
    (firstdigit : List (Fin 256)) :
    Except StrtointError ℤ :=
  match digitLoop ty s r firstdigit firstdigit 0 with
  | .error e => .error e
  | .ok (ptr, tmp) =>
    -- Require at least one digit.
    if ptr.length = firstdigit.length then .error (.invalidSyntax ty.typname s)
    -- Allow trailing white space, but not other trailing characters.
    else if deref (ptr.dropWhile isspace) ≠ 0 then .error (.invalidSyntax ty.typname s)
    else finish ty s neg tmp

/-- The part from the label `slow` on. -/
def slow (ty : IntType) (s : List (Fin 256)) (neg : Bool) : Except StrtointError ℤ :=
  let (ptr, neg) := handleSign (s.dropWhile isspace) neg
  let (r, firstdigit) := chooseRadix ptr
  processDigits ty s neg r firstdigit

/-- `*ptr - '0'` as an unsigned character. -/
def digitOf (b : Fin 256) : ℕ := (b.val + 256 - 48) % 256

/-- The loop of the fast path, `none` when the value is out of range. -/
def fastLoop (ty : IntType) : List (Fin 256) → ℕ → Option (List (Fin 256) × ℕ)
  | [], tmp => some ([], tmp)
  | b :: ptr, tmp =>
    if digitOf b ≥ 10 then some (b :: ptr, tmp)
    else if (tmp : ℤ) > threshold ty 10 then none
    else fastLoop ty ptr (accumulate ty 10 tmp (digitOf b))

/-- The functions with their type as a parameter. -/
def strtointSafe (ty : IntType) (s : List (Fin 256)) : Except StrtointError ℤ :=
  let (ptr, neg) := if deref s = charMinus then (s.tail, true) else (s, false)
  if digitOf (deref ptr) < 10 then
    match fastLoop ty ptr.tail (digitOf (deref ptr)) with
    | none => .error (.outOfRange s ty.typname)
    | some (ptr, tmp) => if deref ptr ≠ 0 then slow ty s neg else finish ty s neg tmp
  else slow ty s neg

/-- `pg_strtoint16_safe`. -/
def pgStrtoint16Safe : List (Fin 256) → Except StrtointError ℤ := strtointSafe ⟨16, "smallint"⟩

/-- `pg_strtoint32_safe`. -/
def pgStrtoint32Safe : List (Fin 256) → Except StrtointError ℤ := strtointSafe ⟨32, "integer"⟩

/-- `pg_strtoint64_safe`. -/
def pgStrtoint64Safe : List (Fin 256) → Except StrtointError ℤ := strtointSafe ⟨64, "bigint"⟩

/-! ## The texts of integers -/

/-- Digits, each with at most one underscore before it. -/
inductive DigitText (r : Radix) : List (Fin 256) → List ℕ → Prop
  | nil : DigitText r [] []
  | digit {b : Fin 256} {q : List (Fin 256)} {vs : List ℕ} :
    r.isDigit b = true → DigitText r q vs → DigitText r (b :: q) ((r.digitValue b).toNat :: vs)
  | underscore {b : Fin 256} {q : List (Fin 256)} {vs : List ℕ} :
    r.isDigit b = true → DigitText r q vs →
    DigitText r (charUnderscore :: b :: q) ((r.digitValue b).toNat :: vs)

/-- The number with given digits, the highest first, behind digits that are worth `acc`. -/
def digitsFrom (base : ℕ) (acc : ℕ) (vs : List ℕ) : ℕ := vs.foldl (fun acc d => acc * base + d) acc

/-- Literals and their values. -/
inductive Literal : List (Fin 256) → ℕ → Prop
  | decimal {q : List (Fin 256)} {vs : List ℕ} :
    DigitText decRadix q vs → vs ≠ [] → deref q ≠ charUnderscore → Literal q (digitsFrom 10 0 vs)
  | prefixed {c : Fin 256} {r : Radix} {q : List (Fin 256)} {vs : List ℕ} :
    prefixRadix c = some r → DigitText r q vs → vs ≠ [] →
    Literal (charZero :: c :: q) (digitsFrom r.base 0 vs)

/-- An optional sign, and whether it is a minus. -/
inductive Sign : List (Fin 256) → Bool → Prop
  | none : Sign [] false
  | plus : Sign [charPlus] false
  | minus : Sign [charMinus] true

/-- The texts of integers: white space, a sign, a literal, white space. -/
inductive IntText : List (Fin 256) → ℤ → Prop
  | mk {before sign literal after : List (Fin 256)} {neg : Bool} {n : ℕ} :
    (∀ b ∈ before, isspace b = true) → Sign sign neg → Literal literal n →
    (∀ b ∈ after, isspace b = true) →
    IntText (before ++ (sign ++ (literal ++ after))) (if neg then -n else n)

/-! ## Digits -/

/-- What the loops rely on: digits are below the base and are no other characters of the grammar. -/
structure Radix.Ok (r : Radix) : Prop where
  base_pos : 0 < r.base
  base_le : r.base ≤ 16
  value : ∀ b : Fin 256, r.isDigit b = true → 0 ≤ r.digitValue b ∧ r.digitValue b < r.base
  printable : ∀ b : Fin 256, r.isDigit b = true →
    isspace b = false ∧ b ≠ charMinus ∧ b ≠ charPlus ∧ b ≠ charUnderscore ∧ b ≠ 0

/-- The digits of the four bases. -/
theorem digits_table : ∀ b :
    Fin 256, ∀ r ∈ [hexRadix, octRadix, binRadix, decRadix], r.isDigit b = true →
    (0 ≤ r.digitValue b ∧ r.digitValue b < r.base) ∧
      isspace b = false ∧ b ≠ charMinus ∧ b ≠ charPlus ∧ b ≠ charUnderscore ∧ b ≠ 0 := by
  decide +kernel

theorem radix_ok {r : Radix} (hmem : r ∈ [hexRadix, octRadix, binRadix, decRadix])
    (hpos : 0 < r.base) (hle : r.base ≤ 16) : r.Ok :=
  ⟨hpos, hle, fun b hb => (digits_table b r hmem hb).1, fun b hb => (digits_table b r hmem hb).2⟩

theorem hexRadix_ok : hexRadix.Ok := radix_ok (.head _) (by decide) (by decide)
theorem octRadix_ok : octRadix.Ok := radix_ok (.tail _ (.head _)) (by decide) (by decide)
theorem binRadix_ok : binRadix.Ok := radix_ok (.tail _ (.tail _ (.head _))) (by decide) (by decide)
theorem decRadix_ok : decRadix.Ok :=
  radix_ok (.tail _ (.tail _ (.tail _ (.head _)))) (by decide) (by decide)

variable {tmp n : ℕ} {b c : Fin 256} {after firstdigit ptr q run rest l : List (Fin 256)}
  {vs : List ℕ}
  {neg : Bool} {v : ℤ} {ty : IntType} {s : List (Fin 256)} {r : Radix}

/-- The radix of a prefix is one of three. -/
theorem prefixRadix_cases (h : prefixRadix c = some r) :
    r.Ok ∧ r.underscoreFirst = true := by
  unfold prefixRadix at h
  split_ifs at h <;> obtain rfl := some.inj h
  · exact ⟨hexRadix_ok, rfl⟩
  · exact ⟨octRadix_ok, rfl⟩
  · exact ⟨binRadix_ok, rfl⟩

/-- The digits of the fast path are the decimal ones. -/
theorem digitOf_table : ∀ b : Fin 256, (digitOf b < 10 ↔ decRadix.isDigit b = true) ∧
    (decRadix.isDigit b = true → (digitOf b : ℤ) = decRadix.digitValue b) := by
  decide +kernel

theorem digitOf_lt_iff (b : Fin 256) : digitOf b < 10 ↔ decRadix.isDigit b = true :=
  (digitOf_table b).1

theorem digitOf_eq : decRadix.isDigit b = true → (digitOf b : ℤ) = decRadix.digitValue b :=
  (digitOf_table b).2

/-- The test lets an accumulator through whose product with the base is in range. -/
theorem threshold_eq (ty : IntType) (base : ℕ) :
    threshold ty base = ((2^(ty.width - 1) / base : ℕ) : ℤ) := by
  unfold threshold IntType.min
  rw [Int.neg_tdiv, Int.neg_neg]
  exact Int.tdiv_eq_ediv_of_nonneg (Int.pow_nonneg (by decide))

/-- What the test lets through does not wrap around. -/
theorem accumulate_eq (hw : 5 ≤ ty.width) (hr : r.Ok) (htmp : ¬ (tmp : ℤ) > threshold ty r.base)
    (hb : r.isDigit b = true) :
    accumulate ty r.base tmp (r.digitValue b) = tmp * r.base + (r.digitValue b).toNat := by
  obtain ⟨hnonneg, hlt⟩ := hr.value b hb
  obtain ⟨d, hd⟩ := Int.eq_ofNat_of_zero_le hnonneg
  rw [hd] at hlt ⊢
  have hbase := hr.base_le
  have hle : tmp ≤ 2^(ty.width - 1) / r.base := by
    rw [threshold_eq] at htmp
    omega
  have hprod : tmp * r.base ≤ 2^(ty.width - 1) := (Nat.le_div_iff_mul_le hr.base_pos).mp hle
  have hpow : 2^ty.width = 2 * 2^(ty.width - 1) := by
    rw [← Nat.pow_succ']
    congr 1
    omega
  have hsixteen : 2^4 ≤ 2^(ty.width - 1) := Nat.pow_le_pow_right (by decide) (by omega)
  have hfit : tmp * r.base + d < 2^ty.width := by omega
  unfold accumulate
  rw [show ((tmp : ℤ) * r.base + (d : ℤ)) % 2^ty.width =
    ((tmp * r.base + d) % 2^ty.width : ℕ) by push_cast; rfl,
    Nat.mod_eq_of_lt hfit]
  rfl

/-- The accumulator of digits is at least what it starts from. -/
theorem le_digitsFrom {base : ℕ} (hbase : 0 < base) (vs : List ℕ) (acc : ℕ) :
    acc ≤ digitsFrom base acc vs := by
  induction vs generalizing acc with
  | nil => exact Nat.le_refl acc
  | cons d vs ih =>
    calc acc ≤ acc * base := Nat.le_mul_of_pos_right acc hbase
      _ ≤ acc * base + d := Nat.le_add_right _ _
      _ ≤ digitsFrom base (acc * base + d) vs := ih _

theorem DigitText.eq_nil_iff (h : DigitText r q vs) : q = [] ↔ vs = [] := by
  cases h with
  | nil => exact iff_of_true rfl rfl
  | digit _ _ => exact iff_of_false (cons_ne_nil _ _) (cons_ne_nil _ _)
  | underscore _ _ => exact iff_of_false (cons_ne_nil _ _) (cons_ne_nil _ _)

/-- The end of the text is no digit. -/
theorem Radix.Ok.not_isDigit_zero (hr : r.Ok) : r.isDigit 0 = false := by
  by_contra h
  exact (hr.printable 0 ((Bool.not_eq_false _).mp h)).2.2.2.2 rfl

/-- What the loop over digits consumes are digits, and it computes their value. -/
theorem digitLoop_sound (hw : 5 ≤ ty.width) (hr : r.Ok) {tmp' : ℕ}
    (h : digitLoop ty s r firstdigit ptr tmp = .ok (rest, tmp')) :
    ∃ run vs, ptr = run ++ rest ∧ DigitText r run vs ∧ tmp' = digitsFrom r.base tmp vs ∧
      r.isDigit (deref rest) = false ∧
      (ptr.length = firstdigit.length → r.underscoreFirst = false →
        deref run ≠ charUnderscore) := by
  have hnul : deref [] ≠ charUnderscore := by decide
  induction ptr generalizing tmp with
  | nil =>
    obtain ⟨rfl, rfl⟩ := Prod.mk.inj (Except.ok.inj h)
    exact ⟨[], [], rfl, .nil, rfl, hr.not_isDigit_zero, fun _ _ => hnul⟩
  | cons b ptr ih =>
    rw [digitLoop] at h
    split_ifs at h with hdigit hrange hunderscore hfirst hnext
    · obtain ⟨run, vs, rfl, htext, hvalue, hrest, _⟩ := ih h
      rw [accumulate_eq hw hr hrange hdigit] at hvalue
      exact ⟨b :: run, _ :: vs, rfl, .digit hdigit htext, hvalue, hrest,
        fun _ _ => (hr.printable b hdigit).2.2.2.1⟩
    · obtain ⟨run, vs, hptr, htext, hvalue, hrest, _⟩ := ih h
      rw [not_or, Bool.not_eq_true, Bool.not_eq_false'] at hnext
      have hnotfirst : (b :: ptr).length = firstdigit.length → r.underscoreFirst = false →
          deref (b :: run) ≠ charUnderscore :=
        fun hlength hflag => absurd ⟨by rw [hflag]; rfl, hlength⟩ hfirst
      subst hunderscore
      -- The next character is a digit, so the rest of the run starts with it.
      cases htext with
      | nil =>
        subst hptr
        exact absurd (hrest.symm.trans hnext.2) (by decide)
      | @digit c q vs hc hq =>
        exact ⟨charUnderscore :: c :: q, _, by rw [hptr]; rfl, .underscore hc hq, hvalue,
          hrest, hnotfirst⟩
      | @underscore c q vs hc hq =>
        subst hptr
        exact absurd rfl (hr.printable charUnderscore hnext.2).2.2.2.1
    · obtain ⟨rfl, rfl⟩ := Prod.mk.inj (Except.ok.inj h)
      exact ⟨[], [], rfl, .nil, rfl, (Bool.not_eq_true _).mp hdigit, fun _ _ => hnul⟩

/-- A digit is taken in when the value stays in range. -/
theorem digitLoop_digit (hw : 5 ≤ ty.width) (hr : r.Ok) (hb : r.isDigit b = true)
    (hvalue : digitsFrom r.base tmp ((r.digitValue b).toNat :: vs) ≤ 2^(ty.width - 1)) :
    digitLoop ty s r firstdigit (b :: ptr) tmp
      = digitLoop ty s r firstdigit ptr (tmp * r.base + (r.digitValue b).toNat) := by
  have hnext : tmp * r.base + (r.digitValue b).toNat ≤ 2^(ty.width - 1) :=
    (le_digitsFrom hr.base_pos vs _).trans hvalue
  have htmp : ¬ (tmp : ℤ) > threshold ty r.base := by
    have : tmp ≤ 2^(ty.width - 1) / r.base := (Nat.le_div_iff_mul_le hr.base_pos).mpr (by omega)
    rw [threshold_eq]
    omega
  rw [digitLoop, if_pos hb, if_neg htmp, accumulate_eq hw hr htmp hb]

/-- The loop stops at another character. -/
theorem digitLoop_stop (hstop : r.isDigit (deref ptr) = false ∧ deref ptr ≠ charUnderscore) :
    digitLoop ty s r firstdigit ptr tmp = .ok (ptr, tmp) := by
  cases ptr with
  | nil => rfl
  | cons b ptr =>
    rw [digitLoop, if_neg (by rw [show r.isDigit b = false from hstop.1]; decide),
      if_neg (show b ≠ charUnderscore from hstop.2)]

/-- The loop consumes digits whose value is in range. -/
theorem digitLoop_complete (hw : 5 ≤ ty.width) (hr : r.Ok) (h : DigitText r run vs)
    (hstop : r.isDigit (deref rest) = false ∧ deref rest ≠ charUnderscore)
    (hvalue : digitsFrom r.base tmp vs ≤ 2^(ty.width - 1))
    (hlength : (run ++ rest).length ≤ firstdigit.length)
    (hfirst : r.underscoreFirst = true ∨ deref run ≠ charUnderscore ∨
      (run ++ rest).length < firstdigit.length) :
    digitLoop ty s r firstdigit (run ++ rest) tmp = .ok (rest, digitsFrom r.base tmp vs) := by
  induction h generalizing tmp with
  | nil => exact digitLoop_stop hstop
  | @digit b q vs hb hq ih =>
    rw [cons_append] at hlength ⊢
    rw [length_cons] at hlength
    rw [digitLoop_digit hw hr hb hvalue]
    exact ih hvalue (by omega) (.inr (.inr (by omega)))
  | @underscore b q vs hb hq ih =>
    rw [cons_append, cons_append] at hlength hfirst ⊢
    rw [length_cons, length_cons] at hlength hfirst
    have hnotdigit : ¬ r.isDigit charUnderscore = true :=
      fun hdigit => (hr.printable _ hdigit).2.2.2.1 rfl
    rw [digitLoop, if_neg hnotdigit, if_pos rfl, if_neg, if_neg, digitLoop_digit hw hr hb hvalue]
    · exact ih hvalue (by omega) (.inr (.inr (by omega)))
    · -- The underscore is followed by a digit.
      rintro (hzero | hnot)
      · exact (hr.printable b hb).2.2.2.2 hzero
      · cases (Bool.not_eq_true' _).mp hnot ▸ hb
    · -- It is not first.
      rintro ⟨hflag, heq⟩
      rw [length_cons, length_cons] at heq
      rw [Bool.not_eq_true'] at hflag
      obtain htrue | hne | hlt := hfirst
      · cases hflag.symm.trans htrue
      · exact hne rfl
      · omega

/-! ## The slow path -/

/-- The result of the last test. -/
theorem finish_eq_ok_iff :
    finish ty s neg tmp = .ok v ↔
    v = (if neg then -(tmp : ℤ) else tmp) ∧ ty.min ≤ v ∧ v ≤ ty.max := by
  have hpow : (0 : ℤ) < 2^(ty.width - 1) := Int.pow_pos (by decide)
  unfold finish pgNegOverflow IntType.min IntType.max
  cases neg
  all_goals
    simp only [if_true, Bool.false_eq_true, if_false]
    split_ifs with hout
    · simp only [false_iff]
      omega
    · simp only [Except.ok.injEq]
      omega

/-- Without a NUL inside, the text ends where the characters after the number are white space. -/
theorem forall_isspace_of_deref (hnul : (0 : Fin 256) ∉ q) (h : deref (q.dropWhile isspace) = 0) :
    ∀ b ∈ q, isspace b = true := by
  induction q with
  | nil => exact nofun
  | cons b q ih =>
    rw [List.mem_cons, not_or] at hnul
    rw [dropWhile_cons] at h
    split_ifs at h with hspace
    · exact forall_mem_cons.mpr ⟨hspace, ih hnul.2 h⟩
    · exact absurd (show b = 0 from h).symm hnul.1

/-- A text that starts with another character loses no white space. -/
theorem dropWhile_of_deref (hq : isspace (deref q) = false) : q.dropWhile isspace = q := by
  cases q with
  | nil => rfl
  | cons b q =>
    exact dropWhile_cons_of_neg (ne_true_of_eq_false hq)

theorem dropWhile_of_forall {before : List (Fin 256)} (hbefore : ∀ b ∈ before, isspace b = true)
    (hq : isspace (deref q) = false) : (before ++ q).dropWhile isspace = q := by
  rw [dropWhile_append_of_pos hbefore, dropWhile_of_deref hq]

/-- A character that is there is the first one of the text. -/
theorem eq_cons_of_deref (hc : c ≠ 0) (h : deref q = c) : q = c :: q.tail := by
  cases q with
  | nil => exact absurd h.symm hc
  | cons b q =>
    rw [show b = c from h]
    rfl

/-- The sign is taken off the text. -/
theorem handleSign_spec {q' : List (Fin 256)} (h : handleSign q false = (q', neg)) :
    ∃ sign, q = sign ++ q' ∧ Sign sign neg := by
  unfold handleSign at h
  split_ifs at h with hminus hplus <;> obtain ⟨rfl, rfl⟩ := Prod.mk.inj h
  · exact ⟨[charMinus], eq_cons_of_deref (by decide) hminus, .minus⟩
  · exact ⟨[charPlus], eq_cons_of_deref (by decide) hplus, .plus⟩
  · exact ⟨[], rfl, .none⟩

/-- What may follow a digit of a decimal number. -/
abbrev FollowsDigit (c : Fin 256) : Prop :=
  decRadix.isDigit c = true ∨ c = charUnderscore ∨ isspace c = true ∨ c = 0

/-- What follows a digit of a decimal number is no prefix. -/
theorem prefixRadix_none : ∀ c : Fin 256, FollowsDigit c → (prefixRadix c).isNone = true := by
  decide +kernel

/-- Without a prefix the loop is the decimal one. -/
theorem chooseRadix_decimal (h : FollowsDigit (deref ptr.tail)) :
    chooseRadix ptr = (decRadix, ptr) := by
  unfold chooseRadix
  rw [isNone_iff_eq_none.mp (prefixRadix_none _ h)]
  exact ite_self _

/-- The loop starts behind a prefix when there is one. -/
theorem chooseRadix_spec (h : chooseRadix q = (r, firstdigit)) :
    (r = decRadix ∧ firstdigit = q) ∨ ∃ c, q = charZero :: c :: firstdigit ∧
    prefixRadix c = some r := by
  unfold chooseRadix at h
  split_ifs at h with hzero
  · split at h <;> cases h
    case h_2 => exact .inl ⟨rfl, rfl⟩
    case h_1 hstart =>
      have hne : deref q.tail ≠ 0 := fun hend => by
        have := prefixRadix_none _ (.inr (.inr (.inr hend)))
        rw [hstart] at this
        exact Bool.noConfusion this
      refine .inr ⟨deref q.tail, ?_, hstart⟩
      calc q = charZero :: q.tail := eq_cons_of_deref (by decide) hzero
        _ = charZero :: deref q.tail :: q.tail.tail := congrArg _ (eq_cons_of_deref hne rfl)
  · cases h
    exact .inl ⟨rfl, rfl⟩

/-- The slow path, with the sign and the prefix read. -/
theorem slow_eq {neg' : Bool} (hsign : handleSign (s.dropWhile isspace) neg = (ptr, neg'))
    (hradix : chooseRadix ptr = (r, firstdigit)) :
    slow ty s neg = processDigits ty s neg' r firstdigit := by
  unfold slow
  rw [hsign]
  dsimp only
  rw [hradix]

/-- What the slow path accepts is the text of its result. -/
theorem slow_sound (hw : 5 ≤ ty.width) (hnul : (0 : Fin 256) ∉ s) (h : slow ty s false = .ok v) :
    IntText s v ∧ ty.min ≤ v ∧ v ≤ ty.max := by
  rcases hsign : handleSign (s.dropWhile isspace) false with ⟨q, neg⟩
  rcases hradix : chooseRadix q with ⟨r, firstdigit⟩
  rw [slow_eq hsign hradix, processDigits] at h
  obtain ⟨sign, hdrop, hsigned⟩ := handleSign_spec hsign
  have hspec := chooseRadix_spec hradix
  have hr : r.Ok := by
    obtain ⟨rfl, _⟩ | ⟨c, _, hstart⟩ := hspec
    · exact decRadix_ok
    · exact (prefixRadix_cases hstart).1
  cases hloop : digitLoop ty s r firstdigit firstdigit 0 with
  | error e =>
    rw [hloop] at h
    cases h
  | ok result =>
    obtain ⟨rest, tmp⟩ := result
    rw [hloop] at h
    dsimp only at h
    split_ifs at h with hempty hend
    rw [not_not] at hend
    obtain ⟨run, vs, hfirst, htext, hvalue, _, hunderscore⟩ := digitLoop_sound hw hr hloop
    obtain ⟨rfl, hrange⟩ := finish_eq_ok_iff.mp h
    refine ⟨?_, hrange⟩
    have hrun : run ≠ [] := by
      rintro rfl
      exact hempty (by rw [hfirst]; rfl)
    -- The parts of the text, from the end to the start.
    have hsplit : s = s.takeWhile isspace ++ (sign ++ q) := by
      rw [← hdrop, takeWhile_append_dropWhile]
    obtain ⟨literal, hq, hliteral⟩ : ∃ literal, q = literal ++ rest ∧ Literal literal tmp := by
      obtain ⟨rfl, rfl⟩ | ⟨c, rfl, hstart⟩ := hspec
      · exact ⟨run, hfirst,
          hvalue ▸ .decimal htext (mt htext.eq_nil_iff.mpr hrun) (hunderscore rfl rfl)⟩
      · refine ⟨charZero :: c :: run, ?_,
          hvalue ▸ .prefixed hstart htext (mt htext.eq_nil_iff.mpr hrun)⟩
        rw [hfirst]
        rfl
    have hafter : ∀ b ∈ rest, isspace b = true := by
      refine forall_isspace_of_deref (fun hmem => hnul ?_) hend
      rw [hsplit, hq]
      exact mem_append_right _ (mem_append_right _ (mem_append_right _ hmem))
    rw [hsplit, hq]
    exact .mk (all_eq_true.mp all_takeWhile) hsigned hliteral hafter

/-- The first character of a literal. -/
theorem Literal.head (h : Literal l n) :
    ∃ b t, l = b :: t ∧ decRadix.isDigit b = true := by
  cases h with
  | @decimal q vs htext hne hfirst =>
    cases htext with
    | nil => exact absurd rfl hne
    | @digit b q vs hb _ => exact ⟨b, q, rfl, hb⟩
    | @underscore b q vs _ _ => exact absurd rfl hfirst
  | @prefixed c r q vs _ _ _ => exact ⟨charZero, c :: q, rfl, by decide⟩

/-- White space or nothing after a literal is no part of it. -/
theorem deref_after (h : ∀ b ∈ after, isspace b = true) :
    isspace (deref after) = true ∨ deref after = 0 := by
  cases after with
  | nil => exact .inr rfl
  | cons b after => exact .inl (h b mem_cons_self)

theorem isspace_stop (hr : r.Ok) (h : isspace b = true ∨ b = 0) :
    r.isDigit b = false ∧ b ≠ charUnderscore := by
  constructor
  · by_contra hdigit
    obtain ⟨hspace, _, _, _, hzero⟩ := hr.printable b ((Bool.not_eq_false _).mp hdigit)
    obtain htrue | heq := h
    · exact absurd (hspace.symm.trans htrue) (by decide)
    · exact hzero heq
  · rintro rfl
    exact absurd h (by decide)

/-- The second character of a decimal number with what is after it. -/
theorem DigitText.second (h : DigitText decRadix q vs) (hafter : ∀ b ∈ after, isspace b = true) :
    FollowsDigit (deref (q ++ after)) := by
  cases h with
  | nil => exact .inr (.inr (deref_after hafter))
  | digit hb _ => exact .inl hb
  | underscore _ _ => exact .inr (.inl rfl)

/-- The loop of a literal. -/
theorem Literal.chooseRadix (h : Literal l n) (hafter : ∀ b ∈ after, isspace b = true) :
    ∃ r run vs, chooseRadix (l ++ after) = (r, run ++ after) ∧ r.Ok ∧ DigitText r run vs ∧ vs ≠ [] ∧
      n = digitsFrom r.base 0 vs ∧ (r.underscoreFirst = true ∨ deref run ≠ charUnderscore) := by
  cases h with
  | @decimal q vs htext hne hfirst =>
    refine ⟨decRadix, l, vs, chooseRadix_decimal ?_, decRadix_ok, htext, hne, rfl, .inr hfirst⟩
    cases htext with
    | nil => exact absurd rfl hne
    | digit _ hq => exact hq.second hafter
    | underscore _ _ => exact absurd rfl hfirst
  | @prefixed c r q vs hstart htext hne =>
    obtain ⟨hr, hflag⟩ := prefixRadix_cases hstart
    refine ⟨r, q, vs, ?_, hr, htext, hne, rfl, .inl hflag⟩
    show (match prefixRadix c with
      | some r => (r, q ++ after)
      | none => (decRadix, _)) = _
    rw [hstart]

/-- The slow path accepts the texts of the integers in range. -/
theorem slow_complete (hw : 5 ≤ ty.width) (h : IntText s v) (hmin : ty.min ≤ v)
    (hmax : v ≤ ty.max) :
    slow ty s false = .ok v := by
  obtain @⟨before, sign, literal, after, neg, n, hbefore, hsign, hliteral, hafter⟩ := h
  obtain ⟨b, t, hl, hb⟩ := hliteral.head
  obtain ⟨hbspace, hbminus, hbplus, _, hbzero⟩ := decRadix_ok.printable b hb
  have hderef : deref (literal ++ after) = b := by
    rw [hl]
    rfl
  obtain ⟨hspace, hsigned⟩ : isspace (deref (sign ++ (literal ++ after))) = false ∧
      handleSign (sign ++ (literal ++ after)) false = (literal ++ after, neg) := by
    cases hsign with
    | none =>
      rw [nil_append, handleSign, hderef, if_neg hbminus, if_neg hbplus]
      exact ⟨hbspace, rfl⟩
    | plus | minus => exact ⟨rfl, rfl⟩
  obtain ⟨r, run, vs, hradix, hr, htext, hne, hn, hfirst⟩ := hliteral.chooseRadix hafter
  have hvalue : digitsFrom r.base 0 vs ≤ 2^(ty.width - 1) := by
    unfold IntType.min at hmin
    unfold IntType.max at hmax
    have hcast : ((2^(ty.width - 1) : ℕ) : ℤ) = 2^(ty.width - 1) := by push_cast; rfl
    cases neg <;> omega
  have hloop : ∀ s, digitLoop ty s r (run ++ after) (run ++ after) 0 =
      .ok (after, digitsFrom r.base 0 vs) := by
    intro s
    refine digitLoop_complete hw hr htext (isspace_stop hr (deref_after hafter)) hvalue le_rfl ?_
    exact hfirst.imp_right Or.inl
  have hrun : run ≠ [] := mt htext.eq_nil_iff.mp hne
  have hpos := length_pos_of_ne_nil hrun
  rw [← dropWhile_of_forall hbefore hspace] at hsigned
  rw [slow_eq hsigned hradix, processDigits, hloop]
  dsimp only
  have hdrop : after.dropWhile isspace = [] := by
    rw [← append_nil after, dropWhile_of_forall hafter rfl]
  rw [if_neg (by rw [length_append]; omega), hdrop,
    if_neg (not_not.mpr (show deref [] = 0 from rfl))]
  exact finish_eq_ok_iff.mpr ⟨by rw [hn], hmin, hmax⟩

/-! ## The fast path -/

/-- The fast path stops at once where there is no digit. -/
theorem fastLoop_stop (hdigit : ¬ decRadix.isDigit (deref ptr) = true) :
    fastLoop ty ptr tmp = some (ptr, tmp) := by
  cases ptr with
  | nil => rfl
  | cons b ptr => exact if_pos (not_lt.mp fun hlt => hdigit ((digitOf_lt_iff b).mp hlt))

/-- Where the fast path sees that the value is out of range, the loop of the slow path sees it too;
and where the fast path stops, the loop of the slow path comes by with the same value. -/
theorem digitLoop_of_fastLoop (ty : IntType) (s firstdigit ptr : List (Fin 256)) (tmp : ℕ) :
    match fastLoop ty ptr tmp with
    | none => digitLoop ty s decRadix firstdigit ptr tmp = .error (.outOfRange s ty.typname)
    | some (rest, tmp') =>
      digitLoop ty s decRadix firstdigit ptr tmp = digitLoop ty s decRadix firstdigit rest tmp' ∧
        rest.length ≤ ptr.length := by
  induction ptr generalizing tmp with
  | nil => exact ⟨rfl, le_rfl⟩
  | cons b ptr ih =>
    rw [fastLoop]
    split_ifs with hstop hrange
    · exact ⟨rfl, le_rfl⟩
    · rw [digitLoop, if_pos ((digitOf_lt_iff b).mp (by omega))]
      exact if_pos hrange
    · have hdigit := (digitOf_lt_iff b).mp (by omega)
      have hnext : digitLoop ty s decRadix firstdigit (b :: ptr) tmp =
        digitLoop ty s decRadix firstdigit ptr (accumulate ty 10 tmp (digitOf b)) := by
        rw [digitLoop, if_pos hdigit, digitOf_eq hdigit]
        exact if_neg hrange
      have hrest := ih (accumulate ty 10 tmp (digitOf b))
      rw [hnext]
      split at hrest
      · exact hrest
      · exact ⟨hrest.1, Nat.le_succ_of_le hrest.2⟩

/-- The slow path on a text that starts with a decimal digit, with or without a minus before it. -/
theorem slow_digits (hs : (if deref s = charMinus then (s.tail, true) else (s, false)) = (ptr, neg))
    (hdigit : decRadix.isDigit (deref ptr) = true)
    (hnext : decRadix.isDigit (deref ptr.tail) = true ∨ deref ptr.tail = 0) :
    slow ty s false = processDigits ty s neg decRadix ptr := by
  obtain ⟨hspace, hminus, hplus, _, _⟩ := decRadix_ok.printable _ hdigit
  have hsign : handleSign (s.dropWhile isspace) false = (ptr, neg) := by
    split_ifs at hs with h <;> obtain ⟨rfl, rfl⟩ := Prod.mk.inj hs
    · rw [dropWhile_of_deref (by rw [h]; rfl), handleSign, if_pos h]
    · rw [dropWhile_of_deref hspace, handleSign, if_neg hminus, if_neg hplus]
  exact slow_eq hsign (chooseRadix_decimal (hnext.imp_right fun hzero => .inr (.inr hzero)))

/-- The test lets an accumulator of 0 through. -/
theorem not_zero_gt_threshold (ty : IntType) (base : ℕ) : ¬ ((0 : ℕ) : ℤ) > threshold ty base := by
  rw [threshold_eq]
  exact Int.not_lt.mpr (Int.natCast_nonneg _)

/-- The first digit of a decimal number. -/
theorem digitLoop_first (hdigit : decRadix.isDigit (deref ptr) = true) :
    digitLoop ty s decRadix firstdigit ptr 0
      = digitLoop ty s decRadix firstdigit ptr.tail (accumulate ty 10 0 (digitOf (deref ptr))) := by
  cases ptr with
  | nil => exact absurd hdigit (by decide)
  | cons b ptr =>
    rw [digitLoop, if_pos (show decRadix.isDigit b = true from hdigit),
      if_neg (not_zero_gt_threshold ty _),
      digitOf_eq hdigit]
    rfl

/-- The first digit is its own value in the accumulator. -/
theorem accumulate_first (hw : 5 ≤ ty.width) (hb : decRadix.isDigit b = true) :
    accumulate ty 10 0 (digitOf b) = digitOf b := by
  have heq := accumulate_eq hw decRadix_ok (not_zero_gt_threshold ty _) hb
  rw [← digitOf_eq hb, zero_mul, zero_add] at heq
  exact heq

/-- The fast path never changes the outcome. -/
theorem strtointSafe_eq_slow (hw : 5 ≤ ty.width) (s : List (Fin 256)) :
    strtointSafe ty s = slow ty s false := by
  rcases hs : if deref s = charMinus then (s.tail, true) else (s, false) with ⟨ptr, neg⟩
  have hslow : slow ty s neg = slow ty s false := by
    split_ifs at hs with hminus <;> obtain ⟨_, rfl⟩ := Prod.mk.inj hs
    · -- A minus at the start is found by the slow path again.
      have hspace : s.dropWhile isspace = s := dropWhile_of_deref (by rw [hminus]; rfl)
      unfold slow handleSign
      rw [hspace, if_pos hminus, if_pos hminus]
    · rfl
  unfold strtointSafe
  rw [hs]
  dsimp only
  split_ifs with hlt
  · have hdigit := (digitOf_lt_iff _).mp hlt
    have hfirst : ∀ firstdigit, digitLoop ty s decRadix firstdigit ptr 0
        = digitLoop ty s decRadix firstdigit ptr.tail (digitOf (deref ptr)) := by
      intro firstdigit
      rw [digitLoop_first hdigit, accumulate_first hw hdigit]
    have hlength : ptr.tail.length < ptr.length := by
      rw [eq_cons_of_deref (decRadix_ok.printable _ hdigit).2.2.2.2 (q := ptr) rfl]
      exact Nat.lt_succ_self _
    have hnext : ¬ decRadix.isDigit (deref ptr.tail) = true →
        fastLoop ty ptr.tail (digitOf (deref ptr)) = _ := fastLoop_stop
    have hloop := digitLoop_of_fastLoop ty s ptr ptr.tail (digitOf (deref ptr))
    cases hfast : fastLoop ty ptr.tail (digitOf (deref ptr)) with
    | none =>
      rw [hfast] at hloop hnext
      rw [slow_digits hs hdigit (.inl (not_not.mp fun hnot => absurd (hnext hnot) nofun)),
        processDigits, hfirst, hloop]
    | some result =>
      obtain ⟨rest, tmp⟩ := result
      rw [hfast] at hloop hnext
      dsimp only
      split_ifs with hend
      · exact hslow
      · rw [not_not] at hend
        have hstop : rest.dropWhile isspace = rest := dropWhile_of_deref (by rw [hend]; rfl)
        rw [slow_digits hs hdigit ?_, processDigits, hfirst, hloop.1,
          digitLoop_stop (by rw [hend]; decide)]
        · dsimp only
          rw [if_neg (by have := hloop.2; omega), hstop, if_neg (not_not.mpr hend)]
        · by_cases hdigit' : decRadix.isDigit (deref ptr.tail) = true
          · exact .inl hdigit'
          · obtain ⟨rfl, -⟩ := Prod.mk.inj (some.inj (hnext hdigit'))
            exact .inr hend
  · exact hslow

/-- A text is accepted exactly when it is the text of an integer in range, and then it is read as
this integer. -/
theorem strtointSafe_eq_ok_iff (hw : 5 ≤ ty.width) (hnul : (0 : Fin 256) ∉ s) (v : ℤ) :
    strtointSafe ty s = .ok v ↔ IntText s v ∧ ty.min ≤ v ∧ v ≤ ty.max := by
  rw [strtointSafe_eq_slow hw]
  exact ⟨slow_sound hw hnul, fun h => slow_complete hw h.1 h.2.1 h.2.2⟩

end PgAutoIndex.Adt
