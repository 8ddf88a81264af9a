import PgAutoIndex.Common.Ascii

/-!
# Verification of UTF-8

Model of `pg_utf8_verifystr` in `src/common/wchar.c` and of the functions that it calls. A pointer
into the text is an offset, and the length that remains is what is left of the text from there.

The fast path runs an automaton over whole chunks. Outside of the error state the bytes so far are a
text and an unfinished character, which the state knows enough of (`Partial`, `utf8Run_partial`). So
the slow path can start over from the first byte of the unfinished character, which is the last byte
that can be one (`walkBack_lead`). In the error state the slow path starts from the beginning, and
there is nothing to show.
-/

namespace PgAutoIndex.Common

open Utf8 List Option

/-! ## The automaton -/

/-- Error. -/
def ERR : ℕ := 0
/-- Begin. -/
def BGN : ℕ := 11
/-- Expect one continuation byte. -/
def CS1 : ℕ := 16
/-- Expect two continuation bytes. -/
def CS2 : ℕ := 1
/-- Expect three continuation bytes. -/
def CS3 : ℕ := 5
/-- Lead was E0, check for 3-byte overlong. -/
def P3A : ℕ := 6
/-- Lead was ED, check for surrogate. -/
def P3B : ℕ := 20
/-- Lead was F0, check for 4-byte overlong. -/
def P4A : ℕ := 25
/-- Lead was F4, check for too-large. -/
def P4B : ℕ := 30
/-- Begin and End are the same state. -/
def END : ℕ := BGN

/-- `CR1`: a continuation byte in 80..8F. -/
def CR1 : ℕ := (END <<< CS1) ||| (CS1 <<< CS2) ||| (CS2 <<< CS3) ||| (CS1 <<< P3B) ||| (CS2 <<< P4B)

/-- `CR2`: a continuation byte in 90..9F. -/
def CR2 : ℕ := (END <<< CS1) ||| (CS1 <<< CS2) ||| (CS2 <<< CS3) ||| (CS1 <<< P3B) ||| (CS2 <<< P4A)

/-- `CR3`: a continuation byte in A0..BF. -/
def CR3 : ℕ := (END <<< CS1) ||| (CS1 <<< CS2) ||| (CS2 <<< CS3) ||| (CS1 <<< P3A) ||| (CS2 <<< P4A)

/-- `Utf8Transition`: the entries of the table, by ranges of equal ones. -/
def utf8Transition (b : Byte) : ℕ :=
  if b.val = 0 then ERR
  else if b.val ≤ 0x7F then END <<< BGN
  else if b.val ≤ 0x8F then CR1
  else if b.val ≤ 0x9F then CR2
  else if b.val ≤ 0xBF then CR3
  else if b.val ≤ 0xC1 then ERR
  else if b.val ≤ 0xDF then CS1 <<< BGN
  else if b.val = 0xE0 then P3A <<< BGN
  else if b.val = 0xED then P3B <<< BGN
  else if b.val ≤ 0xEF then CS2 <<< BGN
  else if b.val = 0xF0 then P4A <<< BGN
  else if b.val ≤ 0xF3 then CS3 <<< BGN
  else if b.val = 0xF4 then P4B <<< BGN
  else ERR

/-- The loop of `utf8_advance`, which leaves bits above the state in place. -/
def utf8AdvanceLoop : List Byte → ℕ → ℕ
  | [], state => state
  | b :: s, state => utf8AdvanceLoop s (utf8Transition b >>> (state &&& 31))

/-- `utf8_advance`. -/
def utf8Advance (s : List Byte) (state : ℕ) : ℕ := utf8AdvanceLoop s state &&& 31

/-! ## Single characters -/

/-- `pg_utf_mblen`. -/
def pgUtfMblen (b : Byte) : ℕ :=
  if b.val &&& 0x80 = 0 then 1
  else if b.val &&& 0xe0 = 0xc0 then 2
  else if b.val &&& 0xf0 = 0xe0 then 3
  else if b.val &&& 0xf8 = 0xf0 then 4
  else 1

/-- `pg_utf8_islegal` from the case of length 1. -/
def islegalCase1 (source : List Byte) : Bool :=
  let a := (source.getD 0 0).val
  if a ≥ 0x80 ∧ a < 0xC2 then false
  else if a > 0xF4 then false
  else true

/-- The byte is outside of a range: the test of `pg_utf8_islegal` that rejects. -/
def outside (a : Byte) (low high : ℕ) : Bool := a.val < low || a.val > high

/-- `pg_utf8_islegal` from the case of length 2. -/
def islegalCase2 (source : List Byte) : Bool :=
  let a := source.getD 1 0
  let rejected :=
    if (source.getD 0 0).val = 0xE0 then outside a 0xA0 0xBF
    else if (source.getD 0 0).val = 0xED then outside a 0x80 0x9F
    else if (source.getD 0 0).val = 0xF0 then outside a 0x90 0xBF
    else if (source.getD 0 0).val = 0xF4 then outside a 0x80 0x8F
    else outside a 0x80 0xBF
  if rejected then false else islegalCase1 source

/-- `pg_utf8_islegal` from the case of length 3. -/
def islegalCase3 (source : List Byte) : Bool :=
  if outside (source.getD 2 0) 0x80 0xBF then false else islegalCase2 source

/-- `pg_utf8_islegal` from the case of length 4. -/
def islegalCase4 (source : List Byte) : Bool :=
  if outside (source.getD 3 0) 0x80 0xBF then false else islegalCase3 source

/-- `pg_utf8_islegal`: the cases fall through to the shorter ones. The caller has checked that the
bytes are there. -/
def pgUtf8Islegal (source : List Byte) : ℕ → Bool
  | 4 => islegalCase4 source
  | 3 => islegalCase3 source
  | 2 => islegalCase2 source
  | 1 => islegalCase1 source
  | _ => false

/-- `pg_utf8_verifychar`, with `none` for -1. -/
def pgUtf8Verifychar (s : List Byte) : Option ℕ :=
  let b := s.getD 0 0
  if b.val &&& 0x80 = 0 then
    if b.val = 0 then none else some 1
  else
    let l :=
      if b.val &&& 0xe0 = 0xc0 then 2
      else if b.val &&& 0xf0 = 0xe0 then 3
      else if b.val &&& 0xf8 = 0xf0 then 4
      else 1
    if l > s.length then none
    else if !pgUtf8Islegal s l then none
    else some l

variable {s : List Byte} {a b : Byte} {q : ℕ}

/-- The first byte is not NUL and has the length that `pg_utf_mblen` gives. -/
theorem pgUtf8Verifychar_cons (a : Byte) (t : List Byte) : pgUtf8Verifychar (a :: t) =
    if a.val = 0 then none else if pgUtfMblen a > t.length + 1 then none
    else if !pgUtf8Islegal (a :: t) (pgUtfMblen a) then none else some (pgUtfMblen a) := by
  have hbit := highbit_iff a
  unfold pgUtf8Verifychar pgUtfMblen
  simp only [getD_cons_zero]
  by_cases hascii : a.val &&& 0x80 = 0
  · have hlegal : pgUtf8Islegal (a :: t) 1 = true := by
      rw [pgUtf8Islegal, islegalCase1, getD_cons_zero, if_neg (by omega), if_neg (by omega)]
    rw [if_pos hascii, if_pos hascii, hlegal]
    simp
  · rw [if_neg hascii, if_neg hascii, if_neg (show a.val ≠ 0 by omega)]
    rfl

/-- An accepted character has a byte. -/
theorem pgUtf8Verifychar_pos {l : ℕ} (h : pgUtf8Verifychar s = some l) : 0 < l := by
  cases s with
  | nil => cases h
  | cons a t =>
    rw [pgUtf8Verifychar_cons] at h
    split_ifs at h
    obtain rfl := some.inj h
    unfold pgUtfMblen
    split_ifs <;> decide

/-! ## Whole texts -/

/-- `STRIDE_LENGTH`. -/
def VectorBuild.strideLength (v : VectorBuild) : ℕ := 2 * v.size

/-- The loop of the fast path; the result is where it stops and the state there. -/
def chunkLoop (v : VectorBuild) (s : List Byte) (i state : ℕ) : ℕ × ℕ :=
  if v.strideLength ≤ s.length - i then
    let chunk := (s.drop i).take v.strideLength
    -- A chunk of ASCII can be skipped, but not when the last one ended inside a character.
    let state := if state ≠ END ∨ !isValidAscii v chunk then utf8Advance chunk state else state
    chunkLoop v s (i + v.strideLength) state
  else (i, state)
termination_by s.length - i
decreasing_by
  have := v.size_pos
  unfold VectorBuild.strideLength at *
  omega

/-- The loop that walks backwards to the leading byte. It reads a byte outside of the text, with the
result `none`, when there is none. -/
def walkBack (s : List Byte) : ℕ → Option ℕ
  | 0 => none
  | i + 1 =>
    match s[i]? with
    | none => none
    | some b => if pgUtfMblen b ≤ 1 then walkBack s i else some i

/-- How far the slow path gets in one step from a place that is not the end, `none` for a `break`.
-/
def slowStep (s : List Byte) : Option ℕ :=
  if (s.getD 0 0).val &&& 0x80 = 0 then
    if (s.getD 0 0).val = 0 then none else some 1
  else pgUtf8Verifychar s

theorem slowStep_eq (s : List Byte) : slowStep s = pgUtf8Verifychar s := by
  unfold slowStep
  split_ifs with hascii hzero
  · rw [pgUtf8Verifychar, if_pos hascii, if_pos hzero]
  · rw [pgUtf8Verifychar, if_pos hascii, if_neg hzero]
  · rfl

/-- The loop that checks remaining bytes; the result is where it stops. -/
def slowLoop (s : List Byte) (i : ℕ) : ℕ :=
  if _hlen : i < s.length then
    match _hstep : slowStep (s.drop i) with
    | none => i
    | some l => slowLoop s (i + l)
  else i
termination_by s.length - i
decreasing_by
  rw [slowStep_eq] at _hstep
  have := pgUtf8Verifychar_pos _hstep
  omega

/-- `pg_utf8_verifystr`; the result is `none` when a byte outside of the text is read. -/
def pgUtf8Verifystr (v : VectorBuild) (s : List Byte) : Option ℕ :=
  if v.strideLength ≤ s.length then
    let (i, state) := chunkLoop v s 0 BGN
    if state = ERR then some (slowLoop s 0)
    else if state ≠ END then (walkBack s i).map (slowLoop s)
    else some (slowLoop s i)
  else some (slowLoop s 0)

/-- How many bytes `pg_utf8_verifychar` accepts when it is applied again and again. -/
def acceptedByVerifychar (s : List Byte) : ℕ :=
  if _hlen : 0 < s.length then
    match _hchar : pgUtf8Verifychar s with
    | none => 0
    | some l => l + acceptedByVerifychar (s.drop l)
  else 0
termination_by s.length
decreasing_by
  have := pgUtf8Verifychar_pos _hchar
  rw [length_drop]
  omega

/-! ## Single characters are exact -/

/-- The lengths that `pg_utf_mblen` gives, by ranges of the first byte. -/
theorem pgUtfMblen_eq : ∀ b : Fin 256, pgUtfMblen b =
    if b.val < 0xC0 then 1 else if b.val < 0xE0 then 2 else if b.val < 0xF0 then 3
    else if b.val < 0xF8 then 4 else 1 := by
  decide +kernel

theorem outside_tail (b : Byte) : outside b 0x80 0xBF = false ↔ IsTail b := by
  unfold outside IsTail
  rw [Bool.or_eq_false_iff, decide_eq_false_iff_not, decide_eq_false_iff_not]
  omega

theorem islegalCase1_iff (a : Byte) (t : List Byte) :
    islegalCase1 (a :: t) = true ↔ ¬ (a.val ≥ 0x80 ∧ a.val < 0xC2) ∧ ¬ a.val > 0xF4 := by
  unfold islegalCase1
  simp only [getD_cons_zero]
  split_ifs <;> simp <;> omega

/-- The test of the second byte, behind a first byte. -/
theorem islegalCase2_iff (a b : Byte) (t : List Byte) :
    islegalCase2 (a :: b :: t) = true ↔
    IsSecond a b ∧ ¬ (a.val ≥ 0x80 ∧ a.val < 0xC2) ∧ ¬ a.val > 0xF4 := by
  have htest : (if a.val = 0xE0 then outside b 0xA0 0xBF
    else if a.val = 0xED then outside b 0x80 0x9F
      else if a.val = 0xF0 then outside b 0x90 0xBF else if a.val = 0xF4 then outside b 0x80 0x8F
      else outside b 0x80 0xBF) = true ↔ ¬ IsSecond a b := by
    unfold outside IsSecond
    split_ifs <;> simp <;> omega
  rw [← islegalCase1_iff a (b :: t)]
  unfold islegalCase2
  simp only [getD_cons_zero, getD_cons_succ]
  by_cases hsecond : IsSecond a b
  · rw [if_neg fun h => htest.mp h hsecond]
    exact ⟨fun h => ⟨hsecond, h⟩, fun h => h.2⟩
  · rw [if_pos (htest.mpr hsecond)]
    exact ⟨nofun, fun h => absurd h.1 hsecond⟩

theorem islegalCase3_iff (a b c : Byte) (t : List Byte) :
    islegalCase3 (a :: b :: c :: t) = true ↔
    IsTail c ∧ IsSecond a b ∧ ¬ (a.val ≥ 0x80 ∧ a.val < 0xC2) ∧ ¬ a.val > 0xF4 := by
  rw [← islegalCase2_iff a b (c :: t), ← outside_tail]
  unfold islegalCase3
  simp only [getD_cons_zero, getD_cons_succ]
  cases outside c 0x80 0xBF <;> simp

theorem islegalCase4_iff (a b c d : Byte) (t : List Byte) :
    islegalCase4 (a :: b :: c :: d :: t) = true ↔
    IsTail d ∧ IsTail c ∧ IsSecond a b ∧ ¬ (a.val ≥ 0x80 ∧ a.val < 0xC2) ∧ ¬ a.val > 0xF4 := by
  rw [← islegalCase3_iff a b c (d :: t), ← outside_tail]
  unfold islegalCase4
  simp only [getD_cons_zero, getD_cons_succ]
  cases outside d 0x80 0xBF <;> simp

/-- Behind most first bytes the second byte has no special range. -/
theorem isSecond_iff_tail (h : a.val ≠ 0xE0 ∧ a.val ≠ 0xED ∧ a.val ≠ 0xF0 ∧ a.val ≠ 0xF4) :
    IsSecond a b ↔ IsTail b := by
  unfold IsSecond IsTail
  simp (disch := omega) only [if_neg]

/-- The first byte of a character tells its length. -/
theorem pgUtfMblen_char {c : List Byte} (hc : CharBytes c) :
    ∃ a r, c = a :: r ∧ pgUtfMblen a = c.length := by
  obtain ⟨a, r, rfl, hlead, hlength, _⟩ := hc.bytes
  refine ⟨a, r, rfl, ?_⟩
  rw [hlength, pgUtfMblen_eq, charLength]
  split_ifs <;> omega

/-- A character is a legal sequence of bytes. -/
theorem pgUtf8Islegal_char {c : List Byte} (hc : CharBytes c) (t : List Byte) :
    pgUtf8Islegal (c ++ t) c.length = true := by
  cases hc with
  | @one a hlow hhigh => exact (islegalCase1_iff a t).mpr (by omega)
  | @two a b hlow hhigh htail =>
    exact (islegalCase2_iff a b t).mpr ⟨(isSecond_iff_tail (by omega)).mpr htail, by omega⟩
  | @three a b c hlow hhigh hsecond htail =>
    exact (islegalCase3_iff a b c t).mpr ⟨htail, hsecond, by omega⟩
  | @four a b c d hlow hhigh hsecond htail htail' =>
    exact (islegalCase4_iff a b c d t).mpr ⟨htail', htail, hsecond, by omega⟩

/-- A character at the start is accepted. -/
theorem pgUtf8Verifychar_char {c : List Byte} (hc : CharBytes c) (t : List Byte) :
    pgUtf8Verifychar (c ++ t) = some c.length := by
  have hlegal := pgUtf8Islegal_char hc t
  obtain ⟨a, r, rfl, hmblen⟩ := pgUtfMblen_char hc
  have hzero : a.val ≠ 0 := by cases hc <;> omega
  rw [cons_append] at hlegal ⊢
  rw [pgUtf8Verifychar_cons, hmblen, hlegal, if_neg hzero, if_neg]
  · rfl
  · rw [length_cons, length_append]
    omega

/-- What is accepted is a character at the start. -/
theorem pgUtf8Verifychar_sound {l : ℕ} (hne : 0 < s.length) (h : pgUtf8Verifychar s = some l) :
    ∃ c t, s = c ++ t ∧ CharBytes c ∧ c.length = l := by
  obtain ⟨a, s, rfl⟩ := exists_cons_of_length_pos hne
  rw [pgUtf8Verifychar_cons] at h
  split_ifs at h with hzero hlen hlegal
  obtain rfl := some.inj h
  rw [Bool.not_eq_true, Bool.not_eq_false'] at hlegal
  generalize hl : pgUtfMblen a = l at hlen hlegal
  rw [pgUtfMblen_eq] at hl
  split_ifs at hl with h1 h2 h3 h4 <;> subst hl
  · -- A continuation byte is not the first one of a character.
    have := (islegalCase1_iff a s).mp hlegal
    exact ⟨[a], s, rfl, .one (by omega) (by omega), rfl⟩
  · obtain _ | ⟨b, t⟩ := s
    · simp at hlen
    obtain ⟨hsecond, hlead⟩ := (islegalCase2_iff a b t).mp hlegal
    exact ⟨[a, b], t, rfl, .two (by omega) (by omega) ((isSecond_iff_tail (by omega)).mp hsecond),
      rfl⟩
  · obtain _ | ⟨b, _ | ⟨c, t⟩⟩ := s
    iterate 2 simp at hlen
    obtain ⟨htail, hsecond, hlead⟩ := (islegalCase3_iff a b c t).mp hlegal
    exact ⟨[a, b, c], t, rfl, .three (by omega) (by omega) hsecond htail, rfl⟩
  · obtain _ | ⟨b, _ | ⟨c, _ | ⟨d, t⟩⟩⟩ := s
    iterate 3 simp at hlen
    obtain ⟨htail', htail, hsecond, hlead⟩ := (islegalCase4_iff a b c d t).mp hlegal
    exact ⟨[a, b, c, d], t, rfl, .four (by omega) (by omega) hsecond htail htail', rfl⟩
  · have := (islegalCase1_iff a s).mp hlegal
    omega

/-- What is rejected has no character at the start. -/
theorem pgUtf8Verifychar_none (h : pgUtf8Verifychar s = none) : ∀ c, IsChar c → ¬ c <+: s := by
  rintro c hc ⟨t, rfl⟩
  rw [pgUtf8Verifychar_char (isChar_iff.mp hc) t] at h
  exact some_ne_none _ h

/-! ## The slow path is exact -/

/-- The characters that are accepted one after another are the longest text at the start. -/
theorem acceptedByVerifychar_longest (s : List Byte) : LongestText s (acceptedByVerifychar s) := by
  induction hn : s.length using Nat.strong_induction_on generalizing s with
  | _ n ih =>
    subst hn
    rw [acceptedByVerifychar]
    split_ifs with hlen
    · split
      next hchar => exact longestText_zero (pgUtf8Verifychar_none hchar)
      next l hchar =>
        obtain ⟨c, t, rfl, hc, rfl⟩ := pgUtf8Verifychar_sound hlen hchar
        have hpos := pgUtf8Verifychar_pos hchar
        rw [drop_left]
        exact (ih t.length (by rw [length_append]; omega) t rfl).cons (isChar_iff.mpr hc)
    · obtain rfl := length_eq_zero_iff.mp (Nat.eq_zero_of_not_pos hlen)
      exact longestText_zero fun c hc hstart => hc.ne_nil (prefix_nil.mp hstart)

/-- The slow path accepts, from where it starts, what the check of single characters accepts. -/
theorem slowLoop_eq (s : List Byte) (i : ℕ) :
    slowLoop s i = i + acceptedByVerifychar (s.drop i) := by
  induction hn : s.length - i using Nat.strong_induction_on generalizing i with
  | _ n ih =>
    rw [slowLoop, acceptedByVerifychar, length_drop]
    split_ifs with hlen hpos hpos
    · rw [slowStep_eq]
      split
      next => rfl
      next l hchar =>
        have := pgUtf8Verifychar_pos hchar
        rw [ih _ (by omega) (i + l) rfl, drop_drop, add_assoc]
    · omega
    · omega
    · rfl

/-- The slow path is exact behind a text. -/
theorem slowLoop_longest {t : List Byte} (ht : IsText t) :
    LongestText (t ++ s) (slowLoop (t ++ s) t.length) := by
  rw [slowLoop_eq, drop_left]
  exact (acceptedByVerifychar_longest s).append ht

/-! ## The automaton follows the characters -/

/-- One step of the automaton. -/
def utf8Step (state : ℕ) (b : Byte) : ℕ := (utf8Transition b >>> state) &&& 31

/-- The bits above the state make no difference. -/
theorem utf8Advance_eq (s : List Byte) (state : ℕ) :
    utf8Advance s state = s.foldl utf8Step (state &&& 31) := by
  unfold utf8Advance
  induction s generalizing state with
  | nil => rfl
  | cons b s ih =>
    rw [utf8AdvanceLoop, ih, foldl_cons]
    rfl

/-- The state after a first byte that is not an error. -/
def leadState (b : Byte) : ℕ :=
  if b.val < 0x80 then END else if b.val ≤ 0xDF then CS1 else if b.val = 0xE0 then P3A
  else if b.val = 0xED then P3B
  else if b.val ≤ 0xEF then CS2 else if b.val = 0xF0 then P4A else if b.val ≤ 0xF3 then CS3 else P4B

/-- What a byte does to each state, by ranges of bytes. -/
theorem utf8Step_table : ∀ b : Fin 256,
    utf8Step ERR b = ERR ∧
    utf8Step BGN b = (if (1 ≤ b.val ∧ b.val < 0x80) ∨ (0xC2 ≤ b.val ∧ b.val ≤ 0xF4) then leadState b
      else ERR) ∧
    utf8Step CS1 b = (if IsTail b then END else ERR) ∧
    utf8Step CS2 b = (if IsTail b then CS1 else ERR) ∧
    utf8Step CS3 b = (if IsTail b then CS2 else ERR) ∧
    utf8Step P3A b = (if 0xA0 ≤ b.val ∧ b.val ≤ 0xBF then CS1 else ERR) ∧
    utf8Step P3B b = (if 0x80 ≤ b.val ∧ b.val ≤ 0x9F then CS1 else ERR) ∧
    utf8Step P4A b = (if 0x90 ≤ b.val ∧ b.val ≤ 0xBF then CS2 else ERR) ∧
    utf8Step P4B b = (if 0x80 ≤ b.val ∧ b.val ≤ 0x8F then CS2 else ERR) := by
  decide +kernel

/-- The second byte behind the first byte of a character of three or four bytes. -/
theorem utf8Step_lead (hlow : 0xE0 ≤ a.val) (hhigh : a.val ≤ 0xF4) (b : Byte) :
    utf8Step (leadState a) b = if IsSecond a b then if a.val ≤ 0xEF then CS1 else CS2 else ERR := by
  obtain ⟨_, _, _, hCS2, hCS3, hP3A, hP3B, hP4A, hP4B⟩ := utf8Step_table b
  unfold leadState
  rw [if_neg (by omega), if_neg (by omega)]
  by_cases hE0 : a.val = 0xE0
  · simpa [hE0, IsSecond] using hP3A
  by_cases hED : a.val = 0xED
  · simpa [hED, IsSecond] using hP3B
  by_cases hEF : a.val ≤ 0xEF
  · simpa [hE0, hED, hEF, @isSecond_iff_tail a b (by omega)] using hCS2
  by_cases hF0 : a.val = 0xF0
  · simpa [hF0, IsSecond] using hP4A
  by_cases hF4 : a.val = 0xF4
  · simpa [hF4, IsSecond] using hP4B
  · simpa [hE0, hED, hEF, hF0, @isSecond_iff_tail a b (by omega), show a.val ≤ 0xF3 by omega]
      using hCS3

/-- The bytes of the unfinished character that a state stands for; none at the boundary of two
characters. -/
inductive Partial : ℕ → List Byte → Prop
  | boundary : Partial END []
  | lead2 {a : Byte} : 0xC2 ≤ a.val → a.val ≤ 0xDF → Partial CS1 [a]
  | lead3 {a : Byte} : 0xE0 ≤ a.val → a.val ≤ 0xEF → Partial (leadState a) [a]
  | lead4 {a : Byte} : 0xF0 ≤ a.val → a.val ≤ 0xF4 → Partial (leadState a) [a]
  | second3 {a b : Byte} : 0xE0 ≤ a.val → a.val ≤ 0xEF → IsSecond a b → Partial CS1 [a, b]
  | second4 {a b : Byte} : 0xF0 ≤ a.val → a.val ≤ 0xF4 → IsSecond a b → Partial CS2 [a, b]
  | third4 {a b c : Byte} :
    0xF0 ≤ a.val → a.val ≤ 0xF4 → IsSecond a b → IsTail c → Partial CS1 [a, b, c]

/-- A step that does not fail. -/
theorem step_of_ne_err {p : Prop} [Decidable p] {q' : ℕ}
    (hstep : utf8Step q b = if p then q' else ERR)
    (hok : utf8Step q b ≠ ERR) : p ∧ utf8Step q b = q' := by
  by_cases hp : p
  · exact ⟨hp, hstep.trans (if_pos hp)⟩
  · exact absurd (hstep.trans (if_neg hp)) hok

/-- A step that does not fail completes a character or makes the unfinished one longer. -/
theorem Partial.step {c : List Byte} (h : Partial q c) (b : Byte) (hok : utf8Step q b ≠ ERR) :
    (utf8Step q b = END ∧ CharBytes (c ++ [b])) ∨ Partial (utf8Step q b) (c ++ [b]) := by
  obtain ⟨_, hBGN, hCS1, hCS2, _⟩ := utf8Step_table b
  cases h with
  | boundary =>
    obtain ⟨hrange, heq⟩ := step_of_ne_err (q := END) hBGN hok
    rw [heq]
    by_cases hascii : b.val < 0x80
    · exact .inl ⟨by rw [leadState, if_pos hascii], .one (by omega) hascii⟩
    · right
      by_cases h2 : b.val ≤ 0xDF
      · rw [leadState, if_neg hascii, if_pos h2]
        exact .lead2 (by omega) h2
      · by_cases h3 : b.val ≤ 0xEF
        · exact .lead3 (by omega) h3
        · exact .lead4 (by omega) (by omega)
  | lead2 hlow hhigh =>
    obtain ⟨htail, heq⟩ := step_of_ne_err hCS1 hok
    exact .inl ⟨heq, .two hlow hhigh htail⟩
  | lead3 hlow hhigh =>
    obtain ⟨hsecond, heq⟩ := step_of_ne_err (utf8Step_lead hlow (by omega) b) hok
    rw [heq, if_pos hhigh]
    exact .inr (.second3 hlow hhigh hsecond)
  | lead4 hlow hhigh =>
    obtain ⟨hsecond, heq⟩ := step_of_ne_err (utf8Step_lead (by omega) hhigh b) hok
    rw [heq, if_neg (not_le.mpr hlow)]
    exact .inr (.second4 hlow hhigh hsecond)
  | second3 hlow hhigh hsecond =>
    obtain ⟨htail, heq⟩ := step_of_ne_err hCS1 hok
    exact .inl ⟨heq, .three hlow hhigh hsecond htail⟩
  | second4 hlow hhigh hsecond =>
    obtain ⟨htail, heq⟩ := step_of_ne_err hCS2 hok
    rw [heq]
    exact .inr (.third4 hlow hhigh hsecond htail)
  | third4 hlow hhigh hsecond htail =>
    obtain ⟨htail', heq⟩ := step_of_ne_err hCS1 hok
    exact .inl ⟨heq, .four hlow hhigh hsecond htail htail'⟩

/-- Outside of the error state, the bytes so far are a text and the unfinished character of the
state. -/
theorem utf8Run_partial (s : List Byte) (hok : s.foldl utf8Step BGN ≠ ERR) :
    ∃ t c, s = t ++ c ∧ IsText t ∧ Partial (s.foldl utf8Step BGN) c := by
  induction s using reverseRecOn with
  | nil => exact ⟨[], [], rfl, .nil, .boundary⟩
  | append_singleton s b ih =>
    rw [foldl_concat] at hok ⊢
    -- The error state persists.
    have hprev : s.foldl utf8Step BGN ≠ ERR := fun herr => hok (by rw [herr, (utf8Step_table b).1])
    obtain ⟨t, c, hs, ht, hpartial⟩ := ih hprev
    obtain ⟨hend, hchar⟩ | hlonger := hpartial.step b hok
    · refine ⟨t ++ (c ++ [b]), [], ?_, ht.append (isChar_iff.mpr hchar).isText, hend ▸ .boundary⟩
      rw [append_nil, ← append_assoc, ← hs]
    · exact ⟨t, c ++ [b], by rw [← append_assoc, ← hs], ht, hlonger⟩

/-- The states are below 32, so that the mask of the first step keeps them. -/
theorem utf8Run_land (s : List Byte) : s.foldl utf8Step BGN &&& 31 = s.foldl utf8Step BGN := by
  obtain rfl | ⟨s, b, rfl⟩ := eq_nil_or_concat' s
  · rfl
  · rw [foldl_concat, utf8Step, Nat.and_assoc, Nat.and_self]

/-- ASCII keeps the automaton at the boundary. -/
theorem utf8Run_ascii (h : ∀ b ∈ s, IsAscii b) : s.foldl utf8Step END = END := by
  induction s with
  | nil => rfl
  | cons b s ih =>
    rw [forall_mem_cons] at h
    have hstep : utf8Step END b = END := by
      have := (utf8Step_table b).2.1
      rw [if_pos (.inl h.1), leadState, if_pos h.1.2] at this
      exact this
    rw [foldl_cons, hstep]
    exact ih h.2

/-! ## The fast path -/

/-- One chunk of the fast path runs the automaton over it, whether it is skipped or not. -/
theorem chunk_state (v : VectorBuild) {chunk pre : List Byte}
    (h : chunk.length = v.strideLength) {state : ℕ}
    (hstate : state = pre.foldl utf8Step BGN) :
    (if state ≠ END ∨ !isValidAscii v chunk then utf8Advance chunk state else state)
      = (pre ++ chunk).foldl utf8Step BGN := by
  rw [foldl_append, ← hstate]
  split_ifs with hskip
  · rw [utf8Advance_eq, hstate, utf8Run_land]
  · rw [not_or, not_not, Bool.not_eq_true, Bool.not_eq_false'] at hskip
    rw [hskip.1, utf8Run_ascii ((isValidAscii_iff v (n := 2) h).mp hskip.2)]

/-- The fast path stops inside the text, in the state of the automaton there. -/
theorem chunkLoop_spec (v : VectorBuild) (s : List Byte) (i state : ℕ) (hi : i ≤ s.length)
    (hstate : state = (s.take i).foldl utf8Step BGN) :
    (chunkLoop v s i state).1 ≤ s.length ∧
      (chunkLoop v s i state).2 = (s.take (chunkLoop v s i state).1).foldl utf8Step BGN := by
  induction hn : s.length - i using Nat.strong_induction_on generalizing i state with
  | _ n ih =>
    rw [chunkLoop]
    split_ifs with hlen
    · have hpos := v.size_pos
      have hstride : 0 < v.strideLength := by
        unfold VectorBuild.strideLength
        omega
      have hchunk : ((s.drop i).take v.strideLength).length = v.strideLength := by
        rw [length_take, length_drop]
        omega
      refine ih _ (by omega) (i + v.strideLength) _ (by omega) ?_ rfl
      rw [chunk_state v hchunk hstate, take_add]
    · exact ⟨hi, hstate⟩

/-- Continuation bytes have no length of their own. -/
theorem pgUtfMblen_tail (h : IsTail b) : pgUtfMblen b ≤ 1 := by
  obtain ⟨_, hhigh⟩ := h
  rw [pgUtfMblen_eq, if_pos (by omega)]

theorem pgUtfMblen_lead (hlow : 0xC2 ≤ b.val) (hhigh : b.val ≤ 0xF4) : 1 < pgUtfMblen b := by
  rw [pgUtfMblen_eq, if_neg (by omega)]
  split_ifs <;> omega

/-- An unfinished character is its first byte and continuation bytes. -/
theorem Partial.bytes {c : List Byte} (h : Partial q c) (hq : q ≠ END) :
    ∃ a r, c = a :: r ∧ 1 < pgUtfMblen a ∧ ∀ b ∈ r, pgUtfMblen b ≤ 1 := by
  cases h with
  | boundary => exact absurd rfl hq
  | @lead2 a hlow hhigh | @lead3 a hlow hhigh | @lead4 a hlow hhigh =>
    exact ⟨a, [], rfl, pgUtfMblen_lead (by omega) (by omega), by simp⟩
  | @second3 a b hlow hhigh hsecond | @second4 a b hlow hhigh hsecond =>
    exact ⟨a, [b], rfl, pgUtfMblen_lead (by omega) (by omega),
      by simpa using pgUtfMblen_tail hsecond.isTail⟩
  | @third4 a b c hlow hhigh hsecond htail =>
    exact ⟨a, [b, c], rfl, pgUtfMblen_lead (by omega) (by omega),
      by simpa using ⟨pgUtfMblen_tail hsecond.isTail, pgUtfMblen_tail htail⟩⟩

/-- At the boundary there is no unfinished character. -/
theorem Partial.eq_nil {c : List Byte} (h : Partial END c) : c = [] := by
  generalize hq : END = q at h
  cases h with
  | boundary => rfl
  | lead2 | second3 | second4 | third4 => exact absurd hq (by decide)
  | lead3 hlow hhigh | lead4 hlow hhigh =>
    unfold leadState at hq
    split_ifs at hq <;> first | omega | exact absurd hq (by decide)

/-- Walking backwards over continuation bytes ends at the byte before them. -/
theorem walkBack_lead {t r rest : List Byte} (ha : 1 < pgUtfMblen a)
    (hr : ∀ b ∈ r, pgUtfMblen b ≤ 1) :
    walkBack (t ++ a :: r ++ rest) (t ++ a :: r).length = some t.length := by
  induction r using reverseRecOn generalizing rest with
  | nil =>
    rw [length_append, length_singleton, walkBack, append_assoc,
      getElem?_append_right (Nat.le_refl _), Nat.sub_self]
    exact if_neg (by omega)
  | append_singleton r b ih =>
    rw [forall_mem_append, forall_mem_singleton] at hr
    rw [← cons_append, ← append_assoc, length_append, length_singleton, walkBack, append_assoc,
      getElem?_append_right (Nat.le_refl _), Nat.sub_self]
    show (if pgUtfMblen b ≤ 1 then _ else _) = _
    rw [if_pos hr.2]
    exact ih hr.1

/-- For every build and every text, `pg_utf8_verifystr` reads only bytes of the text and returns the
length of the longest start of it that is a text, which is what `pg_utf8_verifychar` accepts when it
is applied again and again. -/
theorem pgUtf8Verifystr_exact (v : VectorBuild) (s : List Byte) :
    ∃ n, pgUtf8Verifystr v s = some n ∧ LongestText s n ∧ n = acceptedByVerifychar s := by
  suffices hlongest : ∃ n, pgUtf8Verifystr v s = some n ∧ LongestText s n by
    obtain ⟨n, hresult, hn⟩ := hlongest
    exact ⟨n, hresult, hn, hn.unique (acceptedByVerifychar_longest s)⟩
  have hstart : LongestText s (slowLoop s 0) := slowLoop_longest (t := []) .nil
  unfold pgUtf8Verifystr
  split_ifs with hstride
  · obtain ⟨hi, hstate⟩ := chunkLoop_spec v s 0 BGN (Nat.zero_le _) rfl
    generalize chunkLoop v s 0 BGN = stop at hi hstate
    obtain ⟨i, state⟩ := stop
    dsimp only at hi hstate ⊢
    split_ifs with herr hend
    · exact ⟨_, rfl, hstart⟩
    all_goals
      rw [hstate] at herr hend
      obtain ⟨t, c, htake, ht, hpartial⟩ := utf8Run_partial (s.take i) herr
      have hs : s = t ++ c ++ s.drop i := by rw [← htake, take_append_drop]
      have hlength : (t ++ c).length = i := by rw [← htake, length_take_of_le hi]
      have hlongest := slowLoop_longest (s := c ++ s.drop i) ht
      rw [← append_assoc, ← hs] at hlongest
    · -- Inside of a character the walk ends where the text before it ends.
      obtain ⟨a, r, rfl, ha, hr⟩ := hpartial.bytes hend
      have hwalk := @walkBack_lead _ t _ (s.drop i) ha hr
      rw [← hs, hlength] at hwalk
      exact ⟨slowLoop s t.length, by rw [hwalk]; rfl, hlongest⟩
    · rw [not_not] at hend
      rw [hend] at hpartial
      obtain rfl := hpartial.eq_nil
      rw [append_nil] at hlength
      exact ⟨slowLoop s i, rfl, hlength ▸ hlongest⟩
  · exact ⟨_, rfl, hstart⟩

end PgAutoIndex.Common
