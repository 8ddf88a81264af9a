import Mathlib.Algebra.BigOperators.Group.Finset.Basic

/-!
# Back references

A compressed text is a sequence of literals and of references, each of which repeats a part of the
text before it: `len` elements from `off` elements back. The part may reach into what the reference
itself produces, so that `copyBack` is defined one element at a time, and `expand` is the text of a
sequence.

`copyBack_take` says when a reference reproduces the next part of a given text. The other lemmas are
for decoders that copy whole blocks: a block no longer than the offset is copied at once
(`copyBack_block`), and after a block of the offset's length the offset may be doubled
(`copyBack_double`).
-/

namespace BackCopy

open List

variable {α : Type*} {out : List α} {off len n : ℕ}

/-- Append `len` elements, each a copy of the one `off` places before it. -/
def copyBack (off : ℕ) : ℕ → List α → List α
  | 0, out => out
  | len + 1, out => copyBack off len (out ++ out[out.length - off]?.toList)

/-- Copying in two parts. -/
theorem copyBack_add (off m n : ℕ) (out : List α) :
    copyBack off (m + n) out = copyBack off n (copyBack off m out) := by
  induction m generalizing out with
  | zero => rw [zero_add, copyBack]
  | succ m ih => rw [Nat.succ_add, copyBack, copyBack, ih]

/-- A reference reproduces the next part of a text that repeats there what stands `off` before. -/
theorem copyBack_take {text : List α} {dp : ℕ} (hoff : 0 < off) (hdp : off ≤ dp)
    (hlen : dp + len ≤ text.length) (hrep : ∀ i < len, text[dp + i]? = text[dp + i - off]?) :
    copyBack off len (text.take dp) = text.take (dp + len) := by
  induction len generalizing dp with
  | zero => rfl
  | succ len ih =>
    have hlength : (text.take dp).length = dp := length_take_of_le (by omega)
    have hnext : (text.take dp)[(text.take dp).length - off]? = text[dp]? := by
      rw [hlength, getElem?_take_of_lt (by omega)]
      exact (hrep 0 (by omega)).symm
    have htake : text.take dp ++ text[dp]?.toList = text.take (dp + 1) := take_add_one.symm
    rw [copyBack, hnext, htake, ih (by omega) (by omega), add_right_comm, add_assoc]
    intro i hi
    have := hrep (i + 1) (by omega)
    rwa [show dp + 1 + i = dp + (i + 1) by omega]

/-- A block no longer than the offset is a part of the text before it. -/
theorem copyBack_block (hlen : len ≤ off) (hoff : off ≤ out.length) :
    copyBack off len out = out ++ (out.drop (out.length - off)).take len := by
  rcases Nat.eq_zero_or_pos off with rfl | hpos
  · obtain rfl : len = 0 := by omega
    simp [copyBack]
  -- The text with the block behind it repeats there what stands `off` before.
  have hblock : ((out.drop (out.length - off)).take len).length = len := by
    rw [length_take, length_drop]
    omega
  have hrep : ∀ i < len, (out ++ (out.drop (out.length - off)).take len)[out.length + i]? =
      (out ++ (out.drop (out.length - off)).take len)[out.length + i - off]? := by
    intro i hi
    rw [getElem?_append_right (by omega), getElem?_append_left (by omega),
      Nat.add_sub_cancel_left, getElem?_take_of_lt hi, getElem?_drop]
    congr 1
    omega
  have h := copyBack_take hpos hoff (by rw [length_append, hblock]) hrep
  rwa [take_left, take_of_length_le (by rw [length_append, hblock])] at h

/-- Copying in a text whose last `off` elements repeat the `off` before: twice the offset does the
same. -/
theorem copyBack_double_of_periodic (hpos : 0 < off) (hlen : off + off ≤ out.length)
    (hper : ∀ k < off, out[out.length - off + k]? = out[out.length - (off + off) + k]?) :
    copyBack (off + off) n out = copyBack off n out := by
  induction n generalizing out with
  | zero => rfl
  | succ n ih =>
    have hsame : out[out.length - (off + off)]? = out[out.length - off]? := (hper 0 hpos).symm
    obtain ⟨a, ha⟩ : ∃ a, out[out.length - off]? = some a :=
      ⟨_, getElem?_eq_getElem (by omega)⟩
    rw [copyBack, copyBack, hsame, ha, Option.toList_some]
    apply ih
    · rw [length_append]
      exact le_trans hlen (Nat.le_add_right _ _)
    · intro k hk
      rw [length_append, length_singleton]
      have hright : (out ++ [a])[out.length + 1 - (off + off) + k]? =
          out[out.length - (off + off) + (k + 1)]? := by
        rw [getElem?_append_left (by omega)]
        congr 1
        omega
      rw [hright]
      by_cases hlast : k + 1 = off
      · rw [show out.length + 1 - off + k = out.length by omega, getElem?_concat_length,
          show out.length - (off + off) + (k + 1) = out.length - off by omega, ha]
      · rw [getElem?_append_left (by omega), ← hper (k + 1) (by omega)]
        congr 1
        omega

/-- After a block of the offset's length the offset may be doubled. -/
theorem copyBack_double (hpos : 0 < off) (hoff : off ≤ out.length) :
    copyBack (off + off) n (copyBack off off out) = copyBack off n (copyBack off off out) := by
  have hblock := copyBack_block le_rfl hoff
  have hdrop : (out.drop (out.length - off)).length = off := by
    rw [length_drop]
    omega
  rw [take_of_length_le (le_of_eq hdrop)] at hblock
  rw [hblock]
  have hlength : (out ++ out.drop (out.length - off)).length = out.length + off := by
    rw [length_append, hdrop]
  refine copyBack_double_of_periodic hpos (by rw [hlength]; omega) ?_
  intro k hk
  rw [hlength, getElem?_append_right (by omega), getElem?_append_left (by omega),
    getElem?_drop]
  congr 1
  omega

/-- The text grows by the length of the reference. -/
theorem length_copyBack (len : ℕ) (hpos : 0 < off) (hoff : off ≤ out.length) :
    (copyBack off len out).length = out.length + len := by
  induction len generalizing out with
  | zero => rfl
  | succ len ih =>
    obtain ⟨a, ha⟩ : ∃ a, out[out.length - off]? = some a :=
      ⟨_, getElem?_eq_getElem (by omega)⟩
    rw [copyBack, ha, Option.toList_some, ih]
    · rw [length_append, length_singleton, add_assoc, add_comm 1]
    · rw [length_append]
      exact le_trans hoff (Nat.le_add_right _ _)

theorem prefix_copyBack (off len : ℕ) (out : List α) : out <+: copyBack off len out := by
  induction len generalizing out with
  | zero => exact prefix_rfl
  | succ len ih => exact (prefix_append _ _).trans (ih _)

/-- Cutting the text off cuts the reference short. -/
theorem take_copyBack (hpos : 0 < off) (hoff : off ≤ out.length) (hn : out.length ≤ n) :
    (copyBack off len out).take n = copyBack off (min len (n - out.length)) out := by
  rcases le_total len (n - out.length) with hle | hge
  · have hlength := length_copyBack len hpos hoff
    rw [Nat.min_eq_left hle, take_of_length_le (by omega)]
  · -- The reference goes on behind a text of length `n`.
    have hlength := length_copyBack (n - out.length) hpos hoff
    have hprefix := prefix_copyBack off (len - (n - out.length)) (copyBack off (n - out.length) out)
    rw [← copyBack_add, Nat.add_sub_cancel' hge] at hprefix
    rw [Nat.min_eq_right hge, prefix_iff_eq_take.mp hprefix, hlength, Nat.add_sub_cancel' hn]

/-! ## Sequences of literals and references -/

/-- A literal, or a reference. -/
inductive Token (α : Type*) where
  | lit (a : α)
  | ref (len off : ℕ)

/-- What a token adds to a text. -/
def Token.apply (t : Token α) (out : List α) : List α :=
  match t with
  | lit a => out ++ [a]
  | ref len off => copyBack off len out

/-- The text of a sequence of tokens that continues a text. -/
def expand (ts : List (Token α)) (out : List α) : List α :=
  ts.foldl (fun out t => t.apply out) out

@[simp] theorem expand_nil (out : List α) : expand [] out = out := rfl

@[simp] theorem expand_cons (t : Token α) (ts : List (Token α)) (out : List α) :
    expand (t :: ts) out = expand ts (t.apply out) := rfl

theorem prefix_expand (ts : List (Token α)) (out : List α) : out <+: expand ts out := by
  induction ts generalizing out with
  | nil => exact prefix_rfl
  | cons t ts ih =>
    refine IsPrefix.trans ?_ (ih (t.apply out))
    cases t with
    | lit a => exact prefix_append _ _
    | ref len off => exact prefix_copyBack off len out

/-- What is appended does not reach the beginning. -/
theorem take_expand (ts : List (Token α)) (h : n ≤ out.length) :
    (expand ts out).take n = out.take n := by
  obtain ⟨added, hadded⟩ := prefix_expand ts out
  rw [← hadded, take_append_of_le_length h]

theorem expand_append (ts us : List (Token α)) (out : List α) :
    expand (ts ++ us) out = expand us (expand ts out) := foldl_append

end BackCopy
