import Mathlib.Algebra.GroupWithZero.Nat
import Mathlib.Algebra.BigOperators.Group.Finset.Basic

/-!
# Patterns with wildcards

A pattern is a list of tokens: a literal character, any one character, or any sequence of
characters. A text matches it when it can be split accordingly (`Matches`).

A matcher that goes through the text from its start answers yes or no, and it may also say that no
suffix of the text matches: then a search for a place where the rest of a pattern matches can end.
`Decides` says that such an answer is right. Its lemmas carry an answer for the rest of a pattern
and of a text over to the whole, one for each way in which a matcher goes on; `Decides.any_here` is
where the search ends early.

`tokens` reads a pattern that is written with an escape character, and `escapeNone` and `escapeBy`
rewrite such a pattern for another escape character.
-/

namespace Wildcard

open List Option

/-- A token of a pattern. -/
inductive Token (α : Type) where
  /-- any sequence of characters -/
  | any
  /-- any one character -/
  | anyChar
  | literal (a : α)
  deriving DecidableEq, Repr

variable {α : Type}

/-- The text can be split according to the pattern. -/
def Matches : List (Token α) → List α → Prop
  | [], t => t = []
  | .any :: p, t => ∃ s r, t = s ++ r ∧ Matches p r
  | .anyChar :: p, t => ∃ a r, t = a :: r ∧ Matches p r
  | .literal a :: p, t => ∃ r, t = a :: r ∧ Matches p r

variable {t : List α} {p : List (Token α)} {a : α}

/-- Any sequence: the rest matches a suffix. -/
theorem matches_any : Matches (.any :: p) t ↔ ∃ k, Matches p (t.drop k) := by
  constructor
  · rintro ⟨s, r, rfl, h⟩
    exact ⟨s.length, by rwa [drop_left]⟩
  · rintro ⟨k, h⟩
    exact ⟨t.take k, t.drop k, (take_append_drop k t).symm, h⟩

/-- `_` takes one character. -/
theorem matches_anyChar_cons : Matches (.anyChar :: p) (a :: t) ↔ Matches p t := by
  constructor
  · rintro ⟨b, r, heq, h⟩
    rwa [(cons.inj heq).2]
  · exact fun h => ⟨a, t, rfl, h⟩

/-- A literal takes itself. -/
theorem matches_literal_cons {b : α} : Matches (.literal a :: p)
    (b :: t) ↔ b = a ∧ Matches p t := by
  constructor
  · rintro ⟨r, heq, h⟩
    obtain ⟨hb, ht⟩ := cons.inj heq
    rw [hb, ht]
    exact ⟨rfl, h⟩
  · rintro ⟨rfl, h⟩
    exact ⟨t, rfl, h⟩

/-- `_` needs a character. -/
theorem not_matches_anyChar_nil : ¬ Matches (.anyChar :: p) [] := by
  rintro ⟨a, r, heq, _⟩
  cases heq

/-- A literal needs a character. -/
theorem not_matches_literal_nil : ¬ Matches (.literal a :: p) [] := by
  rintro ⟨r, heq, _⟩
  cases heq

/-- A search at a character: the rest matches here, or later. -/
theorem matches_any_cons :
    Matches (.any :: p) (a :: t) ↔ Matches p (a :: t) ∨ Matches (.any :: p) t := by
  rw [matches_any, matches_any]
  constructor
  · rintro ⟨k, h⟩
    cases k with
    | zero => exact .inl h
    | succ k => exact .inr ⟨k, h⟩
  · rintro (h | ⟨k, h⟩)
    · exact ⟨0, h⟩
    · exact ⟨k + 1, h⟩

/-- On an empty text `%` takes nothing. -/
theorem matches_any_nil : Matches (.any :: p) [] ↔ Matches p [] := by
  rw [matches_any]
  constructor
  · rintro ⟨k, h⟩
    rwa [drop_nil] at h
  · exact fun h => ⟨0, h⟩

/-- Two sequences are one. -/
theorem matches_any_any : Matches (.any :: .any :: p) t ↔ Matches (.any :: p) t := by
  rw [matches_any]
  constructor
  · rintro ⟨k, h⟩
    obtain ⟨j, hj⟩ := matches_any.mp h
    rw [drop_drop] at hj
    exact matches_any.mpr ⟨k + j, hj⟩
  · exact fun h => ⟨0, h⟩

/-- What follows the character that is `k` places behind the first one. -/
theorem eq_drop_of_drop_eq {b : α} {r : List α} {k : ℕ} (h : (a :: t).drop k = b :: r) :
    r = t.drop k := by
  rw [← drop_succ_cons (a := a), ← drop_drop, h]
  rfl

/-- A character may be taken before a sequence instead of behind it. -/
theorem matches_any_anyChar_cons :
    Matches (.any :: .anyChar :: p) (a :: t) ↔ Matches (.any :: p) t := by
  rw [matches_any, matches_any]
  constructor
  · rintro ⟨k, b, r, heq, h⟩
    exact ⟨k, eq_drop_of_drop_eq heq ▸ h⟩
  · rintro ⟨k, h⟩
    cases hlen : (a :: t).drop k with
    | nil =>
      -- The search went behind the end of the text: the rest matches the empty text, and any
      -- character before it will do.
      have hk : (a :: t).length ≤ k := drop_eq_nil_iff.mp hlen
      rw [length_cons] at hk
      rw [drop_of_length_le (by omega)] at h
      exact ⟨t.length, (a :: t).getLast (cons_ne_nil a t), [],
        drop_length_sub_one (cons_ne_nil a t), h⟩
    | cons b r => exact ⟨k, b, r, hlen, eq_drop_of_drop_eq hlen ▸ h⟩

/-! ## Right answers -/

/-- An answer about a pattern and a text is right: yes if they match, and stop only if no suffix of
the text matches either. -/
structure Decides (p : List (Token α)) (t : List α) (yes stop : Prop) : Prop where
  yes_iff : yes ↔ Matches p t
  of_stop : stop → ∀ k, ¬ Matches p (t.drop k)

namespace Decides

variable {p : List (Token α)} {t : List α} {yes stop : Prop} {a : α}

/-- The answer no. -/
theorem no (h : ¬ Matches p t) : Decides p t False False := ⟨⟨False.elim, h⟩, False.elim⟩

/-- The answer stop at the end of the text. -/
theorem atEnd (h : ¬ Matches p []) : Decides p [] False True :=
  ⟨⟨False.elim, h⟩, fun _ k => by rwa [drop_nil]⟩

/-- The answer yes. -/
theorem matched (h : Matches p t) : Decides p t True False :=
  ⟨⟨fun _ => h, fun _ => trivial⟩, False.elim⟩

/-- A step over an equal character. -/
theorem literal (h : Decides p t yes stop) : Decides (.literal a :: p) (a :: t) yes stop := by
  refine ⟨h.yes_iff.trans ⟨fun hp => ⟨t, rfl, hp⟩, fun hp => (matches_literal_cons.mp hp).2⟩,
    fun hstop k hp => ?_⟩
  obtain ⟨r, heq, hp⟩ := hp
  exact h.of_stop hstop k (eq_drop_of_drop_eq heq ▸ hp)

/-- A step over any character. -/
theorem anyChar (h : Decides p t yes stop) : Decides (.anyChar :: p) (a :: t) yes stop := by
  refine ⟨h.yes_iff.trans matches_anyChar_cons.symm, fun hstop k hp => ?_⟩
  obtain ⟨b, r, heq, hp⟩ := hp
  exact h.of_stop hstop k (eq_drop_of_drop_eq heq ▸ hp)

/-- `%%` is `%`. -/
theorem any_any (h : Decides (.any :: p) t yes stop) : Decides (.any :: .any :: p) t yes stop :=
  ⟨h.yes_iff.trans matches_any_any.symm, fun hstop k hp =>
    h.of_stop hstop k (matches_any_any.mp hp)⟩

/-- `%_` takes a character, then is `%`. -/
theorem any_anyChar (h : Decides (.any :: p) t yes stop) :
    Decides (.any :: .anyChar :: p) (a :: t) yes stop := by
  refine ⟨h.yes_iff.trans matches_any_anyChar_cons.symm, fun hstop k hp => ?_⟩
  obtain ⟨j, hj⟩ := matches_any.mp hp
  rw [drop_drop] at hj
  have hwhole : Matches (.any :: .anyChar :: p) (a :: t) := matches_any.mpr ⟨k + j, hj⟩
  exact h.of_stop hstop 0 (matches_any_anyChar_cons.mp hwhole)

/-- The search ends here: the rest of the pattern matches here, or it matches no suffix from here
on. -/
theorem any_here (h : Decides p t yes stop) (hend : yes ∨ stop) :
    Decides (.any :: p) t yes stop := by
  have hstop : stop → ∀ k, ¬ Matches (.any :: p) (t.drop k) := by
    intro hstop k hp
    obtain ⟨j, hj⟩ := matches_any.mp hp
    rw [drop_drop] at hj
    exact h.of_stop hstop _ hj
  refine ⟨⟨fun hyes => matches_any.mpr ⟨0, h.yes_iff.mp hyes⟩, fun hp => ?_⟩, hstop⟩
  exact hend.resolve_right fun hs => hstop hs 0 hp

/-- The search goes on: the rest of the pattern does not match here. -/
theorem any_next (hhere : ¬ Matches p (a :: t)) (h : Decides (.any :: p) t yes stop) :
    Decides (.any :: p) (a :: t) yes stop := by
  refine ⟨h.yes_iff.trans ⟨fun hp => matches_any_cons.mpr (.inr hp), fun hp =>
    (matches_any_cons.mp hp).resolve_left hhere⟩, fun hstop k hp => ?_⟩
  cases k with
  | zero => exact h.of_stop hstop 0 ((matches_any_cons.mp hp).resolve_left hhere)
  | succ k => exact h.of_stop hstop k hp

end Decides

/-! ## Writing patterns -/

section

variable [DecidableEq α] (percent underscore : α)

/-- The token that a character stands for where it is not escaped. -/
def token (a : α) : Token α :=
  if a = percent then .any else if a = underscore then .anyChar else .literal a

/-- The tokens of a pattern with an escape character, unless it ends with one that escapes nothing.
-/
def tokens (escape : Option α) : List α → Option (List (Token α))
  | [] => some []
  | [a] => if escape = some a then none else some [token percent underscore a]
  | a :: b :: p =>
    if escape = some a then (tokens escape p).map (.literal b :: ·)
    else (tokens escape (b :: p)).map (token percent underscore a :: ·)

variable (backslash : α)

/-- The pattern without an escape character, written with the escape character `backslash`. -/
def escapeNone : List α → List α
  | [] => []
  | a :: p => if a = backslash then backslash :: a :: escapeNone p else a :: escapeNone p

/-- The pattern with the escape character `e`, written with the escape character `backslash`. The
flag says that an escape character was the last one. -/
def escapeBy (e : α) : List α → Bool → List α
  | [], _ => []
  | a :: p, afterescape =>
    if a = e ∧ afterescape = false then backslash :: escapeBy e p true
    else if a = backslash then
      if afterescape then backslash :: escapeBy e p false
      else backslash :: backslash :: escapeBy e p false
    else a :: escapeBy e p false

variable {percent underscore backslash}

/-- An escaped character is a literal. -/
theorem tokens_escaped {escape : Option α} (h : escape = some a) (b : α) (p : List α) :
    tokens percent underscore escape (a :: b :: p) = (tokens percent underscore escape p).map
      (.literal b :: ·) := by
  rw [tokens, if_pos h]

/-- Any other character is its token. -/
theorem tokens_plain {escape : Option α} (h : escape ≠ some a) (p : List α) :
    tokens percent underscore escape (a :: p) = (tokens percent underscore escape p).map
      (token percent underscore a :: ·) := by
  cases p with
  | nil => exact if_neg h
  | cons b p => rw [tokens, if_neg h]

/-- A character that is no wildcard is a literal. -/
theorem token_of_ne (h : a ≠ percent) (h' : a ≠ underscore) :
    token percent underscore a = .literal a := by
  rw [token, if_neg h, if_neg h']

/-- A pattern without escape character is rewritten with the same meaning. -/
theorem tokens_escapeNone (hp : backslash ≠ percent) (hu : backslash ≠ underscore) (p : List α) :
    tokens percent underscore (some backslash) (escapeNone backslash p) =
      tokens percent underscore none p := by
  induction p with
  | nil => rfl
  | cons a p ih =>
    rw [tokens_plain (some_ne_none a).symm, escapeNone]
    split_ifs with ha
    · rw [tokens_escaped rfl, ih, ha, token_of_ne hp hu]
    · rw [tokens_plain (fun heq => ha (some_inj.mp heq).symm), ih]

/-- A pattern with another escape character is rewritten with the same meaning. -/
theorem tokens_escapeBy (hp : backslash ≠ percent) (hu : backslash ≠ underscore) {e : α}
    (he : e ≠ backslash) : ∀ p : List α,
    tokens percent underscore (some backslash) (escapeBy backslash e p false) =
      tokens percent underscore (some e) p
  | [] => rfl
  | a :: p => by
    by_cases ha : a = e
    · rw [escapeBy, if_pos ⟨ha, rfl⟩, ha]
      match p with
      | [] => simp [escapeBy, tokens]
      | b :: p =>
        -- The character after an escape character is a literal, whatever it is.
        have ih := tokens_escapeBy hp hu he p
        rw [tokens_escaped rfl, escapeBy, if_neg fun hand => Bool.noConfusion hand.2]
        by_cases hb : b = backslash
        · rw [if_pos hb, if_pos rfl, tokens_escaped rfl, ih, hb]
        · rw [if_neg hb, tokens_escaped rfl, ih]
    · have ih := tokens_escapeBy hp hu he p
      rw [escapeBy, if_neg fun hand =>
        ha hand.1, tokens_plain (fun heq => ha (some_inj.mp heq).symm)]
      by_cases hb : a = backslash
      · rw [if_pos hb, if_neg Bool.false_ne_true, tokens_escaped rfl, ih, hb, token_of_ne hp hu]
      · rw [if_neg hb, tokens_plain (fun heq => hb (some_inj.mp heq).symm), ih]

end

end Wildcard
