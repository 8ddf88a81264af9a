import PgAutoIndex.Common.Wchar
import PgAutoIndex.Wildcard

/-!
# LIKE

`like.c` includes `like_match.c` once for each kind of encoding, with macros for what depends on it.
Two of them are here: single-byte encodings, where a character is a byte, and UTF-8. `MatchText`
compares bytes, and goes forward by a character only at a wildcard (`nextChar`): the UTF-8 version
passes over the bytes that continue a character. `do_like_escape` goes by characters throughout; for
UTF-8 it is the version for multibyte encodings, which takes lengths from `pg_mblen_with_len`.

The collation is deterministic. `MatchText` calls itself for the rest of a pattern behind a `%`, and
`check_stack_depth` allows a number of such calls inside each other: `depth`.

`IsLikeChar` are the characters of an encoding; a text is a list of them, and its bytes are theirs
one after the other.
-/

namespace PgAutoIndex.Adt

open Utf8 Wildcard

/-- The encodings. -/
inductive LikeEncoding where
  | singleByte
  | utf8
  deriving DecidableEq, Repr

/-- The byte `%`. -/
def PERCENT : Byte := 0x25

/-- The byte `_`. -/
def UNDERSCORE : Byte := 0x5F

/-- The escape byte. -/
def BACKSLASH : Byte := 0x5C

/-- The errors. -/
inductive LikeError where
  /-- LIKE pattern must not end with escape character -/
  | endsWithEscape
  /-- stack depth limit exceeded -/
  | stackDepth
  /-- invalid escape string -/
  | invalidEscapeString
  /-- invalid byte sequence for encoding -/
  | invalidEncoding
  deriving DecidableEq, Repr

/-- What `MatchText` returns. -/
inductive LikeResult where
  | likeTrue
  | likeFalse
  | likeAbort
  deriving DecidableEq, Repr

/-! ## MatchText -/

/-- `NextChar` where `MatchText` uses it, on a text that is not empty. -/
def nextChar : LikeEncoding → List Byte → List Byte
  | .singleByte, t => t.tail
  | .utf8, t => t.tail.dropWhile fun b => b.val &&& 0xC0 = 0x80

section

variable (enc : LikeEncoding)

/-- The wildcards behind a `%` are skipped, and a character of the text for each `_`; without a
result the text is too short. -/
def skipWildcards : List Byte → List Byte → Option (List Byte × List Byte)
  | t, [] => some (t, [])
  | t, b :: p =>
    if b = PERCENT then skipWildcards t p
    else if b = UNDERSCORE then
      if t = [] then none else skipWildcards (nextChar enc t) p
    else some (t, b :: p)

/-- The search for a place in the text where the rest of the pattern matches. Each round shortens
the text, so that its length is enough for `fuel`. -/
def scanText (matchRest : List Byte → List Byte → Except LikeError LikeResult) (firstpat : Byte)
    (p : List Byte) :
    ℕ → List Byte → Except LikeError LikeResult
  | 0, _ => .ok .likeAbort
  | _ + 1, [] => .ok .likeAbort
  | fuel + 1, b :: t =>
    if b = firstpat then
      match matchRest (b :: t) p with
      | .ok .likeFalse => scanText matchRest firstpat p fuel (nextChar enc (b :: t))
      | matched => matched
    else scanText matchRest firstpat p fuel (nextChar enc (b :: t))

/-- What is done behind a `%`. -/
def matchPercent (matchRest : List Byte → List Byte → Except LikeError LikeResult)
    (t p : List Byte) : Except LikeError LikeResult :=
  match skipWildcards enc t p with
  | none => .ok .likeAbort
  | some (_, []) => .ok .likeTrue
  | some (t, b :: p) =>
    if b = BACKSLASH then
      match p with
      | [] => .error .endsWithEscape
      | c :: _ => scanText enc matchRest c (b :: p) t.length t
    else scanText enc matchRest b (b :: p) t.length t

/-- The loop of `MatchText` over text and pattern, with what follows it. -/
def matchLoop (matchRest : List Byte → List Byte → Except LikeError LikeResult) :
    List Byte → List Byte → Except LikeError LikeResult
  | [], [] => .ok .likeTrue
  | _ :: _, [] => .ok .likeFalse
  | [], b :: p => if (b :: p).dropWhile (· = PERCENT) = [] then .ok .likeTrue else .ok .likeAbort
  | x :: t, b :: p =>
    if b = BACKSLASH then
      match p with
      | [] => .error .endsWithEscape
      | c :: p => if c ≠ x then .ok .likeFalse else matchLoop matchRest t p
    else if b = PERCENT then matchPercent enc matchRest (x :: t) p
    else if b = UNDERSCORE then matchLoop matchRest (nextChar enc (x :: t)) p
    else if b ≠ x then .ok .likeFalse
    else matchLoop matchRest t p

/-- `MatchText`. -/
def matchText : ℕ → List Byte → List Byte → Except LikeError LikeResult
  | 0, _, p => if p = [PERCENT] then .ok .likeTrue else .error .stackDepth
  | depth + 1, t, p => if p = [PERCENT] then .ok .likeTrue else matchLoop enc (matchText depth) t p

/-! ## do_like_escape -/

/-- The length of the character at the start of a string that is not empty: `pg_mblen_with_len`, or
1. -/
def charLen : LikeEncoding → List Byte → Except LikeError ℕ
  | .singleByte, _ => .ok 1
  | .utf8, p =>
    if Common.pgUtfMblen (p.getD 0 0) > p.length then .error .invalidEncoding
    else .ok (Common.pgUtfMblen (p.getD 0 0))

/-- `CHAREQ`: whether two strings start with the same character. -/
def charEq : LikeEncoding → List Byte → List Byte → Except LikeError Bool
  | .singleByte, p, e => .ok (p.getD 0 0 = e.getD 0 0)
  | .utf8, p, e =>
    if p.getD 0 0 ≠ e.getD 0 0 then .ok false
    else do
      let clen ← charLen .utf8 p
      let elen ← charLen .utf8 e
      if elen ≠ clen then .ok false else .ok (p.take clen = e.take clen)

/-- The loop without an escape character: backslashes are doubled. Each round shortens the pattern,
so that its length is enough for `fuel`. -/
def doubleBackslashes : ℕ → List Byte → Except LikeError (List Byte)
  | _, [] => .ok []
  | 0, _ => .ok []
  | fuel + 1, b :: p => do
    let l ← charLen enc (b :: p)
    let rest ← doubleBackslashes fuel ((b :: p).drop l)
    .ok ((if b = BACKSLASH then [BACKSLASH] else []) ++ (b :: p).take l ++ rest)

/-- The loop with an escape character that is not the backslash. -/
def replaceEscapes (e : List Byte) : ℕ → List Byte → Bool → Except LikeError (List Byte)
  | _, [], _ => .ok []
  | 0, _, _ => .ok []
  | fuel + 1, b :: p, afterescape => do
    let same ← charEq enc (b :: p) e
    let l ← charLen enc (b :: p)
    if same ∧ afterescape = false then
      let rest ← replaceEscapes e fuel ((b :: p).drop l) true
      .ok (BACKSLASH :: rest)
    else if b = BACKSLASH then
      let rest ← replaceEscapes e fuel ((b :: p).drop l) false
      .ok ((if afterescape then [BACKSLASH] else [BACKSLASH, BACKSLASH]) ++ rest)
    else
      let rest ← replaceEscapes e fuel ((b :: p).drop l) false
      .ok ((b :: p).take l ++ rest)

/-- `do_like_escape`. -/
def doLikeEscape (pat esc : List Byte) : Except LikeError (List Byte) :=
  match esc with
  | [] => doubleBackslashes enc pat.length pat
  | e :: _ => do
    let l ← charLen enc esc
    if esc.drop l ≠ [] then .error .invalidEscapeString
    else if e = BACKSLASH then .ok pat
    else replaceEscapes enc esc pat.length pat false

end

/-! ## Characters -/

/-- The bytes of a character. -/
def IsLikeChar : LikeEncoding → List Byte → Prop
  | .singleByte, c => c.length = 1
  | .utf8, c => IsChar c

/-- The tokens of a pattern of characters with an escape character. -/
abbrev likeTokens (escape : Option (List Byte)) (ps : List (List Byte)) :
    Option (List (Token (List Byte))) :=
  tokens [PERCENT] [UNDERSCORE] escape ps

end PgAutoIndex.Adt
