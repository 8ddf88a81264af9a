import PgAutoIndex.Adt.LikeMatch

/-!
# LIKE means what it says

`MatchText` compares bytes, and a pattern speaks of characters. Three facts about an encoding
connect the two: the first byte of a character tells whether it is one of `%`, `_` and the
backslash, and its further bytes are none of them (`IsLikeChar.bytes`); no character is the start of
another (`IsLikeChar.eq_of_prefix`); and `NextChar` goes to the next character (`nextChar_char`). So
a literal character is compared as a whole, wherever in it the comparison ends
(`matchLoop_literal`).

`Right` says that a result is the right answer about the tokens of the pattern and the characters of
the text, in the sense of `Wildcard.Decides`. Behind a `%` it follows from the rules for sequences
(`matchPercent_right`), given the recursive calls, and for the whole loop by induction on the
pattern (`matchLoop_right`). The recursive calls have a shorter pattern (`matchText_right`).

`do_like_escape` computes the rewriting of the library on characters (`doubleBackslashes_eq`,
`replaceEscapes_eq`), which keeps the tokens.
-/

namespace PgAutoIndex.Adt

open Utf8 Wildcard List Option

/-! ## Characters and bytes -/

/-- A byte that has no meaning of its own in a pattern. -/
def Ordinary (b : Byte) : Prop := b ≠ BACKSLASH ∧ b ≠ PERCENT ∧ b ≠ UNDERSCORE

variable {b : Byte} {c d e : List Byte} {ps ts : List (List Byte)}
  {pattern : List (Token (List Byte))}

theorem ordinary_of_le (h : 0x80 ≤ b.val) : Ordinary b := by
  refine ⟨?_, ?_, ?_⟩ <;> rintro rfl <;> exact absurd h (by decide)

variable {enc : LikeEncoding}

/-- The bytes of a character: the first decides whether it is special, the others are ordinary. -/
theorem IsLikeChar.bytes (h : IsLikeChar enc c) :
    ∃ b r, c = b :: r ∧ (∀ x ∈ r, Ordinary x) ∧ (¬ Ordinary b → r = []) := by
  cases enc with
  | singleByte =>
    obtain ⟨b, rfl⟩ := length_eq_one_iff.mp h
    exact ⟨b, [], rfl, nofun, fun _ => rfl⟩
  | utf8 =>
    obtain ⟨a, r, rfl, _, hr, hlow⟩ := IsChar.bytes h
    refine ⟨a, r, rfl, fun x hx => ordinary_of_le (hr x hx).1, fun hnot => hlow ?_⟩
    by_contra hge
    exact hnot (ordinary_of_le (by omega))

/-- No character is the start of another. -/
theorem IsLikeChar.eq_of_prefix (hc : IsLikeChar enc c) (hd : IsLikeChar enc d)
    (h : c <+: d) : c = d := by
  cases enc with
  | singleByte => exact h.eq_of_length (Eq.trans hc (Eq.symm hd))
  | utf8 => exact IsChar.eq_of_prefix hc hd h (prefix_refl d)

theorem isTail_iff_land : ∀ b : Fin 256, b.val &&& 0xC0 = 0x80 ↔ IsTail b := by decide +kernel

/-- A character ends where the next one starts. -/
theorem dropWhile_flatten (hts : ∀ c ∈ ts, IsChar c) {r : List Byte} (hr : ∀ x ∈ r, IsTail x) :
    (r ++ ts.flatten).dropWhile (fun b => b.val &&& 0xC0 = 0x80) = ts.flatten := by
  rw [dropWhile_append_of_pos fun x hx => decide_eq_true ((isTail_iff_land x).mpr (hr x hx))]
  cases ts with
  | nil => rfl
  | cons c ts =>
    obtain ⟨a, r, rfl, ha, _, _⟩ := (hts c mem_cons_self).bytes
    rw [flatten_cons, cons_append, dropWhile_cons, if_neg]
    rw [decide_eq_true_eq, isTail_iff_land]
    exact ha

/-- `NextChar` goes to the next character. -/
theorem nextChar_char (hc : IsLikeChar enc c) (hts : ∀ d ∈ ts, IsLikeChar enc d) :
    nextChar enc (c ++ ts.flatten) = ts.flatten := by
  cases enc with
  | singleByte =>
    obtain ⟨b, rfl⟩ := length_eq_one_iff.mp hc
    rfl
  | utf8 =>
    obtain ⟨a, r, rfl, _, hr, _⟩ := IsChar.bytes hc
    exact dropWhile_flatten hts hr

/-! ## Literal characters -/

section

variable {matchRest : List Byte → List Byte → Except LikeError LikeResult}

theorem matchLoop_cons (x b : Byte) (t p : List Byte) : matchLoop enc matchRest (x :: t) (b :: p) =
    if b = BACKSLASH then
      match p with
      | [] => .error .endsWithEscape
      | c :: p => if c ≠ x then .ok .likeFalse else matchLoop enc matchRest t p
    else if b = PERCENT then matchPercent enc matchRest (x :: t) p
    else if b = UNDERSCORE then matchLoop enc matchRest (nextChar enc (x :: t)) p
    else if b ≠ x then .ok .likeFalse
    else matchLoop enc matchRest t p := by
  cases p <;> rfl

theorem matchLoop_ordinary {x : Byte} (h : Ordinary b) (t p : List Byte) :
    matchLoop enc matchRest (x :: t) (b :: p) =
    if b ≠ x then .ok .likeFalse else matchLoop enc matchRest t p := by
  rw [matchLoop_cons, if_neg h.1, if_neg h.2.1, if_neg h.2.2]

/-- Behind the first byte ordinary bytes are compared one by one; that they are different shows
before one of the two sequences ends. -/
theorem matchLoop_bytes (t p : List Byte) {x : Byte} {c d : List Byte} (hord : ∀ y ∈ c, Ordinary y)
    (hcd : b :: c <+: x :: d → b :: c = x :: d)
    (hdc : x :: d <+: b :: c → x :: d = b :: c) :
      (if b ≠ x then .ok .likeFalse else matchLoop enc matchRest (d ++ t) (c ++ p)) =
      if b :: c = x :: d then matchLoop enc matchRest t p else .ok .likeFalse := by
  induction c generalizing b x d with
  | nil =>
    by_cases hbx : b = x
    · cases hcd (by simp [hbx])
      simp
    · simp [hbx]
  | cons b' c ih =>
    by_cases hbx : b = x
    · subst hbx
      obtain _ | ⟨x', d⟩ := d
      · cases hdc (by simp)
      rw [prefix_cons_inj, cons.injEq, and_iff_right rfl] at hcd hdc
      obtain ⟨hb', hc⟩ := forall_mem_cons.mp hord
      have hrest := ih hc hcd hdc
      rw [if_neg (not_not.mpr rfl), cons_append, cons_append, matchLoop_ordinary hb', hrest]
      simp only [cons.injEq, true_and]
    · rw [if_pos hbx, if_neg fun h => hbx (cons.inj h).1]

/-- A literal character that is not special is compared with the character of the text. -/
theorem matchLoop_literal (hc : IsLikeChar enc c) (hd : IsLikeChar enc d)
    (hord : ∀ b ∈ c, Ordinary b) (t p : List Byte) :
    matchLoop enc matchRest (d ++ t) (c ++ p) = if c = d then matchLoop enc matchRest t p
      else .ok .likeFalse := by
  obtain ⟨b, r, rfl, hr, _⟩ := hc.bytes
  obtain ⟨x, s, rfl, _, _⟩ := hd.bytes
  rw [cons_append, cons_append, matchLoop_ordinary (hord b mem_cons_self)]
  exact matchLoop_bytes t p hr (hc.eq_of_prefix hd) (hd.eq_of_prefix hc)

/-- So is an escaped character. -/
theorem matchLoop_escaped (hc : IsLikeChar enc c) (hd : IsLikeChar enc d) (t p : List Byte) :
    matchLoop enc matchRest (d ++ t) (BACKSLASH :: (c ++ p)) =
      if c = d then matchLoop enc matchRest t p else .ok .likeFalse := by
  obtain ⟨b, r, rfl, hr, _⟩ := hc.bytes
  obtain ⟨x, s, rfl, _, _⟩ := hd.bytes
  rw [cons_append, cons_append, matchLoop_cons, if_pos rfl]
  exact matchLoop_bytes t p hr (hc.eq_of_prefix hd) (hd.eq_of_prefix hc)

end

/-! ## Right results -/

/-- A result is the right answer. -/
def Right (pattern : List (Token (List Byte))) (ts : List (List Byte))
    (result : Except LikeError LikeResult) : Prop :=
  ∃ r, result = .ok r ∧ Decides pattern ts (r = .likeTrue) (r = .likeAbort)

namespace Right

variable {pattern : List (Token (List Byte))} {ts : List (List Byte)}

theorem likeTrue (h : Matches pattern ts) : Right pattern ts (.ok .likeTrue) :=
  ⟨_, rfl, by simpa using Decides.matched h⟩

theorem likeFalse (h : ¬ Matches pattern ts) : Right pattern ts (.ok .likeFalse) :=
  ⟨_, rfl, by simpa using Decides.no h⟩

theorem likeAbort (h : ¬ Matches pattern []) : Right pattern [] (.ok .likeAbort) :=
  ⟨_, rfl, by simpa using Decides.atEnd h⟩

/-- An answer is carried over as the library does. -/
theorem map {pattern' : List (Token (List Byte))} {ts' : List (List Byte)}
    {result : Except LikeError LikeResult} (h : Right pattern ts result)
    (hmap : ∀ {yes stop : Prop}, Decides pattern ts yes stop → Decides pattern' ts' yes stop) :
      Right pattern' ts' result := by
  obtain ⟨r, hr, hd⟩ := h
  exact ⟨r, hr, hmap hd⟩

end Right

/-- A literal character in front. -/
theorem right_literal {result : Except LikeError LikeResult} (h : Right pattern ts result) :
    Right (.literal c :: pattern) (d :: ts) (if c = d then result else .ok .likeFalse) := by
  split_ifs with heq
  · rw [heq]
    exact h.map Decides.literal
  · exact .likeFalse fun hmatch => heq (matches_literal_cons.mp hmatch).1.symm

/-! ## Behind a `%` -/

section

variable {matchRest : List Byte → List Byte → Except LikeError LikeResult}

/-- The search for a literal character and what follows it. -/
theorem scanText_right (hb : c.head? = some b) {p : List Byte}
    (hrest : ∀ ts, (∀ d ∈ ts, IsLikeChar enc d) →
      Right (.literal c :: pattern) ts (matchRest ts.flatten p))
    (hts : ∀ d ∈ ts, IsLikeChar enc d) {fuel : ℕ} (hfuel : ts.flatten.length ≤ fuel) :
    Right (.any :: .literal c :: pattern) ts (scanText enc matchRest b p fuel ts.flatten) := by
  induction ts generalizing fuel with
  | nil =>
    have hnot : ¬ Matches (.any :: .literal c :: pattern) [] :=
      fun h => not_matches_literal_nil (matches_any_nil.mp h)
    cases fuel <;> exact .likeAbort hnot
  | cons d ts ih =>
    obtain ⟨hd, hts'⟩ := forall_mem_cons.mp hts
    have hnext := nextChar_char hd hts'
    obtain ⟨x, s, rfl, _, _⟩ := hd.bytes
    rw [flatten_cons, cons_append, length_cons, length_append] at hfuel
    obtain _ | fuel := fuel
    · omega
    have hlater := @ih hts' fuel (by omega)
    have hhere := hrest ((x :: s) :: ts) hts
    rw [flatten_cons, cons_append] at hhere ⊢
    rw [cons_append] at hnext
    rw [scanText]
    split_ifs with hx
    · obtain ⟨r, hr, hdec⟩ := hhere
      rw [hr]
      cases r with
      | likeTrue => exact ⟨_, rfl, hdec.any_here (.inl rfl)⟩
      | likeAbort => exact ⟨_, rfl, hdec.any_here (.inr rfl)⟩
      | likeFalse =>
        have hnot : ¬ Matches (.literal c :: pattern) ((x :: s) :: ts) := fun h => by
          simpa using hdec.yes_iff.mpr h
        rw [hnext]
        exact hlater.map (Decides.any_next hnot)
    · -- The first byte is not that of the literal character.
      have hnot : ¬ Matches (.literal c :: pattern) ((x :: s) :: ts) := by
        intro h
        rw [← (matches_literal_cons.mp h).1, head?_cons] at hb
        exact hx (some_inj.mp hb)
      rw [hnext]
      exact hlater.map (Decides.any_next hnot)

theorem matchPercent_underscore (t p : List Byte) : matchPercent enc matchRest t (UNDERSCORE :: p) =
    if t = [] then .ok .likeAbort else matchPercent enc matchRest (nextChar enc t) p := by
  unfold matchPercent
  rw [skipWildcards, if_neg (by decide), if_pos rfl]
  split_ifs <;> rfl

/-- The cases of a pattern that starts with a character, with the backslash as escape character. -/
theorem likeTokens_cons (hc : IsLikeChar enc c)
    (h : likeTokens (some [BACKSLASH]) (c :: ps) = some pattern) :
    (c = [PERCENT] ∧ ∃ rest, likeTokens (some [BACKSLASH]) ps = some rest ∧
      pattern = .any :: rest) ∨
    (c = [UNDERSCORE] ∧ ∃ rest, likeTokens (some [BACKSLASH]) ps = some rest ∧
      pattern = .anyChar :: rest) ∨
    (c = [BACKSLASH] ∧ ∃ d ps' rest, ps = d :: ps' ∧ likeTokens (some [BACKSLASH]) ps' = some rest ∧
      pattern = .literal d :: rest) ∨
    ((∀ b ∈ c, Ordinary b) ∧ ∃ rest, likeTokens (some [BACKSLASH]) ps = some rest ∧
      pattern = .literal c :: rest) := by
  by_cases hbs : c = [BACKSLASH]
  · right; right; left
    subst hbs
    cases ps with
    | nil =>
      cases h
    | cons d ps =>
      rw [likeTokens, tokens_escaped rfl, map_eq_some_iff] at h
      obtain ⟨rest, hrest, rfl⟩ := h
      exact ⟨rfl, d, ps, rest, rfl, hrest, rfl⟩
  · rw [likeTokens, tokens_plain (fun heq => hbs (some_inj.mp heq).symm), map_eq_some_iff] at h
    obtain ⟨rest, hrest, rfl⟩ := h
    by_cases hpct : c = [PERCENT]
    · exact .inl ⟨hpct, rest, hrest, by rw [token, if_pos hpct]⟩
    by_cases hus : c = [UNDERSCORE]
    · exact .inr (.inl ⟨hus, rest, hrest, by rw [token, if_neg hpct, if_pos hus]⟩)
    -- A character that is none of the three has ordinary bytes only.
    refine .inr (.inr (.inr ⟨?_, rest, hrest, by rw [token_of_ne hpct hus]⟩))
    obtain ⟨b, r, rfl, hr, hspecial⟩ := hc.bytes
    have hb : Ordinary b := by
      by_contra hnot
      rw [hspecial hnot] at hbs hpct hus
      exact hnot ⟨fun h => hbs (by rw [h]), fun h => hpct (by rw [h]), fun h => hus (by rw [h])⟩
    exact forall_mem_cons.mpr ⟨hb, hr⟩

variable {n : ℕ}

/-- The recursive calls give right results for patterns shorter than `n` bytes. -/
def RestRight (enc : LikeEncoding) (n : ℕ)
    (matchRest : List Byte → List Byte → Except LikeError LikeResult) : Prop :=
  ∀ ps pattern, (∀ c ∈ ps, IsLikeChar enc c) → likeTokens (some [BACKSLASH]) ps = some pattern →
    ps.flatten.length < n →
    ∀ ts, (∀ c ∈ ts, IsLikeChar enc c) → Right pattern ts (matchRest ts.flatten ps.flatten)

variable (hps : ∀ c ∈ ps, IsLikeChar enc c)
  (htokens : likeTokens (some [BACKSLASH]) ps = some pattern)
include hps htokens

/-- Behind a `%`. -/
theorem matchPercent_right (hrest : RestRight enc n matchRest) (hlen : ps.flatten.length < n)
    (hts : ∀ c ∈ ts, IsLikeChar enc c) :
    Right (.any :: pattern) ts (matchPercent enc matchRest ts.flatten ps.flatten) := by
  induction ps generalizing pattern ts with
  | nil =>
    obtain rfl : [] = pattern := some_inj.mp htokens
    exact .likeTrue (matches_any.mpr ⟨ts.length, drop_length⟩)
  | cons c ps ih =>
    obtain ⟨hc, hps'⟩ := forall_mem_cons.mp hps
    have hlen' : ps.flatten.length < n := by
      rw [flatten_cons, length_append] at hlen
      omega
    rcases likeTokens_cons hc htokens with ⟨rfl, rest, hr, rfl⟩ | ⟨rfl, rest, hr, rfl⟩ |
      ⟨rfl, d, ps', rest, rfl, hr, rfl⟩ | ⟨hord, rest, hr, rfl⟩
    · -- Another `%`.
      exact (ih hps' hr hlen' hts).map Decides.any_any
    · -- A `_` takes a character of the text.
      rw [flatten_cons, singleton_append, matchPercent_underscore]
      cases ts with
      | nil => exact .likeAbort fun h => not_matches_anyChar_nil (matches_any_nil.mp h)
      | cons x ts =>
        obtain ⟨hx, hts'⟩ := forall_mem_cons.mp hts
        have hne : (x :: ts).flatten ≠ [] := by
          obtain ⟨b, r, rfl, _, _⟩ := hx.bytes
          exact cons_ne_nil _ _
        rw [if_neg hne, flatten_cons, nextChar_char hx hts']
        exact (ih hps' hr hlen' hts').map Decides.any_anyChar
    · -- An escaped character.
      obtain ⟨b, r, rfl, _, _⟩ := (hps' d mem_cons_self).bytes
      exact scanText_right rfl (hrest _ _ hps htokens hlen) hts le_rfl
    · obtain ⟨b, r, rfl, _, _⟩ := hc.bytes
      have hscan := scanText_right rfl (hrest _ _ hps htokens hlen) hts le_rfl
      rw [flatten_cons, cons_append] at hscan ⊢
      obtain ⟨hbs, hpct, hus⟩ := hord b mem_cons_self
      rw [matchPercent, skipWildcards, if_neg hpct, if_neg hus]
      dsimp only
      rw [if_neg hbs]
      exact hscan

/-! ## The loop -/

/-- At the end of the text the pattern matches if there are only `%` left. -/
theorem matches_nil_iff : Matches pattern [] ↔ ps.flatten.dropWhile (· = PERCENT) = [] := by
  induction ps generalizing pattern with
  | nil =>
    obtain rfl : [] = pattern := some_inj.mp htokens
    exact ⟨fun _ => rfl, fun _ => rfl⟩
  | cons c ps ih =>
    obtain ⟨hc, hps'⟩ := forall_mem_cons.mp hps
    have hstop : ∀ {b : Byte} {p : List Byte}, b ≠ PERCENT →
        (b :: p).dropWhile (· = PERCENT) ≠ [] := by
      intro b p hb
      rw [dropWhile_cons, if_neg (by simpa using hb)]
      exact cons_ne_nil b p
    rcases likeTokens_cons hc htokens with ⟨rfl, rest, hr, rfl⟩ | ⟨rfl, rest, hr, rfl⟩ |
      ⟨rfl, d, ps', rest, rfl, hr, rfl⟩ |
      ⟨hord, rest, hr, rfl⟩
    · rw [flatten_cons, singleton_append, dropWhile_cons, if_pos (by decide), matches_any_nil]
      exact ih hps' hr
    · exact iff_of_false not_matches_anyChar_nil (hstop (by decide))
    · exact iff_of_false not_matches_literal_nil (hstop (by decide))
    · obtain ⟨b, r, rfl, _, _⟩ := hc.bytes
      exact iff_of_false not_matches_literal_nil (hstop (hord b mem_cons_self).2.1)

/-- The loop gives right results, given the recursive calls. -/
theorem matchLoop_right (hrest : RestRight enc n matchRest) (hlen : ps.flatten.length ≤ n)
    (hts : ∀ c ∈ ts, IsLikeChar enc c) :
    Right pattern ts (matchLoop enc matchRest ts.flatten ps.flatten) := by
  induction hm : ps.length using Nat.strong_induction_on generalizing ps pattern ts with
  | _ m ih =>
    subst hm
    cases ps with
    | nil =>
      obtain rfl : [] = pattern := some_inj.mp htokens
      cases ts with
      | nil => exact .likeTrue rfl
      | cons d ts =>
        obtain ⟨x, s, rfl, _, _⟩ := (hts d mem_cons_self).bytes
        exact .likeFalse fun h => cons_ne_nil _ _ h
    | cons c ps =>
      obtain ⟨hc, hps'⟩ := forall_mem_cons.mp hps
      have hcpos : 0 < c.length := by
        obtain ⟨b, r, rfl, _, _⟩ := hc.bytes
        exact Nat.succ_pos _
      have hlen' : ps.flatten.length < n := by
        rw [flatten_cons, length_append] at hlen
        omega
      cases ts with
      | nil =>
        have hnil := matches_nil_iff hps htokens
        obtain ⟨b, r, rfl, _, _⟩ := hc.bytes
        rw [flatten_cons, cons_append] at hnil ⊢
        rw [flatten_nil, matchLoop]
        split_ifs with hall
        · exact .likeTrue (hnil.mpr hall)
        · exact .likeAbort fun h => hall (hnil.mp h)
      | cons d ts =>
        obtain ⟨hd, hts'⟩ := forall_mem_cons.mp hts
        have hnext := nextChar_char hd hts'
        rcases likeTokens_cons hc htokens with ⟨rfl, rest, hr, rfl⟩ | ⟨rfl, rest, hr, rfl⟩ |
          ⟨rfl, e, ps', rest, rfl, hr, rfl⟩ | ⟨hord, rest, hr, rfl⟩
        · have hpercent := matchPercent_right hps' hr hrest hlen' hts
          obtain ⟨x, s, rfl, _, _⟩ := hd.bytes
          rw [flatten_cons, cons_append] at hpercent ⊢
          rw [flatten_cons, singleton_append, matchLoop_cons, if_neg (by decide), if_pos rfl]
          exact hpercent
        · have hloop :=
            (ih _ (Nat.lt_succ_self _) hps' hr (by omega) hts' rfl).map (Decides.anyChar (a := d))
          obtain ⟨x, s, rfl, _, _⟩ := hd.bytes
          rw [cons_append] at hnext
          rw [flatten_cons, flatten_cons, cons_append, singleton_append, matchLoop_cons,
            if_neg (by decide), if_neg (by decide), if_pos rfl,
            hnext]
          exact hloop
        · obtain ⟨he, hps'⟩ := forall_mem_cons.mp hps'
          have hlen'' : ps'.flatten.length ≤ n := by
            rw [flatten_cons, length_append] at hlen'
            omega
          have hloop := ih _ (by rw [length_cons, length_cons]; omega) hps' hr hlen'' hts' rfl
          rw [flatten_cons, flatten_cons, flatten_cons, singleton_append, matchLoop_escaped he hd]
          exact right_literal hloop
        · have hloop := ih _ (Nat.lt_succ_self _) hps' hr (by omega) hts' rfl
          rw [flatten_cons, flatten_cons, matchLoop_literal hc hd hord]
          exact right_literal hloop

end

/-- `MatchText` gives right results if the stack is deep enough. -/
theorem matchText_right (enc : LikeEncoding) (depth : ℕ) :
    RestRight enc depth (matchText enc depth) := by
  induction depth with
  | zero => exact nofun
  | succ depth ih =>
    intro ps pattern hps htokens hlt ts hts
    rw [matchText]
    split_ifs with hall
    · -- The pattern is `%`.
      cases ps with
      | nil => cases hall
      | cons c ps =>
        obtain ⟨b, r, rfl, _, _⟩ := (hps c mem_cons_self).bytes
        obtain ⟨rfl, hnil⟩ := cons.inj hall
        obtain ⟨rfl, hflat⟩ := append_eq_nil_iff.mp hnil
        cases ps with
        | nil =>
          obtain rfl : [Token.any] = pattern := some_inj.mp htokens
          exact .likeTrue (matches_any.mpr ⟨ts.length, drop_length⟩)
        | cons d ps =>
          obtain ⟨x, s, rfl, _, _⟩ := (hps d (by simp)).bytes
          cases hflat
    · exact matchLoop_right hps htokens ih (by omega) hts

/-! ## do_like_escape -/

theorem isLikeChar_backslash (enc : LikeEncoding) : IsLikeChar enc [BACKSLASH] := by
  cases enc with
  | singleByte => rfl
  | utf8 => exact isChar_iff.mpr (.one (by decide) (by decide))

/-- A character is the backslash if its first byte is. -/
theorem IsLikeChar.eq_backslash_iff {r : List Byte} (h : IsLikeChar enc (b :: r)) :
    b :: r = [BACKSLASH] ↔ b = BACKSLASH := by
  refine ⟨fun heq => (cons.inj heq).1, fun hb => ?_⟩
  obtain ⟨b', r', heq, _, hspecial⟩ := h.bytes
  obtain ⟨rfl, rfl⟩ := cons.inj heq
  rw [hspecial fun hord => hord.1 hb, hb]

/-- The length of a character is found. -/
theorem charLen_char (hc : IsLikeChar enc c) (rest : List Byte) :
    charLen enc (c ++ rest) = .ok c.length := by
  cases enc with
  | singleByte =>
    rw [show c.length = 1 from hc]
    rfl
  | utf8 =>
    obtain ⟨a, r, rfl, hlen⟩ := Common.pgUtfMblen_char (isChar_iff.mp hc)
    rw [charLen, cons_append, getD_cons_zero, hlen, if_neg]
    rw [length_cons, length_cons, length_append]
    omega

/-- Characters are compared. -/
theorem charEq_char (hc : IsLikeChar enc c) (he : IsLikeChar enc e) (rest : List Byte) :
    charEq enc (c ++ rest) e = .ok (decide (c = e)) := by
  cases enc with
  | singleByte =>
    obtain ⟨b, rfl⟩ := length_eq_one_iff.mp hc
    obtain ⟨x, rfl⟩ := length_eq_one_iff.mp he
    rw [charEq, singleton_append, getD_cons_zero, getD_cons_zero]
    simp
  | utf8 =>
    have hclen := charLen_char hc rest
    have helen := charLen_char he []
    rw [append_nil] at helen
    obtain ⟨b, r, hcons, _, _⟩ := hc.bytes
    obtain ⟨x, s, hcons', _, _⟩ := he.bytes
    have hheads : (c ++ rest).getD 0 0 = b ∧ e.getD 0 0 = x := by
      rw [hcons, hcons']
      exact ⟨rfl, rfl⟩
    rw [charEq, hheads.1, hheads.2, hclen, helen]
    split_ifs with hne
    · rw [decide_eq_false]
      intro heq
      rw [hcons, hcons'] at heq
      exact hne (cons.inj heq).1
    · simp only [bind, Except.bind]
      split_ifs with hlen
      · rw [decide_eq_false fun heq => hlen (by rw [heq])]
      · rw [not_not] at hlen
        rw [take_left, ← hlen, take_length]

/-- The pattern without escape character is rewritten character by character. -/
theorem doubleBackslashes_eq (hps : ∀ c ∈ ps, IsLikeChar enc c) {fuel : ℕ}
    (hfuel : ps.flatten.length ≤ fuel) :
    doubleBackslashes enc fuel ps.flatten = .ok (escapeNone [BACKSLASH] ps).flatten := by
  induction ps generalizing fuel with
  | nil =>
    rw [flatten_nil, doubleBackslashes]
    rfl
  | cons c ps ih =>
    obtain ⟨hc, hps'⟩ := forall_mem_cons.mp hps
    have hlen := charLen_char hc ps.flatten
    obtain ⟨b, r, rfl, _, _⟩ := hc.bytes
    rw [flatten_cons, length_append, length_cons] at hfuel
    obtain _ | fuel := fuel
    · omega
    have hrest := @ih hps' fuel (by omega)
    show (do
      let l ← charLen enc (b :: r ++ ps.flatten)
      let rest ← doubleBackslashes enc fuel ((b :: r ++ ps.flatten).drop l)
      Except.ok ((if b = BACKSLASH then [BACKSLASH]
        else []) ++ (b :: r ++ ps.flatten).take l ++ rest)) = _
    rw [hlen]
    simp only [bind, Except.bind, drop_left, take_left, hrest]
    simp only [escapeNone, hc.eq_backslash_iff]
    split_ifs with hb
    · rw [flatten_cons, flatten_cons, append_assoc]
    · rw [flatten_cons, nil_append]

/-- The pattern with another escape character is rewritten character by character. -/
theorem replaceEscapes_eq (he : IsLikeChar enc e) (hps : ∀ c ∈ ps, IsLikeChar enc c) {fuel : ℕ}
    (hfuel : ps.flatten.length ≤ fuel) (afterescape : Bool) :
    replaceEscapes enc e fuel ps.flatten afterescape =
      .ok (escapeBy [BACKSLASH] e ps afterescape).flatten := by
  induction ps generalizing fuel afterescape with
  | nil =>
    rw [flatten_nil, replaceEscapes]
    rfl
  | cons c ps ih =>
    obtain ⟨hc, hps'⟩ := forall_mem_cons.mp hps
    have hlen := charLen_char hc ps.flatten
    have heq := charEq_char hc he ps.flatten
    obtain ⟨b, r, rfl, _, _⟩ := hc.bytes
    rw [flatten_cons, length_append, length_cons] at hfuel
    obtain _ | fuel := fuel
    · omega
    have hrest := @ih hps' fuel (by omega)
    rw [flatten_cons, cons_append] at *
    rw [replaceEscapes, heq, hlen]
    have hdrop : (b :: (r ++ ps.flatten)).drop (b :: r).length = ps.flatten := by
      rw [← cons_append, drop_left]
    have htake : (b :: (r ++ ps.flatten)).take (b :: r).length = b :: r := by
      rw [← cons_append, take_left]
    simp only [bind, Except.bind, hdrop, htake, hrest, decide_eq_true_eq]
    simp only [escapeBy, hc.eq_backslash_iff]
    split_ifs <;> rfl

theorem escapeNone_chars (hps : ∀ c ∈ ps, IsLikeChar enc c) :
    ∀ c ∈ escapeNone [BACKSLASH] ps, IsLikeChar enc c := by
  induction ps with
  | nil => exact hps
  | cons a ps ih =>
    obtain ⟨ha, hps⟩ := forall_mem_cons.mp hps
    rw [escapeNone]
    split_ifs
    · exact forall_mem_cons.mpr ⟨isLikeChar_backslash enc, forall_mem_cons.mpr ⟨ha, ih hps⟩⟩
    · exact forall_mem_cons.mpr ⟨ha, ih hps⟩

theorem escapeBy_chars (hps : ∀ c ∈ ps, IsLikeChar enc c) (afterescape : Bool) :
    ∀ c ∈ escapeBy [BACKSLASH] e ps afterescape, IsLikeChar enc c := by
  induction ps generalizing afterescape with
  | nil => exact hps
  | cons a ps ih =>
    obtain ⟨ha, hps⟩ := forall_mem_cons.mp hps
    have hbs := isLikeChar_backslash enc
    rw [escapeBy]
    split_ifs
    · exact forall_mem_cons.mpr ⟨hbs, ih hps true⟩
    · exact forall_mem_cons.mpr ⟨hbs, ih hps false⟩
    · exact forall_mem_cons.mpr ⟨hbs, forall_mem_cons.mpr ⟨hbs, ih hps false⟩⟩
    · exact forall_mem_cons.mpr ⟨ha, ih hps false⟩

/-- `do_like_escape` gives a pattern with the same tokens, for any escape character and for none. -/
theorem doLikeEscape_tokens (hps : ∀ c ∈ ps, IsLikeChar enc c) {escape : Option (List Byte)}
    (he : ∀ e ∈ escape, IsLikeChar enc e) :
    ∃ ps', doLikeEscape enc ps.flatten (escape.getD []) = .ok ps'.flatten ∧
      (∀ c ∈ ps', IsLikeChar enc c) ∧
      likeTokens (some [BACKSLASH]) ps' = likeTokens escape ps := by
  have hpct : [BACKSLASH] ≠ [PERCENT] := by decide
  have hus : [BACKSLASH] ≠ [UNDERSCORE] := by decide
  cases escape with
  | none =>
    exact ⟨escapeNone [BACKSLASH] ps, doubleBackslashes_eq hps le_rfl, escapeNone_chars hps,
      tokens_escapeNone hpct hus ps⟩
  | some e =>
    have he := he e rfl
    have hlen := charLen_char he []
    obtain ⟨b, r, rfl, _, _⟩ := he.bytes
    rw [append_nil] at hlen
    rw [getD_some, doLikeEscape, hlen]
    simp only [bind, Except.bind, drop_length, ne_eq, not_true_eq_false, if_false]
    split_ifs with hb
    · exact ⟨ps, rfl, hps, by rw [he.eq_backslash_iff.mpr hb]⟩
    · refine ⟨escapeBy [BACKSLASH] (b :: r) ps false, replaceEscapes_eq he hps le_rfl false,
        escapeBy_chars hps false, ?_⟩
      exact tokens_escapeBy hpct hus (fun heq => hb (he.eq_backslash_iff.mp heq)) ps

/-- LIKE means what it says, in single-byte encodings and in UTF-8: for every text and every pattern
that does not end with a lone escape character, the result is `LIKE_TRUE` exactly if the text can be
split according to the pattern, and `LIKE_ABORT` only if no suffix of it can; and `do_like_escape`
gives, for every escape character or none, a pattern that matches the texts which the original
pattern matches with that escape character. -/
theorem like_matches_meaning (enc : LikeEncoding) (ts ps : List (List Byte))
    (hts : ∀ c ∈ ts, IsLikeChar enc c) (hps : ∀ c ∈ ps, IsLikeChar enc c) :
    (∀ pattern, likeTokens (some [BACKSLASH]) ps = some pattern →
      ∀ depth, ps.flatten.length < depth →
      ∃ r, matchText enc depth ts.flatten ps.flatten = .ok r ∧
        (r = .likeTrue ↔ Matches pattern ts) ∧
        (r = .likeAbort → ∀ k, ¬ Matches pattern (ts.drop k))) ∧
    ∀ escape : Option (List Byte), (∀ e ∈ escape, IsLikeChar enc e) →
      ∀ pattern, likeTokens escape ps = some pattern →
      ∃ p, doLikeEscape enc ps.flatten (escape.getD []) = .ok p ∧ ∀ depth, p.length < depth →
        ∃ r, matchText enc depth ts.flatten p = .ok r ∧ (r = .likeTrue ↔ Matches pattern ts) := by
  constructor
  · intro pattern htokens depth hdepth
    obtain ⟨r, hr, hdec⟩ := matchText_right enc depth ps pattern hps htokens hdepth ts hts
    exact ⟨r, hr, hdec.yes_iff, hdec.of_stop⟩
  · intro escape he pattern htokens
    obtain ⟨ps', hok, hps', hsame⟩ := doLikeEscape_tokens hps he
    refine ⟨ps'.flatten, hok, fun depth hdepth => ?_⟩
    obtain ⟨r, hr, hdec⟩ :=
      matchText_right enc depth ps' pattern hps' (hsame.trans htokens) hdepth ts hts
    exact ⟨r, hr, hdec.yes_iff⟩

/-- The text `aé` in UTF-8 and the pattern `%_`. -/
theorem like_matches_meaning_utf8 : matchText .utf8 3 [0x61, 0xC3, 0xA9]
    [0x25, 0x5F] = .ok .likeTrue ∧
    Matches [.any, .anyChar] ([[0x61], [0xC3, 0xA9]] : List (List Byte)) := by
  have ha : IsLikeChar .utf8 [0x61] := isChar_iff.mpr (.one (by decide) (by decide))
  have he : IsLikeChar .utf8 [0xC3, 0xA9] :=
    isChar_iff.mpr (.two (by decide) (by decide) (by decide))
  have hpct : IsLikeChar .utf8 [0x25] := isChar_iff.mpr (.one (by decide) (by decide))
  have hus : IsLikeChar .utf8 [0x5F] := isChar_iff.mpr (.one (by decide) (by decide))
  obtain ⟨r, hr, hiff, _⟩ := (like_matches_meaning .utf8 [[0x61], [0xC3, 0xA9]] [[0x25], [0x5F]]
    (forall_mem_cons.mpr ⟨ha, forall_mem_singleton.mpr he⟩)
    (forall_mem_cons.mpr ⟨hpct, forall_mem_singleton.mpr hus⟩)).1
    [.any, .anyChar] rfl 3 (by decide)
  have htrue : matchText .utf8 3 [0x61, 0xC3, 0xA9] [0x25, 0x5F] = .ok .likeTrue := by decide
  have hresult : Except.ok r = Except.ok LikeResult.likeTrue := hr.symm.trans htrue
  exact ⟨htrue, hiff.mp (Except.ok.inj hresult)⟩

end PgAutoIndex.Adt
