import PgAutoIndex.Common.PglzHistory

/-!
# The pglz round trip

The compressed format is a sequence of groups: a control byte, and up to eight tokens with one bit
each. The compressor writes the control byte of a group when the next group begins, or at the end;
`OutputOf` is what its output amounts to in between. The decompressor reads the groups back token by
token, and copies a match in blocks with a doubled offset, which is `copyBack` of the library. Both
sides meet in the tokens: the compressor's expand to the source, since every match found is one.
-/

namespace PgAutoIndex.Common

open BackCopy List Option

/-! ## The format -/

/-- The bytes of a token. -/
def tokenBytes : Token UInt8 → List UInt8
  | .lit b => [b]
  | .ref len off => tagBytes len off

/-- The bytes of the tokens of a group. -/
def payload (g : List (Token UInt8)) : List UInt8 := g.flatMap tokenBytes

theorem payload_cons (t : Token UInt8) (g : List (Token UInt8)) :
    payload (t :: g) = tokenBytes t ++ payload g := rfl

/-- The control bit of a token. -/
def controlBit : Token UInt8 → ℕ
  | .lit _ => 0
  | .ref _ _ => 1

/-- The control byte of a group, lowest bit first. -/
def controlByte : List (Token UInt8) → ℕ
  | [] => 0
  | t :: g => controlBit t + 2 * controlByte g

/-- The bytes of a sequence of groups. -/
def groupBytes (gs : List (List (Token UInt8))) : List UInt8 :=
  gs.flatMap fun g => UInt8.ofNat (controlByte g) :: payload g

/-- A token that the format can hold and that refers to a text already there. -/
def TokenOk (out : List UInt8) : Token UInt8 → Prop
  | .lit _ => True
  | .ref len off => 3 ≤ len ∧ len ≤ PGLZ_MAX_MATCH ∧ 0 < off ∧ off < 0x0fff ∧ off ≤ out.length

/-- Tokens each of which is in order after the ones before it. -/
def TokensOk : List (Token UInt8) → List UInt8 → Prop
  | [], _ => True
  | t :: ts, out => TokenOk out t ∧ TokensOk ts (t.apply out)

theorem tokensOk_append (ts us : List (Token UInt8)) (out : List UInt8) :
    TokensOk (ts ++ us) out ↔ TokensOk ts out ∧ TokensOk us (expand ts out) := by
  induction ts generalizing out with
  | nil => simp [TokensOk]
  | cons t ts ih => simp [TokensOk, ih, and_assoc]

variable {src out cut post : List UInt8} {t : Token UInt8} {g ts : List (Token UInt8)}
  {gs : List (List (Token UInt8))} {o : Output} {rawsize sp count fuel len off : ℕ}

/-- A token takes up to three bytes, and no more than it adds to the text. -/
theorem length_tokenBytes (h : TokenOk out t) :
    0 < (tokenBytes t).length ∧ (tokenBytes t).length ≤ 3 ∧
      out.length + (tokenBytes t).length ≤ (t.apply out).length := by
  cases t with
  | lit b => simp [tokenBytes, Token.apply]
  | ref len off =>
    obtain ⟨hlen, -, hpos, -, hle⟩ := h
    rw [Token.apply, length_copyBack len hpos hle, tokenBytes, tagBytes]
    split_ifs
    · exact ⟨by simp, by simp, by simp; omega⟩
    · exact ⟨by simp, by simp, by simp; omega⟩

/-- Neither do the tokens of a group. -/
theorem length_payload (h : TokensOk g out) : g.length ≤ (payload g).length ∧
    out.length + (payload g).length ≤ (expand g out).length := by
  induction g generalizing out with
  | nil => exact ⟨le_rfl, le_rfl⟩
  | cons t g ih =>
    have ht := length_tokenBytes h.1
    have hg := ih h.2
    rw [payload_cons, length_append, length_cons, expand_cons]
    omega

theorem controlByte_lt (g : List (Token UInt8)) : controlByte g < 2^g.length := by
  induction g with
  | nil => exact Nat.one_pos
  | cons t g ih =>
    have hbit : controlBit t ≤ 1 := by cases t <;> simp [controlBit]
    rw [controlByte, length_cons, pow_succ]
    omega

/-- The bit of a new token stands above the others. -/
theorem controlByte_concat (g : List (Token UInt8)) (t : Token UInt8) :
    controlByte (g ++ [t]) = controlByte g + 2^g.length * controlBit t := by
  induction g with
  | nil => simp [controlByte]
  | cons a g ih =>
    rw [cons_append, controlByte, controlByte, ih, length_cons, Nat.pow_succ, Nat.mul_add,
      ← Nat.mul_assoc, Nat.mul_comm 2 (2^g.length), Nat.add_assoc]

/-! ## Decompressing -/

/-- Copying with a doubled offset copies the match. -/
theorem copyMatch_eq (hpos : 0 < off) (hoff : off ≤ out.length) (hfuel : len < fuel) :
    copyMatch fuel out off len = some (copyBack off len out) := by
  induction fuel generalizing out off len with
  | zero => cases hfuel
  | succ fuel ih =>
    unfold copyMatch
    split_ifs with hlt
    · rw [← copyBack_block le_rfl hoff]
      have hlength := length_copyBack off hpos hoff
      rw [ih (by omega) (by omega) (by omega), copyBack_double hpos hoff, ← copyBack_add,
        Nat.add_sub_cancel' (by omega)]
    · rw [← copyBack_block (by omega) hoff]

/-- The high four bits of an offset, where the tag holds them. -/
theorem and_0xf00_shift (off : ℕ) (h : off < 0x1000) :
    (off &&& 0xf00) >>> 4 = 16 * (off / 256) := by
  have hall : ∀ a b : Fin 64, ((64 * (a : ℕ) + b) &&& 0xf00) >>> 4 =
      16 * ((64 * (a : ℕ) + b) / 256) := by
    decide +kernel
  have hsplit := hall ⟨off / 64, by omega⟩ ⟨off % 64, by omega⟩
  rwa [Nat.div_add_mod] at hsplit

/-- The first byte of a tag, taken apart. -/
theorem tag_byte (high low : ℕ) (hhigh : high < 16) (hlow : low < 16) :
    (UInt8.ofNat (16 * high ||| low)).toNat &&& 0x0f = low ∧
      ((UInt8.ofNat (16 * high ||| low)).toNat &&& 0xf0) <<< 4 = 256 * high := by
  revert low
  revert high
  decide +kernel

/-- Reading a tag gives back its length and offset. -/
theorem readTag_tagBytes (hlen : 3 ≤ len) (hmax : len ≤ PGLZ_MAX_MATCH) (hoff : off < 0x0fff)
    (hmem : src.drop sp = tagBytes len off ++ post) :
    readTag src sp = (len, off, sp + (tagBytes len off).length) := by
  have hmax' : len ≤ 273 := hmax
  have hget : ∀ i, src[sp + i]? = (tagBytes len off ++ post)[i]? := by
    intro i
    rw [← hmem, getElem?_drop]
  have hlow : off &&& 0xff = off % 256 := Nat.and_two_pow_sub_one_eq_mod off 8
  have hbyte : (UInt8.ofNat (off % 256)).toNat = off % 256 := Nat.mod_mod _ _
  have hvalue : 256 * (off / 256) ||| off % 256 = off := by
    have hor := Nat.two_pow_add_eq_or_of_lt (i := 8) (Nat.mod_lt off (by decide)) (off / 256)
    exact hor.symm.trans (Nat.div_add_mod off _)
  unfold readTag
  simp only [hget]
  unfold tagBytes
  rw [and_0xf00_shift off (by omega), hlow]
  by_cases hlong : len > 17
  · obtain ⟨hb, hb'⟩ := tag_byte (off / 256) 0x0f (by omega) (by omega)
    have hmore : (UInt8.ofNat (len - 18)).toNat = len - 18 := Nat.mod_eq_of_lt (by omega)
    simp only [if_pos hlong, cons_append, getElem?_cons_zero, getElem?_cons_succ, getD_some,
      hb, hb', hbyte, hmore, hvalue]
    simp
    omega
  · obtain ⟨hb, hb'⟩ := tag_byte (off / 256) (len - 3) (by omega) (by omega)
    simp only [if_neg hlong, cons_append, getElem?_cons_zero, getElem?_cons_succ, getD_some,
      hb, hb', hbyte, hvalue]
    rw [if_neg (by omega)]
    simp
    omega

/-- Nothing is read once the text has its size. -/
theorem decompressItems_full (count ctrl sp : ℕ) (h : rawsize ≤ out.length) :
    decompressItems copyMatch src rawsize count ctrl sp out = some (some (sp, out)) := by
  cases count with
  | zero => rfl
  | succ count => rw [decompressItems, if_neg (by omega)]

/-- One token adds to the text what it stands for, up to the size wanted. -/
theorem decompressItems_token (hmem : src.drop sp = tokenBytes t ++ post) (ht : TokenOk out t)
    (hlt : out.length < rawsize) :
    decompressItems copyMatch src rawsize (count + 1) (controlByte (t :: g)) sp out =
      decompressItems copyMatch src rawsize count (controlByte g) (sp + (tokenBytes t).length)
        ((t.apply out).take rawsize) := by
  have hpos := length_tokenBytes ht
  have hsize := congrArg length hmem
  rw [length_drop, length_append] at hsize
  have hin : sp < src.length := by omega
  rw [decompressItems, if_pos ⟨hin, hlt⟩]
  have hshift : controlByte (t :: g) >>> 1 = controlByte g := by
    rw [Nat.shiftRight_one, controlByte]
    cases t <;> simp only [controlBit] <;> omega
  have hbit : controlByte (t :: g) &&& 1 = controlBit t := by
    rw [Nat.and_one_is_mod, controlByte]
    cases t <;> simp only [controlBit] <;> omega
  rw [hshift, hbit]
  cases t with
  | lit b =>
    have hbyte : src[sp]? = some b := by
      rw [← add_zero sp, ← getElem?_drop, hmem]
      rfl
    rw [if_neg (by simp [controlBit]), hbyte, Token.apply, take_of_length_le (by simpa)]
    rfl
  | ref len off =>
    obtain ⟨hlen, hmax, hpos, hoff, hle⟩ := ht
    rw [if_pos (by simp [controlBit]), readTag_tagBytes hlen hmax hoff hmem]
    rw [tokenBytes] at hsize
    simp only
    rw [if_neg (by omega), copyMatch_eq hpos hle (Nat.lt_succ_self _),
      ← take_copyBack hpos hle hlt.le]
    rfl

/-- The next bytes of a source that is not cut off before their end. -/
theorem drop_of_cut {bytes : List UInt8} (h : src.drop sp ++ cut = bytes ++ post)
    (hroom : cut = [] ∨ sp + bytes.length ≤ src.length) :
    src.drop sp = bytes ++ src.drop (sp + bytes.length) ∧
      src.drop (sp + bytes.length) ++ cut = post := by
  have hlen : bytes.length ≤ (src.drop sp).length := by
    rcases hroom with rfl | hroom
    · rw [← append_nil (src.drop sp), h, length_append]
      omega
    · rw [length_drop]
      omega
  obtain ⟨rest, hrest⟩ :=
    prefix_of_prefix_length_le (prefix_append bytes post) (h ▸ prefix_append _ cut) hlen
  have hnext : src.drop (sp + bytes.length) = rest := by
    rw [← drop_drop, ← hrest, drop_left]
  rw [← hrest, append_assoc] at h
  rw [hnext]
  exact ⟨hrest.symm, append_cancel_left h⟩

/-- The loop over the tokens of a group, in a source that may be cut off behind the bytes for the
text wanted: it ends with that text, and behind the last token if there is no more. -/
theorem decompressItems_group (hmem : src.drop sp ++ cut = payload g ++ post)
    (hroom : cut = [] ∨ sp + (rawsize - out.length) + 2 ≤ src.length) (hcount : g.length ≤ count)
    (hend : g.length = count ∨ post = []) (hok : TokensOk g out) (hraw : out.length ≤ rawsize) :
    ∃ sp', decompressItems copyMatch src rawsize count (controlByte g) sp out =
        some (some (sp', (expand g out).take rawsize)) ∧
      ((expand g out).length ≤ rawsize → sp' = sp + (payload g).length) := by
  induction g generalizing count sp out with
  | nil =>
    refine ⟨sp, ?_, fun _ => rfl⟩
    rw [expand_nil, take_of_length_le hraw]
    cases count with
    | zero => rfl
    | succ count =>
      rw [hend.resolve_left (by simp), append_nil] at hmem
      have hsp : src.length ≤ sp := drop_eq_nil_iff.mp (append_eq_nil_iff.mp hmem).1
      rw [decompressItems, if_neg (by omega)]
  | cons t g ih =>
    obtain ⟨ht, hg⟩ := hok
    have hbytes := length_tokenBytes ht
    have hgrow := length_payload hg
    rcases Nat.eq_or_lt_of_le hraw with heq | hlt
    · refine ⟨sp, ?_, fun h => by rw [expand_cons] at h; omega⟩
      rw [decompressItems_full _ _ _ heq.ge, take_expand _ heq.ge, take_of_length_le hraw]
    · rw [payload_cons, append_assoc] at hmem
      obtain ⟨hbytes', hnext⟩ := drop_of_cut hmem (hroom.imp_right (by omega))
      obtain ⟨count, rfl⟩ : ∃ n, count = n + 1 := ⟨count - 1, by simp at hcount; omega⟩
      rw [decompressItems_token hbytes' ht hlt, expand_cons]
      by_cases hfits : (t.apply out).length ≤ rawsize
      · obtain ⟨sp', hloop, hsp⟩ := ih hnext (hroom.imp_right (by omega)) (by simpa using hcount)
          (by simpa using hend) hg hfits
        refine ⟨sp', by rw [take_of_length_le hfits, hloop], fun h => ?_⟩
        rw [hsp h, payload_cons, length_append, add_assoc]
      · refine ⟨sp + (tokenBytes t).length, ?_, fun h => by omega⟩
        rw [take_expand g (by omega), decompressItems_full _ _ _ (by rw [length_take]; omega)]

/-- A control byte is a byte. -/
theorem toNat_controlByte (h : g.length ≤ 8) :
    (UInt8.ofNat (controlByte g)).toNat = controlByte g := by
  have hlt := controlByte_lt g
  have hpow : 2^g.length ≤ 2^8 := Nat.pow_le_pow_right (by omega) h
  exact Nat.mod_eq_of_lt (by omega)

/-- Groups that are full, but for the last one, which is not empty. -/
def Grouped : List (List (Token UInt8)) → Prop
  | [] => True
  | g :: gs => g ≠ [] ∧ g.length ≤ 8 ∧ (g.length = 8 ∨ gs = []) ∧ Grouped gs

theorem grouped_concat (hfull : ∀ g ∈ gs, g.length = 8) (hne : g ≠ []) (hle : g.length ≤ 8) :
    Grouped (gs ++ [g]) := by
  induction gs with
  | nil => exact ⟨hne, hle, .inr rfl, trivial⟩
  | cons g' gs ih =>
    obtain ⟨h8, hfull⟩ := forall_mem_cons.mp hfull
    exact ⟨fun h => by simp [h] at h8, h8.le, .inl h8, ih hfull⟩

theorem decompressLoop_full (hfuel : 0 < fuel) (h : src.length ≤ sp ∨ rawsize ≤ out.length) :
    decompressLoop copyMatch src rawsize fuel sp out = some (some (sp, out)) := by
  obtain _ | fuel := fuel
  · omega
  rw [decompressLoop, if_neg (by omega)]

/-- The loop over the groups, likewise: every eight tokens take a byte more. -/
theorem decompressLoop_groups (hgs : Grouped gs) (hmem : src.drop sp ++ cut = groupBytes gs)
    (hroom : cut = [] ∨ sp + ((rawsize - out.length) * 9 + 7) / 8 + 2 ≤ src.length)
    (hfuel : src.length - sp < fuel) (hok : TokensOk gs.flatten out) (hraw : out.length ≤ rawsize) :
    ∃ sp', decompressLoop copyMatch src rawsize fuel sp out =
        some (some (sp', (expand gs.flatten out).take rawsize)) ∧
      ((expand gs.flatten out).length ≤ rawsize → sp' = sp + (groupBytes gs).length) := by
  induction gs generalizing fuel sp out with
  | nil =>
    have hsp : src.length ≤ sp := drop_eq_nil_iff.mp (append_eq_nil_iff.mp hmem).1
    refine ⟨sp, ?_, fun _ => rfl⟩
    rw [decompressLoop_full (by omega) (.inl hsp), flatten_nil, expand_nil, take_of_length_le hraw]
  | cons g gs ih =>
    obtain ⟨hne, hle, hlast, hgs⟩ := hgs
    rw [flatten_cons, tokensOk_append] at hok
    obtain ⟨hg, hok⟩ := hok
    have hgrow := length_payload hg
    have hmore := length_payload hok
    have hpos := length_pos_iff.mpr hne
    rw [flatten_cons, expand_append]
    rcases Nat.eq_or_lt_of_le hraw with heq | hlt
    · refine ⟨sp, ?_, fun h => by omega⟩
      rw [decompressLoop_full (by omega) (.inr heq.ge), ← expand_append, take_expand _ heq.ge,
        take_of_length_le hraw]
    · have hbytes : groupBytes (g :: gs) =
          UInt8.ofNat (controlByte g) :: (payload g ++ groupBytes gs) := by
        simp [groupBytes]
      rw [hbytes] at hmem ⊢
      have hin : sp < src.length := by
        by_contra hge
        rw [drop_eq_nil_of_le (by omega)] at hmem
        rcases hroom with rfl | hroom
        · cases hmem
        · omega
      rw [drop_eq_getElem_cons hin, cons_append, cons.injEq] at hmem
      obtain ⟨sp', hitems, hsp⟩ := decompressItems_group hmem.2 (hroom.imp_right (by omega)) hle
        (hlast.imp id fun h => by rw [h]; rfl) hg hraw
      obtain _ | fuel := fuel
      · omega
      rw [decompressLoop, if_pos ⟨hin, hlt⟩, getElem?_eq_getElem hin, getD_some, hmem.1,
        toNat_controlByte hle, hitems]
      simp only
      by_cases hfits : (expand g out).length ≤ rawsize
      · obtain rfl := hsp hfits
        obtain ⟨-, hnext⟩ := drop_of_cut hmem.2 (hroom.imp_right (by omega))
        have hroom' : cut = [] ∨ sp + 1 + (payload g).length +
            ((rawsize - (expand g out).length) * 9 + 7) / 8 + 2 ≤ src.length := by
          rcases hlast with h8 | rfl
          · exact hroom.imp_right (by omega)
          · exact .inl (append_eq_nil_iff.mp hnext).2
        have hfuel' : src.length - (sp + 1 + (payload g).length) < fuel := by omega
        obtain ⟨sp'', hloop, hsp'⟩ := ih hgs hnext hroom' hfuel' hok hfits
        refine ⟨sp'', by rw [take_of_length_le hfits, hloop], fun h => ?_⟩
        rw [hsp' h, length_cons, length_append]
        omega
      · refine ⟨sp', ?_, fun h => by omega⟩
        have hfuel' : 0 < fuel := by omega
        rw [take_expand gs.flatten (by omega),
          decompressLoop_full hfuel' (.inr (by rw [length_take]; omega))]

theorem decompressLoop_start (hgs : Grouped gs) (hok : TokensOk gs.flatten [])
    (hmem : src ++ cut = groupBytes gs)
    (hroom : cut = [] ∨ (rawsize * 9 + 7) / 8 + 2 ≤ src.length) :
    ∃ sp, decompressLoop copyMatch src rawsize (src.length + 1) 0 [] =
        some (some (sp, (expand gs.flatten []).take rawsize)) ∧
      ((expand gs.flatten []).length ≤ rawsize → sp = (groupBytes gs).length) := by
  have hmem' : src.drop 0 ++ cut = groupBytes gs := hmem
  simpa using decompressLoop_groups hgs hmem' (hroom.imp_right (by simp)) (Nat.lt_succ_self _) hok
    (Nat.zero_le rawsize)

/-! ## The output of the compressor -/

/-- The output after the tokens of the full groups `gs` and of the group `cur` that is being filled:
the place of its control byte holds anything as yet. -/
structure Filling (o : Output) (gs : List (List (Token UInt8)))
    (cur : List (Token UInt8)) : Prop where
  full : ∀ g ∈ gs, g.length = 8
  cur_le : cur.length ≤ 8
  bytes : ∃ x, o.bytes = groupBytes gs ++ x :: payload cur
  ctrlp : o.ctrlp = some (groupBytes gs).length
  ctrlb : o.ctrlb = controlByte cur
  ctrl : o.ctrl = 2^cur.length % 256

/-- The output of the tokens `ts`. -/
def OutputOf (o : Output) (ts : List (Token UInt8)) : Prop :=
  (o = ⟨[], none, 0, 0⟩ ∧ ts = []) ∨
    ∃ gs cur, Filling o gs cur ∧ cur ≠ [] ∧ ts = gs.flatten ++ cur

/-- Storing the control byte completes the last group. -/
theorem Filling.storeCtrl {gs : List (List (Token UInt8))} {cur : List (Token UInt8)}
    (h : Filling o gs cur) : o.storeCtrl = groupBytes (gs ++ [cur]) := by
  obtain ⟨x, hbytes⟩ := h.bytes
  unfold Output.storeCtrl
  rw [h.ctrlp, hbytes, h.ctrlb]
  simp [groupBytes]

theorem length_outCtrl (o : Output) : (outCtrl o).bytes.length ≤ o.bytes.length + 1 := by
  unfold outCtrl Output.storeCtrl
  split_ifs
  · cases o.ctrlp <;> simp
  · omega

/-- `pglz_out_ctrl` leaves a group with room for a token. -/
theorem outCtrl_spec (h : OutputOf o ts) :
    ∃ gs cur, Filling (outCtrl o) gs cur ∧ cur.length < 8 ∧ ts = gs.flatten ++ cur := by
  rcases h with ⟨rfl, rfl⟩ | ⟨gs, cur, hf, hcur, rfl⟩
  · refine ⟨[], [], ⟨by simp, by simp, ⟨0, rfl⟩, rfl, rfl, rfl⟩, by simp, rfl⟩
  · rcases lt_or_ge cur.length 8 with hlt | hge
    · -- The bit of the next token is still in the byte.
      have hctrl : o.ctrl &&& 0xff ≠ 0 := by
        have hall : ∀ n : Fin 8, 2^(n : ℕ) % 256 &&& 0xff ≠ 0 := by decide
        rw [hf.ctrl]
        exact hall ⟨cur.length, hlt⟩
      refine ⟨gs, cur, ?_, hlt, rfl⟩
      rw [outCtrl, if_neg hctrl]
      exact hf
    · have h8 : cur.length = 8 := le_antisymm hf.cur_le hge
      have hctrl : o.ctrl &&& 0xff = 0 := by
        rw [hf.ctrl, h8]
        decide
      refine ⟨gs ++ [cur], [], ?_, by simp, by simp⟩
      rw [outCtrl, if_pos hctrl]
      refine ⟨?_, by simp, ⟨0, ?_⟩, ?_, rfl, rfl⟩
      · exact forall_mem_append.mpr ⟨hf.full, forall_mem_singleton.mpr h8⟩
      · show o.storeCtrl ++ [0] = groupBytes (gs ++ [cur]) ++ [0]
        rw [hf.storeCtrl]
      · rw [hf.storeCtrl]

/-- A token. -/
theorem OutputOf.emit (h : OutputOf o ts) (t : Token UInt8) :
    OutputOf ⟨(outCtrl o).bytes ++ tokenBytes t, (outCtrl o).ctrlp,
      (outCtrl o).ctrlb ||| (outCtrl o).ctrl * controlBit t, (outCtrl o).ctrl <<< 1 % 256⟩
      (ts ++ [t]) := by
  obtain ⟨gs, cur, hf, hlt, rfl⟩ := outCtrl_spec h
  obtain ⟨x, hbytes⟩ := hf.bytes
  have hpow : 2^cur.length % 256 = 2^cur.length :=
    Nat.mod_eq_of_lt (Nat.pow_lt_pow_right (by omega) hlt)
  refine .inr ⟨gs, cur ++ [t], ⟨hf.full, ?_, ⟨x, ?_⟩, hf.ctrlp, ?_, ?_⟩, by simp, by simp⟩
  · rw [length_append]
    exact hlt
  · simp [hbytes, payload]
  · -- The new bit stands above the bits collected so far.
    have hor := Nat.two_pow_add_eq_or_of_lt (controlByte_lt cur) (controlBit t)
    rw [hf.ctrlb, hf.ctrl, hpow, Nat.or_comm, ← hor, add_comm, controlByte_concat]
  · rw [hf.ctrl, hpow, length_append, Nat.shiftLeft_eq]
    rfl

theorem outLiteral_spec (h : OutputOf o ts) (b : UInt8) :
    OutputOf (outLiteral o b) (ts ++ [.lit b]) := by
  simpa [outLiteral, tokenBytes, controlBit] using h.emit (.lit b)

theorem outTag_spec (h : OutputOf o ts) (len off : ℕ) :
    OutputOf (outTag o len off) (ts ++ [.ref len off]) := by
  simpa [outTag, tokenBytes, controlBit] using h.emit (.ref len off)

/-! ## Compressing -/

/-- The loop of `pglz_compress` ends, with at most four bytes more than it was allowed when the last
step began, and unless it gives up, its output is that of tokens whose text is the source. -/
theorem compressLoop_spec (widen : UInt8 → BitVec 32) {source : List UInt8} {pr : Params}
    (hmask : pr.mask = hashSize source.length - 1) {dp : ℕ} {h : History} (found : Bool)
    (hdp : dp ≤ source.length) (hfuel : source.length - dp < fuel)
    (hok : HistOk h (hashSize source.length) dp) (hout : OutputOf o ts) (htokens : TokensOk ts [])
    (htext : expand ts [] = source.take dp)
    (hsize : (o.bytes.length : ℤ) ≤ max 0 (pr.resultMax + 3)) :
    ∃ done o', compressLoop widen source pr fuel dp h o found = some (done, o') ∧
      (o'.bytes.length : ℤ) ≤ max 0 (pr.resultMax + 3) ∧
      (done = true → ∃ ts', OutputOf o' ts' ∧ TokensOk ts' [] ∧ expand ts' [] = source) := by
  induction fuel generalizing dp h o found ts with
  | zero => cases hfuel
  | succ fuel ih =>
    unfold compressLoop
    by_cases hmore : dp < source.length
    · rw [if_pos hmore]
      split
      · exact ⟨false, o, rfl, hsize, nofun⟩
      rename_i hmax
      split
      · exact ⟨false, o, rfl, hsize, nofun⟩
      have hadded : ∀ o' : Output, o'.bytes.length ≤ o.bytes.length + 4 →
          (o'.bytes.length : ℤ) ≤ max 0 (pr.resultMax + 3) := fun o' h => by omega
      rw [hmask]
      obtain ⟨result, hfind, hmatch⟩ :=
        findMatch_spec widen source hok hdp pr.goodMatch pr.goodDrop
      rw [hfind]
      have hlength : (source.take dp).length = dp := length_take_of_le hdp
      cases result with
      | none =>
        have hbyte : source[dp]?.getD 0 = source[dp] := by
          rw [getElem?_eq_getElem hmore]
          rfl
        refine ih found hmore (by omega) (histAdd_ok widen source hok)
          (outLiteral_spec hout _) ?_ ?_
          (hadded _ ?_)
        · exact (tokensOk_append _ _ _).mpr ⟨htokens, trivial, trivial⟩
        · rw [expand_append, htext, hbyte]
          exact take_concat_get' source dp hmore
        · have hctrl := length_outCtrl o
          rw [outLiteral, length_append, length_singleton]
          omega
      | some best =>
        obtain ⟨len, off⟩ := best
        obtain ⟨hlen, hm⟩ := hmatch len off rfl
        have ht : TokenOk (source.take dp) (.ref len off) :=
          ⟨hlen, hm.len_le, hm.off_pos, hm.off_lt, by rw [hlength]; exact hm.off_le⟩
        refine ih true hm.fits (by omega) (histAddMany_ok widen source len hok)
          (outTag_spec hout len off) ?_ ?_ (hadded _ ?_)
        · exact (tokensOk_append _ _ _).mpr ⟨htokens, htext ▸ ht, trivial⟩
        · rw [expand_append, htext]
          exact copyBack_take hm.off_pos hm.off_le hm.fits hm.same
        · have hctrl := length_outCtrl o
          have htag : (tagBytes len off).length ≤ 3 := (length_tokenBytes ht).2.1
          rw [outTag, length_append]
          omega
    · rw [if_neg hmore]
      refine ⟨true, o, rfl, hsize, fun _ => ⟨ts, hout, htokens, ?_⟩⟩
      rw [htext, take_of_length_le (by omega)]

theorem limitRate_range (rate : ℤ) : 0 ≤ limitRate 99 rate ∧ limitRate 99 rate ≤ 99 := by
  unfold limitRate
  split_ifs <;> omega

/-- The output is limited to the length of the source. -/
theorem resultMax_le (slen : ℕ) (rate : ℤ) : resultMax slen (limitRate 99 rate) ≤ slen := by
  have hrate := limitRate_range rate
  unfold resultMax
  generalize limitRate 99 rate = r at hrate
  split_ifs
  · rw [Int.tdiv_eq_ediv_of_nonneg (by omega)]
    have hq : (slen : ℤ) / 100 * (100 - r) ≤ (slen : ℤ) / 100 * 100 :=
      Int.mul_le_mul_of_nonneg_left (by omega) (by omega)
    omega
  · have hnonneg : 0 ≤ (slen : ℤ) * (100 - r) := Int.mul_nonneg (by omega) (by omega)
    have hle : (slen : ℤ) * (100 - r) ≤ slen * 100 :=
      Int.mul_le_mul_of_nonneg_left (by omega) (by omega)
    rw [Int.tdiv_eq_ediv_of_nonneg hnonneg]
    omega

/-- `pglz_compress` returns and has written at most four bytes more than the source has; when it
returns a size, there are fewer: those of groups of tokens whose text is the source. -/
theorem pglzCompress_spec (widen : UInt8 → BitVec 32) (static : History)
    (strategy : Option PGLZStrategy) (source : List UInt8) :
    ∃ result dest, pglzCompress widen static strategy source = some result ∧
      pglzCompressDest widen static strategy source = some dest ∧ dest.length ≤ source.length + 4 ∧
      ∀ out, result = some out → dest = out ∧ out.length < source.length ∧ ∃ gs, Grouped gs ∧
        out = groupBytes gs ∧ TokensOk gs.flatten [] ∧ expand gs.flatten [] = source := by
  unfold pglzCompress pglzCompressDest
  simp only
  split
  · exact ⟨none, [], rfl, rfl, Nat.zero_le _, nofun⟩
  have hhist : HistOk (initialHistory static source.length) (hashSize source.length) 0 :=
    histOk_init _ _ rfl rfl fun k hk => if_pos hk
  obtain ⟨pr, hpr, hmask, hmax⟩ : ∃ pr, pr = params source.length (strategy.getD strategyDefault) ∧
      pr.mask = hashSize source.length - 1 ∧ pr.resultMax ≤ source.length :=
    ⟨_, rfl, rfl, resultMax_le _ _⟩
  have hfuel : source.length - 0 < source.length + 1 := Nat.lt_succ_self _
  obtain ⟨done, o, hloop, hsize, hdone⟩ := compressLoop_spec widen hmask false
    (Nat.zero_le _) hfuel hhist (.inl ⟨rfl, rfl⟩) trivial rfl (le_max_left 0 _)
  have hstore : o.storeCtrl.length = o.bytes.length := by
    unfold Output.storeCtrl
    cases o.ctrlp <;> simp
  rw [← hpr, hloop]
  refine ⟨_, _, rfl, rfl, ?_, fun out hout => ?_⟩
  · cases done <;> simp <;> omega
  · cases done with
    | false => simp at hout
    | true =>
      simp only [if_true, true_and] at hout ⊢
      split_ifs at hout with hfull
      cases hout
      refine ⟨rfl, by omega, ?_⟩
      obtain ⟨ts, houtput, htokens, htext⟩ := hdone rfl
      rcases houtput with ⟨-, rfl⟩ | ⟨gs, cur, hf, hcur, rfl⟩
      · -- Without tokens the source is empty, and nothing is shorter.
        rw [← htext, expand_nil, length_nil] at hmax
        omega
      · refine ⟨gs ++ [cur], grouped_concat hf.full hcur hf.cur_le, hf.storeCtrl, ?_, ?_⟩ <;>
          simpa

/-- The round trip. On every source, with every strategy and whatever an earlier call has left in
the history table, `pglz_compress` returns; and when it returns a size, the output is shorter than
the source and `pglz_decompress` gives the source back. -/
theorem pglz_round_trip (widen : UInt8 → BitVec 32) (static : History)
    (strategy : Option PGLZStrategy)
    (source : List UInt8) :
    ∃ result, pglzCompress widen static strategy source = some result ∧
      ∀ out, result = some out → out.length < source.length ∧
        pglzDecompress out source.length true = some (some source) := by
  obtain ⟨result, _, hresult, -, -, hspec⟩ := pglzCompress_spec widen static strategy source
  refine ⟨result, hresult, fun out hout => ?_⟩
  obtain ⟨-, hlen, gs, hgs, rfl, hok, rfl⟩ := hspec out hout
  obtain ⟨sp, hloop, hsp⟩ := decompressLoop_start hgs hok (append_nil _) (.inl rfl)
  refine ⟨hlen, ?_⟩
  rw [pglzDecompress, hloop, hsp le_rfl]
  simp

/-- A run of one character is compressed to a literal and a tag with an overlapping match. -/
theorem pglzCompress_run : pglzCompress (fun b => (BitVec.ofNat 8 b.toNat).signExtend 32)
    ⟨fun _ => 7, fun _ => ⟨3, some 5, 2, 9⟩, 4, true⟩ (some strategyAlways) (replicate 20 97) =
      some (some [2, 97, 15, 1, 1]) := by
  decide +kernel

theorem pglz_round_trip_run : ∃ out,
    pglzCompress (fun b => (BitVec.ofNat 8 b.toNat).signExtend 32)
      ⟨fun _ => 7, fun _ => ⟨3, some 5, 2, 9⟩, 4, true⟩
        (some strategyAlways) (replicate 20 97) = some (some out) ∧
      out = [2, 97, 15, 1, 1] ∧ pglzDecompress out 20 true = some (some (replicate 20 97)) := by
  obtain ⟨result, hcompress, hresult⟩ := pglz_round_trip
    (fun b => (BitVec.ofNat 8 b.toNat).signExtend 32)
      ⟨fun _ => 7, fun _ => ⟨3, some 5, 2, 9⟩, 4, true⟩
    (some strategyAlways) (replicate 20 97)
  rw [pglzCompress_run, some.injEq] at hcompress
  exact ⟨_, pglzCompress_run, rfl, (hresult _ hcompress.symm).2⟩

/-! ## Slices -/

/-- `pglz_maximum_compressed_size`. -/
def pglzMaximumCompressedSize (rawsize totalCompressedSize : ℕ) : ℕ :=
  min ((rawsize * 9 + 7) / 8 + 2) totalCompressedSize

/-- **Slices:** of what `pglz_compress` has written, the first `pglz_maximum_compressed_size` bytes
are enough to decompress the first `k` bytes of the source. -/
theorem pglz_slice (widen : UInt8 → BitVec 32) (static : History) (strategy : Option PGLZStrategy)
    (source out : List UInt8) (k : ℕ)
    (hout : pglzCompress widen static strategy source = some (some out)) (hk : k ≤ source.length) :
    pglzDecompress (out.take (pglzMaximumCompressedSize k out.length)) k false =
        some (some (source.take k)) ∧ (source.take k).length = k := by
  obtain ⟨result, _, hresult, -, -, hspec⟩ := pglzCompress_spec widen static strategy source
  obtain ⟨-, -, gs, hgs, rfl, hok, rfl⟩ := hspec out (some.inj (hresult.symm.trans hout))
  obtain ⟨m, hm⟩ : ∃ m, m = pglzMaximumCompressedSize k (groupBytes gs).length := ⟨_, rfl⟩
  have hroom : (groupBytes gs).drop m = [] ∨
      (k * 9 + 7) / 8 + 2 ≤ ((groupBytes gs).take m).length := by
    rw [pglzMaximumCompressedSize] at hm
    rw [drop_eq_nil_iff, length_take]
    omega
  obtain ⟨sp, hloop, -⟩ := decompressLoop_start hgs hok (take_append_drop m _) hroom
  refine ⟨?_, length_take_of_le hk⟩
  rw [← hm, pglzDecompress, hloop]
  rfl

/-- The first byte of the run is read from four bytes, which end in the middle of the tag. -/
theorem pglz_slice_run : (20 : ℕ) = (replicate 20 (97 : UInt8)).length ∧
    pglzDecompress [2, 97, 15, 1] 1 false = some (some [97]) :=
  ⟨rfl, (pglz_slice _ _ _ _ _ 1 pglzCompress_run (by decide)).1⟩

end PgAutoIndex.Common
