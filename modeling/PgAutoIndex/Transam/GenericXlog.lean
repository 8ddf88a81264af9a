import Mathlib.Data.Nat.Basic
import PgAutoIndex.Port

/-!
# Generic WAL records

The model of `access/transam/generic_xlog.c`. `GenericXLogFinish` replaces a page by a new image,
with the hole between `pd_lower` and `pd_upper` set to zero, and logs a delta: fragments of the new
image, each with its offset and its length. `generic_redo` copies the fragments into the page and
zeroes the hole.
-/

namespace PgAutoIndex.Transam

open Option
open List hiding length
open Bytes (le16 word16 scanWhile)

/-! ## Pages -/

/-- A page is `BLCKSZ` bytes. -/
abbrev Page := Fin BLCKSZ → UInt8

namespace Page

/-- The byte of a page at an offset. -/
def byteAt (page : Page) (i : ℕ) : UInt8 := if h : i < BLCKSZ then page ⟨i, h⟩ else 0

/-- The field `pd_lower` of the page header, the start of the hole. -/
def pdLower (page : Page) : ℕ := (page.byteAt 12).toNat + 256 * (page.byteAt 13).toNat

/-- The field `pd_upper` of the page header, the end of the hole. -/
def pdUpper (page : Page) : ℕ := (page.byteAt 14).toNat + 256 * (page.byteAt 15).toNat

/-- The bytes of a page from an offset on. -/
def slice (page : Page) (offset length : ℕ) : List UInt8 :=
  (range length).map fun k => page.byteAt (offset + k)

/-- `memcpy(page + offset, data, length of data)`. -/
def memcpy (page : Page) (offset : ℕ) (data : List UInt8) : Page := fun i =>
  if offset ≤ i ∧ i < offset + data.length then data.getD (i - offset) 0 else page i

/-- `memset(page + offset, 0, length)`. -/
def memset0 (page : Page) (offset length : ℕ) : Page := fun i =>
  if offset ≤ i ∧ i < offset + length then 0 else page i

end Page

/-! ## The delta of two pages -/

/-- `FRAGMENT_HEADER_SIZE`, which is also `MATCH_THRESHOLD`. -/
def fragmentHeaderSize : ℕ := 4

/-- `MAX_DELTA_SIZE`. -/
def maxDeltaSize : ℕ := BLCKSZ + 2 * fragmentHeaderSize

/-- `writeFragment`: append a fragment of the target page to the delta. Offset and length are cut to
16 bits. -/
def writeFragment (target : Page) (offset length : ℕ) (delta : List UInt8) : List UInt8 :=
  delta ++ (le16 offset ++ le16 length ++ target.slice offset (length % 2^16))

/-- Where the unmatched bytes from `i` on end, at the latest at `loopEnd`. -/
def unmatchedEnd (cur target : Page) (loopEnd i : ℕ) : ℕ :=
  if cur.byteAt i ≠ target.byteAt i then
    scanWhile (fun k => decide (cur.byteAt k ≠ target.byteAt k)) loopEnd (i + 1)
  else i

/-- Where the matched bytes after the matched byte `i` end. -/
def matchedEnd (cur target : Page) (loopEnd i : ℕ) : ℕ :=
  scanWhile (fun k => decide (cur.byteAt k = target.byteAt k)) loopEnd (i + 1)

theorem le_unmatchedEnd (cur target : Page) (loopEnd i : ℕ) :
    i ≤ unmatchedEnd cur target loopEnd i := by
  unfold unmatchedEnd
  split
  · exact Nat.le_of_succ_le (Bytes.le_scanWhile _ loopEnd (i + 1))
  · exact le_rfl

theorem lt_matchedEnd (cur target : Page) (loopEnd i : ℕ) : i < matchedEnd cur target loopEnd i :=
  Bytes.le_scanWhile _ loopEnd (i + 1)

/-- The main loop of `computeRegionDelta`. It returns `fragmentBegin` and `fragmentEnd`, with `none`
for -1, and the delta. -/
def matchLoop (cur target : Page) (loopEnd i : ℕ) (fragmentBegin fragmentEnd : Option ℕ)
    (delta : List UInt8) : Option ℕ × Option ℕ × List UInt8 :=
  if i < loopEnd then
    -- on an unmatched byte, start a fragment if not in one, and extend it
    let fragmentBegin :=
      if cur.byteAt i ≠ target.byteAt i then some (fragmentBegin.getD i) else fragmentBegin
    let matched := unmatchedEnd cur target loopEnd i
    if loopEnd ≤ matched then (fragmentBegin, none, delta)
    else
      -- the unmatched bytes end here; extend the match
      let next := matchedEnd cur target loopEnd matched
      match fragmentBegin with
      | none => matchLoop cur target loopEnd next none (some matched) delta
      | some start =>
        if next - matched > fragmentHeaderSize then
          matchLoop cur target loopEnd next none none
            (writeFragment target start (matched - start) delta)
        else matchLoop cur target loopEnd next (some start) (some matched) delta
  else (fragmentBegin, fragmentEnd, delta)
termination_by loopEnd - i
decreasing_by
  all_goals
    have hle := le_unmatchedEnd cur target loopEnd i
    have hlt := lt_matchedEnd cur target loopEnd (unmatchedEnd cur target loopEnd i)
    omega

/-- The end of `computeRegionDelta`: an invalid end region is included in the final fragment, and
the fragment is written. -/
def writeFinalFragment (target : Page) (loopEnd targetEnd : ℕ)
    (fragmentBegin fragmentEnd : Option ℕ)
    (delta : List UInt8) : List UInt8 :=
  let fragmentBegin :=
    if loopEnd < targetEnd then some (fragmentBegin.getD loopEnd) else fragmentBegin
  let fragmentEnd := if loopEnd < targetEnd then some targetEnd else fragmentEnd
  match fragmentBegin with
  | none => delta
  | some start => writeFragment target start (fragmentEnd.getD targetEnd - start) delta

/-- `computeRegionDelta`. -/
def computeRegionDelta (cur target : Page) (targetStart targetEnd validStart validEnd : ℕ)
    (delta : List UInt8) : List UInt8 :=
  let loopEnd := min targetEnd validEnd
  -- an invalid start region is included in the first fragment
  let (fragmentBegin, fragmentEnd, delta) :=
    if validStart > targetStart then
      matchLoop cur target loopEnd validStart (some targetStart) none delta
    else matchLoop cur target loopEnd targetStart none none delta
  writeFinalFragment target loopEnd targetEnd fragmentBegin fragmentEnd delta

/-- `computeDelta`: the delta of the parts below and above the hole. -/
def computeDelta (cur target : Page) : List UInt8 :=
  computeRegionDelta cur target target.pdUpper BLCKSZ cur.pdUpper BLCKSZ
    (computeRegionDelta cur target 0 target.pdLower 0 cur.pdLower [])

/-- What `GenericXLogFinish` does to the page of a logged relation. -/
def genericXLogFinish (page image : Page) : Page :=
  let page := page.memcpy 0 (image.slice 0 image.pdLower)
  let page := page.memset0 image.pdLower (image.pdUpper - image.pdLower)
  page.memcpy image.pdUpper (image.slice image.pdUpper (BLCKSZ - image.pdUpper))

/-! ## Redo -/

/-- The loop of `applyPageRedo`. It fails where the code would read past the delta or write past the
page. -/
def applyFragments (delta : List UInt8) : ℕ → ℕ → Page → Option Page
  | fuel, ptr, page =>
    if ptr < delta.length then
      match fuel with
      | 0 => none
      | fuel + 1 => do
        let offset ← word16 delta ptr
        let length ← word16 delta (ptr + 2)
        if ptr + 4 + length ≤ delta.length ∧ offset + length ≤ BLCKSZ then
          applyFragments delta fuel (ptr + 4 + length)
            (page.memcpy offset ((delta.drop (ptr + 4)).take length))
        else none
    else some page

/-- `applyPageRedo`. -/
def applyPageRedo (page : Page) (delta : List UInt8) : Option Page :=
  applyFragments delta delta.length 0 page

/-- What `generic_redo` does to a page that needs redo. A hole of negative length is a failure. -/
def genericRedo (page : Page) (delta : List UInt8) : Option Page := do
  let page ← applyPageRedo page delta
  if page.pdLower ≤ page.pdUpper then
    some (page.memset0 page.pdLower (page.pdUpper - page.pdLower))
  else none

/-! ## Fragments -/

/-- The bytes of a fragment with this offset and length. -/
def fragmentBytes (target : Page) (fragment : ℕ × ℕ) : List UInt8 :=
  le16 fragment.1 ++ le16 fragment.2 ++ target.slice fragment.1 (fragment.2 % 2^16)

/-- The offset lies in one of the fragments. -/
def Covers (fragments : List (ℕ × ℕ)) (x : ℕ) : Prop :=
  ∃ fragment ∈ fragments, fragment.1 ≤ x ∧ x < fragment.1 + fragment.2

theorem length_slice (page : Page) (offset length : ℕ) :
    (page.slice offset length).length = length := by
  simp [Page.slice]

theorem length_fragmentBytes (target : Page) (fragment : ℕ × ℕ) :
    (fragmentBytes target fragment).length = 4 + fragment.2 % 2^16 := by
  simp only [fragmentBytes, length_append, Bytes.length_le16, length_slice]

/-- Copying a slice of a page to the place it is from. -/
theorem memcpy_slice (page target : Page) (offset length : ℕ) (i : Fin BLCKSZ) :
    page.memcpy offset (target.slice offset length) i =
      if offset ≤ i ∧ (i : ℕ) < offset + length then target i else page i := by
  unfold Page.memcpy
  rw [length_slice]
  split
  · rename_i hi
    have hlt : (i : ℕ) - offset < length := by omega
    have hsum : offset + ((i : ℕ) - offset) = i := by omega
    simp [Page.slice, getD_eq_getElem?_getD, hlt, hsum, Page.byteAt]
  · rfl

/-- Redo of fragments of the target page: it copies what they cover and leaves the rest. -/
theorem applyFragments_spec (target page : Page) (delta : List UInt8) (fuel ptr : ℕ)
    (fragments : List (ℕ × ℕ)) (hin : ∀ f ∈ fragments, f.1 + f.2 ≤ BLCKSZ)
    (hdelta : delta.drop ptr = fragments.flatMap (fragmentBytes target))
    (hfuel : fragments.length ≤ fuel) :
    ∃ page', applyFragments delta fuel ptr page = some page' ∧
      ∀ i : Fin BLCKSZ, Covers fragments i ∧ page' i = target i ∨
        ¬ Covers fragments i ∧ page' i = page i := by
  induction fragments generalizing page fuel ptr with
  | nil =>
    have hend : ¬ ptr < delta.length := by
      intro hlt
      simp only [flatMap_nil, drop_eq_nil_iff] at hdelta
      omega
    exact ⟨page, by unfold applyFragments; rw [if_neg hend], fun i => .inr ⟨nofun, rfl⟩⟩
  | cons f rest ih =>
    obtain ⟨offset, length⟩ := f
    obtain ⟨hoffset, hin⟩ := forall_mem_cons.mp hin
    have hsmall : BLCKSZ < 2^16 := by decide
    have hlength : length % 2^16 = length := Nat.mod_eq_of_lt (by omega)
    obtain ⟨fuel, rfl⟩ : ∃ n, fuel = n + 1 := ⟨fuel - 1, by simp at hfuel; omega⟩
    rw [flatMap_cons, fragmentBytes, hlength, append_assoc, append_assoc] at hdelta
    have hdelta2 : delta.drop (ptr + 2) = _ := Bytes.drop_add_of_drop hdelta
    have hdelta4 : delta.drop (ptr + 4) = _ := Bytes.drop_add_of_drop hdelta2
    have hrest := Bytes.drop_add_of_drop hdelta4
    rw [length_slice] at hrest
    have hroom : ptr + 4 + length ≤ delta.length := by
      have h := congrArg List.length hdelta4
      rw [length_drop, length_append, length_slice] at h
      have h4 := congrArg List.length hdelta
      simp only [length_drop, length_append, Bytes.length_le16] at h4
      omega
    have hdata : (delta.drop (ptr + 4)).take length = target.slice offset length := by
      rw [hdelta4]
      exact take_left' (length_slice target offset length)
    obtain ⟨page', happly, hpage'⟩ := ih (page.memcpy offset (target.slice offset length)) fuel
      (ptr + 4 + length) hin hrest (by simpa using hfuel)
    refine ⟨page', ?_, fun i => ?_⟩
    · rw [applyFragments, if_pos (by omega)]
      simp only [Bytes.word16_of_drop hdelta, Bytes.word16_of_drop hdelta2,
        Nat.mod_eq_of_lt (show offset < 2^16 by omega), hlength, hdata, bind_eq_bind,
        bind_some, if_pos (And.intro hroom hoffset), happly]
    · have hcons : Covers ((offset, length) :: rest) i ↔
          (offset ≤ i ∧ (i : ℕ) < offset + length) ∨ Covers rest i := by
        simp [Covers]
      rw [hcons]
      rcases hpage' i with ⟨hc, hp⟩ | ⟨hc, hp⟩
      · exact .inl ⟨.inr hc, hp⟩
      · rw [memcpy_slice] at hp
        split_ifs at hp with h
        · exact .inl ⟨.inl h, hp⟩
        · exact .inr ⟨not_or.mpr ⟨h, hc⟩, hp⟩

/-! ## The fragments of a region -/

/-- The current page has a valid byte at this offset, and it is the target's. -/
def Agrees (cur target : Page) (validStart validEnd x : ℕ) : Prop :=
  validStart ≤ x ∧ x < validEnd ∧ cur.byteAt x = target.byteAt x

/-- Every offset of the region before `b` agrees or is covered. -/
def CoveredTo (cur target : Page) (targetStart validStart validEnd : ℕ) (fragments : List (ℕ × ℕ))
    (b : ℕ) : Prop :=
  ∀ x, targetStart ≤ x → x < b → Agrees cur target validStart validEnd x ∨ Covers fragments x

/-- The fragments of a region: they lie in it, every offset of it agrees or is covered, and with one
header to spare they take no more bytes than the region has. -/
structure RegionOk (cur target : Page) (targetStart targetEnd validStart validEnd : ℕ)
    (fragments : List (ℕ × ℕ)) : Prop where
  within : ∀ f ∈ fragments, f.1 + f.2 ≤ targetEnd
  covered : CoveredTo cur target targetStart validStart validEnd fragments targetEnd
  size : (fragments.flatMap (fragmentBytes target)).length ≤
    targetEnd - targetStart + fragmentHeaderSize

/-- What holds in the main loop at index `i`: up to the pending fragment, or up to `i` if there is
none, every offset agrees or is covered by the fragments written, which take no more bytes than the
offsets they stand for; and behind `fragmentEnd` all offsets agree. -/
structure RegionInv (cur target : Page) (targetStart loopEnd validStart validEnd i : ℕ)
    (fragmentBegin fragmentEnd : Option ℕ) (fragments : List (ℕ × ℕ)) : Prop where
  valid : validStart ≤ i
  within : ∀ f ∈ fragments, f.1 + f.2 ≤ loopEnd
  covered : ∀ x, targetStart ≤ x → x < fragmentBegin.getD (min i loopEnd) →
    Agrees cur target validStart validEnd x ∨ Covers fragments x
  size : (fragments.flatMap (fragmentBytes target)).length ≤
    fragmentBegin.getD (min i loopEnd) - targetStart
  pending : ∀ b ∈ fragmentBegin, targetStart ≤ b ∧ b ≤ i ∧ (b = targetStart ∨ b < loopEnd)
  matched : ∀ e ∈ fragmentEnd, fragmentBegin.getD e ≤ e ∧ e < loopEnd ∧
    ∀ x, e ≤ x → x < min i loopEnd → Agrees cur target validStart validEnd x

section

variable {cur target : Page} {targetStart targetEnd loopEnd validStart validEnd i : ℕ}
  {fragmentBegin fragmentEnd : Option ℕ} {fragments : List (ℕ × ℕ)}

theorem byteAt_unmatchedEnd
    (h : unmatchedEnd cur target loopEnd i < loopEnd) :
    cur.byteAt (unmatchedEnd cur target loopEnd i) =
      target.byteAt (unmatchedEnd cur target loopEnd i) := by
  unfold unmatchedEnd at h ⊢
  split at h
  · rename_i hne
    rw [if_pos hne]
    simpa using Bytes.eq_false_of_scanWhile_lt h
  · rename_i heq
    rw [if_neg heq]
    simpa using heq

theorem matchedEnd_le (cur target : Page) (hi : i < loopEnd) :
    matchedEnd cur target loopEnd i ≤ loopEnd :=
  Bytes.scanWhile_le hi

/-- A fragment pending at `b`, written up to the matched offset `m`. -/
theorem CoveredTo.append {b m : ℕ}
    (hcov : CoveredTo cur target targetStart validStart validEnd fragments b) :
    CoveredTo cur target targetStart validStart validEnd (fragments ++ [(b, m - b)]) m := by
  intro x hx hlt
  by_cases hb : x < b
  · exact (hcov x hx hb).imp_right fun ⟨f, hf, hin⟩ => ⟨f, mem_append_left _ hf, hin⟩
  · exact .inr ⟨(b, m - b), mem_concat_self, by dsimp only; omega⟩

theorem length_flatMap_append (target : Page) (fragments : List (ℕ × ℕ)) (b len : ℕ) :
    ((fragments ++ [(b, len)]).flatMap (fragmentBytes target)).length ≤
      (fragments.flatMap (fragmentBytes target)).length + fragmentHeaderSize + len := by
  rw [flatMap_append, length_append, flatMap_singleton, length_fragmentBytes,
    fragmentHeaderSize]
  omega

theorem writeFragment_flatMap (target : Page) (b len : ℕ) (delta : List UInt8)
    (fragments : List (ℕ × ℕ)) :
    writeFragment target b len (delta ++ fragments.flatMap (fragmentBytes target)) =
      delta ++ (fragments ++ [(b, len)]).flatMap (fragmentBytes target) := by
  simp [writeFragment, fragmentBytes]

namespace RegionInv

/-- Over unmatched bytes the fragment is extended. -/
theorem unmatched (h : RegionInv cur target targetStart loopEnd validStart validEnd i fragmentBegin
      fragmentEnd fragments) (hi : i < loopEnd) (hs : targetStart ≤ i) :
    RegionInv cur target targetStart loopEnd validStart validEnd (unmatchedEnd cur target loopEnd i)
      (if cur.byteAt i ≠ target.byteAt i then some (fragmentBegin.getD i) else fragmentBegin)
      none fragments := by
  have hle := le_unmatchedEnd cur target loopEnd i
  have hmin : min i loopEnd = i := Nat.min_eq_left hi.le
  have hcov := h.covered
  have hsize := h.size
  rw [hmin] at hcov hsize
  split_ifs with hne
  · refine ⟨h.valid.trans hle, h.within, hcov, hsize, ?_, by simp⟩
    rintro b ⟨⟩
    cases hb : fragmentBegin with
    | none => exact ⟨hs, hle, Or.inr hi⟩
    | some b =>
      obtain ⟨hsb, hbi, hor⟩ := h.pending b hb
      exact ⟨hsb, hbi.trans hle, hor⟩
  · rw [unmatchedEnd, if_neg hne]
    exact { h with matched := nofun }

variable (h : RegionInv cur target targetStart loopEnd validStart validEnd i fragmentBegin none
    fragments) (hi : i < loopEnd) (hvalid : loopEnd ≤ validEnd)
  (hbyte : cur.byteAt i = target.byteAt i)

include h hvalid hbyte

theorem agrees_of_lt_matchedEnd (x : ℕ) (hle : i ≤ x)
    (hlt : x < min (matchedEnd cur target loopEnd i) loopEnd) :
    Agrees cur target validStart validEnd x := by
  obtain ⟨hlt, hend⟩ := Nat.lt_min.mp hlt
  refine ⟨h.valid.trans hle, hend.trans_le hvalid, ?_⟩
  rcases Nat.eq_or_lt_of_le hle with rfl | hle
  · exact hbyte
  · simpa using Bytes.of_lt_scanWhile hle hlt

include hi

/-- Over matched bytes nothing is written, and the pending fragment may end where they begin. -/
theorem matched_keep :
    RegionInv cur target targetStart loopEnd validStart validEnd (matchedEnd cur target loopEnd i)
      fragmentBegin (some i) fragments := by
  have hlt := lt_matchedEnd cur target loopEnd i
  have hle := matchedEnd_le cur target hi
  have hagrees := h.agrees_of_lt_matchedEnd hvalid hbyte
  have hvalid' := h.valid.trans hlt.le
  cases fragmentBegin with
  | some b =>
    obtain ⟨hsb, hbi, hor⟩ := h.pending b rfl
    refine ⟨hvalid', h.within, h.covered, h.size, ?_, ?_⟩
    · rintro _ ⟨⟩
      exact ⟨hsb, hbi.trans hlt.le, hor⟩
    · rintro _ ⟨⟩
      exact ⟨hbi, hi, hagrees⟩
  | none =>
    have hcov := h.covered
    have hsize := h.size
    rw [getD_none, Nat.min_eq_left hi.le] at hcov hsize
    refine ⟨hvalid', h.within, fun x hx hxlt => ?_, ?_, nofun, ?_⟩
    · rcases lt_or_ge x i with hxi | hxi
      · exact hcov x hx hxi
      · exact Or.inl (hagrees x hxi hxlt)
    · rw [getD_none]
      omega
    · rintro _ ⟨⟩
      exact ⟨le_rfl, hi, hagrees⟩

/-- After more matched bytes than a fragment header has, the pending fragment is written: its header
is paid for by the matched bytes. -/
theorem matched_write (b : ℕ) (hb : fragmentBegin = some b)
    (hlong : fragmentHeaderSize < matchedEnd cur target loopEnd i - i) :
    RegionInv cur target targetStart loopEnd validStart validEnd (matchedEnd cur target loopEnd i)
      none none (fragments ++ [(b, i - b)]) := by
  have hle := matchedEnd_le cur target hi
  have hagrees := h.agrees_of_lt_matchedEnd hvalid hbyte
  obtain ⟨hsb, hbi, -⟩ := h.pending b hb
  have hcov := h.covered
  have hsize := h.size
  rw [hb] at hcov hsize
  simp only [getD_some] at hcov hsize
  refine ⟨h.valid.trans (by omega), ?_, ?_, ?_, by simp, by simp⟩
  · refine forall_mem_append.mpr ⟨h.within, forall_mem_singleton.mpr ?_⟩
    omega
  · intro x hx hxlt
    rcases lt_or_ge x i with hxi | hxi
    · exact CoveredTo.append hcov x hx hxi
    · exact Or.inl (hagrees x hxi hxlt)
  · have happend := length_flatMap_append target fragments b (i - b)
    simp only [getD_none, Nat.min_eq_left hle]
    omega

end RegionInv

/-- The main loop keeps the invariant up to its end. -/
theorem matchLoop_spec (delta : List UInt8)
    (hvalid : loopEnd ≤ validEnd) (hs : targetStart ≤ i)
    (h : RegionInv cur target targetStart loopEnd validStart validEnd i fragmentBegin fragmentEnd
      fragments) :
    ∃ i' fragmentBegin' fragmentEnd' fragments', loopEnd ≤ i' ∧
      matchLoop cur target loopEnd i fragmentBegin fragmentEnd
          (delta ++ fragments.flatMap (fragmentBytes target)) =
        (fragmentBegin', fragmentEnd', delta ++ fragments'.flatMap (fragmentBytes target)) ∧
      RegionInv cur target targetStart loopEnd validStart validEnd i' fragmentBegin' fragmentEnd'
        fragments' := by
  induction hn : loopEnd - i using Nat.strongRecOn generalizing i fragmentBegin
    fragmentEnd fragments
    with
  | ind n ih =>
    by_cases hi : i < loopEnd
    · have hm := le_unmatchedEnd cur target loopEnd i
      have hnext := lt_matchedEnd cur target loopEnd (unmatchedEnd cur target loopEnd i)
      have h := h.unmatched hi hs
      rw [matchLoop, if_pos hi]
      generalize (if cur.byteAt i ≠ target.byteAt i then some (fragmentBegin.getD i)
        else fragmentBegin) = start at h ⊢
      by_cases hend : loopEnd ≤ unmatchedEnd cur target loopEnd i
      · -- the unmatched bytes reach the end of the loop
        rw [if_pos hend]
        exact ⟨_, _, _, _, hend, rfl, h⟩
      · rw [if_neg hend]
        have hmlt : unmatchedEnd cur target loopEnd i < loopEnd := by omega
        have hbyte := byteAt_unmatchedEnd hmlt
        have hkeep := h.matched_keep hmlt hvalid hbyte
        cases start with
        | none => exact ih _ (by omega) (by omega) hkeep rfl
        | some b =>
          dsimp only
          split_ifs with hlong
          · rw [writeFragment_flatMap]
            exact ih _ (by omega) (by omega)
              (h.matched_write hmlt hvalid hbyte b rfl hlong) rfl
          · exact ih _ (by omega) (by omega) hkeep rfl
    · rw [matchLoop, if_neg hi]
      exact ⟨_, _, _, _, by omega, rfl, h⟩

/-- Writing the final fragment completes the region. -/
theorem writeFinalFragment_spec
    (h : RegionInv cur target targetStart loopEnd validStart validEnd i fragmentBegin fragmentEnd
      fragments)
    (hi : loopEnd ≤ i) (hle : targetStart ≤ loopEnd) (hend : loopEnd ≤ targetEnd)
    (delta : List UInt8) :
    ∃ fragments', writeFinalFragment target loopEnd targetEnd fragmentBegin fragmentEnd
          (delta ++ fragments.flatMap (fragmentBytes target)) =
        delta ++ fragments'.flatMap (fragmentBytes target) ∧
      RegionOk cur target targetStart targetEnd validStart validEnd fragments' := by
  have hcov := h.covered
  have hsize := h.size
  have hwithin := h.within
  rw [Nat.min_eq_right hi] at hcov hsize
  obtain ⟨hsb, hbe⟩ : targetStart ≤ fragmentBegin.getD loopEnd ∧
      fragmentBegin.getD loopEnd ≤ loopEnd := by
    cases hb : fragmentBegin with
    | none => exact ⟨hle, le_rfl⟩
    | some b =>
      obtain ⟨hsb, -, hor⟩ := h.pending b hb
      rw [getD_some]
      omega
  -- a fragment from `b` up to `e`, behind which all agrees
  have hwrite : ∀ b e : ℕ, b ≤ e → e ≤ targetEnd → targetStart ≤ b →
      CoveredTo cur target targetStart validStart validEnd fragments b →
      (∀ x, e ≤ x → x < targetEnd → Agrees cur target validStart validEnd x) →
      (fragments.flatMap (fragmentBytes target)).length ≤ b - targetStart →
      RegionOk cur target targetStart targetEnd validStart validEnd
        (fragments ++ [(b, e - b)]) := by
    intro b e hbe he hsb hbefore hbehind hlen
    have happend := length_flatMap_append target fragments b (e - b)
    refine ⟨?_, ?_, by omega⟩
    · refine forall_mem_append.mpr ⟨fun f hf => (hwithin f hf).trans hend,
        forall_mem_singleton.mpr ?_⟩
      omega
    · intro x hx hlt
      by_cases hxe : x < e
      · exact hbefore.append x hx hxe
      · exact Or.inl (hbehind x (by omega) hlt)
  unfold writeFinalFragment
  by_cases hinvalid : loopEnd < targetEnd
  · simp only [if_pos hinvalid, getD_some, writeFragment_flatMap]
    exact ⟨_, rfl, hwrite _ targetEnd (hbe.trans hend) le_rfl hsb hcov (by omega) hsize⟩
  · obtain rfl : loopEnd = targetEnd := by omega
    simp only [if_neg hinvalid]
    cases hb : fragmentBegin with
    | none =>
      rw [hb] at hcov hsize
      exact ⟨fragments, rfl, hwithin, hcov, hsize.trans (Nat.le_add_right _ _)⟩
    | some b =>
      rw [hb] at hcov hsize hsb hbe
      simp only [writeFragment_flatMap]
      cases he : fragmentEnd with
      | none => exact ⟨_, rfl, hwrite b loopEnd hbe le_rfl hsb hcov (by omega) hsize⟩
      | some e =>
        obtain ⟨hbe, hlt, hagrees⟩ := h.matched e he
        rw [hb, getD_some] at hbe
        rw [Nat.min_eq_right hi] at hagrees
        exact ⟨_, rfl, hwrite b e hbe hlt.le hsb hcov hagrees hsize⟩

theorem computeRegionDelta_spec (cur target : Page) (validStart : ℕ) (delta : List UInt8)
    (hle : targetStart ≤ targetEnd) (hve : targetStart ≤ validEnd) :
    ∃ fragments, computeRegionDelta cur target targetStart targetEnd validStart validEnd delta =
        delta ++ fragments.flatMap (fragmentBytes target) ∧
      RegionOk cur target targetStart targetEnd validStart validEnd fragments := by
  have hloopEnd : min targetEnd validEnd ≤ targetEnd := Nat.min_le_left _ _
  have hvalid : min targetEnd validEnd ≤ validEnd := Nat.min_le_right _ _
  have hstart : targetStart ≤ min targetEnd validEnd := Nat.le_min.mpr ⟨hle, hve⟩
  unfold computeRegionDelta
  generalize min targetEnd validEnd = loopEnd at *
  obtain ⟨i, start, stop, fragments, hi, heq, h⟩ :
      ∃ i start stop fragments, loopEnd ≤ i ∧
        (if validStart > targetStart then matchLoop cur target loopEnd validStart
          (some targetStart) none delta
        else matchLoop cur target loopEnd targetStart none none delta) =
          (start, stop, delta ++ fragments.flatMap (fragmentBytes target)) ∧
        RegionInv cur target targetStart loopEnd validStart validEnd i start stop fragments := by
    split_ifs with hstart
    · have hinit : RegionInv cur target targetStart loopEnd validStart validEnd validStart
          (some targetStart) none [] :=
        ⟨le_rfl, by simp, fun x hx hlt => absurd hlt (by simpa using hx), by simp,
          by simpa using hstart.le, by simp⟩
      simpa using matchLoop_spec delta hvalid hstart.le hinit
    · have hinit : RegionInv cur target targetStart loopEnd validStart validEnd targetStart
          none none [] :=
        ⟨by omega, by simp, fun x hx hlt => by simp at hlt; omega, by simp, by simp, by simp⟩
      simpa using matchLoop_spec delta hvalid (le_rfl) hinit
  dsimp only
  rw [heq]
  exact writeFinalFragment_spec h hi hstart hloopEnd delta

end

/-! ## Redo of a delta -/

/-- The delta of two pages as fragments: outside the image's hole every offset agrees or is covered,
and all fragments together fit in the space for a delta. -/
theorem computeDelta_spec (cur image : Page) (hlower : image.pdLower ≤ image.pdUpper)
    (hupper : image.pdUpper ≤ BLCKSZ) :
    ∃ fragments, computeDelta cur image = fragments.flatMap (fragmentBytes image) ∧
      (∀ f ∈ fragments, f.1 + f.2 ≤ BLCKSZ) ∧
      (∀ x < BLCKSZ, x < image.pdLower ∨ image.pdUpper ≤ x →
        ((x < cur.pdLower ∨ cur.pdUpper ≤ x) ∧ cur.byteAt x = image.byteAt x) ∨
          Covers fragments x) ∧
      (computeDelta cur image).length ≤ maxDeltaSize := by
  obtain ⟨lows, hlowsEq, hlowsIn, hlows, hlowsLen⟩ := computeRegionDelta_spec cur image 0 []
    (Nat.zero_le _) (Nat.zero_le _)
  obtain ⟨highs, hhighsEq, hhighsIn, hhighs, hhighsLen⟩ :=
    computeRegionDelta_spec cur image cur.pdUpper (lows.flatMap (fragmentBytes image)) hupper hupper
  have hdelta : computeDelta cur image = (lows ++ highs).flatMap (fragmentBytes image) := by
    rw [computeDelta, hlowsEq, nil_append, hhighsEq, flatMap_append]
  refine ⟨lows ++ highs, hdelta, ?_, ?_, ?_⟩
  · exact forall_mem_append.mpr ⟨fun f hf => (hlowsIn f hf).trans (hlower.trans hupper), hhighsIn⟩
  · rintro x hx (hlt | hle)
    · rcases hlows x (Nat.zero_le x) hlt with ⟨-, hcur, hbyte⟩ | ⟨f, hf, hcover⟩
      · exact Or.inl ⟨Or.inl hcur, hbyte⟩
      · exact Or.inr ⟨f, mem_append_left highs hf, hcover⟩
    · rcases hhighs x hle hx with ⟨hcur, -, hbyte⟩ | ⟨f, hf, hcover⟩
      · exact Or.inl ⟨Or.inr hcur, hbyte⟩
      · exact Or.inr ⟨f, mem_append_right lows hf, hcover⟩
  · rw [hdelta, flatMap_append, length_append]
    unfold maxDeltaSize
    omega

/-- **Redo reproduces the page:** the delta fits in `MAX_DELTA_SIZE`, and redo on the current page,
or on any page that agrees with it outside its hole, gives the page that `GenericXLogFinish` left in
the buffer. The hole of the new image must spare the bytes of the header that say where it is. -/
theorem generic_redo_finish (cur image page : Page) (hlower : image.pdLower ≤ image.pdUpper)
    (hupper : image.pdUpper ≤ BLCKSZ)
    (hhole : image.pdLower = image.pdUpper ∨ image.pdUpper ≤ 12 ∨ 16 ≤ image.pdLower)
    (hpage : ∀ i : Fin BLCKSZ, (i : ℕ) < cur.pdLower ∨ cur.pdUpper ≤ i → page i = cur i) :
    (computeDelta cur image).length ≤ maxDeltaSize ∧
      genericRedo page (computeDelta cur image) = some (genericXLogFinish cur image) := by
  obtain ⟨fragments, hdelta, hin, hcov, hlen⟩ := computeDelta_spec cur image hlower hupper
  refine ⟨hlen, ?_⟩
  have hcount : fragments.length ≤ (computeDelta cur image).length := by
    rw [hdelta, length_flatMap, ← length_map fun f => (fragmentBytes image f).length]
    apply length_le_sum_of_one_le
    intro n hn
    obtain ⟨f, -, rfl⟩ := mem_map.mp hn
    rw [length_fragmentBytes]
    omega
  obtain ⟨page', happly, hpage'⟩ := applyFragments_spec image page (computeDelta cur image)
    (computeDelta cur image).length 0 fragments hin hdelta hcount
  have hsame : ∀ i : Fin BLCKSZ, (i : ℕ) < image.pdLower ∨ image.pdUpper ≤ i →
      page' i = image i := by
    intro i hi
    rcases hpage' i with ⟨-, hp⟩ | ⟨hc, hp⟩
    · exact hp
    · obtain ⟨hcur, hbyte⟩ := (hcov i i.isLt hi).resolve_right hc
      rw [hp, hpage i hcur]
      simpa [Page.byteAt] using hbyte
  have hbyte : ∀ x, 12 ≤ x → x < 16 → page'.byteAt x = image.byteAt x := by
    intro x hx hlt
    have hxB : x < BLCKSZ := hlt.trans (by decide)
    simp only [Page.byteAt, dif_pos hxB]
    exact hsame ⟨x, hxB⟩ (by show x < _ ∨ _ ≤ x; omega)
  have hpl : page'.pdLower = image.pdLower := by
    unfold Page.pdLower
    rw [hbyte 12 (by decide) (by decide), hbyte 13 (by decide) (by decide)]
  have hpu : page'.pdUpper = image.pdUpper := by
    unfold Page.pdUpper
    rw [hbyte 14 (by decide) (by decide), hbyte 15 (by decide) (by decide)]
  simp only [genericRedo, applyPageRedo, happly, bind_eq_bind, bind_some, hpl, hpu,
    if_pos hlower, some.injEq]
  funext i
  rw [genericXLogFinish, memcpy_slice, Page.memset0, Page.memset0, memcpy_slice]
  by_cases hi : (i : ℕ) < image.pdLower ∨ image.pdUpper ≤ i
  · rw [if_neg (by omega), hsame i hi]
    split_ifs <;> first | rfl | omega
  · rw [if_pos (by omega), if_neg (by omega), if_pos (by omega)]

/-- A page of zeros with one other byte, at offset 100. -/
def strayPage : Page := fun i => if (i : ℕ) = 100 then 1 else 0

/-- A page of zeros but for its `pd_lower` and for its `pd_upper`, which is the page size. -/
def emptyPage (lower : UInt8) : Page := fun i =>
  if (i : ℕ) = 12 then lower else if (i : ℕ) = 15 then 0x20 else 0

theorem generic_redo_finish_emptyPage :
    (emptyPage 24).pdLower = 24 ∧ (emptyPage 24).pdUpper = BLCKSZ ∧
      genericRedo strayPage (computeDelta strayPage (emptyPage 24)) =
        some (genericXLogFinish strayPage (emptyPage 24)) :=
  ⟨by decide, by decide, (generic_redo_finish strayPage (emptyPage 24) strayPage (by decide)
    (by decide) (by decide) fun _ _ => rfl).2⟩

/-- The delta of an empty region is empty. -/
theorem computeRegionDelta_empty {cur target : Page} {targetEnd validStart validEnd : ℕ}
    (hstart : validStart ≤ targetEnd) (hend : targetEnd ≤ validEnd) (delta : List UInt8) :
    computeRegionDelta cur target targetEnd targetEnd validStart validEnd delta = delta := by
  unfold computeRegionDelta matchLoop
  simp [Nat.min_eq_left hend, not_lt.mpr hstart, writeFinalFragment]

/-- When the hole begins before the header fields that describe it, the delta does not hold them:
here the whole page is hole, nothing is logged, and redo keeps a byte that `GenericXLogFinish`
zeroed. -/
theorem generic_redo_keeps_stray :
    (emptyPage 0).pdLower ≤ (emptyPage 0).pdUpper ∧ (emptyPage 0).pdUpper ≤ BLCKSZ ∧
      genericRedo strayPage (computeDelta strayPage (emptyPage 0)) = some strayPage ∧
      genericXLogFinish strayPage (emptyPage 0) ≠ strayPage := by
  have hlower : (emptyPage 0).pdLower = 0 := by decide
  have hupper : (emptyPage 0).pdUpper = BLCKSZ := by decide
  have hcur : strayPage.pdLower = 0 ∧ strayPage.pdUpper = 0 := by decide
  have hdelta : computeDelta strayPage (emptyPage 0) = [] := by
    rw [computeDelta, hlower, hupper, hcur.1, hcur.2,
      computeRegionDelta_empty (le_rfl) (le_rfl),
      computeRegionDelta_empty (Nat.zero_le _) (le_rfl)]
  have hnone : strayPage.memset0 0 0 = strayPage := by
    funext i
    rw [Page.memset0, if_neg (by omega)]
  refine ⟨by omega, by omega, ?_, ?_⟩
  · simp [hdelta, genericRedo, applyPageRedo, applyFragments, hcur, hnone]
  · intro h
    have hbyte := congrFun h ⟨100, by decide⟩
    revert hbyte
    decide

end PgAutoIndex.Transam
