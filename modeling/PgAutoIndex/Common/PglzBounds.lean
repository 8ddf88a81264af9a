import PgAutoIndex.Common.PglzRoundTrip

/-!
# Bounds of pglz

`pglz_compress` tests the size of its output once in each step, which may write four bytes, and
`pglz_decompress` copies parts of its own output as a source tells it that may be corrupt.
`pglz_bounds`: neither writes outside its buffer, no copy reads what has not been written, and the
computation of `result_max` does not overflow.
-/

namespace PgAutoIndex.Common

open BackCopy List Option

variable {src out : List UInt8} {rawsize fuel sp len off : ℕ}

theorem int32_of_range {value : ℤ} (hlow : 0 ≤ value) (hhigh : value ≤ 2147483647) :
    int32 value = some value := if_pos ⟨by omega, by omega⟩

/-- No step of the computation of `result_max` overflows. -/
theorem resultMaxInt32_eq {slen : ℕ} (hlen : slen ≤ 2147483647) (rate : ℤ) :
    resultMaxInt32 slen (limitRate 99 rate) = some (resultMax slen (limitRate 99 rate)) := by
  have hrate := limitRate_range rate
  have hmax := resultMax_le slen rate
  unfold resultMax at *
  generalize limitRate 99 rate = r at *
  have hslen : int32 (slen : ℤ) = some (slen : ℤ) := int32_of_range (by omega) (by omega)
  have hpercent : int32 (100 - r) = some (100 - r) := int32_of_range (by omega) (by omega)
  simp only [resultMaxInt32, hslen, hpercent, bind_eq_bind, bind_some]
  by_cases hlarge : slen > 2147483647 / 100
  · have hnonneg : 0 ≤ (slen : ℤ).tdiv 100 * (100 - r) :=
      Int.mul_nonneg (Int.tdiv_nonneg (by omega) (by omega)) (by omega)
    rw [if_pos hlarge] at hmax ⊢
    rw [if_pos (by omega), int32_of_range hnonneg (by omega)]
  · have hnonneg : 0 ≤ (slen : ℤ) * (100 - r) := Int.mul_nonneg (by omega) (by omega)
    have hle : (slen : ℤ) * (100 - r) ≤ slen * 100 :=
      Int.mul_le_mul_of_nonneg_left (by omega) (by omega)
    rw [if_neg hlarge] at hmax ⊢
    rw [if_neg (by omega), int32_of_range hnonneg (by omega), bind_some,
      int32_of_range (Int.tdiv_nonneg hnonneg (by omega)) (by omega)]

/-- Every copy of a match is in bounds. -/
theorem copyMatchChecked_eq (hoff : off ≤ out.length) (hfits : out.length + len ≤ rawsize) :
    copyMatchChecked rawsize fuel out off len = copyMatch fuel out off len := by
  induction fuel generalizing out off len with
  | zero => rfl
  | succ fuel ih =>
    unfold copyMatchChecked copyMatch memcpyChecked
    by_cases hlt : off < len
    · have hlength : (out ++ (out.drop (out.length - off)).take off).length = out.length + off := by
        rw [length_append, length_take, length_drop]
        omega
      rw [if_pos hlt, if_pos hlt, if_pos ⟨hoff, Nat.le_refl off, by omega⟩, bind_eq_bind,
        bind_some, ih (by omega) (by omega)]
    · rw [if_neg hlt, if_neg hlt, if_pos ⟨hoff, by omega, hfits⟩]

theorem readTag_le (src : List UInt8) (sp : ℕ) : sp ≤ (readTag src sp).2.2 := by
  unfold readTag
  simp only
  split <;> simp

/-- Up to eight tokens, whatever the source holds. -/
theorem decompressItems_checked (count ctrl : ℕ) (hraw : out.length ≤ rawsize) :
    ∃ result, decompressItems copyMatch src rawsize count ctrl sp out = some result ∧
      decompressItems (copyMatchChecked rawsize) src rawsize count ctrl sp out = some result ∧
      ∀ sp' out', result = some (sp', out') → sp ≤ sp' ∧ out'.length ≤ rawsize := by
  induction count generalizing ctrl sp out with
  | zero => exact ⟨_, rfl, rfl, fun sp' out' h => by cases h; exact ⟨le_rfl, hraw⟩⟩
  | succ count ih =>
    unfold decompressItems
    by_cases hmore : sp < src.length ∧ out.length < rawsize
    · rw [if_pos hmore, if_pos hmore]
      by_cases hctrl : ctrl &&& 1 ≠ 0
      · have hsp := readTag_le src sp
        rw [if_pos hctrl, if_pos hctrl]
        obtain ⟨len, off, sp₁, htag⟩ : ∃ len off sp₁, readTag src sp = (len, off, sp₁) :=
          ⟨_, _, _, rfl⟩
        rw [htag] at hsp ⊢
        by_cases hbad : sp₁ > src.length ∨ off = 0 ∨ off > out.length
        · exact ⟨none, if_pos hbad, if_pos hbad, by simp⟩
        · obtain ⟨hpos, hoff⟩ : 0 < off ∧ off ≤ out.length := by omega
          have hlength := length_copyBack (min len (rawsize - out.length)) hpos hoff
          obtain ⟨result, hitems, hchecked, hbounds⟩ :=
            ih (ctrl >>> 1) (hlength.trans_le (by omega))
          simp only [if_neg hbad]
          rw [copyMatchChecked_eq hoff (by omega), copyMatch_eq hpos hoff (Nat.lt_succ_self _)]
          exact ⟨result, hitems, hchecked, fun sp' out' h =>
            (hbounds sp' out' h).imp_left (le_trans hsp)⟩
      · rw [if_neg hctrl, if_neg hctrl]
        have hraw₁ : (out ++ [src[sp]?.getD 0]).length ≤ rawsize := by
          rw [length_append]
          exact hmore.2
        obtain ⟨result, hitems, hchecked, hbounds⟩ := ih (ctrl >>> 1) hraw₁
        refine ⟨result, hitems, hchecked, fun sp' out' h => ?_⟩
        have := hbounds sp' out' h
        omega
    · rw [if_neg hmore, if_neg hmore]
      exact ⟨_, rfl, rfl, fun sp' out' h => by cases h; exact ⟨le_rfl, hraw⟩⟩

/-- The whole loop, likewise: it ends, since every round reads a byte at least. -/
theorem decompressLoop_checked (hfuel : src.length - sp < fuel) (hraw : out.length ≤ rawsize) :
    ∃ result, decompressLoop copyMatch src rawsize fuel sp out = some result ∧
      decompressLoop (copyMatchChecked rawsize) src rawsize fuel sp out = some result ∧
      ∀ sp' out', result = some (sp', out') → out'.length ≤ rawsize := by
  induction fuel generalizing sp out with
  | zero => cases hfuel
  | succ fuel ih =>
    unfold decompressLoop
    split_ifs with hmore
    · obtain ⟨items, hitems, hchecked, hbounds⟩ :=
        decompressItems_checked 8 (src[sp]?.getD 0).toNat hraw
      rw [hitems, hchecked]
      rcases items with - | ⟨sp₁, out₁⟩
      · exact ⟨none, rfl, rfl, by simp⟩
      · obtain ⟨hsp, hraw₁⟩ := hbounds sp₁ out₁ rfl
        exact ih (by omega) hraw₁
    · exact ⟨_, rfl, rfl, fun sp' out' h => by cases h; exact hraw⟩

/-- **The bounds of pglz.** Compressing a source leaves at most four bytes more in `dest` than the
source has, whether it succeeds or gives up, and computes `result_max` without an overflow.
Decompressing any bytes returns; all its copies read output already written and write within the
first `rawsize` bytes, and so do its literals. -/
theorem pglz_bounds (widen : UInt8 → BitVec 32) (static : History) (strategy : Option PGLZStrategy)
    (source : List UInt8) (hlen : source.length ≤ 2147483647) (src : List UInt8) (rawsize : ℕ)
    (checkComplete : Bool) :
    (∃ result dest, pglzCompress widen static strategy source = some result ∧
      pglzCompressDest widen static strategy source = some dest ∧ dest.length ≤ source.length + 4 ∧
      ∀ out, result = some out → dest = out) ∧
    resultMaxInt32 source.length (limitRate 99 (strategy.getD strategyDefault).min_comp_rate) =
      some (params source.length (strategy.getD strategyDefault)).resultMax ∧
    (∃ result, decompressLoop (copyMatchChecked rawsize) src rawsize (src.length + 1) 0 [] =
      some result ∧
      decompressLoop copyMatch src rawsize (src.length + 1) 0 [] = some result) ∧
    ∃ result, pglzDecompress src rawsize checkComplete = some result ∧
      ∀ out, result = some out → out.length ≤ rawsize := by
  obtain ⟨result, dest, hresult, hdest, hsize, hout⟩ :=
    pglzCompress_spec widen static strategy source
  have hfuel : src.length - 0 < src.length + 1 := Nat.lt_succ_self _
  have hraw : ([] : List UInt8).length ≤ rawsize := Nat.zero_le _
  obtain ⟨run, hloop, hchecked, hbounds⟩ := decompressLoop_checked hfuel hraw
  refine ⟨⟨result, dest, hresult, hdest, hsize, fun out h => (hout out h).1⟩,
    resultMaxInt32_eq hlen _, ⟨run, hchecked, hloop⟩, ?_⟩
  rw [pglzDecompress, hloop]
  refine ⟨_, rfl, fun out h => ?_⟩
  rcases run with - | ⟨sp, out'⟩
  · cases h
  · simp only [bind_some] at h
    split_ifs at h
    cases h
    exact hbounds sp out rfl

/-- A run of one character is compressed within its buffer, and read back within its own. -/
theorem pglz_bounds_run : (replicate 20 (97 : UInt8)).length ≤ 2147483647 ∧
    (∃ dest, pglzCompressDest (fun b => (BitVec.ofNat 8 b.toNat).signExtend 32)
        ⟨fun _ => 7, fun _ => ⟨3, some 5, 2, 9⟩, 4, true⟩ (some strategyAlways) (replicate 20 97) =
          some dest ∧ dest = [2, 97, 15, 1, 1] ∧ dest.length ≤ 24) ∧
    ∃ out, pglzDecompress [2, 97, 15, 1, 1] 20 true = some (some out) ∧ out.length ≤ 20 := by
  obtain ⟨⟨result, dest, hresult, hdest, hsize, hout⟩, -, -, read, hread, hle⟩ := pglz_bounds
    (fun b => (BitVec.ofNat 8 b.toNat).signExtend 32)
    ⟨fun _ => 7, fun _ => ⟨3, some 5, 2, 9⟩, 4, true⟩ (some strategyAlways) (replicate 20 97)
    (by decide) [2, 97, 15, 1, 1] 20 true
  rw [pglzCompress_run, some.injEq] at hresult
  have hrun : pglzDecompress [2, 97, 15, 1, 1] 20 true = some (some (replicate 20 97)) := by
    decide +kernel
  rw [hrun, some.injEq] at hread
  exact ⟨by decide, ⟨dest, hdest, hout _ hresult.symm, hsize⟩, _, hrun, hle _ hread.symm⟩

end PgAutoIndex.Common
