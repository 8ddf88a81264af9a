import Mathlib.Data.Rat.Floor
import PgAutoIndex.Port
import PgAutoIndex.Runs
import PgAutoIndex.Hash.HashUtil

/-!
# The blocks of a hash index

Model of the metapage of a hash index with the functions that compute block numbers from it,
`BUCKET_TO_BLKNO`, `bitno_to_blkno` and `_hash_ovflblkno_to_bitno`, and of the changes that
`_hash_init_metabuffer`, `_hash_expandtable`, `_hash_addovflpage` and `_hash_freeovflpage` make to
it and to the bitmaps of overflow pages. The changes are made under the exclusive lock of the
metapage, so that the history of an index is a sequence of them, in any order. Whether a split is
still needed, and whether the locks of the buckets are free, is left open; which free page the
search through the bitmaps finds is left open too.

The blocks are two interleaved rows in the sense of `Interleaved`: the buckets, in groups of a phase
each, and behind each group the overflow and bitmap pages that were added during the phase.
`hashm_spares` counts the latter up to each phase. A change touches only the count of the last
phase, or starts a phase with the count of the one before (`Layout`, `Extends`).
-/

namespace PgAutoIndex.Hash

open Interleaved Function Option

/-! ## The metapage -/

/-- The parts of `HashMetaPageData` that the layout depends on. -/
structure HashMetaPage where
  bmshift : ℕ
  maxbucket : ℕ
  highmask : ℕ
  lowmask : ℕ
  ovflpoint : ℕ
  firstfree : ℕ
  nmaps : ℕ
  spares : ℕ → ℕ
  mapp : ℕ → ℕ

/-- `BLCKSZ`, between 1 and 32 kilobytes. -/
structure BlockSize where
  size : ℕ
  low : 1024 ≤ size
  high : size ≤ 32768

/-- `HASH_MAX_BITMAPS`. -/
def HASH_MAX_BITMAPS (blcksz : BlockSize) : ℕ := min (blcksz.size / 8) 1024

/-- `BUCKET_TO_BLKNO`. -/
def bucketToBlkno (metap : HashMetaPage) (b : ℕ) : ℕ :=
  (b + (if b ≠ 0 then metap.spares (hashSpareindex (b + 1) - 1) else 0) + 1) % 2^32

/-- The loop of `bitno_to_blkno`. -/
def bitnoLoop (metap : HashMetaPage) (ovflbitnum i : ℕ) : ℕ :=
  if i < metap.ovflpoint ∧ ovflbitnum > metap.spares i then bitnoLoop metap ovflbitnum (i + 1)
  else i
termination_by metap.ovflpoint - i

/-- `bitno_to_blkno`. -/
def bitnoToBlkno (metap : HashMetaPage) (ovflbitnum : ℕ) : ℕ :=
  let ovflbitnum := (ovflbitnum + 1) % 2^32
  let i := bitnoLoop metap ovflbitnum 1
  (hashGetTotalbuckets i + ovflbitnum) % 2^32

/-- invalid overflow block number %u -/
structure InvalidOverflowBlock where
  ovflblkno : ℕ

/-- The loop of `_hash_ovflblkno_to_bitno`. -/
def ovflblknoLoop (metap : HashMetaPage) (ovflblkno i : ℕ) : Except InvalidOverflowBlock ℕ :=
  if i ≤ metap.ovflpoint then
    if ovflblkno ≤ hashGetTotalbuckets i then .error ⟨ovflblkno⟩
    else
      let bitnum := ovflblkno - hashGetTotalbuckets i
      if bitnum > metap.spares (i - 1) ∧ bitnum ≤ metap.spares i then .ok (bitnum - 1)
      else ovflblknoLoop metap ovflblkno (i + 1)
  else .error ⟨ovflblkno⟩
termination_by metap.ovflpoint + 1 - i

/-- `_hash_ovflblkno_to_bitno`. -/
def hashOvflblknoToBitno (metap : HashMetaPage) (ovflblkno : ℕ) : Except InvalidOverflowBlock ℕ :=
  ovflblknoLoop metap ovflblkno 1

/-- The number of buckets that `_hash_init_metabuffer` chooses; the conversion to an integer
truncates. -/
def initialBuckets (dnumbuckets : ℚ) : ℕ :=
  if dnumbuckets ≤ 2 then 2
  else if dnumbuckets ≥ 0x40000000 then 0x40000000
  else hashGetTotalbuckets (hashSpareindex ⌊dnumbuckets⌋.toNat)

/-- `_hash_init_metabuffer`; `dnumbuckets` is `num_tuples / ffactor`, and 40 bytes of the page are
header and special space. -/
def hashInitMetabuffer (blcksz : BlockSize) (dnumbuckets : ℚ) : HashMetaPage :=
  let numBuckets := initialBuckets dnumbuckets
  let spareIndex := hashSpareindex numBuckets
  let lshift := Nat.log2 (blcksz.size - 40)
  let highmask := pgNextpower2 (numBuckets + 1) - 1
  { bmshift := lshift + 3
    maxbucket := numBuckets - 1
    highmask := highmask
    lowmask := highmask >>> 1
    ovflpoint := spareIndex
    firstfree := 0
    nmaps := 0
    spares := update (fun _ => 0) spareIndex 1
    mapp := fun _ => 0 }

/-- `_hash_expandtable`, from where the split is decided on: the new metapage, or `none` when there
can be no more buckets. -/
def hashExpandtable (metap : HashMetaPage) : Option HashMetaPage :=
  if metap.maxbucket ≥ 0x7FFFFFFE then none
  else
    let newBucket := metap.maxbucket + 1
    let spareNdx := hashSpareindex (newBucket + 1)
    let metap' := { metap with maxbucket := newBucket }
    let metap' := if newBucket > metap.highmask then
        { metap' with lowmask := metap.highmask, highmask := newBucket ||| metap.highmask }
      else metap'
    some (if spareNdx > metap.ovflpoint then
        { metap' with
          spares := update metap.spares spareNdx (metap.spares metap.ovflpoint)
          ovflpoint := spareNdx }
      else metap')

/-- Advance `hashm_firstfree` unless someone moved it while the bitmaps were searched. -/
def adjustFirstfree (metap : HashMetaPage) (origFirstfree bit : ℕ) : HashMetaPage :=
  if metap.firstfree = origFirstfree then { metap with firstfree := bit + 1 } else metap

/-- `_hash_addovflpage` when no free page was found: the new metapage with the block of the new
page, and `none` for the error that there are no more overflow pages. -/
def addovflpageExtend (blcksz : BlockSize) (metap : HashMetaPage) (origFirstfree : ℕ) :
    Option (HashMetaPage × ℕ) :=
  let splitnum := metap.ovflpoint
  let maxOvflpg := (metap.spares splitnum + 2^32 - 1) % 2^32
  let lastBit := maxOvflpg % 2^metap.bmshift
  if lastBit = 2^metap.bmshift - 1 then
    if metap.nmaps ≥ HASH_MAX_BITMAPS blcksz then none
    else
      -- The new bitmap page comes first, and the new overflow page after it.
      let newmap := bitnoToBlkno metap (metap.spares splitnum)
      let bit := metap.spares splitnum + 1
      let blkno := bitnoToBlkno metap bit
      let metap' := { metap with
        spares := update metap.spares splitnum (metap.spares splitnum + 2)
        mapp := update metap.mapp metap.nmaps newmap
        nmaps := metap.nmaps + 1 }
      some (adjustFirstfree metap' origFirstfree bit, blkno)
  else
    let bit := metap.spares splitnum
    let blkno := bitnoToBlkno metap bit
    let metap' := { metap with spares := update metap.spares splitnum (metap.spares splitnum + 1) }
    some (adjustFirstfree metap' origFirstfree bit, blkno)

/-! ## Histories -/

/-- The metapage, and the bits that are set in the bitmaps. -/
structure HashState where
  metap : HashMetaPage
  inUse : ℕ → Bool

/-- One change. -/
inductive Change
  /-- `_hash_expandtable` adds a bucket. -/
  | expandtable
  /-- `_hash_addovflpage` adds a page at the end. -/
  | addovflpage (origFirstfree : ℕ)
  /-- `_hash_addovflpage` takes a free page. -/
  | recycle (origFirstfree bit : ℕ)
  /-- `_hash_freeovflpage` marks a page free. -/
  | freeovflpage (bit : ℕ)

/-- The effect of a change, `none` when it cannot be made. -/
def step (blcksz : BlockSize) (s : HashState) : Change → Option HashState
  | .expandtable => (hashExpandtable s.metap).map fun metap => { s with metap := metap }
  | .addovflpage origFirstfree =>
    (addovflpageExtend blcksz s.metap origFirstfree).map fun r => { s with metap := r.1 }
  | .recycle origFirstfree bit =>
    -- A free bit in one of the bitmap pages that exist.
    if bit < s.metap.nmaps * 2^s.metap.bmshift ∧ s.inUse bit = false then
      some ⟨adjustFirstfree s.metap origFirstfree bit, update s.inUse bit true⟩
    else none
  | .freeovflpage bit =>
    if bit < s.metap.spares s.metap.ovflpoint ∧ s.inUse bit = true then
      some ⟨{ s.metap with firstfree := min s.metap.firstfree bit }, update s.inUse bit false⟩
    else none

/-- The state after `_hash_init`, which adds the first bitmap page to the metapage of
`_hash_init_metabuffer`. A new bitmap page has all bits set. -/
def hashInit (blcksz : BlockSize) (dnumbuckets : ℚ) : HashState :=
  let metap := hashInitMetabuffer blcksz dnumbuckets
  ⟨{ metap with mapp := update metap.mapp 0 (metap.maxbucket + 1 + 1), nmaps := 1 }, fun _ => true⟩

/-! ## What holds along every history -/

/-- The invariant of the metapage and the bitmaps. -/
structure Layout (s : HashState) : Prop where
  maxbucket_pos : 1 ≤ s.metap.maxbucket
  maxbucket_le : s.metap.maxbucket ≤ 0x7FFFFFFE
  /-- The last phase is the one of the last bucket. -/
  ovflpoint_eq : s.metap.ovflpoint = hashSpareindex (s.metap.maxbucket + 1)
  spares_zero : s.metap.spares 0 = 0
  spares_mono : MonoUpTo s.metap.spares s.metap.ovflpoint
  spares_pos : 1 ≤ s.metap.spares s.metap.ovflpoint
  /-- There is a bit for every page. -/
  spares_le : s.metap.spares s.metap.ovflpoint ≤ s.metap.nmaps * 2^s.metap.bmshift
  nmaps_le : s.metap.nmaps ≤ 1024
  bmshift_pos : 1 ≤ s.metap.bmshift
  bmshift_le : s.metap.bmshift ≤ 17
  /-- The bits of pages that do not exist yet are set. -/
  marked : ∀ bit, s.metap.spares s.metap.ovflpoint ≤ bit → s.inUse bit = true

/-- The second metapage has what the first one has, and perhaps more. -/
structure Extends (m m' : HashMetaPage) : Prop where
  maxbucket_le : m.maxbucket ≤ m'.maxbucket
  ovflpoint_le : m.ovflpoint ≤ m'.ovflpoint
  spares_eq : ∀ i < m.ovflpoint, m'.spares i = m.spares i
  spares_le : m.spares m.ovflpoint ≤ m'.spares m.ovflpoint

theorem Extends.refl (m : HashMetaPage) : Extends m m := ⟨le_rfl, le_rfl, fun _ _ => rfl, le_rfl⟩

variable {m' : HashMetaPage} {b blkno n origFirstfree : ℕ} {t : HashState}

theorem Extends.trans {m m'' : HashMetaPage} (h : Extends m m') (h' : Extends m' m'') :
    Extends m m'' := by
  refine ⟨h.maxbucket_le.trans h'.maxbucket_le, h.ovflpoint_le.trans h'.ovflpoint_le,
    fun i hi => ?_, ?_⟩
  · rw [h'.spares_eq i (lt_of_lt_of_le hi h.ovflpoint_le), h.spares_eq i hi]
  · -- The count of the last phase is fixed once there is a later one.
    rcases lt_or_ge m.ovflpoint m'.ovflpoint with hlt | hge
    · rw [h'.spares_eq _ hlt]
      exact h.spares_le
    · have heq : m.ovflpoint = m'.ovflpoint := le_antisymm h.ovflpoint_le hge
      have hnext := h'.spares_le
      rw [← heq] at hnext
      exact h.spares_le.trans hnext

section
variable {blcksz : BlockSize} {s : HashState}

/-- Only the first bucket is in the first phase of all. -/
theorem hashSpareindex_pos (hn : 2 ≤ n) (hle : n ≤ 2^31) : 1 ≤ hashSpareindex n := by
  by_contra hzero
  have hgroup := (hashSpareindex_inGroup (n := n) (by omega) hle).1.le
  rw [show hashSpareindex n = 0 by omega] at hgroup
  have : hashGetTotalbuckets 0 = 1 := by decide
  omega

/-- Where the loop of `bitno_to_blkno` stops: the first phase that reaches the bit, or the last one.
-/
theorem bitnoLoop_spec (m : HashMetaPage) (y i : ℕ) (hi : i ≤ m.ovflpoint) :
    i ≤ bitnoLoop m y i ∧ bitnoLoop m y i ≤ m.ovflpoint ∧
    (∀ j, i ≤ j → j < bitnoLoop m y i → m.spares j < y) ∧
      (bitnoLoop m y i = m.ovflpoint ∨ y ≤ m.spares (bitnoLoop m y i)) := by
  induction hn : m.ovflpoint - i using Nat.strong_induction_on generalizing i with
  | _ n ih =>
    rw [bitnoLoop]
    split_ifs with hgo
    · obtain ⟨hle, htop, hlt, hstop⟩ := ih _ (by omega) (i + 1) (by omega) rfl
      refine ⟨by omega, htop, fun j hij hj => ?_, hstop⟩
      rcases lt_or_ge i j with hlater | hsame
      · exact hlt j hlater hj
      · obtain rfl : i = j := by omega
        exact hgo.2
    · refine ⟨le_rfl, hi, fun j hij hj => by omega, ?_⟩
      omega

section
variable (h : Layout s)
include h

theorem Layout.ovflpoint_le : s.metap.ovflpoint ≤ 97 := by
  have := h.maxbucket_le
  rw [h.ovflpoint_eq]
  exact (hashSpareindex_inGroup (by omega) (by omega)).2

theorem Layout.total_mono : MonoUpTo hashGetTotalbuckets s.metap.ovflpoint :=
  fun i j hij hj => hashGetTotalbuckets_mono i j hij (hj.trans h.ovflpoint_le)

theorem Layout.ovflpoint_pos : 1 ≤ s.metap.ovflpoint := by
  have := h.maxbucket_pos
  have := h.maxbucket_le
  rw [h.ovflpoint_eq]
  exact hashSpareindex_pos (by omega) (by omega)

/-- There are far fewer pages than block numbers. -/
theorem Layout.spares_bound {i : ℕ} (hi : i ≤ s.metap.ovflpoint) : s.metap.spares i ≤ 2^27 := by
  calc s.metap.spares i ≤ s.metap.spares s.metap.ovflpoint := h.spares_mono i _ hi le_rfl
    _ ≤ s.metap.nmaps * 2^s.metap.bmshift := h.spares_le
    _ ≤ 1024 * 2^17 := Nat.mul_le_mul h.nmaps_le (Nat.pow_le_pow_right (by decide) h.bmshift_le)
    _ = 2^27 := by decide

/-! ### Block numbers -/

/-- The phase of a bucket is one that has been reached. -/
theorem Layout.spareindex_le (hb : b ≤ s.metap.maxbucket) :
    hashSpareindex (b + 1) ≤ s.metap.ovflpoint := by
  have := h.maxbucket_le
  rw [h.ovflpoint_eq]
  exact hashSpareindex_mono (by omega) (by omega) (by omega)

/-- The block of a bucket. -/
theorem Layout.bucketToBlkno_eq (hb : b ≤ s.metap.maxbucket) :
    bucketToBlkno s.metap b = b + 1 + before s.metap.spares (hashSpareindex (b + 1)) := by
  have hmax := h.maxbucket_le
  have hphase := h.spareindex_le hb
  have hbefore : (if b ≠ 0 then s.metap.spares (hashSpareindex (b + 1) - 1) else 0)
      = before s.metap.spares (hashSpareindex (b + 1)) := by
    unfold before
    by_cases hzero : b = 0
    · subst hzero
      rfl
    · have hpos := hashSpareindex_pos (n := b + 1) (by omega) (by omega)
      rw [if_pos hzero, if_neg (by omega)]
  have hbound : before s.metap.spares (hashSpareindex (b + 1)) ≤ 2^27 := by
    unfold before
    split_ifs
    · exact Nat.zero_le _
    · exact h.spares_bound (by omega)
  unfold bucketToBlkno
  omega

theorem Layout.bucket_left (hb : b ≤ s.metap.maxbucket) :
    LeftAt hashGetTotalbuckets s.metap.spares s.metap.ovflpoint (b + 1)
      (bucketToBlkno s.metap b) := by
  have hmax := h.maxbucket_le
  exact ⟨_, h.spareindex_le hb, (hashSpareindex_inGroup (by omega) (by omega)).1,
    h.bucketToBlkno_eq hb⟩

/-- The phase of a bit that is there or is one of the next to be added. -/
theorem Layout.bitno_group (hn : n ≤ 2^27 + 1) :
    ∃ i, i ≤ s.metap.ovflpoint ∧ (∀ j < i, s.metap.spares j < n + 1) ∧
      (i = s.metap.ovflpoint ∨ n + 1 ≤ s.metap.spares i) ∧
      bitnoToBlkno s.metap n = n + 1 + hashGetTotalbuckets i := by
  obtain ⟨hle, htop, hlt, hstop⟩ := bitnoLoop_spec s.metap (n + 1) 1 h.ovflpoint_pos
  refine ⟨_, htop, fun j hj => ?_, hstop, ?_⟩
  · by_cases hzero : j = 0
    · rw [hzero, h.spares_zero]
      omega
    · exact hlt j (by omega) hj
  · have htotal := hashGetTotalbuckets_mono _ 97 (htop.trans h.ovflpoint_le) le_rfl
    rw [hashGetTotalbuckets_last] at htotal
    unfold bitnoToBlkno
    rw [Nat.mod_eq_of_lt (show n + 1 < 2^32 by omega), Nat.mod_eq_of_lt (by omega)]
    omega

theorem Layout.bit_right (hn : n < s.metap.spares s.metap.ovflpoint) :
    RightAt hashGetTotalbuckets s.metap.spares s.metap.ovflpoint (n + 1)
      (bitnoToBlkno s.metap n) := by
  have hbound := h.spares_bound le_rfl
  obtain ⟨i, hi, hlt, hstop, hblock⟩ := h.bitno_group (show n ≤ 2^27 + 1 by omega)
  refine ⟨i, hi, ⟨?_, hlt⟩, hblock⟩
  obtain rfl | hle := hstop
  · exact hn
  · exact hle

/-- A bit that the phases before the last one do not reach is in the last one. -/
theorem Layout.bitno_last (hn : n ≤ 2^27 + 1)
    (hlast : ∀ i < s.metap.ovflpoint, s.metap.spares i ≤ n) :
    bitnoToBlkno s.metap n = n + 1 + hashGetTotalbuckets s.metap.ovflpoint := by
  obtain ⟨i, hi, _, hstop, hblock⟩ := h.bitno_group hn
  rcases lt_or_eq_of_le hi with hlt | rfl
  · have := hlast i hlt
    omega
  · exact hblock

/-! ### The inverse map -/

/-- The loop of `_hash_ovflblkno_to_bitno` gets to the phase of a bit, where it finds it. -/
theorem ovflblknoLoop_bit {k : ℕ} (hk : k ≤ s.metap.ovflpoint)
    (hgroup : InGroup s.metap.spares (n + 1) k) (i : ℕ) (hi : 1 ≤ i) (hik : i ≤ k) :
    ovflblknoLoop s.metap (n + 1 + hashGetTotalbuckets k) i = .ok n := by
  induction hd : k - i using Nat.strong_induction_on generalizing i with
  | _ d ih =>
    have hmono := h.total_mono i k hik hk
    rw [ovflblknoLoop, if_pos (by omega), if_neg (by omega)]
    rcases lt_or_ge i k with hlt | hge
    · have hspares := hgroup.lt i hlt
      rw [if_neg (by omega)]
      exact ih _ (by omega) (i + 1) (by omega) (by omega) rfl
    · obtain rfl : i = k := by omega
      have hprev := hgroup.lt (i - 1) (by omega)
      have hle := hgroup.le
      rw [if_pos (by omega)]
      congr 1
      omega

/-- The loop never takes the block of a bucket for the one of an overflow page. -/
theorem ovflblknoLoop_bucket {x k : ℕ} (hk : k ≤ s.metap.ovflpoint)
    (hgroup : InGroup hashGetTotalbuckets x k) (i : ℕ)
    (hi : 1 ≤ i) :
    ovflblknoLoop s.metap (x + before s.metap.spares k) i =
      .error ⟨x + before s.metap.spares k⟩ := by
  induction hd : s.metap.ovflpoint + 1 - i using Nat.strong_induction_on generalizing i with
  | _ d ih =>
    rw [ovflblknoLoop]
    split_ifs with hin hbreak
    · rfl
    · rw [if_neg]
      · exact ih _ (by omega) (i + 1) (by omega) rfl
      · -- The bit number is above the count of the phase before the bucket's own, and not above it
        -- from there on.
        rintro ⟨hgt, hle⟩
        rcases lt_or_ge i k with hlt | hge
        · have hx := hgroup.lt i hlt
          have hmono := before_mono h.spares_mono hlt hk
          rw [before_succ] at hmono
          omega
        · have hx := hgroup.le.trans (h.total_mono k i hge hin)
          have hmono := before_mono h.spares_mono hge hin
          rw [← Nat.sub_add_cancel hi, before_succ] at hmono
          omega
    · rfl

theorem Layout.bitno_inverse (hn : n < s.metap.spares s.metap.ovflpoint) :
    hashOvflblknoToBitno s.metap (bitnoToBlkno s.metap n) = .ok n := by
  obtain ⟨k, hk, hgroup, hblock⟩ := h.bit_right hn
  have hpos : 1 ≤ k := by
    by_contra hzero
    have hle := hgroup.le
    rw [show k = 0 by omega, h.spares_zero] at hle
    omega
  rw [hblock]
  exact ovflblknoLoop_bit h hk hgroup 1 le_rfl hpos

theorem Layout.bucket_raises (hb : b ≤ s.metap.maxbucket) :
    hashOvflblknoToBitno s.metap (bucketToBlkno s.metap b) = .error ⟨bucketToBlkno s.metap b⟩ := by
  obtain ⟨k, hk, hgroup, hblock⟩ := h.bucket_left hb
  rw [hblock]
  exact ovflblknoLoop_bucket h hk hgroup 1 le_rfl

end

/-! ### Blocks do not move -/

variable {s' : HashState}

theorem Extends.bucketToBlkno_eq (he : Extends s.metap s'.metap) (h : Layout s) (h' : Layout s')
    (hb : b ≤ s.metap.maxbucket) :
    bucketToBlkno s'.metap b = bucketToBlkno s.metap b := by
  have hphase := h.spareindex_le hb
  rw [h.bucketToBlkno_eq hb, h'.bucketToBlkno_eq (hb.trans he.maxbucket_le)]
  unfold before
  split_ifs with hzero
  · rfl
  · rw [he.spares_eq _ (by omega)]

/-- A bit that is there is still there. -/
theorem Extends.spares_last_le (he : Extends s.metap s'.metap) (h' : Layout s') :
    s.metap.spares s.metap.ovflpoint ≤ s'.metap.spares s'.metap.ovflpoint :=
  he.spares_le.trans (h'.spares_mono _ _ he.ovflpoint_le le_rfl)

theorem Extends.bitnoToBlkno_eq (he : Extends s.metap s'.metap) (h : Layout s) (h' : Layout s')
    (hn : n < s.metap.spares s.metap.ovflpoint) :
    bitnoToBlkno s'.metap n = bitnoToBlkno s.metap n := by
  obtain ⟨k, hk, hgroup, hblock⟩ := h.bit_right hn
  obtain ⟨k', hk', hgroup', hblock'⟩ := h'.bit_right (lt_of_lt_of_le hn (he.spares_last_le h'))
  -- The phase of the bit is the same with the new counts.
  have hsame : InGroup s'.metap.spares (n + 1) k := by
    refine ⟨?_, fun j hj => ?_⟩
    · rcases lt_or_ge k s.metap.ovflpoint with hlt | hge
      · rw [he.spares_eq k hlt]
        exact hgroup.le
      · obtain rfl : k = s.metap.ovflpoint := by omega
        exact hgroup.le.trans he.spares_le
    · rw [he.spares_eq j (by omega)]
      exact hgroup.lt j hj
  rw [hblock, hblock', hsame.unique hgroup']

end

/-! ### Every change keeps the invariant -/

/-- What `_hash_expandtable` changes. -/
theorem hashExpandtable_spec {m : HashMetaPage} (h : hashExpandtable m = some m') :
    m.maxbucket < 0x7FFFFFFE ∧ m'.maxbucket = m.maxbucket + 1 ∧
      m'.lowmask = (if m.maxbucket + 1 > m.highmask then m.highmask else m.lowmask) ∧
      m'.highmask = (if m.maxbucket + 1 > m.highmask then (m.maxbucket + 1) ||| m.highmask
        else m.highmask) ∧
      m'.nmaps = m.nmaps ∧ m'.bmshift = m.bmshift ∧
      m'.ovflpoint = max m.ovflpoint (hashSpareindex (m.maxbucket + 2)) ∧
      ∀ i, m'.spares i =
        if m.ovflpoint < hashSpareindex (m.maxbucket + 2) ∧ i = hashSpareindex (m.maxbucket + 2)
        then m.spares m.ovflpoint else m.spares i := by
  unfold hashExpandtable at h
  split_ifs at h with hfull
  obtain rfl := some.inj h
  refine ⟨by omega, ?_, ?_, ?_, ?_, ?_, ?_⟩
  · split_ifs <;> rfl
  · split_ifs <;> rfl
  · split_ifs <;> rfl
  · split_ifs <;> rfl
  · split_ifs <;> rfl
  · by_cases hphase : m.ovflpoint < hashSpareindex (m.maxbucket + 2)
    · rw [if_pos hphase, Nat.max_eq_right (le_of_lt hphase)]
      refine ⟨rfl, fun i => (update_apply _ _ _ i).trans ?_⟩
      simp only [hphase, true_and]
    · rw [if_neg hphase, Nat.max_eq_left (not_lt.mp hphase)]
      simp only [hphase, false_and, if_false]
      split_ifs <;> exact ⟨rfl, fun _ => rfl⟩

section
variable {blcksz : BlockSize} {s : HashState}

/-- `hashm_firstfree` is no part of the layout. -/
theorem adjustFirstfree_spec (m : HashMetaPage) (origFirstfree bit : ℕ) :
    ∃ f, adjustFirstfree m origFirstfree bit = { m with firstfree := f } := by
  unfold adjustFirstfree
  split_ifs
  · exact ⟨bit + 1, rfl⟩
  · exact ⟨m.firstfree, rfl⟩

section
variable (h : Layout s)
include h

/-- Changes of the metapage keep the counts of the phases before the last one, and have one count
for the last phase and a new one. -/
theorem Layout.grow {c : ℕ} (hmax : s.metap.maxbucket ≤ t.metap.maxbucket)
    (hmaxle : t.metap.maxbucket ≤ 0x7FFFFFFE)
    (hpoint : t.metap.ovflpoint = hashSpareindex (t.metap.maxbucket + 1))
    (hold : ∀ i < s.metap.ovflpoint, t.metap.spares i = s.metap.spares i)
    (hnew : ∀ i, s.metap.ovflpoint ≤ i → i ≤ t.metap.ovflpoint → t.metap.spares i = c)
    (hc : s.metap.spares s.metap.ovflpoint ≤ c) (hcle : c ≤ t.metap.nmaps * 2^t.metap.bmshift)
    (hnmaps : t.metap.nmaps ≤ 1024) (hshift : t.metap.bmshift = s.metap.bmshift)
    (hmarked : ∀ bit, c ≤ bit → t.inUse bit = true) : Layout t ∧ Extends s.metap t.metap := by
  have hmaxpos := h.maxbucket_pos
  have hovflpos := h.ovflpoint_pos
  have hspos := h.spares_pos
  have hle : s.metap.ovflpoint ≤ t.metap.ovflpoint := by
    rw [hpoint, h.ovflpoint_eq]
    exact hashSpareindex_mono (by omega) (by omega) (by omega)
  have hlast : t.metap.spares t.metap.ovflpoint = c := hnew _ hle le_rfl
  have hmono : MonoUpTo t.metap.spares t.metap.ovflpoint := by
    intro i j hij hj
    rcases lt_or_ge i s.metap.ovflpoint with hi | hi
    · rw [hold i hi]
      rcases lt_or_ge j s.metap.ovflpoint with hj' | hj'
      · rw [hold j hj']
        exact h.spares_mono i j hij (le_of_lt hj')
      · rw [hnew j hj' hj]
        exact (h.spares_mono i _ (le_of_lt hi) le_rfl).trans hc
    · rw [hnew i hi (hij.trans hj), hnew j (hi.trans hij) hj]
  refine ⟨⟨by omega, hmaxle, hpoint, ?_, hmono, by omega, by omega, hnmaps, ?_, ?_,
    fun bit hbit => hmarked bit (by omega)⟩,
    ⟨hmax, hle, hold, ?_⟩⟩
  · rw [hold 0 (by omega)]
    exact h.spares_zero
  · rw [hshift]
    exact h.bmshift_pos
  · rw [hshift]
    exact h.bmshift_le
  · rw [hnew _ le_rfl hle]
    exact hc

/-- One more bucket, perhaps with a new phase that starts with the count of the last one. -/
theorem Layout.expandtable (hm : hashExpandtable s.metap = some m') :
    Layout { s with metap := m' } ∧ Extends s.metap m' := by
  obtain ⟨hlt, hmax, _, _, hnmaps, hshift, hpoint, hspares⟩ := hashExpandtable_spec hm
  have hovfl := h.ovflpoint_eq
  have hcle : s.metap.spares s.metap.ovflpoint ≤ m'.nmaps * 2^m'.bmshift := by
    rw [hnmaps, hshift]
    exact h.spares_le
  have hstep : hashSpareindex (s.metap.maxbucket + 2) ≤ s.metap.ovflpoint + 1 := by
    rw [hovfl]
    exact hashSpareindex_succ_le (by omega) (by omega)
  have hge : s.metap.ovflpoint ≤ hashSpareindex (s.metap.maxbucket + 2) := by
    rw [hovfl]
    exact hashSpareindex_mono (by omega) (by omega) (by omega)
  rw [Nat.max_eq_right hge] at hpoint
  refine h.grow (t := { s with metap := m' }) (c :=
    s.metap.spares s.metap.ovflpoint) (by dsimp only; omega) (by dsimp only; omega)
    ?_ (fun i hi => ?_) (fun i hi hi' => ?_) le_rfl hcle (hnmaps ▸ h.nmaps_le) hshift h.marked
  · rw [hpoint, hmax]
  · rw [hspares, if_neg (by omega)]
  · dsimp only at hi' ⊢
    rw [hspares]
    split_ifs with hnew
    · rfl
    · rw [show i = s.metap.ovflpoint by omega]

/-- What `_hash_addovflpage` changes when it adds a page: one bit more, or two with a new bitmap
page. The new page is the last bit. -/
theorem addovflpageExtend_spec
    (hm : addovflpageExtend blcksz s.metap origFirstfree = some (m', blkno)) :
    ∃ c f nmaps mapp, s.metap.spares s.metap.ovflpoint < c ∧ c ≤ nmaps * 2^s.metap.bmshift ∧
      nmaps ≤ 1024 ∧
      m' = { s.metap with
        spares := update s.metap.spares s.metap.ovflpoint c
        firstfree := f, nmaps := nmaps, mapp := mapp } ∧
      c ≤ s.metap.spares s.metap.ovflpoint + 2 ∧ blkno = bitnoToBlkno s.metap (c - 1) := by
  have hbound := h.spares_bound le_rfl
  have hpos := h.spares_pos
  have hle := h.spares_le
  have hnmaps := h.nmaps_le
  have hsize : 2 ≤ 2^s.metap.bmshift := by
    calc 2 = 2^1 := by decide
      _ ≤ 2^s.metap.bmshift := Nat.pow_le_pow_right (by decide) h.bmshift_pos
  unfold addovflpageExtend at hm
  dsimp only at hm
  generalize s.metap.spares s.metap.ovflpoint = n at hm hbound hpos hle ⊢
  rw [show (n + 2^32 - 1) % 2^32 = n - 1 by omega] at hm
  split_ifs at hm with hfull hmaps
  · obtain ⟨rfl, rfl⟩ := Prod.mk.inj (some.inj hm)
    obtain ⟨f, hf⟩ := adjustFirstfree_spec _ origFirstfree (n + 1)
    refine ⟨n + 2, f, s.metap.nmaps + 1, _, by omega, ?_, ?_, hf, le_rfl, rfl⟩
    · rw [Nat.succ_mul]
      omega
    · have hmax : HASH_MAX_BITMAPS blcksz ≤ 1024 := min_le_right _ _
      omega
  · obtain ⟨rfl, rfl⟩ := Prod.mk.inj (some.inj hm)
    obtain ⟨f, hf⟩ := adjustFirstfree_spec _ origFirstfree n
    refine ⟨n + 1, f, s.metap.nmaps, s.metap.mapp, by omega, ?_, hnmaps, hf, by omega, rfl⟩
    -- The last bitmap page is not full.
    by_contra hgt
    obtain rfl : n = s.metap.nmaps * 2^s.metap.bmshift := by omega
    apply hfull
    obtain ⟨k, hk⟩ :=
      Nat.exists_eq_succ_of_ne_zero
        (show s.metap.nmaps ≠ 0 from fun hzero => by simp [hzero] at hpos)
    rw [hk, Nat.succ_mul, Nat.add_sub_assoc (by omega), Nat.mul_add_mod_self_right,
      Nat.mod_eq_of_lt (by omega)]

/-- One more overflow page, perhaps with a new bitmap page. -/
theorem Layout.addovflpage
    (hm : addovflpageExtend blcksz s.metap origFirstfree = some (m', blkno)) :
    Layout { s with metap := m' } ∧ Extends s.metap m' := by
  obtain ⟨c, f, nmaps, mapp, hlt, hcle, hnmaps, rfl, _, _⟩ := addovflpageExtend_spec h hm
  refine h.grow (t := ⟨_, s.inUse⟩) (c :=
    c) le_rfl h.maxbucket_le h.ovflpoint_eq (fun i hi => ?_) (fun i hi hi' => ?_)
    (le_of_lt hlt) hcle hnmaps rfl (fun bit hbit => h.marked bit (by omega))
  · exact update_of_ne (by omega) _ _
  · dsimp only at hi' ⊢
    rw [show i = s.metap.ovflpoint by omega, update_self]

/-- The first bit to search from can change, and the bits of pages that exist. -/
theorem Layout.mark (firstfree : ℕ) {inUse : ℕ → Bool}
    (hmarked : ∀ bit, s.metap.spares s.metap.ovflpoint ≤ bit → inUse bit = true) :
    Layout ⟨{ s.metap with firstfree := firstfree }, inUse⟩ ∧
    Extends s.metap { s.metap with firstfree := firstfree } :=
  ⟨{ h with marked := hmarked }, { Extends.refl s.metap with }⟩

/-- Every change keeps the invariant and extends the metapage. -/
theorem Layout.step {c : Change} (hstep : step blcksz s c = some t) :
    Layout t ∧ Extends s.metap t.metap := by
  cases c with
  | expandtable =>
    rw [Hash.step, map_eq_some_iff] at hstep
    obtain ⟨m', hm, rfl⟩ := hstep
    exact h.expandtable hm
  | addovflpage origFirstfree =>
    rw [Hash.step, map_eq_some_iff] at hstep
    obtain ⟨⟨m', blkno⟩, hm, rfl⟩ := hstep
    exact h.addovflpage hm
  | recycle origFirstfree bit =>
    rw [Hash.step] at hstep
    split_ifs at hstep with hfree
    obtain rfl := some.inj hstep
    obtain ⟨f, hf⟩ := adjustFirstfree_spec s.metap origFirstfree bit
    rw [hf]
    refine h.mark f fun b hb => ?_
    rw [update_apply]
    split_ifs
    · rfl
    · exact h.marked b hb
  | freeovflpage bit =>
    rw [Hash.step] at hstep
    split_ifs at hstep with hused
    obtain rfl := some.inj hstep
    refine h.mark _ fun b hb => ?_
    rw [update_of_ne (by omega)]
    exact h.marked b hb

end

/-! ### The start -/

/-- The initial number of buckets. -/
theorem initialBuckets_bounds (d : ℚ) : 2 ≤ initialBuckets d ∧ initialBuckets d ≤ 0x40000000 := by
  unfold initialBuckets
  split_ifs with hlow hhigh
  · omega
  · omega
  · have hfloor : 2 ≤ ⌊d⌋ := Int.le_floor.mpr (by push_cast; exact le_of_lt (not_le.mp hlow))
    have hfloor' : ⌊d⌋ < 0x40000000 := Int.floor_lt.mpr (by push_cast; exact not_le.mp hhigh)
    generalize hn : ⌊d⌋.toNat = n
    have hgroup := hashSpareindex_inGroup (n := n) (by omega) (by omega)
    refine ⟨by have := hgroup.1.le; omega, ?_⟩
    have hindex : hashSpareindex 0x40000000 = 93 := by decide +kernel
    have htotal : hashGetTotalbuckets 93 = 0x40000000 := by decide +kernel
    rw [← htotal]
    refine hashGetTotalbuckets_mono _ _ ?_ (by decide)
    rw [← hindex]
    exact hashSpareindex_mono (by omega) (by omega) (by decide)

theorem hashInit_layout (blcksz : BlockSize) (d : ℚ) : Layout (hashInit blcksz d) := by
  obtain ⟨hlow, hhigh⟩ := initialBuckets_bounds d
  have hindex : initialBuckets d - 1 + 1 = initialBuckets d := by omega
  have hpos : 1 ≤ hashSpareindex (initialBuckets d) := hashSpareindex_pos hlow (by omega)
  have hlog : Nat.log2 (blcksz.size - 40) ≤ 14 := by
    have hlow := blcksz.low
    have hhigh := blcksz.high
    have : Nat.log2 (blcksz.size - 40) < 15 := (Nat.log2_lt (by omega)).mpr (by omega)
    omega
  have hspares : (hashInit blcksz d).metap.spares = update (fun _ => 0)
      (hashSpareindex (initialBuckets d)) 1 := rfl
  have hlast : (hashInit blcksz d).metap.spares (hashInit blcksz d).metap.ovflpoint = 1 := by
    rw [hspares]
    exact update_self ..
  refine ⟨?_, ?_, ?_, ?_, ?_, le_of_eq hlast.symm, ?_, ?_, ?_, ?_, fun _ _ => rfl⟩
  · show 1 ≤ initialBuckets d - 1
    omega
  · show initialBuckets d - 1 ≤ 0x7FFFFFFE
    omega
  · show hashSpareindex (initialBuckets d) = hashSpareindex (initialBuckets d - 1 + 1)
    rw [hindex]
  · rw [hspares, update_of_ne (ne_of_lt hpos)]
  · intro i j hij hj
    change j ≤ hashSpareindex (initialBuckets d) at hj
    rw [hspares, update_apply, update_apply]
    split_ifs <;> omega
  · rw [hlast, show (hashInit blcksz d).metap.nmaps = 1 from rfl, one_mul]
    exact Nat.one_le_two_pow
  · exact Nat.le_of_ble_eq_true rfl
  · show 1 ≤ Nat.log2 (blcksz.size - 40) + 3
    omega
  · show Nat.log2 (blcksz.size - 40) + 3 ≤ 17
    omega

end

/-! ## The layout never collides -/

/-- The pages of an index: the metapage, the first pages of buckets, and the overflow and bitmap
pages by their bits. -/
inductive HashPage
  | metapage
  | bucket (b : ℕ)
  | bit (n : ℕ)

/-- The page exists. -/
def Assigned (m : HashMetaPage) : HashPage → Prop
  | .metapage => True
  | .bucket b => b ≤ m.maxbucket
  | .bit n => n < m.spares m.ovflpoint

/-- The block of a page; the metapage is `HASH_METAPAGE`. -/
def blockOf (m : HashMetaPage) : HashPage → ℕ
  | .metapage => 0
  | .bucket b => bucketToBlkno m b
  | .bit n => bitnoToBlkno m n

section
variable {blcksz : BlockSize} {s : HashState}

/-- Different pages have different blocks. -/
theorem Layout.blockOf_inj (h : Layout s) {p q : HashPage} (hp : Assigned s.metap p)
    (hq : Assigned s.metap q)
    (heq : blockOf s.metap p = blockOf s.metap q) : p = q := by
  have hbucketpos : ∀ {b}, b ≤ s.metap.maxbucket → 0 < bucketToBlkno s.metap b := by
    intro b hb
    rw [h.bucketToBlkno_eq hb]
    omega
  have hmetapage : hashOvflblknoToBitno s.metap 0 = .error ⟨0⟩ := by
    rw [hashOvflblknoToBitno, ovflblknoLoop, if_pos h.ovflpoint_pos, if_pos (Nat.zero_le _)]
  -- The inverse map tells the bits from each other and from the other pages.
  have hinverse := congrArg (hashOvflblknoToBitno s.metap) heq
  cases p with
  | metapage =>
    cases q with
    | metapage => rfl
    | bucket b => exact absurd heq (ne_of_lt (hbucketpos hq))
    | bit n => cases hmetapage.symm.trans (hinverse.trans (h.bitno_inverse hq))
  | bucket b =>
    cases q with
    | metapage => exact absurd heq.symm (ne_of_lt (hbucketpos hp))
    | bucket b' =>
      have hright : LeftAt hashGetTotalbuckets s.metap.spares s.metap.ovflpoint (b' + 1)
          (bucketToBlkno s.metap b) := by
        rw [show bucketToBlkno s.metap b = bucketToBlkno s.metap b' from heq]
        exact h.bucket_left hq
      have := (h.bucket_left hp).inj h.spares_mono hright
      rw [show b = b' by omega]
    | bit n => cases (h.bucket_raises hp).symm.trans (hinverse.trans (h.bitno_inverse hq))
  | bit n =>
    have hbit := (h.bitno_inverse hp).symm.trans hinverse
    cases q with
    | metapage => cases hbit.trans hmetapage
    | bucket b => cases hbit.trans (h.bucket_raises hq)
    | bit n' =>
      cases hbit.trans (h.bitno_inverse hq)
      rfl

/-- The block of a bucket, be it the new one, can be computed before the metapage is updated. -/
theorem bucketToBlkno_expandtable {m : HashMetaPage} (hm : hashExpandtable m = some m')
    (hb : b ≤ m.maxbucket + 1) :
    bucketToBlkno m' b = bucketToBlkno m b := by
  obtain ⟨hlt, _, _, _, _, _, _, hspares⟩ := hashExpandtable_spec hm
  have hmono :=
    hashSpareindex_mono (show 1 ≤ b + 1 by omega) (show b + 1 ≤ m.maxbucket + 2 by omega) (by omega)
  have hold := hspares (hashSpareindex (b + 1) - 1)
  rw [if_neg (by omega)] at hold
  unfold bucketToBlkno
  rw [hold]

/-- The block of a new overflow page can be computed before the metapage is updated. -/
theorem Layout.newPage (h : Layout s)
    (hm : addovflpageExtend blcksz s.metap origFirstfree = some (m', blkno)) :
    blkno = bitnoToBlkno m' (m'.spares m'.ovflpoint - 1) := by
  have h' := (h.addovflpage hm).1
  have hbound := h.spares_bound le_rfl
  obtain ⟨c, f, nmaps, mapp, hlt, _, _, rfl, hc, rfl⟩ := addovflpageExtend_spec h hm
  -- Both before and after the change, the bit is in the last phase.
  have hearlier : ∀ i < s.metap.ovflpoint, s.metap.spares i ≤ c - 1 := by
    intro i hi
    have := h.spares_mono i _ (le_of_lt hi) le_rfl
    omega
  dsimp only
  rw [update_self, h.bitno_last (by omega) hearlier, h'.bitno_last (by omega) fun i hi => ?_]
  dsimp only at hi ⊢
  rw [update_of_ne (ne_of_lt hi)]
  exact hearlier i hi

/-- Blocks never collide. After every sequence of changes to a new hash index:
* the metapage, the buckets and the overflow and bitmap pages are in different blocks;
* after any further changes, a page that exists is still in the same block;
* `_hash_ovflblkno_to_bitno` gives the bit of every overflow and bitmap page, and raises for every
bucket;
* the blocks that `_hash_expandtable` and `_hash_addovflpage` compute for new pages before they
  update the metapage are the ones that these have after it, and a page that is marked free exists.
  -/
theorem hash_blocks_never_collide {d : ℚ} {cs : List Change}
    (h : Runs.Run (step blcksz) (fun _ _ => True) (hashInit blcksz d) cs s) :
    (∀ p q, Assigned s.metap p → Assigned s.metap q →
      blockOf s.metap p = blockOf s.metap q → p = q) ∧
    (∀ cs' t, Runs.Run (step blcksz) (fun _ _ => True) s cs' t →
      ∀ p, Assigned s.metap p → Assigned t.metap p ∧ blockOf t.metap p = blockOf s.metap p) ∧
    (∀ n, Assigned s.metap (.bit n) →
      hashOvflblknoToBitno s.metap (bitnoToBlkno s.metap n) = .ok n) ∧
    (∀ b, Assigned s.metap (.bucket b) →
      hashOvflblknoToBitno s.metap (bucketToBlkno s.metap b) = .error ⟨bucketToBlkno s.metap b⟩) ∧
    (∀ m', hashExpandtable s.metap = some m' →
      bucketToBlkno s.metap (s.metap.maxbucket + 1) = bucketToBlkno m' (s.metap.maxbucket + 1)) ∧
    (∀ origFirstfree m' blkno, addovflpageExtend blcksz s.metap origFirstfree = some (m', blkno) →
      blkno = bitnoToBlkno m' (m'.spares m'.ovflpoint - 1)) ∧
    (∀ bit, s.inUse bit = false → Assigned s.metap (.bit bit)) := by
  have hlayout : Layout s :=
    h.invariant Layout (hashInit_layout blcksz d) fun a c b ha _ hb => (ha.step hb).1
  refine ⟨fun p q hp hq heq => hlayout.blockOf_inj hp hq heq,
    fun cs' t hrun p hp => ?_, fun n hn => hlayout.bitno_inverse hn,
    fun b hb => hlayout.bucket_raises hb, fun m' hm =>
      (bucketToBlkno_expandtable hm le_rfl).symm, fun o m' blkno hm => hlayout.newPage hm,
    fun bit hbit => ?_⟩
  · obtain ⟨h', he⟩ : Layout t ∧ Extends s.metap t.metap :=
      hrun.invariant (fun u => Layout u ∧ Extends s.metap u.metap) ⟨hlayout, Extends.refl _⟩
        fun a c b ha _ hb =>
        ⟨(ha.1.step hb).1, ha.2.trans (ha.1.step hb).2⟩
    -- A page keeps its block when the metapage is extended.
    cases p with
    | metapage => exact ⟨trivial, rfl⟩
    | bucket b => exact ⟨le_trans hp he.maxbucket_le, he.bucketToBlkno_eq hlayout h' hp⟩
    | bit n => exact ⟨lt_of_lt_of_le hp (he.spares_last_le h'), he.bitnoToBlkno_eq hlayout h' hp⟩
  · by_contra hge
    exact absurd ((hlayout.marked bit (not_lt.mp hge)).symm.trans hbit) (by decide)

/-- The usual size of a page. -/
def blockSize8192 : BlockSize := ⟨8192, Nat.le_of_ble_eq_true rfl, Nat.le_of_ble_eq_true rfl⟩

/-- A new index of two buckets with a third one added to it: the third bucket starts the second
phase, behind the bitmap page. -/
theorem hash_blocks_third_bucket :
    ∃ s, Runs.Run (step blockSize8192) (fun _ _ => True) (hashInit blockSize8192 0)
      [.expandtable] s ∧
      Assigned s.metap (.bucket 2) ∧ Assigned s.metap (.bit 0) ∧
      blockOf s.metap (.bucket 2) ≠ blockOf s.metap (.bit 0) := by
  have hstep : (step blockSize8192 (hashInit blockSize8192 0) .expandtable).map
      (fun s => (s.metap.maxbucket, s.metap.spares s.metap.ovflpoint)) = some (2, 1) := by
        decide +kernel
  obtain ⟨s, hs, hcounts⟩ := map_eq_some_iff.mp hstep
  obtain ⟨hmax, hspares⟩ := Prod.mk.inj hcounts
  have hrun : Runs.Run (step blockSize8192) (fun _ _ => True) (hashInit blockSize8192 0)
      [.expandtable] s := .concat .nil trivial hs
  have hbucket : Assigned s.metap (.bucket 2) := le_of_eq hmax.symm
  have hbit : Assigned s.metap (.bit 0) := by
    show 0 < s.metap.spares s.metap.ovflpoint
    omega
  refine ⟨s, hrun, hbucket, hbit, fun heq => ?_⟩
  have := (hash_blocks_never_collide hrun).1 _ _ hbucket hbit heq
  exact HashPage.noConfusion this

end

end PgAutoIndex.Hash
