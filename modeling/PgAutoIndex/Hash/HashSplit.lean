import PgAutoIndex.Bytes
import PgAutoIndex.Hash.HashLayout

/-!
# The split of a bucket

Model of the functions of `src/backend/access/hash/hashutil.c` that say which bucket a hash value
belongs to and which two buckets a split is between.

The masks of the metapage are `2^k - 1` and `2^(k + 1) - 1`, with the number of buckets between
`2^k` and `2^(k + 1)` (`Masks`). Where it is `2^(k + 1)`, the level `k + 1` gives the same buckets
(`bucketAt_full`), so that an expansion can always be looked at from the level of the new bucket
(`Masks.expandtable`).
-/

namespace PgAutoIndex.Hash

/-- `_hash_hashkey2bucket`. -/
def hashHashkey2bucket (hashkey maxbucket highmask lowmask : ℕ) : ℕ :=
  let bucket := hashkey &&& highmask
  if bucket > maxbucket then bucket &&& lowmask else bucket

/-- `old_bucket` in `_hash_expandtable`, the bucket that is split. -/
def oldBucket (metap : HashMetaPage) : ℕ := (metap.maxbucket + 1) &&& metap.lowmask

/-- `_hash_get_oldblock_from_newbucket`, with the metapage that it reads. -/
def hashGetOldblockFromNewbucket (metap : HashMetaPage) (newBucket : ℕ) : ℕ :=
  let mask := (1 <<< Nat.log2 newBucket) - 1
  bucketToBlkno metap (newBucket &&& mask)

/-- `CALC_NEW_BUCKET`. -/
def calcNewBucket (oldBucket lowmask : ℕ) : ℕ := oldBucket ||| (lowmask + 1) % 2^32

/-- `_hash_get_newbucket_from_oldbucket`. -/
def hashGetNewbucketFromOldbucket (oldBucket lowmask maxbucket : ℕ) : ℕ :=
  let newBucket := calcNewBucket oldBucket lowmask
  if newBucket > maxbucket then calcNewBucket oldBucket (lowmask >>> 1) else newBucket

/-- The bucket of a hash value by a metapage. -/
def bucketOf (metap : HashMetaPage) (hashkey : ℕ) : ℕ :=
  hashHashkey2bucket hashkey metap.maxbucket metap.highmask metap.lowmask

/-- The second metapage comes from the first one by expansions. -/
abbrev Expansions : HashMetaPage → HashMetaPage → Prop :=
  Relation.ReflTransGen fun m m' => hashExpandtable m = some m'

/-! ## Levels -/

/-- The masks of level `k`. -/
structure Masks (metap : HashMetaPage) (k : ℕ) : Prop where
  lowmask : metap.lowmask = 2^k - 1
  highmask : metap.highmask = 2^(k + 1) - 1
  ge : 2^k ≤ metap.maxbucket + 1
  le : metap.maxbucket + 1 ≤ 2^(k + 1)

/-- The bucket of a hash value at level `k`. -/
def bucketAt (k maxbucket hashkey : ℕ) : ℕ :=
  if hashkey % 2^(k + 1) > maxbucket then hashkey % 2^k else hashkey % 2^(k + 1)

variable {blcksz : BlockSize} {d : ℚ} {m m' m'' : HashMetaPage} {k b maxbucket : ℕ}

theorem mod_mod_two_pow_succ (hashkey k : ℕ) : hashkey % 2^(k + 1) % 2^k = hashkey % 2^k :=
  Nat.mod_mod_of_dvd hashkey (Nat.pow_dvd_pow 2 k.le_succ)

theorem Masks.bucketOf_eq (h : Masks m k) (hashkey : ℕ) :
    bucketOf m hashkey = bucketAt k m.maxbucket hashkey := by
  unfold bucketOf hashHashkey2bucket bucketAt
  dsimp only
  rw [h.lowmask, h.highmask, Nat.and_two_pow_sub_one_eq_mod, Nat.and_two_pow_sub_one_eq_mod,
    mod_mod_two_pow_succ]

/-- With `2^(k + 1)` buckets, the next level gives the same ones. -/
theorem bucketAt_full (hfull : maxbucket + 1 = 2^(k + 1)) (hashkey : ℕ) :
    bucketAt k maxbucket hashkey = bucketAt (k + 1) maxbucket hashkey := by
  have hlt := Nat.mod_lt hashkey (Nat.two_pow_pos (k + 1))
  unfold bucketAt
  rw [if_neg (by omega)]
  split_ifs with hlarge
  · rfl
  · rw [← mod_mod_two_pow_succ, Nat.mod_eq_of_lt (by omega)]

/-! ## Expansions -/

/-- An expansion from the level of the new bucket. -/
theorem Masks.expandtable (h : Masks m k) (hm : hashExpandtable m = some m') :
    ∃ j, Masks m' j ∧ 2^j ≤ m'.maxbucket ∧ m'.maxbucket < 2^(j + 1) ∧
      oldBucket m = m'.maxbucket % 2^j ∧
      ∀ hashkey, bucketOf m hashkey = bucketAt j m.maxbucket hashkey := by
  obtain ⟨_, hmax, hlow, hhigh, _⟩ := hashExpandtable_spec hm
  have hge := h.ge
  have hle := h.le
  have hpos := Nat.two_pow_pos k
  have hpow : 2^(k + 1) = 2 * 2^k := Nat.pow_succ'
  rw [h.highmask] at hlow hhigh
  rw [oldBucket, h.lowmask, Nat.and_two_pow_sub_one_eq_mod, ← hmax]
  by_cases hfull : m.maxbucket + 1 = 2^(k + 1)
  · -- The masks are doubled.
    have hpow' : 2^(k + 2) = 2 * 2^(k + 1) := Nat.pow_succ'
    have hor : 2^(k + 1) ||| (2^(k + 1) - 1) = 2^(k + 2) - 1 := by
      have hadd := Nat.two_pow_add_eq_or_of_lt (show 2^(k + 1) - 1 < 2^(k + 1) by omega) 1
      rw [mul_one] at hadd
      omega
    rw [if_pos (by omega)] at hlow hhigh
    rw [hfull, hor] at hhigh
    refine ⟨k + 1, ⟨hlow, hhigh, by omega, by omega⟩, by omega, by omega, ?_, fun hashkey => ?_⟩
    · rw [hmax, hfull, Nat.mod_self, hpow, Nat.mul_mod_left]
    · rw [h.bucketOf_eq, bucketAt_full hfull]
  · rw [if_neg (by omega)] at hlow hhigh
    exact ⟨k, ⟨hlow.trans h.lowmask, hhigh, by omega, by omega⟩, by omega, by omega, rfl,
      h.bucketOf_eq⟩

/-- The masks of a new index cover its buckets. -/
theorem hashInitMetabuffer_masks (blcksz : BlockSize) (d : ℚ) :
    ∃ k, Masks (hashInitMetabuffer blcksz d) k := by
  have hbuckets := (initialBuckets_bounds d).1
  obtain ⟨k, hpow, hge, hlt⟩ := pgNextpower2_spec (Nat.succ_pos (initialBuckets d))
  obtain _ | k := k
  · omega
  have hmax : (hashInitMetabuffer blcksz d).maxbucket + 1 = initialBuckets d :=
    Nat.sub_add_cancel (by omega)
  have hhigh : (hashInitMetabuffer blcksz d).highmask = 2^(k + 1) - 1 := by rw [← hpow]; rfl
  have hlow : (hashInitMetabuffer blcksz d).lowmask = 2^k - 1 := by
    show (hashInitMetabuffer blcksz d).highmask >>> 1 = _
    rw [hhigh, Nat.shiftRight_eq_div_pow]
    omega
  exact ⟨k, hlow, hhigh, by omega, by omega⟩

theorem Expansions.masks (h : Expansions (hashInitMetabuffer blcksz d) m) : ∃ k, Masks m k := by
  induction h with
  | refl => exact hashInitMetabuffer_masks blcksz d
  | tail _ hm ih =>
    obtain ⟨k, hk⟩ := ih
    obtain ⟨j, hj, _⟩ := hk.expandtable hm
    exact ⟨j, hj⟩

/-- The buckets that exist stay in their blocks. -/
theorem Expansions.bucketToBlkno_eq (h : Expansions m m') (hb : b ≤ m.maxbucket + 1) :
    m.maxbucket ≤ m'.maxbucket ∧ bucketToBlkno m' b = bucketToBlkno m b := by
  induction h with
  | refl => exact ⟨le_rfl, rfl⟩
  | tail _ hm ih =>
    obtain ⟨_, hmax, _⟩ := hashExpandtable_spec hm
    exact ⟨by omega, (bucketToBlkno_expandtable hm (by omega)).trans ih.2⟩

/-- A split moves hash values from the old bucket to the new one only. In every metapage that comes
from a new one by expansions, a hash value has one of the buckets that exist. After one more
expansion:
* a hash value of another bucket than the old one keeps its bucket, and one of the old bucket has
the old or the new one;
* from the new bucket, by any later metapage too, `_hash_get_oldblock_from_newbucket` gets to the
block of the old bucket;
* from the old bucket `_hash_get_newbucket_from_oldbucket` gets to the new one. -/
theorem hash_split_moves_to_new_bucket (h : Expansions (hashInitMetabuffer blcksz d) m) :
    (∀ hashkey, bucketOf m hashkey ≤ m.maxbucket) ∧
    ∀ m', hashExpandtable m = some m' →
      m'.maxbucket = m.maxbucket + 1 ∧
      (∀ hashkey, bucketOf m hashkey ≠ oldBucket m → bucketOf m' hashkey = bucketOf m hashkey) ∧
      (∀ hashkey, bucketOf m hashkey = oldBucket m → bucketOf m' hashkey = oldBucket m ∨
        bucketOf m' hashkey = m'.maxbucket) ∧
      (∀ m'', Expansions m' m'' →
        hashGetOldblockFromNewbucket m'' m'.maxbucket = bucketToBlkno m (oldBucket m)) ∧
      hashGetNewbucketFromOldbucket (oldBucket m) m'.lowmask m'.maxbucket = m'.maxbucket := by
  obtain ⟨k, hk⟩ := h.masks
  refine ⟨fun hashkey => ?_, fun m' hm => ?_⟩
  · have hge := hk.ge
    have hlt := Nat.mod_lt hashkey (Nat.two_pow_pos k)
    rw [hk.bucketOf_eq, bucketAt]
    split_ifs <;> omega
  obtain ⟨hless, hmax, _⟩ := hashExpandtable_spec hm
  obtain ⟨j, hj, hge, hlt, hold, hbucket⟩ := hk.expandtable hm
  have hsplit : ∀ hashkey, bucketOf m' hashkey = bucketOf m hashkey ∨
      bucketOf m hashkey = oldBucket m ∧ bucketOf m' hashkey = m'.maxbucket := by
    intro hashkey
    rw [hj.bucketOf_eq, hbucket, hold, hmax]
    unfold bucketAt
    -- The new bucket takes the hash values of its own number out of the old one.
    by_cases hnew : hashkey % 2^(j + 1) = m.maxbucket + 1
    · right
      rw [← mod_mod_two_pow_succ hashkey j, hnew, if_pos (Nat.lt_succ_self _),
        if_neg (Nat.lt_irrefl _)]
      exact ⟨rfl, rfl⟩
    · left
      split_ifs <;> omega
  refine ⟨hmax, fun hashkey hne => ?_, fun hashkey heq => ?_, fun m'' hlater => ?_, ?_⟩
  · exact (hsplit hashkey).resolve_right fun hand => hne hand.1
  · exact (hsplit hashkey).imp (fun hsame => hsame.trans heq) And.right
  · have hlog : Nat.log2 m'.maxbucket = j := (Nat.log2_eq_iff (by omega)).mpr ⟨hge, hlt⟩
    have hle : oldBucket m ≤ m.maxbucket + 1 := by
      rw [hold, ← hmax]
      exact Nat.mod_le _ _
    rw [hashGetOldblockFromNewbucket, hlog, Nat.one_shiftLeft, Nat.and_two_pow_sub_one_eq_mod,
      ← hold, (hlater.bucketToBlkno_eq (by omega)).2,
      bucketToBlkno_expandtable hm hle]
  · have hbit : calcNewBucket (oldBucket m) m'.lowmask = m'.maxbucket := by
      have hpow : 2^j < 2^32 := by omega
      have hor := Nat.two_pow_add_eq_or_of_lt (Nat.mod_lt m'.maxbucket (Nat.two_pow_pos j)) 1
      have hdiv := Nat.mod_add_div m'.maxbucket (2^j)
      rw [Nat.div_eq_of_lt_le (by rwa [one_mul]) (by rw [← Nat.pow_succ']; exact hlt)] at hdiv
      rw [mul_one] at hor hdiv
      rw [calcNewBucket, hj.lowmask, Nat.sub_add_cancel Nat.one_le_two_pow, Nat.mod_eq_of_lt hpow,
        hold, Nat.or_comm, ← hor]
      omega
    rw [hashGetNewbucketFromOldbucket, hbit, if_neg (Nat.lt_irrefl _)]

/-- A new index of two buckets: the third one takes hash values from the first one. -/
theorem hash_split_third_bucket :
    ∃ m', hashExpandtable (hashInitMetabuffer blockSize8192 0) = some m' ∧
      oldBucket (hashInitMetabuffer blockSize8192 0) = 0 ∧
      hashGetNewbucketFromOldbucket 0 m'.lowmask m'.maxbucket = 2 := by
  have hexpand : (hashExpandtable (hashInitMetabuffer blockSize8192 0)).map (·.maxbucket) =
      some 2 := by decide +kernel
  have hold : oldBucket (hashInitMetabuffer blockSize8192 0) = 0 := by decide +kernel
  obtain ⟨m', hm, hmax⟩ := Option.map_eq_some_iff.mp hexpand
  obtain ⟨_, _, _, _, hnew⟩ := (hash_split_moves_to_new_bucket .refl).2 m' hm
  rw [hold] at hnew
  exact ⟨m', hm, hold, hnew.trans hmax⟩

end PgAutoIndex.Hash
