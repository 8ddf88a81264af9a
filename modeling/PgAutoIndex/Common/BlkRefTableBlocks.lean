import PgAutoIndex.Common.BlkRefTable

/-!
# The blocks of an entry in a range

Model of `BlockRefTableEntryGetBlocks` of `src/common/blkreftable.c`. A read of chunk data outside
the allocation of the chunk makes the result `none`.

The loops append the blocks they find to the result and stop when it has `nblocks` elements.
`collect` says what that gives for a list of blocks, so that each loop is described by the list of
the blocks that it looks at. For the last chunk of the entry that list ends with the chunk, whereas
the loop goes on when the range does and the chunk is a bitmap: `getBlocks_eq` says when the result
is the list and when the loop leaves the allocation.
-/

namespace PgAutoIndex.Common

open List

/-! ## The model -/

/-- The loop over a bitmap with `n` offsets to go: whether there is no more room, and the result so
far. -/
def bitmapLoop (chunk : Chunk) (base nblocks : ℕ) : ℕ → ℕ → List ℕ → Option (Bool × List ℕ)
  | 0, _, blocks => some (false, blocks)
  | n + 1, i, blocks =>
    if i / BLOCKS_PER_ENTRY < chunk.chunkSize then
      let w := chunk.chunkData (i / BLOCKS_PER_ENTRY)
      if w &&& 1 <<< (i % BLOCKS_PER_ENTRY) ≠ 0 then
        let blocks := blocks ++ [base + i]
        if blocks.length = nblocks then some (true, blocks)
        else bitmapLoop chunk base nblocks n (i + 1) blocks
      else bitmapLoop chunk base nblocks n (i + 1) blocks
    else none

/-- The loop over an array of offsets with `n` to go. -/
def arrayLoop (chunk : Chunk) (base startOffset stopOffset nblocks : ℕ) :
    ℕ → ℕ → List ℕ → Option (Bool × List ℕ)
  | 0, _, blocks => some (false, blocks)
  | n + 1, i, blocks =>
    if i < chunk.chunkSize then
      let offset := chunk.chunkData i
      if offset ≥ startOffset ∧ offset < stopOffset then
        let blocks := blocks ++ [base + offset]
        if blocks.length = nblocks then some (true, blocks)
        else arrayLoop chunk base startOffset stopOffset nblocks n (i + 1) blocks
      else arrayLoop chunk base startOffset stopOffset nblocks n (i + 1) blocks
    else none

/-- The blocks of one chunk. -/
def scanChunk (chunk : Chunk) (chunkno startOffset stopOffset nblocks : ℕ) (blocks : List ℕ) :
    Option (Bool × List ℕ) :=
  if chunk.chunkUsage = MAX_ENTRIES_PER_CHUNK then
    bitmapLoop chunk (chunkno * BLOCKS_PER_CHUNK) nblocks
      (stopOffset - startOffset) startOffset blocks
  else arrayLoop chunk (chunkno * BLOCKS_PER_CHUNK) startOffset stopOffset nblocks
    chunk.chunkUsage 0 blocks

/-- The part of a chunk that is of interest. -/
def chunkRange (startBlkno stopBlkno startChunkno stopChunkno chunkno : ℕ) : ℕ × ℕ :=
  (if chunkno = startChunkno then startBlkno % BLOCKS_PER_CHUNK else 0,
    if chunkno = stopChunkno - 1 then stopBlkno - chunkno * BLOCKS_PER_CHUNK else BLOCKS_PER_CHUNK)

/-- The loop over the chunks, with `n` to go. -/
def entryChunksLoop (entry : BlockRefTableEntry)
    (startBlkno stopBlkno nblocks startChunkno stopChunkno : ℕ) : ℕ → ℕ → List ℕ → Option (List ℕ)
  | 0, _, blocks => some blocks
  | n + 1, chunkno, blocks =>
    let (startOffset, stopOffset) :=
      chunkRange startBlkno stopBlkno startChunkno stopChunkno chunkno
    match scanChunk (entry.chunks chunkno) chunkno startOffset stopOffset nblocks blocks with
    | none => none
    | some (true, blocks) => some blocks
    | some (false, blocks) =>
      entryChunksLoop entry startBlkno stopBlkno nblocks startChunkno stopChunkno n
        (chunkno + 1) blocks

/-- The number of chunks up to the end of the range. -/
def stopChunknoOf (entry : BlockRefTableEntry) (stopBlkno : ℕ) : ℕ :=
  let stopChunkno := stopBlkno / BLOCKS_PER_CHUNK
  let stopChunkno := if stopBlkno % BLOCKS_PER_CHUNK ≠ 0 then stopChunkno + 1 else stopChunkno
  if stopChunkno > entry.nchunks then entry.nchunks else stopChunkno

/-- `BlockRefTableEntryGetBlocks`. -/
def entryGetBlocks (entry : BlockRefTableEntry) (startBlkno stopBlkno nblocks : ℕ) :
    Option (List ℕ) :=
  let startChunkno := startBlkno / BLOCKS_PER_CHUNK
  let stopChunkno := stopChunknoOf entry stopBlkno
  entryChunksLoop entry startBlkno stopBlkno nblocks startChunkno stopChunkno
    (stopChunkno - startChunkno) startChunkno []

/-! ## Collecting blocks -/

/-- What appending a list of blocks gives: whether there is no more room, and the result. -/
def collect (nblocks : ℕ) (blocks new : List ℕ) : Bool × List ℕ :=
  if blocks.length < nblocks ∧ nblocks ≤ blocks.length + new.length
    then (true, blocks ++ new.take (nblocks - blocks.length))
  else (false, blocks ++ new)

theorem collect_nil (nblocks : ℕ) (blocks : List ℕ) :
    collect nblocks blocks [] = (false, blocks) := by
  rw [collect, if_neg (by rw [length_nil]; omega), append_nil]

/-- Two lists, one after the other. -/
theorem collect_append (nblocks : ℕ) (blocks new more : List ℕ) :
    collect nblocks blocks (new ++ more) =
      if (collect nblocks blocks new).1 then collect nblocks blocks new
      else collect nblocks (collect nblocks blocks new).2 more := by
  unfold collect
  rw [length_append]
  by_cases hnew : blocks.length < nblocks ∧ nblocks ≤ blocks.length + new.length
  · rw [if_pos hnew, if_pos (by omega), if_pos rfl, take_append_of_le_length (by omega)]
  · rw [if_neg hnew, if_neg Bool.false_ne_true]
    rw [length_append]
    by_cases hmore : blocks.length < nblocks ∧ nblocks ≤ blocks.length + (new.length + more.length)
    · rw [if_pos hmore, if_pos (by omega), take_append, take_of_length_le (by omega), append_assoc,
        Nat.sub_sub]
    · rw [if_neg hmore, if_neg (by omega), append_assoc]

/-- One block and those after it. -/
theorem collect_cons (nblocks : ℕ) (blocks : List ℕ) (b : ℕ) (new : List ℕ) :
    collect nblocks blocks (b :: new) =
      if (blocks ++ [b]).length = nblocks then (true, blocks ++ [b])
      else collect nblocks (blocks ++ [b]) new := by
  have hone : collect nblocks blocks [b] =
      (decide ((blocks ++ [b]).length = nblocks), blocks ++ [b]) := by
    rw [collect, length_append, length_singleton]
    split_ifs with hlast
    · rw [take_of_length_le (by rw [length_singleton]; omega), decide_eq_true (by omega)]
    · rw [decide_eq_false (by omega)]
  rw [← singleton_append, collect_append, hone]
  split_ifs <;> simp_all

/-- The result is empty or grows. -/
theorem collect_nil_left (nblocks : ℕ) (new : List ℕ) :
    collect nblocks [] new = if 0 < nblocks ∧ nblocks ≤ new.length then (true, new.take nblocks)
      else (false, new) := by
  unfold collect
  rw [length_nil, zero_add, Nat.sub_zero, nil_append, nil_append]

/-! ## The loops -/

/-- The offsets of a part of a bitmap. -/
def bitOffsets (data : ℕ → ℕ) (i n : ℕ) : List ℕ := (range' i n).filter (bit data)

theorem bitOffsets_succ (data : ℕ → ℕ) (i n : ℕ) :
    bitOffsets data i (n + 1) = (if bit data i then [i] else []) ++ bitOffsets data (i + 1) n := by
  unfold bitOffsets
  rw [range'_succ, filter_cons]
  split_ifs <;> rfl

variable {chunkno n : ℕ} {chunk : Chunk} {entry : BlockRefTableEntry}

/-- The loop over a part of a bitmap that is inside the allocation, and what comes after it. -/
theorem bitmapLoop_add (base nblocks : ℕ) (m : ℕ) :
    ∀ n i blocks, i + n ≤ chunk.chunkSize * BLOCKS_PER_ENTRY →
    bitmapLoop chunk base nblocks (n + m) i blocks =
      if (collect nblocks blocks ((bitOffsets chunk.chunkData i n).map (base + ·))).1 then
        some (collect nblocks blocks ((bitOffsets chunk.chunkData i n).map (base + ·)))
      else bitmapLoop chunk base nblocks m (i + n)
        (collect nblocks blocks ((bitOffsets chunk.chunkData i n).map (base + ·))).2 := by
  intro n
  induction n with
  | zero =>
    intro i blocks _
    rw [show bitOffsets chunk.chunkData i 0 = [] from rfl, map_nil, collect_nil,
      if_neg Bool.false_ne_true, zero_add, add_zero]
  | succ n ih =>
    intro i blocks hin
    have hi : i / BLOCKS_PER_ENTRY < chunk.chunkSize := by
      unfold BLOCKS_PER_ENTRY at hin ⊢
      omega
    rw [show n + 1 + m = n + m + 1 by omega, bitmapLoop, if_pos hi, bitOffsets_succ]
    rw [show i + (n + 1) = i + 1 + n by omega]
    by_cases hbit : bit chunk.chunkData i = true
    · rw [if_pos ((and_shiftLeft_ne_zero).mpr hbit), if_pos hbit, singleton_append, map_cons,
        collect_cons]
      by_cases hroom : (blocks ++ [base + i]).length = nblocks
      · rw [if_pos hroom, if_pos hroom, if_pos rfl]
      · rw [if_neg hroom, if_neg hroom]
        exact ih (i + 1) _ (by omega)
    · rw [if_neg (fun h => hbit ((and_shiftLeft_ne_zero).mp h)), if_neg hbit, nil_append]
      exact ih (i + 1) blocks (by omega)

/-- The offsets of an array that are of interest. -/
def arrayOffsets (data : ℕ → ℕ) (lo hi i n : ℕ) : List ℕ :=
  ((range' i n).map data).filter fun o => decide (o ≥ lo ∧ o < hi)

theorem arrayLoop_spec (base lo hi nblocks : ℕ) : ∀ n i blocks, i + n ≤ chunk.chunkSize →
    arrayLoop chunk base lo hi nblocks n i blocks =
      some (collect nblocks blocks ((arrayOffsets chunk.chunkData lo hi i n).map (base + ·))) := by
  intro n
  induction n with
  | zero =>
    intro i blocks _
    rw [show arrayOffsets chunk.chunkData lo hi i 0 = [] from rfl, map_nil, collect_nil, arrayLoop]
  | succ n ih =>
    intro i blocks hin
    rw [arrayLoop, if_pos (by omega), arrayOffsets, range'_succ, map_cons, filter_cons]
    simp only [decide_eq_true_eq]
    by_cases hrange : chunk.chunkData i ≥ lo ∧ chunk.chunkData i < hi
    · rw [if_pos hrange, if_pos hrange, map_cons, collect_cons]
      by_cases hroom : (blocks ++ [base + chunk.chunkData i]).length = nblocks
      · rw [if_pos hroom, if_pos hroom]
      · rw [if_neg hroom, if_neg hroom]
        exact ih (i + 1) _ (by omega)
    · rw [if_neg hrange, if_neg hrange]
      exact ih (i + 1) blocks (by omega)

/-- The blocks of a part of a chunk. -/
def chunkBlocks (chunk : Chunk) (chunkno lo hi : ℕ) : List ℕ :=
  (if chunk.chunkUsage = MAX_ENTRIES_PER_CHUNK then bitOffsets chunk.chunkData lo
    (min hi BLOCKS_PER_CHUNK - lo)
    else arrayOffsets chunk.chunkData lo hi 0 chunk.chunkUsage).map (chunkno * BLOCKS_PER_CHUNK + ·)

/-- The scan of a chunk runs out of the allocation when the range does and the chunk is a bitmap,
unless there is no more room before. -/
theorem scanChunk_spec (h : ChunkOk chunk) (chunkno hi : ℕ) {lo : ℕ} (hlo : lo < BLOCKS_PER_CHUNK)
    (nblocks : ℕ) (blocks : List ℕ) :
    scanChunk chunk chunkno lo hi nblocks blocks =
      if chunk.chunkUsage = MAX_ENTRIES_PER_CHUNK ∧ BLOCKS_PER_CHUNK < hi ∧
          (collect nblocks blocks (chunkBlocks chunk chunkno lo hi)).1 = false then none
      else some (collect nblocks blocks (chunkBlocks chunk chunkno lo hi)) := by
  unfold scanChunk chunkBlocks
  by_cases hmax : chunk.chunkUsage = MAX_ENTRIES_PER_CHUNK
  · have hsize : chunk.chunkSize = MAX_ENTRIES_PER_CHUNK := le_antisymm h.size_le (hmax ▸ h.usage)
    have hin : lo + (min hi BLOCKS_PER_CHUNK - lo) ≤ chunk.chunkSize * BLOCKS_PER_ENTRY := by
      unfold BLOCKS_PER_CHUNK MAX_ENTRIES_PER_CHUNK BLOCKS_PER_ENTRY at *
      omega
    rw [if_pos hmax, if_pos hmax,
      show hi - lo = min hi BLOCKS_PER_CHUNK - lo + (hi - max lo BLOCKS_PER_CHUNK) by omega,
      bitmapLoop_add _ nblocks _ _ _ _ hin]
    cases hroom : (collect nblocks blocks
      ((bitOffsets chunk.chunkData lo (min hi BLOCKS_PER_CHUNK - lo)).map
        (chunkno * BLOCKS_PER_CHUNK + ·))).1 with
    | true => rw [if_pos rfl, if_neg (fun hand => by cases hand.2.2)]
    | false =>
      rw [if_neg Bool.false_ne_true]
      by_cases hover : BLOCKS_PER_CHUNK < hi
      · -- The next word is behind the last one.
        obtain ⟨k, hk⟩ : ∃ k, hi - max lo BLOCKS_PER_CHUNK = k + 1 :=
          ⟨hi - max lo BLOCKS_PER_CHUNK - 1, by omega⟩
        rw [if_pos ⟨hmax, hover, rfl⟩, hk, bitmapLoop, if_neg]
        unfold BLOCKS_PER_CHUNK MAX_ENTRIES_PER_CHUNK BLOCKS_PER_ENTRY at *
        omega
      · rw [if_neg (fun hand => hover hand.2.1), show hi - max lo BLOCKS_PER_CHUNK = 0 by omega,
          bitmapLoop, ← hroom]
  · rw [if_neg hmax, if_neg hmax, if_neg (fun hand => hmax hand.1)]
    exact arrayLoop_spec _ lo hi nblocks _ 0 blocks (by rw [zero_add]; exact h.usage)

theorem mem_chunkBlocks (h : ChunkOk chunk) {lo hi b : ℕ} :
    b ∈ chunkBlocks chunk chunkno lo hi ↔
      b / BLOCKS_PER_CHUNK = chunkno ∧ lo ≤ b % BLOCKS_PER_CHUNK ∧ b % BLOCKS_PER_CHUNK < hi ∧
      chunk.Has (b % BLOCKS_PER_CHUNK) := by
  -- The offsets that are of interest.
  have hoff : ∀ o, (o ∈ if chunk.chunkUsage = MAX_ENTRIES_PER_CHUNK then
        bitOffsets chunk.chunkData lo (min hi BLOCKS_PER_CHUNK - lo)
      else arrayOffsets chunk.chunkData lo hi 0 chunk.chunkUsage) ↔
        o < BLOCKS_PER_CHUNK ∧ lo ≤ o ∧ o < hi ∧ chunk.Has o := by
    intro o
    unfold Chunk.Has
    split_ifs with hmax
    · rw [bitOffsets, mem_filter, mem_range'_1, ← and_assoc, ← and_assoc]
      exact and_congr_left fun _ => by omega
    · unfold arrayOffsets
      rw [mem_filter, decide_eq_true_eq, ← range_eq_range', ← exists_lt_iff_mem]
      constructor
      · rintro ⟨⟨i, hi', rfl⟩, hlo, hhi⟩
        exact ⟨h.word i hi', hlo, hhi, i, hi', rfl⟩
      · rintro ⟨_, hlo, hhi, hhas⟩
        exact ⟨hhas, hlo, hhi⟩
  unfold chunkBlocks
  rw [mem_map]
  constructor
  · rintro ⟨o, ho, rfl⟩
    obtain ⟨hlt, hrest⟩ := (hoff o).mp ho
    have hdiv : (chunkno * BLOCKS_PER_CHUNK + o) / BLOCKS_PER_CHUNK = chunkno ∧
        (chunkno * BLOCKS_PER_CHUNK + o) % BLOCKS_PER_CHUNK = o := by
      unfold BLOCKS_PER_CHUNK at hlt ⊢
      omega
    rw [hdiv.1, hdiv.2]
    exact ⟨rfl, hrest⟩
  · rintro ⟨rfl, hrest⟩
    refine ⟨b % BLOCKS_PER_CHUNK, (hoff _).mpr ⟨Nat.mod_lt _ (by decide), hrest⟩, ?_⟩
    unfold BLOCKS_PER_CHUNK
    omega

theorem nodup_chunkBlocks (h : ChunkOk chunk) {chunkno lo hi : ℕ} :
    (chunkBlocks chunk chunkno lo hi).Nodup := by
  refine List.Nodup.map (fun a b hab => Nat.add_left_cancel hab) ?_
  split_ifs with hmax
  · exact (nodup_range' ..).filter _
  · refine List.Nodup.filter _ ?_
    rw [← range_eq_range']
    exact injective_iff_nodup.mp (h.distinct hmax)

/-! ## The loop over the chunks -/

section
variable (entry : BlockRefTableEntry) (startBlkno stopBlkno : ℕ)

/-- The part of a chunk that is of interest in the range. -/
def rangeOf (chunkno : ℕ) : ℕ × ℕ :=
  chunkRange startBlkno stopBlkno (startBlkno / BLOCKS_PER_CHUNK)
    (stopChunknoOf entry stopBlkno) chunkno

/-- The blocks of `n` chunks in the range. -/
def rangeBlocks (chunkno n : ℕ) : List ℕ :=
  (range' chunkno n).flatMap fun c =>
    chunkBlocks (entry.chunks c) c (rangeOf entry startBlkno stopBlkno c).1
      (rangeOf entry startBlkno stopBlkno c).2

/-- The last chunk that is looked at is a bitmap and ends before the range. -/
def LastOverruns : Prop :=
  (entry.chunks (stopChunknoOf entry stopBlkno - 1)).chunkUsage = MAX_ENTRIES_PER_CHUNK ∧
    stopChunknoOf entry stopBlkno * BLOCKS_PER_CHUNK < stopBlkno

/-- Whether the last chunk is overrun is decidable. -/
instance : Decidable (LastOverruns entry stopBlkno) := by
  unfold LastOverruns
  infer_instance

theorem rangeOf_fst_lt (chunkno : ℕ) :
    (rangeOf entry startBlkno stopBlkno chunkno).1 < BLOCKS_PER_CHUNK := by
  unfold rangeOf chunkRange
  dsimp only
  split_ifs
  · exact Nat.mod_lt _ (by decide)
  · decide

variable {entry startBlkno stopBlkno}

theorem stopChunknoOf_le : stopChunknoOf entry stopBlkno ≤ entry.nchunks := by
  unfold stopChunknoOf
  dsimp only
  split_ifs <;> omega

/-- Only the last chunk may end before the range. -/
theorem lt_rangeOf_snd_iff (h : chunkno < stopChunknoOf entry stopBlkno) :
    BLOCKS_PER_CHUNK < (rangeOf entry startBlkno stopBlkno chunkno).2 ↔
      chunkno + 1 = stopChunknoOf entry stopBlkno ∧
      stopChunknoOf entry stopBlkno * BLOCKS_PER_CHUNK < stopBlkno := by
  unfold rangeOf chunkRange
  dsimp only
  generalize stopChunknoOf entry stopBlkno = stop at h
  split_ifs with hlast
  · obtain rfl : stop = chunkno + 1 := by omega
    rw [Nat.succ_mul]
    exact ⟨fun hlt => ⟨rfl, by omega⟩, fun hlt => by omega⟩
  · exact ⟨fun hlt => absurd hlt (lt_irrefl _), fun hlt =>
      absurd (show chunkno = stop - 1 by omega) hlast⟩

/-- The loop gives the blocks of the chunks, unless the last of them is overrun. -/
theorem entryChunksLoop_spec (h : EntryOk entry) (nblocks : ℕ) :
    ∀ n chunkno blocks, (n ≠ 0 → chunkno + n = stopChunknoOf entry stopBlkno) →
    entryChunksLoop entry startBlkno stopBlkno nblocks (startBlkno / BLOCKS_PER_CHUNK)
      (stopChunknoOf entry stopBlkno) n chunkno blocks =
      if n ≠ 0 ∧ LastOverruns entry
        stopBlkno ∧ (collect nblocks blocks (rangeBlocks entry startBlkno stopBlkno chunkno n)).1 =
          false then none
      else some (collect nblocks blocks (rangeBlocks entry startBlkno stopBlkno chunkno n)).2 := by
  intro n
  induction n with
  | zero =>
    intro chunkno blocks _
    rw [show rangeBlocks entry startBlkno stopBlkno chunkno 0 = [] from rfl, collect_nil,
      entryChunksLoop, if_neg (fun hand => hand.1 rfl)]
  | succ n ih =>
    intro chunkno blocks hn
    have hchunk : chunkno < stopChunknoOf entry stopBlkno := by omega
    have hok : ChunkOk (entry.chunks chunkno) :=
      h.chunk chunkno (lt_of_lt_of_le hchunk stopChunknoOf_le)
    have hlo := rangeOf_fst_lt entry startBlkno stopBlkno chunkno
    have hhi : BLOCKS_PER_CHUNK < (rangeOf entry startBlkno stopBlkno chunkno).2 ↔ _ :=
      lt_rangeOf_snd_iff hchunk
    have hsucc : rangeBlocks entry startBlkno stopBlkno chunkno (n + 1) =
        _ ++ rangeBlocks entry startBlkno stopBlkno (chunkno + 1) n := rfl
    beta_reduce at hsucc
    rw [entryChunksLoop, ← rangeOf]
    generalize rangeOf entry startBlkno stopBlkno chunkno = offsets at hlo hhi hsucc ⊢
    obtain ⟨lo, hi⟩ := offsets
    dsimp only at hlo hhi hsucc ⊢
    have hscan := scanChunk_spec hok chunkno hi hlo nblocks blocks
    simp only [hhi] at hscan
    have hrest :=
      ih (chunkno + 1) (collect nblocks blocks (chunkBlocks (entry.chunks chunkno) chunkno lo hi)).2
        fun _ => by omega
    rw [hscan, hsucc, collect_append]
    generalize collect nblocks blocks (chunkBlocks (entry.chunks chunkno) chunkno lo hi) =
      found at hrest ⊢
    obtain ⟨full, found⟩ := found
    cases full with
    | true =>
      rw [if_neg (fun hand => by cases hand.2.2), if_pos rfl,
        if_neg (fun hand => by cases hand.2.2)]
    | false =>
      rw [if_neg Bool.false_ne_true]
      rcases Nat.eq_zero_or_pos n with rfl | hpos
      · -- The last chunk.
        have hlast : chunkno = stopChunknoOf entry stopBlkno - 1 := by omega
        rw [show rangeBlocks entry startBlkno stopBlkno (chunkno + 1) 0 = [] from rfl, collect_nil]
        by_cases hover : LastOverruns entry stopBlkno
        · rw [if_pos ⟨by rw [hlast]; exact hover.1, ⟨by omega, hover.2⟩, rfl⟩,
            if_pos ⟨by omega, hover, rfl⟩]
        · rw [if_neg (fun hand => hover ⟨by rw [← hlast]; exact hand.1, hand.2.1.2⟩),
            if_neg (fun hand => hover hand.2.1)]
          rfl
      · rw [if_neg (fun hand => by have := hand.2.1.1; omega)]
        dsimp only
        rw [hrest]
        exact if_congr
          (by rw [and_iff_right (Nat.pos_iff_ne_zero.mp hpos), and_iff_right (Nat.succ_ne_zero n)])
            rfl rfl

end

/-! ## The range -/

/-- The range goes on behind the last chunk of the entry, and that chunk is a bitmap. -/
def Overruns (entry : BlockRefTableEntry) (startBlkno stopBlkno : ℕ) : Prop :=
  startBlkno < entry.nchunks * BLOCKS_PER_CHUNK ∧ entry.nchunks * BLOCKS_PER_CHUNK < stopBlkno ∧
    (entry.chunks (entry.nchunks - 1)).chunkUsage = MAX_ENTRIES_PER_CHUNK

/-- Whether a scan overruns is decidable. -/
instance (entry : BlockRefTableEntry) (startBlkno stopBlkno : ℕ) :
    Decidable (Overruns entry startBlkno stopBlkno) := by
  unfold Overruns
  infer_instance

/-- The blocks that are looked at are those of the range. -/
theorem mem_rangeBlocks (h : EntryOk entry) {startBlkno stopBlkno b : ℕ} :
    b ∈ rangeBlocks entry startBlkno stopBlkno (startBlkno / BLOCKS_PER_CHUNK)
      (stopChunknoOf entry stopBlkno - startBlkno / BLOCKS_PER_CHUNK) ↔
      entry.Has b ∧ startBlkno ≤ b ∧ b < stopBlkno := by
  unfold rangeBlocks
  rw [mem_flatMap]
  simp only [mem_range'_1]
  constructor
  · rintro ⟨c, ⟨hstart, hstop⟩, hb⟩
    replace hstop : c < stopChunknoOf entry stopBlkno := by omega
    have hcn : c < entry.nchunks := lt_of_lt_of_le hstop stopChunknoOf_le
    obtain ⟨rfl, hlo, hhi, hhas⟩ := (mem_chunkBlocks (h.chunk c hcn)).mp hb
    refine ⟨⟨hcn, hhas⟩, ?_, ?_⟩
    · unfold rangeOf chunkRange at hlo
      unfold BLOCKS_PER_CHUNK at hlo hstart
      split_ifs at hlo <;> omega
    · unfold rangeOf chunkRange at hhi
      unfold stopChunknoOf at hhi hstop
      dsimp only at hhi hstop
      unfold BLOCKS_PER_CHUNK at hhi hstop
      split_ifs at hhi hstop <;> omega
  · rintro ⟨⟨hcn, hhas⟩, hstart, hstop⟩
    refine ⟨b / BLOCKS_PER_CHUNK, ⟨Nat.div_le_div_right hstart, ?_⟩,
      (mem_chunkBlocks (h.chunk _ hcn)).mpr ⟨rfl, ?_, ?_, hhas⟩⟩
    · unfold stopChunknoOf
      dsimp only
      unfold BLOCKS_PER_CHUNK at hcn ⊢
      split_ifs <;> omega
    · unfold rangeOf chunkRange
      unfold BLOCKS_PER_CHUNK
      split_ifs <;> omega
    · unfold rangeOf chunkRange
      unfold BLOCKS_PER_CHUNK
      split_ifs <;> omega

theorem nodup_blocks (h : EntryOk entry) (lo hi : ℕ → ℕ)
    (hn : ∀ c ∈ range' chunkno n, c < entry.nchunks) :
    ((range' chunkno n).flatMap fun c => chunkBlocks (entry.chunks c) c (lo c) (hi c)).Nodup := by
  refine nodup_flatMap.mpr ⟨fun c hc => nodup_chunkBlocks (h.chunk c (hn c hc)),
    (nodup_range' ..).imp_of_mem fun {c d} hc hd hne => ?_⟩
  -- Blocks of different chunks are different.
  intro b hbc hbd
  have hc' := ((mem_chunkBlocks (h.chunk c (hn c hc))).mp hbc).1
  have hd' := ((mem_chunkBlocks (h.chunk d (hn d hd))).mp hbd).1
  exact hne (hc'.symm.trans hd')

/-- The result is the list of the blocks in the range or its beginning. It leaves the allocation
when it comes to the end of an overrun chunk. -/
theorem getBlocks_eq (h : EntryOk entry) (startBlkno stopBlkno nblocks : ℕ) :
    ∃ all : List ℕ, all.Nodup ∧ (∀ b, b ∈ all ↔ entry.Has b ∧ startBlkno ≤ b ∧ b < stopBlkno) ∧
      entryGetBlocks entry startBlkno stopBlkno nblocks =
        if Overruns entry startBlkno stopBlkno ∧ (collect nblocks [] all).1 = false then none
        else some (collect nblocks [] all).2 := by
  refine ⟨rangeBlocks entry startBlkno stopBlkno (startBlkno / BLOCKS_PER_CHUNK)
    (stopChunknoOf entry stopBlkno - startBlkno / BLOCKS_PER_CHUNK), ?_,
    fun b => mem_rangeBlocks h, ?_⟩
  · refine nodup_blocks h _ _ fun c hc => ?_
    have := mem_range'_1.mp hc
    have : stopChunknoOf entry stopBlkno ≤ entry.nchunks := stopChunknoOf_le
    omega
  · have hover : (stopChunknoOf entry stopBlkno - startBlkno / BLOCKS_PER_CHUNK ≠ 0 ∧
      LastOverruns entry stopBlkno) ↔
        Overruns entry startBlkno stopBlkno := by
      unfold LastOverruns Overruns
      -- A range that goes on behind the last chunk looked at goes on behind the entry.
      have hclamp : stopChunknoOf entry stopBlkno * BLOCKS_PER_CHUNK < stopBlkno ∨
        entry.nchunks * BLOCKS_PER_CHUNK < stopBlkno →
          stopChunknoOf entry stopBlkno = entry.nchunks := by
        unfold stopChunknoOf
        dsimp only
        unfold BLOCKS_PER_CHUNK
        split_ifs <;> omega
      constructor
      · rintro ⟨hne, hmax, hstop⟩
        rw [hclamp (.inl hstop)] at hne hmax hstop
        refine ⟨?_, hstop, hmax⟩
        unfold BLOCKS_PER_CHUNK at hne ⊢
        omega
      · rintro ⟨hstart, hstop, hmax⟩
        rw [hclamp (.inr hstop)]
        refine ⟨?_, hmax, hstop⟩
        unfold BLOCKS_PER_CHUNK at hstart ⊢
        omega
    unfold entryGetBlocks
    rw [entryChunksLoop_spec h nblocks _ _ [] fun hne => by omega]
    exact if_congr (by rw [← and_assoc, hover]) rfl rfl

/-! ## Exactness -/

/-- What the call should give: the blocks of the set in the range, or `nblocks` of them. -/
def GetBlocksExact (entry : BlockRefTableEntry) (M : Finset ℕ)
    (startBlkno stopBlkno nblocks : ℕ) : Prop :=
  ∃ blocks, entryGetBlocks entry startBlkno stopBlkno nblocks = some blocks ∧ blocks.Nodup ∧
    (∀ b ∈ blocks, b ∈ M ∧ startBlkno ≤ b ∧ b < stopBlkno) ∧
    blocks.length = min nblocks (M.filter fun b => startBlkno ≤ b ∧ b < stopBlkno).card

/-- After every sequence of calls, `BlockRefTableEntryGetBlocks` gives the blocks of the range
exactly when there is room for a block or none to give, and it either runs out of room or does not
run over the last chunk. -/
theorem entryGetBlocks_exact_iff {ops : List EntryOp} {entry : BlockRefTableEntry} {L : ℕ}
    {M : Finset ℕ} (run : EntryRun ops entry L M)
    (startBlkno stopBlkno nblocks : ℕ) :
    entry.limitBlock = L ∧
    (GetBlocksExact entry M startBlkno stopBlkno nblocks ↔
      (nblocks = 0 → (M.filter fun b => startBlkno ≤ b ∧ b < stopBlkno) = ∅) ∧
      (Overruns entry startBlkno stopBlkno →
        0 < nblocks ∧ nblocks ≤ (M.filter fun b => startBlkno ≤ b ∧ b < stopBlkno).card)) := by
  have h := entry_refines run
  refine ⟨h.limit, ?_⟩
  obtain ⟨all, hnodup, hmem, heq⟩ := getBlocks_eq h.ok startBlkno stopBlkno nblocks
  have hall : (M.filter fun b => startBlkno ≤ b ∧ b < stopBlkno) = all.toFinset := by
    ext b
    rw [Finset.mem_filter, mem_toFinset, hmem b, h.blocks b]
  have hcard : all.toFinset.card = all.length := toFinset_card_of_nodup hnodup
  rw [hall, hcard, toFinset_eq_empty_iff]
  unfold GetBlocksExact
  rw [heq, hall, hcard, collect_nil_left]
  have hinside : ∀ b ∈ all, b ∈ M ∧ startBlkno ≤ b ∧ b < stopBlkno := fun b hb => by
    rw [h.blocks b]
    exact (hmem b).mp hb
  by_cases hroom : 0 < nblocks ∧ nblocks ≤ all.length
  · -- The result is full.
    rw [if_pos hroom, if_neg (fun hand => by cases hand.2)]
    refine ⟨fun _ => ⟨fun hzero => by omega, fun _ => hroom⟩, fun _ =>
      ⟨all.take nblocks, rfl, hnodup.sublist (take_sublist _ _), ?_, ?_⟩⟩
    · exact fun b hb => hinside b (mem_of_mem_take hb)
    · rw [length_take]
  · rw [if_neg hroom]
    by_cases hover : Overruns entry startBlkno stopBlkno
    · rw [if_pos ⟨hover, rfl⟩]
      refine ⟨fun hexact => ?_, fun hcond => absurd (hcond.2 hover) hroom⟩
      obtain ⟨blocks, hnone, _⟩ := hexact
      cases hnone
    · rw [if_neg (fun hand => hover hand.1)]
      constructor
      · rintro ⟨blocks, hsome, _, _, hlength⟩
        cases hsome
        refine ⟨fun hzero => ?_, fun hyes => absurd hyes hover⟩
        rw [hzero, Nat.zero_min] at hlength
        exact eq_nil_of_length_eq_zero hlength
      · rintro ⟨hzero, _⟩
        refine ⟨all, rfl, hnodup, hinside, ?_⟩
        rcases Nat.eq_zero_or_pos nblocks with hn | hn
        · rw [hzero hn, length_nil, Nat.min_zero]
        · omega

/-- One block, and the whole range. -/
theorem entryGetBlocks_exact_seven :
    EntryRun [.markBlockModified 7 fun _ => 0]
      (entryMarkBlockModified createBlockRefTableEntry 7 fun _ => 0) InvalidBlockNumber {7} ∧
      GetBlocksExact (entryMarkBlockModified createBlockRefTableEntry 7 fun _ => 0)
        {7} 0 InvalidBlockNumber 10 := by
  have run : EntryRun ([] ++ [.markBlockModified 7 fun _ => 0])
      (entryMarkBlockModified createBlockRefTableEntry 7 fun _ => 0) InvalidBlockNumber {7} :=
    .concat .nil (by decide) rfl
  refine ⟨run,
    (entryGetBlocks_exact_iff run 0 InvalidBlockNumber 10).2.mpr ⟨nofun, fun hover => ?_⟩⟩
  exact absurd hover.2.2 (by decide)

/-! ## A bitmap in the last chunk -/

/-- The calls that mark the first `n` blocks of the sixteenth chunk. -/
def markOps (n : ℕ) : List EntryOp :=
  (range n).map fun i => .markBlockModified (983040 + i) fun _ => 0

/-- The entry after these calls. -/
def markedEntry (n : ℕ) : BlockRefTableEntry := (markOps n).foldl entryCall createBlockRefTableEntry

theorem markOps_succ (n : ℕ) :
    markOps (n + 1) = markOps n ++ [.markBlockModified (983040 + n) fun _ => 0] := by
  unfold markOps
  rw [range_succ, map_append]
  rfl

theorem markedEntry_succ (n : ℕ) : markedEntry (n + 1) = entryMarkBlockModified (markedEntry n)
    (983040 + n) fun _ => 0 := by
  rw [markedEntry, markOps_succ, foldl_append]
  rfl

theorem markedEntry_run (h : n ≤ 65536) : EntryRun (markOps n)
    (markedEntry n) InvalidBlockNumber ((Finset.range n).image (983040 + ·)) := by
  induction n with
  | zero => exact .nil
  | succ n ih =>
    rw [markOps_succ, Finset.range_add_one, Finset.image_insert, markedEntry_succ]
    exact Runs.Run.concat (ih (by omega)) (show 983040 + n < 2^32 by omega) rfl

theorem markedEntry_nchunks (h : n < 65536) : (markedEntry (n + 1)).nchunks = 16 := by
  induction n with
  | zero => rfl
  | succ n ih =>
    have hprev := ih (by omega)
    rw [markedEntry_succ (n + 1)]
    unfold entryMarkBlockModified
    dsimp only
    rw [if_neg]
    · exact hprev
    · unfold BLOCKS_PER_CHUNK
      omega

/-- The chunk has the offsets of the blocks that were marked. -/
theorem markedEntry_has {o : ℕ} (h : n ≤ 65536) (ho : o < n) :
    ((markedEntry n).chunks 15).Has o := by
  have hhas :=
    ((entry_refines (markedEntry_run h)).blocks (983040 + o)).mp
      (Finset.mem_image.mpr ⟨o, Finset.mem_range.mpr ho, rfl⟩)
  have hchunk : (983040 + o) / BLOCKS_PER_CHUNK = 15 ∧ (983040 + o) % BLOCKS_PER_CHUNK = o := by
    unfold BLOCKS_PER_CHUNK
    omega
  rw [BlockRefTableEntry.Has, hchunk.1, hchunk.2] at hhas
  exact hhas.2

/-- No more blocks than were marked. -/
theorem markedEntry_length_le (h : n ≤ 65536) {all : List ℕ} (hnodup : all.Nodup)
    (hmem : ∀ b ∈ all, (markedEntry n).Has b) : all.length ≤ n := by
  rw [← toFinset_card_of_nodup hnodup]
  calc all.toFinset.card ≤ ((Finset.range n).image (983040 + ·)).card :=
        Finset.card_le_card fun b hb =>
          ((entry_refines (markedEntry_run h)).blocks b).mpr (hmem b (mem_toFinset.mp hb))
    _ ≤ (Finset.range n).card := Finset.card_image_le
    _ = n := Finset.card_range n

/-- With 4096 blocks the chunk is a bitmap. -/
theorem markedEntry_usage (hn : n = 4096) :
    ((markedEntry n).chunks 15).chunkUsage = MAX_ENTRIES_PER_CHUNK := by
  have hnchunks : (markedEntry n).nchunks = 16 := by
    rw [hn]
    exact markedEntry_nchunks (by decide)
  have hok := (entry_refines (markedEntry_run (show n ≤ 65536 by omega))).ok.chunk 15 (by omega)
  by_contra hne
  -- Otherwise the 4096 offsets are elements of an array that is not as long.
  have hsub : range n ⊆ (range ((markedEntry n).chunks 15).chunkUsage).map
      ((markedEntry n).chunks 15).chunkData := by
    intro o ho
    have hhas := markedEntry_has (show n ≤ 65536 by omega) (mem_range.mp ho)
    exact (Chunk.has_of_array hne).mp hhas
  have hlength := (subperm_of_subset nodup_range hsub).length_le
  rw [length_range, length_map, length_range] at hlength
  have husage := hok.usage
  have hsize := hok.size_le
  unfold MAX_ENTRIES_PER_CHUNK at hne hsize
  omega

/-- With room for more than these blocks, the query for all blocks reads behind the bitmap. -/
theorem entryGetBlocks_overruns :
    EntryRun (markOps 4096) (markedEntry 4096) InvalidBlockNumber
      ((Finset.range 4096).image (983040 + ·)) ∧
      entryGetBlocks (markedEntry 4096) 0 InvalidBlockNumber 5000 = none := by
  obtain ⟨n, hn⟩ : ∃ n, n = 4096 := ⟨4096, rfl⟩
  rw [← hn]
  have run := markedEntry_run (show n ≤ 65536 by omega)
  have hnchunks : (markedEntry n).nchunks = 16 := by
    rw [hn]
    exact markedEntry_nchunks (by decide)
  refine ⟨run, ?_⟩
  obtain ⟨all, hnodup, hmem, heq⟩ := getBlocks_eq (entry_refines run).ok 0 InvalidBlockNumber 5000
  have hover : Overruns (markedEntry n) 0 InvalidBlockNumber := by
    unfold Overruns
    rw [hnchunks]
    exact ⟨by decide, by decide, markedEntry_usage hn⟩
  have hlength :=
    markedEntry_length_le (show n ≤ 65536 by omega) hnodup fun b hb => ((hmem b).mp hb).1
  have hroom : collect 5000 [] all = (false, all) := by rw [collect_nil_left, if_neg (by omega)]
  rw [heq, hroom, if_pos ⟨hover, rfl⟩]

end PgAutoIndex.Common
