import Mathlib.Data.Nat.Bitwise
import PgAutoIndex.Runs

/-!
# Entries of block reference tables

Model of the entries of `src/common/blkreftable.c`, which say for one relation fork which blocks
were modified. An entry is divided into chunks of `2^16` blocks. A chunk is an array of offsets as
long as it has few, and a bitmap afterwards; the three arrays `chunk_size`, `chunk_usage` and
`chunk_data` of the source are one array of records here. Memory that is allocated and not set has
whatever contents it is given, so that `MarkBlockModified` takes them as an argument.

An entry stands for a limit and a set of blocks. `ChunkOk` is what holds of a chunk, `Chunk.Has`
says which offsets it has, and there is one lemma for each of the changes of a chunk.
`entry_refines` follows the limit and the set along every sequence of calls.
-/

namespace PgAutoIndex.Common

open Function List

/-! ## The model -/

/-- `BLOCKS_PER_CHUNK`. -/
def BLOCKS_PER_CHUNK : ℕ := 65536

/-- `BLOCKS_PER_ENTRY`. -/
def BLOCKS_PER_ENTRY : ℕ := 16

/-- `MAX_ENTRIES_PER_CHUNK`. -/
def MAX_ENTRIES_PER_CHUNK : ℕ := 4096

/-- `INITIAL_ENTRIES_PER_CHUNK`. -/
def INITIAL_ENTRIES_PER_CHUNK : ℕ := 16

/-- `InvalidBlockNumber`. -/
def InvalidBlockNumber : ℕ := 2^32 - 1

/-- What an entry has for one chunk: the allocated size, the number of elements used, and the
elements. -/
structure Chunk where
  chunkSize : ℕ
  chunkUsage : ℕ
  chunkData : ℕ → ℕ

/-- A chunk that does not exist yet. -/
def Chunk.zero : Chunk := ⟨0, 0, fun _ => 0⟩

/-- `BlockRefTableEntry`, without its key. -/
structure BlockRefTableEntry where
  limitBlock : ℕ
  nchunks : ℕ
  chunks : ℕ → Chunk

/-- `CreateBlockRefTableEntry`. -/
def createBlockRefTableEntry : BlockRefTableEntry := ⟨InvalidBlockNumber, 0, fun _ => Chunk.zero⟩

/-- Set the bit of an offset. -/
def setBit (data : ℕ → ℕ) (chunkoffset : ℕ) : ℕ → ℕ :=
  update data (chunkoffset / BLOCKS_PER_ENTRY)
    (data (chunkoffset / BLOCKS_PER_ENTRY) ||| 1 <<< (chunkoffset % BLOCKS_PER_ENTRY))

/-- Unset the bit of an offset. -/
def unsetBit (data : ℕ → ℕ) (chunkoffset : ℕ) : ℕ → ℕ :=
  update data (chunkoffset / BLOCKS_PER_ENTRY)
    (data (chunkoffset / BLOCKS_PER_ENTRY) &&& (65535 ^^^ 1 <<< (chunkoffset % BLOCKS_PER_ENTRY)))

/-- The loop of `BlockRefTableEntrySetLimitBlock` over an array of offsets, of which `n` are left:
the new array and its length. -/
def filterLoop (limitChunkoffset : ℕ) : ℕ → ℕ → ℕ → (ℕ → ℕ) → ℕ × (ℕ → ℕ)
  | 0, _, j, data => (j, data)
  | n + 1, i, j, data =>
    if data i < limitChunkoffset then filterLoop limitChunkoffset n (i + 1) (j + 1)
      (update data j (data i))
    else filterLoop limitChunkoffset n (i + 1) j data

/-- Discard the offsets from a limit on. -/
def Chunk.limit (chunk : Chunk) (limitChunkoffset : ℕ) : Chunk :=
  if chunk.chunkUsage = MAX_ENTRIES_PER_CHUNK then
    { chunk with
      chunkData := (range' limitChunkoffset (BLOCKS_PER_CHUNK - limitChunkoffset)).foldl unsetBit
        chunk.chunkData }
  else
    let (j, data) := filterLoop limitChunkoffset chunk.chunkUsage 0 0 chunk.chunkData
    { chunk with chunkUsage := j, chunkData := data }

/-- `BlockRefTableEntrySetLimitBlock`. -/
def entrySetLimitBlock (entry : BlockRefTableEntry) (limitBlock : ℕ) : BlockRefTableEntry :=
  if limitBlock ≥ entry.limitBlock then entry
  else
    let limitChunkno := limitBlock / BLOCKS_PER_CHUNK
    let limitChunkoffset := limitBlock % BLOCKS_PER_CHUNK
    if limitChunkno ≥ entry.nchunks then { entry with limitBlock := limitBlock }
    else
      { entry with
        limitBlock := limitBlock
        chunks := fun chunkno =>
          if limitChunkno < chunkno ∧ chunkno < entry.nchunks
            then { entry.chunks chunkno with chunkUsage := 0 }
          else if chunkno = limitChunkno then (entry.chunks chunkno).limit limitChunkoffset
          else entry.chunks chunkno }

/-- The loop of `BlockRefTableEntryMarkBlockModified` that doubles the number of chunks. -/
def growChunks (chunkno : ℕ) : ℕ → ℕ → ℕ
  | 0, maxChunks => maxChunks
  | n + 1, maxChunks =>
    if maxChunks < chunkno + 1 then growChunks chunkno n (maxChunks * 2) else maxChunks

/-- Add an offset to a chunk; `memory` is what is found in new memory. -/
def Chunk.mark (chunk : Chunk) (chunkoffset : ℕ) (memory : ℕ → ℕ) : Chunk :=
  if chunk.chunkSize = 0 then ⟨INITIAL_ENTRIES_PER_CHUNK, 1, update memory 0 chunkoffset⟩
  else if chunk.chunkUsage = MAX_ENTRIES_PER_CHUNK then
    { chunk with chunkData := setBit chunk.chunkData chunkoffset }
  else if (range chunk.chunkUsage).any fun i => chunk.chunkData i == chunkoffset then chunk
  else if chunk.chunkUsage = MAX_ENTRIES_PER_CHUNK - 1 then
    let newchunk := (range chunk.chunkUsage).foldl
      (fun newchunk j => setBit newchunk (chunk.chunkData j)) fun _ => 0
    ⟨MAX_ENTRIES_PER_CHUNK, MAX_ENTRIES_PER_CHUNK, setBit newchunk chunkoffset⟩
  else
    let chunk :=
      if chunk.chunkUsage = chunk.chunkSize then
        { chunk with
          chunkSize := chunk.chunkSize * 2
          chunkData := fun i => if i < chunk.chunkSize then chunk.chunkData i else memory i }
      else chunk
    { chunk with
      chunkUsage := chunk.chunkUsage + 1
      chunkData := update chunk.chunkData chunk.chunkUsage chunkoffset }

/-- `BlockRefTableEntryMarkBlockModified`. There are at most `2^16` chunks, so that their number
doubles at most 16 times. -/
def entryMarkBlockModified (entry : BlockRefTableEntry) (blknum : ℕ) (memory : ℕ → ℕ) :
    BlockRefTableEntry :=
  let chunkno := blknum / BLOCKS_PER_CHUNK
  let chunkoffset := blknum % BLOCKS_PER_CHUNK
  let entry :=
    if chunkno ≥ entry.nchunks then
      { entry with
        nchunks := growChunks chunkno 16 (max 16 entry.nchunks)
        chunks := fun i => if i < entry.nchunks then entry.chunks i else Chunk.zero }
    else entry
  { entry with
    chunks := update entry.chunks chunkno ((entry.chunks chunkno).mark chunkoffset memory) }

/-! ## Bits -/

/-- The bit of an offset. -/
def bit (data : ℕ → ℕ) (chunkoffset : ℕ) : Bool :=
  (data (chunkoffset / BLOCKS_PER_ENTRY)).testBit (chunkoffset % BLOCKS_PER_ENTRY)

/-- The test of the source for a bit. -/
theorem and_shiftLeft_ne_zero {w k : ℕ} : (w &&& 1 <<< k ≠ 0) ↔ w.testBit k = true := by
  rw [Nat.one_shiftLeft, Nat.and_two_pow]
  cases w.testBit k <;> simp

theorem bit_setBit (data : ℕ → ℕ) (a o : ℕ) :
    bit (setBit data a) o = (bit data o || decide (a = o)) := by
  unfold bit setBit BLOCKS_PER_ENTRY
  by_cases hword : o / 16 = a / 16
  · rw [hword, update_self, Nat.testBit_or, Nat.one_shiftLeft, Nat.testBit_two_pow]
    congr 1
    exact decide_eq_decide.mpr (by omega)
  · rw [update_of_ne hword, decide_eq_false (show ¬a = o from fun heq => hword (by rw [heq])),
      Bool.or_false]

theorem bit_unsetBit (data : ℕ → ℕ) (a o : ℕ) :
    bit (unsetBit data a) o = (bit data o && !decide (a = o)) := by
  unfold bit unsetBit BLOCKS_PER_ENTRY
  by_cases hword : o / 16 = a / 16
  · rw [hword, update_self, Nat.testBit_and, Nat.one_shiftLeft, Nat.testBit_xor,
      Nat.testBit_two_pow, show 65535 = 2^16 - 1 by rfl,
      Nat.testBit_two_pow_sub_one, decide_eq_true (show o % 16 < 16 by omega), Bool.true_xor]
    congr 2
    exact decide_eq_decide.mpr (by omega)
  · rw [update_of_ne hword, decide_eq_false (show ¬a = o from fun heq => hword (by rw [heq])),
      Bool.not_false, Bool.and_true]

theorem bit_foldl_setBit (f : ℕ → ℕ) (o : ℕ) (l : List ℕ) (data : ℕ → ℕ) :
    bit (l.foldl (fun newchunk j => setBit newchunk (f j)) data) o = true ↔
    bit data o = true ∨ ∃ j ∈ l, f j = o := by
  induction l generalizing data with
  | nil => simp
  | cons j l ih =>
    rw [foldl_cons, ih, bit_setBit, Bool.or_eq_true, decide_eq_true_eq, or_assoc,
      exists_mem_cons_iff]

theorem bit_foldl_unsetBit (o : ℕ) (l : List ℕ) (data : ℕ → ℕ) :
    bit (l.foldl unsetBit data) o = true ↔ bit data o = true ∧ o ∉ l := by
  induction l generalizing data with
  | nil => simp
  | cons j l ih =>
    rw [foldl_cons, ih, bit_unsetBit, Bool.and_eq_true, Bool.not_eq_true', decide_eq_false_iff_not,
      List.mem_cons, not_or, and_assoc]
    exact and_congr_right fun _ => and_congr_left fun _ => ne_comm

variable {data : ℕ → ℕ} {chunk : Chunk} {entry : BlockRefTableEntry}

/-- Setting bits keeps the words of 16 bits. -/
theorem setBit_lt {i : ℕ} (h : data i < 65536) (a : ℕ) : setBit data a i < 65536 := by
  unfold setBit BLOCKS_PER_ENTRY
  by_cases hi : i = a / 16
  · rw [← hi, update_self, Nat.one_shiftLeft]
    exact Nat.or_lt_two_pow (n :=
      16) h (Nat.pow_lt_pow_right (by decide) (Nat.mod_lt _ (by decide)))
  · rw [update_of_ne hi]
    exact h

/-- Unsetting bits makes no word larger. -/
theorem foldl_unsetBit_le (l : List ℕ) (data : ℕ → ℕ) (i : ℕ) :
    l.foldl unsetBit data i ≤ data i := by
  induction l generalizing data with
  | nil => exact le_rfl
  | cons j l ih =>
    refine (ih (unsetBit data j)).trans ?_
    unfold unsetBit
    by_cases hi : i = j / BLOCKS_PER_ENTRY
    · rw [← hi, update_self]
      exact Nat.and_le_left
    · rw [update_of_ne hi]

/-! ## Chunks -/

/-- The offsets that a chunk has. -/
def Chunk.Has (chunk : Chunk) (off : ℕ) : Prop :=
  if chunk.chunkUsage = MAX_ENTRIES_PER_CHUNK then bit chunk.chunkData off = true
  else ∃ i, i < chunk.chunkUsage ∧ chunk.chunkData i = off

/-- What holds of a chunk. -/
structure ChunkOk (chunk : Chunk) : Prop where
  size : chunk.chunkSize = 0 ∨ ∃ k, k ≤ 8 ∧ chunk.chunkSize = 16 * 2^k
  usage : chunk.chunkUsage ≤ chunk.chunkSize
  /-- The elements are words of 16 bits. -/
  word : ∀ i, i < chunk.chunkUsage → chunk.chunkData i < 65536
  /-- No offset is there twice. -/
  distinct : chunk.chunkUsage ≠ MAX_ENTRIES_PER_CHUNK → ∀ i j, i < chunk.chunkUsage →
    j < chunk.chunkUsage →
    chunk.chunkData i = chunk.chunkData j → i = j

theorem chunkOk_zero : ChunkOk Chunk.zero :=
  ⟨.inl rfl, Nat.le_refl 0, nofun, nofun⟩

theorem not_has_of_usage_zero (h : chunk.chunkUsage = 0) (off : ℕ) : ¬chunk.Has off := by
  unfold Chunk.Has
  rw [h, if_neg (by decide)]
  rintro ⟨i, hi, _⟩
  exact Nat.not_lt_zero i hi

theorem ChunkOk.size_le (h : ChunkOk chunk) : chunk.chunkSize ≤ MAX_ENTRIES_PER_CHUNK := by
  rcases h.size with hzero | ⟨k, hk, hsize⟩
  · omega
  · rw [hsize]
    calc 16 * 2^k ≤ 16 * 2^8 := Nat.mul_le_mul_left 16 (Nat.pow_le_pow_right (by decide) hk)
      _ = MAX_ENTRIES_PER_CHUNK := rfl

/-- The elements of an array by their list. -/
theorem exists_lt_iff_mem {n o : ℕ} : (∃ i, i < n ∧ data i = o) ↔ o ∈ (range n).map data := by
  rw [mem_map]
  exact exists_congr fun i => and_congr_left fun _ => mem_range.symm

theorem injective_iff_nodup {n : ℕ} :
    (∀ i j, i < n → j < n → data i = data j → i = j) ↔ ((range n).map data).Nodup := by
  rw [nodup_map_iff_inj_on nodup_range]
  constructor
  · exact fun h i hi j hj => h i j (mem_range.mp hi) (mem_range.mp hj)
  · exact fun h i j hi hj => h i (mem_range.mpr hi) j (mem_range.mpr hj)

/-- An element more in an array. -/
theorem map_range_update {data' : ℕ → ℕ} {n : ℕ} (h : ∀ i < n, data' i = data i) (off : ℕ) :
    (range (n + 1)).map (update data' n off) = (range n).map data ++ [off] := by
  rw [range_succ, map_append, map_singleton, update_self]
  congr 1
  refine map_congr_left fun i hi => ?_
  rw [update_of_ne (mem_range.mp hi).ne, h i (mem_range.mp hi)]

theorem Chunk.has_of_array (h : chunk.chunkUsage ≠ MAX_ENTRIES_PER_CHUNK) {o : ℕ} :
    chunk.Has o ↔ o ∈ (range chunk.chunkUsage).map chunk.chunkData := by
  rw [Chunk.Has, if_neg h, exists_lt_iff_mem]

/-- What holds of a chunk, by the list of its elements. -/
theorem chunkOk_of_list (hsize : chunk.chunkSize = 0 ∨ ∃ k, k ≤ 8 ∧ chunk.chunkSize = 16 * 2^k)
    (husage : chunk.chunkUsage ≤ chunk.chunkSize)
    (hword : ∀ o ∈ (range chunk.chunkUsage).map chunk.chunkData, o < 65536)
    (hnodup : ((range chunk.chunkUsage).map chunk.chunkData).Nodup) :
    ChunkOk chunk :=
  ⟨hsize, husage, fun i hi => hword _ (exists_lt_iff_mem.mp ⟨i, hi, rfl⟩),
    fun _ => injective_iff_nodup.mpr hnodup⟩

theorem ChunkOk.lt_of_mem (h : ChunkOk chunk) {o : ℕ}
    (ho : o ∈ (range chunk.chunkUsage).map chunk.chunkData) : o < 65536 := by
  obtain ⟨i, hi, rfl⟩ := exists_lt_iff_mem.mpr ho
  exact h.word i hi

/-- What the loop that filters an array leaves: the small offsets of the part it has read, in their
order. -/
theorem filterLoop_spec {off : ℕ} {orig : ℕ → ℕ} :
    ∀ n i j data, j ≤ i → (∀ k, i ≤ k → data k = orig k) →
    (range j).map data = ((range i).map orig).filter (fun o => decide (o < off)) →
    ∃ j' data', filterLoop off n i j data = (j', data') ∧ j' ≤ i + n ∧
      (range j').map data' = ((range (i + n)).map orig).filter (fun o => decide (o < off)) := by
  intro n
  induction n with
  | zero => exact fun i j data hji _ hdone => ⟨j, data, rfl, hji, hdone⟩
  | succ n ih =>
    intro i j data hji hrest hdone
    rw [filterLoop, show i + (n + 1) = i + 1 + n by omega]
    have hnext : ((range (i + 1)).map orig).filter (fun o => decide (o < off)) =
        ((range i).map orig).filter (fun o => decide (o < off)) ++ [orig i].filter
          (fun o => decide (o < off)) := by
      rw [range_succ, map_append, filter_append]
      rfl
    split_ifs with hlt
    · refine ih (i + 1) (j + 1) _ (by omega) (fun k hk => ?_) ?_
      · rw [update_of_ne (by omega)]
        exact hrest k (by omega)
      · rw [hrest i le_rfl] at hlt ⊢
        have hkeep : [orig i].filter (fun o => decide (o < off)) = [orig i] := by simp [hlt]
        rw [hnext, ← hdone, hkeep, map_range_update fun _ _ => rfl]
    · refine ih (i + 1) j data (by omega) (fun k hk => hrest k (by omega)) ?_
      rw [hrest i le_rfl] at hlt
      have hdrop : [orig i].filter (fun o => decide (o < off)) = [] := by simp [hlt]
      rw [hnext, ← hdone, hdrop, append_nil]

/-- A limit keeps exactly the offsets below it. -/
theorem Chunk.limit_spec (h : ChunkOk chunk) {off : ℕ} (hoff : off ≤ BLOCKS_PER_CHUNK) :
    ChunkOk (chunk.limit off) ∧ ∀ o, o < BLOCKS_PER_CHUNK →
    ((chunk.limit off).Has o ↔ chunk.Has o ∧ o < off) := by
  unfold Chunk.limit
  split_ifs with hmax
  · refine ⟨⟨h.size, h.usage, fun i hi => ?_, fun hne => absurd hmax hne⟩, fun o ho => ?_⟩
    · exact lt_of_le_of_lt (foldl_unsetBit_le _ _ i) (h.word i hi)
    · unfold Chunk.Has
      rw [if_pos hmax, if_pos hmax, bit_foldl_unsetBit, mem_range'_1]
      exact and_congr_right fun _ => by omega
  · obtain ⟨j, data, hloop, hj, hlist⟩ :=
      filterLoop_spec chunk.chunkUsage 0 0 chunk.chunkData le_rfl
      (fun _ _ => rfl) rfl
    rw [zero_add] at hj hlist
    rw [hloop]
    have husage := h.usage
    have hsize := h.size_le
    have hj' : j ≠ MAX_ENTRIES_PER_CHUNK := by omega
    refine ⟨chunkOk_of_list h.size (hj.trans husage) ?_ ?_, fun o _ => ?_⟩
    · rw [hlist]
      exact fun o ho => h.lt_of_mem (mem_of_mem_filter ho)
    · rw [hlist]
      exact (injective_iff_nodup.mp (h.distinct hmax)).filter _
    · rw [Chunk.has_of_array hj', Chunk.has_of_array hmax, hlist, mem_filter, decide_eq_true_eq]

/-- An offset more in an array, possibly a new one of which the elements are copied. -/
theorem ChunkOk.push (h : ChunkOk chunk) {off size : ℕ} {d : ℕ → ℕ} (hoff : off < BLOCKS_PER_CHUNK)
    (habsent : ¬chunk.Has off)
    (hroom : chunk.chunkUsage + 1 < MAX_ENTRIES_PER_CHUNK) (hsize : ∃ k, k ≤ 8 ∧ size = 16 * 2^k)
    (husage : chunk.chunkUsage < size)
    (hdata : ∀ i < chunk.chunkUsage, d i = chunk.chunkData i) :
    ChunkOk ⟨size, chunk.chunkUsage + 1, update d chunk.chunkUsage off⟩ ∧
      ∀ o, Chunk.Has ⟨size, chunk.chunkUsage + 1, update d chunk.chunkUsage off⟩ o ↔
        chunk.Has o ∨ o = off := by
  have hmax : chunk.chunkUsage ≠ MAX_ENTRIES_PER_CHUNK := by omega
  rw [Chunk.has_of_array hmax] at habsent
  have hlist := map_range_update hdata off
  refine ⟨chunkOk_of_list (.inr hsize) husage ?_ ?_, fun o => ?_⟩
  · rw [hlist]
    exact forall_mem_append.mpr ⟨fun o ho => h.lt_of_mem ho, forall_mem_singleton.mpr hoff⟩
  · rw [hlist, ← concat_eq_append]
    exact (injective_iff_nodup.mp (h.distinct hmax)).concat habsent
  · rw [Chunk.has_of_array hroom.ne, Chunk.has_of_array hmax, hlist, mem_append, mem_singleton]

/-- Marking adds an offset. -/
theorem Chunk.mark_spec (h : ChunkOk chunk) {off : ℕ} (hoff : off < BLOCKS_PER_CHUNK)
    (memory : ℕ → ℕ) :
    ChunkOk (chunk.mark off memory) ∧ ∀ o, (chunk.mark off memory).Has o ↔
    chunk.Has o ∨ o = off := by
  have husage := h.usage
  unfold Chunk.mark
  by_cases hnew : chunk.chunkSize = 0
  · -- The first offset of a chunk.
    rw [if_pos hnew]
    have hzero : chunk.chunkUsage = 0 := by omega
    have hpush :=
      h.push (d := memory) hoff (not_has_of_usage_zero hzero off) (by rw [hzero]; decide)
        ⟨0, by decide, rfl⟩
      (by omega) fun i hi => by omega
    rwa [hzero] at hpush
  rw [if_neg hnew]
  by_cases hmax : chunk.chunkUsage = MAX_ENTRIES_PER_CHUNK
  · -- A bitmap.
    rw [if_pos hmax]
    refine ⟨⟨h.size, h.usage, fun i hi => setBit_lt (h.word i hi) off, fun hne => absurd hmax hne⟩,
      fun o => ?_⟩
    unfold Chunk.Has
    rw [if_pos hmax, if_pos hmax, bit_setBit, Bool.or_eq_true, decide_eq_true_eq]
    exact or_congr_right eq_comm
  rw [if_neg hmax]
  have hany : ((range chunk.chunkUsage).any fun i => chunk.chunkData i == off) = true ↔
      chunk.Has off := by
    simp [Chunk.has_of_array hmax]
  by_cases hfound : chunk.Has off
  · -- The offset is there already.
    rw [if_pos (hany.mpr hfound)]
    refine ⟨h, fun o => ⟨.inl, ?_⟩⟩
    rintro (hold | rfl)
    · exact hold
    · exact hfound
  rw [if_neg (hany.not.mpr hfound)]
  by_cases hfull : chunk.chunkUsage = MAX_ENTRIES_PER_CHUNK - 1
  · -- The array is replaced by a bitmap.
    rw [if_pos hfull]
    refine ⟨⟨.inr ⟨8, by decide, rfl⟩, le_rfl, fun i _ => ?_, fun hne => absurd rfl hne⟩,
      fun o => ?_⟩
    · exact setBit_lt
        (foldlRecOn (motive := fun data : ℕ → ℕ => data i < 65536) _ _ (by decide)
          fun _ h _ _ => setBit_lt h _) _
    · rw [Chunk.has_of_array hmax, Chunk.Has, if_pos rfl, bit_setBit, Bool.or_eq_true,
        decide_eq_true_eq, bit_foldl_setBit, ← mem_map]
      have hzero : bit (fun _ => 0) o ≠ true := by simp [bit]
      rw [or_iff_right hzero]
      exact or_congr_right eq_comm
  -- The array is extended when it is full, and has room for the offset then.
  obtain ⟨k, hk, hsize⟩ := h.size.resolve_left hnew
  have hle := h.size_le
  have hroom : chunk.chunkUsage + 1 < MAX_ENTRIES_PER_CHUNK := by omega
  split_ifs with hgrow
  · refine h.push hoff hfound hroom ⟨k + 1, ?_, ?_⟩ (by dsimp only; omega)
      fun i hi => if_pos (by omega)
    · refine lt_of_le_of_ne hk fun heq => ?_
      rw [heq] at hsize
      unfold MAX_ENTRIES_PER_CHUNK at hmax
      omega
    · rw [hsize, pow_succ, mul_assoc]
  · exact h.push hoff hfound hroom ⟨k, hk, hsize⟩ (by omega) fun _ _ => rfl

/-! ## Entries -/

/-- The blocks that an entry has. -/
def BlockRefTableEntry.Has (entry : BlockRefTableEntry) (b : ℕ) : Prop :=
  b / BLOCKS_PER_CHUNK < entry.nchunks ∧ (entry.chunks (b / BLOCKS_PER_CHUNK)).Has
    (b % BLOCKS_PER_CHUNK)

/-- What holds of an entry. -/
structure EntryOk (entry : BlockRefTableEntry) : Prop where
  nchunks : entry.nchunks = 0 ∨ ∃ k, 4 ≤ k ∧ k ≤ 16 ∧ entry.nchunks = 2^k
  chunk : ∀ i, i < entry.nchunks → ChunkOk (entry.chunks i)

/-- A limit keeps exactly the blocks below it. -/
theorem entrySetLimitBlock_spec (h : EntryOk entry) {l : ℕ} (hl : l < entry.limitBlock) :
    EntryOk (entrySetLimitBlock entry l) ∧ (entrySetLimitBlock entry l).limitBlock = l ∧
      ∀ b, (entrySetLimitBlock entry l).Has b ↔ entry.Has b ∧ b < l := by
  unfold entrySetLimitBlock
  rw [if_neg (by omega)]
  dsimp only
  split_ifs with hsmall
  · -- There is no chunk for the limit.
    refine ⟨⟨h.nchunks, h.chunk⟩, rfl, fun b => ⟨fun hb => ⟨hb, ?_⟩, fun hb => hb.1⟩⟩
    have hchunk := hb.1
    dsimp only at hchunk
    unfold BLOCKS_PER_CHUNK at hchunk hsmall
    omega
  · have hoff : l % BLOCKS_PER_CHUNK ≤ BLOCKS_PER_CHUNK := le_of_lt (Nat.mod_lt _ (by decide))
    refine ⟨⟨h.nchunks, fun i hi => ?_⟩, rfl, fun b => ?_⟩
    · dsimp only at hi ⊢
      split_ifs with hhigh hlimit
      · exact ⟨(h.chunk i hi).size, Nat.zero_le _, nofun, nofun⟩
      · exact (Chunk.limit_spec (h.chunk i hi) hoff).1
      · exact h.chunk i hi
    · unfold BlockRefTableEntry.Has
      dsimp only
      rw [and_assoc]
      refine and_congr_right fun hchunk => ?_
      split_ifs with hhigh hlimit
      · -- The chunks above that of the limit are discarded.
        refine ⟨fun hhas => absurd hhas (not_has_of_usage_zero rfl _), fun hhas => ?_⟩
        unfold BLOCKS_PER_CHUNK at hhigh
        omega
      · rw [(Chunk.limit_spec (h.chunk _ hchunk) hoff).2 _ (Nat.mod_lt _ (by decide))]
        refine and_congr_right fun _ => ?_
        unfold BLOCKS_PER_CHUNK at hlimit ⊢
        omega
      · refine ⟨fun hhas => ⟨hhas, ?_⟩, fun hhas => hhas.1⟩
        unfold BLOCKS_PER_CHUNK at hhigh hlimit hchunk
        omega

/-- The number of chunks doubles until there is one for the block. -/
theorem growChunks_spec {chunkno : ℕ} (hchunkno : chunkno < 2^16) :
    ∀ n m k, 4 ≤ k → k ≤ 16 → m = 2^k → 16 ≤ n + k →
    ∃ k', 4 ≤ k' ∧ k' ≤ 16 ∧ growChunks chunkno n m = 2^k' ∧ chunkno < 2^k' ∧ m ≤ 2^k' := by
  intro n
  induction n with
  | zero =>
    intro m k h4 h16 hm hn
    obtain rfl : k = 16 := by omega
    exact ⟨16, h4, h16, hm, hchunkno, le_of_eq hm⟩
  | succ n ih =>
    intro m k h4 h16 hm hn
    rw [growChunks]
    split_ifs with hgrow
    · have hk : k < 16 := by
        refine lt_of_le_of_ne h16 fun heq => ?_
        rw [hm, heq] at hgrow
        omega
      obtain ⟨k', h4', h16', heq, hlt, hle⟩ :=
        ih (m * 2) (k + 1) (by omega) hk (by rw [hm, pow_succ]) (by omega)
      exact ⟨k', h4', h16', heq, hlt, by omega⟩
    · exact ⟨k, h4, h16, hm, by omega, le_of_eq hm⟩

/-- Marking adds a block. -/
theorem entryMarkBlockModified_spec (h : EntryOk entry) {blknum : ℕ} (hblk : blknum < 2^32)
    (memory : ℕ → ℕ) :
    EntryOk (entryMarkBlockModified entry blknum memory) ∧
    (entryMarkBlockModified entry blknum memory).limitBlock = entry.limitBlock ∧
      ∀ b, (entryMarkBlockModified entry blknum memory).Has b ↔ entry.Has b ∨ b = blknum := by
  have hchunkno : blknum / BLOCKS_PER_CHUNK < 2^16 := by
    unfold BLOCKS_PER_CHUNK
    omega
  -- The arrays are enlarged if need be, by chunks that do not exist yet.
  obtain ⟨entry', hentry'⟩ : ∃ entry' : BlockRefTableEntry,
    (if blknum / BLOCKS_PER_CHUNK ≥ entry.nchunks then
      { entry with
        nchunks := growChunks (blknum / BLOCKS_PER_CHUNK) 16 (max 16 entry.nchunks)
        chunks := fun i => if i < entry.nchunks then entry.chunks i else Chunk.zero }
      else entry) = entry' := ⟨_, rfl⟩
  have hgrown : EntryOk entry' ∧ entry'.limitBlock = entry.limitBlock ∧
      blknum / BLOCKS_PER_CHUNK < entry'.nchunks ∧ ∀ b, entry'.Has b ↔ entry.Has b := by
    rw [← hentry']
    split_ifs with hgrow
    · obtain ⟨k, h4, h16, hk⟩ : ∃ k, 4 ≤ k ∧ k ≤ 16 ∧ max 16 entry.nchunks = 2^k := by
        rcases h.nchunks with hzero | ⟨k, h4, h16, hk⟩
        · exact ⟨4, by decide, by decide, by rw [hzero]; rfl⟩
        · have : 2^4 ≤ 2^k := Nat.pow_le_pow_right (by decide) h4
          exact ⟨k, h4, h16, by omega⟩
      obtain ⟨k', h4', h16', heq, hlt, hle⟩ := growChunks_spec hchunkno 16 _ k h4 h16 hk (by omega)
      refine ⟨⟨.inr ⟨k', h4', h16', heq⟩, fun i _ => ?_⟩, rfl, by dsimp only; rw [heq]; exact hlt,
        fun b => ?_⟩
      · dsimp only
        split_ifs with hold
        · exact h.chunk i hold
        · exact chunkOk_zero
      · unfold BlockRefTableEntry.Has
        dsimp only
        constructor
        · rintro ⟨_, hhas⟩
          split_ifs at hhas with hold
          · exact ⟨hold, hhas⟩
          · exact absurd hhas (not_has_of_usage_zero rfl _)
        · rintro ⟨hold, hhas⟩
          rw [if_pos hold]
          exact ⟨by omega, hhas⟩
    · exact ⟨h, rfl, by omega, fun _ => Iff.rfl⟩
  unfold entryMarkBlockModified
  dsimp only
  rw [hentry']
  obtain ⟨hok, hlimit, hroom, hhas⟩ := hgrown
  obtain ⟨hmarkok, hmark⟩ :=
    Chunk.mark_spec (hok.chunk _ hroom)
      (Nat.mod_lt blknum (show 0 < BLOCKS_PER_CHUNK by decide)) memory
  refine ⟨⟨hok.nchunks, fun i hi => ?_⟩, hlimit, fun b => ?_⟩
  · dsimp only
    by_cases hi' : i = blknum / BLOCKS_PER_CHUNK
    · rw [hi', update_self]
      exact hmarkok
    · rw [update_of_ne hi']
      exact hok.chunk i hi
  · have hblock : b = blknum ↔
        b / BLOCKS_PER_CHUNK = blknum / BLOCKS_PER_CHUNK ∧
        b % BLOCKS_PER_CHUNK = blknum % BLOCKS_PER_CHUNK := by
      unfold BLOCKS_PER_CHUNK
      omega
    rw [← hhas b, hblock]
    unfold BlockRefTableEntry.Has
    dsimp only
    by_cases hb : b / BLOCKS_PER_CHUNK = blknum / BLOCKS_PER_CHUNK
    · rw [hb, update_self, hmark]
      exact ⟨fun hnew => hnew.2.imp (fun hold => ⟨hroom, hold⟩) fun heq => ⟨rfl, heq⟩,
        fun hnew => ⟨hroom, hnew.imp (fun hold => hold.2) fun heq => heq.2⟩⟩
    · rw [update_of_ne hb]
      exact ⟨.inl, fun hnew => hnew.resolve_right fun heq => hb heq.1⟩

/-! ## The limit and the set of blocks -/

/-- The calls that change an entry. -/
inductive EntryOp
  /-- `BlockRefTableEntryMarkBlockModified`, with what is found in new memory. -/
  | markBlockModified (blknum : ℕ) (memory : ℕ → ℕ)
  /-- `BlockRefTableEntrySetLimitBlock`. -/
  | setLimitBlock (limitBlock : ℕ)

/-- The block number of a call. -/
def EntryOp.block : EntryOp → ℕ
  | .markBlockModified blknum _ => blknum
  | .setLimitBlock limitBlock => limitBlock

/-- What a call does to a limit and a set of blocks. -/
def limitedSetStep : ℕ × Finset ℕ → EntryOp → ℕ × Finset ℕ
  | (L, M), .markBlockModified b _ => (L, insert b M)
  | (L, M), .setLimitBlock l => if l < L then (l, M.filter (· < l)) else (L, M)

/-- What a call does to an entry. -/
def entryCall : BlockRefTableEntry → EntryOp → BlockRefTableEntry
  | entry, .markBlockModified blknum memory => entryMarkBlockModified entry blknum memory
  | entry, .setLimitBlock limitBlock => entrySetLimitBlock entry limitBlock

/-- A call, on an entry and on a limit and a set of blocks. -/
def entryStep (s : BlockRefTableEntry × (ℕ × Finset ℕ)) (op : EntryOp) :
    Option (BlockRefTableEntry × (ℕ × Finset ℕ)) :=
  some (entryCall s.1 op, limitedSetStep s.2 op)

/-- The sequences of calls with block numbers, on a new entry. -/
def EntryRun (ops : List EntryOp) (entry : BlockRefTableEntry) (L : ℕ) (M : Finset ℕ) : Prop :=
  Runs.Run entryStep (fun _ op => op.block < 2^32)
    (createBlockRefTableEntry, (InvalidBlockNumber, ∅)) ops (entry, (L, M))

/-- The entry stands for the limit and the set. -/
structure EntryRefines (entry : BlockRefTableEntry) (L : ℕ) (M : Finset ℕ) : Prop where
  ok : EntryOk entry
  limit : entry.limitBlock = L
  blocks : ∀ b, b ∈ M ↔ entry.Has b

/-- A new entry. -/
theorem entryRefines_new (limitBlock : ℕ) :
    EntryRefines ⟨limitBlock, 0, fun _ => Chunk.zero⟩ limitBlock ∅ :=
  ⟨⟨.inl rfl, nofun⟩, rfl,
    fun b => ⟨fun hb => absurd hb (Finset.notMem_empty b),
      fun hb => absurd hb.1 (Nat.not_lt_zero _)⟩⟩

/-- One call. -/
theorem EntryRefines.step {L : ℕ} {M : Finset ℕ} (h : EntryRefines entry L M) {op : EntryOp}
    (hop : op.block < 2^32) :
    EntryRefines (entryCall entry op) (limitedSetStep (L, M) op).1
      (limitedSetStep (L, M) op).2 := by
  cases op with
  | markBlockModified b memory =>
    obtain ⟨hok, hlimit, hhas⟩ := entryMarkBlockModified_spec h.ok hop memory
    refine ⟨hok, hlimit.trans h.limit, fun b' => ?_⟩
    show b' ∈ insert b M ↔ _
    rw [Finset.mem_insert, h.blocks, or_comm]
    exact (hhas b').symm
  | setLimitBlock l =>
    unfold limitedSetStep
    dsimp only
    split_ifs with hl
    · obtain ⟨hok, hlimit, hhas⟩ := entrySetLimitBlock_spec h.ok (h.limit.symm ▸ hl)
      refine ⟨hok, hlimit, fun b => ?_⟩
      rw [Finset.mem_filter, h.blocks]
      exact (hhas b).symm
    · have hsame : entryCall entry (.setLimitBlock l) = entry := if_pos (by rw [h.limit]; omega)
      rw [hsame]
      exact h

/-- Every sequence of calls. -/
theorem entry_refines {ops : List EntryOp} {L : ℕ} {M : Finset ℕ} (run : EntryRun ops entry L M) :
    EntryRefines entry L M := by
  refine Runs.Run.invariant run (fun s => EntryRefines s.1 s.2.1 s.2.2) (entryRefines_new _)
    fun a op t ha hop ht => ?_
  cases ht
  exact ha.step hop

end PgAutoIndex.Common
