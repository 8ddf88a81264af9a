import Mathlib.Data.Prod.Lex
import PgAutoIndex.Common.BlkRefTableFile

/-!
# What is read back from a file of a block reference table

The bytes of a file are the magic number, the bytes of the entries in the order of the comparator
(`entryBytes`), an entry of zeros and the checksum (`writeBlockRefTable_eq`). `Reading` says where a
reader is in the bytes of one entry: which chunks it has consumed, what of the current one it has
not returned yet, and that what it returned, this rest and the blocks of the other chunks are all
the blocks of the entry. `NextRelation` leads from the end of one entry to the beginning of the
next, and each round of the loop of `GetBlocks` keeps `Reading`.

`Client` is a reader with all that it has returned, and `blkreftable_file_round_trip` is about every
sequence of calls.
-/

namespace PgAutoIndex.Common

open List hiding getElem?_eq_some_iff
open Bytes Function

/-! ## The file -/

variable {brtab : BlockRefTable} {entry : BlockRefTableEntry} {before given : List ℕ}
  {order : List BlockRefTableKey}
  {abs : BlockRefTableKey → Option (ℕ × Finset ℕ)} {key : BlockRefTableKey}
  {p : BlockRefTableKey × BlockRefTableEntry}
  {pairs : List (BlockRefTableKey × BlockRefTableEntry)} {crcByte : UInt32 → UInt8 → UInt32}
  {sched : ℕ → ℕ} {buffer : WriteBuffer}
  {bytes file rest body : List UInt8} {reader : BlockRefTableReader}

/-- The chunks that are left out are those at the end that are not used. -/
theorem trimChunks_spec (entry : BlockRefTableEntry) (n : ℕ) :
    trimChunks entry n ≤ n ∧ ∀ j, trimChunks entry n ≤ j → j < n →
    (entry.chunks j).chunkUsage = 0 := by
  induction n with
  | zero => exact ⟨le_rfl, nofun⟩
  | succ n ih =>
    rw [trimChunks]
    split_ifs with hzero
    · refine ⟨by omega, fun j hj hlt => ?_⟩
      rcases Nat.lt_succ_iff_lt_or_eq.mp hlt with hlt' | rfl
      · exact ih.2 j hj hlt'
      · exact hzero
    · exact ⟨le_refl _, fun j hj hlt => by omega⟩

/-- The number of chunks of an entry in a file. -/
def fileChunks (entry : BlockRefTableEntry) : ℕ := trimChunks entry entry.nchunks

theorem lt_nchunks {c : ℕ} (hc : c < fileChunks entry) : c < entry.nchunks :=
  hc.trans_le (trimChunks_spec entry entry.nchunks).1

/-- The bytes of the chunks from `c` on. -/
def chunksFrom (entry : BlockRefTableEntry) (c : ℕ) : List UInt8 :=
  (range' c (fileChunks entry - c)).flatMap fun j => chunkBytes (entry.chunks j)

/-- The bytes of an entry. -/
def entryBytes (key : BlockRefTableKey) (entry : BlockRefTableEntry) : List UInt8 :=
  (serializeEntry key entry).bytes ++ (usageBytes entry (fileChunks entry) ++ chunksFrom entry 0)

theorem chunkBytes_of_usage_zero {chunk : Chunk} (h : chunk.chunkUsage = 0) :
    chunkBytes chunk = [] := by
  rw [chunkBytes, h]
  rfl

/-- The loop over the chunks writes their bytes. -/
theorem Wrote.chunks (h : Wrote crcByte buffer bytes) (l : List ℕ) :
    Wrote crcByte (l.foldl (fun buffer j =>
      if (entry.chunks j).chunkUsage = 0 then buffer
      else blockRefTableWrite crcByte buffer (chunkBytes (entry.chunks j))) buffer)
      (bytes ++ l.flatMap fun j => chunkBytes (entry.chunks j)) := by
  induction l generalizing buffer bytes with
  | nil => rwa [flatMap_nil, append_nil]
  | cons j l ih =>
    rw [foldl_cons, flatMap_cons, ← append_assoc]
    refine ih ?_
    split_ifs with hzero
    · rwa [chunkBytes_of_usage_zero hzero, append_nil]
    · exact h.write _

/-- The entry of a relation fork is written as its bytes. -/
theorem Wrote.one_entry (hentry : brtab key = some entry) (h : Wrote crcByte buffer bytes) :
    Wrote crcByte (writeEntry crcByte brtab buffer (serializeEntry key entry))
      (bytes ++ entryBytes key entry) := by
  -- The chunks that the header leaves out have no bytes.
  have htrim : ((range entry.nchunks).flatMap fun j => chunkBytes (entry.chunks j)) =
      chunksFrom entry 0 := by
    obtain ⟨hle, hzero⟩ := trimChunks_spec entry entry.nchunks
    obtain ⟨k, hk⟩ : ∃ k, entry.nchunks = fileChunks entry + k :=
      ⟨entry.nchunks - fileChunks entry, by unfold fileChunks; omega⟩
    rw [chunksFrom, Nat.sub_zero, ← range_eq_range']
    have hnil : (((range k).map (fileChunks entry + ·)).flatMap
        fun j => chunkBytes (entry.chunks j)) = [] := by
      refine flatMap_eq_nil_iff.mpr fun j hj => ?_
      obtain ⟨i, hi, rfl⟩ := mem_map.mp hj
      have := mem_range.mp hi
      exact chunkBytes_of_usage_zero (hzero _ (Nat.le_add_right _ _) (by omega))
    rw [hk, range_add, flatMap_append, hnil, append_nil]
  unfold writeEntry entryBytes
  rw [show (serializeEntry key entry).key = key from rfl, hentry, ← htrim, ← append_assoc,
    ← append_assoc]
  refine Wrote.chunks ?_ (range entry.nchunks)
  change Wrote crcByte (if fileChunks entry ≠ 0 then _ else _) _
  split_ifs with hne
  · exact (h.write _).write _
  · have hnil : usageBytes entry (fileChunks entry) = [] := by
      rw [not_not.mp hne]
      rfl
    rw [hnil, append_nil]
    exact h.write _

/-! ## The order of the entries -/

/-- The order of relation forks in a file. -/
def keyLt (a b : BlockRefTableKey) : Prop :=
  a.spcOid < b.spcOid ∨ a.spcOid = b.spcOid ∧ (a.dbOid < b.dbOid ∨ a.dbOid = b.dbOid ∧
    (a.relNumber < b.relNumber ∨ a.relNumber = b.relNumber ∧ a.forknum < b.forknum))

/-- The numbers of a relation fork, compared one after the other. -/
def keyLex (a : BlockRefTableKey) : ℕ ×ₗ ℕ ×ₗ ℕ ×ₗ ℕ :=
  toLex (a.spcOid, toLex (a.dbOid, toLex (a.relNumber, a.forknum)))

theorem keyLex_injective : Injective keyLex := by
  rintro ⟨⟩ ⟨⟩ h
  cases h
  rfl

theorem keyLex_lt {a b : BlockRefTableKey} : keyLex a < keyLex b ↔ keyLt a b := by
  simp only [keyLex, keyLt, Prod.Lex.toLex_lt_toLex]

theorem comparator_le_iff (sa sb : SerializedEntry) :
    blockRefTableComparator sa sb ≤ 0 ↔ keyLex sa.key ≤ keyLex sb.key := by
  simp only [keyLex, Prod.Lex.toLex_le_toLex]
  unfold blockRefTableComparator
  split_ifs <;> omega

/-- The relation forks with their entries, in the order of the file. -/
def filePairs (brtab : BlockRefTable) (order : List BlockRefTableKey) :
    List (BlockRefTableKey × BlockRefTableEntry) :=
  (sortedEntries brtab order).map fun sentry =>
    (sentry.key, (brtab sentry.key).getD createBlockRefTableEntry)

/-- The relation forks of a table, in the order of the file. -/
def fileOrder (brtab : BlockRefTable) (order : List BlockRefTableKey) : List BlockRefTableKey :=
  (sortedEntries brtab order).map (·.key)

theorem mem_sortedEntries {sentry : SerializedEntry} (h : sentry ∈ sortedEntries brtab order) :
    ∃ entry, brtab sentry.key = some entry ∧ sentry = serializeEntry sentry.key entry := by
  obtain ⟨key, _, hkey⟩ := mem_filterMap.mp (mem_mergeSort.mp h)
  obtain ⟨entry, hentry, rfl⟩ := Option.map_eq_some_iff.mp hkey
  exact ⟨entry, hentry, rfl⟩

/-- The pairs are of the table, and their serialized forms are those of the file. -/
theorem filePairs_spec (brtab : BlockRefTable) (order : List BlockRefTableKey) :
    (∀ p ∈ filePairs brtab order, brtab p.1 = some p.2) ∧
    (filePairs brtab order).map (fun p => serializeEntry p.1 p.2) = sortedEntries brtab order ∧
      (filePairs brtab order).map Prod.fst = fileOrder brtab order := by
  unfold filePairs
  refine ⟨fun p hp => ?_, ?_, ?_⟩
  · obtain ⟨sentry, hs, rfl⟩ := mem_map.mp hp
    obtain ⟨entry, hentry, _⟩ := mem_sortedEntries hs
    rw [hentry, Option.getD_some]
  · rw [map_map]
    conv_rhs => rw [← map_id (sortedEntries brtab order)]
    refine map_congr_left fun sentry hs => ?_
    obtain ⟨entry, hentry, hsentry⟩ := mem_sortedEntries hs
    dsimp only [comp_apply, id_eq]
    rw [hentry, Option.getD_some, ← hsentry]
  · rw [map_map]
    rfl

/-- The file has the relation forks of the table, in the order of the comparator. -/
theorem fileOrder_spec (hnodup : order.Nodup) (hsome : ∀ key ∈ order, brtab key ≠ none) :
    List.Perm (fileOrder brtab order) order ∧ (fileOrder brtab order).Pairwise keyLt := by
  have hperm : List.Perm (fileOrder brtab order) order := by
    refine ((mergeSort_perm _ _).map _).trans (List.Perm.of_eq ?_)
    rw [map_filterMap]
    conv_rhs => rw [← filterMap_some (l := order)]
    refine filterMap_congr fun key hkey => ?_
    obtain ⟨entry, hentry⟩ := Option.ne_none_iff_exists'.mp (hsome key hkey)
    rw [hentry]
    rfl
  refine ⟨hperm, ?_⟩
  have hsorted : (sortedEntries brtab order).Pairwise fun sa sb => keyLex sa.key ≤
      keyLex sb.key := by
    refine (pairwise_mergeSort (fun a b c hab hbc => ?_) (fun a b => ?_) _).imp fun hle => ?_
    · rw [decide_eq_true_eq, comparator_le_iff] at hab hbc ⊢
      exact hab.trans hbc
    · rw [Bool.or_eq_true, decide_eq_true_eq, decide_eq_true_eq, comparator_le_iff,
        comparator_le_iff]
      exact le_total _ _
    · exact (comparator_le_iff _ _).mp (of_decide_eq_true hle)
  -- No two keys are the same.
  have hdistinct : (fileOrder brtab order).Nodup := hperm.nodup_iff.mpr hnodup
  have hle : (fileOrder brtab order).Pairwise fun a b => keyLex a ≤ keyLex b :=
    pairwise_map.mpr hsorted
  exact (hle.and hdistinct).imp fun hboth =>
    keyLex_lt.mp (hboth.1.lt_of_ne (keyLex_injective.ne hboth.2))

/-- The bytes of the entries. -/
def entriesBytes (pairs : List (BlockRefTableKey × BlockRefTableEntry)) : List UInt8 :=
  pairs.flatMap fun p => entryBytes p.1 p.2

theorem Wrote.entries (hpairs : ∀ p ∈ pairs, brtab p.1 = some p.2)
    (h : Wrote crcByte buffer bytes) :
    Wrote crcByte
      ((pairs.map fun p => serializeEntry p.1 p.2).foldl (writeEntry crcByte brtab) buffer)
      (bytes ++ entriesBytes pairs) := by
  induction pairs generalizing buffer bytes with
  | nil => rwa [entriesBytes, flatMap_nil, append_nil]
  | cons p pairs ih =>
    obtain ⟨hp, hpairs⟩ := forall_mem_cons.mp hpairs
    rw [map_cons, foldl_cons, entriesBytes, flatMap_cons, ← append_assoc]
    exact ih hpairs (h.one_entry hp)

/-- The checksum behind the bytes of a file. -/
def checksum (crcByte : UInt32 → UInt8 → UInt32) (body : List UInt8) : List UInt8 :=
  leBytes 4 (finCrc32c (body.foldl crcByte INIT_CRC32C)).toNat

/-- The end of a file. -/
theorem Wrote.terminate (h : Wrote crcByte buffer bytes) :
    (blockRefTableFileTerminate crcByte buffer).out = bytes ++ zeroBytes ++ checksum crcByte
      (bytes ++ zeroBytes) := by
  have hzero := h.write zeroBytes
  have hcrc :=
    (hzero.write
      (leBytes 4 (finCrc32c (blockRefTableWrite crcByte buffer zeroBytes).crc).toNat)).concat
  rw [checksum, ← hzero.crc, ← hcrc]
  rfl

/-- The bytes of a file. -/
theorem writeBlockRefTable_eq (crcByte : UInt32 → UInt8 → UInt32) (brtab : BlockRefTable)
    (order : List BlockRefTableKey) :
    ∃ body, body = leBytes 4 BLOCKREFTABLE_MAGIC ++
      (entriesBytes (filePairs brtab order) ++ zeroBytes) ∧
      writeBlockRefTable crcByte brtab order = body ++ checksum crcByte body := by
  refine ⟨_, rfl, ?_⟩
  obtain ⟨hpairs, hsorted, _⟩ := filePairs_spec brtab order
  have hmagic : Wrote crcByte _ ([] ++ leBytes 4 BLOCKREFTABLE_MAGIC) :=
    wrote_nil.write (leBytes 4 BLOCKREFTABLE_MAGIC)
  have hfile := (hmagic.entries hpairs).terminate
  rw [hsorted, nil_append, append_assoc (leBytes 4 BLOCKREFTABLE_MAGIC)] at hfile
  exact hfile

/-! ## Blocks -/

/-- The blocks of a chunk, in the order in which they are returned. -/
def allOfChunk (entry : BlockRefTableEntry) (c : ℕ) : List ℕ :=
  chunkBlocks (entry.chunks c) c 0 BLOCKS_PER_CHUNK

/-- The blocks of the chunks from `c` on. -/
def blocksFrom (entry : BlockRefTableEntry) (c : ℕ) : List ℕ :=
  (range' c (fileChunks entry - c)).flatMap (allOfChunk entry)

/-- The blocks of the chunks in the file are those of the entry. -/
theorem mem_blocksFrom_zero (h : EntryOk entry) {b : ℕ} : b ∈ blocksFrom entry 0 ↔ entry.Has b := by
  have hzero := (trimChunks_spec entry entry.nchunks).2
  unfold blocksFrom allOfChunk
  rw [Nat.sub_zero, ← range_eq_range', mem_flatMap]
  constructor
  · rintro ⟨c, hc, hb⟩
    have hcn := lt_nchunks (mem_range.mp hc)
    obtain ⟨rfl, _, _, hhas⟩ := (mem_chunkBlocks (h.chunk c hcn)).mp hb
    exact ⟨hcn, hhas⟩
  · rintro ⟨hcn, hhas⟩
    refine ⟨b / BLOCKS_PER_CHUNK, mem_range.mpr ?_,
      (mem_chunkBlocks (h.chunk _ hcn)).mpr ⟨rfl, Nat.zero_le _, Nat.mod_lt _ (by decide), hhas⟩⟩
    by_contra hout
    exact not_has_of_usage_zero (hzero _ (Nat.le_of_not_lt hout) hcn) _ hhas

/-- The blocks of a chunk that are not returned yet, by the position in it. -/
def pendingBlocks (data : ℕ → ℕ) (chunkno usage pos : ℕ) : List ℕ :=
  (if usage = MAX_ENTRIES_PER_CHUNK then bitOffsets data pos (BLOCKS_PER_CHUNK - pos)
    else (range' pos (usage - pos)).map data).map
    (chunkno * BLOCKS_PER_CHUNK + ·)

/-- At the beginning of a chunk all its blocks are pending. -/
theorem pendingBlocks_zero (h : EntryOk entry) {c : ℕ} (hc : c < entry.nchunks) (data : ℕ → ℕ)
    (hdata : ∀ i, i < (entry.chunks c).chunkUsage → data i = (entry.chunks c).chunkData i) :
    pendingBlocks data c (entry.chunks c).chunkUsage 0 = allOfChunk entry c := by
  unfold pendingBlocks allOfChunk chunkBlocks
  congr 1
  split_ifs with hmax
  · refine filter_congr fun o ho => ?_
    have ho' := (mem_range'_1.mp ho).2
    unfold bit
    rw [hdata]
    rw [hmax]
    unfold BLOCKS_PER_CHUNK at ho'
    unfold MAX_ENTRIES_PER_CHUNK BLOCKS_PER_ENTRY
    omega
  · unfold arrayOffsets
    rw [Nat.sub_zero, ← range_eq_range']
    rw [map_congr_left fun i hi => hdata i (mem_range.mp hi)]
    -- All offsets are in the chunk.
    refine (filter_eq_self.mpr fun o ho => ?_).symm
    obtain ⟨i, hi, rfl⟩ := mem_map.mp ho
    rw [decide_eq_true_eq]
    exact ⟨Nat.zero_le _, (h.chunk c hc).word i (mem_range.mp hi)⟩

/-- The block at a position of a chunk, if there is one. -/
def blockAt (data : ℕ → ℕ) (chunkno usage pos : ℕ) : List ℕ :=
  if usage = MAX_ENTRIES_PER_CHUNK then if bit data pos then [chunkno * BLOCKS_PER_CHUNK + pos]
  else [] else [chunkno * BLOCKS_PER_CHUNK + data pos]

/-- The end of the positions of a chunk. -/
def positions (usage : ℕ) : ℕ := if usage = MAX_ENTRIES_PER_CHUNK then BLOCKS_PER_CHUNK else usage

theorem pendingBlocks_eq (data : ℕ → ℕ) (chunkno usage pos : ℕ) :
    pendingBlocks data chunkno usage pos = (range' pos (positions usage - pos)).flatMap
      (blockAt data chunkno usage) := by
  unfold pendingBlocks positions blockAt
  split_ifs with hmax
  · generalize BLOCKS_PER_CHUNK - pos = n
    induction n generalizing pos with
    | zero => rfl
    | succ n ih =>
      rw [bitOffsets_succ, range'_succ, flatMap_cons, map_append, ih]
      split_ifs <;> rfl
  · rw [map_map, ← map_eq_flatMap]
    rfl

/-- A loop over positions that takes the block at each of them as long as there is room has taken
those before the position at which it stops, which is the end when there is room left. -/
theorem loop_spec (emit : ℕ → List ℕ) (nblocks : ℕ) (loop : ℕ → ℕ → List ℕ → ℕ × List ℕ)
    (hemit : ∀ pos, (emit pos).length ≤ 1)
    (hzero : ∀ pos blocks, loop 0 pos blocks = (pos, blocks)) (hsucc : ∀ n pos blocks,
      loop (n + 1) pos blocks =
        if blocks.length < nblocks then loop n (pos + 1) (blocks ++ emit pos) else (pos, blocks))
    (n pos : ℕ) {blocks : List ℕ} (hle : blocks.length ≤ nblocks) :
    ∃ pos' blocks', loop n pos blocks = (pos', blocks') ∧ pos' ≤ pos + n ∧
      blocks'.length ≤ nblocks ∧
      blocks' ++ (range' pos' (pos + n - pos')).flatMap emit =
        blocks ++ (range' pos n).flatMap emit ∧ (blocks'.length < nblocks → pos' = pos + n) := by
  induction n generalizing pos blocks with
  | zero =>
    exact ⟨pos, blocks, hzero pos blocks, le_rfl, hle, by rw [Nat.add_zero, Nat.sub_self],
      fun _ => rfl⟩
  | succ n ih =>
    rw [hsucc]
    split_ifs with hroom
    · have hlength : (blocks ++ emit pos).length ≤ nblocks := by
        have := hemit pos
        rw [length_append]
        omega
      obtain ⟨pos', blocks', hloop, hpos', hlen, heq, hend⟩ := ih (pos + 1) hlength
      refine ⟨pos', blocks', hloop, by omega, hlen, ?_, fun hlt => by have := hend hlt; omega⟩
      rw [show pos + (n + 1) - pos' = pos + 1 + n - pos' by omega, heq, range'_succ, flatMap_cons,
        append_assoc]
    · refine ⟨pos, blocks, rfl, Nat.le_add_right _ _, hle, ?_, fun hlt => absurd hlt hroom⟩
      rw [Nat.add_sub_cancel_left]

/-! ## Reading one entry -/

/-- The blocks of the current chunk that are not returned yet. -/
def pendingOf (reader : BlockRefTableReader) (entry : BlockRefTableEntry) : List ℕ :=
  if reader.consumedChunks = 0 then []
  else pendingBlocks reader.chunkData (reader.consumedChunks - 1)
    (entry.chunks (reader.consumedChunks - 1)).chunkUsage reader.chunkPosition

/-- A reader has returned `given` of an entry, after which the file has `rest`. -/
structure Reading (crcByte : UInt32 → UInt8 → UInt32) (file : List UInt8)
    (reader : BlockRefTableReader) (entry : BlockRefTableEntry) (given : List ℕ)
    (rest : List UInt8) : Prop where
  ok : EntryOk entry
  total : reader.totalChunks = fileChunks entry
  consumed : reader.consumedChunks ≤ fileChunks entry
  sizes : reader.chunkSize = (range (fileChunks entry)).map fun j => (entry.chunks j).chunkUsage
  upto : ReadUpTo crcByte file reader.buffer (chunksFrom entry reader.consumedChunks ++ rest)
  /-- The position is in the current chunk. -/
  position : 0 < reader.consumedChunks →
    reader.chunkPosition ≤
      if (entry.chunks (reader.consumedChunks - 1)).chunkUsage = MAX_ENTRIES_PER_CHUNK
        then BLOCKS_PER_CHUNK
      else (entry.chunks (reader.consumedChunks - 1)).chunkUsage
  blocks : given ++ (pendingOf reader entry ++ blocksFrom entry reader.consumedChunks) =
    blocksFrom entry 0

/-- The size of a chunk that the reader has. -/
theorem Reading.size (h : Reading crcByte file reader entry given rest) {c : ℕ}
    (hc : c < fileChunks entry) :
    reader.chunkSize.getD c 0 = (entry.chunks c).chunkUsage := by
  rw [h.sizes, getD_eq_getElem?_getD, getElem?_map, getElem?_range hc]
  rfl

/-- The loops over a bitmap and over an array take the pending blocks of the chunk that was read
last. -/
theorem readChunk_spec (hconsumed : reader.consumedChunks > 0) {usage nblocks : ℕ} {blocks : List ℕ}
    (hsize : reader.chunkSize.getD (reader.consumedChunks - 1) 0 = usage)
    (hpos : reader.chunkPosition ≤ positions usage) (hle : blocks.length ≤ nblocks) :
    ∃ pos' blocks', readChunk reader nblocks blocks = (pos', blocks') ∧ pos' ≤ positions usage ∧
      blocks'.length ≤ nblocks ∧
      blocks' ++ pendingBlocks reader.chunkData (reader.consumedChunks - 1) usage pos' =
        blocks ++ pendingBlocks reader.chunkData
          (reader.consumedChunks - 1) usage reader.chunkPosition ∧
      (blocks'.length < nblocks → pos' = positions usage) := by
  obtain ⟨loop, hloop⟩ : ∃ loop, loop = if usage = MAX_ENTRIES_PER_CHUNK then
      readBitmap reader.chunkData ((reader.consumedChunks - 1) * BLOCKS_PER_CHUNK) nblocks
    else readArray reader.chunkData ((reader.consumedChunks - 1) * BLOCKS_PER_CHUNK) nblocks :=
      ⟨_, rfl⟩
  have hread : readChunk reader nblocks blocks =
      loop (positions usage - reader.chunkPosition) reader.chunkPosition blocks := by
    unfold readChunk positions
    rw [if_pos hconsumed, hloop]
    dsimp only
    rw [hsize]
    split_ifs <;> rfl
  have hspec :=
    loop_spec (blockAt reader.chunkData (reader.consumedChunks - 1) usage) nblocks loop ?_ ?_ ?_
    (positions usage - reader.chunkPosition) reader.chunkPosition hle
  · obtain ⟨pos', blocks', heq, hpos', hlen, hblocks, hend⟩ := hspec
    rw [show reader.chunkPosition + (positions usage - reader.chunkPosition) =
      positions usage by omega] at hpos' hblocks hend
    exact ⟨pos', blocks', hread.trans heq, hpos', hlen,
      by rw [pendingBlocks_eq, pendingBlocks_eq, hblocks], hend⟩
  · intro pos
    unfold blockAt
    split_ifs <;> simp
  · intro pos blocks
    rw [hloop]
    split_ifs <;> rfl
  · intro n pos blocks
    rw [hloop, blockAt]
    split_ifs with hmax hroom hbit
    · rw [readBitmap, if_pos hroom]
      dsimp only
      rw [if_pos (and_shiftLeft_ne_zero.mpr hbit)]
    · rw [readBitmap, if_pos hroom]
      dsimp only
      rw [if_neg (mt and_shiftLeft_ne_zero.mp hbit), append_nil]
    · rw [readBitmap, if_neg hroom]
    · rw [readArray, if_pos (by assumption)]
    · rw [readArray, if_neg (by assumption)]

/-- The blocks of the current chunk are returned, until there is no more room or none is left. -/
theorem Reading.chunk {blocks : List ℕ}
    (h : Reading crcByte file reader entry (before ++ blocks) rest) {nblocks : ℕ}
    (hle : blocks.length ≤ nblocks) :
    ∃ pos' blocks', readChunk reader nblocks blocks = (pos', blocks') ∧ blocks'.length ≤ nblocks ∧
      Reading crcByte file { reader with chunkPosition := pos' } entry (before ++ blocks') rest ∧
      (blocks'.length < nblocks → pendingOf { reader with chunkPosition := pos' } entry = []) := by
  by_cases hpos : reader.consumedChunks > 0
  · have hne : reader.consumedChunks ≠ 0 := by omega
    have hsize :=
      h.size (show reader.consumedChunks - 1 < fileChunks entry by have := h.consumed; omega)
    obtain ⟨pos', blocks', hread, hpos', hlen, heq, hend⟩ :=
      readChunk_spec hpos hsize (h.position hpos) hle
    have hblocks := h.blocks
    rw [pendingOf, if_neg hne, append_assoc, ← append_assoc blocks, ← heq, append_assoc blocks',
      ← append_assoc before] at hblocks
    refine ⟨pos', blocks', hread, hlen, { h with position := fun _ => hpos', blocks := ?_ },
      fun hroom => ?_⟩
    · rw [pendingOf, if_neg hne]
      exact hblocks
    · rw [pendingOf, if_neg hne, pendingBlocks_eq, hend hroom, Nat.sub_self]
      rfl
  · -- No chunk has been read yet.
    have hzero : reader.consumedChunks = 0 := by omega
    refine ⟨reader.chunkPosition, blocks, if_neg hpos, hle, h, fun _ => ?_⟩
    rw [pendingOf, if_pos hzero]

section
variable {c : ℕ} (hc : c < fileChunks entry)
include hc

theorem range'_fileChunks : range' c (fileChunks entry - c) = c :: range' (c + 1)
    (fileChunks entry - (c + 1)) := by
  rw [show fileChunks entry - c = fileChunks entry - (c + 1) + 1 by omega, range'_succ]

/-- The next chunk is read off its bytes. -/
theorem readNextChunk_spec (sched : ℕ → ℕ) {buffer : ReadBuffer}
    (h : ReadUpTo crcByte file buffer (chunksFrom entry c ++ rest)) :
    ∃ buffer', readNextChunk crcByte sched buffer (entry.chunks c).chunkUsage =
      .ok (chunkBytes (entry.chunks c), buffer') ∧
      ReadUpTo crcByte file buffer' (chunksFrom entry (c + 1) ++ rest) := by
  rw [chunksFrom, range'_fileChunks hc, flatMap_cons, append_assoc] at h
  unfold readNextChunk
  split_ifs with hused
  · refine h.read sched ?_
    rw [chunkBytes, length_flatMap_le16, length_map, length_range, mul_comm]
  · have hnil := chunkBytes_of_usage_zero (show (entry.chunks c).chunkUsage = 0 by omega)
    rw [hnil] at h ⊢
    exact ⟨buffer, rfl, h⟩

/-- The words of a chunk are read off its bytes. -/
theorem toWords_chunkBytes (hok : EntryOk entry) :
    toWords (chunkBytes (entry.chunks c)) = (range (entry.chunks c).chunkUsage).map
      (entry.chunks c).chunkData := by
  refine toWords_flatMap fun w hw => ?_
  obtain ⟨i, hi, rfl⟩ := mem_map.mp hw
  exact (hok.chunk c (lt_nchunks hc)).word i (mem_range.mp hi)

end

/-- The reader goes on to the next chunk. -/
theorem Reading.next (h : Reading crcByte file reader entry given rest)
    (hpending : pendingOf reader entry = [])
    (hlt : reader.consumedChunks < fileChunks entry) (sched : ℕ → ℕ) :
    ∃ bytes buffer, readNextChunk crcByte sched reader.buffer
      (reader.chunkSize.getD reader.consumedChunks 0) = .ok (bytes, buffer) ∧
      Reading crcByte file
        { reader with
          buffer := buffer
          chunkData :=
            fun i => if i < reader.chunkSize.getD reader.consumedChunks 0
              then (toWords bytes).getD i 0 else reader.chunkData i
          consumedChunks := reader.consumedChunks + 1
          chunkPosition := 0 } entry given rest := by
  have hblocks := h.blocks
  obtain ⟨buffer, hbuffer, hupto⟩ := readNextChunk_spec hlt sched h.upto
  rw [h.size hlt]
  refine ⟨_, buffer, hbuffer, h.ok, h.total, hlt, h.sizes, hupto, fun _ => Nat.zero_le _, ?_⟩
  -- All blocks of the new chunk are pending.
  rw [hpending, nil_append, blocksFrom, range'_fileChunks hlt, flatMap_cons] at hblocks
  rw [pendingOf, if_neg (Nat.succ_ne_zero _)]
  dsimp only
  rw [Nat.add_sub_cancel, pendingBlocks_zero h.ok (lt_nchunks hlt)]
  · exact hblocks
  · intro i hi
    rw [if_pos hi, toWords_chunkBytes hlt h.ok, getD_eq_getElem?_getD, getElem?_map,
      getElem?_range hi]
    rfl

/-- The loop of `GetBlocks` returns blocks until there is no more room or none is left. -/
theorem getBlocksLoop_spec (sched : ℕ → ℕ) {nblocks n : ℕ} {blocks : List ℕ}
    (hle : blocks.length ≤ nblocks)
    (hn : reader.totalChunks - reader.consumedChunks = n)
    (h : Reading crcByte file reader entry (before ++ blocks) rest) :
    ∃ blocks' reader', getBlocksLoop crcByte sched nblocks n blocks reader =
      .ok (blocks', reader') ∧
      Reading crcByte file reader' entry (before ++ blocks') rest ∧ blocks'.length ≤ nblocks ∧
      (blocks'.length < nblocks → before ++ blocks' = blocksFrom entry 0) := by
  -- When the last chunk has no pending block, all blocks are returned.
  have hall : ∀ {reader : BlockRefTableReader} {given : List ℕ},
    Reading crcByte file reader entry given rest → pendingOf reader entry = [] →
      reader.consumedChunks = fileChunks entry → given = blocksFrom entry 0 := by
    intro reader given h hpending hlast
    have hblocks := h.blocks
    have hnone : blocksFrom entry reader.consumedChunks = [] := by
      rw [blocksFrom, hlast, Nat.sub_self]
      rfl
    rwa [hpending, hnone, append_nil, append_nil] at hblocks
  obtain ⟨pos', blocks', hchunk, hle', h', hend⟩ := h.chunk hle
  induction n generalizing reader blocks pos' blocks' with
  | zero =>
    have hlast : reader.consumedChunks = fileChunks entry := by
      have := h.total
      have := h.consumed
      omega
    rw [getBlocksLoop, hchunk]
    exact ⟨blocks', _, rfl, h', hle', fun hroom => hall h' (hend hroom) hlast⟩
  | succ n ih =>
    have htotal := h.total
    rw [getBlocksLoop, hchunk]
    dsimp only
    split_ifs with hfull hlast
    · exact ⟨blocks', _, rfl, h', hle', fun hroom => absurd hroom (by omega)⟩
    · exact ⟨blocks', _, rfl, h', hle', fun hroom => hall h' (hend hroom) (hlast.trans htotal)⟩
    · obtain ⟨bytes, buffer, hread, hnext⟩ :=
        h'.next (hend (by omega)) (show reader.consumedChunks < fileChunks entry by omega) sched
      rw [hread]
      obtain ⟨pos'', blocks'', hchunk', hle'', h'', hend'⟩ := hnext.chunk hle'
      exact ih hle' (by show reader.totalChunks - (reader.consumedChunks + 1) = n; omega) hnext
        pos'' blocks'' hchunk' hle'' h'' hend'

/-- `BlockRefTableReaderGetBlocks` returns the next blocks of the entry, and fewer than it was asked
for only when these are the last. -/
theorem Reading.getBlocks (h : Reading crcByte file reader entry before rest) (sched : ℕ → ℕ)
    (nblocks : ℕ) :
    ∃ blocks reader', blockRefTableReaderGetBlocks crcByte sched reader nblocks =
      .ok (blocks, reader') ∧
      Reading crcByte file reader' entry (before ++ blocks) rest ∧ blocks.length ≤ nblocks ∧
      (blocks.length < nblocks → before ++ blocks = blocksFrom entry 0) :=
  getBlocksLoop_spec sched (Nat.zero_le _) rfl (by rwa [append_nil])

/-! ## From one entry to the next -/

/-- The numbers of a relation fork fit into its serialized form. -/
structure KeyOk (key : BlockRefTableKey) : Prop where
  spcOid : key.spcOid < 2^32
  dbOid : key.dbOid < 2^32
  relNumber : key.relNumber < 2^32
  forknum : key.forknum < 2^32

theorem SerializedEntry.length_bytes (sentry : SerializedEntry) : sentry.bytes.length = 24 := by
  unfold SerializedEntry.bytes
  simp only [length_append, length_leBytes]

/-- A serialized entry is read back from its bytes. -/
theorem SerializedEntry.ofBytes_bytes (sentry : SerializedEntry) (hkey : KeyOk sentry.key)
    (hlimit : sentry.limitBlock < 2^32)
    (hnchunks : sentry.nchunks < 2^32) : SerializedEntry.ofBytes sentry.bytes = sentry := by
  obtain ⟨⟨s, d, r, f⟩, l, n⟩ := sentry
  -- The six numbers are blocks of four bytes.
  have hfield : ∀ i k, [s, d, r, f, l, n][i]? = some k → k < 2^32 →
      leNat (((SerializedEntry.bytes ⟨⟨s, d, r, f⟩, l, n⟩).drop (i * 4)).take 4) = k := by
    intro i k hi hk
    have hblock := take_drop_flatMap (fun a _ => length_leBytes 4 a) hi []
    rw [show [s, d, r, f, l, n].flatMap (leBytes 4) ++ [] =
      SerializedEntry.bytes ⟨⟨s, d, r, f⟩, l, n⟩ by simp [SerializedEntry.bytes]] at hblock
    rw [hblock, leNat_leBytes hk]
  rw [SerializedEntry.ofBytes, SerializedEntry.mk.injEq, BlockRefTableKey.mk.injEq]
  exact ⟨⟨hfield 0 s rfl hkey.spcOid, hfield 1 d rfl hkey.dbOid, hfield 2 r rfl hkey.relNumber,
    hfield 3 f rfl hkey.forknum⟩,
    hfield 4 l rfl hlimit, hfield 5 n rfl hnchunks⟩

theorem fileChunks_lt (h : EntryOk entry) : fileChunks entry < 2^32 := by
  have hle := (trimChunks_spec entry entry.nchunks).1
  rcases h.nchunks with hzero | ⟨k, _, hk, hn⟩
  · unfold fileChunks
    omega
  · have hpow : 2^k ≤ 2^16 := Nat.pow_le_pow_right (by decide) hk
    unfold fileChunks
    omega

/-- A computation that goes on after a result. -/
theorem ok_bind {α β : Type} (a : α) (f : α → Except ReaderError β) :
    (Except.ok a >>= f) = f a := rfl

/-- `BlockRefTableReaderNextRelation` at an entry. -/
theorem nextRelation_entry (sched : ℕ → ℕ) (hok : EntryOk entry) (hkey : KeyOk key)
    (hlimit : entry.limitBlock < 2^32) (hne : (serializeEntry key entry).bytes ≠ zeroBytes)
    (h : ReadUpTo crcByte file reader.buffer (entryBytes key entry ++ rest)) :
    ∃ reader', blockRefTableReaderNextRelation crcByte sched reader =
        .ok (some (key, entry.limitBlock), reader') ∧
      Reading crcByte file reader' entry [] rest := by
  rw [entryBytes, append_assoc, append_assoc] at h
  obtain ⟨buffer₁, hread₁, h₁⟩ := h.read sched (SerializedEntry.length_bytes _)
  have hlength : (usageBytes entry (fileChunks entry)).length = fileChunks entry * 2 := by
    rw [usageBytes, length_flatMap_le16, length_map, length_range, mul_comm]
  obtain ⟨buffer₂, hread₂, h₂⟩ := h₁.read sched hlength
  have hsizes : toWords (usageBytes entry (fileChunks entry)) =
      (range (fileChunks entry)).map fun j => (entry.chunks j).chunkUsage := by
    refine toWords_flatMap fun w hw => ?_
    obtain ⟨j, hj, rfl⟩ := mem_map.mp hw
    have hchunk := hok.chunk j (lt_nchunks (mem_range.mp hj))
    have := hchunk.usage
    have := hchunk.size_le
    unfold MAX_ENTRIES_PER_CHUNK at this
    omega
  refine ⟨{ reader with
      buffer := buffer₂
      chunkSize := toWords (usageBytes entry (fileChunks entry))
      totalChunks := fileChunks entry
      consumedChunks := 0 },
    ?_, hok, rfl, Nat.zero_le _, hsizes, h₂, fun hpos => absurd hpos (Nat.lt_irrefl 0), ?_⟩
  · unfold blockRefTableReaderNextRelation
    rw [hread₁, ok_bind]
    dsimp only
    rw [if_neg hne, SerializedEntry.ofBytes_bytes _ hkey hlimit (fileChunks_lt hok),
      show (serializeEntry key entry).nchunks = fileChunks entry from rfl, hread₂]
    rfl
  · rw [pendingOf, if_pos rfl, nil_append, nil_append]

/-- `BlockRefTableReaderNextRelation` at the end of the file accepts the checksum. -/
theorem nextRelation_end (sched : ℕ → ℕ) (hfile : file = body ++ checksum crcByte body)
    (h : ReadUpTo crcByte file reader.buffer (zeroBytes ++ checksum crcByte body)) :
    ∃ reader', blockRefTableReaderNextRelation crcByte sched reader = .ok (none, reader') := by
  obtain ⟨buffer₁, hread₁, h₁⟩ := h.read sched (SerializedEntry.length_bytes _)
  -- All bytes before the checksum have been counted.
  have hcrc : buffer₁.crc = body.foldl crcByte INIT_CRC32C := by
    obtain ⟨done, hdone, hcrc⟩ := h₁.crc
    rw [hfile] at hdone
    rw [hcrc, append_cancel_right hdone]
  obtain ⟨buffer₂, hread₂, _⟩ :=
    h₁.read sched (show (checksum crcByte body).length = 4 from length_leBytes 4 _)
  refine ⟨{ reader with buffer := buffer₂ }, ?_⟩
  unfold blockRefTableReaderNextRelation
  rw [hread₁, ok_bind]
  dsimp only
  rw [if_pos rfl, hread₂, ok_bind, hcrc, checksum, leNat_leBytes (UInt32.toNat_lt _),
    if_neg (not_not.mpr rfl)]

/-- A reader of a file starts behind the magic number. -/
theorem createReader_spec (crcByte : UInt32 → UInt8 → UInt32) (sched : ℕ → ℕ)
    (hfile : file = leBytes 4 BLOCKREFTABLE_MAGIC ++ rest) :
    ∃ reader, createBlockRefTableReader crcByte sched file = .ok reader ∧
      reader.totalChunks = reader.consumedChunks ∧
      ReadUpTo crcByte file reader.buffer rest := by
  have hstart : ReadUpTo crcByte file ⟨[], 0, INIT_CRC32C, file, 0⟩
      (leBytes 4 BLOCKREFTABLE_MAGIC ++ rest) := ⟨hfile, [], by rw [nil_append, hfile], rfl⟩
  obtain ⟨buffer, hread, h⟩ := hstart.read sched (length_leBytes 4 _)
  refine ⟨⟨buffer, 0, 0, [], fun _ => 0, 0⟩, ?_, rfl, h⟩
  unfold createBlockRefTableReader
  rw [hread, ok_bind]
  dsimp only
  rw [leNat_leBytes (by decide), if_neg (not_not.mpr rfl)]

/-! ## Tables -/

/-- The calls that change a table. -/
inductive TableOp
  /-- `BlockRefTableMarkBlockModified`, with what is found in new memory. -/
  | markBlockModified (key : BlockRefTableKey) (blknum : ℕ) (memory : ℕ → ℕ)
  /-- `BlockRefTableSetLimitBlock`. -/
  | setLimitBlock (key : BlockRefTableKey) (limitBlock : ℕ)

/-- The relation fork and the block number of a call are such. -/
def TableOp.Ok : TableOp → Prop
  | .markBlockModified key blknum _ => KeyOk key ∧ blknum < 2^32
  | .setLimitBlock key limitBlock => KeyOk key ∧ limitBlock < 2^32

/-- What a call does to the limits and the sets of blocks of the relation forks. -/
def limitedSetsStep (abs : BlockRefTableKey → Option (ℕ × Finset ℕ)) :
    TableOp → BlockRefTableKey → Option (ℕ × Finset ℕ)
  | .markBlockModified key blknum memory =>
    update abs key
      (some (limitedSetStep ((abs key).getD (InvalidBlockNumber, ∅))
        (.markBlockModified blknum memory)))
  | .setLimitBlock key limitBlock =>
    update abs key
      (some (limitedSetStep ((abs key).getD (InvalidBlockNumber, ∅)) (.setLimitBlock limitBlock)))

/-- What a call does to a table. -/
def tableCall (brtab : BlockRefTable) : TableOp → BlockRefTable
  | .markBlockModified key blknum memory => blockRefTableMarkBlockModified brtab key blknum memory
  | .setLimitBlock key limitBlock => blockRefTableSetLimitBlock brtab key limitBlock

/-- A call, on a table and on limits and sets of blocks. -/
def tableStep (s : BlockRefTable × (BlockRefTableKey → Option (ℕ × Finset ℕ))) (op : TableOp) :
    Option (BlockRefTable × (BlockRefTableKey → Option (ℕ × Finset ℕ))) :=
  some (tableCall s.1 op, limitedSetsStep s.2 op)

/-- The tables that are built by calls. -/
def TableRun (ops : List TableOp) (brtab : BlockRefTable)
    (abs : BlockRefTableKey → Option (ℕ × Finset ℕ)) : Prop :=
  Runs.Run tableStep (fun _ op => op.Ok) (fun _ => none, fun _ => none) ops (brtab, abs)

/-- The entry of a relation fork stands for its limit and its set. -/
def KeyRefines (key : BlockRefTableKey) (entry : Option BlockRefTableEntry)
    (lm : Option (ℕ × Finset ℕ)) : Prop :=
  (entry = none ∧ lm = none) ∨ ∃ e L M, entry = some e ∧ lm = some (L, M) ∧ EntryRefines e L M ∧
    L < 2^32 ∧ KeyOk key

theorem limitedSetStep_lt {L : ℕ} {M : Finset ℕ} {op : EntryOp} (hL : L < 2^32)
    (hop : op.block < 2^32) : (limitedSetStep (L, M) op).1 < 2^32 := by
  cases op with
  | markBlockModified b memory => exact hL
  | setLimitBlock l =>
    unfold limitedSetStep
    dsimp only
    split_ifs
    · exact hop
    · exact hL

/-- A call for a relation fork changes its entry, a new one if there is none, and leaves the others
as they are. -/
theorem keyRefines_update (ha : ∀ key, KeyRefines key (brtab key) (abs key))
    {key' : BlockRefTableKey} (hkey : KeyOk key') {op : EntryOp} (hop : op.block < 2^32)
    (key : BlockRefTableKey) :
      KeyRefines key
        (update brtab key' (some (entryCall ((brtab key').getD createBlockRefTableEntry) op)) key)
      (update abs key'
        (some (limitedSetStep ((abs key').getD (InvalidBlockNumber, ∅)) op)) key) := by
  by_cases hne : key = key'
  · subst hne
    rw [update_self, update_self]
    rcases ha key with ⟨he, hLM⟩ | ⟨e, L, M, he, hLM, href, hL, -⟩ <;> rw [he, hLM]
    · exact .inr ⟨_, _, _, rfl, rfl, (entryRefines_new _).step hop,
        limitedSetStep_lt (M := ∅) (show InvalidBlockNumber < 2^32 by decide) hop, hkey⟩
    · exact .inr ⟨_, _, _, rfl, rfl, href.step hop, limitedSetStep_lt (M := M) hL hop, hkey⟩
  · rw [update_of_ne hne, update_of_ne hne]
    exact ha key

/-- `BlockRefTableSetLimitBlock` makes of no entry what it makes of a new one. -/
theorem setLimitBlock_eq {l : ℕ} (hl : l < 2^32) : blockRefTableSetLimitBlock brtab key l =
    update brtab key (some (entrySetLimitBlock ((brtab key).getD createBlockRefTableEntry) l)) := by
  unfold blockRefTableSetLimitBlock
  cases brtab key with
  | some entry => rfl
  | none =>
    unfold entrySetLimitBlock createBlockRefTableEntry InvalidBlockNumber
    dsimp only [Option.getD_none]
    split_ifs with hle hno
    · rw [show l = 2^32 - 1 by omega]
    · rfl
    · exact absurd (Nat.zero_le _) hno

/-- A table that is built by calls stands for the limits and sets. -/
theorem table_refines {ops : List TableOp} (run : TableRun ops brtab abs) (key : BlockRefTableKey) :
    KeyRefines key (brtab key) (abs key) := by
  refine Runs.Run.invariant run (fun s => ∀ key, KeyRefines key (s.1 key) (s.2 key))
    (fun key => .inl ⟨rfl, rfl⟩) ?_ key
  rintro ⟨brtab, abs⟩ op t ha hop ht key
  cases ht
  dsimp only at ha ⊢
  cases op with
  | markBlockModified key' b memory =>
    have hblock : (EntryOp.markBlockModified b memory).block < 2^32 := hop.2
    exact keyRefines_update ha hop.1 hblock key
  | setLimitBlock key' l =>
    have hblock : (EntryOp.setLimitBlock l).block < 2^32 := hop.2
    rw [tableCall, setLimitBlock_eq hop.2]
    exact keyRefines_update ha hop.1 hblock key

/-! ## Sequences of calls -/

/-- A relation fork that a reader has returned, with the blocks so far and whether a call returned
fewer than it was asked for. -/
structure Seen where
  key : BlockRefTableKey
  limitBlock : ℕ
  blocks : List ℕ
  complete : Bool

/-- A reader with all that it has returned, the last relation fork first. -/
structure Client where
  reader : BlockRefTableReader
  seen : List Seen
  ended : Bool
  failed : Option ReaderError

/-- The calls of a client. -/
inductive ReaderCall
  | nextRelation
  | getBlocks (nblocks : ℕ)

/-- A client of a file, after `CreateBlockRefTableReader`. -/
def startClient (crcByte : UInt32 → UInt8 → UInt32) (sched : ℕ → ℕ) (file : List UInt8) : Client :=
  match createBlockRefTableReader crcByte sched file with
  | .error e => ⟨⟨⟨[], 0, INIT_CRC32C, file, 0⟩, 0, 0, [], fun _ => 0, 0⟩, [], false, some e⟩
  | .ok reader => ⟨reader, [], false, none⟩

/-- A call. No call is made after an error or the end of the table, and blocks are asked for when
there is a relation fork and room for one. -/
def readerStep (crcByte : UInt32 → UInt8 → UInt32) (sched : ℕ → ℕ) (c : Client) :
    ReaderCall → Option Client
  | .nextRelation =>
    if c.ended ∨ c.failed.isSome then none
    else
      match blockRefTableReaderNextRelation crcByte sched c.reader with
      | .error e => some { c with failed := some e }
      | .ok (none, reader) => some { c with reader := reader, ended := true }
      | .ok (some (key, limitBlock), reader) =>
        some { c with reader := reader, seen := ⟨key, limitBlock, [], false⟩ :: c.seen }
  | .getBlocks nblocks =>
    match c.seen with
    | [] => none
    | current :: seen =>
      if c.ended ∨ c.failed.isSome ∨ nblocks = 0 then none
      else
        match blockRefTableReaderGetBlocks crcByte sched c.reader nblocks with
        | .error e => some { c with failed := some e }
        | .ok (blocks, reader) =>
          some { c with
            reader := reader
            seen := { current with
              blocks := current.blocks ++ blocks
              complete := current.complete || decide (blocks.length < nblocks) } :: seen }

/-- The condition that the source asserts: the chunks of a relation fork are consumed before the
next one is asked for. -/
def ChunksConsumed (c : Client) : ReaderCall → Prop
  | .nextRelation => c.reader.totalChunks = c.reader.consumedChunks
  | .getBlocks _ => True

/-- What a client has seen of a pair of the file. -/
structure SeenOk (p : BlockRefTableKey × BlockRefTableEntry) (s : Seen) : Prop where
  key : s.key = p.1
  limit : s.limitBlock = p.2.limitBlock
  blocks : s.blocks <+: blocksFrom p.2 0
  complete : s.complete = true → s.blocks = blocksFrom p.2 0

/-- Where a client is in the file. -/
structure ClientOk (crcByte : UInt32 → UInt8 → UInt32) (file : List UInt8)
    (pairs : List (BlockRefTableKey × BlockRefTableEntry)) (trailer : List UInt8)
    (c : Client) : Prop where
  failed : c.failed = none
  length : c.seen.length ≤ pairs.length
  seen : ∀ (i : ℕ) (s : Seen), c.seen.reverse[i]? = some s → ∃ p, pairs[i]? = some p ∧ SeenOk p s
  ended : c.ended = true → c.seen.length = pairs.length
  /-- Before the first relation fork. -/
  start : c.ended = false → c.seen = [] →
    ReadUpTo crcByte file c.reader.buffer (entriesBytes pairs ++ trailer)
  /-- In a relation fork. -/
  reading : c.ended = false → ∀ current seen, c.seen = current :: seen →
    ∃ p rest, pairs.drop seen.length = p :: rest ∧ SeenOk p current ∧
      Reading crcByte file c.reader p.2 current.blocks (entriesBytes rest ++ trailer)

/-- What a pair of the file has to be for the reader to find it. -/
structure PairOk (p : BlockRefTableKey × BlockRefTableEntry) : Prop where
  entry : EntryOk p.2
  key : KeyOk p.1
  limit : p.2.limitBlock < 2^32
  nonzero : (serializeEntry p.1 p.2).bytes ≠ zeroBytes

variable {c c' : Client}

/-- The bytes behind the entries. -/
def fileTrailer (crcByte : UInt32 → UInt8 → UInt32) (body : List UInt8) : List UInt8 :=
  zeroBytes ++ leBytes 4 (finCrc32c (body.foldl crcByte INIT_CRC32C)).toNat

/-- What was seen is of the pairs, in their order. -/
def SeenOf (pairs : List (BlockRefTableKey × BlockRefTableEntry)) (seen : List Seen) : Prop :=
  ∀ (i : ℕ) (s : Seen), seen.reverse[i]? = some s → ∃ p, pairs[i]? = some p ∧ SeenOk p s

/-- Changing or adding the last relation fork that was seen. -/
theorem SeenOf.cons {seen : List Seen} {s : Seen}
    {rest : List (BlockRefTableKey × BlockRefTableEntry)} (hold : SeenOf pairs seen)
    (hdrop : pairs.drop seen.length = p :: rest) (hs : SeenOk p s) : SeenOf pairs (s :: seen) := by
  intro i t ht
  rw [reverse_cons] at ht
  rcases lt_or_ge i seen.reverse.length with hlt | hge
  · rw [getElem?_append_left hlt] at ht
    exact hold i t ht
  · rw [getElem?_append_right hge] at ht
    obtain ⟨hi, rfl⟩ := List.getElem?_eq_some_iff.mp ht
    rw [length_singleton] at hi
    rw [length_reverse] at hge hi
    obtain rfl : i = seen.length := by omega
    refine ⟨p, ?_, by simpa using hs⟩
    have := congrArg (·[0]?) hdrop
    simpa using this

/-- When the chunks are consumed, the reader is at the next entry. -/
theorem ClientOk.at_next {trailer : List UInt8} (h : ClientOk crcByte file pairs trailer c)
    (hended : c.ended = false)
    (hconsumed : c.reader.totalChunks = c.reader.consumedChunks) :
    ReadUpTo crcByte file c.reader.buffer (entriesBytes (pairs.drop c.seen.length) ++ trailer) := by
  cases hseen : c.seen with
  | nil => exact h.start hended hseen
  | cons current seen =>
    obtain ⟨p, rest, hdrop, _, hreading⟩ := h.reading hended current seen hseen
    have hupto := hreading.upto
    have hnone : chunksFrom p.2 c.reader.consumedChunks = [] := by
      rw [chunksFrom, ← hconsumed, hreading.total, Nat.sub_self]
      rfl
    rw [hnone, nil_append] at hupto
    rw [length_cons, ← drop_drop, hdrop]
    exact hupto

/-- Every call keeps the client in the file. -/
theorem ClientOk.step (hfile : file = body ++ checksum crcByte body)
    (hpairs : ∀ p ∈ pairs, PairOk p)
    (h : ClientOk crcByte file pairs (fileTrailer crcByte body) c) {call : ReaderCall}
    (hok : ChunksConsumed c call)
    (hstep : readerStep crcByte sched c call = some c') :
      ClientOk crcByte file pairs (fileTrailer crcByte body) c' := by
  cases call with
  | nextRelation =>
    unfold readerStep at hstep
    split_ifs at hstep with hstopped
    have hended : c.ended = false := Bool.eq_false_iff.mpr fun htrue => hstopped (.inl htrue)
    have hupto := h.at_next hended hok
    cases hdrop : pairs.drop c.seen.length with
    | nil =>
      -- The end of the table.
      rw [hdrop] at hupto
      obtain ⟨reader', hnext⟩ := nextRelation_end sched hfile hupto
      rw [hnext] at hstep
      cases hstep
      have hall := drop_eq_nil_iff.mp hdrop
      have hlength := h.length
      exact ⟨h.failed, h.length, h.seen, fun _ => by dsimp only; omega, nofun, nofun⟩
    | cons p rest =>
      have hpair := hpairs p (mem_of_mem_drop (hdrop ▸ mem_cons_self))
      rw [hdrop, entriesBytes, flatMap_cons, append_assoc] at hupto
      obtain ⟨reader', hnext, hreading⟩ :=
        nextRelation_entry sched hpair.entry hpair.key hpair.limit hpair.nonzero hupto
      rw [hnext] at hstep
      cases hstep
      have hs : SeenOk p ⟨p.1, p.2.limitBlock, [], false⟩ := ⟨rfl, rfl, nil_prefix, nofun⟩
      have hlength : c.seen.length < pairs.length := by
        by_contra hge
        rw [drop_of_length_le (by omega)] at hdrop
        cases hdrop
      refine ⟨h.failed, hlength, SeenOf.cons h.seen hdrop hs,
        fun htrue => ?_, fun _ => nofun, fun _ current seen hcons => ?_⟩
      · cases hended.symm.trans htrue
      · cases hcons
        exact ⟨p, rest, hdrop, hs, hreading⟩
  | getBlocks nblocks =>
    unfold readerStep at hstep
    dsimp only at hstep
    cases hseen : c.seen with
    | nil =>
      rw [hseen] at hstep
      cases hstep
    | cons current seen =>
      rw [hseen] at hstep
      split_ifs at hstep with hstopped
      have hended : c.ended = false := Bool.eq_false_iff.mpr fun htrue => hstopped (.inl htrue)
      obtain ⟨p, rest, hdrop, hs, hreading⟩ := h.reading hended current seen hseen
      obtain ⟨blocks, reader', hget, hreading', -, hend⟩ := hreading.getBlocks sched nblocks
      rw [hget] at hstep
      cases hstep
      have hs' : SeenOk p { current with
          blocks := current.blocks ++ blocks
          complete := current.complete || decide (blocks.length < nblocks) } := by
        refine ⟨hs.key, hs.limit, ⟨_, hreading'.blocks⟩, fun hcomplete => ?_⟩
        rw [Bool.or_eq_true, decide_eq_true_eq] at hcomplete
        rcases hcomplete with hbefore | hroom
        · -- There was nothing left to return.
          have hall := hs.complete hbefore
          have hblocks := hreading'.blocks
          rw [hall] at hblocks ⊢
          rw [append_assoc, append_right_eq_self] at hblocks
          rw [(append_eq_nil_iff.mp hblocks).1, append_nil]
        · exact hend hroom
      have hold : SeenOf pairs seen := by
        intro i s hi
        refine h.seen i s ?_
        rw [hseen, reverse_cons, getElem?_append_left (List.getElem?_eq_some_iff.mp hi).1]
        exact hi
      have hlength := h.length
      rw [hseen, length_cons] at hlength
      refine ⟨h.failed, hlength, hold.cons hdrop hs',
        fun htrue => ?_, fun _ => nofun, fun _ current' seen' hcons => ?_⟩
      · cases hended.symm.trans htrue
      · cases hcons
        exact ⟨p, rest, hdrop, hs', hreading'⟩

/-- A client starts at the first entry. -/
theorem startClient_ok (sched : ℕ → ℕ) (hfile : file = body ++ checksum crcByte body)
    (hbody : body = leBytes 4 BLOCKREFTABLE_MAGIC ++ (entriesBytes pairs ++ zeroBytes)) :
    ClientOk crcByte file pairs (fileTrailer crcByte body) (startClient crcByte sched file) := by
  have hsplit : file = leBytes 4 BLOCKREFTABLE_MAGIC ++
      (entriesBytes pairs ++ fileTrailer crcByte body) := by
    rw [fileTrailer, hfile, ← append_assoc (entriesBytes pairs), ← append_assoc, ← hbody]
    rfl
  obtain ⟨reader, hcreate, _, hupto⟩ := createReader_spec crcByte sched hsplit
  unfold startClient
  rw [hcreate]
  exact ⟨rfl, Nat.zero_le _, nofun, nofun, fun _ _ => hupto, nofun⟩

/-- A block reference table is read back from its file. For every table that is built by calls,
whatever the order of its hash table and the splitting of the stream, and for every sequence of
calls of a reader that consumes the chunks of a relation fork before it asks for the next one, no
call fails. The relation forks come in the order of the file, with their limits; a call returns no
more blocks than it was asked for, and the blocks returned for one relation fork are distinct and in
its set, and all of the set when a call returned fewer than it was asked for. The end comes when all
relation forks have been returned. Only the entry that stands for the end of a table must not be in
it. -/
theorem blkreftable_file_round_trip (crcByte : UInt32 → UInt8 → UInt32) (sched : ℕ → ℕ)
    {ops : List TableOp} {brtab : BlockRefTable}
    {abs : BlockRefTableKey → Option (ℕ × Finset ℕ)} (trun : TableRun ops brtab abs)
    (hzero : abs ⟨0, 0, 0, 0⟩ ≠ some (0, ∅))
    {order : List BlockRefTableKey} (hnodup : order.Nodup)
    (horder : ∀ key, key ∈ order ↔ abs key ≠ none) {calls : List ReaderCall} {c : Client}
    (run : Runs.Run (readerStep crcByte sched) ChunksConsumed
      (startClient crcByte sched (writeBlockRefTable crcByte brtab order)) calls c) :
    List.Perm (fileOrder brtab order) order ∧ (fileOrder brtab order).Pairwise keyLt ∧
    c.failed = none ∧
    c.seen.length ≤ order.length ∧ (c.ended = true → c.seen.length = order.length) ∧
    (c.ended = false → c.seen ≠ [] → ∀ nblocks, ∃ blocks reader',
      blockRefTableReaderGetBlocks crcByte sched c.reader nblocks = .ok (blocks, reader') ∧
        blocks.length ≤ nblocks) ∧
    ∀ (i : ℕ) (s : Seen), c.seen.reverse[i]? = some s → (fileOrder brtab order)[i]? = some s.key ∧
      ∃ M, abs s.key = some (s.limitBlock, M) ∧ s.blocks.Nodup ∧ (∀ b ∈ s.blocks, b ∈ M) ∧
        (s.complete = true → s.blocks.toFinset = M) := by
  have hrefines := table_refines trun
  have hsome : ∀ key ∈ order, brtab key ≠ none := by
    intro key hkey hnone
    rcases hrefines key with ⟨_, hnone'⟩ | ⟨e, L, M, he, _⟩
    · exact (horder key).mp hkey hnone'
    · cases hnone.symm.trans he
  obtain ⟨hperm, hsorted⟩ := fileOrder_spec hnodup hsome
  obtain ⟨hpairs, _, hkeys⟩ := filePairs_spec brtab order
  have hentry : ∀ p ∈ filePairs brtab order, ∃ M, abs p.1 = some (p.2.limitBlock, M) ∧
    EntryRefines p.2 p.2.limitBlock M ∧ p.2.limitBlock < 2^32 ∧
      KeyOk p.1 := by
    intro p hp
    have hrefine := hrefines p.1
    rw [hpairs p hp] at hrefine
    rcases hrefine with ⟨hnone, _⟩ | ⟨e, L, M, he, hLM, href, hL, hkey⟩
    · cases hnone
    · cases he
      obtain rfl := href.limit
      exact ⟨M, hLM, href, hL, hkey⟩
  -- The entries of the table are such that the reader finds them.
  have hpairOk : ∀ p ∈ filePairs brtab order, PairOk p := by
    intro p hp
    obtain ⟨M, hLM, href, hL, hkey⟩ := hentry p hp
    refine ⟨href.ok, hkey, hL, fun hbytes => hzero ?_⟩
    have hsentry : serializeEntry p.1 p.2 = ⟨⟨0, 0, 0, 0⟩, 0, 0⟩ := by
      rw [← SerializedEntry.ofBytes_bytes (serializeEntry p.1 p.2) hkey hL (fileChunks_lt href.ok),
        hbytes]
      exact SerializedEntry.ofBytes_bytes _ ⟨by decide, by decide, by decide, by decide⟩
        (by decide) (by decide)
    have hp1 : p.1 = ⟨0, 0, 0, 0⟩ := congrArg SerializedEntry.key hsentry
    have hlimit : p.2.limitBlock = 0 := congrArg SerializedEntry.limitBlock hsentry
    have hchunks : fileChunks p.2 = 0 := congrArg SerializedEntry.nchunks hsentry
    have hM : M = ∅ := by
      refine Finset.eq_empty_iff_forall_notMem.mpr fun b hb => ?_
      have := (mem_blocksFrom_zero href.ok).mpr ((href.blocks b).mp hb)
      rw [blocksFrom, hchunks] at this
      exact absurd this not_mem_nil
    rw [← hp1, hLM, hM, hlimit]
  obtain ⟨body, hbody, hfile⟩ := writeBlockRefTable_eq crcByte brtab order
  have hok := run.invariant
    (ClientOk crcByte (writeBlockRefTable crcByte brtab order) (filePairs brtab order)
      (fileTrailer crcByte body))
    (startClient_ok sched hfile hbody) fun a call b ha hcall hb => ha.step hfile hpairOk hcall hb
  have hlength : (filePairs brtab order).length = order.length := by
    rw [← hperm.length_eq, ← hkeys, length_map]
  refine ⟨hperm, hsorted, hok.failed, hlength ▸ hok.length,
    fun hended => hlength ▸ hok.ended hended, fun hended hseen nblocks => ?_, fun i s hi => ?_⟩
  · obtain ⟨current, seen, hcons⟩ := exists_cons_of_ne_nil hseen
    obtain ⟨p, rest, -, -, hreading⟩ := hok.reading hended current seen hcons
    obtain ⟨blocks, reader', hget, -, hroom, -⟩ := hreading.getBlocks sched nblocks
    exact ⟨blocks, reader', hget, hroom⟩
  obtain ⟨p, hp, hs⟩ := hok.seen i s hi
  obtain ⟨M, hLM, href, _, _⟩ := hentry p (mem_of_getElem? hp)
  refine ⟨?_, M, ?_,
    (nodup_blocks href.ok _ _ fun c hc =>
      lt_nchunks (by have := mem_range'_1.mp hc; omega)).sublist hs.blocks.sublist, fun b hb => ?_,
        fun hcomplete => ?_⟩
  · rw [← hkeys, getElem?_map, hp, hs.key]
    rfl
  · rw [hs.key, hs.limit, hLM]
  · exact (href.blocks b).mpr ((mem_blocksFrom_zero href.ok).mp (hs.blocks.subset hb))
  · ext b
    rw [mem_toFinset, hs.complete hcomplete, mem_blocksFrom_zero href.ok, href.blocks b]

/-! ## A table with one block -/

/-- A relation fork. -/
def oneKey : BlockRefTableKey := ⟨1663, 5, 16384, 0⟩

/-- The table after block 7 of the relation fork was marked. -/
def oneTable : BlockRefTable := blockRefTableMarkBlockModified (fun _ => none) oneKey 7 fun _ => 0

/-- The limits and sets of blocks of this table. -/
def oneAbs : BlockRefTableKey → Option (ℕ × Finset ℕ) :=
  limitedSetsStep (fun _ => none) (.markBlockModified oneKey 7 fun _ => 0)

theorem oneTable_run : TableRun [.markBlockModified oneKey 7 fun _ => 0] oneTable oneAbs := by
  have run : TableRun ([] ++ [.markBlockModified oneKey 7 fun _ => 0]) oneTable oneAbs :=
    .concat .nil ⟨⟨by decide, by decide, by decide, by decide⟩, by decide⟩ rfl
  exact run

/-- The file of this table, with a checksum that never changes. -/
def oneFile : List UInt8 :=
  [0x7b, 0x13, 0x2b, 0x65] ++
    ([0x7f, 0x06, 0, 0, 5, 0, 0, 0, 0, 0x40, 0, 0, 0, 0, 0, 0, 255, 255, 255, 255, 1, 0, 0, 0] ++
      [1, 0] ++ [7, 0]) ++
    (replicate 24 0 ++ [0, 0, 0, 0])

theorem oneTable_file : writeBlockRefTable (fun crc _ => crc) oneTable [oneKey] = oneFile := by
  have hsorted : sortedEntries oneTable [oneKey] = [⟨oneKey, InvalidBlockNumber, 1⟩] :=
    mergeSort_singleton _
  unfold writeBlockRefTable
  rw [hsorted]
  rfl

/-- All of this table is read back. -/
theorem blkreftable_file_round_trip_one :
    ∃ c, Runs.Run (readerStep (fun crc _ => crc) fun _ => 100) ChunksConsumed
      (startClient (fun crc _ => crc) (fun _ => 100)
        (writeBlockRefTable (fun crc _ => crc) oneTable [oneKey]))
      [.nextRelation, .getBlocks 10, .nextRelation] c ∧
    c.failed = none ∧ c.ended = true ∧ c.seen = [⟨oneKey, InvalidBlockNumber, [7], true⟩] := by
  have horder : ∀ key, key ∈ [oneKey] ↔ oneAbs key ≠ none := by
    intro key
    unfold oneAbs limitedSetsStep
    dsimp only
    by_cases hkey : key = oneKey
    · rw [hkey, update_self]
      simp
    · simp [hkey]
  have htrip :=
    @blkreftable_file_round_trip (fun crc _ => crc) (fun _ => 100) _ _ _ oneTable_run (by decide) _
      (nodup_singleton _) horder
  rw [oneTable_file] at htrip ⊢
  have run₁ : Runs.Run (readerStep (fun crc _ => crc) fun _ => 100) ChunksConsumed
      (startClient (fun crc _ => crc) (fun _ => 100) oneFile) ([] ++ [.nextRelation]) _ :=
        .concat .nil rfl rfl
  have run₂ := run₁.concat (l := ReaderCall.getBlocks 10) trivial rfl
  have run₃ := run₂.concat (l := ReaderCall.nextRelation) rfl rfl
  exact ⟨_, run₃, (htrip run₃).2.2.1, rfl, rfl⟩

/-- A reader that asks for the next relation fork before it has read the chunk takes the bytes of
the chunk for an entry: the second relation fork that it returns is not in the table. -/
theorem blkreftable_unread_chunk :
    TableRun [.markBlockModified oneKey 7 fun _ => 0] oneTable oneAbs ∧
    ∃ c, Runs.Run (readerStep (fun crc _ => crc) fun _ => 100) (fun _ _ => True)
      (startClient (fun crc _ => crc) (fun _ => 100)
        (writeBlockRefTable (fun crc _ => crc) oneTable [oneKey]))
        [.nextRelation, .nextRelation] c ∧
      c.seen = [⟨⟨7, 0, 0, 0⟩, 0, [], false⟩, ⟨oneKey, InvalidBlockNumber, [], false⟩] ∧
      oneAbs ⟨7, 0, 0, 0⟩ = none := by
  refine ⟨oneTable_run, ?_⟩
  rw [oneTable_file]
  have run₁ : Runs.Run (readerStep (fun crc _ => crc) fun _ => 100) (fun _ _ => True)
      (startClient (fun crc _ => crc) (fun _ => 100) oneFile) ([] ++ [.nextRelation]) _ :=
        .concat .nil trivial rfl
  have run₂ := run₁.concat (l := ReaderCall.nextRelation) trivial rfl
  exact ⟨_, run₂, rfl, rfl⟩

end PgAutoIndex.Common
