import PgAutoIndex.Bytes
import PgAutoIndex.Common.BlkRefTableBlocks

/-!
# Files of block reference tables

Model of the writer and the reader of `src/common/blkreftable.c`. A table is a map from relation
forks to entries, as its hash table is; `WriteBlockRefTable` is given the forks in the order in
which the hash table is iterated, whatever it is. A file is a list of bytes. The writer passes data
on through a buffer. The reader gets from its callback as many bytes as `sched` says, at least one
and no more than it asked for and than there are, so that each `sched` is a way to split the stream.
The checksum is updated byte by byte, by any function.

The second part describes the buffers: what was written is the concatenation of the data, and a read
returns the next bytes of the stream.
-/

namespace PgAutoIndex.Common

open Bytes List

/-! ## Tables -/

/-- `BlockRefTableKey`. -/
structure BlockRefTableKey where
  spcOid : ℕ
  dbOid : ℕ
  relNumber : ℕ
  forknum : ℕ
  deriving DecidableEq

/-- `BlockRefTable`: what its hash table maps a relation fork to. -/
abbrev BlockRefTable := BlockRefTableKey → Option BlockRefTableEntry

/-- `BlockRefTableMarkBlockModified`, with what is found in new memory. -/
def blockRefTableMarkBlockModified (brtab : BlockRefTable) (key : BlockRefTableKey) (blknum : ℕ)
    (memory : ℕ → ℕ) : BlockRefTable :=
  Function.update brtab key
    (some (entryMarkBlockModified ((brtab key).getD createBlockRefTableEntry) blknum memory))

/-- `BlockRefTableSetLimitBlock`. -/
def blockRefTableSetLimitBlock (brtab : BlockRefTable) (key : BlockRefTableKey) (limitBlock : ℕ) :
    BlockRefTable :=
  match brtab key with
  | none => Function.update brtab key (some ⟨limitBlock, 0, fun _ => Chunk.zero⟩)
  | some entry => Function.update brtab key (some (entrySetLimitBlock entry limitBlock))

/-! ## The writer -/

/-- `BUFSIZE`. -/
def BUFSIZE : ℕ := 65536

/-- `BLOCKREFTABLE_MAGIC`. -/
def BLOCKREFTABLE_MAGIC : ℕ := 0x652b137b

/-- `INIT_CRC32C`. -/
def INIT_CRC32C : UInt32 := 0xFFFFFFFF

/-- `FIN_CRC32C`. -/
def finCrc32c (crc : UInt32) : UInt32 := crc ^^^ 0xFFFFFFFF

/-- `BlockRefTableSerializedEntry`. -/
structure SerializedEntry where
  key : BlockRefTableKey
  limitBlock : ℕ
  nchunks : ℕ

/-- The bytes of a serialized entry. -/
def SerializedEntry.bytes (sentry : SerializedEntry) : List UInt8 :=
  leBytes 4 sentry.key.spcOid ++ leBytes 4 sentry.key.dbOid ++ leBytes 4 sentry.key.relNumber ++
    leBytes 4 sentry.key.forknum ++
    leBytes 4 sentry.limitBlock ++ leBytes 4 sentry.nchunks

/-- The bytes of the entry of zeros at the end of a table. -/
def zeroBytes : List UInt8 := SerializedEntry.bytes ⟨⟨0, 0, 0, 0⟩, 0, 0⟩

/-- The serialized entry that bytes stand for. -/
def SerializedEntry.ofBytes (bytes : List UInt8) : SerializedEntry where
  key := ⟨leNat (bytes.take 4), leNat ((bytes.drop 4).take 4), leNat ((bytes.drop 8).take 4),
    leNat ((bytes.drop 12).take 4)⟩
  limitBlock := leNat ((bytes.drop 16).take 4)
  nchunks := leNat ((bytes.drop 20).take 4)

/-- `BlockRefTableComparator`. -/
def blockRefTableComparator (sa sb : SerializedEntry) : ℤ :=
  if sa.key.spcOid > sb.key.spcOid then 1
  else if sa.key.spcOid < sb.key.spcOid then -1
  else if sa.key.dbOid > sb.key.dbOid then 1
  else if sa.key.dbOid < sb.key.dbOid then -1
  else if sa.key.relNumber > sb.key.relNumber then 1
  else if sa.key.relNumber < sb.key.relNumber then -1
  else if sa.key.forknum > sb.key.forknum then 1
  else if sa.key.forknum < sb.key.forknum then -1
  else 0

/-- `BlockRefTableBuffer` of a writer: the data in use, the checksum so far, and what the callback
was given. -/
structure WriteBuffer where
  data : List UInt8
  crc : UInt32
  out : List UInt8

/-- `BlockRefTableFlush`. -/
def blockRefTableFlush (buffer : WriteBuffer) : WriteBuffer :=
  { buffer with data := [], out := buffer.out ++ buffer.data }

/-- The number of chunks without the trailing ones that are not used. -/
def trimChunks (entry : BlockRefTableEntry) : ℕ → ℕ
  | 0 => 0
  | n + 1 => if (entry.chunks n).chunkUsage = 0 then trimChunks entry n else n + 1

/-- The serialized form of the entry of a relation fork. -/
def serializeEntry (key : BlockRefTableKey) (entry : BlockRefTableEntry) : SerializedEntry :=
  ⟨key, entry.limitBlock, trimChunks entry entry.nchunks⟩

/-- The bytes of the used part of a chunk. -/
def chunkBytes (chunk : Chunk) : List UInt8 :=
  ((range chunk.chunkUsage).map chunk.chunkData).flatMap le16

/-- The bytes of the chunk length array. -/
def usageBytes (entry : BlockRefTableEntry) (nchunks : ℕ) : List UInt8 :=
  ((range nchunks).map fun j => (entry.chunks j).chunkUsage).flatMap le16

section
variable (crcByte : UInt32 → UInt8 → UInt32)

/-- `BlockRefTableWrite`. -/
def blockRefTableWrite (buffer : WriteBuffer) (data : List UInt8) : WriteBuffer :=
  let buffer := { buffer with crc := data.foldl crcByte buffer.crc }
  let buffer :=
    if buffer.data.length + data.length > BUFSIZE then blockRefTableFlush buffer else buffer
  if data.length ≥ BUFSIZE then { buffer with out := buffer.out ++ data }
  else { buffer with data := buffer.data ++ data }

/-- What `WriteBlockRefTable` writes for one serialized entry. -/
def writeEntry (brtab : BlockRefTable) (buffer : WriteBuffer) (sentry : SerializedEntry) :
    WriteBuffer :=
  let buffer := blockRefTableWrite crcByte buffer sentry.bytes
  match brtab sentry.key with
  | none => buffer
  | some brtentry =>
    let buffer :=
      if sentry.nchunks ≠ 0 then blockRefTableWrite crcByte buffer
        (usageBytes brtentry sentry.nchunks) else buffer
    (range brtentry.nchunks).foldl (fun buffer j =>
      if (brtentry.chunks j).chunkUsage = 0 then buffer
      else blockRefTableWrite crcByte buffer (chunkBytes (brtentry.chunks j))) buffer

/-- `BlockRefTableFileTerminate`. -/
def blockRefTableFileTerminate (buffer : WriteBuffer) : WriteBuffer :=
  let buffer := blockRefTableWrite crcByte buffer zeroBytes
  let buffer := blockRefTableWrite crcByte buffer (leBytes 4 (finCrc32c buffer.crc).toNat)
  blockRefTableFlush buffer

/-- The serialized entries in the order in which they are written; `order` is that of the hash
table. -/
def sortedEntries (brtab : BlockRefTable) (order : List BlockRefTableKey) : List SerializedEntry :=
  (order.filterMap fun key => (brtab key).map (serializeEntry key)).mergeSort fun sa sb =>
    decide (blockRefTableComparator sa sb ≤ 0)

/-- `WriteBlockRefTable`: the file that is written. -/
def writeBlockRefTable (brtab : BlockRefTable) (order : List BlockRefTableKey) : List UInt8 :=
  let buffer := blockRefTableWrite crcByte ⟨[], INIT_CRC32C, []⟩ (leBytes 4 BLOCKREFTABLE_MAGIC)
  let buffer := (sortedEntries brtab order).foldl (writeEntry crcByte brtab) buffer
  (blockRefTableFileTerminate crcByte buffer).out

/-! ## The reader -/

/-- The errors of a reader. -/
inductive ReaderError
  /-- file ends unexpectedly -/
  | endsUnexpectedly
  /-- file has wrong magic number -/
  | wrongMagic (expected found : ℕ)
  /-- file has wrong checksum -/
  | wrongChecksum (expected found : ℕ)
  deriving DecidableEq

/-- `BlockRefTableBuffer` of a reader: the data, the cursor and the checksum, what the callback has
not delivered yet, and how often it was called. -/
structure ReadBuffer where
  data : List UInt8
  cursor : ℕ
  crc : UInt32
  rest : List UInt8
  calls : ℕ

/-- `BlockRefTableReader`. -/
structure BlockRefTableReader where
  buffer : ReadBuffer
  totalChunks : ℕ
  consumedChunks : ℕ
  chunkSize : List ℕ
  chunkData : ℕ → ℕ
  chunkPosition : ℕ

variable (sched : ℕ → ℕ)

/-- The callback, asked for `length` bytes. -/
def ioCallback (buffer : ReadBuffer) (length : ℕ) : List UInt8 × ReadBuffer :=
  let n := min (sched buffer.calls + 1) length
  (buffer.rest.take n, { buffer with rest := buffer.rest.drop n, calls := buffer.calls + 1 })

/-- The loop of `BlockRefTableRead`, with `length` bytes to go; the first argument bounds the
rounds. -/
def readLoop : ℕ → ℕ → List UInt8 → ReadBuffer → Except ReaderError (List UInt8 × ReadBuffer)
  | _, 0, data, buffer => .ok (data, buffer)
  | 0, _ + 1, _, _ => .error .endsUnexpectedly
  | n + 1, length + 1, data, buffer =>
    if buffer.cursor < buffer.data.length then
      let bytesToCopy := min (length + 1) (buffer.data.length - buffer.cursor)
      let new := (buffer.data.drop buffer.cursor).take bytesToCopy
      readLoop n (length + 1 - bytesToCopy) (data ++ new)
        { buffer with
          crc := new.foldl crcByte buffer.crc
          cursor := buffer.cursor + bytesToCopy }
    else if length + 1 ≥ BUFSIZE then
      let (new, buffer) := ioCallback sched buffer (length + 1)
      if new.length = 0 then .error .endsUnexpectedly
      else
        readLoop n (length + 1 - new.length) (data ++ new)
          { buffer with crc := new.foldl crcByte buffer.crc }
    else
      let (new, buffer) := ioCallback sched buffer BUFSIZE
      if new.length = 0 then .error .endsUnexpectedly
      else readLoop n (length + 1) data { buffer with data := new, cursor := 0 }

/-- `BlockRefTableRead`. Every two rounds deliver a byte. -/
def blockRefTableRead (buffer : ReadBuffer) (length : ℕ) :
    Except ReaderError (List UInt8 × ReadBuffer) :=
  readLoop crcByte sched (2 * length) length [] buffer

/-- `CreateBlockRefTableReader`, for a file. -/
def createBlockRefTableReader (file : List UInt8) : Except ReaderError BlockRefTableReader := do
  let (bytes, buffer) ← blockRefTableRead crcByte sched ⟨[], 0, INIT_CRC32C, file, 0⟩ 4
  if leNat bytes ≠ BLOCKREFTABLE_MAGIC then .error (.wrongMagic BLOCKREFTABLE_MAGIC (leNat bytes))
  else .ok ⟨buffer, 0, 0, [], fun _ => 0, 0⟩

/-- `BlockRefTableReaderNextRelation`: the relation fork and its limit, or `none` at the end of the
table. -/
def blockRefTableReaderNextRelation (reader : BlockRefTableReader) :
    Except ReaderError (Option (BlockRefTableKey × ℕ) × BlockRefTableReader) := do
  let (bytes, buffer) ← blockRefTableRead crcByte sched reader.buffer 24
  if bytes = zeroBytes then
    let expected := finCrc32c buffer.crc
    let (actual, buffer) ← blockRefTableRead crcByte sched buffer 4
    if expected.toNat ≠ leNat actual then .error (.wrongChecksum expected.toNat (leNat actual))
    else .ok (none, { reader with buffer := buffer })
  else
    let sentry := SerializedEntry.ofBytes bytes
    let (sizes, buffer) ← blockRefTableRead crcByte sched buffer (sentry.nchunks * 2)
    .ok (some (sentry.key, sentry.limitBlock),
      { reader with
        buffer := buffer
        chunkSize := toWords sizes
        totalChunks := sentry.nchunks
        consumedChunks := 0 })

/-- The loop of `BlockRefTableReaderGetBlocks` over a bitmap with `n` offsets to go: the new
position, and the blocks found. -/
def readBitmap (data : ℕ → ℕ) (base nblocks : ℕ) : ℕ → ℕ → List ℕ → ℕ × List ℕ
  | 0, chunkPosition, blocks => (chunkPosition, blocks)
  | n + 1, chunkPosition, blocks =>
    if blocks.length < nblocks then
      let w := data (chunkPosition / BLOCKS_PER_ENTRY)
      let blocks :=
        if w &&& 1 <<< (chunkPosition % BLOCKS_PER_ENTRY) ≠ 0 then blocks ++ [base + chunkPosition]
        else blocks
      readBitmap data base nblocks n (chunkPosition + 1) blocks
    else (chunkPosition, blocks)

/-- The loop of `BlockRefTableReaderGetBlocks` over an array with `n` offsets to go. -/
def readArray (data : ℕ → ℕ) (base nblocks : ℕ) : ℕ → ℕ → List ℕ → ℕ × List ℕ
  | 0, chunkPosition, blocks => (chunkPosition, blocks)
  | n + 1, chunkPosition, blocks =>
    if blocks.length < nblocks then readArray data base nblocks n (chunkPosition + 1)
      (blocks ++ [base + data chunkPosition])
    else (chunkPosition, blocks)

/-- The blocks of the chunk that was read last. -/
def readChunk (reader : BlockRefTableReader) (nblocks : ℕ) (blocks : List ℕ) : ℕ × List ℕ :=
  if reader.consumedChunks > 0 then
    let chunkno := reader.consumedChunks - 1
    let chunkSize := reader.chunkSize.getD chunkno 0
    if chunkSize = MAX_ENTRIES_PER_CHUNK then
      readBitmap reader.chunkData (chunkno * BLOCKS_PER_CHUNK) nblocks
        (BLOCKS_PER_CHUNK - reader.chunkPosition) reader.chunkPosition blocks
    else readArray reader.chunkData (chunkno * BLOCKS_PER_CHUNK) nblocks
      (chunkSize - reader.chunkPosition) reader.chunkPosition blocks
  else (reader.chunkPosition, blocks)

/-- The bytes of the next chunk. No byte of the file is consumed for a chunk that is empty. -/
def readNextChunk (buffer : ReadBuffer) (nextChunkSize : ℕ) :
    Except ReaderError (List UInt8 × ReadBuffer) :=
  if nextChunkSize > 0 then blockRefTableRead crcByte sched buffer (nextChunkSize * 2)
  else .ok ([], buffer)

/-- The loop of `BlockRefTableReaderGetBlocks`, with at most `n` chunks to go. -/
def getBlocksLoop (nblocks : ℕ) :
    ℕ → List ℕ → BlockRefTableReader → Except ReaderError (List ℕ × BlockRefTableReader)
  | 0, blocks, reader =>
    let (chunkPosition, blocks) := readChunk reader nblocks blocks
    .ok (blocks, { reader with chunkPosition := chunkPosition })
  | n + 1, blocks, reader => do
    let (chunkPosition, blocks) := readChunk reader nblocks blocks
    let reader := { reader with chunkPosition := chunkPosition }
    if blocks.length ≥ nblocks then .ok (blocks, reader)
    else if reader.consumedChunks = reader.totalChunks then .ok (blocks, reader)
    else
      let nextChunkSize := reader.chunkSize.getD reader.consumedChunks 0
      let (bytes, buffer) ← readNextChunk crcByte sched reader.buffer nextChunkSize
      let words := toWords bytes
      getBlocksLoop nblocks n blocks
        { reader with
          buffer := buffer
          chunkData := fun i => if i < nextChunkSize then words.getD i 0 else reader.chunkData i
          consumedChunks := reader.consumedChunks + 1
          chunkPosition := 0 }

/-- `BlockRefTableReaderGetBlocks`. -/
def blockRefTableReaderGetBlocks (reader : BlockRefTableReader) (nblocks : ℕ) :
    Except ReaderError (List ℕ × BlockRefTableReader) :=
  getBlocksLoop crcByte sched nblocks (reader.totalChunks - reader.consumedChunks) [] reader

end

/-! ## Buffers -/

section
variable {crcByte : UInt32 → UInt8 → UInt32}

/-- The writer has written `bytes`: passed on or in the buffer, and counted in the checksum. -/
structure Wrote (crcByte : UInt32 → UInt8 → UInt32) (buffer : WriteBuffer)
    (bytes : List UInt8) : Prop where
  concat : buffer.out ++ buffer.data = bytes
  crc : buffer.crc = bytes.foldl crcByte INIT_CRC32C

theorem wrote_nil : Wrote crcByte ⟨[], INIT_CRC32C, []⟩ [] := ⟨rfl, rfl⟩

/-- A write appends its data. -/
theorem Wrote.write {buffer : WriteBuffer} {bytes : List UInt8} (h : Wrote crcByte buffer bytes)
    (data : List UInt8) :
    Wrote crcByte (blockRefTableWrite crcByte buffer data) (bytes ++ data) := by
  have hcrc : data.foldl crcByte buffer.crc = (bytes ++ data).foldl crcByte INIT_CRC32C := by
    rw [foldl_append, h.crc]
  unfold blockRefTableWrite blockRefTableFlush
  dsimp only
  split_ifs with hfull hlarge hlarge
  · exact ⟨by dsimp only; rw [append_nil, h.concat], hcrc⟩
  · -- Data that is written directly finds an empty buffer.
    have hempty : buffer.data = [] := eq_nil_of_length_eq_zero (by omega)
    refine ⟨?_, hcrc⟩
    rw [hempty, append_nil, ← h.concat, hempty, append_nil]
  · exact ⟨by dsimp only; rw [nil_append, h.concat], hcrc⟩
  · exact ⟨by dsimp only; rw [← append_assoc, h.concat], hcrc⟩

/-- What a read buffer will still deliver. -/
def ReadBuffer.stream (buffer : ReadBuffer) : List UInt8 :=
  buffer.data.drop buffer.cursor ++ buffer.rest

/-- The result `r` of a read appends the first bytes of the stream to `data`, and counts them in the
checksum. -/
def Reads (crcByte : UInt32 → UInt8 → UInt32) (stream : List UInt8) (crc : UInt32) (length : ℕ)
    (data : List UInt8)
    (r : Except ReaderError (List UInt8 × ReadBuffer)) : Prop :=
  ∃ buffer, r = .ok (data ++ stream.take length, buffer) ∧ buffer.stream = stream.drop length ∧
    buffer.crc = (stream.take length).foldl crcByte crc

/-- A read goes on after a round that has delivered `k` bytes. -/
theorem Reads.round {stream data : List UInt8} {crc : UInt32} {length k : ℕ}
    {r : Except ReaderError (List UInt8 × ReadBuffer)} (hk : k ≤ length)
    (h : Reads crcByte (stream.drop k) ((stream.take k).foldl crcByte crc) (length - k)
      (data ++ stream.take k) r) : Reads crcByte stream crc length data r := by
  obtain ⟨buffer, hr, hstream, hcrc⟩ := h
  have hjoin : stream.take k ++ (stream.drop k).take (length - k) = stream.take length := by
    rw [← take_add, Nat.add_sub_cancel' hk]
  refine ⟨buffer, ?_, ?_, ?_⟩
  · rw [hr, append_assoc, hjoin]
  · rw [hstream, drop_drop, Nat.add_sub_cancel' hk]
  · rw [hcrc, ← foldl_append, hjoin]

/-- A read that the stream can satisfy returns its first bytes. -/
theorem readLoop_spec (crcByte : UInt32 → UInt8 → UInt32) (sched : ℕ → ℕ) :
    ∀ n length data (buffer : ReadBuffer) stream, buffer.stream = stream →
    2 * length ≤ n + (if buffer.cursor < buffer.data.length then 1 else 0) →
    length ≤ stream.length →
    Reads crcByte stream buffer.crc length data (readLoop crcByte sched n length data buffer) := by
  intro n
  induction n with
  | zero =>
    intro length data buffer stream hstream hn _
    obtain rfl : length = 0 := by
      split_ifs at hn <;> omega
    exact ⟨buffer, by rw [readLoop, take_zero, append_nil], hstream, rfl⟩
  | succ n ih =>
    intro length data buffer stream hstream hn hlength
    cases length with
    | zero => exact ⟨buffer, by rw [readLoop, take_zero, append_nil], hstream, rfl⟩
    | succ length =>
      rw [readLoop]
      by_cases hcursor : buffer.cursor < buffer.data.length
      · -- Copy from the buffer.
        rw [if_pos hcursor] at hn ⊢
        dsimp only
        generalize hk : min (length + 1) (buffer.data.length - buffer.cursor) = k
        have hdrop : (buffer.data.drop buffer.cursor).length = buffer.data.length - buffer.cursor :=
          length_drop
        have htake : (buffer.data.drop buffer.cursor).take k = stream.take k := by
          rw [← hstream, ReadBuffer.stream, take_append_of_le_length (by omega)]
        rw [htake]
        refine .round (k := k) (by omega) (ih _ _ _ _ ?_ (by omega) (by rw [length_drop]; omega))
        rw [← hstream, ReadBuffer.stream, ReadBuffer.stream,
          drop_append_of_le_length (by omega), drop_drop]
      · -- The buffer is empty, so that the stream is what the callback delivers.
        have hrest : buffer.rest = stream := by
          rw [← hstream, ReadBuffer.stream, drop_of_length_le (by omega), nil_append]
        rw [if_neg hcursor] at hn ⊢
        unfold ioCallback
        dsimp only
        rw [hrest]
        by_cases hlarge : length + 1 ≥ BUFSIZE
        · rw [if_pos hlarge]
          generalize hk : min (sched buffer.calls + 1) (length + 1) = k
          have hnew : (stream.take k).length = k := by
            rw [length_take]
            omega
          rw [if_neg (by omega), hnew]
          refine .round (k := k) (by omega)
            (ih _ _ _ _ ?_ (by dsimp only; rw [if_neg hcursor]; omega)
              (by rw [length_drop]; omega))
          rw [ReadBuffer.stream, drop_of_length_le (by dsimp only; omega), nil_append]
        · rw [if_neg hlarge]
          generalize hk : min (sched buffer.calls + 1) BUFSIZE = k
          have hnew : 0 < (stream.take k).length := by
            rw [length_take]
            omega
          rw [if_neg (by omega)]
          exact ih _ _ _ _ (take_append_drop k stream)
            (by dsimp only; rw [if_pos hnew]; omega) hlength

/-- The reader of a file has read all but `rest`, and counted it in the checksum. -/
structure ReadUpTo (crcByte : UInt32 → UInt8 → UInt32) (file : List UInt8) (buffer : ReadBuffer)
    (rest : List UInt8) : Prop where
  stream : buffer.stream = rest
  crc : ∃ done, done ++ rest = file ∧ buffer.crc = done.foldl crcByte INIT_CRC32C

/-- A read returns the next bytes of the file. -/
theorem ReadUpTo.read {file bytes rest : List UInt8} {buffer : ReadBuffer}
    (h : ReadUpTo crcByte file buffer (bytes ++ rest)) (sched : ℕ → ℕ) {length : ℕ}
    (hlength : bytes.length = length) :
    ∃ buffer', blockRefTableRead crcByte sched buffer length = .ok (bytes, buffer') ∧
      ReadUpTo crcByte file buffer' rest := by
  obtain ⟨done, hdone, hcrc⟩ := h.crc
  subst hlength
  obtain ⟨buffer', hloop, hstream, hcrc'⟩ :=
    readLoop_spec crcByte sched (2 * bytes.length) bytes.length [] buffer _ h.stream
      (Nat.le_add_right _ _)
    (by rw [length_append]; omega)
  rw [take_left] at hloop hcrc'
  refine ⟨buffer', hloop, ?_, done ++ bytes, ?_, ?_⟩
  · rw [hstream, drop_left]
  · rw [append_assoc, hdone]
  · rw [hcrc', hcrc, foldl_append]

end

end PgAutoIndex.Common
