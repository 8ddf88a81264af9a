import Mathlib.Algebra.BigOperators.Group.List.Basic
import Mathlib.Order.Monotone.Basic
import PgAutoIndex.Port

/-!
# Reserving space in the WAL and filling it

The model of the insertion of records in `access/transam/xlog.c`. `ReserveXLogInsertLocation` hands
out positions that count only usable bytes, and converts them to positions in the WAL, where every
page begins with a header. `CopyXLogRecordToWAL` writes a record page by page and skips the headers.
The two computations must come to the same end, or the server panics.

A position in the WAL is a natural number; the 64 bits of `XLogRecPtr` are not used up.
-/

namespace PgAutoIndex.Transam

open List Option

/-! ## Sizes -/

/-- `XLOG_BLCKSZ`. -/
def XLOG_BLCKSZ : ℕ := 8192

/-- `SizeOfXLogShortPHD`, the size of a page header. -/
def sizeOfXLogShortPHD : ℕ := 24

/-- `SizeOfXLogLongPHD`, the size of the header of a segment's first page. -/
def sizeOfXLogLongPHD : ℕ := 40

/-- `SizeOfXLogRecord`, the size of a record header. -/
def sizeOfXLogRecord : ℕ := 24

/-- `UsableBytesInPage`. -/
def usableBytesInPage : ℕ := XLOG_BLCKSZ - sizeOfXLogShortPHD

/-- A segment size: a power of two, a page or more, and not more than a gigabyte. -/
structure SegmentSize where
  exponent : ℕ
  page_le : 13 ≤ exponent
  le_max : exponent ≤ 30

namespace SegmentSize

variable (seg : SegmentSize)

/-- `wal_segment_size`. -/
def bytes : ℕ := 2 ^ seg.exponent

/-- `UsableBytesInSegment`. -/
def usableBytes : ℕ :=
  seg.bytes / XLOG_BLCKSZ * usableBytesInPage - (sizeOfXLogLongPHD - sizeOfXLogShortPHD)

/-- `XLogSegmentOffset`. -/
def offset (ptr : ℕ) : ℕ := ptr &&& (seg.bytes - 1)

end SegmentSize

variable (seg : SegmentSize)

/-! ## Usable byte positions -/

/-- The offset in its segment of a usable byte, given the usable bytes of the segment before it. -/
def segOffset (bytesleft : ℕ) : ℕ :=
  if bytesleft < XLOG_BLCKSZ - sizeOfXLogLongPHD then
    -- fits on the first page of the segment
    bytesleft + sizeOfXLogLongPHD
  else
    let bytesleft := bytesleft - (XLOG_BLCKSZ - sizeOfXLogLongPHD)
    XLOG_BLCKSZ + (bytesleft / usableBytesInPage * XLOG_BLCKSZ + bytesleft % usableBytesInPage +
      sizeOfXLogShortPHD)

/-- `XLogBytePosToRecPtr`. -/
def xlogBytePosToRecPtr (bytepos : ℕ) : ℕ :=
  bytepos / seg.usableBytes * seg.bytes + segOffset (bytepos % seg.usableBytes) % 2^32

/-- The offset in its segment of the end of usable bytes: at a page boundary, before the header. -/
def segEndOffset (bytesleft : ℕ) : ℕ :=
  if bytesleft < XLOG_BLCKSZ - sizeOfXLogLongPHD then
    if bytesleft = 0 then 0 else bytesleft + sizeOfXLogLongPHD
  else
    let bytesleft := bytesleft - (XLOG_BLCKSZ - sizeOfXLogLongPHD)
    let fullpages := bytesleft / usableBytesInPage
    let bytesleft := bytesleft % usableBytesInPage
    if bytesleft = 0 then XLOG_BLCKSZ + (fullpages * XLOG_BLCKSZ + bytesleft)
    else XLOG_BLCKSZ + (fullpages * XLOG_BLCKSZ + bytesleft + sizeOfXLogShortPHD)

/-- `XLogBytePosToEndRecPtr`. -/
def xlogBytePosToEndRecPtr (bytepos : ℕ) : ℕ :=
  bytepos / seg.usableBytes * seg.bytes + segEndOffset (bytepos % seg.usableBytes) % 2^32

/-- `XLogRecPtrToBytePos`. -/
def xlogRecPtrToBytePos (ptr : ℕ) : ℕ :=
  let fullsegs := ptr / seg.bytes
  let fullpages := seg.offset ptr / XLOG_BLCKSZ
  let offset := ptr % XLOG_BLCKSZ
  if fullpages = 0 then
    fullsegs * seg.usableBytes + (if offset > 0 then offset - sizeOfXLogLongPHD else 0)
  else
    fullsegs * seg.usableBytes + (XLOG_BLCKSZ - sizeOfXLogLongPHD) +
      (fullpages - 1) * usableBytesInPage +
      (if offset > 0 then offset - sizeOfXLogShortPHD else 0)

/-! ## Reservation -/

/-- The insertion position in shared memory, in usable bytes. -/
structure XLogCtlInsert where
  currBytePos : ℕ
  prevBytePos : ℕ

/-- The positions that a reservation returns. -/
structure Reservation where
  startPos : ℕ
  endPos : ℕ
  prevPtr : ℕ

/-- `ReserveXLogInsertLocation`. -/
def reserveXLogInsertLocation (size : ℕ) (insert : XLogCtlInsert) : Reservation × XLogCtlInsert :=
  let size := maxalign size
  let startbytepos := insert.currBytePos
  let endbytepos := startbytepos + size
  (⟨xlogBytePosToRecPtr seg startbytepos, xlogBytePosToEndRecPtr seg endbytepos,
      xlogBytePosToRecPtr seg insert.prevBytePos⟩,
    ⟨endbytepos, startbytepos⟩)

/-- `ReserveXLogSwitch`; it returns nothing when the position is at the beginning of a segment. -/
def reserveXLogSwitch (insert : XLogCtlInsert) : Option (Reservation × XLogCtlInsert) :=
  let size := maxalign sizeOfXLogRecord
  let startbytepos := insert.currBytePos
  let ptr := xlogBytePosToEndRecPtr seg startbytepos
  if seg.offset ptr = 0 then none
  else
    let endPos := xlogBytePosToEndRecPtr seg (startbytepos + size)
    let segleft := seg.bytes - seg.offset endPos
    -- consume the rest of the segment
    let endPos' := if segleft ≠ seg.bytes then endPos + segleft else endPos
    let endbytepos :=
      if segleft ≠ seg.bytes then xlogRecPtrToBytePos seg endPos' else startbytepos + size
    some (⟨xlogBytePosToRecPtr seg startbytepos, endPos',
        xlogBytePosToRecPtr seg insert.prevBytePos⟩,
      ⟨endbytepos, startbytepos⟩)

/-! ## Copying -/

/-- `INSERT_FREESPACE`. -/
def insertFreespace (endptr : ℕ) : ℕ :=
  if endptr % XLOG_BLCKSZ = 0 then 0 else XLOG_BLCKSZ - endptr % XLOG_BLCKSZ

/-- The variables of `CopyXLogRecordToWAL`, with what it has written: each byte with its position,
and each page whose header it has skipped with the remaining length it has put there. -/
structure CopyState where
  currPos : ℕ
  freespace : ℕ
  written : ℕ
  writes : List (ℕ × UInt8)
  headers : List (ℕ × ℕ)

/-- The writes of `memcpy` at a position. -/
def memcpyAt (pos : ℕ) (data : List UInt8) : List (ℕ × UInt8) := data.mapIdx fun k b => (pos + k, b)

/-- A round of the inner loop: write what fits on the page, and skip the header of the next page. -/
def fillPage (writeLen : ℕ) (data : List UInt8) (st : CopyState) : CopyState :=
  let written := st.written + st.freespace
  let pos := st.currPos + st.freespace
  let next := if seg.offset pos = 0 then pos + sizeOfXLogLongPHD else pos + sizeOfXLogShortPHD
  { currPos := next
    freespace := insertFreespace next
    written := written
    writes := st.writes ++ memcpyAt st.currPos (data.take st.freespace)
    headers := st.headers ++ [(pos, writeLen - written)] }

/-- The inner loop, while the data does not fit on the page. A round leaves less data or finds free
space, so `fuel` rounds are enough when it is more than the length of the data. -/
def copyPages (writeLen : ℕ) : ℕ → List UInt8 → CopyState → Option (List UInt8 × CopyState)
  | fuel, data, st =>
    if data.length > st.freespace then
      match fuel with
      | 0 => none
      | fuel + 1 =>
        copyPages writeLen fuel (data.drop st.freespace) (fillPage seg writeLen data st)
    else some (data, st)

/-- One chunk of the record. -/
def copyChunk (writeLen : ℕ) (st : CopyState) (data : List UInt8) : Option CopyState := do
  let (data, st) ← copyPages seg writeLen (data.length + 1) data st
  some
    { currPos := st.currPos + data.length
      freespace := st.freespace - data.length
      written := st.written + data.length
      writes := st.writes ++ memcpyAt st.currPos data
      headers := st.headers }

/-- The loop that uses up the remaining pages of a segment. -/
def skipPages (endPos currPos : ℕ) : ℕ :=
  if currPos < endPos then skipPages endPos (currPos + XLOG_BLCKSZ) else currPos
termination_by endPos - currPos
decreasing_by
  unfold XLOG_BLCKSZ
  omega

/-- `CopyXLogRecordToWAL`; it fails where the code panics. -/
def copyXLogRecordToWAL (writeLen : ℕ) (isLogSwitch : Bool) (rdata : List (List UInt8))
    (startPos endPos : ℕ) : Option CopyState := do
  let st ← rdata.foldlM (copyChunk seg writeLen)
    ⟨startPos, insertFreespace startPos, 0, [], []⟩
  let currPos :=
    if isLogSwitch ∧ seg.offset st.currPos ≠ 0 then skipPages endPos (st.currPos + st.freespace)
    else maxalign st.currPos
  if currPos ≠ endPos then none else some { st with currPos := currPos }

/-! ## Inserting records -/

/-- A record as a chain of chunks of data, at least a record header, which is all that an
xlog-switch record consists of. -/
structure XLogRecord where
  rdata : List (List UInt8)
  isSwitch : Bool
  size_le : sizeOfXLogRecord ≤ rdata.flatten.length
  switch_size : isSwitch = true → rdata.flatten.length = sizeOfXLogRecord

/-- The bytes of a record. -/
def XLogRecord.bytes (record : XLogRecord) : List UInt8 := record.rdata.flatten

/-- A record that has been inserted: the usable byte position it starts at, the positions reserved
for it, and what was copied. -/
structure Inserted where
  record : XLogRecord
  start : ℕ
  reserved : Reservation
  copied : CopyState

/-- The reservation that `XLogInsertRecord` makes for a record. -/
def reserveFor (insert : XLogCtlInsert) (record : XLogRecord) :
    Option (Reservation × XLogCtlInsert) :=
  if record.isSwitch then reserveXLogSwitch seg insert
  else some (reserveXLogInsertLocation seg record.bytes.length insert)

/-- The part of `XLogInsertRecord` that reserves and fills space, for one record after the other. It
fails where the code panics; a record for which nothing is reserved is left out. -/
def insertRecords (insert : XLogCtlInsert) :
    List XLogRecord → Option (List Inserted × XLogCtlInsert)
  | [] => some ([], insert)
  | record :: records =>
    match reserveFor seg insert record with
    | none => insertRecords insert records
    | some (reserved, insert') => do
      let copied ← copyXLogRecordToWAL seg record.bytes.length record.isSwitch record.rdata
        reserved.startPos reserved.endPos
      let (others, last) ← insertRecords insert' records
      some (⟨record, insert.currBytePos, reserved, copied⟩ :: others, last)

/-! ## Where the usable bytes lie -/

/-- The sizes as numbers, for the arithmetic. -/
theorem page_sizes : XLOG_BLCKSZ = 8192 ∧ sizeOfXLogShortPHD = 24 ∧ sizeOfXLogLongPHD = 40 ∧
    usableBytesInPage = 8168 := by decide

namespace SegmentSize

/-- A segment as a whole number of pages. -/
theorem pages_spec : ∃ pages, 0 < pages ∧ seg.bytes = XLOG_BLCKSZ * pages ∧ seg.bytes ≤ 2^30 ∧
    seg.usableBytes = usableBytesInPage * pages - (sizeOfXLogLongPHD - sizeOfXLogShortPHD) := by
  have hpow : seg.bytes = XLOG_BLCKSZ * 2^(seg.exponent - 13) := by
    rw [bytes, show XLOG_BLCKSZ = 2^13 from rfl, ← pow_add, Nat.add_sub_cancel' seg.page_le]
  refine ⟨2^(seg.exponent - 13), Nat.two_pow_pos _, hpow,
    Nat.pow_le_pow_right (by decide) seg.le_max, ?_⟩
  rw [usableBytes, hpow, Nat.mul_div_cancel_left _ (by decide), mul_comm]

theorem usableBytes_pos : 0 < seg.usableBytes := by
  obtain ⟨pages, hpages, -, -, husable⟩ := seg.pages_spec
  simp only [page_sizes] at husable
  omega

theorem offset_eq_mod (ptr : ℕ) : seg.offset ptr = ptr % seg.bytes :=
  Nat.and_two_pow_sub_one_eq_mod ptr seg.exponent

/-- A position in the WAL by its segment. -/
theorem mul_add_mod_blcksz (fullsegs x : ℕ) :
    (fullsegs * seg.bytes + x) % XLOG_BLCKSZ = x % XLOG_BLCKSZ := by
  obtain ⟨pages, -, hbytes, -, -⟩ := seg.pages_spec
  have hmul : fullsegs * seg.bytes = XLOG_BLCKSZ * (fullsegs * pages) := by
    rw [hbytes, mul_left_comm]
  rw [hmul, Nat.mul_add_mod]

theorem mul_usableBytes_mod_eight (fullsegs : ℕ) : fullsegs * seg.usableBytes % 8 = 0 := by
  obtain ⟨pages, hpages, -, -, husable⟩ := seg.pages_spec
  simp only [page_sizes] at husable
  rw [husable, show 8168 * pages - (40 - 24) = 8 * (1021 * pages - 2) by omega, mul_left_comm,
    Nat.mul_mod_right]

end SegmentSize

/-- In front of a usable byte are the header of the segment and those of its later pages. -/
theorem segOffset_eq (r : ℕ) : segOffset r = r + sizeOfXLogLongPHD +
    sizeOfXLogShortPHD * ((r + (sizeOfXLogLongPHD - sizeOfXLogShortPHD)) / usableBytesInPage) := by
  simp only [segOffset, page_sizes]
  split_ifs <;> omega

theorem segEndOffset_zero : segEndOffset 0 = 0 := rfl

/-- The end of usable bytes is behind the last one of them. -/
theorem segEndOffset_succ (r : ℕ) : segEndOffset (r + 1) = segOffset r + 1 := by
  simp only [segOffset_eq, segEndOffset, page_sizes]
  split_ifs <;> omega

theorem segOffset_lt {r : ℕ} (hr : r < seg.usableBytes) : segOffset r < seg.bytes := by
  obtain ⟨pages, hpages, hbytes, -, husable⟩ := seg.pages_spec
  simp only [segOffset_eq, page_sizes] at hbytes husable ⊢
  omega

/-- The end position is the position of the next usable byte, less the header between them. -/
theorem segOffset_eq_add (r : ℕ) :
    segOffset r = segEndOffset r + if segEndOffset r % XLOG_BLCKSZ ≠ 0 then 0
      else if segEndOffset r = 0 then sizeOfXLogLongPHD else sizeOfXLogShortPHD := by
  cases r with
  | zero => rfl
  | succ r =>
    rw [segEndOffset_succ, if_neg (Nat.succ_ne_zero (segOffset r))]
    simp only [segOffset_eq, page_sizes]
    split_ifs <;> omega

theorem segEndOffset_le_segOffset (r : ℕ) : segEndOffset r ≤ segOffset r := by
  rw [segOffset_eq_add r]
  exact Nat.le_add_right _ _

/-- The position of a usable byte, by its segment. -/
theorem xlogBytePosToRecPtr_eq (fullsegs : ℕ) {r : ℕ} (hr : r < seg.usableBytes) :
    xlogBytePosToRecPtr seg (fullsegs * seg.usableBytes + r) =
      fullsegs * seg.bytes + segOffset r := by
  obtain ⟨pages, -, -, hmax, -⟩ := seg.pages_spec
  have hoff := segOffset_lt seg hr
  rw [xlogBytePosToRecPtr, mul_comm fullsegs seg.usableBytes,
    Nat.mul_add_div seg.usableBytes_pos, Nat.mul_add_mod, Nat.div_eq_of_lt hr, Nat.mod_eq_of_lt hr,
    add_zero, Nat.mod_eq_of_lt (by omega)]

theorem xlogBytePosToEndRecPtr_eq (fullsegs : ℕ) {r : ℕ} (hr : r < seg.usableBytes) :
    xlogBytePosToEndRecPtr seg (fullsegs * seg.usableBytes + r) =
      fullsegs * seg.bytes + segEndOffset r := by
  obtain ⟨pages, -, -, hmax, -⟩ := seg.pages_spec
  have hoff := segOffset_lt seg hr
  have hend := segEndOffset_le_segOffset r
  rw [xlogBytePosToEndRecPtr, mul_comm fullsegs seg.usableBytes,
    Nat.mul_add_div seg.usableBytes_pos, Nat.mul_add_mod, Nat.div_eq_of_lt hr, Nat.mod_eq_of_lt hr,
    add_zero, Nat.mod_eq_of_lt (by omega)]

/-- The usable byte position of an offset in a segment, at a usable byte or at the end of some. -/
theorem xlogRecPtrToBytePos_eq (fullsegs : ℕ) {offset r : ℕ} (hlt : offset < seg.bytes)
    (hr : offset = segOffset r ∨ offset = segEndOffset r) :
    xlogRecPtrToBytePos seg (fullsegs * seg.bytes + offset) = fullsegs * seg.usableBytes + r := by
  unfold xlogRecPtrToBytePos
  rw [seg.offset_eq_mod, seg.mul_add_mod_blcksz, Nat.mul_comm fullsegs seg.bytes,
    Nat.mul_add_div (by omega), Nat.div_eq_of_lt hlt, Nat.mul_add_mod, Nat.mod_eq_of_lt hlt,
    add_zero]
  simp only [segOffset_eq, page_sizes] at hr ⊢
  cases r with
  | zero =>
    rw [segEndOffset_zero] at hr
    split_ifs <;> omega
  | succ r =>
    simp only [segEndOffset_succ, segOffset_eq, page_sizes] at hr
    split_ifs <;> omega

/-- Every usable byte position lies in some segment. -/
theorem exists_segment (bytepos : ℕ) :
    ∃ fullsegs r, r < seg.usableBytes ∧ bytepos = fullsegs * seg.usableBytes + r :=
  ⟨bytepos / seg.usableBytes, bytepos % seg.usableBytes, Nat.mod_lt _ seg.usableBytes_pos,
    by rw [mul_comm, Nat.div_add_mod]⟩

/-- The header in front of the first usable byte behind an end position. -/
def headerAt (ptr : ℕ) : ℕ :=
  if ptr % XLOG_BLCKSZ ≠ 0 then 0
  else if seg.offset ptr = 0 then sizeOfXLogLongPHD else sizeOfXLogShortPHD

/-- From the end of usable bytes to the next usable byte there is at most a page header. -/
theorem xlogBytePosToRecPtr_eq_add (bytepos : ℕ) :
    xlogBytePosToRecPtr seg bytepos =
      xlogBytePosToEndRecPtr seg bytepos + headerAt seg (xlogBytePosToEndRecPtr seg bytepos) := by
  obtain ⟨fullsegs, r, hr, rfl⟩ := exists_segment seg bytepos
  have hlt : segEndOffset r < seg.bytes :=
    Nat.lt_of_le_of_lt (segEndOffset_le_segOffset r) (segOffset_lt seg hr)
  rw [xlogBytePosToRecPtr_eq seg fullsegs hr, xlogBytePosToEndRecPtr_eq seg fullsegs hr, headerAt,
    seg.mul_add_mod_blcksz, seg.offset_eq_mod, Nat.mul_comm fullsegs, Nat.mul_add_mod,
    Nat.mod_eq_of_lt hlt, segOffset_eq_add r, Nat.add_assoc]

/-- A usable byte is never at a page boundary. -/
theorem xlogBytePosToRecPtr_mod (bytepos : ℕ) :
    sizeOfXLogShortPHD ≤ xlogBytePosToRecPtr seg bytepos % XLOG_BLCKSZ := by
  obtain ⟨fullsegs, r, hr, rfl⟩ := exists_segment seg bytepos
  rw [xlogBytePosToRecPtr_eq seg fullsegs hr, seg.mul_add_mod_blcksz]
  simp only [segOffset_eq, page_sizes]
  omega

theorem xlogBytePosToRecPtr_pos (bytepos : ℕ) : 0 < xlogBytePosToRecPtr seg bytepos :=
  Nat.lt_of_lt_of_le (by decide) ((xlogBytePosToRecPtr_mod seg bytepos).trans (Nat.mod_le _ _))

/-- The end of usable bytes is behind the last one of them. -/
theorem xlogBytePosToEndRecPtr_succ (bytepos : ℕ) :
    xlogBytePosToEndRecPtr seg (bytepos + 1) = xlogBytePosToRecPtr seg bytepos + 1 := by
  obtain ⟨fullsegs, r, hr, rfl⟩ := exists_segment seg bytepos
  rw [xlogBytePosToRecPtr_eq seg fullsegs hr, add_assoc, add_assoc, ← segEndOffset_succ]
  rcases Nat.eq_or_lt_of_le hr with hlast | hlt
  · -- the page is the last of its segment
    have hfull : segEndOffset (r + 1) = seg.bytes := by
      obtain ⟨pages, hpages, hbytes, -, husable⟩ := seg.pages_spec
      simp only [segEndOffset_succ, segOffset_eq, page_sizes] at hbytes husable ⊢
      omega
    have hnext := xlogBytePosToEndRecPtr_eq seg (fullsegs + 1) seg.usableBytes_pos
    rw [Nat.add_one_mul, Nat.add_one_mul] at hnext
    rw [hfull, show r + 1 = seg.usableBytes from hlast]
    exact hnext
  · exact xlogBytePosToEndRecPtr_eq seg fullsegs hlt

/-- The free space behind a usable byte is taken by the usable bytes that follow it. -/
theorem xlogBytePosToRecPtr_add (bytepos n : ℕ)
    (hn : n < XLOG_BLCKSZ - xlogBytePosToRecPtr seg bytepos % XLOG_BLCKSZ) :
    xlogBytePosToRecPtr seg (bytepos + n) = xlogBytePosToRecPtr seg bytepos + n := by
  simp only [page_sizes] at hn
  induction n with
  | zero => rfl
  | succ n ih =>
    rw [← add_assoc, xlogBytePosToRecPtr_eq_add, xlogBytePosToEndRecPtr_succ,
      ih (by omega), headerAt,
      if_pos (by simp only [page_sizes]; omega)]
    rfl

/-- Behind a positive number of usable bytes on a page is their end position. -/
theorem xlogBytePosToEndRecPtr_add (bytepos n : ℕ) (hpos : 0 < n)
    (hn : n ≤ XLOG_BLCKSZ - xlogBytePosToRecPtr seg bytepos % XLOG_BLCKSZ) :
    xlogBytePosToEndRecPtr seg (bytepos + n) = xlogBytePosToRecPtr seg bytepos + n := by
  obtain ⟨m, rfl⟩ := Nat.exists_eq_add_one.mpr hpos
  rw [← add_assoc, xlogBytePosToEndRecPtr_succ,
    xlogBytePosToRecPtr_add seg bytepos m (by omega), add_assoc]

/-- Pages and their headers are aligned, so positions keep the alignment of byte positions. -/
theorem xlogBytePosToRecPtr_mod_eight (bytepos : ℕ) :
    xlogBytePosToRecPtr seg bytepos % 8 = bytepos % 8 := by
  obtain ⟨fullsegs, r, hr, rfl⟩ := exists_segment seg bytepos
  have hsegs := seg.mul_add_mod_blcksz fullsegs 0
  have husables := seg.mul_usableBytes_mod_eight fullsegs
  rw [xlogBytePosToRecPtr_eq seg fullsegs hr]
  simp only [segOffset_eq, page_sizes] at hsegs ⊢
  omega

theorem headerAt_mod_eight (ptr : ℕ) : headerAt seg ptr % 8 = 0 := by
  unfold headerAt sizeOfXLogLongPHD sizeOfXLogShortPHD
  split_ifs <;> rfl

/-- Alignment of the end position: the bytes that fill up the last word of a record are on its page.
-/
theorem maxalign_xlogBytePosToEndRecPtr (bytepos size : ℕ) (hpos : bytepos % 8 = 0) :
    maxalign (xlogBytePosToEndRecPtr seg (bytepos + size)) =
      xlogBytePosToEndRecPtr seg (bytepos + maxalign size) := by
  have hmod := xlogBytePosToRecPtr_mod_eight seg (bytepos + size)
  have hadd := xlogBytePosToRecPtr_eq_add seg (bytepos + size)
  have hheader := headerAt_mod_eight seg (xlogBytePosToEndRecPtr seg (bytepos + size))
  by_cases hsize : size % 8 = 0
  · have hsame : maxalign size = size := by unfold maxalign; omega
    rw [hsame]
    unfold maxalign
    omega
  · -- the record ends inside a page, and the page has room for the rest of the word
    have hinside : xlogBytePosToRecPtr seg (bytepos + size) =
        xlogBytePosToEndRecPtr seg (bytepos + size) := by
      by_cases hpage : xlogBytePosToEndRecPtr seg (bytepos + size) % XLOG_BLCKSZ = 0
      · simp only [page_sizes] at hpage
        omega
      · rw [hadd, headerAt, if_pos hpage, add_zero]
    have hfill : maxalign size = size + (8 - size % 8) := by unfold maxalign; omega
    rw [hfill, ← add_assoc,
      xlogBytePosToEndRecPtr_add seg (bytepos + size) (8 - size % 8) (by omega)
        (by simp only [page_sizes]; omega),
      ← hinside]
    unfold maxalign
    omega

/-! ## What copying a record does -/

/-- The first positions of the pages after page `first` up to page `last`. -/
def pageStarts (first last : ℕ) : List ℕ :=
  (range' (first + 1) (last - first)).map (XLOG_BLCKSZ * ·)

theorem pageStarts_succ {first last : ℕ} (h : first ≤ last) :
    pageStarts first (last + 1) = pageStarts first last ++ [XLOG_BLCKSZ * (last + 1)] := by
  unfold pageStarts
  rw [show last + 1 - first = last - first + 1 by omega, range'_concat, map_append,
    map_singleton]
  congr 3
  omega

/-- Bytes of a record at their places in the WAL, from the usable byte position `start` on. -/
def placed (start : ℕ) (record : List UInt8) : List (ℕ × UInt8) :=
  record.mapIdx fun k b => (xlogBytePosToRecPtr seg (start + k), b)

/-- What holds while a record is copied from the usable byte position `start` on, with the bytes
`done` written: they lie at their places, and each page header on the way was skipped once. -/
structure CopyInv (start : ℕ) (st : CopyState) (done : List UInt8) : Prop where
  written : st.written = done.length
  free : st.freespace = insertFreespace st.currPos
  writes : st.writes = placed seg start done
  page_le : xlogBytePosToRecPtr seg start / XLOG_BLCKSZ ≤ (st.currPos - 1) / XLOG_BLCKSZ
  headers : st.headers.map Prod.fst =
    pageStarts (xlogBytePosToRecPtr seg start / XLOG_BLCKSZ) ((st.currPos - 1) / XLOG_BLCKSZ)

/-- Bytes copied to consecutive positions that are usable bytes are placed. -/
theorem placed_append (start pos : ℕ) (done data : List UInt8)
    (h : ∀ k < data.length, xlogBytePosToRecPtr seg (start + done.length + k) = pos + k) :
    placed seg start done ++ memcpyAt pos data = placed seg start (done ++ data) := by
  unfold placed memcpyAt
  rw [mapIdx_append]
  congr 1
  apply ext_getElem
  · simp
  · intro k hk hk'
    have hlen : k < data.length := by simpa using hk
    simp only [getElem_mapIdx, ← h k hlen, Prod.mk.injEq, and_true]
    congr 1
    omega

/-- There is free space from a usable byte to the end of its page. -/
theorem insertFreespace_recPtr (bytepos : ℕ) : insertFreespace (xlogBytePosToRecPtr seg bytepos) =
    XLOG_BLCKSZ - xlogBytePosToRecPtr seg bytepos % XLOG_BLCKSZ := by
  have hmod := xlogBytePosToRecPtr_mod seg bytepos
  exact if_neg (by simp only [page_sizes] at *; omega)

variable {start : ℕ} {st : CopyState} {done data : List UInt8} {insert insert' : XLogCtlInsert}
  {record : XLogRecord}
  {reserved : Reservation}

/-- The position behind the bytes written: a usable byte, or the end of a full page. -/
def AtNext (start : ℕ) (st : CopyState) (done : List UInt8) : Prop :=
  st.currPos = xlogBytePosToRecPtr seg (start + done.length) ∨
    st.currPos = xlogBytePosToEndRecPtr seg (start + done.length)

/-- Where there is free space on the page, the next usable byte is right here. -/
theorem AtNext.recPtr (hat : AtNext seg start st done) (h : CopyInv seg start st done)
    (hfree : 0 < st.freespace) :
    st.currPos = xlogBytePosToRecPtr seg (start + done.length) := by
  rcases hat with hat | hat
  · exact hat
  · have hne : xlogBytePosToEndRecPtr seg (start + done.length) % XLOG_BLCKSZ ≠ 0 := by
      intro hzero
      rw [h.free, hat, insertFreespace, if_pos hzero] at hfree
      omega
    rw [hat, xlogBytePosToRecPtr_eq_add, headerAt, if_pos hne, add_zero]

/-- Writing data that fits on the page. The position is then the end of it, unless there is none and
the page is not full. -/
theorem CopyInv.write_fitting (h : CopyInv seg start st done) (hat : AtNext seg start st done)
    (hfit : data.length ≤ st.freespace) :
    CopyInv seg start
      { currPos := st.currPos + data.length
        freespace := st.freespace - data.length
        written := st.written + data.length
        writes := st.writes ++ memcpyAt st.currPos data
        headers := st.headers } (done ++ data) ∧
    (0 < data.length ∨ st.freespace = 0 → st.currPos + data.length =
      xlogBytePosToEndRecPtr seg (start + (done ++ data).length)) := by
  have hmod := xlogBytePosToRecPtr_mod seg (start + done.length)
  have hfree := h.free
  have hroom := insertFreespace_recPtr seg (start + done.length)
  simp only [page_sizes] at hmod hroom
  rcases Nat.eq_zero_or_pos data.length with hzero | hne
  · obtain rfl : data = [] := eq_nil_of_length_eq_zero hzero
    simp only [length_nil, add_zero, Nat.sub_zero, memcpyAt, mapIdx_nil, append_nil]
    refine ⟨h, fun hfull => hat.resolve_left fun hpos => ?_⟩
    -- there is free space at a usable byte
    rw [hpos] at hfree
    omega
  have hpos := hat.recPtr seg h (by omega)
  rw [hpos] at hfree
  have hpage : (st.currPos + data.length - 1) / XLOG_BLCKSZ = (st.currPos - 1) / XLOG_BLCKSZ := by
    simp only [page_sizes]
    omega
  refine ⟨⟨?_, ?_, ?_, ?_, ?_⟩, fun _ => ?_⟩
  · rw [h.written, length_append]
  · show st.freespace - data.length = insertFreespace (st.currPos + data.length)
    rw [insertFreespace, XLOG_BLCKSZ]
    split_ifs <;> omega
  · rw [h.writes]
    apply placed_append
    intro k hk
    rw [hpos]
    exact xlogBytePosToRecPtr_add seg _ k (by simp only [page_sizes]; omega)
  · rw [hpage]
    exact h.page_le
  · rw [hpage]
    exact h.headers
  · rw [length_append, ← add_assoc, hpos]
    refine (xlogBytePosToEndRecPtr_add seg _ data.length hne ?_).symm
    simp only [page_sizes]
    omega

/-- A round of the inner loop fills the page and goes to the first usable byte of the next one. -/
theorem CopyInv.fillPage (h : CopyInv seg start st done) (hat : AtNext seg start st done)
    (hcurr : 0 < st.currPos) (data : List UInt8) (hlong : st.freespace < data.length)
    (writeLen : ℕ) :
    CopyInv seg start (fillPage seg writeLen data st) (done ++ data.take st.freespace) ∧
      (Transam.fillPage seg writeLen data st).currPos =
        xlogBytePosToRecPtr seg (start + (done ++ data.take st.freespace).length) := by
  have htake : (data.take st.freespace).length = st.freespace := by
    rw [length_take, Nat.min_eq_left (Nat.le_of_lt hlong)]
  have hboundary : (st.currPos + st.freespace) % XLOG_BLCKSZ = 0 := by
    simp only [h.free, insertFreespace, page_sizes]
    split_ifs <;> omega
  -- what fits on the page is written
  obtain ⟨hfull, hend⟩ := h.write_fitting seg hat (Nat.le_of_eq htake)
  rw [htake] at hfull hend
  have hend := hend (by omega)
  -- and the header of the next page is skipped
  have hnext : (Transam.fillPage seg writeLen data st).currPos =
      st.currPos + st.freespace + headerAt seg (st.currPos + st.freespace) := by
    rw [Transam.fillPage, headerAt, if_neg (not_not.mpr hboundary)]
    split_ifs <;> rfl
  have hheader : sizeOfXLogShortPHD ≤ headerAt seg (st.currPos + st.freespace) ∧
      headerAt seg (st.currPos + st.freespace) ≤ sizeOfXLogLongPHD := by
    simp only [headerAt, page_sizes] at hboundary ⊢
    split_ifs <;> omega
  obtain ⟨last, hlast⟩ : ∃ last, st.currPos + st.freespace = XLOG_BLCKSZ * (last + 1) := by
    obtain ⟨pages, hpages⟩ := Nat.dvd_of_mod_eq_zero hboundary
    cases pages with
    | zero => omega
    | succ last => exact ⟨last, hpages⟩
  have hbefore : (st.currPos + st.freespace - 1) / XLOG_BLCKSZ = last := by
    simp only [page_sizes] at hlast ⊢
    omega
  have hafter : ((Transam.fillPage seg writeLen data st).currPos - 1) / XLOG_BLCKSZ = last + 1 := by
    simp only [page_sizes] at hlast hheader ⊢
    omega
  have hle := hfull.page_le
  have hheaders := hfull.headers
  dsimp only at hle hheaders hend
  rw [hbefore] at hle hheaders
  refine ⟨⟨hfull.written, rfl, hfull.writes, ?_, ?_⟩, ?_⟩
  · rw [hafter]
    omega
  · rw [hafter, pageStarts_succ hle, ← hheaders, ← hlast, Transam.fillPage, map_append]
    rfl
  · rw [hnext, hend, ← xlogBytePosToRecPtr_eq_add]

/-- The inner loop ends with data that fits on the page, after the rest is written. -/
theorem copyPages_spec (writeLen fuel : ℕ) (data : List UInt8) (h : CopyInv seg start st done)
    (hat : AtNext seg start st done)
    (hcurr : 0 < st.currPos)
    (hfuel : data.length < fuel ∨ (data.length ≤ fuel ∧ 0 < st.freespace)) :
    ∃ data' st' done', copyPages seg writeLen fuel data st = some (data', st') ∧
      done' ++ data' = done ++ data ∧ CopyInv seg start st' done' ∧
      data'.length ≤ st'.freespace ∧
      ((data' = data ∧ st' = st ∧ done' = done) ∨
        (0 < data'.length ∧ st'.currPos = xlogBytePosToRecPtr seg (start + done'.length))) := by
  fun_induction copyPages seg writeLen fuel data st generalizing done with
  | case1 data st hlong => omega
  | case2 data st hlong fuel ih =>
    obtain ⟨hinv, hpos⟩ := h.fillPage seg hat hcurr data hlong writeLen
    have hfree : 0 < (fillPage seg writeLen data st).freespace := by
      rw [hinv.free, hpos, insertFreespace_recPtr]
      exact Nat.sub_pos_of_lt (Nat.mod_lt _ (by decide))
    have hcurr' : 0 < (fillPage seg writeLen data st).currPos :=
      hpos ▸ xlogBytePosToRecPtr_pos seg _
    obtain ⟨data', st', done', heq, hdone, hinv', hfit, hcase⟩ :=
      ih hinv (.inl hpos) hcurr' (.inr ⟨by rw [length_drop]; omega, hfree⟩)
    refine ⟨data', st', done', heq, ?_, hinv', hfit, .inr ?_⟩
    · rw [hdone, append_assoc, take_append_drop]
    · rcases hcase with ⟨rfl, rfl, rfl⟩ | hcase
      · exact ⟨by rw [length_drop]; omega, hpos⟩
      · exact hcase
  | case3 fuel data st hfit => exact ⟨data, st, done, rfl, rfl, h, by omega, .inl ⟨rfl, rfl, rfl⟩⟩

/-- Between two chunks: nothing is written yet, or the position is the end of what is written. -/
def BetweenChunks (start : ℕ) (st : CopyState) (done : List UInt8) : Prop :=
  (done = [] ∧ st.currPos = xlogBytePosToRecPtr seg start) ∨
    st.currPos = xlogBytePosToEndRecPtr seg (start + done.length)

theorem copyChunk_spec (writeLen : ℕ) (data : List UInt8) (h : CopyInv seg start st done)
    (hb : BetweenChunks seg start st done) (hcurr : 0 < st.currPos) :
    ∃ st', copyChunk seg writeLen st data = some st' ∧ CopyInv seg start st' (done ++ data) ∧
      BetweenChunks seg start st' (done ++ data) ∧ 0 < st'.currPos := by
  have hat : AtNext seg start st done := by
    rcases hb with ⟨rfl, hb⟩ | hb
    · exact .inl hb
    · exact .inr hb
  obtain ⟨data', st', done', heq, hdone, hinv, hfit, hcase⟩ :=
    copyPages_spec seg writeLen (data.length + 1) data h hat hcurr
    (.inl (Nat.lt_succ_self _))
  simp only [copyChunk, heq, bind_eq_bind, bind_some, some.injEq,
    exists_eq_left']
  rw [← hdone]
  rcases Nat.eq_zero_or_pos data'.length with hzero | hpos
  · -- an empty chunk changes nothing
    obtain rfl : data' = [] := eq_nil_of_length_eq_zero hzero
    obtain ⟨rfl, rfl, rfl⟩ : [] = data ∧ st' = st ∧ done' = done := by
      rcases hcase with hcase | ⟨hpos, -⟩
      · exact hcase
      · exact absurd hpos (Nat.lt_irrefl 0)
    simp only [length_nil, Nat.add_zero, Nat.sub_zero, memcpyAt, mapIdx_nil,
      append_nil]
    exact ⟨h, hb, hcurr⟩
  · have hat' : AtNext seg start st' done' := by
      rcases hcase with ⟨rfl, rfl, rfl⟩ | ⟨-, hnext⟩
      · exact hat
      · exact .inl hnext
    obtain ⟨hwrite, hend⟩ := hinv.write_fitting seg hat' hfit
    exact ⟨hwrite, .inr (hend (.inl hpos)), Nat.add_pos_right _ hpos⟩

/-- Copying the chunks of a record places its bytes and ends behind the last one. -/
theorem copyChunks_spec (writeLen : ℕ) (rdata : List (List UInt8)) (h : CopyInv seg start st done)
    (hb : BetweenChunks seg start st done) (hcurr : 0 < st.currPos) :
    ∃ st', rdata.foldlM (copyChunk seg writeLen) st = some st' ∧
      CopyInv seg start st' (done ++ rdata.flatten) ∧
      BetweenChunks seg start st' (done ++ rdata.flatten) := by
  induction rdata generalizing st done with
  | nil => exact ⟨st, rfl, by simpa using h, by simpa using hb⟩
  | cons data rdata ih =>
    obtain ⟨st₁, heq₁, h₁, hb₁, hcurr₁⟩ := copyChunk_spec seg writeLen data h hb hcurr
    obtain ⟨st', heq, h', hb'⟩ := ih h₁ hb₁ hcurr₁
    refine ⟨st', ?_, ?_, ?_⟩
    · simp [foldlM_cons, heq₁, heq]
    · simpa using h'
    · simpa using hb'

/-- Copying a whole record from a usable byte position on. -/
theorem copyRecord_spec (start : ℕ) (record : XLogRecord) :
    ∃ st, record.rdata.foldlM (copyChunk seg record.bytes.length)
        ⟨xlogBytePosToRecPtr seg start, insertFreespace (xlogBytePosToRecPtr seg start),
          0, [], []⟩ = some st ∧
      CopyInv seg start st record.bytes ∧
      st.currPos = xlogBytePosToEndRecPtr seg (start + record.bytes.length) := by
  have hmod := xlogBytePosToRecPtr_mod seg start
  have hpage : (xlogBytePosToRecPtr seg start - 1) / XLOG_BLCKSZ =
      xlogBytePosToRecPtr seg start / XLOG_BLCKSZ := by
    simp only [page_sizes] at hmod ⊢
    omega
  have hinit : CopyInv seg start ⟨xlogBytePosToRecPtr seg start,
      insertFreespace (xlogBytePosToRecPtr seg start), 0, [], []⟩ [] := by
    refine ⟨rfl, rfl, rfl, Nat.le_of_eq hpage.symm, ?_⟩
    · rw [hpage, pageStarts, Nat.sub_self]
      rfl
  obtain ⟨st, heq, hinv, hb⟩ := copyChunks_spec seg record.bytes.length record.rdata
    hinit (.inl ⟨rfl, rfl⟩) (xlogBytePosToRecPtr_pos seg start)
  rw [nil_append] at hinv hb
  refine ⟨st, heq, hinv, ?_⟩
  rcases hb with ⟨hempty, -⟩ | hb
  · have hsize := record.size_le
    rw [hempty] at hsize
    exact absurd hsize (by decide)
  · exact hb

theorem xlogBytePosToRecPtr_strictMono : StrictMono (xlogBytePosToRecPtr seg) :=
  strictMono_nat_of_lt_succ fun bytepos => by
    have hnext := xlogBytePosToRecPtr_eq_add seg (bytepos + 1)
    rw [xlogBytePosToEndRecPtr_succ] at hnext
    omega

theorem xlogBytePosToRecPtr_lt_end (bytepos : ℕ) {n : ℕ} (hn : 0 < n) :
    xlogBytePosToRecPtr seg bytepos < xlogBytePosToEndRecPtr seg (bytepos + n) := by
  obtain ⟨m, rfl⟩ := Nat.exists_eq_add_one.mpr hn
  rw [← add_assoc, xlogBytePosToEndRecPtr_succ]
  exact Nat.lt_succ_of_le ((xlogBytePosToRecPtr_strictMono seg).monotone (Nat.le_add_right _ _))

/-- The header of the page that a position is on. -/
def pageHeader (ptr : ℕ) : ℕ :=
  if seg.offset ptr < XLOG_BLCKSZ then sizeOfXLogLongPHD else sizeOfXLogShortPHD

theorem pageHeader_eq (fullsegs : ℕ) {offset : ℕ} (h : offset < seg.bytes) :
    pageHeader seg (fullsegs * seg.bytes + offset) =
      if offset < XLOG_BLCKSZ then sizeOfXLogLongPHD else sizeOfXLogShortPHD := by
  rw [pageHeader, seg.offset_eq_mod, Nat.mul_add_mod_self_right, Nat.mod_eq_of_lt h]

/-- As many usable bytes are in front as whole pages of the segment hold. -/
def AtPageBoundary (bytepos : ℕ) : Prop :=
  bytepos % seg.usableBytes = 0 ∨
    ∃ pages, bytepos % seg.usableBytes = XLOG_BLCKSZ - sizeOfXLogLongPHD + pages * usableBytesInPage

/-- For every segment size, both conversions of usable byte positions are inverted by
`XLogRecPtrToBytePos` and are strictly increasing. A position is never in a page header, that of an
end can be in front of one, and the two conversions differ exactly at page boundaries. Below `2^64`
no operation of the code wraps around. -/
theorem byte_positions_convert :
    (∀ b, xlogRecPtrToBytePos seg (xlogBytePosToRecPtr seg b) = b ∧
      xlogRecPtrToBytePos seg (xlogBytePosToEndRecPtr seg b) = b) ∧
      StrictMono (xlogBytePosToRecPtr seg) ∧ StrictMono (xlogBytePosToEndRecPtr seg) ∧
      (∀ b, pageHeader seg (xlogBytePosToRecPtr seg b) ≤ xlogBytePosToRecPtr seg b % XLOG_BLCKSZ ∧
        (xlogBytePosToEndRecPtr seg b % XLOG_BLCKSZ = 0 ∨
          pageHeader seg (xlogBytePosToEndRecPtr seg b) ≤
            xlogBytePosToEndRecPtr seg b % XLOG_BLCKSZ)) ∧
      ∀ b, xlogBytePosToRecPtr seg b ≠ xlogBytePosToEndRecPtr seg b ↔ AtPageBoundary seg b := by
  refine ⟨fun b => ?_, xlogBytePosToRecPtr_strictMono seg, strictMono_nat_of_lt_succ fun b => ?_,
    fun b => ?_, fun b => ?_⟩
  · obtain ⟨fullsegs, r, hr, rfl⟩ := exists_segment seg b
    have hlt := segOffset_lt seg hr
    rw [xlogBytePosToRecPtr_eq seg fullsegs hr, xlogBytePosToEndRecPtr_eq seg fullsegs hr]
    exact ⟨xlogRecPtrToBytePos_eq seg fullsegs hlt (.inl rfl),
      xlogRecPtrToBytePos_eq seg fullsegs ((segEndOffset_le_segOffset r).trans_lt hlt) (.inr rfl)⟩
  · rw [xlogBytePosToEndRecPtr_succ, xlogBytePosToRecPtr_eq_add]
    exact Nat.lt_succ_of_le (Nat.le_add_right _ _)
  · obtain ⟨fullsegs, r, hr, rfl⟩ := exists_segment seg b
    have hlt := segOffset_lt seg hr
    rw [xlogBytePosToRecPtr_eq seg fullsegs hr, xlogBytePosToEndRecPtr_eq seg fullsegs hr,
      pageHeader_eq seg fullsegs hlt,
      pageHeader_eq seg fullsegs ((segEndOffset_le_segOffset r).trans_lt hlt),
      seg.mul_add_mod_blcksz, seg.mul_add_mod_blcksz]
    simp only [segOffset_eq, page_sizes]
    constructor
    · split_ifs <;> omega
    · cases r with
      | zero => exact .inl rfl
      | succ r =>
        simp only [segEndOffset_succ, segOffset_eq, page_sizes]
        split_ifs <;> omega
  · obtain ⟨fullsegs, r, hr, rfl⟩ := exists_segment seg b
    rw [AtPageBoundary, xlogBytePosToRecPtr_eq seg fullsegs hr,
      xlogBytePosToEndRecPtr_eq seg fullsegs hr, Nat.mul_add_mod_self_right, Nat.mod_eq_of_lt hr]
    simp only [segOffset_eq, page_sizes]
    cases r with
    | zero => exact iff_of_true (by rw [segEndOffset_zero]; omega) (.inl rfl)
    | succ r =>
      simp only [segEndOffset_succ, segOffset_eq, page_sizes]
      constructor
      · intro hne
        exact .inr ⟨(r - 8151) / 8168, by omega⟩
      · rintro (hzero | ⟨pages, hpages⟩)
        · cases hzero
        · omega

/-- Going page by page reaches a page boundary ahead. -/
theorem skipPages_eq (endPos currPos : ℕ) (hend : endPos % XLOG_BLCKSZ = 0)
    (hcurr : currPos % XLOG_BLCKSZ = 0) (hle : currPos ≤ endPos) :
    skipPages endPos currPos = endPos := by
  fun_induction skipPages endPos currPos with
  | case1 currPos hlt ih =>
    simp only [page_sizes] at hend hcurr ih
    exact ih (by omega) (by omega)
  | case2 currPos hge => omega

/-- The usable byte position of a segment boundary. -/
theorem segment_boundary (fullsegs : ℕ) :
    xlogRecPtrToBytePos seg (fullsegs * seg.bytes) = fullsegs * seg.usableBytes ∧
      xlogBytePosToEndRecPtr seg (fullsegs * seg.usableBytes) = fullsegs * seg.bytes := by
  constructor
  · exact xlogRecPtrToBytePos_eq seg fullsegs (Nat.two_pow_pos _) (.inr segEndOffset_zero.symm)
  · have h := xlogBytePosToEndRecPtr_eq seg fullsegs seg.usableBytes_pos
    rwa [segEndOffset_zero, Nat.add_zero, Nat.add_zero] at h

/-- The end of the reserved space of an xlog-switch record that ends at `recordEnd`: the next
segment boundary. -/
def NextBoundary (recordEnd endPos : ℕ) : Prop :=
  endPos % seg.bytes = 0 ∧ recordEnd ≤ endPos ∧ endPos < recordEnd + seg.bytes

/-- What a reservation gives: it starts at the current position and ends where the next one starts,
right behind the record, or at the segment boundary for an xlog-switch. -/
theorem reserveFor_spec (haligned : insert.currBytePos % 8 = 0)
    (h : reserveFor seg insert record = some (reserved, insert')) :
    reserved.startPos = xlogBytePosToRecPtr seg insert.currBytePos ∧
    reserved.endPos = xlogBytePosToEndRecPtr seg insert'.currBytePos ∧
    insert'.currBytePos % 8 = 0 ∧
    (record.isSwitch = false → reserved.endPos =
      xlogBytePosToEndRecPtr seg (insert.currBytePos + maxalign record.bytes.length)) ∧
    (record.isSwitch = true → NextBoundary seg
      (xlogBytePosToEndRecPtr seg (insert.currBytePos + record.bytes.length)) reserved.endPos) := by
  have haligned' : ∀ n, (insert.currBytePos + maxalign n) % 8 = 0 := by
    intro n
    unfold maxalign
    omega
  unfold reserveFor at h
  split_ifs at h with hswitch
  · have hsize : record.bytes.length = sizeOfXLogRecord := record.switch_size hswitch
    have hmax : maxalign sizeOfXLogRecord = sizeOfXLogRecord := rfl
    have hpos : 0 < seg.bytes := Nat.two_pow_pos _
    simp only [reserveXLogSwitch, hmax, seg.offset_eq_mod] at h
    rw [hsize]
    generalize he : xlogBytePosToEndRecPtr seg (insert.currBytePos + sizeOfXLogRecord) = e at h ⊢
    split_ifs at h with hstart hleft
    · -- the rest of the segment is consumed
      obtain ⟨rfl, rfl⟩ := h
      have hdiv := Nat.div_add_mod e seg.bytes
      have hlt := Nat.mod_lt e hpos
      have hend : e + (seg.bytes - e % seg.bytes) = (e / seg.bytes + 1) * seg.bytes := by
        rw [Nat.add_one_mul, mul_comm]
        omega
      obtain ⟨hback, hforth⟩ := segment_boundary seg (e / seg.bytes + 1)
      rw [hend, hback]
      refine ⟨rfl, hforth.symm, seg.mul_usableBytes_mod_eight _, by simp [hswitch], fun _ => ?_⟩
      refine ⟨Nat.mul_mod_left _ _, ?_, ?_⟩
      · show e ≤ (e / seg.bytes + 1) * seg.bytes
        omega
      · show (e / seg.bytes + 1) * seg.bytes < e + seg.bytes
        omega
    · -- the record ends at the segment boundary
      obtain ⟨rfl, rfl⟩ := h
      refine ⟨rfl, he.symm, haligned' sizeOfXLogRecord, by simp [hswitch],
        fun _ => ⟨?_, Nat.le_refl e, ?_⟩⟩
      · show e % seg.bytes = 0
        omega
      · show e < e + seg.bytes
        omega
  · obtain ⟨rfl, rfl⟩ := h
    exact ⟨rfl, rfl, haligned' _, fun _ => rfl, fun hs => absurd hs hswitch⟩

/-- The copy ends where the reserved space ends, with every byte of the record at its place and
every page header on the way skipped once. -/
structure InsertedOk (ins : Inserted) : Prop where
  nonempty : ins.reserved.startPos < ins.reserved.endPos
  startPos : ins.reserved.startPos = xlogBytePosToRecPtr seg ins.start
  endPos : ins.copied.currPos = ins.reserved.endPos
  writes : ins.copied.writes = placed seg ins.start ins.record.bytes
  headers : ins.copied.headers.map Prod.fst = pageStarts (ins.reserved.startPos / XLOG_BLCKSZ)
    ((xlogBytePosToEndRecPtr seg (ins.start + ins.record.bytes.length) - 1) / XLOG_BLCKSZ)
  switch : ins.record.isSwitch = true → NextBoundary seg
    (xlogBytePosToEndRecPtr seg (ins.start + ins.record.bytes.length)) ins.reserved.endPos

/-- The copy of a record fills exactly what was reserved for it. -/
theorem copyXLogRecordToWAL_spec (haligned : insert.currBytePos % 8 = 0)
    (h : reserveFor seg insert record = some (reserved, insert')) :
    ∃ copied, copyXLogRecordToWAL seg record.bytes.length record.isSwitch record.rdata
        reserved.startPos reserved.endPos = some copied ∧
      InsertedOk seg ⟨record, insert.currBytePos, reserved, copied⟩ := by
  obtain ⟨hstart, hend, -, hnormal, hswitch⟩ := reserveFor_spec seg haligned h
  obtain ⟨st, heq, hinv, hpos⟩ := copyRecord_spec seg insert.currBytePos record
  have hlen : 0 < record.bytes.length := Nat.lt_of_lt_of_le (by decide) record.size_le
  have hlt := xlogBytePosToRecPtr_lt_end seg insert.currBytePos hlen
  have halign := maxalign_xlogBytePosToEndRecPtr seg insert.currBytePos record.bytes.length haligned
  -- the position that the copy ends at
  have hreach : (if record.isSwitch ∧ seg.offset st.currPos ≠ 0 then
      skipPages reserved.endPos (st.currPos + st.freespace) else maxalign st.currPos) =
      reserved.endPos := by
    by_cases hs : record.isSwitch = true
    · obtain ⟨hboundary, hle, hlt'⟩ := hswitch hs
      rw [← hpos] at hle hlt'
      rw [seg.offset_eq_mod]
      by_cases hoff : st.currPos % seg.bytes = 0
      · -- the record ends at the boundary itself
        have hsame : maxalign record.bytes.length = record.bytes.length := by
          rw [show record.bytes.length = sizeOfXLogRecord from record.switch_size hs]
          rfl
        rw [if_neg (by simp [hoff]), hpos, halign, hsame, ← hpos]
        have hdvd := Nat.dvd_sub (Nat.dvd_of_mod_eq_zero hboundary) (Nat.dvd_of_mod_eq_zero hoff)
        have hzero := Nat.eq_zero_of_dvd_of_lt hdvd (by omega)
        omega
      · rw [if_pos ⟨hs, hoff⟩]
        obtain ⟨pages, -, hpages, -, -⟩ := seg.pages_spec
        have hpage : reserved.endPos % XLOG_BLCKSZ = 0 := by
          rw [← Nat.div_add_mod reserved.endPos seg.bytes, hboundary, hpages, mul_assoc,
            add_zero, Nat.mul_mod_right]
        apply skipPages_eq _ _ hpage
        all_goals
          simp only [hinv.free, insertFreespace, page_sizes] at hpage ⊢
          split_ifs <;> omega
    · rw [if_neg (by simp [hs]), hpos, halign, hnormal (by simpa using hs)]
  refine ⟨{ st with currPos := reserved.endPos }, ?_, ?_⟩
  · rw [copyXLogRecordToWAL, hstart, heq]
    simp only [bind_eq_bind, bind_some, hreach, ne_eq, not_true_eq_false, if_false]
  · refine ⟨?_, hstart, rfl, hinv.writes, ?_, hswitch⟩
    · rw [hstart]
      by_cases hs : record.isSwitch = true
      · exact Nat.lt_of_lt_of_le hlt (hswitch hs).2.1
      · rw [hnormal (by simpa using hs)]
        apply xlogBytePosToRecPtr_lt_end
        unfold maxalign
        omega
    · rw [hstart, ← hpos]
      exact hinv.headers

/-- Two records are adjacent: between the end of the first and the start of the second is at most
the header of the page that the second starts on. -/
def Adjacent (first second : Inserted) : Prop :=
  second.reserved.startPos = first.reserved.endPos + headerAt seg first.reserved.endPos

/-- A run of insertions: each record fills what was reserved for it, the next one starts where it
ends, and all later ones lie behind it. -/
theorem insertRecords_run (insert : XLogCtlInsert) (records : List XLogRecord)
    (haligned : insert.currBytePos % 8 = 0) :
    ∃ inserted last, insertRecords seg insert records = some (inserted, last) ∧
      (∀ ins ∈ inserted, InsertedOk seg ins) ∧
      (∀ ins ∈ inserted.head?, ins.start = insert.currBytePos) ∧
      inserted.IsChain (Adjacent seg) ∧
      (∀ ins ∈ inserted, xlogBytePosToRecPtr seg insert.currBytePos ≤ ins.reserved.startPos) ∧
      inserted.Pairwise fun a b => a.reserved.endPos ≤ b.reserved.startPos := by
  induction records generalizing insert with
  | nil => exact ⟨[], insert, rfl, by simp⟩
  | cons record records ih =>
    rw [insertRecords]
    cases hres : reserveFor seg insert record with
    | none => exact ih insert haligned
    | some result =>
      obtain ⟨reserved, insert'⟩ := result
      obtain ⟨hstart, hend, haligned', -, -⟩ := reserveFor_spec seg haligned hres
      obtain ⟨copied, hcopy, hok⟩ := copyXLogRecordToWAL_spec seg haligned hres
      obtain ⟨others, last, heq, hothers, hhead, hchain, hafter, hdisjoint⟩ := ih insert' haligned'
      have hnext : reserved.endPos + headerAt seg reserved.endPos =
          xlogBytePosToRecPtr seg insert'.currBytePos := by
        rw [hend, ← xlogBytePosToRecPtr_eq_add]
      have hbehind : ∀ ins ∈ others, reserved.endPos ≤ ins.reserved.startPos := fun ins hins =>
        calc reserved.endPos ≤ reserved.endPos + headerAt seg reserved.endPos :=
          Nat.le_add_right _ _
          _ = xlogBytePosToRecPtr seg insert'.currBytePos := hnext
          _ ≤ ins.reserved.startPos := hafter ins hins
      refine ⟨⟨record, insert.currBytePos, reserved, copied⟩ :: others, last, ?_, ?_,
        ?_, ?_, ?_, ?_⟩
      · simp [hcopy, heq]
      · exact forall_mem_cons.mpr ⟨hok, hothers⟩
      · simp
      · cases others with
        | nil => exact List.IsChain.singleton _
        | cons ins others =>
          refine isChain_cons_cons.mpr ⟨?_, hchain⟩
          have hfirst := (hothers ins (by simp)).startPos
          rw [hhead ins (by simp)] at hfirst
          exact hfirst.trans hnext.symm
      · refine forall_mem_cons.mpr ⟨Nat.le_of_eq hstart.symm, fun ins hins => ?_⟩
        have hlt : reserved.startPos < reserved.endPos := hok.nonempty
        have hle := hbehind ins hins
        omega
      · exact pairwise_cons.mpr ⟨hbehind, hdisjoint⟩

/-- Segments of 16 megabytes. -/
def defaultSegmentSize : SegmentSize := ⟨24, by decide, by decide⟩

/-- A record of two chunks with 30 bytes in all. -/
def twoChunkRecord : XLogRecord :=
  ⟨[replicate sizeOfXLogRecord 0, replicate 6 1], false, by decide, by decide⟩

/-- An xlog-switch record. -/
def switchRecord : XLogRecord := ⟨[replicate sizeOfXLogRecord 0], true, by decide, by decide⟩

end PgAutoIndex.Transam
