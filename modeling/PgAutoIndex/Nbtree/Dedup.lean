import Mathlib.Algebra.BigOperators.Group.Finset.Basic
import PgAutoIndex.Gin.PostingList

/-!
# Deduplication of a B-tree leaf page

`_bt_dedup_pass` of `nbtdedup.c` and its replay, `btree_xlog_dedup` of `nbtxlog.c`. The pass walks
over the data items of a leaf page. Equal tuples that follow one another are merged into one posting
list tuple, as long as that stays below a limit; the other tuples are copied. The result goes to a
new page, and the groups that were merged are logged as intervals, each the offset of its first item
and the number of its items. The replay builds the page again from the old one and the intervals.

A page keeps as an invariant that its line pointers and tuples fit into the block. The tuples keep
their key attributes as values with decidable equality, which stands for `datum_image_eq`; the
alignment padding of their bytes is not modelled. The array `htids` is a list, and `intervals` is
the list of the finished intervals: the offset of the pending one is `baseoff`.
-/

namespace PgAutoIndex.Nbtree

open PgAutoIndex.Gin (ItemPointerData)

/-- `SizeOfPageHeaderData`. -/
def sizeOfPageHeaderData : ℕ := 24

/-- `sizeof(ItemIdData)`. -/
def sizeofItemIdData : ℕ := 4

/-- `sizeof(ItemPointerData)`. -/
def sizeofItemPointerData : ℕ := 6

/-- `MAXALIGN(sizeof(BTPageOpaqueData))`. -/
def sizeofOpaque : ℕ := 16

/-- `BTMaxItemSize`. -/
def BTMaxItemSize : ℕ :=
  (BLCKSZ - maxalign (sizeOfPageHeaderData + 3 * sizeofItemIdData) - sizeofOpaque) / 3 / 8 * 8 -
    maxalign sizeofItemPointerData

/-- `INDEX_SIZE_MASK`. -/
def INDEX_SIZE_MASK : ℕ := 0x1FFF

/-- `BTREE_SINGLEVAL_FILLFACTOR`. -/
def BTREE_SINGLEVAL_FILLFACTOR : ℕ := 96

/-- `BTP_HAS_GARBAGE`. -/
def BTP_HAS_GARBAGE : ℕ := 64

/-! ## Tuples -/

/-- The heap TIDs of a tuple. In a pivot tuple `t_tid` has another meaning. -/
inductive TupleTids where
  | plain (tid : ItemPointerData)
  | posting (offset : ℕ) (tids : List ItemPointerData)
  | pivot (tid : ItemPointerData)
deriving DecidableEq, Repr

/-- An index tuple: its key attributes, none for a null value, its size and its heap TIDs. -/
structure IndexTuple (D : Type) where
  attrs : List (Option D)
  size : ℕ
  tids : TupleTids
deriving DecidableEq, Repr

section

variable {D : Type}

/-- The heap TIDs that deduplication takes from a tuple. -/
def IndexTuple.heapTids (itup : IndexTuple D) : List ItemPointerData :=
  match itup.tids with
  | .plain tid => [tid]
  | .posting _ tids => tids
  | .pivot tid => [tid]

/-- The size of a tuple without its posting list. -/
def IndexTuple.keysize (itup : IndexTuple D) : ℕ :=
  match itup.tids with
  | .posting offset _ => offset
  | _ => itup.size

/-- The loop of `_bt_keep_natts_fast` over the key attributes. -/
def keepNattsLoop [DecidableEq D] : ℕ → List (Option D) → List (Option D) → ℕ
  | keysz + 1, a :: as, b :: bs => if a = b then keepNattsLoop keysz as bs + 1 else 1
  | _, _, _ => 1

/-- `_bt_keep_natts_fast`. -/
def keepNattsFast [DecidableEq D] (nkeyatts : ℕ) (lastleft firstright : IndexTuple D) : ℕ :=
  keepNattsLoop nkeyatts lastleft.attrs firstright.attrs

/-- `_bt_form_posting`. -/
def formPosting (base : IndexTuple D) (htids : List ItemPointerData) : IndexTuple D :=
  let keysize := base.keysize
  if htids.length > 1 then
    { base with
      size := maxalign (keysize + htids.length * sizeofItemPointerData)
      tids := .posting keysize htids }
  else { base with size := keysize, tids := (htids.head?.map TupleTids.plain).getD base.tids }

/-! ## Pages -/

/-- An item on a page: a tuple, and the length in its line pointer. -/
structure PageItem (D : Type) where
  tuple : IndexTuple D
  length : ℕ

/-- `BTPageOpaqueData`. -/
structure BTPageOpaqueData where
  btpoPrev : ℕ
  btpoNext : ℕ
  btpoLevel : ℕ
  btpoFlags : ℕ
  btpoCycleid : ℕ
deriving DecidableEq, Repr

/-- The bytes that items and their line pointers take. -/
def itemSpace (items : List (PageItem D)) : ℕ :=
  (items.map fun item => sizeofItemIdData + maxalign item.length).sum

/-- The bytes between the page header and the special space. -/
def pageSpace : ℕ := BLCKSZ - sizeOfPageHeaderData - sizeofOpaque

/-- A B-tree page, with its items in the order of their offset numbers. -/
structure Page (D : Type) where
  lsn : ℕ
  pdFlags : ℕ
  items : List (PageItem D)
  opaqueData : BTPageOpaqueData
  /-- `pd_lower` is not above `pd_upper`. -/
  fits : itemSpace items ≤ pageSpace

/-- `P_RIGHTMOST`. -/
def BTPageOpaqueData.isRightmost (o : BTPageOpaqueData) : Bool := o.btpoNext == 0

/-- `P_FIRSTDATAKEY`. -/
def BTPageOpaqueData.firstDataKey (o : BTPageOpaqueData) : ℕ := if o.isRightmost then 1 else 2

/-- The flag `BTP_HAS_GARBAGE` is cleared if it was set. -/
def BTPageOpaqueData.clearGarbage (o : BTPageOpaqueData) : BTPageOpaqueData :=
  if o.btpoFlags &&& BTP_HAS_GARBAGE ≠ 0 then
    { o with btpoFlags := o.btpoFlags &&& (0xFFFF - BTP_HAS_GARBAGE) }
  else o

/-- `PageGetTempPageCopySpecial`: a page without items and with the same special space. -/
def pageGetTempPageCopySpecial (page : Page D) : Page D where
  lsn := 0
  pdFlags := 0
  items := []
  opaqueData := page.opaqueData
  fits := Nat.zero_le _

/-- `PageAddItem` at an offset, none for `InvalidOffsetNumber`. -/
def pageAddItem (page : Page D) (tuple : IndexTuple D) (size offsetNumber : ℕ) : Option (Page D) :=
  let items := page.items.insertIdx (offsetNumber - 1) ⟨tuple, size⟩
  if offsetNumber > page.items.length + 1 then none
  else if h : itemSpace items ≤ pageSpace then some { page with items := items, fits := h }
    else none

/-! ## The working state -/

/-- `BTDedupInterval`. -/
structure BTDedupInterval where
  baseoff : ℕ
  nitems : ℕ
deriving DecidableEq, Repr

/-- `BTDedupStateData`. -/
structure BTDedupState (D : Type) where
  deduplicate : Bool
  nmaxitems : ℕ
  maxpostingsize : ℕ
  base : Option (IndexTuple D)
  baseoff : ℕ
  basetupsize : ℕ
  htids : List ItemPointerData
  nitems : ℕ
  phystupsize : ℕ
  intervals : List BTDedupInterval

/-- The state that both the pass and the replay start from, with their limits on the size of a
posting list. -/
def initialState (maxpostingsize : ℕ) : BTDedupState D where
  deduplicate := true
  nmaxitems := 0
  maxpostingsize := maxpostingsize
  base := none
  baseoff := 0
  basetupsize := 0
  htids := []
  nitems := 0
  phystupsize := 0
  intervals := []

/-- The errors of the pass and of the replay. `nullBase` stands for the null pointer that is
followed when the page has no data item. -/
inductive DedupError where
  /-- deduplication failed to add highkey -/
  | addHighkey
  /-- deduplication failed to add tuple to page -/
  | addTuple
  /-- deduplication failed to add heap tid to pending posting list -/
  | addHeapTid
  | nullBase
deriving DecidableEq, Repr

/-- The value, or the error that stands for its lack. -/
def orError {α : Type} (e : DedupError) : Option α → Except DedupError α
  | none => .error e
  | some a => .ok a

/-- `_bt_dedup_start_pending`. -/
def dedupStartPending (state : BTDedupState D) (base : IndexTuple D) (baseoff : ℕ) :
    BTDedupState D :=
  { state with
    htids := base.heapTids
    basetupsize := base.keysize
    nitems := 1
    base := some base
    baseoff := baseoff
    phystupsize := maxalign base.size + sizeofItemIdData }

/-- `_bt_dedup_save_htid`. -/
def dedupSaveHtid (state : BTDedupState D) (itup : IndexTuple D) : Bool × BTDedupState D :=
  let htids := itup.heapTids
  let mergedtupsz := maxalign
    (state.basetupsize + (state.htids.length + htids.length) * sizeofItemPointerData)
  if mergedtupsz > state.maxpostingsize then
    (false, if state.htids.length > 50 then { state with nmaxitems := state.nmaxitems + 1 }
      else state)
  else
    (true, { state with
      nitems := state.nitems + 1
      htids := state.htids ++ htids
      phystupsize := state.phystupsize + (maxalign itup.size + sizeofItemIdData) })

/-- The end of `_bt_dedup_finish_pending`: the pending posting list is reset. -/
def dedupResetPending (state : BTDedupState D) (intervals : List BTDedupInterval) :
    BTDedupState D :=
  { state with htids := [], nitems := 0, phystupsize := 0, intervals := intervals }

/-- `_bt_dedup_finish_pending`. The number of items is stored in 16 bits. -/
def dedupFinishPending (newpage : Page D) (state : BTDedupState D) :
    Except DedupError (Page D × BTDedupState D) :=
  match state.base with
  | none => .error .nullBase
  | some base =>
    let tupoff := newpage.items.length + 1
    if state.nitems = 1 then do
      -- The base tuple is used unchanged.
      let newpage ← orError .addTuple (pageAddItem newpage base base.size tupoff)
      .ok (newpage, dedupResetPending state state.intervals)
    else do
      let final := formPosting base state.htids
      let newpage ← orError .addTuple (pageAddItem newpage final final.size tupoff)
      .ok (newpage,
        dedupResetPending state (state.intervals ++ [⟨state.baseoff, state.nitems % 2^16⟩]))

/-! ## The pass -/

/-- `_bt_do_singleval`. -/
def doSingleval [DecidableEq D] (nkeyatts : ℕ) (page : Page D) (minoff : ℕ)
    (newitem : IndexTuple D) : Bool :=
  match page.items[minoff - 1]?, page.items[page.items.length - 1]? with
  | some first, some last =>
    keepNattsFast nkeyatts newitem first.tuple >
      nkeyatts && keepNattsFast nkeyatts newitem last.tuple > nkeyatts
  | _, _ => false

/-- `_bt_singleval_fillfactor`. -/
def singlevalFillfactor (state : BTDedupState D) (newitemsz : ℕ) : BTDedupState D :=
  let leftfree := BLCKSZ - sizeOfPageHeaderData - sizeofOpaque
  let leftfree := (leftfree + 2^64 - (newitemsz + maxalign sizeofItemPointerData)) % 2^64
  let reduction := leftfree * (100 - BTREE_SINGLEVAL_FILLFACTOR) / 100
  { state with
    maxpostingsize :=
      if state.maxpostingsize > reduction then state.maxpostingsize - reduction else 0 }

/-- The extra steps of the single value strategy, after a pending posting list was finished: whether
the strategy goes on, and the state. -/
def singlevalSteps (newitemsz : ℕ) (singlevalstrat : Bool) (state : BTDedupState D) :
    Bool × BTDedupState D :=
  if singlevalstrat then
    if state.nmaxitems = 5 then (true, singlevalFillfactor state newitemsz)
    else if state.nmaxitems = 6 then (false, { state with deduplicate := false })
    else (true, state)
  else (false, state)

/-- Whether the pass merges a tuple into the pending posting list, with the state that
`_bt_dedup_save_htid` leaves when it was asked. -/
def tryMerge [DecidableEq D] (nkeyatts : ℕ) (state : BTDedupState D) (itup : IndexTuple D) :
    Bool × BTDedupState D :=
  match state.base with
  | none => (false, state)
  | some base =>
    if state.deduplicate && keepNattsFast nkeyatts base itup > nkeyatts
      then dedupSaveHtid state itup
    else (false, state)

/-- The loop of `_bt_dedup_pass` behind the first data item. -/
def dedupLoop [DecidableEq D] (nkeyatts newitemsz : ℕ) :
    ℕ → List (PageItem D) → Bool → Page D → BTDedupState D →
    Except DedupError (Page D × BTDedupState D)
  | _, [], _, newpage, state => .ok (newpage, state)
  | offnum, item :: rest, singlevalstrat, newpage, state =>
    let (merged, state) := tryMerge nkeyatts state item.tuple
    if merged then dedupLoop nkeyatts newitemsz (offnum + 1) rest singlevalstrat newpage state
    else do
      let (newpage, state) ← dedupFinishPending newpage state
      let (singlevalstrat, state) := singlevalSteps newitemsz singlevalstrat state
      dedupLoop nkeyatts newitemsz (offnum + 1) rest singlevalstrat newpage
        (dedupStartPending state item.tuple offnum)

/-- The new page with the high key of the old one, if there is one. -/
def copyHighKey (page : Page D) : Except DedupError (Page D) :=
  let newpage := pageGetTempPageCopySpecial page
  if page.opaqueData.isRightmost then .ok newpage
  else
    match page.items with
    | [] => .error .nullBase
    | hikey :: _ => orError .addHighkey (pageAddItem newpage hikey.tuple hikey.length 1)

/-- The first data item of a page, which starts the first pending posting list, and the others. -/
def dataItems (page : Page D) : Option (PageItem D × List (PageItem D)) :=
  match page.items.drop (page.opaqueData.firstDataKey - 1) with
  | [] => none
  | first :: rest => some (first, rest)

/-- The record that is logged: the intervals, and their number in 16 bits. -/
structure XlBtreeDedup where
  nintervals : ℕ
  intervals : List BTDedupInterval
deriving DecidableEq, Repr

/-- The page that is restored: its flag is cleared and its LSN is set. -/
def restorePage (newpage : Page D) (lsn : ℕ) : Page D :=
  { newpage with opaqueData := newpage.opaqueData.clearGarbage, lsn := lsn }

/-- `_bt_dedup_pass`: the page and the record logged, or none when nothing was merged. `recptr` is
the position that `XLogInsert` returns. -/
def dedupPass [DecidableEq D] (nkeyatts : ℕ) (page : Page D) (newitem : IndexTuple D)
    (newitemsz : ℕ)
    (bottomupdedup : Bool) (recptr : ℕ) : Except DedupError (Option (Page D × XlBtreeDedup)) := do
  let newitemsz := newitemsz + sizeofItemIdData
  let state : BTDedupState D := initialState (min (BTMaxItemSize / 2) INDEX_SIZE_MASK)
  let minoff := page.opaqueData.firstDataKey
  let singlevalstrat := !bottomupdedup && doSingleval nkeyatts page minoff newitem
  let newpage ← copyHighKey page
  let (first, rest) ← orError .nullBase (dataItems page)
  let (newpage, state) ← dedupLoop nkeyatts newitemsz (minoff + 1) rest singlevalstrat
    { newpage with lsn := page.lsn } (dedupStartPending state first.tuple minoff)
  -- The last item.
  let (newpage, state) ← dedupFinishPending newpage state
  if state.intervals.length = 0 then .ok none
  else .ok (some (restorePage newpage recptr, ⟨state.intervals.length % 2^16, state.intervals⟩))

/-! ## The replay -/

/-- The loop of `btree_xlog_dedup` behind the first data item. -/
def redoLoop (xlrec : XlBtreeDedup) :
    ℕ → List (PageItem D) → Page D → BTDedupState D → Except DedupError (Page D × BTDedupState D)
  | _, [], newpage, state => .ok (newpage, state)
  | offnum, item :: rest, newpage, state =>
    if state.intervals.length < xlrec.nintervals ∧
        (xlrec.intervals[state.intervals.length]?.map (·.baseoff)) = some state.baseoff ∧
        state.nitems < (xlrec.intervals[state.intervals.length]?.map (·.nitems)).getD 0 then
      let (saved, state) := dedupSaveHtid state item.tuple
      if saved then redoLoop xlrec (offnum + 1) rest newpage state else .error .addHeapTid
    else do
      let (newpage, state) ← dedupFinishPending newpage state
      redoLoop xlrec (offnum + 1) rest newpage (dedupStartPending state item.tuple offnum)

/-- `btree_xlog_dedup`, for a page that needs redo: the page and the final working state. -/
def btreeXlogDedup (page : Page D) (xlrec : XlBtreeDedup) (lsn : ℕ) :
    Except DedupError (Page D × BTDedupState D) := do
  let state : BTDedupState D := initialState BTMaxItemSize
  let minoff := page.opaqueData.firstDataKey
  let newpage ← copyHighKey page
  let (first, rest) ← orError .nullBase (dataItems page)
  let (newpage, state) ← redoLoop xlrec (minoff + 1) rest newpage
    (dedupStartPending state first.tuple minoff)
  let (newpage, state) ← dedupFinishPending newpage state
  .ok (restorePage newpage lsn, state)

end

end PgAutoIndex.Nbtree
