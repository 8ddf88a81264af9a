import PgAutoIndex.Freespace.FsmPage

/-!
# The free space map

Model of `src/backend/storage/freespace/freespace.c`, for one backend: no other backend moves a page
under the search, and the hints are always written. The pages of the map form a tree of three
levels. A slot of a bottom page holds the category of a heap block, a slot of an upper page the root
of the page below it. A page is found by its address, its level and its number on the level; in the
file the tree is stored in depth-first order.

The second half of the module says where the pages lie: different addresses are different blocks, a
page lies before those below it and before those to its right.
-/

namespace PgAutoIndex.Freespace

/-! ## Categories -/

/-- `FSM_CAT_STEP`. -/
def fsmCatStep : ℕ := BLCKSZ / 256

/-- `MaxFSMRequestSize`, which is `MaxHeapTupleSize`: a page without its header and one line
pointer. -/
def maxFSMRequestSize : ℕ := BLCKSZ - 32

/-- `fsm_space_cat_to_avail`. -/
def fsmSpaceCatToAvail (cat : Fin 256) : ℕ :=
  if cat = 255 then maxFSMRequestSize else cat * fsmCatStep

/-- `fsm_space_needed_to_cat`. -/
def fsmSpaceNeededToCat (needed : ℕ) : Except String (Fin 256) :=
  if needed > maxFSMRequestSize then .error ("invalid FSM request size " ++ toString needed)
  else if needed = 0 then .ok 1
  else
    let cat := (needed + fsmCatStep - 1) / fsmCatStep
    if cat > 255 then .ok 255 else .ok (Fin.ofNat 256 cat)

/-! ## Addresses -/

/-- `InvalidBlockNumber`. -/
def invalidBlockNumber : ℕ := 2^32 - 1

/-- `FSM_TREE_DEPTH`. -/
def fsmTreeDepth : ℕ := if slotsPerFSMPage ≥ 1626 then 3 else 4

/-- `FSM_ROOT_LEVEL`. -/
def fsmRootLevel : ℕ := fsmTreeDepth - 1

/-- `FSM_BOTTOM_LEVEL`. -/
def fsmBottomLevel : ℕ := 0

/-- `FSMAddress`: the level of a page, and its number on the level. -/
structure FSMAddress where
  level : ℕ
  logpageno : ℕ
deriving DecidableEq

/-- `FSM_ROOT_ADDRESS`. -/
def fsmRootAddress : FSMAddress := ⟨fsmRootLevel, 0⟩

/-- `fsm_logical_to_physical`. -/
def fsmLogicalToPhysical (addr : FSMAddress) : ℕ :=
  let leafno := Nat.iterate (· * slotsPerFSMPage) addr.level addr.logpageno
  let counted :=
    Nat.iterate (fun (acc : ℕ × ℕ) => (acc.1 + (acc.2 + 1), acc.2 / slotsPerFSMPage)) fsmTreeDepth
      (0, leafno)
  counted.1 - addr.level - 1

/-- `fsm_get_location`. -/
def fsmGetLocation (heapblk : ℕ) : FSMAddress × ℕ :=
  (⟨fsmBottomLevel, heapblk / slotsPerFSMPage⟩, heapblk % slotsPerFSMPage)

/-- `fsm_get_heap_blk`. A block number has 32 bits. -/
def fsmGetHeapBlk (addr : FSMAddress) (slot : ℕ) : ℕ :=
  (addr.logpageno * slotsPerFSMPage + slot) % 2^32

/-- `fsm_get_parent`. -/
def fsmGetParent (child : FSMAddress) : FSMAddress × ℕ :=
  (⟨child.level + 1, child.logpageno / slotsPerFSMPage⟩, child.logpageno % slotsPerFSMPage)

/-- `fsm_get_child`. -/
def fsmGetChild (parent : FSMAddress) (slot : ℕ) : FSMAddress :=
  ⟨parent.level - 1, parent.logpageno * slotsPerFSMPage + slot⟩

/-! ## The relation -/

/-- What the code knows of a relation: the number of its heap blocks and the pages of its free space
map. -/
structure Rel where
  nblocks : ℕ
  fsm : List FSMPage
  /-- Every heap block has a block number. -/
  nblocks_le : nblocks ≤ invalidBlockNumber

/-- `fsm_readbuf` without `extend`. -/
def fsmReadbuf (rel : Rel) (addr : FSMAddress) : Option FSMPage :=
  rel.fsm[fsmLogicalToPhysical addr]?

/-- `fsm_extend`: add pages of zeros until the map has `fsmNblocks` pages. -/
def fsmExtend (rel : Rel) (fsmNblocks : ℕ) : Rel :=
  { rel with fsm := rel.fsm ++ List.replicate (fsmNblocks - rel.fsm.length) FSMPage.zero }

/-- Change the page at an address. -/
def Rel.modify (rel : Rel) (addr : FSMAddress) (f : FSMPage → FSMPage) : Rel :=
  { rel with fsm := List.modify rel.fsm (fsmLogicalToPhysical addr) f }

/-- `fsm_does_block_exist`. -/
def fsmDoesBlockExist (rel : Rel) (blknumber : ℕ) : Bool := blknumber < rel.nblocks

/-- `GetRecordedFreeSpace`. -/
def getRecordedFreeSpace (rel : Rel) (heapBlk : ℕ) : ℕ :=
  let (addr, slot) := fsmGetLocation heapBlk
  match fsmReadbuf rel addr with
  | none => 0
  | some page => fsmSpaceCatToAvail (fsmGetAvail page slot)

/-- `fsm_set_and_search` without a search (`minValue` zero), as `fsm_search` calls it. -/
def fsmSetAndSearch (rel : Rel) (addr : FSMAddress) (slot : ℕ) (newValue : Fin 256) : Rel :=
  -- The page is read with `extend`.
  let rel := fsmExtend rel (fsmLogicalToPhysical addr + 1)
  rel.modify addr (fsmSetAvail · slot newValue)

/-! ## The search -/

/-- What a round of the loop of `fsm_search` leads to: a block number to return, or another round.
-/
inductive SearchStep where
  | done (blkno : ℕ) (rel : Rel)
  | next (restarts : ℕ) (addr : FSMAddress) (rel : Rel)

/-- The branch of `fsm_search` for a page that has no slot with enough space; `maxAvail` is what it
has. -/
def searchFailed (restarts : ℕ) (addr : FSMAddress) (maxAvail : Fin 256) (rel : Rel) : SearchStep :=
  if addr.level = fsmRootLevel then .done invalidBlockNumber rel
  else
    let (parent, parentslot) := fsmGetParent addr
    let rel := fsmSetAndSearch rel parent parentslot maxAvail
    if restarts > 10000 then .done invalidBlockNumber rel
    else .next (restarts + 1) fsmRootAddress rel

/-- The branch of `fsm_search` for a page that has a slot with enough space. -/
def searchFound (restarts : ℕ) (addr : FSMAddress) (slot : ℕ) (rel : Rel) : SearchStep :=
  if addr.level = fsmBottomLevel then
    let blkno := fsmGetHeapBlk addr slot
    if fsmDoesBlockExist rel blkno then .done blkno rel
    else
      let rel := rel.modify addr (fsmSetAvail · slot 0)
      if restarts > 10000 then .done invalidBlockNumber rel
      -- The address is set to the root, and then the code falls through to the step down from
      -- there, with
      -- the slot of the bottom page.
      else .next (restarts + 1) (fsmGetChild fsmRootAddress slot) rel
  else .next restarts (fsmGetChild addr slot) rel

/-- A round of the loop of `fsm_search`. A page is searched at most twice: it is rebuilt after the
first time. -/
def searchStep (minCat : Fin 256) (restarts : ℕ) (addr : FSMAddress) (rel : Rel) :
    Option SearchStep :=
  match fsmReadbuf rel addr with
  | none => some (searchFailed restarts addr 0 rel)
  | some page =>
    match fsmSearchAvail minCat (addr.level = fsmBottomLevel) 2 page with
    | none => none
    | some (found, page') =>
      let rel := rel.modify addr fun _ => page'
      match found with
      | none => some (searchFailed restarts addr (fsmGetMaxAvail page') rel)
      | some slot => some (searchFound restarts addr slot rel)

/-- The loop of `fsm_search`. -/
def searchLoop (minCat : Fin 256) : ℕ → ℕ → FSMAddress → Rel → Option (ℕ × Rel)
  | 0, _, _, _ => none
  | fuel + 1, restarts, addr, rel =>
    match searchStep minCat restarts addr rel with
    | none => none
    | some (.done blkno rel) => some (blkno, rel)
    | some (.next restarts addr rel) => searchLoop minCat fuel restarts addr rel

/-- `fsm_search`. Each of the 10001 restarts goes down three levels. -/
def fsmSearch (rel : Rel) (minCat : Fin 256) : Option (ℕ × Rel) :=
  searchLoop minCat (3 * 10001 + 3) 0 fsmRootAddress rel

/-- `GetPageWithFreeSpace`: the block number and the relation after the search. -/
def getPageWithFreeSpace (rel : Rel) (spaceNeeded : ℕ) : Except String (Option (ℕ × Rel)) :=
  match fsmSpaceNeededToCat spaceNeeded with
  | .error message => .error message
  | .ok minCat => .ok (fsmSearch rel minCat)

/-! ## The vacuum -/

/-- The loop of `fsm_vacuum_page` that finds the page and the slot of a heap block on a level. -/
def fsmLocationAt (heapblk : ℕ) : ℕ → FSMAddress × ℕ
  | 0 => fsmGetLocation heapblk
  | level + 1 => fsmGetParent (fsmLocationAt heapblk level).1

/-- The first and the last slot that `fsm_vacuum_page` updates on a page. -/
def vacuumBounds (start endBlk : ℕ) (addr : FSMAddress) : ℕ × ℤ :=
  let (fsmStart, fsmStartSlot) := fsmLocationAt start addr.level
  let (fsmEnd, fsmEndSlot) := fsmLocationAt (endBlk - 1) addr.level
  (if fsmStart.logpageno = addr.logpageno then fsmStartSlot
    else if fsmStart.logpageno > addr.logpageno then slotsPerFSMPage
    else 0,
   if fsmEnd.logpageno = addr.logpageno then fsmEndSlot
    else if fsmEnd.logpageno > addr.logpageno then slotsPerFSMPage - 1
    else -1)

/-- The slots that `fsm_vacuum_page` updates on a page. -/
def vacuumSlots (start endBlk : ℕ) (addr : FSMAddress) : List ℕ :=
  let (startSlot, endSlot) := vacuumBounds start endBlk addr
  List.range' startSlot (endSlot + 1 - startSlot).toNat

/-- Update what a page says about a child. -/
def updateSlot (slot : ℕ) (childAvail : Fin 256) (page : FSMPage) : FSMPage :=
  if fsmGetAvail page slot ≠ childAvail then fsmSetAvail page slot childAvail else page

/-- The loop of `fsm_vacuum_page` over the slots; `visit` is the call for the child of a slot. After
the end of the map is hit, the rest of the slots is cleared. -/
def vacuumLoop (visit : ℕ → Rel → Rel × Fin 256 × Bool) (addr : FSMAddress) :
    List ℕ → Rel → Bool → Rel
  | [], rel, _ => rel
  | slot :: slots, rel, eof =>
    let (rel, childAvail, eof) := if eof then (rel, 0, eof) else visit slot rel
    vacuumLoop visit addr slots (rel.modify addr (updateSlot slot childAvail)) eof

/-- The end of `fsm_vacuum_page`: the maximum of the page, and the hint set back. -/
def vacuumDone (rel : Rel) (addr : FSMAddress) : Rel × Fin 256 × Bool :=
  (rel.modify addr fun page => { page with nextSlot := 0 },
    match fsmReadbuf rel addr with
    | none => 0
    | some page => fsmGetMaxAvail page,
    false)

/-- `fsm_vacuum_page`: the relation after it, the maximum of the page, and whether the page is past
the end of the map. -/
def fsmVacuumPage (start endBlk : ℕ) : ℕ → ℕ → Rel → Rel × Fin 256 × Bool
  | 0, logpageno, rel =>
    match fsmReadbuf rel ⟨0, logpageno⟩ with
    | none => (rel, 0, true)
    | some _ => vacuumDone rel ⟨0, logpageno⟩
  | level + 1, logpageno, rel =>
    let addr : FSMAddress := ⟨level + 1, logpageno⟩
    match fsmReadbuf rel addr with
    | none => (rel, 0, true)
    | some _ =>
      vacuumDone (vacuumLoop (fun slot =>
        fsmVacuumPage start endBlk level (fsmGetChild addr slot).logpageno) addr
        (vacuumSlots start endBlk addr) rel false) addr

/-- `FreeSpaceMapVacuum`. -/
def freeSpaceMapVacuum (rel : Rel) : Rel :=
  (fsmVacuumPage 0 invalidBlockNumber fsmRootAddress.level fsmRootAddress.logpageno rel).1

/-- `FreeSpaceMapVacuumRange`. -/
def freeSpaceMapVacuumRange (rel : Rel) (start endBlk : ℕ) : Rel :=
  if endBlk > start
    then (fsmVacuumPage start endBlk fsmRootAddress.level fsmRootAddress.logpageno rel).1 else rel

/-! ## Where the pages lie -/

/-- The addresses of the tree. -/
structure FSMAddress.Valid (addr : FSMAddress) : Prop where
  level_le : addr.level ≤ fsmRootLevel
  logpageno_lt : addr.logpageno < slotsPerFSMPage^(fsmRootLevel - addr.level)

theorem fsmRootAddress_valid : fsmRootAddress.Valid := ⟨by decide, by decide⟩

variable {level logpageno p slot : ℕ}

/-- The page above the page of a slot, and the slot there. -/
theorem child_div (h : slot < slotsPerFSMPage) :
    (p * slotsPerFSMPage + slot) / slotsPerFSMPage = p := by
  rw [slotsPerFSMPage_eq] at h ⊢
  omega

theorem child_mod (h : slot < slotsPerFSMPage) :
    (p * slotsPerFSMPage + slot) % slotsPerFSMPage = slot := by
  rw [Nat.mul_add_mod_of_lt h]

/-- The pages below a page have addresses of the tree. -/
theorem FSMAddress.Valid.child (h : FSMAddress.Valid ⟨level + 1, logpageno⟩)
    (hslot : slot < slotsPerFSMPage) :
    FSMAddress.Valid ⟨level, logpageno * slotsPerFSMPage + slot⟩ := by
  have hlevel : level + 1 ≤ fsmRootLevel := h.level_le
  have hno : logpageno < slotsPerFSMPage^(fsmRootLevel - (level + 1)) := h.logpageno_lt
  refine ⟨show level ≤ fsmRootLevel by omega, ?_⟩
  rw [show fsmRootLevel - level = fsmRootLevel - (level + 1) + 1 by omega, pow_succ]
  calc logpageno * slotsPerFSMPage + slot
      < (logpageno + 1) * slotsPerFSMPage := by rw [Nat.succ_mul]; omega
    _ ≤ slotsPerFSMPage^(fsmRootLevel - (level + 1)) * slotsPerFSMPage := Nat.mul_le_mul_right _ hno

/-- The page above a page has an address of the tree. -/
theorem FSMAddress.Valid.parent (h : FSMAddress.Valid ⟨level, logpageno⟩)
    (hlevel : level < fsmRootLevel) :
    FSMAddress.Valid ⟨level + 1, logpageno / slotsPerFSMPage⟩ := by
  have hno : logpageno < slotsPerFSMPage^(fsmRootLevel - level) := h.logpageno_lt
  refine ⟨hlevel, ?_⟩
  rw [show fsmRootLevel - level = fsmRootLevel - (level + 1) + 1 by omega, pow_succ] at hno
  exact Nat.div_lt_of_lt_mul (by rw [mul_comm]; exact hno)

/-- The address is of one of the three levels, and the block it lies in. -/
theorem FSMAddress.Valid.physical (h : FSMAddress.Valid ⟨level, logpageno⟩) :
    (level = 0 ∧ logpageno < 4069 * 4069 ∧
        fsmLogicalToPhysical ⟨level, logpageno⟩ = logpageno + logpageno / 4069 + 2) ∨
      (level = 1 ∧ logpageno < 4069 ∧ fsmLogicalToPhysical ⟨level, logpageno⟩ =
        logpageno * 4070 + 1) ∨
      (level = 2 ∧ logpageno = 0 ∧ fsmLogicalToPhysical ⟨level, logpageno⟩ = 0) := by
  have hlevel : level ≤ 2 := h.level_le
  have hno : logpageno < slotsPerFSMPage^(2 - level) := h.logpageno_lt
  match level, hlevel with
  | 0, _ =>
    have hno : logpageno < 4069 * 4069 := hno
    refine .inl ⟨rfl, hno, ?_⟩
    show 0 + (logpageno + 1) + (logpageno / 4069 + 1) + (logpageno / 4069 / 4069 + 1) - 0 - 1 =
      logpageno + logpageno / 4069 + 2
    omega
  | 1, _ =>
    have hno : logpageno < 4069 := hno
    refine .inr (.inl ⟨rfl, hno, ?_⟩)
    show 0 + (logpageno * 4069 + 1) + (logpageno * 4069 / 4069 + 1) +
      (logpageno * 4069 / 4069 / 4069 + 1) - 1 - 1 =
      logpageno * 4070 + 1
    omega
  | 2, _ =>
    have hno : logpageno < 1 := hno
    obtain rfl : logpageno = 0 := by omega
    exact .inr (.inr ⟨rfl, rfl, rfl⟩)

/-- Different addresses are different blocks. -/
theorem fsmLogicalToPhysical_inj {a b : FSMAddress} (ha : a.Valid) (hb : b.Valid)
    (h : fsmLogicalToPhysical a = fsmLogicalToPhysical b) : a = b := by
  obtain ⟨la, pa⟩ := a
  obtain ⟨lb, pb⟩ := b
  rw [FSMAddress.mk.injEq]
  rcases ha.physical with ⟨hla, hpa, hba⟩ | ⟨hla, hpa, hba⟩ | ⟨hla, hpa, hba⟩ <;>
  rcases hb.physical with ⟨hlb, hpb, hbb⟩ | ⟨hlb, hpb, hbb⟩ | ⟨hlb, hpb, hbb⟩ <;>
  rw [hba, hbb] at h <;> omega

/-- The number of pages of a tree whose root is on a level. -/
def treePages : ℕ → ℕ
  | 0 => 1
  | level + 1 => 1 + slotsPerFSMPage * treePages level

/-- The tree of a page lies before the pages to its right on the same level. -/
theorem fsmLogicalToPhysical_add_le {q : ℕ} (hp : FSMAddress.Valid ⟨level, p⟩)
    (hq : FSMAddress.Valid ⟨level, q⟩) (h : p < q) :
    fsmLogicalToPhysical ⟨level, p⟩ + treePages level ≤ fsmLogicalToPhysical ⟨level, q⟩ := by
  rcases hp.physical with ⟨rfl, hp, hbp⟩ | ⟨rfl, hp, hbp⟩ | ⟨rfl, hp, hbp⟩ <;>
  rcases hq.physical with ⟨hlq, hq, hbq⟩ | ⟨hlq, hq, hbq⟩ | ⟨hlq, hq, hbq⟩ <;>
  rw [hbp, hbq] <;> simp only [treePages, slotsPerFSMPage_eq] <;> omega

/-- The page lies in the tree under page `logpageno` of a level, or is that page. -/
def Below (level logpageno : ℕ) (addr : FSMAddress) : Prop :=
  addr.level ≤ level ∧ addr.logpageno / slotsPerFSMPage^(level - addr.level) = logpageno

/-- What is below a page fills the blocks behind it. -/
theorem Below.physical {q : ℕ} {addr : FSMAddress} (h : Below level q addr)
    (hvalid : FSMAddress.Valid ⟨level, q⟩) (haddr : addr.Valid) :
    fsmLogicalToPhysical ⟨level, q⟩ ≤ fsmLogicalToPhysical addr ∧
      fsmLogicalToPhysical addr < fsmLogicalToPhysical ⟨level, q⟩ + treePages level := by
  obtain ⟨l, p⟩ := addr
  obtain ⟨hle, hdiv⟩ := h
  dsimp only at hle hdiv
  rcases hvalid.physical with ⟨rfl, hq, hbq⟩ | ⟨rfl, hq, hbq⟩ | ⟨rfl, hq, hbq⟩ <;>
  rcases haddr.physical with ⟨rfl, hp, hbp⟩ | ⟨rfl, hp, hbp⟩ | ⟨rfl, hp, hbp⟩ <;>
  rw [hbq, hbp] <;> simp [treePages, slotsPerFSMPage_eq] at hle hdiv ⊢ <;> omega

/-- A page lies before those below it. -/
theorem fsmLogicalToPhysical_lt_child (hp : FSMAddress.Valid ⟨level + 1, p⟩)
    (hslot : slot < slotsPerFSMPage) :
    fsmLogicalToPhysical ⟨level + 1, p⟩ < fsmLogicalToPhysical
      ⟨level, p * slotsPerFSMPage + slot⟩ := by
  have hchild := hp.child hslot
  have hbelow : Below (level + 1) p ⟨level, p * slotsPerFSMPage + slot⟩ := by
    refine ⟨Nat.le_succ level, ?_⟩
    dsimp only
    rw [Nat.add_sub_cancel_left, pow_one, child_div hslot]
  refine (hbelow.physical hp hchild).1.lt_of_ne fun heq => ?_
  exact absurd (congrArg FSMAddress.level (fsmLogicalToPhysical_inj hp hchild heq))
    (Nat.succ_ne_self level)

/-- The location of a block on a level is an address of the tree. -/
theorem fsmLocationAt_valid {blk : ℕ} (hblk : blk < 2^32) (hlevel : level ≤ fsmRootLevel) :
    (fsmLocationAt blk level).1.level = level ∧ (fsmLocationAt blk level).1.Valid := by
  induction level with
  | zero => exact ⟨rfl, Nat.zero_le _, show blk / 4069 < 4069^2 by omega⟩
  | succ level ih =>
    obtain ⟨heq, hvalid⟩ := ih (Nat.le_of_succ_le hlevel)
    exact ⟨congrArg (· + 1) heq, hvalid.parent (heq.trans_lt hlevel)⟩

/-- The addresses are those of a depth-first order. Every block number has an address on each level,
and the addresses of the tree lie in different blocks. The pages below a page follow it, and those
below a slot lie before those below a later slot. No number that the code computes in an `int` on
the way reaches `2^31`. `fsm_get_parent` inverts `fsm_get_child`, and `fsm_get_heap_blk` inverts
`fsm_get_location`. -/
theorem fsm_addresses_depth_first :
    (∀ blk < invalidBlockNumber, ∀ level ≤ fsmRootLevel, (fsmLocationAt blk level).1.Valid) ∧
      (∀ a b : FSMAddress, a.Valid → b.Valid →
        fsmLogicalToPhysical a = fsmLogicalToPhysical b → a = b) ∧
      (∀ a d : FSMAddress, a.Valid → d.Valid → Below a.level a.logpageno d → a ≠ d →
        fsmLogicalToPhysical a < fsmLogicalToPhysical d) ∧
      (∀ a d d' : FSMAddress, ∀ s s', a.Valid → d.Valid → d'.Valid → 0 < a.level → s < s' →
        s' < slotsPerFSMPage →
        Below (a.level - 1) (fsmGetChild a s).logpageno d →
        Below (a.level - 1) (fsmGetChild a s').logpageno d' →
        fsmLogicalToPhysical d < fsmLogicalToPhysical d') ∧
      (∀ a : FSMAddress, a.Valid →
        (∀ l ≤ a.level, (· * slotsPerFSMPage)^[l] a.logpageno + 1 < 2^31) ∧
        fsmLogicalToPhysical a + 1 + a.level < 2^31) ∧
      (∀ a : FSMAddress, ∀ s, 0 < a.level → s < slotsPerFSMPage →
        fsmGetParent (fsmGetChild a s) = (a, s)) ∧
      ∀ blk < invalidBlockNumber, fsmGetHeapBlk (fsmGetLocation blk).1
        (fsmGetLocation blk).2 = blk := by
  refine ⟨fun blk hblk level hlevel => (fsmLocationAt_valid (hblk.trans (by decide)) hlevel).2,
    fun a b => fsmLogicalToPhysical_inj,
    fun a d ha hd hbelow hne => ?_, fun a d d' s s' ha hd hd' hpos hs hs' hbelow hbelow' => ?_,
      fun a ha => ?_,
    fun a s hpos hs => ?_, fun blk hblk => ?_⟩
  · exact (hbelow.physical ha hd).1.lt_of_ne fun heq => hne (fsmLogicalToPhysical_inj ha hd heq)
  · obtain ⟨_ | level, p⟩ := a
    · cases hpos
    · have hchild := ha.child (hs.trans hs')
      have hchild' := ha.child hs'
      have hnext := fsmLogicalToPhysical_add_le hchild hchild' (Nat.add_lt_add_left hs _)
      exact ((hbelow.physical hchild hd).2.trans_le hnext).trans_le (hbelow'.physical hchild' hd').1
  · obtain ⟨level, p⟩ := a
    have hphysical := ha.physical
    refine ⟨fun l hl => ?_, by dsimp only; omega⟩
    have hle : p * slotsPerFSMPage^l ≤ p * slotsPerFSMPage^level :=
      Nat.mul_le_mul_left p (Nat.pow_le_pow_right (by decide) hl)
    have hlt := Nat.mul_lt_mul_of_pos_right ha.logpageno_lt
      (show 0 < slotsPerFSMPage^level from Nat.pow_pos (by decide))
    rw [← pow_add, Nat.sub_add_cancel ha.level_le] at hlt
    rw [mul_right_iterate]
    exact (Nat.succ_le_succ hle).trans_lt ((Nat.succ_lt_succ hlt).trans (by decide))
  · obtain ⟨_ | level, p⟩ := a
    · cases hpos
    · rw [fsmGetChild, fsmGetParent]
      dsimp only
      rw [child_div hs, child_mod hs]
      rfl
  · show (blk / 4069 * 4069 + blk % 4069) % 2^32 = blk
    unfold invalidBlockNumber at hblk
    omega

end PgAutoIndex.Freespace
