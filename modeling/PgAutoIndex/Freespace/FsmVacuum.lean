import PgAutoIndex.Freespace.FreeSpaceMap

/-!
# What the vacuum of the free space map does

`fsm_vacuum_page` goes through the tree of pages depth first. It writes the root of each page it
comes to into the slot of the page above, and sets the hint of the page back. `Swept U H rel rel'`
says what has happened after a part of this: the slots of the pages in `U` are accurate, the hints
of the pages in `H` are zero, and everything else is as before. Two parts follow one another when
the second does not change a page whose slot the first has written (`Swept.trans`), and that is so
because the walk is depth first: a page is done before its slot is written.

The root of a consistent page is decided by its slots, so that only slots need to be followed
(`rootAvail_congr`).
-/

namespace PgAutoIndex.Freespace

open MaxTree List Option

/-! ## Slots, roots and hints -/

/-- The pages of the map are consistent. -/
def Rel.Consistent (rel : Rel) : Prop := ∀ page ∈ rel.fsm, page.Consistent

/-- The root of the page at an address, zero past the end of the map. -/
def rootAvail (rel : Rel) (addr : FSMAddress) : Fin 256 :=
  match fsmReadbuf rel addr with
  | none => 0
  | some page => fsmGetMaxAvail page

/-- The slot of the page at an address. -/
def slotAvail (rel : Rel) (addr : FSMAddress) (slot : ℕ) : Option (Fin 256) :=
  (fsmReadbuf rel addr).map (fsmGetAvail · slot)

/-- The hint of the page at an address. -/
def hint (rel : Rel) (addr : FSMAddress) : Option ℤ := (fsmReadbuf rel addr).map FSMPage.nextSlot

/-- The slot of an upper page holds the root of the page below, zero past the end of the map. -/
def Accurate (rel : Rel) (level logpageno slot : ℕ) : Prop :=
  ∀ avail, slotAvail rel ⟨level + 1, logpageno⟩ slot = some avail →
    avail = rootAvail rel ⟨level, logpageno * slotsPerFSMPage + slot⟩

variable {endBlk level p q slot start : ℕ} {rel : Rel} {addr : FSMAddress}

/-- A page that is read is consistent. -/
theorem Rel.Consistent.page (h : rel.Consistent) {page : FSMPage}
    (hread : fsmReadbuf rel addr = some page) : page.Consistent :=
  h page (mem_of_getElem? hread)

/-- A page is there when its block is before the end of the map. -/
theorem fsmReadbuf_eq_none :
    fsmReadbuf rel addr = none ↔ rel.fsm.length ≤ fsmLogicalToPhysical addr := getElem?_eq_none_iff

/-- Changing the page at an address changes no other page. -/
theorem fsmReadbuf_modify (rel : Rel) {a b : FSMAddress} (ha : a.Valid) (hb : b.Valid)
    (f : FSMPage → FSMPage) :
    fsmReadbuf (rel.modify a f) b = if b = a then (fsmReadbuf rel b).map f
      else fsmReadbuf rel b := by
  split_ifs with hab
  · rw [hab]
    exact getElem?_modify_eq ..
  · exact getElem?_modify_ne _ _ fun h => hab (fsmLogicalToPhysical_inj hb ha h.symm)

/-- A change that keeps pages consistent keeps the map consistent. -/
theorem Rel.Consistent.modify (h : rel.Consistent) (addr : FSMAddress) {f : FSMPage → FSMPage}
    (hf : ∀ page, page.Consistent → (f page).Consistent) : (rel.modify addr f).Consistent := by
  intro page hmem
  obtain ⟨i, hi⟩ := mem_iff_getElem?.mp hmem
  rw [Rel.modify, getElem?_modify] at hi
  obtain ⟨page', hpage', rfl⟩ := map_eq_some_iff.mp hi
  have hconsistent := h page' (mem_of_getElem? hpage')
  split
  · exact hf page' hconsistent
  · exact hconsistent

/-- The root of a consistent page is at most `v` when its slots are. -/
theorem FSMPage.Consistent.maxAvail_le {page : FSMPage} (h : page.Consistent) {v : Fin 256}
    (hslots : ∀ slot, slot < slotsPerFSMPage → fsmGetAvail page slot ≤ v) :
    fsmGetMaxAvail page ≤ v := by
  by_contra hgt
  -- A search for as much as the root has finds a slot with it.
  obtain ⟨slot, hnext⟩ := exists_isNext h (le_refl (fsmGetMaxAvail page))
  exact hgt (hnext.enough.trans (hslots slot hnext.lt))

/-- The slots of a page decide its root. -/
theorem rootAvail_congr {rel' : Rel} (h : rel.Consistent) (h' : rel'.Consistent)
    (hslots : ∀ slot, slot < slotsPerFSMPage → slotAvail rel' addr slot = slotAvail rel addr slot) :
    rootAvail rel' addr = rootAvail rel addr := by
  have hle : ∀ {r r' : Rel}, r.Consistent → r'.Consistent →
      (∀ slot, slot < slotsPerFSMPage → slotAvail r' addr slot = slotAvail r addr slot) →
      rootAvail r' addr ≤ rootAvail r addr := by
    intro r r' hr hr' hsame
    unfold rootAvail
    rcases hread' : fsmReadbuf r' addr with _ | page'
    · exact Fin.zero_le _
    · refine (hr'.page hread').maxAvail_le fun slot hslot => ?_
      have hslot' := hsame slot hslot
      rw [slotAvail, hread'] at hslot'
      obtain ⟨page, hread, heq⟩ := map_eq_some_iff.mp hslot'.symm
      rw [hread]
      exact heq.symm.trans_le ((hr.page hread).avail_le hslot)
  exact le_antisymm (hle h h' hslots) (hle h' h fun slot hslot => (hslots slot hslot).symm)

/-! ## Parts of a vacuum -/

/-- What has happened after a part of the vacuum: the slots of the pages in `U` are accurate, the
hints of the pages in `H` are zero, the other slots and hints are as before. -/
structure Swept (U H : FSMAddress → Prop) (rel rel' : Rel) : Prop where
  nblocks : rel'.nblocks = rel.nblocks
  length : rel'.fsm.length = rel.fsm.length
  consistent : rel'.Consistent
  /-- A slot is written only for a page in `U`. -/
  kept : ∀ addr : FSMAddress, addr.Valid → ∀ slot, slot < slotsPerFSMPage →
    (∀ level, addr.level = level + 1 → ¬ U ⟨level, addr.logpageno * slotsPerFSMPage + slot⟩) →
    slotAvail rel' addr slot = slotAvail rel addr slot
  /-- The slots of the pages in `U` are accurate. -/
  accurate : ∀ level logpageno, FSMAddress.Valid ⟨level + 1, logpageno⟩ →
    ∀ slot, slot < slotsPerFSMPage →
    U ⟨level, logpageno * slotsPerFSMPage + slot⟩ → Accurate rel' level logpageno slot
  /-- The hints of the pages in `H` are zero. -/
  reset : ∀ addr : FSMAddress, addr.Valid → H addr → ∀ next, hint rel' addr = some next → next = 0
  /-- The hints of other pages are as before. -/
  hints : ∀ addr : FSMAddress, addr.Valid → ¬ H addr → hint rel' addr = hint rel addr

namespace Swept

variable {U H U' H' : FSMAddress → Prop} {rel rel' rel'' : Rel}

/-- Nothing has happened yet. -/
theorem refl (h : rel.Consistent) : Swept (fun _ => False) (fun _ => False) rel rel where
  nblocks := rfl
  length := rfl
  consistent := h
  kept _ _ _ _ _ := rfl
  accurate _ _ _ _ _ hU := hU.elim
  reset _ _ hH := hH.elim
  hints _ _ _ := rfl

/-- The sets may be described otherwise. -/
theorem congr (h : Swept U H rel rel') (hU : ∀ addr, U' addr ↔ U addr)
    (hH : ∀ addr, H' addr ↔ H addr) :
    Swept U' H' rel rel' := by
  rw [show U' = U from funext fun addr => propext (hU addr),
    show H' = H from funext fun addr => propext (hH addr)]
  exact h

/-- A page none of whose slots is written keeps its root. -/
theorem root_kept (h : Swept U H rel rel') (hc : rel.Consistent) {logpageno : ℕ}
    (hvalid : FSMAddress.Valid ⟨level, logpageno⟩)
    (hU : ∀ l slot, level = l + 1 → slot < slotsPerFSMPage →
      ¬ U ⟨l, logpageno * slotsPerFSMPage + slot⟩) :
    rootAvail rel' ⟨level, logpageno⟩ = rootAvail rel ⟨level, logpageno⟩ :=
  rootAvail_congr hc h.consistent fun slot hslot =>
    h.kept _ hvalid slot hslot fun l hl => hU l slot hl hslot

/-- One part after another. The second writes no slot of a page whose own slot the first has
written. -/
theorem trans (h : Swept U H rel rel') (h' : Swept U' H' rel' rel'')
    (horder : ∀ level logpageno slot, slot < slotsPerFSMPage → U ⟨level + 1, logpageno⟩ →
      ¬ U' ⟨level, logpageno * slotsPerFSMPage + slot⟩) :
    Swept (fun addr => U addr ∨ U' addr) (fun addr => H addr ∨ H' addr) rel rel'' where
  nblocks := h'.nblocks.trans h.nblocks
  length := h'.length.trans h.length
  consistent := h'.consistent
  kept addr hvalid slot hslot hU := by
    rw [h'.kept addr hvalid slot hslot fun level hl hin => hU level hl (.inr hin)]
    exact h.kept addr hvalid slot hslot fun level hl hin => hU level hl (.inl hin)
  accurate level logpageno hvalid slot hslot hU := by
    by_cases hU' : U' ⟨level, logpageno * slotsPerFSMPage + slot⟩
    · exact h'.accurate level logpageno hvalid slot hslot hU'
    · -- The first part has made the slot accurate, and the second changes neither the slot nor the
      -- root.
      have hfirst := hU.resolve_right hU'
      intro avail havail
      rw [h'.kept _ hvalid slot hslot fun l hl => by
        obtain rfl : level = l := Nat.succ.inj hl
        exact hU'] at havail
      rw [h'.root_kept h.consistent (hvalid.child hslot) fun l s hl hs => by
        subst hl
        exact horder l _ s hs hfirst]
      exact h.accurate level logpageno hvalid slot hslot hfirst avail havail
  reset addr hvalid hH next hnext := by
    by_cases hH' : H' addr
    · exact h'.reset addr hvalid hH' next hnext
    · rw [h'.hints addr hvalid hH'] at hnext
      exact h.reset addr hvalid (hH.resolve_right hH') next hnext
  hints addr hvalid hH := by
    rw [h'.hints addr hvalid fun hin => hH (.inr hin), h.hints addr hvalid fun hin => hH (.inl hin)]

end Swept

/-! ## The steps -/

/-- Updating a slot writes that slot and no other. -/
theorem updateSlot_spec {page : FSMPage} (h : page.Consistent) (hslot : slot < slotsPerFSMPage)
    (value : Fin 256) :
    (updateSlot slot value page).Consistent ∧ (updateSlot slot value page).nextSlot =
      page.nextSlot ∧
      ∀ s, fsmGetAvail (updateSlot slot value page) s = if s = slot then value
        else fsmGetAvail page s := by
  unfold updateSlot
  split_ifs with hne
  · exact fsmSetAvail_spec h hslot value
  · refine ⟨h, rfl, fun s => ?_⟩
    split_ifs with hs
    · rw [hs]
      exact not_not.mp hne
    · rfl

/-- Writing the root of a page into its slot. -/
theorem swept_slot (h : rel.Consistent) {logpageno : ℕ}
    (hvalid : FSMAddress.Valid ⟨level + 1, logpageno⟩) (hslot : slot < slotsPerFSMPage)
    {avail : Fin 256} (havail : avail = rootAvail rel ⟨level, logpageno * slotsPerFSMPage + slot⟩) :
    Swept (fun addr => addr = ⟨level, logpageno * slotsPerFSMPage + slot⟩) (fun _ => False) rel
      (rel.modify ⟨level + 1, logpageno⟩ (updateSlot slot avail)) := by
  have hread :=
    fun addr (ha : FSMAddress.Valid addr) => fsmReadbuf_modify rel hvalid ha (updateSlot slot avail)
  refine ⟨rfl, length_modify .., h.modify _ fun page hpage => (updateSlot_spec hpage hslot avail).1,
    ?_, ?_, fun _ _ hH => hH.elim, ?_⟩
  · intro addr ha s hs hU
    unfold slotAvail
    rw [hread addr ha]
    split_ifs with heq
    · subst heq
      have hne : s ≠ slot := fun heq => hU level rfl (by rw [heq])
      rw [Option.map_map]
      exact map_congr fun page hpage =>
        ((updateSlot_spec (h.page hpage) hslot avail).2.2 s).trans (if_neg hne)
    · rfl
  · intro l q ha s hs heq v hv
    rw [FSMAddress.mk.injEq] at heq
    obtain ⟨rfl, hno⟩ := heq
    -- The number of a page is decided by the page above it and the slot there.
    obtain ⟨rfl, rfl⟩ : q = logpageno ∧ s = slot := by
      rw [slotsPerFSMPage_eq] at hs hslot hno
      omega
    have hroot : rootAvail (rel.modify ⟨l + 1, q⟩ (updateSlot s avail))
      ⟨l, q * slotsPerFSMPage + s⟩ =
        rootAvail rel ⟨l, q * slotsPerFSMPage + s⟩ := by
      unfold rootAvail
      rw [hread _ (hvalid.child hslot), if_neg (by rw [FSMAddress.mk.injEq]; omega)]
    rw [hroot, ← havail]
    unfold slotAvail at hv
    rw [hread _ hvalid, if_pos rfl, Option.map_map] at hv
    obtain ⟨page, hpage, rfl⟩ := map_eq_some_iff.mp hv
    exact ((updateSlot_spec (h.page hpage) hslot avail).2.2 s).trans (if_pos rfl)
  · intro addr ha _
    unfold hint
    rw [hread addr ha]
    split
    · rw [Option.map_map]
      exact map_congr fun page hpage => (updateSlot_spec (h.page hpage) hslot avail).2.1
    · rfl

/-- Setting the hint of a page back. -/
theorem swept_hint (h : rel.Consistent) (hvalid : addr.Valid) :
    Swept (fun _ => False) (fun b => b = addr) rel
      (rel.modify addr fun page => { page with nextSlot := 0 }) := by
  have hread := fun b (hb : FSMAddress.Valid b) =>
    fsmReadbuf_modify rel hvalid hb fun page => { page with nextSlot := 0 }
  refine ⟨rfl, length_modify .., h.modify _ fun page hpage => hpage,
    ?_, fun _ _ _ _ _ hU => hU.elim, ?_, ?_⟩
  · intro b hb s hs _
    unfold slotAvail
    rw [hread b hb]
    split
    · rw [Option.map_map]
      rfl
    · rfl
  · intro b hb heq next hnext
    unfold hint at hnext
    rw [hread b hb, if_pos heq, Option.map_map] at hnext
    obtain ⟨page, _, hpage⟩ := Option.map_eq_some_iff.mp hnext
    exact hpage.symm
  · intro b hb hne
    unfold hint
    rw [hread b hb, if_neg hne]

/-! ## The pages below a page -/

/-- On its own level a page is below itself only. -/
theorem below_self (hlevel : addr.level = level) :
    Below level q addr ↔ addr = ⟨level, q⟩ := by
  obtain ⟨l, p⟩ := addr
  obtain rfl : l = level := hlevel
  simp [Below]

/-- A page is below what the page above it is below. -/
theorem below_child {l : ℕ} (hlevel : l + 1 ≤ level) (hslot : slot < slotsPerFSMPage) :
    Below level q ⟨l, p * slotsPerFSMPage + slot⟩ ↔ Below level q ⟨l + 1, p⟩ := by
  have hdiv : (p * slotsPerFSMPage + slot) / slotsPerFSMPage^(level - l) =
      p / slotsPerFSMPage^(level - (l + 1)) := by
    rw [show level - l = level - (l + 1) + 1 by omega, pow_succ', ← Nat.div_div_eq_div_mul,
      child_div hslot]
  constructor
  · rintro ⟨_, hno⟩
    exact ⟨hlevel, hdiv.symm.trans hno⟩
  · rintro ⟨_, hno⟩
    exact ⟨show l ≤ level by omega, hdiv.trans hno⟩

/-- Below a page are the pages of its slots and what is below those. -/
theorem below_succ (hlevel : addr.level ≤ level) :
    Below (level + 1) p addr ↔
    ∃ slot, slot < slotsPerFSMPage ∧ Below level (p * slotsPerFSMPage + slot) addr := by
  have hdiv : addr.logpageno / slotsPerFSMPage^(level + 1 - addr.level) =
      addr.logpageno / slotsPerFSMPage^(level - addr.level) / slotsPerFSMPage := by
    rw [show level + 1 - addr.level = level - addr.level + 1 by omega, pow_succ,
      Nat.div_div_eq_div_mul]
  constructor
  · rintro ⟨_, hno⟩
    refine ⟨addr.logpageno / slotsPerFSMPage^(level - addr.level) % slotsPerFSMPage,
      Nat.mod_lt _ (by decide), hlevel, ?_⟩
    rw [← hno, hdiv, Nat.div_add_mod']
  · rintro ⟨slot, hslot, _, hno⟩
    refine ⟨by omega, ?_⟩
    rw [hdiv, hno, child_div hslot]

/-- When a page is missing, so is everything below it. -/
theorem Below.missing (hvalid : FSMAddress.Valid ⟨level, q⟩)
    (hmissing : fsmReadbuf rel ⟨level, q⟩ = none) (haddr : addr.Valid) (h : Below level q addr) :
    fsmReadbuf rel addr = none := by
  rw [fsmReadbuf_eq_none] at hmissing ⊢
  exact hmissing.trans (h.physical hvalid haddr).1

/-- The page covers heap blocks of the range. -/
def Overlaps (start endBlk : ℕ) (addr : FSMAddress) : Prop :=
  start / slotsPerFSMPage^(addr.level + 1) ≤ addr.logpageno ∧
    addr.logpageno ≤ (endBlk - 1) / slotsPerFSMPage^(addr.level + 1)

/-- A page covers what the pages below it cover. -/
theorem Overlaps.of_below (h : Overlaps start endBlk addr) (hbelow : Below level q addr) :
    Overlaps start endBlk ⟨level, q⟩ := by
  obtain ⟨hlevel, hno⟩ := hbelow
  have hdiv : ∀ blk, blk / slotsPerFSMPage^(level + 1) =
      blk / slotsPerFSMPage^(addr.level + 1) / slotsPerFSMPage^(level - addr.level) := by
    intro blk
    rw [Nat.div_div_eq_div_mul, ← pow_add,
      show addr.level + 1 + (level - addr.level) = level + 1 by omega]
  constructor
  · rw [hdiv, ← hno]
    exact Nat.div_le_div_right h.1
  · rw [hdiv, ← hno]
    exact Nat.div_le_div_right h.2

/-- Where the loop finds a heap block on a level. -/
theorem fsmLocationAt_eq (heapblk level : ℕ) :
    fsmLocationAt heapblk level = (⟨level, heapblk / slotsPerFSMPage^level / slotsPerFSMPage⟩,
      heapblk / slotsPerFSMPage^level % slotsPerFSMPage) := by
  induction level with
  | zero =>
    rw [pow_zero, Nat.div_one]
    rfl
  | succ level ih =>
    rw [fsmLocationAt, ih, fsmGetParent, pow_succ, Nat.div_div_eq_div_mul]

/-- The slots that are updated are those of the pages that cover blocks of the range. -/
theorem mem_vacuumSlots :
    slot ∈ vacuumSlots start endBlk ⟨level + 1, p⟩ ↔
      slot < slotsPerFSMPage ∧ Overlaps start endBlk ⟨level, p * slotsPerFSMPage + slot⟩ := by
  unfold vacuumSlots vacuumBounds Overlaps
  rw [fsmLocationAt_eq, fsmLocationAt_eq]
  simp only [mem_range'_1]
  -- The pages on the level below that the first and the last block of the range fall on.
  generalize start / slotsPerFSMPage^(level + 1) = first
  generalize (endBlk - 1) / slotsPerFSMPage^(level + 1) = last
  rw [slotsPerFSMPage_eq]
  split_ifs <;> omega

/-! ## The walk through the tree -/

/-- The pages of the range whose slots the visit of a page writes: those under it. -/
def Updated (start endBlk level logpageno : ℕ) (addr : FSMAddress) : Prop :=
  addr.level < level ∧ Below level logpageno addr ∧ Overlaps start endBlk addr

/-- The pages of the range that the visit of a page comes to: those under it and itself. -/
def Visited (start endBlk level logpageno : ℕ) (addr : FSMAddress) : Prop :=
  Below level logpageno addr ∧ Overlaps start endBlk addr

/-- What the visit of a page does, with the maximum and the end of the map that it reports. -/
structure VisitSpec (start endBlk level logpageno : ℕ) (rel : Rel)
    (result : Rel × Fin 256 × Bool) : Prop where
  swept : Swept (Updated start endBlk level logpageno)
    (Visited start endBlk level logpageno) rel result.1
  avail : result.2.1 = rootAvail result.1 ⟨level, logpageno⟩
  eof : result.2.2 = true → fsmReadbuf rel ⟨level, logpageno⟩ = none

section Walk

variable {start endBlk : ℕ}

/-- There is nothing to do for a page past the end of the map. -/
theorem visitSpec_missing (h : rel.Consistent) (hvalid : FSMAddress.Valid ⟨level, p⟩)
    (hmissing : fsmReadbuf rel ⟨level, p⟩ = none) (eof : Bool) :
    VisitSpec start endBlk level p rel (rel, 0, eof) where
  swept :=
    { nblocks := rfl
      length := rfl
      consistent := h
      kept := fun _ _ _ _ _ => rfl
      accurate := by
        intro l q haddr slot hslot ⟨hlevel, hbelow, _⟩ avail havail
        -- The page with the slot is missing, too.
        have hread := Below.missing hvalid hmissing haddr ((below_child hlevel hslot).mp hbelow)
        rw [slotAvail, hread] at havail
        cases havail
      reset := by
        intro addr haddr ⟨hbelow, _⟩ next hnext
        rw [hint, Below.missing hvalid hmissing haddr hbelow] at hnext
        cases hnext
      hints := fun _ _ _ => rfl }
  avail := by
    rw [rootAvail, hmissing]
  eof := fun _ => hmissing

/-- The pages whose slots are written for slot `slot` of a page: the page of the slot and those
under it. -/
def SlotUpdated (start endBlk level logpageno slot : ℕ) (addr : FSMAddress) : Prop :=
  Updated start endBlk level (logpageno * slotsPerFSMPage + slot) addr ∨
    addr = ⟨level, logpageno * slotsPerFSMPage + slot⟩

/-- The page is visited after its slots are written. -/
theorem visited_iff (h : Overlaps start endBlk ⟨level, q⟩) :
    Visited start endBlk level q addr ↔ Updated start endBlk level q addr ∨ addr = ⟨level, q⟩ := by
  constructor
  · rintro ⟨hbelow, hover⟩
    rcases lt_or_eq_of_le hbelow.1 with hlow | hsame
    · exact .inl ⟨hlow, hbelow, hover⟩
    · exact .inr ((below_self hsame).mp hbelow)
  · rintro (hin | rfl)
    · exact hin.2
    · exact ⟨(below_self rfl).mpr rfl, h⟩

/-- The pages that the visits of the pages of `count` slots come to. -/
def SlotsVisited (start endBlk level logpageno first count : ℕ) (addr : FSMAddress) : Prop :=
  ∃ slot, first ≤ slot ∧ slot < first + count ∧
    Visited start endBlk level (logpageno * slotsPerFSMPage + slot) addr

/-- The loop over the slots from `first` on does what the visits of the pages of the slots do, and
writes their slots. -/
theorem vacuumLoop_spec {visit : ℕ → Rel → Rel × Fin 256 × Bool}
    (hvalid : FSMAddress.Valid ⟨level + 1, p⟩)
    (hvisit : ∀ slot, slot < slotsPerFSMPage →
      Overlaps start endBlk ⟨level, p * slotsPerFSMPage + slot⟩ →
      ∀ rel : Rel, rel.Consistent →
        VisitSpec start endBlk level (p * slotsPerFSMPage + slot) rel (visit slot rel))
    (count first : ℕ) (h : rel.Consistent) {eof : Bool}
    (hslots : ∀ slot, first ≤ slot → slot < first + count →
      slot < slotsPerFSMPage ∧ Overlaps start endBlk ⟨level, p * slotsPerFSMPage + slot⟩)
    (heof : eof = true → ∀ slot, first ≤ slot → slot < slotsPerFSMPage →
      fsmReadbuf rel ⟨level, p * slotsPerFSMPage + slot⟩ = none) :
    Swept (SlotsVisited start endBlk level p first count)
      (SlotsVisited start endBlk level p first count) rel
      (vacuumLoop visit ⟨level + 1, p⟩ (range' first count) rel eof) := by
  induction count generalizing first rel eof with
  | zero =>
    exact (Swept.refl h).congr
      (fun _ => ⟨fun ⟨_, hle, hlt, _⟩ => by omega, False.elim⟩)
      (fun _ => ⟨fun ⟨_, hle, hlt, _⟩ => by omega, False.elim⟩)
  | succ count ih =>
    rw [range'_succ, vacuumLoop]
    obtain ⟨hslot, hoverlaps⟩ := hslots first le_rfl (by omega)
    have hchild := hvalid.child hslot
    -- The visit of the page, or what stands in for it past the end of the map.
    have hspec : VisitSpec start endBlk level (p * slotsPerFSMPage + first) rel
        (if eof = true then (rel, 0, eof) else visit first rel) := by
      split
      · exact visitSpec_missing h hchild (heof ‹_› first le_rfl hslot) eof
      · exact hvisit first hslot hoverlaps rel h
    generalize (if eof = true then _ else visit first rel) = result at hspec ⊢
    obtain ⟨rel₁, childAvail, eof₁⟩ := result
    have hslotSwept := swept_slot hspec.swept.consistent hvalid hslot hspec.avail
    -- The pages under the page were done before its slot is written.
    have hslotUpdated : Swept (SlotUpdated start endBlk level p first) _ rel _ :=
      hspec.swept.trans hslotSwept (by
      intro l q s _ hin heq
      have hlevel : l = level := congrArg FSMAddress.level heq
      have := hin.1
      simp only at this
      omega)
    have hdone :=
      hslotUpdated.congr (fun addr => visited_iff hoverlaps) fun addr => (or_false _).to_iff.symm
    have hrest :=
      ih (first + 1) hdone.consistent (fun slot hle hlt => hslots slot (by omega) (by omega))
        fun (heof₁ : eof₁ = true) slot hle hlt => by
      -- Past a missing page there are no pages on the level.
      have hmissing := hspec.eof heof₁
      rw [fsmReadbuf_eq_none] at hmissing ⊢
      rw [hdone.length]
      exact hmissing.trans
        ((Nat.le_add_right _ _).trans
          (fsmLogicalToPhysical_add_le hchild (hvalid.child hlt) (by omega)))
    have hsplit : ∀ addr, SlotsVisited start endBlk level p first (count + 1) addr ↔
        Visited start endBlk level (p * slotsPerFSMPage + first) addr ∨
        SlotsVisited start endBlk level p (first + 1) count addr := by
      intro addr
      constructor
      · rintro ⟨slot, hle, hlt, hin⟩
        by_cases hfirst : slot = first
        · exact .inl (hfirst ▸ hin)
        · exact .inr ⟨slot, by omega, by omega, hin⟩
      · rintro (hin | ⟨slot, hle, hlt, hin⟩)
        · exact ⟨first, le_rfl, by omega, hin⟩
        · exact ⟨slot, by omega, by omega, hin⟩
    refine (hdone.trans hrest ?_).congr hsplit hsplit
    -- The trees of different slots are apart.
    rintro l q s hs ⟨hbelow, _⟩ ⟨slot, hle, hlt, hbelow', _⟩
    have hsame := hbelow.2.symm.trans ((below_child hbelow.1 hs).mp hbelow').2
    omega

/-- The end of the visit: the maximum is reported, and the hint is set back. -/
theorem vacuumDone_spec {U : FSMAddress → Prop} {rel₁ : Rel} (h : Swept U U rel rel₁)
    (hvalid : FSMAddress.Valid ⟨level, p⟩) (hoverlaps : Overlaps start endBlk ⟨level, p⟩)
    (hU : ∀ addr, Updated start endBlk level p addr ↔ U addr) :
    VisitSpec start endBlk level p rel (vacuumDone rel₁ ⟨level, p⟩) where
  swept := by
    refine (h.trans (swept_hint h.consistent hvalid) fun _ _ _ _ _ => not_false).congr ?_ ?_
    · exact fun addr => (hU addr).trans ⟨.inl, fun hor => hor.resolve_right not_false⟩
    · exact fun addr => (visited_iff hoverlaps).trans (or_congr_left (hU addr))
  avail := ((swept_hint h.consistent hvalid).root_kept h.consistent hvalid
    fun _ _ _ _ => not_false).symm
  eof := nofun

/-- The visit of a page. -/
theorem fsmVacuumPage_spec {level : ℕ} (hvalid : FSMAddress.Valid ⟨level, p⟩)
    (hoverlaps : Overlaps start endBlk ⟨level, p⟩) (h : rel.Consistent) :
    VisitSpec start endBlk level p rel (fsmVacuumPage start endBlk level p rel) := by
  induction level generalizing p rel with
  | zero =>
    rw [fsmVacuumPage]
    rcases hread : fsmReadbuf rel ⟨0, p⟩ with _ | page
    · exact visitSpec_missing h hvalid hread true
    · exact vacuumDone_spec (Swept.refl h) hvalid hoverlaps fun addr =>
        ⟨fun hU => absurd hU.1 (Nat.not_lt_zero _), False.elim⟩
  | succ level ih =>
    rw [fsmVacuumPage]
    rcases hread : fsmReadbuf rel ⟨level + 1, p⟩ with _ | page
    · exact visitSpec_missing h hvalid hread true
    · obtain ⟨first, count, hrange⟩ : ∃ first count, vacuumSlots start endBlk ⟨level + 1, p⟩ =
          range' first count :=
        ⟨_, _, rfl⟩
      have hslots : ∀ slot, first ≤ slot ∧ slot < first + count ↔
          slot < slotsPerFSMPage ∧ Overlaps start endBlk ⟨level, p * slotsPerFSMPage + slot⟩ := by
        intro slot
        rw [← mem_vacuumSlots, hrange, mem_range'_1]
      have hloop :=
        vacuumLoop_spec hvalid
          (fun slot hslot hover rel' h' => ih (hvalid.child hslot) hover h') count first
        h (fun slot hle hlt => (hslots slot).mp ⟨hle, hlt⟩)
          (fun hfalse => absurd hfalse Bool.false_ne_true)
      simp only [hrange]
      refine vacuumDone_spec hloop hvalid hoverlaps fun addr => ⟨?_, ?_⟩
      · rintro ⟨hlevel, hbelow, hover⟩
        obtain ⟨slot, hslot, hbelow'⟩ := (below_succ (Nat.lt_succ_iff.mp hlevel)).mp hbelow
        obtain ⟨hle, hlt⟩ := (hslots slot).mpr ⟨hslot, hover.of_below hbelow'⟩
        exact ⟨slot, hle, hlt, hbelow', hover⟩
      · rintro ⟨slot, hle, hlt, hbelow, hover⟩
        exact ⟨Nat.lt_succ_iff.mpr hbelow.1,
          (below_succ hbelow.1).mpr ⟨slot, ((hslots slot).mp ⟨hle, hlt⟩).1, hbelow⟩, hover⟩

end Walk

/-! ## A range of heap blocks -/

/-- The page covers a heap block from `start` up to `endBlk`. -/
def CoversRange (start endBlk : ℕ) (addr : FSMAddress) : Prop :=
  ∃ blk, start ≤ blk ∧ blk < endBlk ∧ blk / slotsPerFSMPage^(addr.level + 1) = addr.logpageno

/-- The slots that the vacuum of a range updates are those that cover a block of the range. -/
theorem overlaps_iff (h : start < endBlk) :
    Overlaps start endBlk addr ↔ CoversRange start endBlk addr := by
  have hpos : 0 < slotsPerFSMPage^(addr.level + 1) := Nat.pow_pos (by decide)
  constructor
  · rintro ⟨hlow, hhigh⟩
    rcases lt_or_eq_of_le hlow with hlt | heq
    · -- The first block that the page covers.
      refine ⟨addr.logpageno * slotsPerFSMPage^(addr.level + 1), ?_, ?_, Nat.mul_div_cancel _ hpos⟩
      · exact ((Nat.div_lt_iff_lt_mul hpos).mp hlt).le
      · have := (Nat.le_div_iff_mul_le hpos).mp hhigh
        omega
    · exact ⟨start, le_rfl, h, heq⟩
  · rintro ⟨blk, hle, hlt, hno⟩
    rw [Overlaps, ← hno]
    exact ⟨Nat.div_le_div_right hle, Nat.div_le_div_right (by omega)⟩

/-- A page covers a block of the range only when there is one. -/
theorem CoversRange.lt (h : CoversRange start endBlk addr) : start < endBlk := by
  obtain ⟨blk, hlow, hhigh, _⟩ := h
  omega

/-- Every page of the tree is below the root. -/
theorem FSMAddress.Valid.below_root (h : addr.Valid) : Below fsmRootLevel 0 addr :=
  ⟨h.level_le, Nat.div_eq_of_lt h.logpageno_lt⟩

/-- The vacuum of a range: the slots that cover blocks of the range become accurate, the hints of
the pages that cover blocks of the range are set back, and everything else stays. -/
theorem freeSpaceMapVacuumRange_swept (start : ℕ) (h : rel.Consistent) (hend : endBlk ≤ 2^32) :
    Swept (fun addr =>
      addr.level < fsmRootLevel ∧ Below fsmRootLevel 0 addr ∧ CoversRange start endBlk addr)
      (fun addr => Below fsmRootLevel 0 addr ∧ CoversRange start endBlk addr) rel
      (freeSpaceMapVacuumRange rel start endBlk) := by
  unfold freeSpaceMapVacuumRange
  split_ifs with hlt
  · have hroot : Overlaps start endBlk fsmRootAddress := by
      refine ⟨Nat.le_of_eq (Nat.div_eq_of_lt ?_), Nat.zero_le _⟩
      have hsmall : 2^32 < slotsPerFSMPage^(fsmRootLevel + 1) := by decide
      exact lt_trans (lt_of_lt_of_le hlt hend) hsmall
    exact (fsmVacuumPage_spec fsmRootAddress_valid hroot h).swept.congr
      (fun addr => by rw [Updated, overlaps_iff hlt])
      (fun addr => by rw [Visited, overlaps_iff hlt])
  · exact (Swept.refl h).congr (fun _ => ⟨fun hin => hlt hin.2.2.lt, False.elim⟩)
      (fun _ => ⟨fun hin => hlt hin.2.lt, False.elim⟩)

/-- The vacuum of the map is that of the range of all block numbers. -/
theorem freeSpaceMapVacuum_eq (rel : Rel) :
    freeSpaceMapVacuum rel = freeSpaceMapVacuumRange rel 0 invalidBlockNumber := by
  rfl

end PgAutoIndex.Freespace
