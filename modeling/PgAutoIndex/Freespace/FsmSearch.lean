import PgAutoIndex.Freespace.FsmVacuum

/-!
# Free space is found after a vacuum

`fsm_search` goes down from the root of the map, and starts over when an upper slot has promised
more than the page below it holds, or when the slot found belongs to a block past the end of the
heap. Whatever the map says, a round of it changes at most the bottom slot of a block that does not
exist (`Kept`), and each round comes closer to the end (`searchMeasure`), so that the search
returns, and a block it returns exists and has the space.

After a vacuum the slots are accurate and the hints are zero. Then the first way down leads to a
bottom slot no later than any slot with enough space (`searchLoop_first`). The heap blocks that
exist come first, so that the search does not fail when one of them has the space.
-/

namespace PgAutoIndex.Freespace

open MaxTree List Option

/-! ## The bottom level -/

/-- The category that the map holds for a heap block: that of the slot at its position on the bottom
level, zero past the end of the map. -/
def bottomAvail (rel : Rel) (pos : ℕ) : Fin 256 :=
  (slotAvail rel ⟨0, pos / slotsPerFSMPage⟩ (pos % slotsPerFSMPage)).getD 0

/-- The positions on the bottom level. -/
def bottomSlots : ℕ := slotsPerFSMPage^3

variable {blk endBlk level n p pos slot start : ℕ} {rel rel' : Rel} {addr : FSMAddress}
  {minCat : Fin 256}

theorem bottom_valid (h : pos < bottomSlots) : FSMAddress.Valid ⟨0, pos / slotsPerFSMPage⟩ := by
  refine ⟨Nat.zero_le _, Nat.div_lt_of_lt_mul ?_⟩
  have hbottom : bottomSlots = slotsPerFSMPage * slotsPerFSMPage^2 := by decide
  exact h.trans_eq hbottom

theorem bottom_pos (h : FSMAddress.Valid ⟨0, p⟩) (hslot : slot < slotsPerFSMPage) :
    p * slotsPerFSMPage + slot < bottomSlots := by
  have hp : p < 4069 * 4069 := h.logpageno_lt
  have hbottom : bottomSlots = 4069 * 4069 * 4069 := by decide
  rw [slotsPerFSMPage_eq] at hslot ⊢
  omega

/-- The recorded free space is that of the category. -/
theorem getRecordedFreeSpace_eq (rel : Rel) (blk : ℕ) :
    getRecordedFreeSpace rel blk = fsmSpaceCatToAvail (bottomAvail rel blk) := by
  unfold getRecordedFreeSpace bottomAvail slotAvail fsmGetLocation fsmBottomLevel
  simp only
  rcases fsmReadbuf rel ⟨0, blk / slotsPerFSMPage⟩ with _ | page
  · rfl
  · rfl

/-- A request is rounded up to a category, 1 at least. -/
theorem fsmSpaceNeededToCat_eq (hn : n ≤ maxFSMRequestSize) :
    ∃ minCat, fsmSpaceNeededToCat n = .ok minCat ∧ minCat.val = max 1 ((n + 31) / 32) := by
  have hmax : maxFSMRequestSize = 8160 := rfl
  unfold fsmSpaceNeededToCat
  rw [if_neg (by rw [hmax]; omega)]
  by_cases hzero : n = 0
  · exact ⟨1, if_pos hzero, by rw [hzero]; rfl⟩
  · have hstep : (n + fsmCatStep - 1) / fsmCatStep = (n + 31) / 32 := by
      show (n + 32 - 1) / 32 = (n + 31) / 32
      omega
    simp only [if_neg hzero, hstep]
    rw [if_neg (by omega)]
    refine ⟨_, rfl, ?_⟩
    show (n + 31) / 32 % 256 = _
    omega

/-! ## What a round of the search changes -/

/-- The search has changed no bottom slot but those of blocks that do not exist, and those it has
cleared. -/
structure Kept (rel rel' : Rel) : Prop where
  nblocks : rel'.nblocks = rel.nblocks
  consistent : rel'.Consistent
  only : ∀ pos, pos < bottomSlots →
    bottomAvail rel' pos = bottomAvail rel pos ∨
    (bottomAvail rel' pos = 0 ∧ rel.nblocks ≤ pos % 2^32)

theorem Kept.refl (h : rel.Consistent) : Kept rel rel := ⟨rfl, h, fun _ _ => .inl rfl⟩

theorem Kept.trans {rel'' : Rel} (h : Kept rel rel') (h' : Kept rel' rel'') : Kept rel rel'' := by
  refine ⟨h'.nblocks.trans h.nblocks, h'.consistent, fun pos hpos => ?_⟩
  rcases h'.only pos hpos with heq | ⟨hzero, hnone⟩
  · rw [heq]
    exact h.only pos hpos
  · exact .inr ⟨hzero, h.nblocks ▸ hnone⟩

/-- A change of a page keeps the bottom slots when it is one of an upper page, or one that clears
slots of blocks that do not exist. -/
theorem kept_modify (h : rel.Consistent) (hvalid : addr.Valid) {f : FSMPage → FSMPage}
    (hf : ∀ page, page.Consistent → (f page).Consistent)
    (honly : addr.level = 0 → ∀ page, fsmReadbuf rel addr = some page →
      ∀ slot, slot < slotsPerFSMPage →
      fsmGetAvail (f page) slot = fsmGetAvail page slot ∨
        (fsmGetAvail (f page) slot = 0 ∧ rel.nblocks ≤
          (addr.logpageno * slotsPerFSMPage + slot) % 2^32)) :
    Kept rel (rel.modify addr f) := by
  refine ⟨rfl, h.modify addr hf, fun pos hpos => ?_⟩
  unfold bottomAvail slotAvail
  rw [fsmReadbuf_modify rel hvalid (bottom_valid hpos)]
  split
  · rename_i heq
    subst heq
    rcases hread : fsmReadbuf rel ⟨0, pos / slotsPerFSMPage⟩ with _ | page
    · exact .inl rfl
    · have := honly rfl page hread (pos % slotsPerFSMPage) (Nat.mod_lt _ (by decide))
      rw [Nat.div_add_mod'] at this
      exact this
  · exact .inl rfl

/-- A page with another hint. -/
theorem kept_hint (h : rel.Consistent) (hvalid : addr.Valid) {page : FSMPage}
    (hread : fsmReadbuf rel addr = some page) (next : ℤ) :
    Kept rel (rel.modify addr fun _ => { page with nextSlot := next }) := by
  have hpage : page.Consistent := h.page hread
  refine kept_modify h hvalid (fun _ _ => hpage) fun _ page' hread' slot _ => .inl ?_
  rw [hread] at hread'
  rw [← some.inj hread']
  rfl

/-- More pages of zeros. -/
theorem kept_extend (h : rel.Consistent) (n : ℕ) : Kept rel (fsmExtend rel n) := by
  refine ⟨rfl, ?_, fun pos _ => .inl ?_⟩
  · intro page hpage
    rcases List.mem_append.mp hpage with hold | hnew
    · exact h page hold
    · rw [eq_of_mem_replicate hnew]
      exact zero_consistent
  · unfold bottomAvail slotAvail fsmReadbuf fsmExtend
    generalize fsmLogicalToPhysical ⟨0, pos / slotsPerFSMPage⟩ = i
    by_cases hi : i < rel.fsm.length
    · simp only [getElem?_append_left hi]
    · simp only [getElem?_append_right (Nat.le_of_not_lt hi), getElem?_replicate,
        getElem?_eq_none (Nat.le_of_not_lt hi)]
      split
      · rfl
      · rfl

/-! ## The search returns, and what it returns has the space -/

/-- How far the search is from its end at most. -/
def searchMeasure (restarts : ℕ) (addr : FSMAddress) : ℕ := 3 * (10001 - restarts) + addr.level

/-- What the search may return: nothing, or a block that exists, with a bottom slot that has enough
space. -/
def SearchResult (minCat : Fin 256) (rel : Rel) (blkno : ℕ) : Prop :=
  blkno = invalidBlockNumber ∨
    (blkno < rel.nblocks ∧ ∃ pos, pos < bottomSlots ∧ pos % 2^32 = blkno ∧
      minCat ≤ bottomAvail rel pos)

/-- What a round of the search leads to. -/
def StepOk (minCat : Fin 256) (restarts : ℕ) (addr : FSMAddress) (rel : Rel) : SearchStep → Prop
  | .done blkno rel' => Kept rel rel' ∧ SearchResult minCat rel' blkno
  | .next restarts' addr' rel' =>
    Kept rel rel' ∧ addr'.Valid ∧ searchMeasure restarts' addr' < searchMeasure restarts addr

/-- What comes before a round changes nothing of what it leads to. -/
theorem StepOk.of_kept {restarts : ℕ} {step : SearchStep} (hkept : Kept rel rel')
    (h : StepOk minCat restarts addr rel' step) : StepOk minCat restarts addr rel step := by
  cases step with
  | done blkno rel'' => exact ⟨hkept.trans h.1, h.2⟩
  | next restarts' addr' rel'' => exact ⟨hkept.trans h.1, h.2⟩

/-- A round on a page without enough space. -/
theorem searchFailed_ok (restarts : ℕ) (hvalid : addr.Valid) (maxAvail : Fin 256)
    (h : rel.Consistent) :
    StepOk minCat restarts addr rel (searchFailed restarts addr maxAvail rel) := by
  unfold searchFailed
  by_cases hroot : addr.level = fsmRootLevel
  · rw [if_pos hroot]
    exact ⟨Kept.refl h, .inl rfl⟩
  · rw [if_neg hroot]
    obtain ⟨level, p⟩ := addr
    have hlevel : level ≤ fsmRootLevel := hvalid.level_le
    have hparent := hvalid.parent (lt_of_le_of_ne hlevel hroot)
    have hslot : p % slotsPerFSMPage < slotsPerFSMPage := Nat.mod_lt _ (by decide)
    have hkept : Kept rel
        (fsmSetAndSearch rel ⟨level + 1, p / slotsPerFSMPage⟩ (p % slotsPerFSMPage) maxAvail) := by
      have hextend := kept_extend h (fsmLogicalToPhysical ⟨level + 1, p / slotsPerFSMPage⟩ + 1)
      refine hextend.trans (kept_modify hextend.consistent hparent
        (fun page hpage => (fsmSetAvail_spec hpage hslot maxAvail).1) ?_)
      intro hzero
      exact absurd hzero (Nat.succ_ne_zero level)
    simp only [fsmGetParent]
    split_ifs with hlast
    · exact ⟨hkept, .inl rfl⟩
    · refine ⟨hkept, fsmRootAddress_valid, ?_⟩
      show 3 * (10001 - (restarts + 1)) + 2 < 3 * (10001 - restarts) + level
      omega

/-- A round on a page with enough space. -/
theorem searchFound_ok (restarts : ℕ) (hvalid : addr.Valid) (hslot : slot < slotsPerFSMPage)
    (h : rel.Consistent) {avail : Fin 256} (havail : slotAvail rel addr slot = some avail)
    (hmin : minCat ≤ avail) :
    StepOk minCat restarts addr rel (searchFound restarts addr slot rel) := by
  obtain ⟨level, p⟩ := addr
  unfold searchFound fsmBottomLevel
  by_cases hbottom : level = 0
  · subst hbottom
    simp only [fsmDoesBlockExist, decide_eq_true_eq]
    by_cases hexists : fsmGetHeapBlk ⟨0, p⟩ slot < rel.nblocks
    · rw [if_pos hexists]
      refine ⟨Kept.refl h,
        .inr ⟨hexists, p * slotsPerFSMPage + slot, bottom_pos hvalid hslot, rfl, ?_⟩⟩
      rw [bottomAvail, child_div hslot, child_mod hslot, havail]
      exact hmin
    · rw [if_neg hexists]
      have hkept : Kept rel (rel.modify ⟨0, p⟩ (fsmSetAvail · slot 0)) := by
        refine kept_modify h hvalid (fun page hpage => (fsmSetAvail_spec hpage hslot 0).1) ?_
        intro _ page hread s hs
        rw [(fsmSetAvail_spec (h.page hread) hslot 0).2.2 s]
        split_ifs with heq
        · rw [heq]
          exact .inr ⟨rfl, Nat.le_of_not_lt hexists⟩
        · exact .inl rfl
      by_cases hlast : restarts > 10000
      · rw [if_pos hlast]
        exact ⟨hkept, .inl rfl⟩
      · rw [if_neg hlast]
        refine ⟨hkept, fsmRootAddress_valid.child hslot, ?_⟩
        show 3 * (10001 - (restarts + 1)) + 1 < 3 * (10001 - restarts) + 0
        omega
  · obtain _ | level := level
    · omega
    refine ⟨Kept.refl h, hvalid.child hslot, ?_⟩
    show 3 * (10001 - restarts) + level < 3 * (10001 - restarts) + (level + 1)
    omega

/-- A round of the search on any consistent map. -/
theorem searchStep_ok (restarts : ℕ) (hvalid : addr.Valid) (h : rel.Consistent) :
    ∃ step, searchStep minCat restarts addr rel = some step ∧
      StepOk minCat restarts addr rel step := by
  unfold searchStep
  rcases hread : fsmReadbuf rel addr with _ | page
  · exact ⟨_, rfl, searchFailed_ok restarts hvalid 0 h⟩
  · rcases fsmSearchAvail_spec (h.page hread) minCat
      (decide (addr.level = fsmBottomLevel)) Nat.two_pos with
      ⟨_, hsearch⟩ | ⟨slot, hnext, hsearch⟩
    · have hkept := kept_hint h hvalid hread page.nextSlot
      simp only [hsearch]
      exact ⟨_, rfl, (searchFailed_ok restarts hvalid _ hkept.consistent).of_kept hkept⟩
    · simp only [hsearch]
      have hkept :=
        kept_hint h hvalid hread (slot +
          if decide (addr.level = fsmBottomLevel) = true then 1 else 0)
      refine ⟨_, rfl,
        (searchFound_ok restarts hvalid hnext.lt hkept.consistent ?_ hnext.enough).of_kept hkept⟩
      unfold slotAvail
      rw [fsmReadbuf_modify rel hvalid hvalid, if_pos rfl, hread]
      rfl

/-- The search returns. -/
theorem searchLoop_ok (fuel : ℕ) {restarts : ℕ} (hvalid : addr.Valid)
    (h : rel.Consistent) (hfuel : searchMeasure restarts addr < fuel) :
    ∃ blkno rel', searchLoop minCat fuel restarts addr rel = some (blkno, rel') ∧ Kept rel rel' ∧
      SearchResult minCat rel' blkno := by
  induction fuel generalizing restarts addr rel with
  | zero => omega
  | succ fuel ih =>
    obtain ⟨step, hstep, hok⟩ := searchStep_ok restarts hvalid h
    rw [searchLoop, hstep]
    cases step with
    | done blkno rel' => exact ⟨blkno, rel', rfl, hok⟩
    | next restarts' addr' rel' =>
      obtain ⟨hkept, hvalid', hless⟩ := hok
      have hless' : searchMeasure restarts' addr' < fuel := by omega
      obtain ⟨blkno, rel'', hloop, hkept', hresult⟩ := ih hvalid' hkept.consistent hless'
      exact ⟨blkno, rel'', hloop, hkept.trans hkept', hresult⟩

/-- `fsm_search` returns on every consistent map. -/
theorem fsmSearch_ok (minCat : Fin 256) (h : rel.Consistent) :
    ∃ blkno rel', fsmSearch rel minCat = some (blkno, rel') ∧ Kept rel rel' ∧
      SearchResult minCat rel' blkno :=
  searchLoop_ok _ fsmRootAddress_valid h (by decide)

/-! ## The first way down -/

/-- The slots up to the way to bottom position `pos` are accurate, and the hints of the pages there
are zero. -/
structure SettledTo (rel : Rel) (pos : ℕ) : Prop where
  accurate : ∀ level p, FSMAddress.Valid ⟨level + 1, p⟩ → ∀ slot, slot < slotsPerFSMPage →
    p * slotsPerFSMPage + slot ≤ pos / slotsPerFSMPage^(level + 1) → Accurate rel level p slot
  hints : ∀ level p, FSMAddress.Valid ⟨level, p⟩ → p ≤ pos / slotsPerFSMPage^(level + 1) →
    ∀ next, hint rel ⟨level, p⟩ = some next → next = 0

/-- A slot with at least `minCat` shows at the root of its page. -/
theorem le_rootAvail (h : rel.Consistent) (hslot : slot < slotsPerFSMPage) {avail : Fin 256}
    (havail : slotAvail rel addr slot = some avail) (hmin : minCat ≤ avail) :
    minCat ≤ rootAvail rel addr := by
  obtain ⟨page, hread, rfl⟩ := map_eq_some_iff.mp havail
  rw [rootAvail, hread]
  exact hmin.trans ((h.page hread).avail_le hslot)

/-- The pages over a bottom position. -/
theorem path_valid (hpos : pos < bottomSlots) (hlevel : level ≤ fsmRootLevel) :
    FSMAddress.Valid ⟨level, pos / slotsPerFSMPage^(level + 1)⟩ := by
  refine ⟨hlevel, Nat.div_lt_of_lt_mul ?_⟩
  have hroot : fsmRootLevel = 2 := rfl
  rw [← pow_add, show level + 1 + (fsmRootLevel - level) = 3 by omega]
  exact hpos

/-- The page over a page over a bottom position. -/
theorem path_succ (pos level : ℕ) :
    pos / slotsPerFSMPage^(level + 1) = pos / slotsPerFSMPage^level / slotsPerFSMPage := by
  rw [pow_succ, Nat.div_div_eq_div_mul]

section FirstWay

variable {rel₀ : Rel} {pos : ℕ} {minCat : Fin 256} (hsettled : SettledTo rel₀ pos)
  (h : rel₀.Consistent)
  (hpos : pos < bottomSlots) (hcat : 0 < minCat) (hmin : minCat ≤ bottomAvail rel₀ pos)
include hsettled h hpos hcat hmin

/-- The way up: each page over a bottom slot with at least `minCat` has it at its root, and in the
slot for it. -/
theorem SettledTo.path (level : ℕ) (hlevel : level ≤ fsmRootLevel) :
    ∃ avail, slotAvail rel₀ ⟨level, pos / slotsPerFSMPage^(level + 1)⟩
      (pos / slotsPerFSMPage^level % slotsPerFSMPage) = some avail ∧ minCat ≤ avail := by
  have hslot : ∀ n, n % slotsPerFSMPage < slotsPerFSMPage := fun n => Nat.mod_lt _ (by decide)
  induction level with
  | zero =>
    unfold bottomAvail at hmin
    rw [zero_add, pow_one, pow_zero, Nat.div_one]
    rcases havail : slotAvail rel₀ ⟨0, pos / slotsPerFSMPage⟩ (pos % slotsPerFSMPage) with _ | avail
    · rw [havail] at hmin
      exact absurd hmin (not_le.mpr hcat)
    · rw [havail] at hmin
      exact ⟨avail, rfl, hmin⟩
  | succ level ih =>
    obtain ⟨below, hbelow, hbelow_min⟩ := ih (by omega)
    have hroot := le_rootAvail h (hslot _) hbelow hbelow_min
    have hvalid := path_valid hpos hlevel
    rw [path_succ pos (level + 1)] at hvalid ⊢
    generalize hq : pos / slotsPerFSMPage^(level + 1) = q at hroot hvalid ⊢
    have hsplit : q / slotsPerFSMPage * slotsPerFSMPage + q % slotsPerFSMPage = q :=
      Nat.div_add_mod' q _
    -- The page is there, because the page below it is.
    have hlt := fsmLogicalToPhysical_lt_child hvalid (hslot q)
    rw [hsplit] at hlt
    rcases hread : fsmReadbuf rel₀ ⟨level + 1, q / slotsPerFSMPage⟩ with _ | page
    · have hmissing : fsmReadbuf rel₀ ⟨level, q⟩ = none := by
        rw [fsmReadbuf_eq_none] at hread ⊢
        omega
      rw [rootAvail, hmissing] at hroot
      exact absurd hroot (not_le.mpr hcat)
    · have havail : slotAvail rel₀ ⟨level + 1, q / slotsPerFSMPage⟩ (q % slotsPerFSMPage) =
          some (fsmGetAvail page (q % slotsPerFSMPage)) := by
        rw [slotAvail, hread]
        rfl
      refine ⟨_, havail, ?_⟩
      rw [hsettled.accurate level _ hvalid _ (hslot q) (by rw [hsplit, hq]) _ havail, hsplit]
      exact hroot

section
variable (hp : p ≤ pos / slotsPerFSMPage^(level + 1)) (hroot : minCat ≤ rootAvail rel₀ ⟨level, p⟩)
include hp hroot

/-- A page with `minCat` at its root, up to the one over the bottom position, has a slot with
`minCat` that leads no further than the position. -/
theorem SettledTo.exists_slot_le (hlevel : level ≤ fsmRootLevel) :
    ∃ page, fsmReadbuf rel₀ ⟨level, p⟩ = some page ∧ ∃ slot, slot < slotsPerFSMPage ∧
      minCat ≤ fsmGetAvail page slot ∧ p * slotsPerFSMPage + slot ≤
        pos / slotsPerFSMPage^level := by
  unfold rootAvail at hroot
  rcases hread : fsmReadbuf rel₀ ⟨level, p⟩ with _ | page
  · rw [hread] at hroot
    exact absurd hroot (not_le.mpr hcat)
  rw [hread] at hroot
  obtain ⟨slot, hnext⟩ := exists_isNext (h.page hread) hroot
  refine ⟨page, rfl, ?_⟩
  have hsplit := Nat.div_add_mod' (pos / slotsPerFSMPage^level) slotsPerFSMPage
  rw [path_succ] at hp
  rcases lt_or_eq_of_le hp with hlt | rfl
  · -- Every slot of an earlier page is before the position.
    refine ⟨slot, hnext.lt, hnext.enough, ?_⟩
    have hslot := hnext.lt
    have hmul := Nat.mul_le_mul_right slotsPerFSMPage (Nat.succ_le_of_lt hlt)
    rw [Nat.succ_mul] at hmul
    omega
  · obtain ⟨avail, havail, hle⟩ := hsettled.path h hpos hcat hmin level hlevel
    rw [path_succ, slotAvail, hread] at havail
    exact ⟨_, Nat.mod_lt _ (by decide), hle.trans_eq (some.inj havail).symm, hsplit.le⟩

/-- The search comes to such a slot. -/
theorem SettledTo.step (hvalid : FSMAddress.Valid ⟨level, p⟩)
    (hsame : fsmReadbuf rel ⟨level, p⟩ = fsmReadbuf rel₀ ⟨level, p⟩)
    (restarts : ℕ) :
    ∃ s avail page, s < slotsPerFSMPage ∧ p * slotsPerFSMPage + s ≤ pos / slotsPerFSMPage^level ∧
      slotAvail rel₀ ⟨level, p⟩ s = some avail ∧ minCat ≤ avail ∧
      searchStep minCat restarts ⟨level, p⟩ rel =
        some (searchFound restarts ⟨level, p⟩ s (rel.modify ⟨level, p⟩ fun _ => page)) := by
  have hlevel : level ≤ fsmRootLevel := hvalid.level_le
  obtain ⟨page, hread, t, ht, htval, hle⟩ :=
    hsettled.exists_slot_le h hpos hcat hmin hp hroot hlevel
  have hnext : page.nextSlot = 0 := hsettled.hints _ p hvalid hp _ (by rw [hint, hread]; rfl)
  obtain ⟨hless, _⟩ | ⟨s, hfound, hsearch⟩ :=
    fsmSearchAvail_spec (h.page hread) minCat (decide (level = fsmBottomLevel)) Nat.two_pos
  · exact absurd htval (not_le.mpr (((h.page hread).avail_le ht).trans_lt hless))
  have hs := hfound.le_of_hint hnext ht htval
  generalize (⟨_, _⟩ : FSMPage) = page' at hsearch
  refine ⟨s, fsmGetAvail page s, page', by omega, by omega, by rw [slotAvail, hread]; rfl,
    hfound.enough, ?_⟩
  simp only [searchStep, hsame, hread, hsearch]

end

/-- The way down from a page with `minCat` at its root: it ends at a bottom slot with `minCat`, no
later than the position, and the search returns its block if that exists. -/
theorem searchLoop_first (hexists : ∀ x, x ≤ pos → minCat ≤ bottomAvail rel₀ x →
    x % 2^32 < rel₀.nblocks)
    {level : ℕ} (hvalid : FSMAddress.Valid ⟨level, p⟩) (hp : p ≤ pos / slotsPerFSMPage^(level + 1))
    (hroot : minCat ≤ rootAvail rel₀ ⟨level, p⟩) (hnblocks : rel.nblocks = rel₀.nblocks)
    (hsame : ∀ addr : FSMAddress, addr.Valid → addr.level ≤ level →
      fsmReadbuf rel addr = fsmReadbuf rel₀ addr)
    {fuel : ℕ} (hfuel : level < fuel) (restarts : ℕ) :
    ∃ x rel', x ≤ pos ∧ minCat ≤ bottomAvail rel₀ x ∧
      searchLoop minCat fuel restarts ⟨level, p⟩ rel = some (x % 2^32, rel') := by
  induction fuel generalizing level p rel with
  | zero => omega
  | succ fuel ih =>
    obtain ⟨s, avail, page, hslot, hle, havail, hval, hstep⟩ :=
      hsettled.step h hpos hcat hmin hp hroot hvalid (hsame _ hvalid le_rfl) restarts
    rw [searchLoop, hstep]
    cases level with
    | zero =>
      rw [pow_zero, Nat.div_one] at hle
      have hfound : minCat ≤ bottomAvail rel₀ (p * slotsPerFSMPage + s) := by
        rw [bottomAvail, child_div hslot, child_mod hslot, havail]
        exact hval
      have hblk : (p * slotsPerFSMPage + s) % 2^32 < rel.nblocks := by
        rw [hnblocks]
        exact hexists _ hle hfound
      refine ⟨p * slotsPerFSMPage + s, rel.modify ⟨0, p⟩ fun _ => page, hle, hfound, ?_⟩
      rw [searchFound, if_pos (show 0 = fsmBottomLevel from rfl),
        if_pos (show fsmDoesBlockExist (rel.modify ⟨0, p⟩ _) (fsmGetHeapBlk ⟨0, p⟩ s) =
          true from decide_eq_true hblk)]
      rfl
    | succ level =>
      -- The slot is accurate, so that the page below has `minCat` at its root.
      have hroot' : minCat ≤ rootAvail rel₀ ⟨level, p * slotsPerFSMPage + s⟩ := by
        rw [← hsettled.accurate level p hvalid s hslot hle avail havail]
        exact hval
      refine ih (hvalid.child hslot) hle hroot' hnblocks ?_ (show level < fuel by omega)
      intro addr haddr hlevel
      rw [fsmReadbuf_modify rel hvalid haddr, if_neg (by rintro rfl; exact absurd hlevel (by simp)),
        hsame addr haddr (Nat.le_succ_of_le hlevel)]

/-- A search finds the first way down from the root. -/
theorem SettledTo.search (hexists : ∀ x, x ≤ pos → minCat ≤ bottomAvail rel₀ x →
    x % 2^32 < rel₀.nblocks) :
    ∃ x rel', x ≤ pos ∧ minCat ≤ bottomAvail rel₀ x ∧
      fsmSearch rel₀ minCat = some (x % 2^32, rel') := by
  have hrootno : pos / slotsPerFSMPage^(fsmRootLevel + 1) = 0 := Nat.div_eq_of_lt hpos
  obtain ⟨avail, havail, hle⟩ := hsettled.path h hpos hcat hmin fsmRootLevel le_rfl
  rw [hrootno] at havail
  exact searchLoop_first hsettled h hpos hcat hmin hexists fsmRootAddress_valid (Nat.zero_le _)
    (le_rootAvail h (Nat.mod_lt _ (by decide)) havail hle) rfl (fun _ _ _ => rfl)
    (show fsmRootLevel < 3 * 10001 + 3 by decide) 0

end FirstWay

/-! ## Free space can be found -/

/-- The slots of the pages in `P` are accurate. -/
def SlotsAccurate (rel : Rel) (P : FSMAddress → Prop) : Prop :=
  ∀ level p, FSMAddress.Valid ⟨level + 1, p⟩ → ∀ slot, slot < slotsPerFSMPage →
    P ⟨level, p * slotsPerFSMPage + slot⟩ → Accurate rel level p slot

/-- The hints of the pages in `P` are zero. -/
def HintsReset (rel : Rel) (P : FSMAddress → Prop) : Prop :=
  ∀ addr : FSMAddress, addr.Valid → P addr → ∀ next, hint rel addr = some next → next = 0

/-- The page covers a heap block that has a block number. -/
def CoversBlock : FSMAddress → Prop := CoversRange 0 invalidBlockNumber

/-- The bottom slots past the last block number are zero. -/
def ClearBeyond (rel : Rel) : Prop :=
  ∀ pos, pos < bottomSlots → 2^32 ≤ pos → bottomAvail rel pos = 0

/-- The map holds a category for the block that satisfies a request. -/
def Satisfies (rel : Rel) (blk n : ℕ) : Prop :=
  ∃ minCat, fsmSpaceNeededToCat n = .ok minCat ∧ minCat ≤ bottomAvail rel blk

/-- When the slots are accurate and the hints zero, everything up to an existing block is settled.
-/
theorem settledTo_of_accurate (hslots : SlotsAccurate rel CoversBlock)
    (hhints : HintsReset rel CoversBlock) (hpos : ∀ level, level ≤ fsmRootLevel →
      pos / slotsPerFSMPage^(level + 1) ≤ (invalidBlockNumber - 1) / slotsPerFSMPage^(level + 1)) :
    SettledTo rel pos := by
  have hcovers : ∀ level p, level ≤ fsmRootLevel → p ≤ pos / slotsPerFSMPage^(level + 1) →
      CoversBlock ⟨level, p⟩ := by
    intro level p hlevel hp
    refine (overlaps_iff (by decide)).mp ⟨?_, hp.trans (hpos level hlevel)⟩
    rw [Nat.zero_div]
    exact Nat.zero_le _
  constructor
  · intro level p hvalid slot hslot hle
    exact hslots level p hvalid slot hslot (hcovers level _ (hvalid.child hslot).level_le hle)
  · intro level p hvalid hle
    exact hhints ⟨level, p⟩ hvalid (hcovers level p hvalid.level_le hle)

/-- A block number is before the end of the bottom level. -/
theorem lt_bottomSlots (h : blk < 2^32) : blk < bottomSlots := h.trans (by decide)

/-- On a settled map a search fails only when no existing block has the space. -/
theorem fsmSearch_complete (h : rel.Consistent) (hslots : SlotsAccurate rel CoversBlock)
    (hhints : HintsReset rel CoversBlock) (hcat : 0 < minCat) (hblk : blk < rel.nblocks)
    (hmin : minCat ≤ bottomAvail rel blk) :
      ∃ x rel', x ≤ blk ∧ fsmSearch rel minCat = some (x, rel') := by
  have hnumber : rel.nblocks ≤ invalidBlockNumber := rel.nblocks_le
  have hinvalid : invalidBlockNumber = 2^32 - 1 := rfl
  have hbottom := lt_bottomSlots (show blk < 2^32 by omega)
  have hsettled : SettledTo rel blk :=
    settledTo_of_accurate hslots hhints fun level _ => Nat.div_le_div_right (by omega)
  obtain ⟨x, rel', hx, _, hsearch⟩ := hsettled.search h hbottom hcat hmin
    fun x hx _ => lt_of_le_of_lt (Nat.mod_le _ _) (by omega)
  rw [Nat.mod_eq_of_lt (by omega)] at hsearch
  exact ⟨x, rel', hx, hsearch⟩

/-- A request that is not too large is a search. -/
theorem getPageWithFreeSpace_eq (rel : Rel) (h : fsmSpaceNeededToCat n = .ok minCat) :
    getPageWithFreeSpace rel n = .ok (fsmSearch rel minCat) := by
  rw [getPageWithFreeSpace, h]

/-- What `GetPageWithFreeSpace` does on a consistent map: it returns, and a block it returns exists
and has the space, if nothing is recorded past the last block number. -/
theorem getPageWithFreeSpace_sound (h : rel.Consistent) (hn : n ≤ maxFSMRequestSize) :
    ∃ blkno rel', getPageWithFreeSpace rel n = .ok (some (blkno, rel')) ∧
      (ClearBeyond rel → blkno ≠ invalidBlockNumber →
        blkno < rel.nblocks ∧ n ≤ getRecordedFreeSpace rel' blkno) := by
  obtain ⟨minCat, hneeded, hval⟩ := fsmSpaceNeededToCat_eq hn
  have hcat : 0 < minCat := Fin.lt_def.mpr (show 0 < minCat.val by omega)
  obtain ⟨blkno, rel', hsearch, hkept, hresult⟩ := fsmSearch_ok minCat h
  refine ⟨blkno, rel', ?_, fun hclear hfound => ?_⟩
  · rw [getPageWithFreeSpace_eq rel hneeded, hsearch]
  · obtain ⟨hexists, pos, hpos, hmod, hmin⟩ := hresult.resolve_left hfound
    refine ⟨hkept.nblocks ▸ hexists, ?_⟩
    -- A slot that has the space is that of a block number, and the search has not changed it.
    have hsame : bottomAvail rel' pos = bottomAvail rel pos := by
      rcases hkept.only pos hpos with hsame | ⟨hzero, _⟩
      · exact hsame
      · rw [hzero] at hmin
        exact absurd hmin (not_le.mpr hcat)
    have hnumber : pos < 2^32 := by
      by_contra hbeyond
      rw [hsame, hclear pos hpos (Nat.le_of_not_lt hbeyond)] at hmin
      exact absurd hmin (not_le.mpr hcat)
    rw [Nat.mod_eq_of_lt hnumber] at hmod
    rw [getRecordedFreeSpace_eq, ← hmod]
    -- A block whose category is at least what a request needs has the space.
    have hle : minCat.val ≤ (bottomAvail rel' pos).val := hmin
    unfold fsmSpaceCatToAvail
    split_ifs
    · exact hn
    · show n ≤ (bottomAvail rel' pos).val * 32
      omega

/-- A page covers the blocks that the pages below it cover. -/
theorem CoversRange.parent (hslot : slot < slotsPerFSMPage)
    (h : CoversRange start endBlk ⟨level, p * slotsPerFSMPage + slot⟩) :
    CoversRange start endBlk ⟨level + 1, p⟩ := by
  obtain ⟨blk, hlow, hhigh, hno⟩ := h
  refine ⟨blk, hlow, hhigh, ?_⟩
  rw [path_succ blk (level + 1), hno, child_div hslot]

/-- After the vacuum of a range the slots are accurate, when only slots that cover blocks of the
range were not. -/
theorem freeSpaceMapVacuumRange_accurate (h : rel.Consistent) (hend : endBlk ≤ 2^32)
    (hstale : SlotsAccurate rel fun addr => CoversBlock addr ∧ ¬ CoversRange start endBlk addr) :
    SlotsAccurate (freeSpaceMapVacuumRange rel start endBlk) CoversBlock := by
  intro level p hvalid slot hslot hcovers
  have hswept := freeSpaceMapVacuumRange_swept start h hend
  have hchild := hvalid.child hslot
  by_cases hrange : CoversRange start endBlk ⟨level, p * slotsPerFSMPage + slot⟩
  · exact hswept.accurate level p hvalid slot hslot ⟨hvalid.level_le, hchild.below_root, hrange⟩
  · -- Neither the slot nor anything under the page it covers is in the range.
    intro avail havail
    rw [hswept.kept _ hvalid slot hslot fun l hl => by
      obtain rfl : level = l := Nat.succ.inj hl
      exact fun hin => hrange hin.2.2] at havail
    rw [hswept.root_kept h hchild fun l s hl hs => by
      subst hl
      exact fun hin => hrange (hin.2.2.parent hs)]
    exact hstale level p hvalid slot hslot ⟨hcovers, hrange⟩ avail havail

/-- After the vacuum of a range the hints are zero, when those of the pages that cover no block of
the range were. -/
theorem freeSpaceMapVacuumRange_hints (h : rel.Consistent) (hend : endBlk ≤ 2^32)
    (hhints : HintsReset rel fun addr => CoversBlock addr ∧ ¬ CoversRange start endBlk addr) :
    HintsReset (freeSpaceMapVacuumRange rel start endBlk) CoversBlock := by
  intro addr hvalid hcovers next hnext
  have hswept := freeSpaceMapVacuumRange_swept start h hend
  by_cases hrange : CoversRange start endBlk addr
  · exact hswept.reset addr hvalid ⟨hvalid.below_root, hrange⟩ next hnext
  · rw [hswept.hints addr hvalid fun hin => hrange hin.2] at hnext
    exact hhints addr hvalid ⟨hcovers, hrange⟩ next hnext

/-- The vacuum of the map makes the slots that cover a block number accurate and sets the hints
there back. -/
theorem freeSpaceMapVacuum_settles (h : rel.Consistent) :
    (freeSpaceMapVacuum rel).Consistent ∧ SlotsAccurate (freeSpaceMapVacuum rel) CoversBlock ∧
      HintsReset (freeSpaceMapVacuum rel) CoversBlock ∧
      ∀ pos, pos < bottomSlots →
        bottomAvail (freeSpaceMapVacuum rel) pos = bottomAvail rel pos := by
  have hinvalid : invalidBlockNumber ≤ 2^32 := by decide
  -- Nothing is outside the range of all block numbers.
  have hnone : ∀ addr, ¬ (CoversBlock addr ∧ ¬ CoversRange 0 invalidBlockNumber addr) :=
    fun addr hin => hin.2 hin.1
  rw [freeSpaceMapVacuum_eq]
  have hswept := freeSpaceMapVacuumRange_swept 0 h hinvalid
  refine ⟨hswept.consistent,
    freeSpaceMapVacuumRange_accurate h hinvalid fun _ _ _ _ _ hin => absurd hin (hnone _),
    freeSpaceMapVacuumRange_hints h hinvalid fun _ _ hin =>
      absurd hin (hnone _), fun pos hpos => ?_⟩
  -- Bottom slots are not those of pages below.
  unfold bottomAvail
  rw [hswept.kept _ (bottom_valid hpos) _ (Nat.mod_lt _ (by decide)) nofun]

/-- `GetPageWithFreeSpace` returns for every request; it fails only when no existing block has a
category that satisfies the request, and a block that it returns exists and has the space, if
nothing is recorded past the last block number. -/
def FindsSpace (rel : Rel) : Prop :=
  ∀ n, n ≤ maxFSMRequestSize → ∃ blkno rel', getPageWithFreeSpace rel n = .ok (some (blkno, rel')) ∧
    (blkno = invalidBlockNumber → ∀ blk, blk < rel.nblocks → ¬ Satisfies rel blk n) ∧
    (ClearBeyond rel → blkno ≠ invalidBlockNumber →
      blkno < rel.nblocks ∧ n ≤ getRecordedFreeSpace rel' blkno)

/-- On a settled map free space is found. -/
theorem findsSpace_of_settled (h : rel.Consistent) (hslots : SlotsAccurate rel CoversBlock)
    (hhints : HintsReset rel CoversBlock) : FindsSpace rel := by
  intro n hn
  obtain ⟨blkno, rel', hget, hsound⟩ := getPageWithFreeSpace_sound h hn
  refine ⟨blkno, rel', hget, ?_, hsound⟩
  rintro rfl blk hblk ⟨minCat, hneeded, hmin⟩
  obtain ⟨minCat', hneeded', hval⟩ := fsmSpaceNeededToCat_eq hn
  obtain rfl := Except.ok.inj (hneeded.symm.trans hneeded')
  have hcat : 0 < minCat := Fin.lt_def.mpr (show 0 < minCat.val by omega)
  -- A search on a settled map comes to a block no later than `blk`.
  obtain ⟨x, rel'', hx, hsearch⟩ := fsmSearch_complete h hslots hhints hcat hblk hmin
  rw [getPageWithFreeSpace_eq rel hneeded, hsearch] at hget
  have hx' : x = invalidBlockNumber := congrArg Prod.fst (some.inj (Except.ok.inj hget))
  have := rel.nblocks_le
  omega

/-- A vacuum of the map makes its free space findable. After it, each upper slot that covers a heap
block holds the root of the page it covers, zero past the end of the map, no heap block has another
category, and free space is found. The vacuum of a range leads to the same state of the slots when
only those that cover blocks of the range were stale, and to the same state of the hints when only
those of pages that cover blocks of the range were not zero. -/
theorem vacuum_makes_space_findable (rel : Rel) (h : rel.Consistent) :
    SlotsAccurate (freeSpaceMapVacuum rel) CoversBlock ∧
      (∀ pos, pos < bottomSlots → bottomAvail (freeSpaceMapVacuum rel) pos = bottomAvail rel pos) ∧
      FindsSpace (freeSpaceMapVacuum rel) ∧
      ∀ start endBlk, start < 2^32 → endBlk < 2^32 →
        SlotsAccurate rel (fun addr => CoversBlock addr ∧ ¬ CoversRange start endBlk addr) →
        SlotsAccurate (freeSpaceMapVacuumRange rel start endBlk) CoversBlock ∧
          (HintsReset rel (fun addr => CoversBlock addr ∧ ¬ CoversRange start endBlk addr) →
            FindsSpace (freeSpaceMapVacuumRange rel start endBlk)) := by
  obtain ⟨hconsistent, hslots, hhints, hbottom⟩ := freeSpaceMapVacuum_settles h
  refine ⟨hslots, hbottom, findsSpace_of_settled hconsistent hslots hhints, ?_⟩
  intro start endBlk _ hend hstale
  have haccurate := freeSpaceMapVacuumRange_accurate h hend.le hstale
  exact ⟨haccurate, fun hhints =>
    findsSpace_of_settled (freeSpaceMapVacuumRange_swept start h hend.le).consistent haccurate
    (freeSpaceMapVacuumRange_hints h hend.le hhints)⟩

/-- A map whose bottom page knows space in block 3 that the pages above do not know of. -/
def unvacuumed : Rel :=
  ⟨5, [FSMPage.zero, FSMPage.zero, fsmSetAvail FSMPage.zero 3 10], Nat.le_of_ble_eq_true rfl⟩

/-- Pages of zeros, with one slot written on the last. -/
theorem written_consistent {pages : List FSMPage} (h : ∀ page ∈ pages, page = FSMPage.zero)
    (hslot : slot < slotsPerFSMPage) {value : Fin 256} :
    ∀ page ∈ pages ++ [fsmSetAvail FSMPage.zero slot value], page.Consistent := by
  intro page hpage
  rcases List.mem_append.mp hpage with hold | hnew
  · rw [h page hold]
    exact zero_consistent
  · rw [mem_singleton.mp hnew]
    exact (fsmSetAvail_spec zero_consistent hslot value).1

theorem vacuum_makes_space_findable_block :
    unvacuumed.Consistent ∧ SlotsAccurate (freeSpaceMapVacuum unvacuumed) CoversBlock ∧
      FindsSpace (freeSpaceMapVacuum unvacuumed) := by
  have hconsistent : unvacuumed.Consistent :=
    written_consistent (show ∀ page ∈ [FSMPage.zero, FSMPage.zero], page = FSMPage.zero by simp)
      (by decide)
  obtain ⟨hslots, _, hfinds, _⟩ := vacuum_makes_space_findable unvacuumed hconsistent
  exact ⟨hconsistent, hslots, hfinds⟩

/-! ## What no heap block is recorded in -/

/-- A map of one page, whose slot 260 covers no block number. -/
def staleRoot : Rel := ⟨0, [] ++ [fsmSetAvail FSMPage.zero 260 1], Nat.zero_le _⟩

/-- A map that has space recorded in the slot at position `2^32`, past the last block number. -/
def recordedBeyond : Rel :=
  ⟨1, replicate (fsmLogicalToPhysical ⟨0, 1055533⟩) FSMPage.zero ++
    [fsmSetAvail FSMPage.zero 3519 255],
    Nat.le_of_ble_eq_true rfl⟩

/-- Slot 260 of the root page covers no block number, and the vacuum passes it over. -/
theorem staleRoot_stale : ¬ Accurate (freeSpaceMapVacuum staleRoot) 1 0 260 := by
  have hconsistent : staleRoot.Consistent := written_consistent (by simp) (by decide)
  have hswept :=
    freeSpaceMapVacuumRange_swept 0 hconsistent (show invalidBlockNumber ≤ 2^32 by decide)
  rw [← freeSpaceMapVacuum_eq] at hswept
  have hvalid : FSMAddress.Valid ⟨1 + 1, 0⟩ := fsmRootAddress_valid
  have huncovered : ¬ CoversRange 0 invalidBlockNumber ⟨1, 0 * slotsPerFSMPage + 260⟩ := by
    rintro ⟨blk, _, hlt, hno⟩
    have hle : blk / slotsPerFSMPage^2 ≤ invalidBlockNumber / slotsPerFSMPage^2 :=
      Nat.div_le_div_right hlt.le
    have hlast : invalidBlockNumber / slotsPerFSMPage^2 = 259 := by decide
    have hno' : blk / slotsPerFSMPage^2 = 260 := hno
    omega
  have hslot : slotAvail (freeSpaceMapVacuum staleRoot) ⟨1 + 1, 0⟩ 260 = some 1 := by
    rw [hswept.kept _ hvalid 260 (by decide) fun l hl => by
      obtain rfl : 1 = l := Nat.succ.inj hl
      exact fun hin => huncovered hin.2.2]
    have hget := (fsmSetAvail_spec zero_consistent (show 260 < slotsPerFSMPage by decide) 1).2.2 260
    exact congrArg some hget
  have hmissing : fsmReadbuf (freeSpaceMapVacuum staleRoot)
      ⟨1, 0 * slotsPerFSMPage + 260⟩ = none := by
    rw [fsmReadbuf_eq_none, hswept.length]
    decide
  intro haccurate
  have := haccurate 1 hslot
  rw [rootAvail, hmissing] at this
  exact absurd this (by decide)

/-- Only the slot at position `2^32` has space recorded. -/
theorem recordedBeyond_bottom (hpos : pos < bottomSlots) :
    bottomAvail recordedBeyond pos = if pos = 2^32 then 255 else 0 := by
  have hlast : FSMAddress.Valid ⟨0, 1055533⟩ := ⟨Nat.zero_le _, by decide⟩
  have hget := (fsmSetAvail_spec zero_consistent (show 3519 < slotsPerFSMPage by decide) 255).2.2
    (pos % slotsPerFSMPage)
  have hsplit : pos = 2^32 ↔ pos / slotsPerFSMPage = 1055533 ∧ pos % slotsPerFSMPage = 3519 := by
    rw [slotsPerFSMPage_eq]
    omega
  unfold bottomAvail slotAvail fsmReadbuf recordedBeyond
  by_cases hpage : pos / slotsPerFSMPage = 1055533
  · rw [hpage, getElem?_append_right (by rw [length_replicate]), length_replicate, Nat.sub_self]
    show (some (fsmGetAvail (fsmSetAvail FSMPage.zero 3519 255) (pos % slotsPerFSMPage))).getD 0 = _
    rw [getD_some, hget]
    by_cases hslot : pos % slotsPerFSMPage = 3519
    · rw [if_pos hslot, if_pos (hsplit.mpr ⟨hpage, hslot⟩)]
    · rw [if_neg hslot, if_neg fun h => hslot (hsplit.mp h).2]
      rfl
  · -- The other pages are pages of zeros or past the end.
    have hne := mt (fsmLogicalToPhysical_inj (bottom_valid hpos) hlast) fun heq =>
      hpage (congrArg FSMAddress.logpageno heq)
    rw [if_neg fun h => hpage (hsplit.mp h).1]
    rcases lt_or_gt_of_ne hne with hlt | hgt
    · rw [getElem?_append_left (by rw [length_replicate]; exact hlt),
        getElem?_replicate, if_pos hlt]
      rfl
    · rw [getElem?_eq_none (by rw [length_append, length_replicate, length_singleton]; omega)]
      rfl

/-- A search goes down to the slot at position `2^32`, whose block number wraps around to that of
block 0. -/
theorem recordedBeyond_search :
    ∃ rel', fsmSearch (freeSpaceMapVacuum recordedBeyond) 1 = some (0, rel') ∧
      getRecordedFreeSpace rel' 0 = 0 := by
  have hstart : recordedBeyond.Consistent :=
    written_consistent (fun page hpage => eq_of_mem_replicate hpage) (by decide)
  obtain ⟨hconsistent, hslots, hhints, hsame⟩ := freeSpaceMapVacuum_settles hstart
  have hnblocks : (freeSpaceMapVacuum recordedBeyond).nblocks = 1 := by
    rw [freeSpaceMapVacuum_eq]
    exact (freeSpaceMapVacuumRange_swept 0 hstart (by decide)).nblocks
  have hbottom : ∀ pos, pos < bottomSlots →
      bottomAvail (freeSpaceMapVacuum recordedBeyond) pos = if pos = 2^32 then 255 else 0 :=
    fun pos hpos => (hsame pos hpos).trans (recordedBeyond_bottom hpos)
  have hpos : 2^32 < bottomSlots := by decide
  have hmin : 1 ≤ bottomAvail (freeSpaceMapVacuum recordedBeyond) (2^32) := by
    rw [hbottom _ hpos, if_pos rfl]
    decide
  -- The position is on the bottom page of the last block numbers.
  have hsettled : SettledTo (freeSpaceMapVacuum recordedBeyond) (2^32) := by
    refine settledTo_of_accurate hslots hhints fun level hlevel => ?_
    have hall : ∀ l : Fin 3, 2^32 / slotsPerFSMPage^(l.val + 1) ≤
        (invalidBlockNumber - 1) / slotsPerFSMPage^(l.val + 1) := by
      decide
    exact hall ⟨level, Nat.lt_succ_of_le hlevel⟩
  have honly : ∀ x, x ≤ 2^32 → 1 ≤ bottomAvail (freeSpaceMapVacuum recordedBeyond) x →
      x = 2^32 := by
    intro x hx hval
    by_contra hne
    rw [hbottom x (lt_of_le_of_lt hx hpos), if_neg hne] at hval
    exact absurd hval (by decide)
  obtain ⟨x, rel', hx, hval, hfound⟩ := hsettled.search hconsistent hpos (by decide) hmin
    fun x hx hval => by rw [honly x hx hval, hnblocks]; decide
  rw [honly x hx hval, Nat.mod_self] at hfound
  refine ⟨rel', hfound, ?_⟩
  -- Nothing is recorded for block 0, before and after the search.
  obtain ⟨_, _, hsearch, hkept, _⟩ := fsmSearch_ok 1 hconsistent
  obtain ⟨rfl, rfl⟩ := Prod.mk.inj (some.inj (hfound.symm.trans hsearch))
  have hzero : bottomAvail rel' 0 = 0 := by
    rcases hkept.only 0 (by decide) with heq | ⟨heq, _⟩
    · rw [heq, hbottom 0 (by decide), if_neg (by decide)]
    · exact heq
  rw [getRecordedFreeSpace_eq, hzero]
  rfl

/-- The vacuum passes over the slots that cover no block number, and what is recorded past the last
block number is taken for the space of another block. -/
theorem vacuum_misses_unnumbered :
    (∃ rel : Rel, rel.Consistent ∧ ∃ level p slot, FSMAddress.Valid ⟨level + 1, p⟩ ∧
      slot < slotsPerFSMPage ∧
        ¬ Accurate (freeSpaceMapVacuum rel) level p slot) ∧
      ∃ (rel : Rel) (n blkno : ℕ) (rel' : Rel), rel.Consistent ∧ n ≤ maxFSMRequestSize ∧
        getPageWithFreeSpace (freeSpaceMapVacuum rel) n = .ok (some (blkno, rel')) ∧
        blkno ≠ invalidBlockNumber ∧
        ¬ n ≤ getRecordedFreeSpace rel' blkno := by
  constructor
  · exact ⟨staleRoot, written_consistent (by simp) (by decide), 1, 0, 260,
      fsmRootAddress_valid, by decide,
      staleRoot_stale⟩
  · obtain ⟨rel', hsearch, hzero⟩ := recordedBeyond_search
    refine ⟨recordedBeyond, 1, 0, rel',
      written_consistent (fun page hpage => eq_of_mem_replicate hpage) (by decide),
      by decide, ?_, by decide, ?_⟩
    · rw [getPageWithFreeSpace_eq _ (show fsmSpaceNeededToCat 1 = .ok 1 from rfl), hsearch]
    · rw [hzero]
      decide

end PgAutoIndex.Freespace
