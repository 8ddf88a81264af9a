import Mathlib.Data.Finset.Max
import Mathlib.Order.Fin.Basic
import PgAutoIndex.Port
import PgAutoIndex.MaxTree

/-!
# Pages of the free space map

Model of `src/backend/storage/freespace/fsmpage.c`. A page of the free space map holds a tree of
maxima in an array of bytes; its leaves are the slots of the page, and `fp_next_slot` says where the
next search on the page starts.

Each slot holds a category. `fsmSetAvail` writes a slot and keeps the tree consistent, and so do the
other updates (`fsm_page_updates`). `fsmSearchAvail` finds a slot with at least a given category
whenever the page has one: the first of them from the hint on, around the end of the page
(`fsm_search_avail_next`). While the search climbs, no slot between the hint and the slots under the
node has enough (`Climbed`).
-/

namespace PgAutoIndex.Freespace

open MaxTree Function

/-- `NodesPerPage`: what the page header (24 bytes) and `fp_next_slot` (4 bytes) leave of a page. -/
def nodesPerPage : ℕ := BLCKSZ - 24 - 4

/-- `NonLeafNodesPerPage`. -/
def nonLeafNodesPerPage : ℕ := BLCKSZ / 2 - 1

/-- `LeafNodesPerPage`. -/
def leafNodesPerPage : ℕ := nodesPerPage - nonLeafNodesPerPage

/-- `SlotsPerFSMPage`. -/
def slotsPerFSMPage : ℕ := leafNodesPerPage

theorem nodesPerPage_eq : nodesPerPage = 8164 := rfl

theorem nonLeafNodesPerPage_eq : nonLeafNodesPerPage = 4095 := rfl

theorem leafNodesPerPage_eq : leafNodesPerPage = 4069 := rfl

theorem slotsPerFSMPage_eq : slotsPerFSMPage = 4069 := rfl

/-- The smallest category is 0. -/
instance instOrderBotCategory : OrderBot (Fin 256) where
  bot := 0
  bot_le := Fin.zero_le

/-- `FSMPageData`: the hint where to search next, and the nodes of the tree. -/
structure FSMPage where
  nextSlot : ℤ
  nodes : ℕ → Fin 256

/-- A page filled with zeros. -/
def FSMPage.zero : FSMPage := ⟨0, fun _ => 0⟩

/-- Each inner node of the page holds the maximum of its children. -/
def FSMPage.Consistent (page : FSMPage) : Prop :=
  MaxTree.Consistent nodesPerPage nonLeafNodesPerPage page.nodes

/-- `parentof`. -/
def parentof (x : ℕ) : ℕ := (x - 1) / 2

/-- `rightneighbor`: the node to the right, the first of the level after the last. -/
def rightneighbor (x : ℕ) : ℕ :=
  let x := x + 1
  if (x + 1) &&& x = 0 then parentof x else x

/-- `fsm_get_avail`. -/
def fsmGetAvail (page : FSMPage) (slot : ℕ) : Fin 256 := page.nodes (nonLeafNodesPerPage + slot)

/-- `fsm_get_max_avail`. -/
def fsmGetMaxAvail (page : FSMPage) : Fin 256 := page.nodes 0

/-- `fsm_rebuild_page`. -/
def fsmRebuildPage (page : FSMPage) : FSMPage :=
  { page with nodes := rebuild nodesPerPage nonLeafNodesPerPage page.nodes }

/-- The assignment to the slot and the loop of `fsm_set_avail` that corrects the nodes above it. -/
def writeLeaf (page : FSMPage) (nodeno : ℕ) (value : Fin 256) : FSMPage :=
  -- The loop stops at the root, so that as many rounds as the number of the node are enough.
  { page with nodes := propagate nodesPerPage nodeno nodeno (update page.nodes nodeno value) }

/-- `fsm_set_avail`. -/
def fsmSetAvail (page : FSMPage) (slot : ℕ) (value : Fin 256) : FSMPage :=
  let nodeno := nonLeafNodesPerPage + slot
  if page.nodes nodeno = value ∧ value ≤ page.nodes 0 then page
  else
    let page' := writeLeaf page nodeno value
    if value > page'.nodes 0 then fsmRebuildPage page' else page'

/-- What `fsm_set_avail` returns: whether it has modified the page. -/
def fsmSetAvailModified (page : FSMPage) (slot : ℕ) (value : Fin 256) : Bool :=
  !decide (page.nodes (nonLeafNodesPerPage + slot) = value ∧ value ≤ page.nodes 0)

/-- `fsm_truncate_avail`: whether one of the slots from `nslots` on was not zero, and the page
without them. -/
def fsmTruncateAvail (page : FSMPage) (nslots : ℕ) : Bool × FSMPage :=
  let changed := decide (∃ s < slotsPerFSMPage, nslots ≤ s ∧ fsmGetAvail page s ≠ 0)
  let nodes := fun ptr => if nonLeafNodesPerPage + nslots ≤ ptr ∧ ptr < nodesPerPage then 0
    else page.nodes ptr
  (changed, if changed then fsmRebuildPage { page with nodes } else { page with nodes })

/-- The climb of `fsm_search_avail` from `nodeno`: to the right and up, until a node has at least
`minvalue`. -/
def climb (nodes : ℕ → Fin 256) (minvalue : Fin 256) : ℕ → ℕ → ℕ
  | 0, nodeno => nodeno
  | fuel + 1, nodeno =>
    if nodeno > 0 then
      if nodes nodeno ≥ minvalue then nodeno
      else climb nodes minvalue fuel (parentof (rightneighbor nodeno))
    else nodeno

/-- The node where `fsm_search_avail` starts to climb. -/
def searchTarget (page : FSMPage) : ℕ :=
  (if page.nextSlot < 0 ∨ page.nextSlot ≥ leafNodesPerPage then 0
    else page.nextSlot.toNat) + nonLeafNodesPerPage

/-- `fsm_search_avail`: the slot, if one is found, and the page with its hint set. A page whose
nodes promise more than there is gets rebuilt and is searched again, at most as often as `fuel`
says. -/
def fsmSearchAvail (minvalue : Fin 256) (advancenext : Bool) :
    ℕ → FSMPage → Option (Option ℕ × FSMPage)
  | 0, _ => none
  | fuel + 1, page =>
    if page.nodes 0 < minvalue then some (none, page)
    else
      let target := searchTarget page
      let nodeno := climb page.nodes minvalue target target
      match descend nodesPerPage nonLeafNodesPerPage page.nodes minvalue nodesPerPage nodeno with
      | some nodeno =>
        let slot := nodeno - nonLeafNodesPerPage
        some (some slot, { page with nextSlot := slot + if advancenext then 1 else 0 })
      | none => fsmSearchAvail minvalue advancenext fuel (fsmRebuildPage page)

/-! ## Writing a slot -/

variable {page : FSMPage} {slot : ℕ} {minvalue : Fin 256}

/-- The root of a page is at least each of its slots. -/
theorem FSMPage.Consistent.avail_le (h : page.Consistent) (hslot : slot < slotsPerFSMPage) :
    fsmGetAvail page slot ≤ fsmGetMaxAvail page := by
  rw [slotsPerFSMPage_eq] at hslot
  apply h.le_of_under (by decide) 12
  all_goals
    rw [nonLeafNodesPerPage_eq]
    try rw [nodesPerPage_eq]
    omega

/-- The loop leaves the page consistent, and it writes no other slot. -/
theorem writeLeaf_spec (h : page.Consistent) (hslot : slot < slotsPerFSMPage) (value : Fin 256) :
    (writeLeaf page (nonLeafNodesPerPage + slot) value).Consistent ∧
      ∀ s, fsmGetAvail (writeLeaf page (nonLeafNodesPerPage + slot) value) s =
        if s = slot then value else fsmGetAvail page s := by
  have hnonleaf : nonLeafNodesPerPage = 4095 := rfl
  rw [slotsPerFSMPage_eq] at hslot
  constructor
  · exact propagate_consistent _ (by omega) le_rfl
      (MaxTree.Consistent.update_leaf h (Nat.le_add_right _ _) value)
  · intro s
    -- The loop writes inner nodes only.
    have hleaf : fsmGetAvail (writeLeaf page (nonLeafNodesPerPage + slot) value) s =
        update page.nodes (nonLeafNodesPerPage + slot) value (nonLeafNodesPerPage + s) :=
      propagate_of_le _ (by omega)
    rw [hleaf]
    split_ifs with hs
    · rw [hs, update_self]
    · rw [update_of_ne (by omega)]
      rfl

/-- Writing a slot changes that slot, and no other and not the hint, and leaves the page consistent.
-/
theorem fsmSetAvail_spec (h : page.Consistent) (hslot : slot < slotsPerFSMPage) (value : Fin 256) :
    (fsmSetAvail page slot value).Consistent ∧ (fsmSetAvail page slot value).nextSlot =
      page.nextSlot ∧
      ∀ s, fsmGetAvail (fsmSetAvail page slot value) s = if s = slot then value
        else fsmGetAvail page s := by
  rw [fsmSetAvail]
  split_ifs with hsame
  · refine ⟨h, rfl, fun s => ?_⟩
    by_cases hs : s = slot
    · rw [if_pos hs, hs, fsmGetAvail, hsame.1]
    · rw [if_neg hs]
  · obtain ⟨hconsistent, havail⟩ := writeLeaf_spec h hslot value
    -- A consistent page has nothing to rebuild.
    have hroot : ¬ value > (writeLeaf page (nonLeafNodesPerPage + slot) value).nodes 0 := by
      have hle := hconsistent.avail_le hslot
      rw [havail slot, if_pos rfl] at hle
      exact not_lt.mpr hle
    simp only [if_neg hroot]
    exact ⟨hconsistent, rfl, havail⟩

/-! ## Searching a page -/

/-- Climbing leads to lower nodes. -/
theorem parentof_rightneighbor_lt {x : ℕ} (hx : 0 < x) : parentof (rightneighbor x) < x := by
  unfold rightneighbor
  simp only
  split
  · unfold parentof
    omega
  · unfold parentof
    omega

/-- The climb ends at the root or at a node with at least `minvalue`. -/
theorem climb_spec {nodes : ℕ → Fin 256} (hroot : minvalue ≤ nodes 0) {fuel : ℕ} {x : ℕ}
    (hfuel : x ≤ fuel) :
    climb nodes minvalue fuel x ≤ x ∧ minvalue ≤ nodes (climb nodes minvalue fuel x) := by
  induction fuel generalizing x with
  | zero =>
    rw [climb, show x = 0 by omega]
    exact ⟨le_rfl, hroot⟩
  | succ fuel ih =>
    rw [climb]
    split_ifs with hpos henough
    · exact ⟨le_rfl, henough⟩
    · have hlt := parentof_rightneighbor_lt hpos
      obtain ⟨hle, henough'⟩ := @ih (parentof (rightneighbor x)) (by omega)
      exact ⟨by omega, henough'⟩
    · rw [show x = 0 by omega]
      exact ⟨le_rfl, hroot⟩

/-- The search starts at a leaf. -/
theorem searchTarget_lt (page : FSMPage) : searchTarget page < nodesPerPage := by
  unfold searchTarget
  rw [leafNodesPerPage_eq, nonLeafNodesPerPage_eq, nodesPerPage_eq]
  split <;> omega

/-- To the right and up from a node. -/
theorem parentof_rightneighbor {x j : ℕ} (hlow : 2^(j + 1) ≤ x + 1) (hhigh : x + 1 < 2^(j + 2)) :
    parentof (rightneighbor x) = if x + 2 = 2^(j + 2) then 2^j - 1 else x / 2 := by
  have hlast : (x + 1 + 1) &&& (x + 1) = 0 ↔ x + 2 = 2^(j + 2) := by
    constructor
    · intro hzero
      by_contra hne
      have hpow := Bytes.eq_two_pow_of_and_pred (by omega) (show x + 2 < 2^(j + 2) by omega) hzero
      omega
    · intro heq
      rw [show x + 1 = 2^(j + 2) - 1 by omega, Nat.sub_add_cancel Nat.one_le_two_pow,
        Nat.and_two_pow_sub_one_eq_mod,
        Nat.mod_self]
  have hpow : 2^(j + 2) = 2^j * 4 := pow_add 2 j 2
  unfold rightneighbor parentof
  simp only [hlast]
  split_ifs <;> omega

/-- How far behind `start` a slot is, around the end of the page. -/
def slotsAfter (start slot : ℕ) : ℕ := (slot + slotsPerFSMPage - start) % slotsPerFSMPage

/-- The first slot with at least `minvalue`, from the one where the search starts. -/
structure IsNext (page : FSMPage) (minvalue : Fin 256) (slot : ℕ) : Prop where
  lt : slot < slotsPerFSMPage
  enough : minvalue ≤ fsmGetAvail page slot
  first : ∀ s, s < slotsPerFSMPage → minvalue ≤ fsmGetAvail page s →
    slotsAfter (searchTarget page - nonLeafNodesPerPage) slot ≤
      slotsAfter (searchTarget page - nonLeafNodesPerPage) s

/-- The search starts at the hint if that is a slot. -/
theorem searchTarget_of_hint {hint : ℕ} (h : page.nextSlot = hint) (hlt : hint < leafNodesPerPage) :
    searchTarget page - nonLeafNodesPerPage = hint := by
  rw [searchTarget, h, if_neg (by omega)]
  omega

/-- A search that starts at the first slot finds the first one with enough. -/
theorem IsNext.le_of_hint (h : IsNext page minvalue slot) (hhint : page.nextSlot = 0) {s : ℕ}
    (hs : s < slotsPerFSMPage) (hval : minvalue ≤ fsmGetAvail page s) : slot ≤ s := by
  have hlt := h.lt
  have hfirst := h.first s hs hval
  rw [searchTarget_of_hint (show page.nextSlot = (0 : ℕ) from hhint) (by decide)] at hfirst
  unfold slotsAfter at hfirst
  rw [slotsPerFSMPage_eq] at *
  omega

theorem IsNext.le_of_enough (h : IsNext page minvalue slot) {y : ℕ}
    (hleaf : nonLeafNodesPerPage ≤ y) (hy : y < nodesPerPage)
    (hval : minvalue ≤ page.nodes y) :
    if searchTarget page ≤ y then searchTarget page ≤ nonLeafNodesPerPage + slot ∧
    nonLeafNodesPerPage + slot ≤ y
    else nonLeafNodesPerPage + slot < searchTarget page → nonLeafNodesPerPage + slot ≤ y := by
  have htarget := searchTarget_lt page
  have hlt := h.lt
  have hfirst := h.first (y - nonLeafNodesPerPage)
  rw [fsmGetAvail, Nat.add_sub_cancel' hleaf] at hfirst
  unfold slotsAfter at hfirst
  rw [slotsPerFSMPage_eq] at hfirst hlt
  rw [nodesPerPage_eq] at *
  rw [nonLeafNodesPerPage_eq] at *
  split <;> omega

/-- Where the climb is, `k` levels above the slots: every slot with enough whose turn it is from
here on comes no earlier than the next one, and the next one is not left behind. -/
structure Climbed (page : FSMPage) (minvalue : Fin 256) (slot j k x : ℕ) : Prop where
  level : j + k = 12
  low : 2^j ≤ x + 1
  high : x + 1 < 2^(j + 1)
  pos : 0 < k → 0 < minvalue
  ahead : searchTarget page ≤ nonLeafNodesPerPage + slot →
    (x + 1) * 2^k ≤ nonLeafNodesPerPage + slot + 1
  next : ∀ y, (x + 1) * 2^k ≤ y + 1 → y < nodesPerPage → minvalue ≤ page.nodes y →
    (x + 1) * 2^k ≤ nonLeafNodesPerPage + slot + 1 ∧ nonLeafNodesPerPage + slot ≤ y

section

variable {j k x : ℕ}

theorem Climbed.range (hc : Climbed page minvalue slot j k x) :
    4096 ≤ (x + 1) * 2^k ∧ (x + 2) * 2^k ≤ 8192 := by
  have hpow : 2^j * 2^k = 4096 := by rw [← pow_add, hc.level]; rfl
  have hlow := Nat.mul_le_mul_right (2^k) hc.low
  have hhigh := Nat.mul_le_mul_right (2^k) (Nat.succ_le_of_lt hc.high)
  rw [pow_succ] at hhigh
  constructor <;> linarith

/-- The climb starts at a leaf. -/
theorem Climbed.start (hnext : IsNext page minvalue slot) :
    Climbed page minvalue slot 12 0 (searchTarget page) := by
  have htarget := searchTarget_lt page
  have hleaf : nonLeafNodesPerPage ≤ searchTarget page := Nat.le_add_left _ _
  rw [nodesPerPage_eq] at htarget
  rw [nonLeafNodesPerPage_eq] at hleaf
  refine ⟨rfl, by omega, by omega, fun hpos =>
    absurd hpos (lt_irrefl 0), fun hle => by omega, fun y hge hy hval => ?_⟩
  have hle := hnext.le_of_enough (by rw [nonLeafNodesPerPage_eq]; omega) hy hval
  rw [if_pos (by omega)] at hle
  omega

variable (h : page.Consistent) (hnext : IsNext page minvalue slot)
include h hnext

/-- When the slots under a node have too little, the climb goes on. -/
theorem Climbed.step (hc : Climbed page minvalue slot j k x) (hx : 0 < x)
    (hless : page.nodes x < minvalue) :
    Climbed page minvalue slot (j - 1) (k + 1) (parentof (rightneighbor x)) := by
  obtain ⟨hlow, hhigh⟩ := hc.range
  have hlt := hnext.lt
  rw [slotsPerFSMPage_eq] at hlt
  have hbehind : (x + 1) * 2^k ≤ nonLeafNodesPerPage + slot + 1 →
      (x + 2) * 2^k ≤ nonLeafNodesPerPage + slot + 1 := by
    intro hge
    by_contra hnot
    have hle := h.le_of_under (by decide) k
      (by rw [nodesPerPage_eq, nonLeafNodesPerPage_eq]; omega) hge (not_le.mp hnot)
    exact absurd hnext.enough (not_le.mpr (hle.trans_lt hless))
  obtain ⟨j, rfl⟩ : ∃ i, j = i + 1 := ⟨j - 1, by
    have := hc.high
    rcases j with _ | j <;> omega⟩
  have hlevel := hc.level
  have hj := hc.low
  have hj' := hc.high
  rw [parentof_rightneighbor hj hj', Nat.add_sub_cancel]
  have hpos : 0 < k + 1 → 0 < minvalue := fun _ => lt_of_le_of_lt (Fin.zero_le _) hless
  split_ifs with hwrap
  · -- Behind the last node of a level come the first slots. The next slot is among them: it is not
    -- behind the hint.
    have hone : 2^j - 1 + 1 = 2^j := Nat.sub_add_cancel Nat.one_le_two_pow
    have hfirst : 2^j * 2^(k + 1) = 4096 := by rw [← pow_add, show j + (k + 1) = 12 by omega]; rfl
    have hend : (x + 2) * 2^k = 8192 := by rw [hwrap, ← pow_add, show j + 2 + k = 13 by omega]; rfl
    have hnot : ¬ searchTarget page ≤ nonLeafNodesPerPage + slot := fun hle => by
      have := hbehind (hc.ahead hle)
      rw [nonLeafNodesPerPage_eq] at this
      omega
    refine ⟨by omega, by omega, by rw [hone, pow_succ]; omega, hpos, fun hle =>
      absurd hle hnot, fun y hge hy hval => ?_⟩
    rw [hone, hfirst] at hge ⊢
    have hle := hnext.le_of_enough (by rw [nonLeafNodesPerPage_eq]; omega) hy hval
    rw [nonLeafNodesPerPage_eq] at hle hnot ⊢
    split at hle <;> omega
  · have hparent : (x / 2 + 1) * 2^(k + 1) = (x + 1) * 2^k ∨
        (x / 2 + 1) * 2^(k + 1) = (x + 2) * 2^k := by
      rw [Nat.pow_succ', ← mul_assoc]
      rcases Nat.mod_two_eq_zero_or_one x with heven | hodd
      · exact .inr (by rw [show (x / 2 + 1) * 2 = x + 2 by omega])
      · exact .inl (by rw [show (x / 2 + 1) * 2 = x + 1 by omega])
    rw [pow_succ] at hwrap
    rcases hparent with heq | heq
    · exact ⟨by omega, by omega, by rw [pow_succ]; omega, hpos, by rw [heq]; exact hc.ahead,
        by rw [heq]; exact hc.next⟩
    · refine ⟨by omega, by omega, by rw [pow_succ]; omega, hpos, fun hle => ?_,
        fun y hge hy hval => ?_⟩
      · rw [heq]
        exact hbehind (hc.ahead hle)
      · rw [heq] at hge ⊢
        have hstep : (x + 1) * 2^k ≤ (x + 2) * 2^k := Nat.mul_le_mul_right _ (by omega)
        obtain ⟨hahead, hle⟩ := hc.next y (by omega) hy hval
        exact ⟨hbehind hahead, hle⟩

/-- From a node with enough the way down leads to the next slot. -/
theorem Climbed.descend_eq (hc : Climbed page minvalue slot j k x) (hx : x < nodesPerPage)
    (henough : minvalue ≤ page.nodes x) :
    descend nodesPerPage nonLeafNodesPerPage page.nodes minvalue nodesPerPage x =
      some (nonLeafNodesPerPage + slot) := by
  obtain ⟨hlow, hhigh⟩ := hc.range
  have hlevel := hc.level
  obtain ⟨y, hy, hyn, hval, hge, _, hfirst⟩ :=
    descend_spec h (by decide) hc.pos (show k < nodesPerPage by rw [nodesPerPage_eq]; omega)
    hlow hhigh hx henough
  obtain ⟨hahead, hle⟩ := hc.next y hge hyn hval
  have hnot : ¬ nonLeafNodesPerPage + slot < y :=
    fun hlt => absurd hnext.enough (not_le.mpr (hfirst _ hahead hlt))
  rw [hy, show y = nonLeafNodesPerPage + slot by omega]

theorem Climbed.climb_eq (hroot : minvalue ≤ page.nodes 0) {fuel : ℕ}
    (hc : Climbed page minvalue slot j k x)
    (hx : x < nodesPerPage) (hfuel : x ≤ fuel) :
    descend nodesPerPage nonLeafNodesPerPage page.nodes minvalue nodesPerPage
      (climb page.nodes minvalue fuel x) =
      some (nonLeafNodesPerPage + slot) := by
  induction fuel generalizing j k x with
  | zero =>
    obtain rfl : x = 0 := by omega
    exact hc.descend_eq h hnext hx hroot
  | succ fuel ih =>
    rw [climb]
    split_ifs with hpos henough
    · exact hc.descend_eq h hnext hx henough
    · have hlt := parentof_rightneighbor_lt hpos
      exact ih (hc.step h hnext hpos (not_le.mp henough)) (by omega) (by omega)
    · obtain rfl : x = 0 := by omega
      exact hc.descend_eq h hnext hx hroot

end

theorem avail_of_leaf {y : ℕ} (hleaf : nonLeafNodesPerPage ≤ y) (hy : y < nodesPerPage)
    (hval : minvalue ≤ page.nodes y) :
    y - nonLeafNodesPerPage < slotsPerFSMPage ∧
    minvalue ≤ fsmGetAvail page (y - nonLeafNodesPerPage) := by
  unfold slotsPerFSMPage leafNodesPerPage
  exact ⟨by omega, by rwa [fsmGetAvail, Nat.add_sub_cancel' hleaf]⟩

/-- When the root has enough, there is a next slot. -/
theorem exists_isNext (h : page.Consistent) (hroot : minvalue ≤ page.nodes 0) :
    ∃ slot, IsNext page minvalue slot := by
  have hsome : ∃ slot, slot < slotsPerFSMPage ∧ minvalue ≤ fsmGetAvail page slot := by
    rcases (Fin.zero_le minvalue).eq_or_lt with rfl | hpos
    · exact ⟨0, by decide, Fin.zero_le _⟩
    · obtain ⟨y, -, hyn, hval, hleaf, -⟩ :=
        descend_spec h (by decide) (fun _ => hpos) (Nat.lt_succ_self 12) (by decide)
        (by decide) (by decide) hroot
      exact ⟨_, avail_of_leaf (Nat.le_of_succ_le_succ hleaf) hyn hval⟩
  obtain ⟨slot, hslot, hval⟩ := hsome
  obtain ⟨first, hfirst, hleast⟩ := Finset.exists_min_image
    ((Finset.range slotsPerFSMPage).filter fun s => minvalue ≤ fsmGetAvail page s)
    (slotsAfter (searchTarget page - nonLeafNodesPerPage))
      ⟨slot, Finset.mem_filter.mpr ⟨Finset.mem_range.mpr hslot, hval⟩⟩
  rw [Finset.mem_filter, Finset.mem_range] at hfirst
  exact ⟨first, hfirst.1, hfirst.2, fun s hs hval =>
    hleast s (Finset.mem_filter.mpr ⟨Finset.mem_range.mpr hs, hval⟩)⟩

/-- A search on a consistent page fails only when the root has less than `minvalue`, and else finds
the next slot with at least `minvalue` and sets the hint. -/
theorem fsmSearchAvail_spec (h : page.Consistent) (minvalue : Fin 256) (advancenext : Bool)
    {fuel : ℕ} (hfuel : 0 < fuel) :
    (page.nodes 0 < minvalue ∧ fsmSearchAvail minvalue advancenext fuel page = some (none, page)) ∨
      ∃ slot, IsNext page minvalue slot ∧ fsmSearchAvail minvalue advancenext fuel page =
        some (some slot, { page with nextSlot := slot + if advancenext then 1 else 0 }) := by
  obtain _ | fuel := fuel
  · omega
  rw [fsmSearchAvail]
  by_cases hroot : page.nodes 0 < minvalue
  · exact .inl ⟨hroot, if_pos hroot⟩
  · obtain ⟨slot, hnext⟩ := exists_isNext h (not_lt.mp hroot)
    refine .inr ⟨slot, hnext, ?_⟩
    simp only [if_neg hroot,
      (Climbed.start hnext).climb_eq h hnext (not_lt.mp hroot) (searchTarget_lt page) le_rfl,
      Nat.add_sub_cancel_left]

/-- The search on a consistent page returns -1 exactly when no slot has `minvalue`, and else the
next slot with at least `minvalue`, for any hint; and its climb goes over nodes of the page only. -/
theorem fsm_search_avail_next (page : FSMPage) (h : page.Consistent) (minvalue : Fin 256)
    (advancenext : Bool) :
    ((∀ s, s < slotsPerFSMPage → fsmGetAvail page s < minvalue) ∧
        fsmSearchAvail minvalue advancenext 1 page = some (none, page) ∨
      ∃ slot, IsNext page minvalue slot ∧ fsmSearchAvail minvalue advancenext 1 page =
        some (some slot, { page with nextSlot := slot + if advancenext then 1 else 0 })) ∧
    ∀ i, (fun x => parentof (rightneighbor x))^[i] (searchTarget page) < nodesPerPage := by
  refine ⟨(fsmSearchAvail_spec h minvalue advancenext Nat.one_pos).imp_left fun ⟨hless, hsearch⟩ =>
    ⟨fun s hs => (h.avail_le hs).trans_lt hless, hsearch⟩, fun i => ?_⟩
  induction i with
  | zero => exact searchTarget_lt page
  | succ i ih =>
    rw [iterate_succ_apply']
    rcases Nat.eq_zero_or_pos ((fun x => parentof (rightneighbor x))^[i] (searchTarget page))
      with hzero | hpos
    · rw [hzero]
      decide
    · exact (parentof_rightneighbor_lt hpos).trans ih

/-- A page of zeros is consistent. -/
theorem zero_consistent : FSMPage.zero.Consistent := by
  intro x _
  show (0 : Fin 256) = max (if _ then 0 else 0) (if _ then 0 else 0)
  rw [ite_self, ite_self, max_self]

/-- A page with two slots set, and a hint. -/
def twoSlots (hint : ℕ) : FSMPage :=
  { fsmSetAvail (fsmSetAvail FSMPage.zero 7 5) 2000 5 with nextSlot := hint }

/-- The page is consistent, and its other slots are zero. -/
theorem twoSlots_spec (hint : ℕ) : (twoSlots hint).Consistent ∧
    ∀ s, fsmGetAvail (twoSlots hint) s = if s = 7 ∨ s = 2000 then 5 else 0 := by
  obtain ⟨hseven, -, havail⟩ :=
    fsmSetAvail_spec zero_consistent (show 7 < slotsPerFSMPage by decide) 5
  obtain ⟨hboth, -, havail'⟩ := fsmSetAvail_spec hseven (show 2000 < slotsPerFSMPage by decide) 5
  refine ⟨hboth, fun s => (havail' s).trans ?_⟩
  rw [havail]
  split_ifs <;> first | rfl | omega

/-- From slot 100 on the search finds slot 2000, and from behind that it finds slot 7, around the
end of the page. -/
theorem fsm_search_avail_next_two : (∀ hint, (twoSlots hint).Consistent) ∧
    fsmSearchAvail 3 true 1 (twoSlots 100) = some (some 2000, twoSlots 2001) ∧
    fsmSearchAvail 3 true 1 (twoSlots 2001) = some (some 7, twoSlots 8) := by
  have hsearch : ∀ hint < leafNodesPerPage, ∀ slot other, slotsAfter hint slot <
    slotsAfter hint other →
      (slot = 7 ∧ other = 2000 ∨ slot = 2000 ∧ other = 7) →
      fsmSearchAvail 3 true 1 (twoSlots hint) = some (some slot, twoSlots (slot + 1)) := by
    intro hint hlt slot other horder hslots
    obtain ⟨hconsistent, havail⟩ := twoSlots_spec hint
    have hset : slot < slotsPerFSMPage ∧ (3 : Fin 256) ≤ fsmGetAvail (twoSlots hint) slot := by
      rw [havail, slotsPerFSMPage_eq]
      rcases hslots with ⟨rfl, -⟩ | ⟨rfl, -⟩ <;> decide
    rcases (fsm_search_avail_next _ hconsistent 3 true).1 with ⟨hnone, _⟩ | ⟨found, hnext, hfound⟩
    · exact absurd hset.2 (not_le.mpr (hnone slot hset.1))
    · have henough := hnext.enough
      have hfirst := hnext.first slot hset.1 hset.2
      rw [havail] at henough
      rw [searchTarget_of_hint rfl hlt] at hfirst
      split_ifs at henough with heither
      · obtain rfl : found = slot := by
          rcases hslots with ⟨rfl, rfl⟩ | ⟨rfl, rfl⟩ <;> rcases heither with rfl | rfl <;> omega
        rw [hfound]
        rfl
      · exact absurd henough (by decide)
  refine ⟨fun hint => (twoSlots_spec hint).1, ?_, ?_⟩
  · exact hsearch 100 (by decide) 2000 7 (by decide) (by simp)
  · exact hsearch 2001 (by decide) 7 2000 (by decide) (by simp)

/-! ## Other updates -/

theorem fsmRebuildPage_spec (page : FSMPage) :
    (fsmRebuildPage page).Consistent ∧ ∀ s, fsmGetAvail (fsmRebuildPage page) s =
      fsmGetAvail page s := by
  unfold FSMPage.Consistent fsmRebuildPage fsmGetAvail
  generalize nonLeafNodesPerPage = m
  exact ⟨rebuild_consistent fun _ hge hlt => absurd hlt (not_lt.mpr hge),
    fun s => rebuild_of_le (Nat.le_add_right m s)⟩

/-- Truncating a page clears the slots from `nslots` on. -/
theorem fsmTruncateAvail_spec (h : page.Consistent) (nslots : ℕ) :
    (fsmTruncateAvail page nslots).2.Consistent ∧
      (∀ s, s < slotsPerFSMPage → fsmGetAvail (fsmTruncateAvail page nslots).2 s =
        if nslots ≤ s then 0 else fsmGetAvail page s) ∧
      ((fsmTruncateAvail page nslots).1 = false ↔ (fsmTruncateAvail page nslots).2 = page) := by
  have hrange : ∀ s, s < slotsPerFSMPage →
      (nonLeafNodesPerPage + nslots ≤ nonLeafNodesPerPage + s ∧
        nonLeafNodesPerPage + s < nodesPerPage ↔ nslots ≤ s) := by
    intro s hs
    unfold slotsPerFSMPage leafNodesPerPage at hs
    omega
  rw [fsmTruncateAvail]
  dsimp only
  by_cases hchanged : ∃ s < slotsPerFSMPage, nslots ≤ s ∧ fsmGetAvail page s ≠ 0
  · rw [decide_eq_true hchanged, if_pos rfl]
    generalize hpage' : (⟨_, _⟩ : FSMPage) = page'
    obtain ⟨hconsistent, havail⟩ := fsmRebuildPage_spec page'
    have hcleared : ∀ s, s < slotsPerFSMPage → fsmGetAvail (fsmRebuildPage page') s =
        if nslots ≤ s then 0 else fsmGetAvail page s := by
      intro s hs
      rw [havail, ← hpage']
      exact if_congr (hrange s hs) rfl rfl
    refine ⟨hconsistent, hcleared, nofun, fun heq => ?_⟩
    obtain ⟨s, hs, hle, hne⟩ := hchanged
    have hzero := hcleared s hs
    rw [heq, if_pos hle] at hzero
    exact absurd hzero hne
  · rw [decide_eq_false hchanged, if_neg Bool.false_ne_true]
    push Not at hchanged
    have hsame : (fun ptr => if nonLeafNodesPerPage + nslots ≤ ptr ∧ ptr < nodesPerPage then 0
        else page.nodes ptr) = page.nodes := by
      funext ptr
      split_ifs with hptr
      · obtain ⟨s, rfl⟩ := Nat.exists_eq_add_of_le (Nat.le_of_add_right_le hptr.1)
        exact (hchanged s (by unfold slotsPerFSMPage leafNodesPerPage; omega) (by omega)).symm
      · rfl
    rw [hsame]
    refine ⟨h, fun s hs => ?_, fun _ => rfl, fun _ => rfl⟩
    split_ifs with hle
    · exact hchanged s hs hle
    · rfl

/-- On any page the search ends after at most one rebuild, and what it finds is a slot with at least
`minvalue`. -/
theorem fsmSearchAvail_torn (page : FSMPage) (minvalue : Fin 256) (advancenext : Bool) :
    ∃ r page', fsmSearchAvail minvalue advancenext 2 page = some (r, page') ∧
      ∀ slot ∈ r, slot < slotsPerFSMPage ∧ minvalue ≤ fsmGetAvail page slot := by
  rw [fsmSearchAvail]
  by_cases hroot : page.nodes 0 < minvalue
  · exact ⟨none, page, if_pos hroot, nofun⟩
  · rw [if_neg hroot]
    obtain ⟨hle, henough⟩ := climb_spec (not_lt.mp hroot) (le_refl (searchTarget page))
    dsimp only
    split
    next y hy =>
      obtain ⟨hleaf, hyn, hval⟩ := descend_sound (hle.trans_lt (searchTarget_lt page)) henough hy
      exact ⟨_, _, rfl, fun slot hslot => Option.some.inj hslot ▸ avail_of_leaf hleaf hyn hval⟩
    next =>
      obtain ⟨hconsistent, havail⟩ := fsmRebuildPage_spec page
      rcases fsmSearchAvail_spec hconsistent minvalue advancenext Nat.one_pos with ⟨_, hsearch⟩ |
        ⟨slot, hnext, hsearch⟩
      · exact ⟨none, _, hsearch, nofun⟩
      · exact ⟨some slot, _, hsearch, fun s hs =>
          Option.some.inj hs ▸ ⟨hnext.lt, havail slot ▸ hnext.enough⟩⟩

/-- Writing a slot and truncating keep a consistent page consistent, change the slots that they
should and say whether they have changed something. Rebuilding makes any page consistent and changes
no slot, and a search on any page rebuilds it at most once. -/
theorem fsm_page_updates (page : FSMPage) :
    (page.Consistent → ∀ slot value, slot < slotsPerFSMPage →
      (fsmSetAvail page slot value).Consistent ∧
      (∀ s, fsmGetAvail (fsmSetAvail page slot value) s = if s = slot then value
        else fsmGetAvail page s) ∧
      (fsmSetAvailModified page slot value = false ↔ fsmSetAvail page slot value = page)) ∧
    (page.Consistent → ∀ nslots, (fsmTruncateAvail page nslots).2.Consistent ∧
      (∀ s, s < slotsPerFSMPage → fsmGetAvail (fsmTruncateAvail page nslots).2 s =
        if nslots ≤ s then 0 else fsmGetAvail page s) ∧
      ((fsmTruncateAvail page nslots).1 = false ↔ (fsmTruncateAvail page nslots).2 = page)) ∧
    ((fsmRebuildPage page).Consistent ∧ ∀ s, fsmGetAvail (fsmRebuildPage page) s =
      fsmGetAvail page s) ∧
    ∀ minvalue advancenext, ∃ r page', fsmSearchAvail minvalue advancenext 2 page =
      some (r, page') ∧
      ∀ slot ∈ r, slot < slotsPerFSMPage ∧ minvalue ≤ fsmGetAvail page slot := by
  refine ⟨fun h slot value hslot => ?_, fsmTruncateAvail_spec, fsmRebuildPage_spec page,
    fsmSearchAvail_torn page⟩
  obtain ⟨hconsistent, _, havail⟩ := fsmSetAvail_spec h hslot value
  refine ⟨hconsistent, havail, ?_⟩
  rw [fsmSetAvailModified, Bool.not_eq_false', decide_eq_true_eq]
  constructor
  · exact fun hsame => if_pos hsame
  · intro heq
    have hvalue := havail slot
    rw [heq, if_pos rfl] at hvalue
    exact ⟨hvalue, hvalue ▸ h.avail_le hslot⟩

theorem fsm_page_updates_zero :
    FSMPage.zero.Consistent ∧ (fsmSetAvail FSMPage.zero 7 200).Consistent :=
  ⟨zero_consistent, ((fsm_page_updates FSMPage.zero).1 zero_consistent 7 200 (by decide)).1⟩


end PgAutoIndex.Freespace
