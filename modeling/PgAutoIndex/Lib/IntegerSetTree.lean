import PgAutoIndex.Lib.IntegerSet

/-!
# The B-tree of an integer set

The levels of the tree over a list of keys, one for each node of the level below. On every level the
nodes cut the keys below into blocks, with a downlink for each key, and all nodes but the rightmost
are full (`LevelOk`); the keys of the next level are the first keys of the blocks, and the root is
the only node of its level (`UpperOk`). `intset_update_upper` adds a key at the right end, and can
fail only when every level is full. The walk down from the root ends at the last key up to the value
that is looked up.
-/

namespace PgAutoIndex.Lib

open List hiding getElem?_eq_some_iff
open Function Option

/-- The key of an internal node is its first value. -/
def InternalNode.key (n : InternalNode) : ℕ := n.values[0]?.getD 0

/-- The nodes of a level, the rightmost one apart, over the keys of the level below. -/
structure LevelOk (init : List InternalNode) (last : InternalNode) (keys : List ℕ)
    (below : ℕ) : Prop where
  values : (init ++ [last]).flatMap InternalNode.values = keys
  downlinks : (init ++ [last]).flatMap InternalNode.downlinks =
    (range keys.length).map (NodePtr.mk below)
  aligned : ∀ n ∈ init ++ [last], n.values.length = n.downlinks.length
  full : ∀ n ∈ init, n.values.length = MAX_INTERNAL_ITEMS
  nonempty : 0 < last.values.length
  room : last.values.length ≤ MAX_INTERNAL_ITEMS

/-- The levels from `level` to the root, over the keys of the level below. -/
inductive UpperOk (s : IntegerSet) : ℕ → List ℕ → Prop
  /-- Above the root there is nothing. -/
  | root {level key : ℕ} : s.numLevels = level → s.root = some ⟨level - 1, 0⟩ →
      (∀ l, level ≤ l → s.internals l = []) → UpperOk s level [key]
  /-- A level has at least two nodes below it. -/
  | level {level : ℕ} {keys : List ℕ} {init : List InternalNode} {last : InternalNode} :
      level < s.numLevels → 2 ≤ keys.length → s.internals level = init ++ [last] →
      s.rightmostNodes level = some ⟨level, init.length⟩ → LevelOk init last keys (level - 1) →
      UpperOk s (level + 1) ((init ++ [last]).map InternalNode.key) → UpperOk s level keys

variable {s s' : IntegerSet} {below level : ℕ} {keys : List ℕ} {init : List InternalNode}
  {last : InternalNode}

/-- The levels depend on the nodes of those levels only. -/
theorem UpperOk.congr (h : UpperOk s level keys) (hlevels : s'.numLevels = s.numLevels)
    (hroot : s'.root = s.root) (hinternals : ∀ l, level ≤ l → s'.internals l = s.internals l)
    (hrightmost : ∀ l, level ≤ l → s'.rightmostNodes l = s.rightmostNodes l) :
      UpperOk s' level keys := by
  induction h with
  | root hn hr hempty =>
    exact .root (hlevels.trans hn) (hroot.trans hr) fun l hl => (hinternals l hl).trans
      (hempty l hl)
  | level hlt htwo hnodes hright hlevel _ ih =>
    refine .level (hlevels ▸ hlt) htwo ((hinternals _ le_rfl).trans hnodes)
      ((hrightmost _ le_rfl).trans hright) hlevel (ih (fun l hl => ?_) fun l hl => ?_)
    · exact hinternals l (by omega)
    · exact hrightmost l (by omega)

theorem UpperOk.le_numLevels (h : UpperOk s level keys) :
    level ≤ s.numLevels := by
  cases h with
  | root hn _ _ => exact le_of_eq hn.symm
  | level hlt _ _ _ _ _ => exact le_of_lt hlt

theorem UpperOk.exists_root (h : UpperOk s level keys) :
    ∃ root, s.root = some root := by
  induction h with
  | root _ hr _ => exact ⟨_, hr⟩
  | level _ _ _ _ _ _ ih => exact ih

/-- A condition on the elements of a list, the last one apart. -/
theorem forall_mem_concat {α : Type} {p : α → Prop} {l : List α} {a : α} :
    (∀ b ∈ l ++ [a], p b) ↔ (∀ b ∈ l, p b) ∧ p a := by
  rw [forall_mem_append, forall_mem_singleton]

/-! ## Adding a key -/

/-- A downlink that fits on the rightmost node. -/
theorem LevelOk.addDownlink (h : LevelOk init last keys below)
    (hroom : last.values.length < MAX_INTERNAL_ITEMS) (key : ℕ) :
    LevelOk init ⟨last.values ++ [key], last.downlinks ++ [⟨below, keys.length⟩]⟩
      (keys ++ [key]) below where
  values := by
    rw [← h.values]
    simp
  downlinks := by
    have := h.downlinks
    simp only [flatMap_append, flatMap_cons, flatMap_nil, append_nil] at this ⊢
    rw [← append_assoc, this]
    simp [range_succ]
  aligned := by
    obtain ⟨hinit, hlast⟩ := forall_mem_concat.mp h.aligned
    exact forall_mem_concat.mpr ⟨hinit, by simp [hlast]⟩
  full := h.full
  nonempty := by simp
  room := by
    simp only [length_append, length_singleton]
    omega

/-- All nodes are full when the rightmost one is. -/
theorem LevelOk.full_of_not_lt (h : LevelOk init last keys below)
    (hfull : ¬ last.values.length < MAX_INTERNAL_ITEMS) :
    ∀ n ∈ init ++ [last], n.values.length = MAX_INTERNAL_ITEMS := by
  have hroom := h.room
  exact forall_mem_concat.mpr ⟨h.full, by omega⟩

/-- A downlink on a new node, to the right of a full one. -/
theorem LevelOk.newParent (h : LevelOk init last keys below)
    (hfull : ¬ last.values.length < MAX_INTERNAL_ITEMS) (key : ℕ) :
    LevelOk (init ++ [last]) ⟨[key], [⟨below, keys.length⟩]⟩ (keys ++ [key]) below where
  values := by
    rw [flatMap_append, h.values]
    rfl
  downlinks := by
    rw [flatMap_append, h.downlinks]
    simp [range_succ]
  aligned := forall_mem_concat.mpr ⟨h.aligned, rfl⟩
  full := h.full_of_not_lt hfull
  nonempty := Nat.one_pos
  room := show 1 ≤ 64 by decide

/-- What linking a node at `level` leaves alone. -/
structure SameBelow (level : ℕ) (s s' : IntegerSet) : Prop where
  leaves : s'.leaves = s.leaves
  leftmostLeaf : s'.leftmostLeaf = s.leftmostLeaf
  numEntries : s'.numEntries = s.numEntries
  iterActive : s'.iterActive = s.iterActive
  internals : ∀ l, l < level → s'.internals l = s.internals l
  rightmostNodes : ∀ l, l < level → s'.rightmostNodes l = s.rightmostNodes l

theorem SameBelow.trans {s'' : IntegerSet} (h : SameBelow level s s')
    (h' : SameBelow level s' s'') : SameBelow level s s'' where
  leaves := h'.leaves.trans h.leaves
  leftmostLeaf := h'.leftmostLeaf.trans h.leftmostLeaf
  numEntries := h'.numEntries.trans h.numEntries
  iterActive := h'.iterActive.trans h.iterActive
  internals := fun l hl => (h'.internals l hl).trans (h.internals l hl)
  rightmostNodes := fun l hl => (h'.rightmostNodes l hl).trans (h.rightmostNodes l hl)

theorem SameBelow.mono {level' : ℕ} (h : SameBelow level' s s') (hle : level ≤ level') :
    SameBelow level s s' :=
  { h with
    internals := fun l hl => h.internals l (by omega)
    rightmostNodes := fun l hl => h.rightmostNodes l (by omega) }

theorem sameBelow_newParent (s : IntegerSet) (level key : ℕ) (child : NodePtr) :
    SameBelow level s (newParent s level key child) where
  leaves := rfl
  leftmostLeaf := rfl
  numEntries := rfl
  iterActive := rfl
  internals := fun l hl => update_of_ne (by omega) _ _
  rightmostNodes := fun l hl => update_of_ne (by omega) _ _

theorem sameBelow_addDownlink (s : IntegerSet) (level index key : ℕ) (child : NodePtr) :
    SameBelow level s (addDownlink s ⟨level, index⟩ key child) where
  leaves := rfl
  leftmostLeaf := rfl
  numEntries := rfl
  iterActive := rfl
  internals := fun l hl => update_of_ne (by show l ≠ level; omega) _ _
  rightmostNodes := fun _ _ => rfl

/-- Changing the last element of a list. -/
theorem modify_last {α : Type} (init : List α) (last : α) (f : α → α) :
    (init ++ [last]).modify init.length f = init ++ [f last] := by
  induction init with
  | nil => rfl
  | cons a init ih => rw [cons_append, length_cons, modify_succ_cons, ih, cons_append]

/-- `placeDownlink` on a level, where `recurse` is called for a full rightmost node. -/
theorem placeDownlink_eq {recurse : NodePtr → IntegerSet → Option Outcome} {child : NodePtr}
    {key : ℕ} (hnodes : s.internals level = init ++ [last])
    (hright : s.rightmostNodes level = some ⟨level, init.length⟩) :
    placeDownlink recurse level child key s =
      if last.values.length < MAX_INTERNAL_ITEMS then
        some ⟨addDownlink s ⟨level, init.length⟩ key child, none⟩
      else recurse ⟨level, (init ++ [last]).length⟩ (newParent s level key child) := by
  unfold placeDownlink
  rw [hright, bind_some, hnodes]
  simp

/-- The nodes of a level after `addDownlink`. -/
theorem internals_addDownlink (hnodes : s.internals level = init ++ [last]) (key : ℕ)
    (child : NodePtr) :
    (addDownlink s ⟨level, init.length⟩ key child).internals level =
      init ++ [⟨last.values ++ [key], last.downlinks ++ [child]⟩] := by
  unfold addDownlink
  simp only [update_self, hnodes, modify_last]

/-- A new root, over the old one and one node to the right of it. -/
theorem upperOk_newRoot (hlevels : s.numLevels = level)
    (hempty : ∀ l, level ≤ l → s.internals l = []) (key : ℕ)
    (recurse : NodePtr → IntegerSet → Option Outcome) :
    ∃ out, placeDownlink recurse level ⟨level - 1, 1⟩ key
      (newRoot s level ⟨level - 1, 0⟩) = some out ∧
      out.error = none ∧ UpperOk out.set level [firstKey s ⟨level - 1, 0⟩, key] ∧
      SameBelow level s out.set ∧ out.set.numLevels = s.numLevels + 1 := by
  set key₀ := firstKey s ⟨level - 1, 0⟩ with hkey₀
  have hnil := hempty level le_rfl
  have hnodes : (newRoot s level ⟨level - 1, 0⟩).internals level =
      [] ++ [⟨[key₀], [⟨level - 1, 0⟩]⟩] := by
    simp [newRoot, newParent, hnil, hkey₀]
  have hright : (newRoot s level ⟨level - 1, 0⟩).rightmostNodes level =
      some ⟨level, ([] : List ℕ).length⟩ := by
    simp [newRoot, newParent, hnil]
  refine ⟨⟨addDownlink (newRoot s level ⟨level - 1, 0⟩) ⟨level, 0⟩ key ⟨level - 1, 1⟩, none⟩, ?_,
    rfl, ?_, ?_,
    rfl⟩
  · have hone : (InternalNode.mk [key₀] [⟨level - 1, 0⟩]).values.length < MAX_INTERNAL_ITEMS :=
      show 1 < 64 by decide
    rw [placeDownlink_eq hnodes hright, if_pos hone]
    rfl
  · have hinternals := internals_addDownlink hnodes key ⟨level - 1, 1⟩
    refine .level ?_ le_rfl hinternals ?_ ?_ ?_
    · show level < s.numLevels + 1
      omega
    · exact hright
    · exact ⟨rfl, rfl, by simp, by simp, show 0 < 2 by decide, show 2 ≤ 64 by decide⟩
    · refine .root ?_ ?_ fun l hl => ?_
      · show s.numLevels + 1 = level + 1
        omega
      · show some (NodePtr.mk level (s.internals level).length) = _
        rw [hnil]
        rfl
      · have hne : l ≠ level := by omega
        simp only [addDownlink, newRoot, newParent, update_of_ne hne]
        exact hempty l (by omega)
  · refine SameBelow.trans ?_ (sameBelow_addDownlink _ _ _ _ _)
    exact { sameBelow_newParent s level key₀ ⟨level - 1, 0⟩ with }

/-- `intset_update_upper` adds a key at the right end, unless every level is full. -/
theorem UpperOk.updateUpper (depth : ℕ) (h : UpperOk s level keys) (hlevel : 1 ≤ level)
    (hfirst : firstKey s ⟨level - 1, 0⟩ = keys.headD 0) (hmax : s.numLevels ≤ MAX_TREE_LEVELS)
    (hdepth : s.numLevels < depth + level) (key : ℕ) :
    ∃ out, intsetUpdateUpper depth level ⟨level - 1, keys.length⟩ key s = some out ∧
      ((out.error = none ∧ UpperOk out.set level (keys ++ [key]) ∧ SameBelow level s out.set ∧
          out.set.numLevels ≤ MAX_TREE_LEVELS) ∨
        (level ≤ MAX_TREE_LEVELS ∧ keys.length =
          MAX_INTERNAL_ITEMS^(MAX_TREE_LEVELS - level))) := by
  induction depth generalizing s level keys with
  | zero =>
    have := h.le_numLevels
    omega
  | succ depth ih =>
    rw [intsetUpdateUpper]
    cases h with
    | root hn hr hempty =>
      rw [if_pos (by omega)]
      split_ifs with htop
      · -- The last level is full when a second root would be needed.
        refine ⟨_, rfl, .inr ⟨by omega, ?_⟩⟩
        have : MAX_TREE_LEVELS - level = 0 := by omega
        rw [this]
        rfl
      · rw [hr, bind_some]
        obtain ⟨out, hout, herr, hok, hsame, hlevels⟩ := upperOk_newRoot hn hempty key
          (fun parent => intsetUpdateUpper depth (level + 1) parent key)
        refine ⟨out, hout, .inl ⟨herr, ?_, hsame, by omega⟩⟩
        rw [hfirst] at hok
        exact hok
    | @level _ _ init last hlt htwo hnodes hright hok hupper =>
      rw [if_neg (by omega), placeDownlink_eq hnodes hright]
      split_ifs with hroom
      · have hsame := sameBelow_addDownlink s level init.length key ⟨level - 1, keys.length⟩
        refine ⟨_, rfl, .inl ⟨rfl, ?_, hsame, hmax⟩⟩
        refine .level hlt ?_ (internals_addDownlink hnodes key _) hright
          (hok.addDownlink hroom key) ?_
        · rw [length_append]
          omega
        · have hkeys : (init ++ [InternalNode.mk (last.values ++ [key])
              (last.downlinks ++ [⟨level - 1, keys.length⟩])]).map InternalNode.key =
                (init ++ [last]).map InternalNode.key := by
            simp only [map_append, map_cons, map_nil, InternalNode.key,
              getElem?_append_left hok.nonempty]
          rw [hkeys]
          refine hupper.congr rfl rfl (fun l hl => ?_) fun _ _ => rfl
          exact update_of_ne (by show l ≠ level; omega) _ _
      · -- The new node goes one level up.
        set s₁ := newParent s level key ⟨level - 1, keys.length⟩ with hs₁
        have hinternals : s₁.internals level = init ++ [last] ++
            [⟨[key], [⟨level - 1, keys.length⟩]⟩] := by
          simp [hs₁, Lib.newParent, hnodes]
        have hrightmost : s₁.rightmostNodes level = some ⟨level, (init ++ [last]).length⟩ := by
          simp [hs₁, Lib.newParent, hnodes]
        have hupper₁ : UpperOk s₁ (level + 1) ((init ++ [last]).map InternalNode.key) :=
          hupper.congr rfl rfl (fun l hl => update_of_ne (by omega) _ _)
            fun l hl => update_of_ne (by omega) _ _
        have hfirst₁ : firstKey s₁ ⟨level, 0⟩ =
            ((init ++ [last]).map InternalNode.key).headD 0 := by
          rw [firstKey, if_neg (Nat.ne_of_gt hlevel), hinternals]
          cases init <;> rfl
        obtain ⟨out, hout, hcases⟩ := ih hupper₁ (by omega) hfirst₁ hmax
          (by show s.numLevels < depth + (level + 1); omega)
        rw [length_map] at hout
        refine ⟨out, hout, ?_⟩
        rcases hcases with ⟨herr, hup, hsame, hlevels⟩ | ⟨hle, hfull⟩
        · have hsame' : SameBelow level s out.set :=
            (sameBelow_newParent s level key _).trans (hsame.mono (Nat.le_succ _))
          refine .inl ⟨herr, ?_, hsame', hlevels⟩
          refine .level ?_ ?_ ((hsame.internals level (by omega)).trans hinternals)
            ((hsame.rightmostNodes level (by omega)).trans hrightmost) (hok.newParent hroom key) ?_
          · exact hup.le_numLevels
          · rw [length_append]
            omega
          · rw [map_append]
            exact hup
        · refine .inr ⟨by omega, ?_⟩
          rw [length_map] at hfull
          -- On a full level there are 64 keys for each node.
          rw [← hok.values, Bytes.length_flatMap_const (hok.full_of_not_lt hroom), hfull,
            ← Nat.pow_succ]
          congr 1
          omega

/-! ## Walking down -/

/-- The nodes of a level start with their keys. -/
theorem LevelOk.head (h : LevelOk init last keys below) :
    ∀ n ∈ init ++ [last], ∃ a, n.values.head? = some a ∧ id a = n.key := by
  have hall : ∀ n ∈ init ++ [last], 0 < n.values.length :=
    forall_mem_concat.mpr ⟨fun n hn => h.full n hn ▸ Nat.succ_pos 63, h.nonempty⟩
  intro n hn
  have hpos := hall n hn
  refine ⟨n.values[0], ?_, ?_⟩
  · rw [head?_eq_getElem?, getElem?_eq_getElem hpos]
  · unfold InternalNode.key
    rw [getElem?_eq_getElem hpos]
    rfl

/-- The downlink of an entry leads to the node of its key. -/
theorem downlink_eq {pre post : List InternalNode} {n : InternalNode}
    (haligned : ∀ m ∈ pre ++ n :: post, m.values.length = m.downlinks.length)
    (hvalues : (pre ++ n :: post).flatMap InternalNode.values = keys)
    (hlinks : (pre ++ n :: post).flatMap InternalNode.downlinks =
      (range keys.length).map (NodePtr.mk below))
    {i : ℕ} (hi : i < n.values.length) :
    n.downlinks[i]? = some ⟨below, (pre.flatMap InternalNode.values).length + i⟩ := by
  have hpre : (pre.flatMap InternalNode.downlinks).length =
      (pre.flatMap InternalNode.values).length := by
    clear hvalues hlinks
    induction pre with
    | nil => rfl
    | cons m pre ih =>
      obtain ⟨hm, hrest⟩ := forall_mem_cons.mp haligned
      rw [flatMap_cons, flatMap_cons, length_append, length_append, hm, ih hrest]
  have hget := congrArg (fun l => l[(pre.flatMap InternalNode.values).length + i]?) hlinks
  simp only [flatMap_append, flatMap_cons] at hget
  rw [← hpre, getElem?_append_right (by omega), Nat.add_sub_cancel_left,
    getElem?_append_left (by rw [← haligned n (by simp)]; exact hi)] at hget
  have hlt : (pre.flatMap InternalNode.values).length + i < keys.length := by
    rw [← hvalues, flatMap_append, flatMap_cons, length_append, length_append]
    omega
  rw [hget, hpre, getElem?_map, getElem?_range hlt, map_some]

/-- The walk down from the root to a level ends at the last key up to `x`, or finds that there is
none. -/
theorem UpperOk.walkDown (h : UpperOk s level keys) (hlevel : 1 ≤ level)
    (hinc : keys.Pairwise (· < ·)) {root : NodePtr} (hroot : s.root = some root) (x : ℕ) :
    (walkDown s x (s.numLevels - 1) root = none ∧ ∀ key ∈ keys, x < key) ∨
      ∃ i, walkDown s x (s.numLevels - 1) root = walkDown s x (level - 1) ⟨level - 1, i⟩ ∧
        BinarySearch.Located id x keys i := by
  induction h with
  | @root level key hn hr _ =>
    rw [hr, some.injEq] at hroot
    rw [hn, ← hroot]
    exact .inr ⟨0, rfl, [], key, [], rfl, rfl, .inl rfl, by simp⟩
  | @level level keys init last hlt htwo hnodes hright hok hupper ih =>
    have hsorted : ((init ++ [last]).flatMap InternalNode.values).Pairwise
        fun a b => id a < id b := by
      rw [hok.values]
      exact hinc
    have hkeys : ((init ++ [last]).map InternalNode.key).Pairwise (· < ·) :=
      BinarySearch.pairwise_keys (f := id) hsorted hok.head
    rcases ih (by omega) hkeys with ⟨hnone, hall⟩ | ⟨i, hwalk, hlocated⟩
    · refine .inl ⟨hnone, ?_⟩
      rw [← hok.values]
      refine BinarySearch.lt_of_keys (f := id) hsorted hok.head fun n hn => ?_
      exact hall n.key (mem_map_of_mem hn)
    · -- The node that the walk is at, and the search among its values.
      obtain ⟨pre, n, post, hcut, rfl, hfst, hrest⟩ := hlocated.of_map
      have hnode : (s.internals level)[pre.length]? = some n := by
        rw [hnodes, hcut]
        simp
      obtain ⟨l, rfl⟩ : ∃ l, level = l + 1 := ⟨level - 1, by omega⟩
      rw [show l + 1 + 1 - 1 = l + 1 from rfl, Lib.walkDown, hnode, bind_some] at hwalk
      have hhead := hok.head
      have haligned := hok.aligned
      have hvalues := hok.values
      have hlinks := hok.downlinks
      rw [hcut] at hsorted hhead haligned hvalues hlinks
      rcases BinarySearch.located_flatMap id x 0 hsorted hhead hfst hrest with
        ⟨hzero, hall⟩ | ⟨m, a, hfound, hget, hdecomp, hle, hbehind⟩
      · rw [if_pos (by simpa [intsetBinsrchUint64] using hzero)] at hwalk
        rw [hvalues] at hall
        exact .inl ⟨hwalk, hall⟩
      · have hfound' : intsetBinsrchUint64 x n.values true = m + 1 := by
          simpa [intsetBinsrchUint64] using hfound
        have hm : m < n.values.length := (List.getElem?_eq_some_iff.mp hget).1
        rw [hfound', if_neg (Nat.succ_ne_zero m), Nat.add_sub_cancel,
          downlink_eq haligned hvalues hlinks hm, bind_some] at hwalk
        refine .inr ⟨_, hwalk, _, a, _, hvalues.symm.trans hdecomp, ?_, .inr hle, hbehind⟩
        rw [length_append, length_take]
        omega

end PgAutoIndex.Lib
