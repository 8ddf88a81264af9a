import PgAutoIndex.Lib.IntegerSetTree

/-!
# Adding values to an integer set

What a set holds after values were added in order: the values packed into the items of the leaves,
one leaf after the other, and behind them those that wait in the buffer (`Holds`). All leaves but
the last are full and each has its link to the next (`TreeOk`). Flushing the buffer moves values
from one part to the other.

The limit on the number of levels is never met: a tree of eleven full levels would have `64^11`
items, and there are no more than `2^64` values.
-/

namespace PgAutoIndex.Lib

open List Option

/-- The key of a leaf is the first value of its first item. -/
def LeafNode.key (l : LeafNode) : ℕ := (l.items[0]?.map LeafItem.first).getD 0

/-- The items of the tree, from left to right. -/
def treeItems (s : IntegerSet) : List LeafItem := s.leaves.flatMap LeafNode.items

/-- The values that an item holds. -/
def itemValues (item : LeafItem) : List ℕ := item.first :: simple8bDecode item.codeword item.first

/-- The values that the tree holds. -/
def treeValues (s : IntegerSet) : List ℕ := (treeItems s).flatMap itemValues

/-- `simple8b_contains` agrees with decoding on an item. -/
def ItemOk (item : LeafItem) : Prop :=
  Encodes item.codeword item.first (simple8bDecode item.codeword item.first)

/-- A tree with its rightmost leaf apart. -/
structure TreeOk (s : IntegerSet) (init : List LeafNode) (last : LeafNode) : Prop where
  leaves : s.leaves = init ++ [last]
  rightmost : s.rightmostNodes 0 = some ⟨0, init.length⟩
  leftmost : s.leftmostLeaf = some ⟨0, 0⟩
  full : ∀ l ∈ init, l.items.length = MAX_LEAF_ITEMS
  room : last.items.length ≤ MAX_LEAF_ITEMS
  nonempty : init = [] ∨ last.items ≠ []
  next : ∀ (i : ℕ) (l : LeafNode), init[i]? = some l → l.next = some ⟨0, i + 1⟩
  last_next : last.next = none
  levels : s.numLevels ≤ MAX_TREE_LEVELS
  upper : UpperOk s 1 (s.leaves.map LeafNode.key)
  items : ∀ item ∈ treeItems s, ItemOk item

/-! ## One more item -/

/-- The key of a leaf stays when it has one already. -/
theorem leafKey_append {l : LeafNode} (h : l.items ≠ []) (item : LeafItem) :
    LeafNode.key { l with items := l.items ++ [item] } = l.key := by
  unfold LeafNode.key
  rw [getElem?_append_left (length_pos_iff.mpr h)]

variable {s : IntegerSet} {init : List LeafNode} {last : LeafNode} {xs : List ℕ}

/-- An item that fits on the rightmost leaf. -/
theorem TreeOk.addItem (h : TreeOk s init last) (hroom : last.items.length < MAX_LEAF_ITEMS)
    {item : LeafItem} (hitem : ItemOk item) :
    TreeOk (addItem s ⟨0, init.length⟩ item) init { last with items := last.items ++ [item] } ∧
      treeItems (addItem s ⟨0, init.length⟩ item) = treeItems s ++ [item] := by
  have hleaves : (Lib.addItem s ⟨0, init.length⟩ item).leaves =
      init ++ [{ last with items := last.items ++ [item] }] := by
    unfold Lib.addItem
    simp only [h.leaves, modify_last]
  have hitems : treeItems (Lib.addItem s ⟨0, init.length⟩ item) = treeItems s ++ [item] := by
    unfold treeItems
    rw [hleaves, h.leaves]
    simp
  refine ⟨{ h with
      leaves := hleaves
      room := ?room
      nonempty := .inr (by simp)
      upper := ?upper
      items := ?items }, hitems⟩
  case room =>
    simp only [length_append, length_singleton]
    omega
  case upper =>
    have hupper := h.upper
    rw [hleaves]
    rw [h.leaves] at hupper
    by_cases hne : last.items = []
    · -- The first item of the set: the leaf is the root.
      have hinit : init = [] := h.nonempty.resolve_right fun hn => hn hne
      subst hinit
      cases hupper with
      | root hn hr hempty => exact .root hn hr hempty
      | level _ htwo _ _ _ _ => exact absurd htwo (by simp)
    · rw [map_append, map_singleton, leafKey_append hne item, ← map_singleton (f := LeafNode.key),
        ← map_append]
      exact hupper.congr rfl rfl (fun _ _ => rfl) fun _ _ => rfl
  case items =>
    rw [hitems]
    exact forall_mem_concat.mpr ⟨h.items, hitem⟩

/-- An item on a new leaf, to the right of a full one, unless all levels are full. -/
theorem TreeOk.newLeaf (h : TreeOk s init last) (hfull : last.items.length ≥ MAX_LEAF_ITEMS)
    {item : LeafItem} (hitem : ItemOk item) :
    ∃ out, intsetUpdateUpper (MAX_TREE_LEVELS + 1) 1 ⟨0, s.leaves.length⟩ item.first
        (newLeaf s ⟨0, init.length⟩) = some out ∧
      ((out.error = none ∧
          TreeOk (Lib.addItem out.set ⟨0, s.leaves.length⟩ item)
            (init ++ [{ last with next := some ⟨0, init.length + 1⟩ }]) ⟨[item], none⟩ ∧
          treeItems (Lib.addItem out.set ⟨0, s.leaves.length⟩ item) = treeItems s ++ [item] ∧
          out.set.numEntries = s.numEntries ∧ out.set.iterActive = s.iterActive) ∨
        s.leaves.length = MAX_INTERNAL_ITEMS^(MAX_TREE_LEVELS - 1)) := by
  set last' : LeafNode := { last with next := some ⟨0, init.length + 1⟩ } with hlast'
  have hlen : s.leaves.length = init.length + 1 := by rw [h.leaves, length_append, length_singleton]
  set s₁ := Lib.newLeaf s ⟨0, init.length⟩ with hs₁
  have hleaves₁ : s₁.leaves = init ++ [last'] ++ [⟨[], none⟩] := by
    simp only [hs₁, Lib.newLeaf, h.leaves, modify_last, length_append, length_singleton, hlast']
  have hupper₁ : UpperOk s₁ 1 (s.leaves.map LeafNode.key) :=
    h.upper.congr rfl rfl (fun _ _ => rfl) fun l hl => Function.update_of_ne (by omega) _ _
  have hfirst₁ : firstKey s₁ ⟨1 - 1, 0⟩ = (s.leaves.map LeafNode.key).headD 0 := by
    rw [firstKey, hleaves₁, h.leaves]
    cases init <;> rfl
  obtain ⟨out, hout, hcases⟩ := hupper₁.updateUpper (MAX_TREE_LEVELS + 1) le_rfl hfirst₁ h.levels
    (lt_of_le_of_lt h.levels (by decide)) item.first
  rw [length_map] at hout hcases
  refine ⟨out, hout, ?_⟩
  rcases hcases with ⟨herr, hup, hsame, hlevels⟩ | ⟨-, hcount⟩
  case inr => exact .inr hcount
  refine .inl ⟨herr, ?_⟩
  -- The leaves after the item is in its place.
  have hleaves₂ : (Lib.addItem out.set ⟨0, s.leaves.length⟩ item).leaves =
      init ++ [last'] ++ [⟨[item], none⟩] := by
    have hidx : s.leaves.length = (init ++ [last']).length := by
      rw [hlen, length_append, length_singleton]
    unfold Lib.addItem
    simp only [hsame.leaves, hleaves₁]
    rw [hidx, modify_last]
    rfl
  have hitems : treeItems (Lib.addItem out.set ⟨0, s.leaves.length⟩ item) =
      treeItems s ++ [item] := by
    unfold treeItems
    rw [hleaves₂, h.leaves]
    simp [hlast']
  refine ⟨?_, hitems, hsame.numEntries, hsame.iterActive⟩
  constructor
  case leaves => exact hleaves₂
  case rightmost =>
    have : out.set.rightmostNodes 0 = some ⟨0, s.leaves.length⟩ := by
      rw [hsame.rightmostNodes 0 Nat.one_pos, hs₁]
      simp [Lib.newLeaf]
    rw [length_append, length_singleton, ← hlen]
    exact this
  case leftmost => exact hsame.leftmostLeaf.trans h.leftmost
  case full => exact forall_mem_concat.mpr ⟨h.full, le_antisymm h.room hfull⟩
  case room => exact show 1 ≤ 64 by decide
  case nonempty => exact .inr (by simp)
  case next =>
    intro i l hl
    rcases lt_or_ge i init.length with hi | hi
    · rw [getElem?_append_left hi] at hl
      exact h.next i l hl
    · rw [getElem?_append_right hi, getElem?_singleton] at hl
      split at hl
      case isTrue hzero =>
        have hi' : i = init.length := by omega
        rw [← some.inj hl, hi']
      case isFalse => exact absurd hl (by simp)
  case last_next => rfl
  case levels => exact hlevels
  case upper =>
    have hkeys : (init ++ [last'] ++ [LeafNode.mk [item] none]).map LeafNode.key =
        s.leaves.map LeafNode.key ++ [item.first] := by
      rw [h.leaves, map_append, map_append, map_append]
      rfl
    rw [hleaves₂, hkeys]
    exact hup.congr rfl rfl (fun _ _ => rfl) fun _ _ => rfl
  case items =>
    rw [hitems]
    exact forall_mem_concat.mpr ⟨h.items, hitem⟩

/-! ## Flushing the buffer -/

/-- Numbers below `bound` that increase are no more than `bound` many. -/
theorem length_le_of_increasing {bound : ℕ} (hinc : xs.Pairwise (· < ·))
    (hlt : ∀ x ∈ xs, x < bound) : xs.length ≤ bound := by
  have hnodup : xs.Nodup := hinc.imp ne_of_lt
  have hsub : xs ⊆ range bound := fun x hx => mem_range.mpr (hlt x hx)
  have := (subperm_of_subset hnodup hsub).length_le
  rwa [length_range] at this

/-- An item holds at least one value. -/
theorem length_items_le (items : List LeafItem) :
    items.length ≤ (items.flatMap itemValues).length := by
  induction items with
  | nil => exact Nat.le_refl 0
  | cons item items ih =>
    rw [flatMap_cons, length_append, length_cons]
    have : 0 < (itemValues item).length := Nat.succ_pos _
    omega

/-- A full tree of eleven levels has more items than there are values. -/
theorem TreeOk.not_full (h : TreeOk s init last) (hfull : last.items.length ≥ MAX_LEAF_ITEMS)
    (hinc : (treeValues s).Pairwise (· < ·)) (hlt : ∀ x ∈ treeValues s, x < 2^64) :
    s.leaves.length ≠ MAX_INTERNAL_ITEMS^(MAX_TREE_LEVELS - 1) := by
  intro hcount
  have hitems : (treeItems s).length = s.leaves.length * MAX_LEAF_ITEMS := by
    refine Bytes.length_flatMap_const ?_
    rw [h.leaves]
    exact forall_mem_concat.mpr ⟨h.full, le_antisymm h.room hfull⟩
  have hmany : 2^64 < MAX_INTERNAL_ITEMS^(MAX_TREE_LEVELS - 1) * MAX_LEAF_ITEMS := by decide
  have hfew := length_le_of_increasing hinc hlt
  have hone := length_items_le (treeItems s)
  rw [hitems, hcount] at hone
  exact absurd (lt_of_lt_of_le hmany (le_trans hone hfew)) (lt_irrefl _)

/-- While a set `t` with the values `xs` is flushed, those not packed yet come behind the tree. -/
structure Flushing (t : IntegerSet) (xs : List ℕ) (s : IntegerSet) (values : List ℕ) : Prop where
  values : treeValues s ++ values = xs
  numEntries : s.numEntries = t.numEntries
  iterActive : s.iterActive = t.iterActive

variable {t : IntegerSet} {values : List ℕ}

/-- A round of the flush packs the first values of the buffer into an item. -/
theorem flushLoop_round (h : TreeOk s init last) (hf : Flushing t xs s values)
    (hinc : xs.Pairwise (· < ·)) (hlt : ∀ x ∈ xs, x < 2^64)
    (hmany : values.length ≥ MAX_VALUES_PER_LEAF_ITEM) (rounds : ℕ) :
    ∃ n s' init' last', flushLoop (rounds + 1) values ⟨0, init.length⟩ s =
        flushLoop rounds (values.drop (1 + n)) ⟨0, init'.length⟩ s' ∧
      TreeOk s' init' last' ∧ last'.items ≠ [] ∧ Flushing t xs s' (values.drop (1 + n)) := by
  obtain ⟨rfl, hnumEntries, hiterActive⟩ := hf
  obtain ⟨first, rest, rfl⟩ : ∃ first rest, values = first :: rest :=
    exists_cons_of_length_pos (lt_of_lt_of_le (by decide) hmany)
  have hvalues := (pairwise_append.mp hinc).2.1
  have hincreasing : Increasing first rest :=
    ⟨hvalues, fun x hx => hlt x (mem_append_right _ (mem_cons_of_mem first hx))⟩
  have hrest : 240 ≤ rest.length := by
    have : 241 ≤ rest.length + 1 := hmany
    omega
  obtain ⟨-, -, -, codeword, n, hencode, -, hcode, -⟩ := simple8bEncode_spec hincreasing hrest
  set item : LeafItem := ⟨first, codeword⟩ with hitem_def
  have hitem : ItemOk item := by
    unfold ItemOk
    rw [hitem_def]
    simp only [hcode.decode]
    exact hcode
  have hpacked : itemValues item = (first :: rest).take (1 + n) := by
    unfold itemValues
    rw [add_comm, take_succ_cons, hitem_def]
    simp only [hcode.decode]
  have hvalues' : ∀ s', treeItems s' = treeItems s ++ [item] →
      treeValues s' ++ (first :: rest).drop (1 + n) = treeValues s ++ first :: rest := by
    intro s' hitems
    unfold treeValues
    rw [hitems, flatMap_append, flatMap_singleton, hpacked, append_assoc, take_append_drop]
  have hleaf : s.leaves[init.length]? = some last := by
    rw [h.leaves]
    simp
  rw [flushLoop, if_pos hmany]
  simp only [drop_one, tail_cons, getElem?_cons_zero, getD_some, hencode, bind_some, hleaf]
  split_ifs with hfull
  · obtain ⟨out, hout, hcases⟩ := h.newLeaf hfull hitem
    rcases hcases with ⟨herr, htree, hitems, hentries, hactive⟩ | hcount
    · refine ⟨n, _, _, _, ?_, htree, by simp, hvalues' _ hitems, hentries.trans hnumEntries,
        hactive.trans hiterActive⟩
      rw [show first = item.first from rfl, hout, bind_some, herr, length_append,
        length_singleton]
      rw [h.leaves, length_append, length_singleton]
      rfl
    · have hinc' := (pairwise_append.mp hinc).1
      exact absurd hcount (h.not_full hfull hinc' fun x hx => hlt x (mem_append_left _ hx))
  · obtain ⟨htree, hitems⟩ := h.addItem (by omega) hitem
    exact ⟨n, _, _, _, rfl, htree, by simp, hvalues' _ hitems, hnumEntries, hiterActive⟩

/-- The flush leaves fewer values than an item may hold, and packs the others behind those in the
tree. -/
theorem flushLoop_spec {rounds : ℕ} (h : TreeOk s init last) (hf : Flushing t xs s values)
    (hinc : xs.Pairwise (· < ·)) (hlt : ∀ x ∈ xs, x < 2^64) (hrounds : values.length ≤ rounds)
    (hmany : last.items ≠ [] ∨ values.length ≥ MAX_VALUES_PER_LEAF_ITEM) :
    ∃ rest s' init' last', flushLoop rounds values ⟨0, init.length⟩ s = some (rest, ⟨s', none⟩) ∧
      TreeOk s' init' last' ∧ last'.items ≠ [] ∧ Flushing t xs s' rest ∧
      rest.length < MAX_VALUES_PER_LEAF_ITEM := by
  induction rounds generalizing s init last values with
  | zero =>
    have hnil : values = [] := eq_nil_of_length_eq_zero (by omega)
    subst hnil
    have hne : last.items ≠ [] := hmany.resolve_right (by decide)
    exact ⟨[], s, init, last, rfl, h, hne, hf, by decide⟩
  | succ rounds ih =>
    by_cases hmore : values.length ≥ MAX_VALUES_PER_LEAF_ITEM
    · obtain ⟨n, s₁, init₁, last₁, hround, htree, hne, hf₁⟩ :=
        flushLoop_round h hf hinc hlt hmore rounds
      have hlength : (values.drop (1 + n)).length ≤ rounds := by
        rw [length_drop]
        omega
      rw [hround]
      exact ih htree hf₁ hlength (.inl hne)
    · refine ⟨values, s, init, last, ?_, h, hmany.resolve_right hmore, hf, by omega⟩
      rw [flushLoop, if_neg hmore]

/-! ## What a set holds -/

/-- The set before the first flush. -/
structure NoTree (s : IntegerSet) : Prop where
  leaves : s.leaves = []
  root : s.root = none
  rightmost : s.rightmostNodes 0 = none
  leftmost : s.leftmostLeaf = none
  internals : ∀ l, s.internals l = []

/-- The set holds the values `xs`, added in this order. -/
structure Holds (s : IntegerSet) (xs : List ℕ) : Prop where
  values : treeValues s ++ s.bufferedValues = xs
  increasing : xs.Pairwise (· < ·)
  words : ∀ x ∈ xs, x < 2^64
  buffered : s.bufferedValues.length ≤ MAX_BUFFERED_VALUES
  tree : NoTree s ∨ ∃ init last, TreeOk s init last ∧ last.items ≠ []
  numEntries : s.numEntries = xs.length % 2^64
  highest : ∀ x, xs.getLast? = some x → s.highestValue = x

/-- A fresh set holds nothing. -/
theorem holds_create : Holds intsetCreate [] where
  values := rfl
  increasing := List.Pairwise.nil
  words := by simp
  buffered := Nat.zero_le _
  tree := .inl ⟨rfl, rfl, rfl, rfl, fun _ => rfl⟩
  numEntries := rfl
  highest := by simp

/-- The first leaf makes a tree without items. -/
theorem treeOk_firstLeaf (h : NoTree s) :
    TreeOk (firstLeaf s) [] ⟨[], none⟩ ∧ treeValues (firstLeaf s) = treeValues s := by
  have hleaves : (firstLeaf s).leaves = [⟨[], none⟩] := by simp [firstLeaf, h.leaves]
  have hitems : treeItems (firstLeaf s) = [] := by simp [treeItems, hleaves]
  constructor
  · constructor
    case leaves => exact hleaves
    case rightmost => simp [firstLeaf, h.leaves]
    case leftmost => simp [firstLeaf, h.leaves]
    case full => simp
    case room => exact Nat.zero_le _
    case nonempty => exact .inl rfl
    case next => simp
    case last_next => rfl
    case levels => exact show 1 ≤ 11 by decide
    case upper =>
      rw [hleaves]
      exact .root rfl (by simp [firstLeaf, h.leaves]) fun l _ => h.internals l
    case items => simp [hitems]
  · unfold treeValues
    rw [hitems, treeItems, h.leaves]
    rfl

/-- The tree does not depend on the buffer, the counters or the iterator. -/
theorem TreeOk.congr {s' : IntegerSet} (h : TreeOk s init last) (hleaves : s'.leaves = s.leaves)
    (hinternals : s'.internals = s.internals) (hrightmost : s'.rightmostNodes = s.rightmostNodes)
    (hleftmost : s'.leftmostLeaf = s.leftmostLeaf) (hroot : s'.root = s.root)
    (hlevels : s'.numLevels = s.numLevels) : TreeOk s' init last :=
  { h with
    leaves := hleaves.trans h.leaves
    rightmost := hrightmost ▸ h.rightmost
    leftmost := hleftmost.trans h.leftmost
    levels := hlevels ▸ h.levels
    upper := by
      rw [hleaves]
      exact h.upper.congr hlevels hroot (fun l _ => by rw [hinternals]) fun l _ => by
        rw [hrightmost]
    items := by
      unfold treeItems
      rw [hleaves]
      exact h.items }

/-- `intset_flush_buffered_values` on a full buffer makes room and keeps the values. -/
theorem Holds.flush (h : Holds s xs) (hfull : s.bufferedValues.length ≥ MAX_BUFFERED_VALUES) :
    ∃ s', intsetFlushBufferedValues s = some ⟨s', none⟩ ∧ Flushing s xs s' s'.bufferedValues ∧
      s'.bufferedValues.length < MAX_BUFFERED_VALUES ∧ ∃ init last, TreeOk s' init last ∧
      last.items ≠ [] := by
  have hmany : s.bufferedValues.length ≥ MAX_VALUES_PER_LEAF_ITEM := le_trans (by decide) hfull
  -- The tree that the loop starts with.
  obtain ⟨s₀, init, last, hs₀, htree, hf⟩ : ∃ s₀ init last,
      (if s.rightmostNodes 0 = none then firstLeaf s else s) = s₀ ∧ TreeOk s₀ init last ∧
        Flushing s xs s₀ s.bufferedValues := by
    rcases h.tree with hnone | ⟨init, last, htree, -⟩
    · obtain ⟨htree, hvals⟩ := treeOk_firstLeaf hnone
      exact ⟨_, _, _, if_pos hnone.rightmost, htree, by rw [hvals, h.values], rfl, rfl⟩
    · refine ⟨s, init, last, if_neg ?_, htree, h.values, rfl, rfl⟩
      rw [htree.rightmost]
      simp
  obtain ⟨rest, s', init', last', hloop, htree', hne', hf', hfew⟩ :=
    flushLoop_spec htree hf h.increasing h.words le_rfl (.inr hmany)
  refine ⟨{ s' with bufferedValues := rest }, ?_, { hf' with }, lt_of_lt_of_le hfew (by decide),
    init', last', htree'.congr rfl rfl rfl rfl rfl rfl, hne'⟩
  unfold intsetFlushBufferedValues
  simp only [hs₀, htree.rightmost, bind_some, hloop, map_some]
  rfl

/-- `intset_add_member` makes room in the buffer before it puts the value there. -/
theorem Holds.makeRoom (h : Holds s xs) :
    ∃ s₁, (if s.bufferedValues.length ≥ MAX_BUFFERED_VALUES then intsetFlushBufferedValues s
        else some ⟨s, none⟩) = some ⟨s₁, none⟩ ∧ Flushing s xs s₁ s₁.bufferedValues ∧
      s₁.bufferedValues.length < MAX_BUFFERED_VALUES ∧
      (NoTree s₁ ∨ ∃ init last, TreeOk s₁ init last ∧ last.items ≠ []) := by
  by_cases hfull : s.bufferedValues.length ≥ MAX_BUFFERED_VALUES
  · obtain ⟨s₁, hflush, hf, hroom, htree⟩ := h.flush hfull
    exact ⟨s₁, by rw [if_pos hfull, hflush], hf, hroom, .inr htree⟩
  · exact ⟨s, if_neg hfull, ⟨h.values, rfl, rfl⟩, by omega, h.tree⟩

/-- `intset_add_member` with a value above those in the set. -/
theorem Holds.add (h : Holds s xs) (hactive : s.iterActive = false) {x : ℕ} (hx : ∀ y ∈ xs, y < x)
    (hword : x < 2^64) :
    ∃ s', intsetAddMember s x = some ⟨s', none⟩ ∧ Holds s' (xs ++ [x]) ∧ s'.iterActive = false := by
  -- The set is empty, or its highest value is below `x`.
  have horder : ¬ (x ≤ s.highestValue ∧ s.numEntries > 0) := by
    rintro ⟨hle, hpos⟩
    cases hlast : xs.getLast? with
    | none =>
      rw [h.numEntries, getLast?_eq_none_iff.mp hlast] at hpos
      exact absurd hpos (by decide)
    | some y =>
      rw [h.highest y hlast] at hle
      have := hx y (mem_of_getLast? hlast)
      omega
  obtain ⟨s₁, hs₁, ⟨hvals, hentries, hactive₁⟩, hroom, htree⟩ := h.makeRoom
  refine ⟨{ s₁ with
      bufferedValues := s₁.bufferedValues ++ [x]
      numEntries := (s₁.numEntries + 1) % 2^64
      highestValue := x }, ?_, ?_, hactive₁.trans hactive⟩
  · unfold intsetAddMember
    rw [hactive, if_neg Bool.false_ne_true, if_neg horder, hs₁, map_some]
    rfl
  · constructor
    case values =>
      show treeValues s₁ ++ (s₁.bufferedValues ++ [x]) = xs ++ [x]
      rw [← append_assoc, hvals]
    case increasing =>
      rw [pairwise_append]
      refine ⟨h.increasing, pairwise_singleton _ _, fun y hy z hz => ?_⟩
      rw [mem_singleton.mp hz]
      exact hx y hy
    case words =>
      exact forall_mem_concat.mpr ⟨h.words, hword⟩
    case buffered =>
      rw [length_append, length_singleton]
      exact hroom
    case tree =>
      rcases htree with hnone | ⟨init, last, htree, hne⟩
      · exact .inl { hnone with }
      · exact .inr ⟨init, last, htree.congr rfl rfl rfl rfl rfl rfl, hne⟩
    case numEntries =>
      rw [hentries, h.numEntries, length_append, length_singleton, Nat.mod_add_mod]
    case highest =>
      intro y hy
      rw [getLast?_concat, some.injEq] at hy
      exact hy

/-- Adding values one after the other, up to the first error. -/
def addMembers : List ℕ → IntegerSet → Option Outcome
  | [], s => some ⟨s, none⟩
  | x :: xs, s =>
    (intsetAddMember s x).bind fun out => if out.error.isSome then some out
      else addMembers xs out.set

/-- An increasing sequence is added without an error. -/
theorem Holds.addMembers (h : Holds s xs) (hactive : s.iterActive = false) (ys : List ℕ)
    (hinc : (xs ++ ys).Pairwise (· < ·)) (hlt : ∀ y ∈ ys, y < 2^64) :
    ∃ s', addMembers ys s = some ⟨s', none⟩ ∧ Holds s' (xs ++ ys) ∧ s'.iterActive = false := by
  induction ys generalizing s xs with
  | nil => exact ⟨s, rfl, by rwa [append_nil], hactive⟩
  | cons y ys ih =>
    obtain ⟨hy, hlt⟩ := forall_mem_cons.mp hlt
    have habove : ∀ x ∈ xs, x < y := fun x hx =>
      (pairwise_append.mp hinc).2.2 x hx y mem_cons_self
    obtain ⟨s₁, hadd, hholds, hactive₁⟩ := h.add hactive habove hy
    have hjoin : xs ++ [y] ++ ys = xs ++ y :: ys := by rw [append_assoc, singleton_append]
    obtain ⟨s', hrest, hholds', hactive'⟩ := ih hholds hactive₁ (hjoin ▸ hinc) hlt
    refine ⟨s', ?_, hjoin ▸ hholds', hactive'⟩
    rw [Lib.addMembers, hadd]
    exact hrest

end PgAutoIndex.Lib
