import PgAutoIndex.BinarySearch
import PgAutoIndex.Lib.Simple8b

/-!
# Integer sets

`integerset.c`: a set of 64-bit integers that are added in order. New values wait in a buffer; when
it is full they are packed into leaf items, a first value with a codeword for those that follow, and
the items go to the right end of a B-tree whose nodes hold 64 entries each. `intset_update_upper`
links a new node into its parent and adds a root when the tree has to grow.

A node is named by its level and by its number among the nodes of that level, in the order in which
they are allocated. The fields `num_items` are the lengths of the lists. A call yields the set it
leaves and the error that it raised, if any (`Outcome`); `none` stands for a null pointer that is
followed or a bound on the rounds of a loop that is too small, and neither happens.
-/

namespace PgAutoIndex.Lib

open Function

/-- `MAX_INTERNAL_ITEMS`. -/
def MAX_INTERNAL_ITEMS : ℕ := 64

/-- `MAX_LEAF_ITEMS`. -/
def MAX_LEAF_ITEMS : ℕ := 64

/-- `MAX_TREE_LEVELS`. -/
def MAX_TREE_LEVELS : ℕ := 11

/-- `SIMPLE8B_MAX_VALUES_PER_CODEWORD`. -/
def SIMPLE8B_MAX_VALUES_PER_CODEWORD : ℕ := 240

/-- `MAX_VALUES_PER_LEAF_ITEM`. -/
def MAX_VALUES_PER_LEAF_ITEM : ℕ := 1 + SIMPLE8B_MAX_VALUES_PER_CODEWORD

/-- `MAX_BUFFERED_VALUES`. -/
def MAX_BUFFERED_VALUES : ℕ := MAX_VALUES_PER_LEAF_ITEM * 2

/-- A pointer to a node: its level, and its number on that level. -/
structure NodePtr where
  level : ℕ
  index : ℕ
deriving DecidableEq, Repr

/-- `leaf_item`. -/
structure LeafItem where
  first : ℕ
  codeword : ℕ
deriving DecidableEq, Repr

/-- `intset_leaf_node`. -/
structure LeafNode where
  items : List LeafItem
  next : Option NodePtr
deriving DecidableEq, Repr

/-- `intset_internal_node`. -/
structure InternalNode where
  values : List ℕ
  downlinks : List NodePtr
deriving DecidableEq, Repr

/-- What `iter_values` points to. -/
inductive IterValues where
  | null
  | iterValuesBuf
  | bufferedValues
deriving DecidableEq, Repr

/-- `IntegerSet`, with the nodes that were allocated for it. -/
structure IntegerSet where
  numEntries : ℕ
  highestValue : ℕ
  numLevels : ℕ
  root : Option NodePtr
  rightmostNodes : ℕ → Option NodePtr
  leftmostLeaf : Option NodePtr
  bufferedValues : List ℕ
  iterActive : Bool
  iterValues : IterValues
  iterNumValues : ℕ
  iterValueno : ℕ
  iterNode : Option NodePtr
  iterItemno : ℕ
  iterValuesBuf : List ℕ
  /-- The leaf nodes. -/
  leaves : List LeafNode
  /-- The internal nodes of each level. -/
  internals : ℕ → List InternalNode

/-- The errors of `integerset.c`. -/
inductive IntsetError where
  /-- cannot add new values to integer set while iteration is in progress -/
  | iterationInProgress
  /-- cannot add value to integer set out of order -/
  | outOfOrder
  /-- could not expand integer set, maximum number of levels reached -/
  | maximumLevels
deriving DecidableEq, Repr

/-- What a call leaves: the set, and the error that it raised. -/
structure Outcome where
  set : IntegerSet
  error : Option IntsetError

/-- `intset_create`. -/
def intsetCreate : IntegerSet where
  numEntries := 0
  highestValue := 0
  numLevels := 0
  root := none
  rightmostNodes := fun _ => none
  leftmostLeaf := none
  bufferedValues := []
  iterActive := false
  iterValues := .null
  iterNumValues := 0
  iterValueno := 0
  iterNode := none
  iterItemno := 0
  iterValuesBuf := []
  leaves := []
  internals := fun _ => []

/-- `intset_num_entries`. -/
def intsetNumEntries (s : IntegerSet) : ℕ := s.numEntries

/-! ## Adding values -/

/-- The first value on a node, which becomes the key of its downlink. -/
def firstKey (s : IntegerSet) (node : NodePtr) : ℕ :=
  if node.level = 0 then
    ((s.leaves[node.index]?.bind fun leaf => leaf.items[0]?).map LeafItem.first).getD 0
  else ((s.internals node.level)[node.index]?.bind fun n => n.values[0]?).getD 0

/-- `intset_new_internal_node`, with the one item that every caller puts on it, as the rightmost
node of its level. -/
def newParent (s : IntegerSet) (level key : ℕ) (child : NodePtr) : IntegerSet :=
  { s with
    internals := update s.internals level (s.internals level ++ [⟨[key], [child]⟩])
    rightmostNodes := update s.rightmostNodes level (some ⟨level, (s.internals level).length⟩) }

/-- The new root of `intset_update_upper`, over the old one. -/
def newRoot (s : IntegerSet) (level : ℕ) (oldroot : NodePtr) : IntegerSet :=
  { newParent s level (firstKey s oldroot) oldroot with
    numLevels := s.numLevels + 1
    root := some ⟨level, (s.internals level).length⟩ }

/-- One more downlink on a node. -/
def addDownlink (s : IntegerSet) (parent : NodePtr) (key : ℕ) (child : NodePtr) : IntegerSet :=
  { s with
    internals := update s.internals parent.level
      ((s.internals parent.level).modify parent.index
        fun n => ⟨n.values ++ [key], n.downlinks ++ [child]⟩) }

/-- The second half of `intset_update_upper`, with `recurse` for the call that links a new parent to
the grandparent. -/
def placeDownlink (recurse : NodePtr → IntegerSet → Option Outcome) (level : ℕ) (child : NodePtr)
    (childKey : ℕ) (s : IntegerSet) : Option Outcome :=
  (s.rightmostNodes level).bind fun parent =>
    (s.internals parent.level)[parent.index]?.bind fun node =>
      if node.values.length < MAX_INTERNAL_ITEMS
        then some ⟨addDownlink s parent childKey child, none⟩
      else recurse ⟨level, (s.internals level).length⟩ (newParent s level childKey child)

/-- `intset_update_upper`, with a bound on the depth of the recursion. -/
def intsetUpdateUpper : ℕ → ℕ → NodePtr → ℕ → IntegerSet → Option Outcome
  | 0, _, _, _, _ => none
  | depth + 1, level, child, childKey, s =>
    let place :=
      placeDownlink (fun parent => intsetUpdateUpper depth (level + 1) parent childKey) level child
      childKey
    if level ≥ s.numLevels then
      if s.numLevels = MAX_TREE_LEVELS then some ⟨s, some .maximumLevels⟩
      else s.root.bind fun oldroot => place (newRoot s level oldroot)
    else place s

/-- `intset_new_leaf_node`, linked behind the old rightmost leaf. -/
def newLeaf (s : IntegerSet) (oldLeaf : NodePtr) : IntegerSet :=
  { s with
    leaves := (s.leaves.modify oldLeaf.index fun leaf =>
      { leaf with next := some ⟨0, s.leaves.length⟩ }) ++
      [⟨[], none⟩]
    rightmostNodes := update s.rightmostNodes 0 (some ⟨0, s.leaves.length⟩) }

/-- One more item on a leaf. -/
def addItem (s : IntegerSet) (leaf : NodePtr) (item : LeafItem) : IntegerSet :=
  { s with leaves := s.leaves.modify leaf.index fun l => { l with items := l.items ++ [item] } }

/-- The loop of `intset_flush_buffered_values` over the values not yet packed, with the rightmost
leaf at hand. At the end, or with an error, the values that are left stay in the buffer as they are;
they are moved to its start in the caller. Each round packs at least one value, so there are no more
rounds than values. -/
def flushLoop : ℕ → List ℕ → NodePtr → IntegerSet → Option (List ℕ × Outcome)
  | 0, values, _, s => some (values, ⟨s, none⟩)
  | rounds + 1, values, leaf, s =>
    if values.length ≥ MAX_VALUES_PER_LEAF_ITEM then
      let first := values[0]?.getD 0
      (simple8bEncode (values.drop 1) first).bind fun (codeword, numEncoded) =>
        let item : LeafItem := ⟨first, codeword⟩
        s.leaves[leaf.index]?.bind fun node =>
          if node.items.length ≥ MAX_LEAF_ITEMS then
            let new : NodePtr := ⟨0, s.leaves.length⟩
            (intsetUpdateUpper (MAX_TREE_LEVELS + 1) 1 new first (newLeaf s leaf)).bind fun out =>
              if out.error.isSome then some (values, out)
              else flushLoop rounds (values.drop (1 + numEncoded)) new (addItem out.set new item)
          else flushLoop rounds (values.drop (1 + numEncoded)) leaf (addItem s leaf item)
    else some (values, ⟨s, none⟩)

/-- The first leaf of an empty tree, which is also the root. -/
def firstLeaf (s : IntegerSet) : IntegerSet :=
  { s with
    leaves := s.leaves ++ [⟨[], none⟩]
    root := some ⟨0, s.leaves.length⟩
    leftmostLeaf := some ⟨0, s.leaves.length⟩
    rightmostNodes := update s.rightmostNodes 0 (some ⟨0, s.leaves.length⟩)
    numLevels := 1 }

/-- `intset_flush_buffered_values`. -/
def intsetFlushBufferedValues (s : IntegerSet) : Option Outcome :=
  let s' := if s.rightmostNodes 0 = none then firstLeaf s else s
  (s'.rightmostNodes 0).bind fun leaf =>
    (flushLoop s.bufferedValues.length s.bufferedValues leaf s').map fun (rest, out) =>
      if out.error.isSome then out else ⟨{ out.set with bufferedValues := rest }, none⟩

/-- `intset_add_member`. -/
def intsetAddMember (s : IntegerSet) (x : ℕ) : Option Outcome :=
  if s.iterActive then some ⟨s, some .iterationInProgress⟩
  else if x ≤ s.highestValue ∧ s.numEntries > 0 then some ⟨s, some .outOfOrder⟩
  else
    (if s.bufferedValues.length ≥ MAX_BUFFERED_VALUES then intsetFlushBufferedValues s
      else some ⟨s, none⟩).map fun out =>
        if out.error.isSome then out
        else
          ⟨{ out.set with
              bufferedValues := out.set.bufferedValues ++ [x]
              numEntries := (out.set.numEntries + 1) % 2^64
              highestValue := x }, none⟩

/-! ## Looking a value up -/

/-- `intset_binsrch_uint64`. -/
def intsetBinsrchUint64 (item : ℕ) (arr : List ℕ) (nextkey : Bool) : ℕ :=
  BinarySearch.searchList id (fun key => if nextkey then item ≥ key else item > key) arr 0

/-- `intset_binsrch_leaf`. -/
def intsetBinsrchLeaf (item : ℕ) (arr : List LeafItem) (nextkey : Bool) : ℕ :=
  BinarySearch.searchList LeafItem.first (fun key => if nextkey then item ≥ key
    else item > key) arr 0

/-- The walk of `intset_is_member` from a node down to a leaf; none when the value is before the
first key of a node. -/
def walkDown (s : IntegerSet) (x : ℕ) : ℕ → NodePtr → Option NodePtr
  | 0, node => some node
  | level + 1, node =>
    (s.internals node.level)[node.index]?.bind fun n =>
      let itemno := intsetBinsrchUint64 x n.values true
      if itemno = 0 then none
      else n.downlinks[itemno - 1]?.bind (walkDown s x level)

/-- The search of `intset_is_member` on a leaf. -/
def leafMember (leaf : LeafNode) (x : ℕ) : Bool :=
  let itemno := intsetBinsrchLeaf x leaf.items true
  if itemno = 0 then false
  else
    match leaf.items[itemno - 1]? with
    | none => false
    | some item => if item.first = x then true else simple8bContains item.codeword x item.first

/-- `intset_is_member`. -/
def intsetIsMember (s : IntegerSet) (x : ℕ) : Bool :=
  if 0 < s.bufferedValues.length ∧ x ≥ s.bufferedValues[0]?.getD 0 then
    let itemno := intsetBinsrchUint64 x s.bufferedValues false
    if itemno ≥ s.bufferedValues.length then false else s.bufferedValues[itemno]?.getD 0 == x
  else
    match s.root with
    | none => false
    | some root =>
      match (walkDown s x (s.numLevels - 1) root).bind fun leaf => s.leaves[leaf.index]? with
      | none => false
      | some leaf => leafMember leaf x

/-! ## Iteration -/

/-- `intset_begin_iterate`. -/
def intsetBeginIterate (s : IntegerSet) : IntegerSet :=
  { s with
    iterActive := true
    iterNode := s.leftmostLeaf
    iterItemno := 0
    iterValueno := 0
    iterNumValues := 0
    iterValues := .iterValuesBuf }

/-- The array that `iter_values` points to. -/
def iterArray (s : IntegerSet) : List ℕ :=
  match s.iterValues with
  | .null => []
  | .iterValuesBuf => s.iterValuesBuf
  | .bufferedValues => s.bufferedValues

/-- The node that the iteration is at. -/
def iterLeaf (s : IntegerSet) : Option LeafNode := s.iterNode.bind fun node => s.leaves[node.index]?

/-- The loop of `intset_iterate_next`: the value found, or none at the end, and the set. -/
def iterateLoop : ℕ → IntegerSet → Option (Option ℕ × IntegerSet)
  | 0, _ => none
  | rounds + 1, s =>
    if s.iterValueno < s.iterNumValues then
      some (some ((iterArray s)[s.iterValueno]?.getD 0), { s with iterValueno :=
        s.iterValueno + 1 })
    else
      match iterLeaf s with
      | some leaf =>
        match leaf.items[s.iterItemno]? with
        | some item =>
          let decoded := simple8bDecode item.codeword item.first
          iterateLoop rounds
            { s with
              iterItemno := s.iterItemno + 1
              iterValuesBuf := item.first :: decoded
              iterNumValues := decoded.length + 1
              iterValueno := 0 }
        | none => iterateLoop rounds { s with iterNode := leaf.next, iterItemno := 0 }
      | none =>
        if s.iterValues = .iterValuesBuf then
          iterateLoop rounds
            { s with
              iterValues := .bufferedValues
              iterNumValues := s.bufferedValues.length
              iterValueno := 0 }
        else some (none, { s with iterActive := false })

/-- `intset_iterate_next`: no round takes an item, a leaf or the buffer twice. -/
def intsetIterateNext (s : IntegerSet) : Option (Option ℕ × IntegerSet) :=
  iterateLoop ((s.leaves.flatMap LeafNode.items).length + s.leaves.length + 3) s

end PgAutoIndex.Lib
