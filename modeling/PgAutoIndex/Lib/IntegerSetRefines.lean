import PgAutoIndex.Lib.IntegerSetAdd

/-!
# Integer sets refine sets

A set that holds the values `xs` answers membership as the list does (`Holds.isMember_iff`), and
iteration yields the list (`Holds.iterates`). Membership looks in the buffer, or walks down to a
leaf, searches its items and then the codeword of one item. Iteration takes the items of the leaves
in turn, by their links, and the buffer at the end: `iterRest` is what it has still to yield, and a
call of `intset_iterate_next` takes the first value from it.

`num_entries` is a 64-bit word, so it does not count a set of all `2^64` values.
-/

namespace PgAutoIndex.Lib

open Option

open List hiding getElem?_eq_some_iff

/-! ## Membership -/

/-- The search in the buffer. -/
theorem buffer_search {values : List ℕ} (hinc : values.Pairwise (· < ·)) (x : ℕ) :
    (if intsetBinsrchUint64 x values false ≥ values.length then false
      else values[intsetBinsrchUint64 x values false]?.getD 0 == x) = true ↔ x ∈ values := by
  set n := intsetBinsrchUint64 x values false with hn
  obtain ⟨hle, hin, hout⟩ := BinarySearch.searchList_spec id (fun key => x > key) values 0 hinc
    (fun a b hab hb => by simp only [decide_eq_true_eq] at hb ⊢; omega)
  have hn' : BinarySearch.searchList id (fun key => x > key) values 0 = n := by
    simp [hn, intsetBinsrchUint64]
  rw [hn'] at hle hin hout
  have hbelow : x ∉ values.take n := fun hx => by simpa using hin x hx
  have hmem : x ∈ values ↔ x ∈ values.drop n := by
    conv => lhs; rw [← take_append_drop n values, mem_append]
    exact ⟨fun h => h.resolve_left hbelow, .inr⟩
  rw [hmem]
  by_cases hend : n ≥ values.length
  · rw [if_pos hend, drop_of_length_le hend]
    simp
  · -- The first value not below `x` is `x`, or `x` is not there.
    have hlt : n < values.length := by omega
    rw [if_neg hend, getElem?_eq_getElem hlt, getD_some, beq_iff_eq]
    rw [drop_eq_getElem_cons hlt] at hout ⊢
    have hge : x ≤ values[n] := by simpa using hout values[n] mem_cons_self
    have hrest :=
      (pairwise_cons.mp (drop_eq_getElem_cons hlt ▸ hinc.sublist (drop_sublist n values))).1
    constructor
    · intro heq
      exact heq ▸ mem_cons_self
    · intro hx
      rcases mem_cons.mp hx with heq | hx
      · exact heq.symm
      · have := hrest x hx
        omega

variable {s : IntegerSet} {init : List LeafNode} {last : LeafNode} {item : LeafItem} {x : ℕ}
  {xs : List ℕ}

/-- Every leaf starts with its key. -/
theorem TreeOk.head (h : TreeOk s init last) (hne : last.items ≠ []) :
    ∀ l ∈ s.leaves, ∃ a, l.items.head? = some a ∧ LeafItem.first a = l.key := by
  have hall : ∀ l ∈ init ++ [last], l.items ≠ [] := by
    refine forall_mem_concat.mpr ⟨fun l hl hnil => ?_, hne⟩
    have := h.full l hl
    rw [hnil] at this
    exact absurd this (by decide)
  intro l hl
  obtain ⟨a, rest, hcons⟩ := exists_cons_of_ne_nil (hall l (h.leaves ▸ hl))
  refine ⟨a, by rw [hcons]; rfl, ?_⟩
  unfold LeafNode.key
  rw [hcons]
  rfl

/-- The item with the last first value up to `x` is the only one that can hold `x`. -/
theorem mem_item_iff {pre post : List LeafItem}
    (hinc : ((pre ++ item :: post).flatMap itemValues).Pairwise (· < ·)) (hle : item.first ≤ x)
    (hpost : ∀ b ∈ post, x < b.first) :
    x ∈ (pre ++ item :: post).flatMap itemValues ↔ x ∈ itemValues item := by
  rw [flatMap_append, flatMap_cons] at hinc ⊢
  obtain ⟨-, hright, hcross⟩ := pairwise_append.mp hinc
  have hbefore : x ∉ pre.flatMap itemValues := by
    intro hx
    have := hcross x hx item.first (mem_append_left _ mem_cons_self)
    omega
  have hafter : x ∉ post.flatMap itemValues := by
    intro hx
    have hsorted := (pairwise_append.mp hright).2.1
    have hlt := BinarySearch.lt_of_keys (f :=
      id) hsorted (fun b _ => ⟨b.first, rfl, rfl⟩) hpost x hx
    exact lt_irrefl x hlt
  simp only [mem_append, hbefore, hafter, false_or, or_false]

/-- An item holds `x` when `x` is its first value or `simple8b_contains` finds it. -/
theorem mem_itemValues_iff (h : ItemOk item) (hle : item.first ≤ x) (hword : x < 2^64) :
    (if item.first = x then true else simple8bContains item.codeword x item.first) = true ↔
      x ∈ itemValues item := by
  unfold itemValues
  rw [mem_cons]
  split_ifs with heq
  · exact ⟨fun _ => .inl heq.symm, fun _ => rfl⟩
  · rw [h.contains x (by omega) hword]
    have hne : x ≠ item.first := fun h => heq h.symm
    simp only [hne, false_or]

/-- The walk down the tree and the search on the leaf find the values of the tree. -/
theorem TreeOk.isMember_iff (h : TreeOk s init last) (hne : last.items ≠ [])
    (hinc : (treeValues s).Pairwise (· < ·)) {root : NodePtr} (hroot : s.root = some root)
    (hword : x < 2^64) :
    (match (walkDown s x (s.numLevels - 1) root).bind fun leaf => s.leaves[leaf.index]? with
      | none => false
      | some leaf => leafMember leaf x) = true ↔ x ∈ treeValues s := by
  have hhead := h.head hne
  have hitems : (s.leaves.flatMap LeafNode.items).Pairwise fun a b => a.first < b.first :=
    (pairwise_flatMap.mp hinc).2.imp fun hlt => hlt _ mem_cons_self _ mem_cons_self
  have hkeys : (s.leaves.map LeafNode.key).Pairwise (· < ·) :=
    BinarySearch.pairwise_keys hitems hhead
  -- When all items start above `x`, the tree does not hold it.
  have habove : (∀ item ∈ treeItems s, x < item.first) → x ∉ treeValues s := by
    intro hall hx
    have hlt := BinarySearch.lt_of_keys (f := id) hinc (fun b _ => ⟨b.first, rfl, rfl⟩) hall x hx
    exact lt_irrefl x hlt
  rcases h.upper.walkDown le_rfl hkeys hroot x with ⟨hnone, hall⟩ | ⟨i, hwalk, hlocated⟩
  · have hnot : x ∉ treeValues s := by
      apply habove
      exact BinarySearch.lt_of_keys hitems hhead fun l hl => hall l.key (mem_map_of_mem hl)
    simp [hnone, hnot]
  · obtain ⟨pre, l, post, hcut, rfl, hfst, hrest⟩ := hlocated.of_map
    have hleaf : s.leaves[pre.length]? = some l := by
      rw [hcut]
      simp
    rw [hwalk, show walkDown s x (1 - 1) ⟨1 - 1, pre.length⟩ = some ⟨0, _⟩ from rfl,
      bind_some, hleaf]
    rw [hcut] at hitems hhead
    unfold leafMember
    rcases BinarySearch.located_flatMap LeafItem.first x 0 hitems hhead hfst hrest
      with ⟨hzero, hall⟩ | ⟨n, item, hfound, hget, hdecomp, hle, hbehind⟩
    · have hnot : x ∉ treeValues s := by
        apply habove
        unfold treeItems
        rw [hcut]
        exact hall
      have hzero' : intsetBinsrchLeaf x l.items true = 0 := by simpa [intsetBinsrchLeaf] using hzero
      simp [hzero', hnot]
    · have hfound' : intsetBinsrchLeaf x l.items true = n + 1 := by
        simpa [intsetBinsrchLeaf] using hfound
      have htree : treeItems s = pre.flatMap LeafNode.items ++ l.items.take n ++
          item :: (l.items.drop (n + 1) ++ post.flatMap LeafNode.items) := by
        unfold treeItems
        rw [hcut, hdecomp]
      have hitem : ItemOk item := h.items item (by rw [htree]; simp)
      unfold treeValues at hinc ⊢
      rw [htree] at hinc ⊢
      rw [mem_item_iff hinc hle hbehind, ← mem_itemValues_iff hitem hle hword]
      simp only [hfound', Nat.succ_ne_zero, if_false, Nat.add_sub_cancel, hget]

/-- `intset_is_member` answers for the values that the set holds. -/
theorem Holds.isMember_iff (h : Holds s xs) (hword : x < 2^64) :
    intsetIsMember s x = true ↔ x ∈ xs := by
  have hinc := h.increasing
  rw [← h.values] at hinc ⊢
  obtain ⟨htree, hbuf, hcross⟩ := pairwise_append.mp hinc
  unfold intsetIsMember
  rw [mem_append]
  split_ifs with hin
  · -- The tree is below the buffer.
    have hnot : x ∉ treeValues s := by
      intro hx
      obtain ⟨hpos, hge⟩ := hin
      rw [getElem?_eq_getElem hpos, getD_some] at hge
      have := hcross x hx _ (getElem_mem hpos)
      omega
    simp only [hnot, false_or]
    exact buffer_search hbuf x
  · have hnot : x ∉ s.bufferedValues := by
      intro hx
      have hpos : 0 < s.bufferedValues.length := length_pos_of_mem hx
      have hlt : x < s.bufferedValues[0] := by
        rw [getElem?_eq_getElem hpos, getD_some] at hin
        omega
      obtain ⟨first, rest, hcons⟩ := exists_cons_of_length_pos hpos
      simp only [hcons, getElem_cons_zero] at hlt hx hbuf
      rcases mem_cons.mp hx with heq | hx
      · omega
      · have := (pairwise_cons.mp hbuf).1 x hx
        omega
    simp only [hnot, or_false]
    rcases h.tree with hnone | ⟨init, last, hok, hne⟩
    · rw [hnone.root]
      simp [treeValues, treeItems, hnone.leaves]
    · obtain ⟨root, hroot⟩ := hok.upper.exists_root
      rw [hroot]
      exact hok.isMember_iff hne htree hroot hword

/-! ## Iteration -/

/-- The items that the iteration has still to decode. -/
def iterItems (s : IntegerSet) : List LeafItem :=
  match s.iterNode with
  | none => []
  | some node =>
    ((s.leaves[node.index]?.map LeafNode.items).getD []).drop s.iterItemno ++
      (s.leaves.drop (node.index + 1)).flatMap LeafNode.items

/-- The values that the iteration has still to yield. -/
def iterRest (s : IntegerSet) : List ℕ :=
  ((iterArray s).take s.iterNumValues).drop s.iterValueno ++ (iterItems s).flatMap itemValues ++
    if s.iterValues = .iterValuesBuf then s.bufferedValues else []

/-- The leaves that the iteration has still to visit. -/
def iterLeaves (s : IntegerSet) : ℕ :=
  (s.iterNode.map fun node => s.leaves.length - node.index).getD 0

/-- An iteration under way: it is at a leaf or behind the last one, and the leaves are linked. -/
structure Iterating (s : IntegerSet) : Prop where
  active : s.iterActive = true
  values : s.iterValues ≠ .null
  loaded : s.iterNumValues ≤ (iterArray s).length
  node : ∀ node, s.iterNode = some node →
    node.index < s.leaves.length ∧ s.iterValues = .iterValuesBuf
  next : ∀ (i : ℕ) (l : LeafNode), s.leaves[i]? = some l →
    l.next = if i + 1 < s.leaves.length then some ⟨0, i + 1⟩ else none

/-- Everything but the iterator is the same. -/
def SameSet (s s' : IntegerSet) : Prop :=
  s' = { s with
    iterActive := s'.iterActive
    iterValues := s'.iterValues
    iterNumValues := s'.iterNumValues
    iterValueno := s'.iterValueno
    iterNode := s'.iterNode
    iterItemno := s'.iterItemno
    iterValuesBuf := s'.iterValuesBuf }

theorem SameSet.trans {s' s'' : IntegerSet} (h : SameSet s s') (h' : SameSet s' s'') :
    SameSet s s'' := by
  unfold SameSet at h h' ⊢
  rw [h', h]

/-- What a round of `intset_iterate_next` that yields nothing keeps, and how it comes closer to the
end. -/
structure Silent (s s' : IntegerSet) : Prop where
  iterating : Iterating s'
  rest : iterRest s' = iterRest s
  same : SameSet s s'
  closer : (iterItems s').length + iterLeaves s' + (if s'.iterValues = .iterValuesBuf then 1
    else 0) <
    (iterItems s).length + iterLeaves s + (if s.iterValues = .iterValuesBuf then 1 else 0)

/-- The blocks from one on are this one and those behind it. -/
theorem flatMap_drop {α β : Type} (f : α → List β) (l : List α) (i : ℕ) :
    (l.drop i).flatMap f = (l[i]?.map f).getD [] ++ (l.drop (i + 1)).flatMap f := by
  rw [drop_eq_getElem?_toList_append, flatMap_append]
  cases l[i]? <;> simp

/-- With no value loaded, the rest is in the items and the buffer. -/
theorem iterRest_of_empty (hempty : s.iterNumValues ≤ s.iterValueno) :
    iterRest s = (iterItems s).flatMap itemValues ++
      if s.iterValues = .iterValuesBuf then s.bufferedValues else [] := by
  have : ((iterArray s).take s.iterNumValues).drop s.iterValueno = [] := by
    apply drop_of_length_le
    rw [length_take]
    omega
  unfold iterRest
  rw [this, nil_append]

section Rounds

variable {s s' : IntegerSet} (h : Iterating s)
include h

/-- The next item is decoded. -/
theorem silent_decode (hempty : s.iterNumValues ≤ s.iterValueno) {node : NodePtr} {leaf : LeafNode}
    (hnode : s.iterNode = some node) (hleaf : s.leaves[node.index]? = some leaf)
    (hitem : leaf.items[s.iterItemno]? = some item) (hs' : s' = { s with
      iterItemno := s.iterItemno + 1
      iterValuesBuf := item.first :: simple8bDecode item.codeword item.first
      iterNumValues := (simple8bDecode item.codeword item.first).length + 1
      iterValueno := 0 }) :
    Silent s s' := by
  obtain ⟨hindex, hvalues⟩ := h.node node hnode
  have hrest := iterRest_of_empty hempty
  have harray : iterArray s' = itemValues item := by
    rw [hs']
    simp only [hvalues]
    rfl
  have hitems : iterItems s = item :: iterItems s' := by
    obtain ⟨hlt, hget⟩ := List.getElem?_eq_some_iff.mp hitem
    unfold iterItems
    rw [hs']
    simp only [hnode, hleaf, map_some, getD_some]
    rw [drop_eq_getElem_cons hlt, hget, cons_append]
  have htake : (itemValues item).take s'.iterNumValues = itemValues item := by
    rw [hs']
    exact take_of_length_le le_rfl
  subst hs'
  constructor
  · refine ⟨h.active, h.values, ?_, h.node, h.next⟩
    rw [harray]
    exact le_rfl
  · rw [hrest, hitems]
    unfold iterRest
    rw [harray, flatMap_cons]
    rw [htake]
    rfl
  · rfl
  · rw [hitems, length_cons]
    exact Nat.add_lt_add_right (Nat.add_lt_add_right (Nat.lt_succ_self _) _) _

/-- The end of a leaf: the iteration follows its link. -/
theorem silent_next {node : NodePtr} {leaf : LeafNode} (hnode : s.iterNode = some node)
    (hleaf : s.leaves[node.index]? = some leaf) (hitem : leaf.items[s.iterItemno]? = none) :
    Silent s { s with iterNode := leaf.next, iterItemno := 0 } := by
  obtain ⟨hindex, hvalues⟩ := h.node node hnode
  have hnext := h.next node.index leaf hleaf
  have hitems : iterItems s = (s.leaves.drop (node.index + 1)).flatMap LeafNode.items := by
    unfold iterItems
    simp only [hnode, hleaf, map_some, getD_some]
    rw [drop_of_length_le (getElem?_eq_none_iff.mp hitem), nil_append]
  have hleaves : iterLeaves s = s.leaves.length - node.index := by
    unfold iterLeaves
    rw [hnode]
    rfl
  -- The items that follow are the same, whether there is another leaf or not.
  have hitems' : iterItems { s with iterNode := leaf.next, iterItemno := 0 } = iterItems s := by
    rw [hitems, hnext]
    unfold iterItems
    split_ifs with hlast
    · simp only [drop_zero, ← flatMap_drop]
    · rw [drop_of_length_le (by omega)]
      rfl
  have hleaves' : iterLeaves { s with iterNode := leaf.next, iterItemno := 0 } < iterLeaves s := by
    rw [hleaves, hnext]
    unfold iterLeaves
    split_ifs with hlast
    · simp only [map_some, getD_some]
      omega
    · simp only [map_none, getD_none]
      omega
  constructor
  · refine { h with node := fun node' hnode' => ⟨?_, hvalues⟩ }
    have hnode'' : leaf.next = some node' := hnode'
    rw [hnext] at hnode''
    split_ifs at hnode'' with hlast
    · rw [some.injEq] at hnode''
      rw [← hnode'']
      exact hlast
  · unfold iterRest
    rw [hitems']
    rfl
  · rfl
  · rw [hitems']
    exact Nat.add_lt_add_right (Nat.add_lt_add_left hleaves' _) _

/-- Behind the last leaf comes the buffer. -/
theorem silent_buffer (hempty : s.iterNumValues ≤ s.iterValueno) (hnode : s.iterNode = none)
    (hvalues : s.iterValues = .iterValuesBuf) (hs' : s' = { s with
      iterValues := .bufferedValues
      iterNumValues := s.bufferedValues.length
      iterValueno := 0 }) :
    Silent s s' := by
  have hrest := iterRest_of_empty hempty
  have hitems : iterItems s = [] := by
    unfold iterItems
    rw [hnode]
  have hitems' : iterItems s' = iterItems s := by
    rw [hs']
    rfl
  subst hs'
  constructor
  · refine ⟨h.active, nofun, le_rfl, fun node hnode' => ?_, h.next⟩
    cases hnode.symm.trans hnode'
  · rw [hrest, hitems, hvalues]
    unfold iterRest iterArray
    rw [hitems', hitems]
    simp
  · rfl
  · rw [hitems', hvalues]
    show (iterItems s).length + iterLeaves s + 0 < (iterItems s).length + iterLeaves s + 1
    omega

end Rounds

/-- What the loop of `intset_iterate_next` does: it yields the first of the values that are left, or
stops. -/
structure Yields (s : IntegerSet) (r : Option ℕ) (s' : IntegerSet) : Prop where
  head : r = (iterRest s).head?
  same : SameSet s s'
  stop : r = none → s'.iterActive = false
  iterating : r ≠ none → Iterating s' ∧ iterRest s' = (iterRest s).tail

theorem Yields.of_silent {s₁ s' : IntegerSet} {r : Option ℕ} (hs : Silent s s₁)
    (hy : Yields s₁ r s') :
    Yields s r s' where
  head := by rw [← hs.rest]; exact hy.head
  same := hs.same.trans hy.same
  stop := hy.stop
  iterating := by rw [← hs.rest]; exact hy.iterating

/-- A loaded value is yielded. -/
theorem yields_loaded (h : Iterating s) (hmore : s.iterValueno < s.iterNumValues) :
    Yields s (some ((iterArray s)[s.iterValueno]?.getD 0)) { s with iterValueno :=
      s.iterValueno + 1 } := by
  have hlen : s.iterValueno < ((iterArray s).take s.iterNumValues).length := by
    rw [length_take]
    have := h.loaded
    omega
  have hdrop : ((iterArray s).take s.iterNumValues).drop s.iterValueno =
      (iterArray s)[s.iterValueno]?.getD 0 ::
        ((iterArray s).take s.iterNumValues).drop (s.iterValueno + 1) := by
    rw [drop_eq_getElem_cons hlen, getElem_take]
    rw [length_take] at hlen
    rw [getElem?_eq_getElem (by omega), getD_some]
  constructor
  · unfold iterRest
    rw [hdrop]
    rfl
  · rfl
  · simp
  · intro _
    refine ⟨{ h with }, ?_⟩
    conv => rhs; unfold iterRest; rw [hdrop]
    rfl

/-- The loop ends, and yields. -/
theorem iterateLoop_spec (rounds : ℕ) (h : Iterating s)
    (hrounds : (iterItems s).length + iterLeaves s + (if s.iterValues = .iterValuesBuf then 1
      else 0) < rounds) :
    ∃ r s', iterateLoop rounds s = some (r, s') ∧ Yields s r s' := by
  induction rounds generalizing s with
  | zero => cases hrounds
  | succ rounds ih =>
    -- A round that yields nothing is followed by the others.
    have hsilent : ∀ s₁, Silent s s₁ → ∃ r s', iterateLoop rounds s₁ = some (r, s') ∧
        Yields s r s' := by
      intro s₁ hs
      obtain ⟨r, s', hloop, hy⟩ := ih hs.iterating (by have := hs.closer; omega)
      exact ⟨r, s', hloop, hy.of_silent hs⟩
    rw [iterateLoop]
    by_cases hmore : s.iterValueno < s.iterNumValues
    · rw [if_pos hmore]
      exact ⟨_, _, rfl, yields_loaded h hmore⟩
    · rw [if_neg hmore]
      have hempty : s.iterNumValues ≤ s.iterValueno := by omega
      rcases eq_none_or_eq_some s.iterNode with hnode | ⟨node, hnode⟩
      case inr =>
        obtain ⟨hindex, -⟩ := h.node node hnode
        have hget : s.leaves[node.index]? = some s.leaves[node.index] := getElem?_eq_getElem hindex
        have hleaf : iterLeaf s = some s.leaves[node.index] := by
          unfold iterLeaf
          rw [hnode, bind_some, hget]
        rw [hleaf]
        cases hitem : s.leaves[node.index].items[s.iterItemno]? with
        | some item =>
          simp only [hitem]
          exact hsilent _ (silent_decode h hempty hnode hget hitem rfl)
        | none =>
          simp only [hitem]
          exact hsilent _ (silent_next h hnode hget hitem)
      case inl =>
        have hleaf : iterLeaf s = none := by
          unfold iterLeaf
          rw [hnode, bind_none]
        rw [hleaf]
        split_ifs with hvalues
        · exact hsilent _ (silent_buffer h hempty hnode hvalues rfl)
        · refine ⟨_, _, rfl, ?_, rfl, fun _ => rfl, by simp⟩
          rw [iterRest_of_empty hempty, if_neg hvalues]
          unfold iterItems
          rw [hnode]
          rfl

/-- The bound on the rounds is large enough. -/
theorem rounds_lt (s : IntegerSet) :
    (iterItems s).length + iterLeaves s + (if s.iterValues = .iterValuesBuf then 1 else 0) <
      (s.leaves.flatMap LeafNode.items).length + s.leaves.length + 3 := by
  have hflag : (if s.iterValues = .iterValuesBuf then 1 else 0) ≤ 1 := by split <;> decide
  have hleaves : iterLeaves s ≤ s.leaves.length := by
    unfold iterLeaves
    cases s.iterNode with
    | none => exact Nat.zero_le _
    | some node => exact Nat.sub_le _ _
  have hitems : (iterItems s).length ≤ (s.leaves.flatMap LeafNode.items).length := by
    unfold iterItems
    cases s.iterNode with
    | none => exact Nat.zero_le _
    | some node =>
      have hsplit := congrArg List.length (flatMap_drop LeafNode.items s.leaves node.index)
      have hle := ((drop_sublist node.index s.leaves).flatMap LeafNode.items).length_le
      simp only [length_append, length_drop] at hsplit ⊢
      omega
  omega

/-- `intset_iterate_next` yields the first of the values that are left, or stops. -/
theorem iterateNext_spec (h : Iterating s) :
    ∃ r s', intsetIterateNext s = some (r, s') ∧ Yields s r s' :=
  iterateLoop_spec _ h (rounds_lt s)

/-- The set refuses new values, and is left as it is. -/
def Refuses (s : IntegerSet) (error : IntsetError) (y : ℕ) : Prop :=
  intsetAddMember s y = some ⟨s, some error⟩

/-- Calls of `intset_iterate_next` yield the values one after the other and then end the iteration;
up to then the set refuses every new value. -/
inductive Iterates : IntegerSet → List ℕ → Prop
  | stop {s s' : IntegerSet} : (∀ y, Refuses s .iterationInProgress y) →
      intsetIterateNext s = some (none, s') → s'.iterActive = false → Iterates s []
  | next {s s' : IntegerSet} {x : ℕ} {xs : List ℕ} : (∀ y, Refuses s .iterationInProgress y) →
      intsetIterateNext s = some (some x, s') → Iterates s' xs → Iterates s (x :: xs)

/-- An iteration yields what it has left. -/
theorem iterates_of_iterating (xs : List ℕ) (h : Iterating s) (hrest : iterRest s = xs) :
    Iterates s xs := by
  have hrefuses : ∀ {s}, Iterating s → ∀ y, Refuses s .iterationInProgress y := by
    intro s h y
    unfold Refuses intsetAddMember
    rw [h.active, if_pos rfl]
  obtain ⟨r, s', hnext, hy⟩ := iterateNext_spec h
  induction xs generalizing s r s' with
  | nil =>
    have hr : r = none := by rw [hy.head, hrest]; rfl
    subst hr
    exact .stop (hrefuses h) hnext (hy.stop rfl)
  | cons x xs ih =>
    have hr : r = some x := by rw [hy.head, hrest]; rfl
    subst hr
    obtain ⟨hiter, htail⟩ := hy.iterating (by simp)
    obtain ⟨r, s'', hnext', hy'⟩ := iterateNext_spec hiter
    exact .next (hrefuses h) hnext (ih hiter (by rw [htail, hrest]; rfl) r s'' hnext' hy')

/-- The links of the leaves. -/
theorem TreeOk.next_eq (h : TreeOk s init last) (i : ℕ) (l : LeafNode)
    (hl : s.leaves[i]? = some l) :
    l.next = if i + 1 < s.leaves.length then some ⟨0, i + 1⟩ else none := by
  rw [h.leaves] at hl ⊢
  rw [length_append, length_singleton]
  rcases lt_or_ge i init.length with hi | hi
  · rw [getElem?_append_left hi] at hl
    rw [if_pos (by omega)]
    exact h.next i l hl
  · rw [getElem?_append_right hi, getElem?_singleton] at hl
    rw [if_neg (by omega)]
    split at hl
    case isTrue => rw [← some.inj hl, h.last_next]
    case isFalse => exact absurd hl (by simp)

/-- The leftmost leaf is the first one, if there is one. -/
theorem Holds.leftmost (h : Holds s xs) :
    (∀ node, s.leftmostLeaf = some node → node.index < s.leaves.length) ∧
      (∀ (i : ℕ) (l : LeafNode), s.leaves[i]? = some l →
        l.next = if i + 1 < s.leaves.length then some ⟨0, i + 1⟩ else none) ∧
      iterItems (intsetBeginIterate s) = treeItems s := by
  rcases h.tree with hnone | ⟨init, last, htree, -⟩
  · refine ⟨fun node hnode => ?_, fun i l hl => ?_, ?_⟩
    · rw [hnone.leftmost] at hnode
      exact absurd hnode (by simp)
    · rw [hnone.leaves] at hl
      exact absurd hl (by simp)
    · unfold iterItems intsetBeginIterate treeItems
      simp only [hnone.leftmost, hnone.leaves]
      rfl
  · refine ⟨fun node hnode => ?_, htree.next_eq, ?_⟩
    · rw [htree.leftmost, some.injEq] at hnode
      rw [← hnode, htree.leaves]
      simp
    · unfold iterItems intsetBeginIterate treeItems
      simp only [htree.leftmost, drop_zero, ← flatMap_drop]

/-- `intset_begin_iterate` and the calls that follow yield the values that the set holds. -/
theorem Holds.iterates (h : Holds s xs) : Iterates (intsetBeginIterate s) xs := by
  obtain ⟨hnode, hlinks, hitems⟩ := h.leftmost
  have hiter : Iterating (intsetBeginIterate s) :=
    ⟨rfl, by simp [intsetBeginIterate], Nat.zero_le _, fun node hn => ⟨hnode node hn, rfl⟩, hlinks⟩
  apply iterates_of_iterating xs hiter
  calc iterRest (intsetBeginIterate s)
      = (iterItems (intsetBeginIterate s)).flatMap itemValues ++ s.bufferedValues :=
        iterRest_of_empty le_rfl
    _ = treeValues s ++ s.bufferedValues := by rw [hitems, treeValues]
    _ = xs := h.values

/-! ## Refinement -/

/-- The set behaves as the finite set of the values `xs`. -/
structure RefinesSet (s : IntegerSet) (xs : List ℕ) : Prop where
  member : ∀ x, x < 2^64 → (intsetIsMember s x = true ↔ x ∈ xs)
  iterate : Iterates (intsetBeginIterate s) xs
  entries : intsetNumEntries s = xs.length % 2^64
  ordered : xs.length < 2^64 → ∀ last, xs.getLast? = some last → ∀ y, y ≤ last →
    Refuses s .outOfOrder y

theorem Holds.refinesSet (h : Holds s xs) (hactive : s.iterActive = false) :
    RefinesSet s xs where
  member := fun _ hx => h.isMember_iff hx
  iterate := h.iterates
  entries := h.numEntries
  ordered := fun hcount last hlast y hy => by
    have hpos : 0 < xs.length := length_pos_of_mem (mem_of_getLast? hlast)
    have hentries : s.numEntries > 0 := by
      rw [h.numEntries, Nat.mod_eq_of_lt hcount]
      exact hpos
    unfold Refuses intsetAddMember
    rw [hactive, if_neg Bool.false_ne_true, h.highest last hlast, if_pos ⟨hy, hentries⟩]

/-- For every increasing sequence of 64-bit values added to a fresh set, of whatever length: no call
fails, and the set refines the finite set of these values. Its number of entries is their number
modulo `2^64`, and the order of later values is checked as long as there are fewer than `2^64`. -/
theorem integer_set_refines (xs : List ℕ) (hinc : xs.Pairwise (· < ·))
    (hword : ∀ x ∈ xs, x < 2^64) :
    ∃ s, addMembers xs intsetCreate = some ⟨s, none⟩ ∧ RefinesSet s xs := by
  obtain ⟨s, hadd, hholds, hactive⟩ := holds_create.addMembers rfl xs hinc hword
  exact ⟨s, hadd, hholds.refinesSet hactive⟩

/-- Three values. -/
theorem integer_set_refines_three :
    ∃ s, addMembers [3, 5, 2^63] intsetCreate = some ⟨s, none⟩ ∧ RefinesSet s [3, 5, 2^63] :=
  integer_set_refines [3, 5, 2^63] (by decide) (by decide)

/-- Every 64-bit value can be added, one after the other; then `num_entries` is zero, and a value
that is not greater than the last one is taken. -/
theorem integer_set_all_values :
    ∃ xs s, xs.Pairwise (· < ·) ∧ (∀ x ∈ xs, x < 2^64) ∧
      addMembers xs intsetCreate = some ⟨s, none⟩ ∧
      intsetNumEntries s ≠ xs.length ∧ ∃ last, xs.getLast? = some last ∧
      ¬ Refuses s .outOfOrder last := by
  obtain ⟨n, hn⟩ : ∃ n, n + 1 = 2^64 := ⟨2^64 - 1, rfl⟩
  have hinc : (range (n + 1)).Pairwise (· < ·) := pairwise_lt_range
  have hword : ∀ x ∈ range (n + 1), x < 2^64 := fun x hx => hn ▸ mem_range.mp hx
  obtain ⟨s, hadd, hholds, hactive⟩ := holds_create.addMembers rfl (range (n + 1)) hinc hword
  have hentries : s.numEntries = 0 := by
    rw [hholds.numEntries, nil_append, length_range, hn, Nat.mod_self]
  refine ⟨range (n + 1), s, hinc, hword, hadd, ?_, n, ?_, ?_⟩
  · unfold intsetNumEntries
    rw [hentries, length_range]
    exact (Nat.succ_ne_zero n).symm
  · rw [range_succ, getLast?_concat]
  · obtain ⟨s₁, hroom, -⟩ := hholds.makeRoom
    unfold Refuses intsetAddMember
    rw [hactive, if_neg Bool.false_ne_true, hentries, if_neg (by simp), hroom]
    simp

end PgAutoIndex.Lib
