import Mathlib.Data.Finset.Card
import Mathlib.Logic.Relation
import Mathlib.Order.Interval.Finset.Nat

/-!
# The roots of the HOT chains of a page

Model of `heap_get_root_tuples` of `src/backend/access/heap/pruneheap.c`. The loop over the line
pointers starts at each root, a tuple that is not heap-only or a redirect, and follows its chain of
updates, marking every tuple met with the root's offset number.

The two guards of the inner loop test the offset number of the root and not the one that is read
next, so the loop reads past a truncated array of line pointers (`heap_get_root_tuples_reads_past`).
Where the followed offset numbers are those of line pointers and lead to heap-only tuples, it finds
the roots exactly (`heap_get_root_tuples_exact`).
-/

namespace PgAutoIndex.Heap

open Function Relation

/-- What `heap_get_root_tuples` reads of a tuple header: two flags, the offset number of `t_ctid`
and two xids. -/
structure HeapTupleHeader where
  heapOnly : Bool
  hotUpdated : Bool
  ctid : ℕ
  xmin : ℕ
  updateXid : ℕ

/-- A line pointer, with the tuple that a normal one points to. -/
inductive ItemId
  | unused
  | dead
  | redirect (target : ℕ)
  | normal (htup : HeapTupleHeader)

/-- `MaxHeapTuplesPerPage`, the size of the array of roots. -/
def maxHeapTuplesPerPage : ℕ := 291

/-- A heap page: its line pointers have the offset numbers from 1 to `maxoff`, and behind them is
other memory. -/
structure HeapPage where
  maxoff : ℕ
  items : ℕ → ItemId
  fits : maxoff ≤ maxHeapTuplesPerPage

/-- The offset numbers of a page. -/
def HeapPage.offsets (page : HeapPage) : Finset ℕ := .Icc 1 page.maxoff

/-- Why a run does not return: a line pointer that the page does not have is read, or the fuel is
used up. -/
inductive Stop
  | outside (offnum : ℕ)
  | fuel

/-- `PageGetItemId`, with the read of the line pointer. -/
def pageGetItemId (page : HeapPage) (offnum : ℕ) : Except Stop ItemId :=
  if offnum ∈ page.offsets then .ok (page.items offnum) else .error (.outside offnum)

/-- The inner loop of `heap_get_root_tuples`, with the root's offset number `offnum`. -/
def followChain (page : HeapPage) (offnum : ℕ) : ℕ → ℕ → ℕ → (ℕ → ℕ) → Except Stop (ℕ → ℕ)
  | 0, _, _, _ => .error .fuel
  | fuel + 1, nextoffnum, priorXmax, rootOffsets => do
    if offnum < 1 then return rootOffsets
    if offnum > page.maxoff then return rootOffsets
    match ← pageGetItemId page nextoffnum with
    | .normal htup =>
      if priorXmax ≠ 0 ∧ priorXmax ≠ htup.xmin then return rootOffsets
      let rootOffsets := update rootOffsets (nextoffnum - 1) offnum
      if htup.hotUpdated then followChain page offnum fuel htup.ctid htup.updateXid rootOffsets
      else return rootOffsets
    | _ => return rootOffsets

/-- One round of the outer loop of `heap_get_root_tuples`. -/
def scanItem (page : HeapPage) (fuel : ℕ) (rootOffsets : ℕ → ℕ) (offnum : ℕ) :
    Except Stop (ℕ → ℕ) := do
  match ← pageGetItemId page offnum with
  | .unused | .dead => return rootOffsets
  | .normal htup =>
    if htup.heapOnly then return rootOffsets
    let rootOffsets := update rootOffsets (offnum - 1) offnum
    if htup.hotUpdated then followChain page offnum fuel htup.ctid htup.updateXid rootOffsets
    else return rootOffsets
  | .redirect target => followChain page offnum fuel target 0 rootOffsets

/-- `heap_get_root_tuples`. -/
def heapGetRootTuples (page : HeapPage) (fuel : ℕ) : Except Stop (ℕ → ℕ) :=
  (List.range' 1 page.maxoff).foldlM (scanItem page fuel) fun _ => 0

/-! ## Chains -/

/-- The offset number that an item leads to, and the xid that the tuple there must have been
inserted by, 0 for any. -/
def ItemId.next : ItemId → Option (ℕ × ℕ)
  | .normal htup => if htup.hotUpdated then some (htup.ctid, htup.updateXid) else none
  | .redirect target => some (target, 0)
  | _ => none

/-- Whether an item is a tuple. -/
def ItemId.isTuple : ItemId → Bool
  | .normal _ => true
  | _ => false

/-- Whether an item is a heap-only tuple. -/
def ItemId.isHeapOnly : ItemId → Bool
  | .normal htup => htup.heapOnly
  | _ => false

/-- Whether chains start at an item: a tuple that is not heap-only, or a redirect. -/
def ItemId.isRoot : ItemId → Bool
  | .normal htup => !htup.heapOnly
  | .redirect _ => true
  | _ => false

namespace HeapPage

variable (page : HeapPage)

/-- Item `m` is a tuple that item `k` leads to, with the xid that `k` says. -/
def Link (k m : ℕ) : Prop := k ∈ page.offsets ∧ m ∈ page.offsets ∧
  ∃ prior htup, (page.items k).next = some (m, prior) ∧ page.items m = .normal htup ∧
    (prior = 0 ∨ prior = htup.xmin)

/-- Item `k` is on the chain of root `j`. -/
def OnChain (j k : ℕ) : Prop :=
  (j ∈ page.offsets ∧ (page.items j).isRoot) ∧ ReflTransGen page.Link j k

/-- Item `k` is a tuple on the chain of root `j`: one that is reached by links, or the root unless
that is a redirect. -/
def Rooted (j k : ℕ) : Prop := (j ∈ page.offsets ∧ (page.items j).isRoot) ∧
  (k = j ∧ (page.items j).isTuple ∨ TransGen page.Link j k)

/-- Each heap-only tuple is the successor of at most one item, and chains are acyclic. -/
structure WellChained : Prop where
  single : ∀ k k' m, page.Link k m → page.Link k' m → (page.items m).isHeapOnly → k = k'
  acyclic : ∀ k, ¬ TransGen page.Link k k

/-- What the inner loop relies on: on a chain, it is led to line pointers of the page, and to
heap-only tuples. -/
structure ChainsInside : Prop where
  inside : ∀ j k next prior, page.OnChain j k → (page.items k).next = some (next, prior) →
    next ∈ page.offsets
  heapOnly : ∀ j k m, page.OnChain j k → page.Link k m → (page.items m).isHeapOnly

end HeapPage

variable {page : HeapPage} {j j' k m n fuel : ℕ} {s t : ℕ → Prop} {r r' r'' : ℕ → ℕ}

theorem HeapPage.Rooted.onChain (h : page.Rooted j k) : page.OnChain j k :=
  ⟨h.1, reflTransGen_iff_eq_or_transGen.mpr (h.2.imp_left And.left)⟩

theorem HeapPage.Rooted.mem (h : page.Rooted j k) : k ∈ page.offsets := by
  obtain ⟨hj, ⟨rfl, -⟩ | hk⟩ := h
  · exact hj.1
  · obtain ⟨b, -, hlink⟩ := TransGen.tail'_iff.mp hk
    exact hlink.2.1

theorem ItemId.not_isRoot {lp : ItemId} (h : lp.isHeapOnly) : ¬ lp.isRoot := by
  cases lp <;> simp_all [isHeapOnly, isRoot]

/-- The items after `k` are the one that it links to, and those after that one. -/
theorem HeapPage.Link.transGen_iff (h : page.Link k m) :
    TransGen page.Link k n ↔ n = m ∨ TransGen page.Link m n := by
  rw [TransGen.head'_iff, ← reflTransGen_iff_eq_or_transGen]
  refine ⟨?_, fun hn => ⟨m, h, hn⟩⟩
  rintro ⟨m', ⟨-, -, _, _, hnext', -⟩, hn⟩
  obtain ⟨-, -, _, _, hnext, -⟩ := h
  cases hnext.symm.trans hnext'
  exact hn

/-- An item is on the chain of one root only: unless it is the root, it is heap-only, so it has one
predecessor. -/
theorem HeapPage.WellChained.root_unique (hw : page.WellChained) (hc : page.ChainsInside)
    (h : page.OnChain j k)
    (h' : page.OnChain j' k) : j = j' := by
  obtain ⟨hj, hk⟩ := h
  obtain ⟨hj', hk'⟩ := h'
  induction hk with
  | refl =>
    obtain rfl | ⟨b, hb, hlink⟩ := hk'.cases_tail
    · rfl
    · exact absurd hj.2 (ItemId.not_isRoot (hc.heapOnly j' b j ⟨hj', hb⟩ hlink))
  | @tail b k hb hlink ih =>
    have honly := hc.heapOnly j b k ⟨hj, hb⟩ hlink
    obtain rfl | ⟨b', hb', hlink'⟩ := hk'.cases_tail
    · exact absurd hj'.2 (ItemId.not_isRoot honly)
    · cases hw.single b b' k hlink hlink' honly
      exact ih hb'

/-! ## Marking -/

/-- The entries of the items in `s` are set to `j`, and all others are kept. -/
def Marked (j : ℕ) (s : ℕ → Prop) (r r' : ℕ → ℕ) : Prop :=
  ∀ i, s (i + 1) ∧ r' i = j ∨ ¬ s (i + 1) ∧ r' i = r i

theorem Marked.refl (h : ∀ k, ¬ s k) : Marked j s r r := fun i => .inr ⟨h (i + 1), rfl⟩

theorem Marked.update (hm : m ∈ page.offsets) : Marked j (· = m) r (update r (m - 1) j) := by
  have h1 := (Finset.mem_Icc.mp hm).1
  intro i
  rcases eq_or_ne i (m - 1) with rfl | hne
  · exact .inl ⟨Nat.sub_add_cancel h1, update_self ..⟩
  · exact .inr ⟨by omega, update_of_ne hne ..⟩

theorem Marked.trans (h : Marked j s r r') (h' : Marked j t r' r'') :
    Marked j (fun k => s k ∨ t k) r r'' := by
  intro i
  rcases h' i with ⟨ht, hr⟩ | ⟨ht, hr⟩
  · exact .inl ⟨.inr ht, hr⟩
  · rw [hr]
    exact (h i).imp (fun h => ⟨.inl h.1, h.2⟩) fun h => ⟨not_or.mpr ⟨h.1, ht⟩, h.2⟩

/-! ## The loops -/

/-- How both loops go on from an item of the chain of root `j`. -/
def follow (page : HeapPage) (j fuel : ℕ) (lp : ItemId) (r : ℕ → ℕ) : Except Stop (ℕ → ℕ) :=
  match lp.next with
  | some (next, prior) => followChain page j fuel next prior r
  | none => .ok r

theorem follow_normal (htup : HeapTupleHeader) : follow page j fuel (.normal htup) r =
    if htup.hotUpdated then followChain page j fuel htup.ctid htup.updateXid r else .ok r := by
  simp only [follow, ItemId.next]
  split_ifs <;> rfl

section
variable (hk : page.OnChain j k)
include hk

/-- The inner loop marks the item that an item links to, and goes on from there. -/
theorem follow_link (hlink : page.Link k m) :
    follow page j (fuel + 1) (page.items k) r = follow page j fuel (page.items m)
      (update r (m - 1) j) := by
  obtain ⟨hj1, hjmax⟩ := Finset.mem_Icc.mp hk.1.1
  obtain ⟨-, hm, prior, htup, hnext, htuple, hx⟩ := hlink
  have hx' : ¬ (prior ≠ 0 ∧ prior ≠ htup.xmin) := by tauto
  rw [htuple, follow_normal, follow, hnext]
  simp only [followChain, pageGetItemId, if_pos hm, htuple]
  rw [if_neg (by omega), if_neg (by omega)]
  simp only [bind, Except.bind, if_neg hx']
  rfl

/-- The inner loop ends at an item that links to none. -/
theorem follow_end (hc : page.ChainsInside) (hmem : k ∈ page.offsets) (hno : ∀ m, ¬ page.Link k m) :
    follow page j (fuel + 1) (page.items k) r = .ok r := by
  unfold follow
  rcases hnext : (page.items k).next with _ | ⟨m, prior⟩
  · rfl
  · have hm := hc.inside j k m prior hk hnext
    simp only [followChain, pageGetItemId, if_pos hm]
    split_ifs
    · rfl
    · rfl
    · cases hlp : page.items m with
      | unused | dead | redirect => rfl
      | normal htup =>
        have hx : prior ≠ 0 ∧ prior ≠ htup.xmin := by
          rw [← not_or]
          exact fun hx => hno m ⟨hmem, hm, prior, htup, hnext, hlp, hx⟩
        simp only [bind, Except.bind, if_pos hx]
        rfl

end

/-- From an item on the chain of root `j`, the items after it are marked. The items `seen` so far
are different, as chains are acyclic, so the loop ends before there are more of them than line
pointers. -/
theorem follow_spec (hw : page.WellChained) (hc : page.ChainsInside) (seen : Finset ℕ)
    (hk : page.OnChain j k)
    (hmem : k ∈ page.offsets) (hseen : ∀ v ∈ seen, v ∈ page.offsets ∧ ReflTransGen page.Link v k)
    (hfuel : page.maxoff < fuel + seen.card) :
    ∃ r', follow page j fuel (page.items k) r = .ok r' ∧ Marked j (TransGen page.Link k) r r' := by
  induction fuel generalizing k seen r with
  | zero =>
    have hcard := Finset.card_le_card fun v hv => (hseen v hv).1
    rw [HeapPage.offsets, Nat.card_Icc] at hcard
    omega
  | succ fuel ih =>
    by_cases hex : ∃ m, page.Link k m
    · obtain ⟨m, hlink⟩ := hex
      have hm := hlink.2.1
      have hfresh : m ∉ seen := fun hv => hw.acyclic m (.tail' (hseen m hv).2 hlink)
      have hcard := Finset.card_insert_of_notMem hfresh
      have hseen' : ∀ v ∈ insert m seen, v ∈ page.offsets ∧ ReflTransGen page.Link v m := by
        refine (Finset.forall_mem_insert ..).mpr ⟨⟨hm, .refl⟩, fun v hv => ?_⟩
        exact ⟨(hseen v hv).1, (hseen v hv).2.tail hlink⟩
      obtain ⟨r', hr', hmark⟩ := ih (insert m seen) ⟨hk.1, hk.2.tail hlink⟩ hm hseen' (by omega)
      refine ⟨r', (follow_link hk hlink).trans hr', fun i => ?_⟩
      simpa only [hlink.transGen_iff] using (Marked.update hm).trans hmark i
    · have hno := not_exists.mp hex
      refine ⟨r, follow_end hk hc hmem hno, .refl fun n hn => ?_⟩
      obtain ⟨m, hm, -⟩ := TransGen.head'_iff.mp hn
      exact hno m hm

/-- A round of the outer loop for a root marks the root, if it is a tuple, and follows its chain. -/
theorem scanItem_of_root (hj : j ∈ page.offsets) (hroot : (page.items j).isRoot) :
    scanItem page fuel r j = follow page j fuel (page.items j)
      (if (page.items j).isTuple then update r (j - 1) j else r) := by
  unfold scanItem pageGetItemId
  rw [if_pos hj]
  cases hlp : page.items j with
  | unused | dead =>
    rw [hlp] at hroot
    cases hroot
  | normal htup =>
    rw [follow_normal]
    simp_all [ItemId.isRoot, ItemId.isTuple, bind, Except.bind, pure, Except.pure]
  | redirect target => rfl

/-- A round of the outer loop marks the tuples on the chain of the item, if it is a root. -/
theorem scanItem_spec (hw : page.WellChained) (hc : page.ChainsInside) (hfuel : page.maxoff < fuel)
    (hj : j ∈ page.offsets) :
    ∃ r', scanItem page fuel r j = .ok r' ∧ Marked j (page.Rooted j) r r' := by
  by_cases hroot : (page.items j).isRoot
  · have hrooted : ∀ k, page.Rooted j k ↔ k = j ∧ (page.items j).isTuple ∨ TransGen page.Link j k :=
      fun k => and_iff_right ⟨hj, hroot⟩
    obtain ⟨r', hr', hmark⟩ := follow_spec hw hc ∅ ⟨⟨hj, hroot⟩, .refl⟩ hj (by simp)
      (by simpa using hfuel) (r := if (page.items j).isTuple then update r (j - 1) j else r)
    refine ⟨r', (scanItem_of_root hj hroot).trans hr', fun i => ?_⟩
    split_ifs at hmark with htuple
    · simpa [hrooted, htuple] using (Marked.update hj).trans hmark i
    · simpa [hrooted, htuple] using hmark i
  · refine ⟨r, ?_, .refl fun k hk => hroot hk.1.2⟩
    unfold scanItem pageGetItemId
    rw [if_pos hj]
    cases hlp : page.items j <;> simp_all [ItemId.isRoot, bind, Except.bind, pure, Except.pure]

/-- The outer loop returns. After its first `n` rounds, an entry is that of a root among the first
`n` items on whose chain the tuple is, and 0 if there is none. -/
theorem foldlM_scanItem (hw : page.WellChained) (hc : page.ChainsInside)
    (hfuel : page.maxoff < fuel)
    (hn : n ≤ page.maxoff) :
    ∃ r, (List.range' 1 n).foldlM (scanItem page fuel) (fun _ => 0) = .ok r ∧
      ∀ i, page.Rooted (r i) (i + 1) ∨ (r i = 0 ∧ ∀ j ≤ n, ¬ page.Rooted j (i + 1)) := by
  induction n with
  | zero =>
    refine ⟨_, rfl, fun i => .inr ⟨rfl, fun j hj hrooted => ?_⟩⟩
    have h1 := (Finset.mem_Icc.mp hrooted.1.1).1
    omega
  | succ n ih =>
    obtain ⟨r, hr, hmarked⟩ := ih (by omega)
    obtain ⟨r', hr', hmark⟩ :=
      scanItem_spec hw hc hfuel (Finset.mem_Icc.mpr ⟨Nat.le_add_left 1 n, hn⟩) (r := r)
    refine ⟨r', ?_, fun i => ?_⟩
    · rw [List.range'_concat, List.foldlM_append, hr, one_mul, add_comm 1 n]
      simp [bind, Except.bind, hr', pure, Except.pure]
    · rcases hmark i with ⟨hrooted, heq⟩ | ⟨hnot, heq⟩
      · rw [heq]
        exact .inl hrooted
      · rw [heq]
        refine (hmarked i).imp_right fun h => ⟨h.1, fun j hj => ?_⟩
        rcases Nat.le_succ_iff.mp hj with hj | rfl
        · exact h.2 j hj
        · exact hnot

/-- If the outer loop returns, so do its rounds. -/
theorem scanItem_of_foldlM {l : List ℕ} (h : l.foldlM (scanItem page fuel) r = .ok r')
    (hj : j ∈ l) :
    ∃ s s', scanItem page fuel s j = .ok s' := by
  induction l generalizing r with
  | nil => cases hj
  | cons n l ih =>
    rw [List.foldlM_cons] at h
    cases hn : scanItem page fuel r n with
    | error e => rw [hn] at h; cases h
    | ok s =>
      rw [hn] at h
      rcases List.mem_cons.mp hj with rfl | hj
      · exact ⟨r, s, hn⟩
      · exact ih h hj

/-- If the round of a root returns, the inner loop returns from every item on its chain. -/
theorem follow_of_scanItem (h : scanItem page fuel r j = .ok r') (hk : page.OnChain j k) :
    ∃ n s, follow page j n (page.items k) s = .ok r' := by
  obtain ⟨⟨hj, hroot⟩, hk⟩ := hk
  induction hk with
  | refl => exact ⟨fuel, _, (scanItem_of_root hj hroot).symm.trans h⟩
  | @tail b m hb hlink ih =>
    obtain ⟨_ | n, s, hs⟩ := ih
    · obtain ⟨-, -, _, _, hnext, -⟩ := hlink
      rw [follow, hnext] at hs
      cases hs
    · exact ⟨n, _, (follow_link ⟨⟨hj, hroot⟩, hb⟩ hlink).symm.trans hs⟩

/-- The offset numbers are followed inside the page if `heap_get_root_tuples` returns. -/
theorem mem_offsets_of_ok {next prior : ℕ} (h : heapGetRootTuples page fuel = .ok r)
    (hk : page.OnChain j k) (hnext : (page.items k).next = some (next, prior)) :
    next ∈ page.offsets := by
  obtain ⟨hj1, hjmax⟩ := Finset.mem_Icc.mp hk.1.1
  obtain ⟨s, s', hscan⟩ := scanItem_of_foldlM h (List.mem_range'_1.mpr ⟨hj1, by omega⟩)
  obtain ⟨_ | n, t, ht⟩ := follow_of_scanItem hscan hk <;> rw [follow, hnext] at ht
  · cases ht
  · by_contra hout
    simp only [followChain, pageGetItemId, if_neg hout] at ht
    rw [if_neg (by omega), if_neg (by omega)] at ht
    cases ht

/-- On every page where each heap-only tuple is the successor of at most one item and chains are
acyclic, the chains stay inside the page exactly if `heap_get_root_tuples` returns, so that it reads
only line pointers of the page; the entry of an item is `j` exactly if it is a tuple on the chain of
root `j`; and all other entries are zero. -/
theorem heap_get_root_tuples_exact (page : HeapPage) (hw : page.WellChained) (fuel : ℕ)
    (hfuel : page.maxoff < fuel) :
    (∃ r, heapGetRootTuples page fuel = .ok r ∧
      (∀ k ∈ page.offsets, ∀ j ≠ 0, r (k - 1) = j ↔ page.Rooted j k) ∧
      (∀ k ∈ page.offsets, (∀ j, ¬ page.Rooted j k) → r (k - 1) = 0) ∧
      ∀ i, page.maxoff ≤ i → r i = 0) ↔ page.ChainsInside := by
  constructor
  · rintro ⟨r, hr, hexact, -⟩
    refine ⟨fun j k next prior hk hnext => mem_offsets_of_ok hr hk hnext, fun j k m hk hlink => ?_⟩
    obtain ⟨-, hm, _, htup, -, htuple, -⟩ := id hlink
    by_contra honly
    -- A tuple that is not heap-only is a root, so that it is on two chains.
    have hself : page.Rooted m m := by
      refine ⟨⟨hm, ?_⟩, .inl ⟨rfl, ?_⟩⟩ <;>
        simp_all [ItemId.isHeapOnly, ItemId.isRoot, ItemId.isTuple]
    have hrooted : page.Rooted j m := ⟨hk.1, .inr (.tail' hk.2 hlink)⟩
    have hne : ∀ i ∈ page.offsets, i ≠ 0 := fun i hi => by
      have := (Finset.mem_Icc.mp hi).1
      omega
    obtain rfl : j = m := ((hexact m hm j (hne j hk.1.1)).mpr hrooted).symm.trans
      ((hexact m hm m (hne m hm)).mpr hself)
    exact hw.acyclic j (.tail' hk.2 hlink)
  intro hc
  obtain ⟨r, hr, hmarked⟩ := foldlM_scanItem hw hc hfuel le_rfl
  have hzero : ∀ i, (∀ j, ¬ page.Rooted j (i + 1)) → r i = 0 := fun i hno =>
    (hmarked i).elim (fun h => absurd h (hno _)) And.left
  have hsub : ∀ k ∈ page.offsets, k - 1 + 1 = k :=
    fun k hk => Nat.sub_add_cancel (Finset.mem_Icc.mp hk).1
  refine ⟨r, hr, fun k hk j hj => ?_, fun k hk hno =>
    hzero _ (by rwa [hsub k hk]), fun i hi => hzero i ?_⟩
  · rcases hmarked (k - 1) with hrooted | ⟨h0, hno⟩
    · rw [hsub k hk] at hrooted
      constructor
      · rintro rfl
        exact hrooted
      · exact fun h => hw.root_unique hc hrooted.onChain h.onChain
    · rw [hsub k hk] at hno
      exact iff_of_false (fun h => hj (h.symm.trans h0)) fun h => hno j
        (Finset.mem_Icc.mp h.1.1).2 h
  · rintro j h
    have hle := (Finset.mem_Icc.mp h.mem).2
    omega

/-- A page is well chained if only its second item can be linked to, and only from the first. -/
theorem HeapPage.wellChained_of_link (h : ∀ k m, page.Link k m → k = 1 ∧ m = 2) :
    page.WellChained where
  single k k' m hk hk' _ := (h k m hk).1.trans (h k' m hk').1.symm
  acyclic k hcycle := by
    obtain ⟨b, hhead, -⟩ := TransGen.head'_iff.mp hcycle
    obtain ⟨c, -, htail⟩ := TransGen.tail'_iff.mp hcycle
    have h1 := (h k b hhead).1
    have h2 := (h c k htail).2
    omega

/-- The tuple in the first item was updated to the second one, which is the last of the page or
behind it. -/
def updatedPage (maxoff : ℕ) (h : maxoff ≤ maxHeapTuplesPerPage) : HeapPage where
  maxoff := maxoff
  items k := if k = 1 then .normal ⟨false, true, 2, 7, 8⟩ else .normal ⟨true, false, 2, 8, 0⟩
  fits := h

theorem updatedPage_next {maxoff prior : ℕ} {h : maxoff ≤ maxHeapTuplesPerPage}
    (hnext : ((updatedPage maxoff h).items k).next = some (m, prior)) : k = 1 ∧ m = 2 := by
  simp only [updatedPage] at hnext
  split_ifs at hnext with hk
  · cases hnext
    exact ⟨hk, rfl⟩
  · cases hnext

theorem updatedPage_link {maxoff : ℕ} {h : maxoff ≤ maxHeapTuplesPerPage} :
    ∀ k m, (updatedPage maxoff h).Link k m → k = 1 ∧ m = 2 :=
  fun _ _ ⟨_, _, _, _, hnext, _⟩ => updatedPage_next hnext

/-- With both line pointers on the page, the second one has the root that it was updated from. -/
theorem heap_get_root_tuples_exact_updated :
    ∃ r, heapGetRootTuples (updatedPage 2 (by decide)) 3 = .ok r ∧
    r 0 = 1 ∧ r 1 = 1 ∧ (updatedPage 2 (by decide)).Rooted 1 2 := by
  have hinside : (updatedPage 2 (by decide)).ChainsInside := by
    refine ⟨fun j k next prior _ hnext => ?_, fun j k m _ hlink => ?_⟩
    · rw [(updatedPage_next hnext).2]
      decide
    · rw [(updatedPage_link k m hlink).2]
      rfl
  obtain ⟨r, hr, hexact, -⟩ := (heap_get_root_tuples_exact (updatedPage 2 (by decide))
    (HeapPage.wellChained_of_link updatedPage_link) 3 (by decide)).mpr hinside
  cases hr
  exact ⟨_, rfl, rfl, rfl, (hexact 2 (by decide) 1 (by decide)).mp rfl⟩

/-- The line pointer of the new version was truncated away: the page has one line pointer, and the
second one is read. -/
theorem heap_get_root_tuples_reads_past : (updatedPage 1 (by decide)).WellChained ∧
    ∀ fuel, heapGetRootTuples (updatedPage 1 (by decide)) (fuel + 1) = .error (.outside 2) :=
  ⟨HeapPage.wellChained_of_link updatedPage_link, fun _ => rfl⟩

end PgAutoIndex.Heap
