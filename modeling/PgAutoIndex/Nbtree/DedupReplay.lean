import PgAutoIndex.Nbtree.Dedup

/-!
# The replay of a deduplication pass

The replay does not compare keys and has a larger limit on the size of a posting list. It makes the
page that the pass made because it takes the same decision at every item. The two working states
agree on the pending posting list and the finished intervals, and the two new pages on everything
but the LSN (`Simulates`). What the pass decides shows in the intervals that it has logged in the
end (`Ahead`): while it merges, the interval of the pending posting list is the next one and has
more items than were merged so far; when it stops, that interval is complete, or there is none and
the next one starts later.
-/

namespace PgAutoIndex.Nbtree

open List Option

variable {D : Type}

/-! ## Results of computations that can fail -/

variable {α : Type} {np np' nr : Page D} {p p' r : BTDedupState D} {itup : IndexTuple D}
  {nkeyatts : ℕ}

theorem bind_ok {β : Type} {x : Except DedupError α} {f : α → Except DedupError β} {b : β}
    (h : (x >>= f) = .ok b) : ∃ a, x = .ok a ∧ f a = .ok b := by
  cases x with
  | error e => exact absurd h (by simp [bind, Except.bind])
  | ok a => exact ⟨a, rfl, h⟩

theorem ok_bind {β : Type} {x : Except DedupError α} {a : α} (h : x = .ok a)
    (f : α → Except DedupError β) : (x >>= f) = f a := by
  rw [h]
  rfl

theorem orError_bind_ok {β : Type} {e : DedupError} {x : Option α}
    {f : α → Except DedupError β} {b : β} :
    (orError e x >>= f) = .ok b ↔ ∃ a, x = some a ∧ f a = .ok b := by
  cases x <;> simp [orError, bind, Except.bind]

theorem orError_ok {e : DedupError} {x : Option α} {a : α} (h : orError e x = .ok a) :
    x = some a := by
  cases x with
  | none => exact absurd h (by simp [orError])
  | some b =>
    simp only [orError, Except.ok.injEq] at h
    rw [h]

/-! ## The two states -/

/-- The pass, with its new page and state, and the replay agree, but for the LSN of the pages and
for what only the pass uses to decide when to merge. -/
structure Simulates (np : Page D) (p : BTDedupState D) (nr : Page D)
    (r : BTDedupState D) : Prop where
  pdFlags : nr.pdFlags = np.pdFlags
  items : nr.items = np.items
  opaqueData : nr.opaqueData = np.opaqueData
  base : r.base = p.base
  baseoff : r.baseoff = p.baseoff
  basetupsize : r.basetupsize = p.basetupsize
  htids : r.htids = p.htids
  nitems : r.nitems = p.nitems
  intervals : r.intervals = p.intervals
  limit : p.maxpostingsize ≤ r.maxpostingsize

/-- The tuple that finishing a pending posting list puts on the new page. -/
def finalTuple (base : IndexTuple D) (p : BTDedupState D) : IndexTuple D :=
  if p.nitems = 1 then base else formPosting base p.htids

/-- The interval that finishing a pending posting list adds, if any. -/
def loggedInterval (p : BTDedupState D) : List BTDedupInterval :=
  if p.nitems = 1 then [] else [⟨p.baseoff, p.nitems % 2^16⟩]

/-- All that `_bt_dedup_finish_pending` does. -/
theorem finishPending_ok_iff :
    dedupFinishPending np p = .ok (np', p') ↔
      ∃ base, p.base = some base ∧
        pageAddItem np (finalTuple base p) (finalTuple base p).size
          (np.items.length + 1) = some np' ∧
        p' = dedupResetPending p (p.intervals ++ loggedInterval p) := by
  unfold dedupFinishPending finalTuple loggedInterval
  cases hbase : p.base with
  | none => simp
  | some base =>
    simp only [some.injEq, exists_eq_left']
    split_ifs with hone
    · rw [append_nil, orError_bind_ok]
      simp [eq_comm]
    · rw [orError_bind_ok]
      simp [eq_comm]

/-- The single value strategy changes only what decides when to merge, and never raises the limit.
-/
theorem singlevalSteps_shape (newitemsz : ℕ) (single : Bool) (p : BTDedupState D) :
    ∃ deduplicate maxpostingsize, maxpostingsize ≤ p.maxpostingsize ∧
      (singlevalSteps newitemsz single p).2 = { p with deduplicate, maxpostingsize } := by
  unfold singlevalSteps
  split_ifs
  · refine ⟨p.deduplicate, _, ?_, rfl⟩
    split
    · exact Nat.sub_le _ _
    · exact Nat.zero_le _
  · exact ⟨false, p.maxpostingsize, le_rfl, rfl⟩
  · exact ⟨p.deduplicate, p.maxpostingsize, le_rfl, rfl⟩
  · exact ⟨p.deduplicate, p.maxpostingsize, le_rfl, rfl⟩

section Steps

variable {np nr : Page D} {p r : BTDedupState D} (h : Simulates np p nr r)
include h

/-- Both start the same pending posting list. -/
theorem Simulates.start (base : IndexTuple D) (baseoff : ℕ) :
    Simulates np (dedupStartPending p base baseoff) nr (dedupStartPending r base baseoff) :=
  { h with base := rfl, baseoff := rfl, basetupsize := rfl, htids := rfl, nitems := rfl }

/-- What fits for the pass fits for the replay. -/
theorem Simulates.save (hsave : dedupSaveHtid p itup = (true, p')) :
    ∃ r', dedupSaveHtid r itup = (true, r') ∧ Simulates np p' nr r' := by
  unfold dedupSaveHtid at hsave ⊢
  simp only at hsave ⊢
  split at hsave
  case isTrue => cases hsave
  case isFalse hfits =>
    cases hsave
    have hlimit := h.limit
    rw [h.basetupsize, h.htids, if_neg (by omega)]
    exact ⟨_, rfl, { h with basetupsize := rfl, htids := rfl, nitems := congrArg (· + 1) h.nitems }⟩

/-- What only decides when to merge may change on the side of the pass, if the limit does not grow.
-/
theorem Simulates.decide {deduplicate : Bool} {nmaxitems maxpostingsize : ℕ}
    (hlimit : maxpostingsize ≤ p.maxpostingsize) :
    Simulates np { p with deduplicate, nmaxitems, maxpostingsize } nr r :=
  { h with limit := le_trans hlimit h.limit }

/-- Whether an item fits does not depend on the LSN. -/
theorem Simulates.addItem {tuple : IndexTuple D} {size offset : ℕ}
    (hadd : pageAddItem np tuple size offset = some np') :
    ∃ nr', pageAddItem nr tuple size offset = some nr' ∧ nr'.pdFlags = np'.pdFlags ∧
      nr'.items = np'.items ∧ nr'.opaqueData = np'.opaqueData := by
  unfold pageAddItem at hadd ⊢
  simp only [h.items] at hadd ⊢
  split_ifs at hadd with hoff hfits
  rw [if_neg hoff, dif_pos hfits, ← some.inj hadd]
  exact ⟨_, rfl, h.pdFlags, rfl, h.opaqueData⟩

/-- Both finish the pending posting list with the same tuple. -/
theorem Simulates.finish (hfinish : dedupFinishPending np p = .ok (np', p')) :
    ∃ nr' r', dedupFinishPending nr r = .ok (nr', r') ∧ Simulates np' p' nr' r' := by
  obtain ⟨base, hbase, hadd, rfl⟩ := finishPending_ok_iff.mp hfinish
  obtain ⟨nr', hadd', hflags, hitems, hopaque⟩ := h.addItem hadd
  refine ⟨nr', dedupResetPending r (r.intervals ++ loggedInterval r),
    finishPending_ok_iff.mpr ?_, ?_⟩
  · refine ⟨base, h.base.trans hbase, ?_, rfl⟩
    unfold finalTuple at hadd' ⊢
    rw [h.nitems, h.htids, h.items]
    exact hadd'
  · have hlogged : loggedInterval r = loggedInterval p := by
      unfold loggedInterval
      rw [h.nitems, h.baseoff]
    exact ⟨hflags, hitems, hopaque, h.base, h.baseoff, h.basetupsize, rfl, rfl,
      by rw [hlogged, h.intervals]; rfl, h.limit⟩

end Steps

/-! ## What the pass decides -/

/-- The pending posting list covers the items from `baseoff` up to `offnum`. -/
structure Pending (p : BTDedupState D) (offnum : ℕ) : Prop where
  pos : 1 ≤ p.nitems
  cover : p.baseoff + p.nitems = offnum
  few : p.intervals.length < p.baseoff

/-- The intervals that will be logged behind those finished, seen from a pending posting list: the
next one is its own, with at least the items that it has now, or it has one item and stays alone. -/
structure Ahead (p : BTDedupState D) (later : List BTDedupInterval) : Prop where
  le : ∀ i ∈ later, p.baseoff ≤ i.baseoff
  next : (∃ n rest, later = ⟨p.baseoff, n⟩ :: rest ∧ p.nitems ≤ n ∧ 2 ≤ n) ∨
    (p.nitems = 1 ∧ ∀ i ∈ later, p.baseoff < i.baseoff)

/-- A tuple that is merged is one item more for the pending posting list. -/
theorem tryMerge_true [DecidableEq D] (h : tryMerge nkeyatts p itup = (true, p')) :
    dedupSaveHtid p itup = (true, p') ∧ p'.baseoff = p.baseoff ∧ p'.nitems = p.nitems + 1 ∧
      p'.intervals = p.intervals := by
  have hsave : dedupSaveHtid p itup = (true, p') := by
    unfold tryMerge at h
    split at h
    · cases h
    · split_ifs at h
      · exact h
      · cases h
  refine ⟨hsave, ?_⟩
  unfold dedupSaveHtid at hsave
  simp only at hsave
  split at hsave
  · cases hsave
  · cases hsave
    exact ⟨rfl, rfl, rfl⟩

/-- A tuple that is not merged changes at most the count of large items. -/
theorem tryMerge_false [DecidableEq D] (h : tryMerge nkeyatts p itup = (false, p')) :
    ∃ nmaxitems, p' = { p with nmaxitems } := by
  unfold tryMerge at h
  split at h
  · exact ⟨p.nmaxitems, (Prod.mk.inj h).2.symm⟩
  · split at h
    · unfold dedupSaveHtid at h
      simp only at h
      split_ifs at h
      · cases h
        exact ⟨p.nmaxitems + 1, rfl⟩
      · cases h
        exact ⟨p.nmaxitems, rfl⟩
      · cases h
    · exact ⟨p.nmaxitems, (Prod.mk.inj h).2.symm⟩

/-- The interval of a list that is finished now. -/
theorem Pending.ahead_finished {offnum : ℕ} (h : Pending p offnum) (hbound : offnum ≤ 2^16)
    {later : List BTDedupInterval} (hlater : ∀ i ∈ later, p.baseoff < i.baseoff) :
    Ahead p (loggedInterval p ++ later) := by
  have hcover := h.cover
  have hfew := h.few
  have hmod : p.nitems % 2^16 = p.nitems := Nat.mod_eq_of_lt (by omega)
  unfold loggedInterval
  split_ifs with hone
  · rw [nil_append]
    exact ⟨fun i hi => le_of_lt (hlater i hi), .inr ⟨hone, hlater⟩⟩
  · rw [hmod, singleton_append]
    have hpos := h.pos
    refine ⟨fun i hi => ?_, .inl ⟨p.nitems, later, rfl, le_rfl, by omega⟩⟩
    rcases List.mem_cons.mp hi with rfl | hi
    · exact le_rfl
    · exact le_of_lt (hlater i hi)

/-- Finishing adds at most one interval. -/
theorem length_loggedInterval_le (p : BTDedupState D) : (loggedInterval p).length ≤ 1 := by
  unfold loggedInterval
  split
  · exact Nat.zero_le 1
  · exact Nat.le_refl 1

/-! ## The replay follows -/

/-- What the replay asks before it merges, in terms of the intervals that are still to come. -/
theorem redo_condition (h : Simulates np p nr r) {xlrec : XlBtreeDedup}
    {later : List BTDedupInterval} (hlog : xlrec.intervals = p.intervals ++ later)
    (hcount : xlrec.nintervals = xlrec.intervals.length) :
    (r.intervals.length < xlrec.nintervals ∧
        (xlrec.intervals[r.intervals.length]?.map (·.baseoff)) = some r.baseoff ∧
        r.nitems < (xlrec.intervals[r.intervals.length]?.map (·.nitems)).getD 0) ↔
      ∃ n rest, later = ⟨p.baseoff, n⟩ :: rest ∧ p.nitems < n := by
  rw [hcount, h.intervals, h.baseoff, h.nitems, hlog, getElem?_append_right le_rfl,
    Nat.sub_self, length_append]
  cases later with
  | nil => simp
  | cons i rest =>
    simp only [getElem?_cons_zero, map_some, some.injEq, getD_some,
      length_cons]
    constructor
    · rintro ⟨-, hbase, hlt⟩
      exact ⟨i.nitems, rest, by rw [← hbase], hlt⟩
    · rintro ⟨n, rest', heq, hlt⟩
      obtain ⟨rfl, rfl⟩ := cons.inj heq
      exact ⟨by omega, rfl, hlt⟩

/-- The pass and the replay go through the items in lock step. -/
theorem lockstep [DecidableEq D] {newitemsz : ℕ} (rest : List (PageItem D)) {offnum : ℕ}
    {single : Bool} {np₁ np₂ : Page D} {p₁ p₂ : BTDedupState D} (hsim : Simulates np p nr r)
    (hpend : Pending p offnum) (hbound : offnum + rest.length ≤ 2^16)
    (hloop : dedupLoop nkeyatts newitemsz offnum rest single np p = .ok (np₁, p₁))
    (hlast : dedupFinishPending np₁ p₁ = .ok (np₂, p₂)) :
    ∃ later, p₂.intervals = p.intervals ++ later ∧ Ahead p later ∧
      Pending p₁ (offnum + rest.length) ∧
      ∀ xlrec : XlBtreeDedup, xlrec.intervals = p₂.intervals →
        xlrec.nintervals = xlrec.intervals.length →
        ∃ nr₁ r₁, redoLoop xlrec offnum rest nr r = .ok (nr₁, r₁) ∧ Simulates np₁ p₁ nr₁ r₁ := by
  induction rest generalizing offnum single np nr p r with
  | nil =>
    obtain ⟨rfl, rfl⟩ := Prod.mk.inj (Except.ok.inj hloop)
    obtain ⟨base, -, -, rfl⟩ := finishPending_ok_iff.mp hlast
    refine ⟨loggedInterval p, rfl, ?_, hpend, fun xlrec _ _ => ⟨nr, r, rfl, hsim⟩⟩
    have hahead : Ahead p (loggedInterval p ++ []) := hpend.ahead_finished hbound (by simp)
    rwa [append_nil] at hahead
  | cons item rest ih =>
    rw [length_cons, Nat.add_comm rest.length, ← add_assoc] at hbound ⊢
    rw [dedupLoop] at hloop
    have hcover := hpend.cover
    have hpos := hpend.pos
    rcases hmerge : tryMerge nkeyatts p item.tuple with ⟨merged, p'⟩
    simp only [hmerge] at hloop
    cases merged with
    | true =>
      -- The pass merges: the interval of the pending posting list has more items to come.
      obtain ⟨hsave, hbase, hnitems, hintervals⟩ := tryMerge_true hmerge
      obtain ⟨r', hsave', hsim'⟩ := hsim.save hsave
      have hpend' : Pending p' (offnum + 1) := by
        exact ⟨by omega, by omega, by rw [hintervals, hbase]; exact hpend.few⟩
      obtain ⟨later, hlog, hahead, hpend₁, hredo⟩ := ih hsim' hpend' (by omega) hloop
      rw [hintervals] at hlog
      obtain ⟨n, tail, hlater, hle⟩ : ∃ n tail, later = ⟨p.baseoff, n⟩ :: tail ∧ p.nitems < n := by
        rcases hahead.next with ⟨n, tail, hlater, hle, -⟩ | ⟨hone, -⟩
        · exact ⟨n, tail, by rw [hlater, hbase], by omega⟩
        · omega
      refine ⟨later, hlog, ⟨?_, .inl ⟨n, tail, hlater, by omega, by omega⟩⟩, hpend₁,
        fun xlrec hx hcount => ?_⟩
      · rw [← hbase]
        exact hahead.le
      · rw [redoLoop,
          if_pos ((redo_condition hsim (hx.trans hlog) hcount).mpr ⟨n, tail, hlater, hle⟩), hsave']
        exact hredo xlrec hx hcount
    | false =>
      -- The pass finishes the list and starts the next one with this item.
      obtain ⟨nmaxitems, rfl⟩ := tryMerge_false hmerge
      obtain ⟨⟨np', q⟩, hfinish, hloop'⟩ := bind_ok hloop
      obtain ⟨nr', r', hfinish', hsim'⟩ := (hsim.decide le_rfl).finish hfinish
      obtain ⟨deduplicate, maxpostingsize, hlimit, hsteps⟩ :=
        singlevalSteps_shape newitemsz single q
      simp only [hsteps] at hloop'
      have hintervals : q.intervals = p.intervals ++ loggedInterval p := by
        obtain ⟨base, -, -, rfl⟩ := finishPending_ok_iff.mp hfinish
        rfl
      have hfew : q.intervals.length < offnum := by
        have hone := length_loggedInterval_le p
        have := hpend.few
        rw [hintervals, length_append]
        omega
      set p' := dedupStartPending { q with deduplicate, maxpostingsize } item.tuple offnum with hp'
      have hpend' : Pending p' (offnum + 1) := ⟨Nat.le_refl 1, rfl, hfew⟩
      obtain ⟨later, hlog, hahead, hpend₁, hredo⟩ :=
        ih ((hsim'.decide hlimit).start item.tuple offnum) hpend' (by omega) hloop'
      -- The intervals behind that of the finished list start at this item or later.
      have hlater : ∀ i ∈ later, p.baseoff < i.baseoff := by
        intro i hi
        have : offnum ≤ i.baseoff := hahead.le i hi
        omega
      have hlog' : p₂.intervals = p.intervals ++ (loggedInterval p ++ later) := by
        rw [hlog, ← append_assoc, ← hintervals]
        rfl
      have hahead' := hpend.ahead_finished (by omega) hlater
      refine ⟨loggedInterval p ++ later, hlog', hahead', hpend₁, fun xlrec hx hcount => ?_⟩
      · have hstop : ¬ ∃ n tail, loggedInterval p ++ later = ⟨p.baseoff, n⟩ :: tail ∧
            p.nitems < n := by
          rintro ⟨n, tail, heq, hlt⟩
          unfold loggedInterval at heq
          split_ifs at heq with hone
          · rw [nil_append] at heq
            have := hlater ⟨p.baseoff, n⟩ (heq ▸ mem_cons_self)
            exact absurd this (lt_irrefl _)
          · rw [singleton_append] at heq
            have hn := congrArg BTDedupInterval.nitems (cons.inj heq).1
            simp only at hn
            omega
        rw [redoLoop, if_neg fun hc => hstop ((redo_condition hsim (hx.trans hlog') hcount).mp hc)]
        rw [ok_bind hfinish']
        exact hredo xlrec hx hcount

/-! ## The page -/

/-- The items on a page are few. -/
theorem length_items_lt (page : Page D) : page.items.length < 2^15 := by
  have hspace : ∀ items : List (PageItem D), 4 * items.length ≤ itemSpace items := by
    intro items
    induction items with
    | nil => exact Nat.zero_le _
    | cons item items ih =>
      unfold itemSpace at ih ⊢
      rw [length_cons, map_cons, sum_cons]
      have : sizeofItemIdData = 4 := rfl
      omega
  have hfits := page.fits
  have hpage : pageSpace = 8152 := rfl
  have := hspace page.items
  omega

/-- The first data item is at offset 1 or 2, and the data items are on the page. -/
theorem dataItems_length {page : Page D} {first : PageItem D} {rest : List (PageItem D)}
    (h : dataItems page = some (first, rest)) :
    (page.opaqueData.firstDataKey = 1 ∨ page.opaqueData.firstDataKey = 2) ∧
    rest.length < page.items.length := by
  constructor
  · unfold BTPageOpaqueData.firstDataKey
    split
    · exact .inl rfl
    · exact .inr rfl
  · unfold dataItems at h
    split at h
    · cases h
    · rename_i f t hdrop
      obtain ⟨-, rfl⟩ := Prod.mk.inj (some.inj h)
      have := congrArg length hdrop
      rw [length_drop, length_cons] at this
      omega

/-- The pages that are restored are the same. -/
theorem Simulates.restorePage_eq (h : Simulates np p nr r) {lsn : ℕ} :
    restorePage nr lsn = restorePage np lsn := by
  obtain ⟨_, _, _, _, _⟩ := np
  obtain ⟨_, _, _, _, _⟩ := nr
  obtain ⟨rfl, rfl, rfl, -⟩ := h
  rfl

/-- When a deduplication pass changes a leaf page and logs its intervals, the replay of the record
on the page as it was raises no error and makes the same page, whatever the tuples, the new item and
the strategy; and the intervals that it goes through are those logged. -/
theorem dedup_replays [DecidableEq D] (nkeyatts : ℕ) (page : Page D) (newitem : IndexTuple D)
    (newitemsz : ℕ)
    (bottomupdedup : Bool) (recptr : ℕ) (page' : Page D) (xlrec : XlBtreeDedup)
    (h : dedupPass nkeyatts page newitem newitemsz bottomupdedup recptr =
      .ok (some (page', xlrec))) :
    ∃ state, btreeXlogDedup page xlrec recptr = .ok (page', state) ∧
      state.intervals = xlrec.intervals ∧
      state.intervals.length = xlrec.nintervals := by
  obtain ⟨newpage, hhikey, hbehind⟩ := bind_ok h
  obtain ⟨⟨first, rest⟩, hdata, hpass⟩ := bind_ok hbehind
  obtain ⟨⟨np₁, p₁⟩, hloop, htail⟩ := bind_ok hpass
  obtain ⟨⟨np₂, p₂⟩, hlast, hend⟩ := bind_ok htail
  obtain ⟨hmin, hrest⟩ := dataItems_length (orError_ok hdata)
  have hitems := length_items_lt page
  set minoff := page.opaqueData.firstDataKey
  -- Both start with the first data item.
  have hsim : Simulates { newpage with lsn := page.lsn }
      (dedupStartPending (initialState (min (BTMaxItemSize / 2) INDEX_SIZE_MASK)) first.tuple
        minoff) newpage
      (dedupStartPending (initialState BTMaxItemSize) first.tuple minoff) :=
    ⟨rfl, rfl, rfl, rfl, rfl, rfl, rfl, rfl, rfl,
      show min (BTMaxItemSize / 2) INDEX_SIZE_MASK ≤ BTMaxItemSize by decide⟩
  have hpend : Pending
    (dedupStartPending (initialState (min (BTMaxItemSize / 2) INDEX_SIZE_MASK)) first.tuple
      minoff) (minoff + 1) := ⟨Nat.le_refl 1, rfl, show 0 < minoff by omega⟩
  obtain ⟨later, -, -, hpend₁, hredo⟩ := lockstep rest hsim hpend (by omega) hloop hlast
  have hcount : p₂.intervals.length < 2^16 := by
    obtain ⟨base, -, -, rfl⟩ := finishPending_ok_iff.mp hlast
    have hone := length_loggedInterval_le p₁
    have hcover := hpend₁.cover
    have hfew := hpend₁.few
    show (p₁.intervals ++ loggedInterval p₁).length < 2^16
    rw [length_append]
    omega
  dsimp only at hend
  split_ifs at hend with hnone
  · cases hend
  · obtain ⟨hpage, hrec⟩ := Prod.mk.inj (some.inj (Except.ok.inj hend))
    rw [Nat.mod_eq_of_lt hcount] at hrec
    obtain ⟨nr₁, r₁, hredo₁, hsim₁⟩ := hredo xlrec (by rw [← hrec]) (by rw [← hrec])
    obtain ⟨nr₂, r₂, hfinish, hsim₂⟩ := hsim₁.finish hlast
    refine ⟨r₂, ?_, ?_, ?_⟩
    · refine (ok_bind hhikey _).trans ((ok_bind hdata _).trans ?_)
      refine (ok_bind hredo₁ _).trans ((ok_bind hfinish _).trans ?_)
      rw [← hpage]
      exact congrArg (fun page => Except.ok (page, r₂)) hsim₂.restorePage_eq
    · rw [hsim₂.intervals, ← hrec]
    · rw [hsim₂.intervals, ← hrec]

/-- A rightmost page with two equal tuples. -/
def duplicatesPage : Page ℕ where
  lsn := 5
  pdFlags := 0
  items := [⟨⟨[some 3], 16, .plain ⟨1, 1⟩⟩, 16⟩, ⟨⟨[some 3], 16, .plain ⟨1, 2⟩⟩, 16⟩]
  opaqueData := ⟨4, 0, 0, 65, 0⟩
  fits := by decide

/-- The page with one posting list tuple in their place. -/
def mergedPage : Page ℕ where
  lsn := 7
  pdFlags := 0
  items := [⟨⟨[some 3], 32, .posting 16 [⟨1, 1⟩, ⟨1, 2⟩]⟩, 32⟩]
  opaqueData := ⟨4, 0, 0, 1, 0⟩
  fits := by decide

/-- The two tuples are merged, and merged again by the replay. -/
theorem dedup_replays_duplicates :
    dedupPass 1 duplicatesPage ⟨[some 4], 16, .plain ⟨1, 3⟩⟩ 16 false 7 =
        .ok (some (mergedPage, ⟨1, [⟨1, 2⟩]⟩)) ∧
      ∃ state, btreeXlogDedup duplicatesPage ⟨1, [⟨1, 2⟩]⟩ 7 = .ok (mergedPage, state) ∧
        state.intervals = [⟨1, 2⟩] ∧ state.intervals.length = 1 :=
  ⟨rfl, dedup_replays 1 duplicatesPage ⟨[some 4], 16, .plain ⟨1, 3⟩⟩ 16 false 7 mergedPage
    ⟨1, [⟨1, 2⟩]⟩ rfl⟩

end PgAutoIndex.Nbtree
