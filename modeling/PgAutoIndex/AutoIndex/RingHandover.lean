import PgAutoIndex.AutoIndex.RingPositions

/-!
# Handing entries over through the ring

`ring_buffer_push` moves `tail` before it copies its entry, and `drain_ring_buffer` trusts `tail`
alone: it folds every position below the tail that it read, whether or not the owner of the position
has copied its entry yet. `ring_handover_stale` is a run in which it folds the zeroed slot of a call
that has won its position but not yet copied, so that the query is lost.

That is the only way in which the hand-over goes wrong. `FoldsAfterCopy` is the condition that the
worker reads the slot of a position only after the position's owner has copied, and in every run
whose steps meet it (`ring_handover`) the worker reads exactly the entry of the call whose
compare-and-swap won the position, folds every position once, and ends up with the table of a drain
of the owners' entries in the order in which they won. The argument needs `RingInv`: between the
worker's position and `tail` there are fewer positions than slots, so that a copy into one
position's slot never touches another's.
-/

namespace PgAutoIndex.AutoIndex

open Function Option

variable {ι : Type}

/-- The slot that the worker is folding holds the entry of the call that won its position. -/
def ReadsOwner (entry : ι → WorkloadEntry) (s : RingState ι) : Prop :=
  ∀ p t usage i, s.worker = .scan p t usage i → p ≠ t →
    ∃ j, s.claims[p]? = some j ∧ s.entries (ringSlot p) = entry j

/-- Every position that the worker has passed was folded once, and no other was folded. -/
def FoldsOnce (s : RingState ι) : Prop :=
  ∀ p, s.folded.count p = if p < s.position then 1 else 0

/-- The worker reads the slot of a position only when no call is about to copy into it. -/
def FoldsAfterCopy (s : RingState ι) : Actor ι → Prop
  | .push _ => True
  | .worker => ∀ p t usage i, s.worker = .scan p t usage i → p ≠ t → ∀ j, s.push j ≠ .copy p

/-! ## The table in the middle of a slot -/

/-- The columns of a query that are charged before column `i` of one of the three loops. -/
def WorkloadEntry.chargedBefore (e : WorkloadEntry) : ColUsageType → ℕ → List ColStatsKey
  | .USAGE_PREDICATE, i => (e.columns .USAGE_PREDICATE).take i
  | .USAGE_JOIN, i => e.columns .USAGE_PREDICATE ++ (e.columns .USAGE_JOIN).take i
  | .USAGE_SORT, i => e.columns .USAGE_PREDICATE ++ e.columns .USAGE_JOIN ++
      (e.columns .USAGE_SORT).take i

/-- The table after a drain of `es` and the columns of `next` before column `i` of a loop. -/
def tableAt (es : List WorkloadEntry) (next : Option WorkloadEntry) (usage : ColUsageType) (i : ℕ) :
    AdvisorHash :=
  match next with
  | some e =>
    (e.chargedBefore usage i).foldl (chargeColumn e.plan_cost e.ts) (drainEntries .empty es)
  | none => drainEntries .empty es

/-- Before the first column, only the slots before have been folded. -/
theorem tableAt_start (es : List WorkloadEntry) (next : Option WorkloadEntry) :
    tableAt es next .USAGE_PREDICATE 0 = drainEntries .empty es := by
  cases next <;> simp [tableAt, WorkloadEntry.chargedBefore]

variable {usage : ColUsageType} {i : ℕ} {s s' : RingState ι} {j : ι}

/-- Past the last column, the whole loop has been charged. -/
theorem take_columns {e : WorkloadEntry} (hk : (e.columns usage)[i]? = none) :
    (e.columns usage).take i = e.columns usage :=
  List.take_of_length_le (List.getElem?_eq_none_iff.mp hk)

/-! ## The invariant of runs that fold after copying -/

/-- The invariant of the hand-over, in runs that fold a slot only after the copy into it. -/
structure HandInv [Fintype ι] (entry : ι → WorkloadEntry) (s : RingState ι) : Prop where
  ring : RingInv s
  folded : s.folded = List.range s.position
  /-- A call that has won a position is at that position. -/
  owner_pos : ∀ p j, s.claims[p]? = some j → (s.push j).pos = some p
  /-- The worker has not passed a call that is about to copy. -/
  copying : ∀ j p, s.push j = .copy p → s.position ≤ p
  /-- An entry that the worker has yet to fold is in its slot once its owner has copied it. -/
  stored : ∀ j p, (s.push j = .count p ∨ s.push j = .written p) → s.position ≤ p →
    s.entries (ringSlot p) = entry j
  /-- At the end of the batch the worker is at the start of a slot. -/
  at_end : ∀ t usage i, s.worker = .scan t t usage i → usage = .USAGE_PREDICATE ∧ i = 0
  /-- Between two drains the table has the entries of all positions passed. -/
  table_idle : (∀ p t usage i, s.worker ≠ .scan p t usage i) →
    s.table = drainEntries .empty ((s.claims.take s.position).map entry)
  /-- In a slot the table has in addition the columns of that slot charged so far. -/
  table_scan : ∀ p t usage i, s.worker = .scan p t usage i →
    s.table = tableAt ((s.claims.take p).map entry) (s.claims[p]?.map entry) usage i

variable [Fintype ι] {entry : ι → WorkloadEntry}

/-- The invariant holds of the zeroed ring. -/
theorem handInv_init : HandInv entry (RingState.init : RingState ι) := by
  refine ⟨ringInv_init, rfl, by simp [RingState.init], by simp [RingState.init],
    by simp [RingState.init], by simp [RingState.init], fun _ => rfl, by simp [RingState.init]⟩

/-- The worker's position lies between `head` and `tail`. -/
theorem RingInv.position_bounds (h : RingInv s) :
    s.head ≤ s.position ∧ s.position ≤ s.tail := by
  have hw := h.worker_ok
  have hle := h.head_le
  unfold RingState.position
  cases hpc : s.worker with
  | idle => exact ⟨le_rfl, hle⟩
  | readTail hd =>
    rw [hpc] at hw
    have heq : hd = s.head := hw
    dsimp only
    omega
  | scan hd tl usage i =>
    rw [hpc] at hw
    exact ⟨hw.1, hw.2.1.trans hw.2.2⟩

/-- Positions that the worker has yet to pass have different slots. -/
theorem RingInv.slot_ne (h : RingInv s) {p q : ℕ} (hp : s.position ≤ p) (hq : s.position ≤ q)
    (hpt : p < s.tail) (hqt : q < s.tail) (hne : p ≠ q) :
    ringSlot p ≠ ringSlot q := by
  have hpos := h.position_bounds
  have hcap := h.tail_le
  rw [ne_eq, ringSlot_eq_iff]
  omega

section
variable (h : HandInv entry s)
include h

/-- A slot that the worker reads after the copy into it holds its owner's entry. -/
theorem HandInv.reads_owner (hok : FoldsAfterCopy s .worker) : ReadsOwner entry s := by
  intro p t usage i hpc hne
  have hw := h.ring.worker_ok
  rw [hpc] at hw
  have hlt : p < s.claims.length := by
    have hlen := h.ring.claims_length
    have hmid := hw.2.1
    have hhi := hw.2.2
    omega
  refine ⟨s.claims[p], List.getElem?_eq_getElem hlt, ?_⟩
  have hown := h.owner_pos p _ (List.getElem?_eq_getElem hlt)
  have hcopy := hok p t usage i hpc hne s.claims[p]
  have hposition : s.position = p := by simp [RingState.position, hpc]
  -- The owner is at this position and not about to copy, so it has copied.
  apply h.stored _ p _ hposition.le
  cases hj : s.push s.claims[p] <;> simp_all [PushPc.pos]

/-- A step of call `i` keeps what the invariant says about the worker and the other calls: a win
does not change the entries of positions that the worker has passed, or is folding, nor who owns
them. -/
theorem HandInv.call [DecidableEq ι] (hring : RingInv s') (hworker : s'.worker = s.worker)
    (hhead : s'.head = s.head) (htable : s'.table = s.table) (hfolded : s'.folded = s.folded)
    {i : ι} {pc : PushPc} (hpush : s'.push = update s.push i pc)
    {won : List ι} (hclaims : s'.claims = s.claims ++ won) (hwon : ∀ j ∈ won, j = i)
    (howner : ∀ p, s'.claims[p]? = some i → pc.pos = some p)
    (hcopying : ∀ p, pc = .copy p → s.position ≤ p)
    (hstored : ∀ p, pc = .count p ∨ pc = .written p → s.position ≤ p →
      s'.entries (ringSlot p) = entry i)
    (hentries : ∀ j p, j ≠ i → (s.push j).pos = some p → s.position ≤ p →
      s'.entries (ringSlot p) = s.entries (ringSlot p)) : HandInv entry s' := by
  have hposition : s'.position = s.position := by
    simp only [RingState.position, hworker, hhead]
  have hbounds := h.ring.position_bounds
  have hlen := h.ring.claims_length
  have htake : ∀ p ≤ s.tail, s'.claims.take p = s.claims.take p := by
    intro p hp
    rw [hclaims, List.take_append_of_le_length (by omega)]
  refine ⟨hring, ?_, fun p => ?_, ?_, ?_, ?_, ?_, ?_⟩
  · rw [hfolded, hposition, h.folded]
  · rw [hpush]
    refine (forall_update_iff s.push fun j pc => s'.claims[p]? = some j → pc.pos = some p).mpr
      ⟨howner p, fun j hj hp => h.owner_pos p j ?_⟩
    rw [hclaims, List.getElem?_append] at hp
    split_ifs at hp
    · exact hp
    · exact absurd (hwon j (List.mem_of_getElem? hp)) hj
  · rw [hpush, hposition]
    exact (forall_update_iff s.push fun _ pc => ∀ p, pc = .copy p → s.position ≤ p).mpr
      ⟨hcopying, fun j _ => h.copying j⟩
  · rw [hpush, hposition]
    refine (forall_update_iff s.push fun j pc => ∀ p, (pc = .count p ∨ pc = .written p) →
      s.position ≤ p → s'.entries (ringSlot p) = entry j).mpr ⟨hstored, fun j hj p hp hle => ?_⟩
    rw [hentries j p hj (by rcases hp with hp | hp <;> rw [hp] <;> rfl) hle]
    exact h.stored j p hp hle
  · rw [hworker]
    exact h.at_end
  · intro hidle
    rw [hworker] at hidle
    rw [htable, hposition, htake _ hbounds.2, h.table_idle hidle]
  · intro p t usage i hpc
    rw [hworker] at hpc
    have hw := h.ring.worker_ok
    rw [hpc] at hw
    obtain ⟨-, hpt, htt⟩ := hw
    rw [htable, h.table_scan p t usage i hpc, htake p (by omega)]
    rcases lt_or_ge p s.claims.length with hlt | hge
    · rw [hclaims, List.getElem?_append_left hlt]
    · -- The worker has caught up with `tail`, so it is at the start of a slot nobody owned yet.
      have hend : p = t := by omega
      subst hend
      obtain ⟨rfl, rfl⟩ := h.at_end p usage i hpc
      rw [tableAt_start, tableAt_start]

/-- A step that moves call `i` without winning or copying keeps the invariant. -/
theorem HandInv.move [DecidableEq ι] (hring : RingInv s')
    (hworker : s'.worker = s.worker) (hhead : s'.head = s.head) (htable : s'.table = s.table)
    (hfolded : s'.folded = s.folded) (hclaims : s'.claims = s.claims)
    (hentries : s'.entries = s.entries) {i : ι} {old pc : PushPc} (hold : s.push i = old)
    (hpush : s'.push = update s.push i pc) (hpos : pc.pos = old.pos)
    (hcopy : ∀ p, pc ≠ .copy p)
    (hstored : ∀ p, pc = .count p ∨ pc = .written p → old = .count p ∨ old = .written p) :
    HandInv entry s' := by
  subst hold
  refine h.call hring hworker hhead htable hfolded hpush
    (hclaims.trans (List.append_nil _).symm) nofun (fun p hp => ?_)
    (fun p hp => absurd hp (hcopy p)) (fun p hp hle => ?_) fun _ _ _ _ _ => by rw [hentries]
  · rw [hpos]
    exact h.owner_pos p i (hclaims ▸ hp)
  · rw [hentries]
    exact h.stored i p (hstored p hp) hle

/-- A call that owns a position owns one below `tail`. -/
theorem HandInv.pos_lt {p : ℕ} (hp : (s.push j).pos = some p) : p < s.tail := by
  have hown := (h.ring.push_ok j).owner hp
  rw [← h.ring.claims_length]
  exact (List.getElem?_eq_some_iff.mp hown).1

/-- Every step of a call keeps the invariant. -/
theorem HandInv.push [DecidableEq ι] (hι : Fintype.card ι < 2^64) {i : ι}
    (hs : ringBufferPush entry s i = some s') : HandInv entry s' := by
  have hring := h.ring.push hι hs
  unfold ringBufferPush at hs
  generalize hpc : s.push i = pc at hs
  cases pc with
  | readTail =>
    cases hs
    exact h.move hring rfl rfl rfl rfl rfl rfl hpc rfl rfl (by simp) (by simp)
  | readHead t =>
    cases hs
    refine h.move hring rfl rfl rfl rfl rfl rfl hpc rfl ?_ ?_ ?_ <;> split_ifs <;> simp [PushPc.pos]
  | drop =>
    cases hs
    exact h.move hring rfl rfl rfl rfl rfl rfl hpc rfl rfl (by simp) (by simp)
  | claim t =>
    dsimp only at hs
    split_ifs at hs with hcas
    · -- The winner owns the position `tail`, which the worker has not passed.
      cases hs
      subst hcas
      refine h.call hring rfl rfl rfl rfl rfl rfl (fun _ => List.mem_singleton.mp)
        (fun p hp => ?_) ?_ (by simp) fun _ _ _ _ _ => rfl
      · rcases lt_or_ge p s.claims.length with hlt | hge
        · have hown := h.owner_pos p i ((List.getElem?_append_left hlt).symm.trans hp)
          rw [hpc] at hown
          cases hown
        · have hlt := (List.getElem?_eq_some_iff.mp hp).1
          have hlen := h.ring.claims_length
          simp only [List.length_append, List.length_singleton] at hlt
          exact congrArg some (by omega)
      · rintro _ ⟨⟩
        exact h.ring.position_bounds.2
    · cases hs
      exact h.move hring rfl rfl rfl rfl rfl rfl hpc rfl rfl (by simp) (by simp)
  | copy p =>
    cases hs
    have hposi : (s.push i).pos = some p := by rw [hpc]; rfl
    have hple := h.copying i p hpc
    refine h.call hring rfl rfl rfl rfl rfl (List.append_nil _).symm (by simp) (fun q hq => ?_)
      (by simp) (fun q hq _ => ?_) fun j q hji hposj hle => ?_
    · exact hposi.symm.trans (h.owner_pos q i hq)
    · obtain rfl : p = q := by simpa using hq
      exact update_self ..
    · -- The copy goes into its own slot; the entries still to be folded are in other slots.
      have hpq : q ≠ p := by
        rintro rfl
        have hi := (h.ring.push_ok i).owner hposi
        have hj := (h.ring.push_ok j).owner hposj
        exact hji (some.inj (hj.symm.trans hi))
      exact update_of_ne (h.ring.slot_ne hle hple (h.pos_lt hposj) (h.pos_lt hposi) hpq) ..
  | count p =>
    cases hs
    exact h.move hring rfl rfl rfl rfl rfl rfl hpc rfl rfl (by simp) (by simp)
  | written p | dropped => cases hs

/-- A step of the worker that leaves its position where it is keeps what the invariant says about
the calls; the table is left to show. -/
theorem HandInv.stay (hring : RingInv s') (hpush : s'.push = s.push)
    (hentries : s'.entries = s.entries) (hclaims : s'.claims = s.claims)
    (hfolded : s'.folded = s.folded) (hposition : s'.position = s.position)
    (hend : ∀ t usage i, s'.worker = .scan t t usage i → usage = .USAGE_PREDICATE ∧ i = 0)
    (hidle : (∀ p t usage i, s'.worker ≠ .scan p t usage i) →
      s'.table = drainEntries .empty ((s.claims.take s.position).map entry))
    (hscan : ∀ p t usage i, s'.worker = .scan p t usage i →
      s'.table = tableAt ((s.claims.take p).map entry) (s.claims[p]?.map entry) usage i) :
    HandInv entry s' := by
  refine ⟨hring, ?_, ?_, ?_, ?_, hend, ?_, ?_⟩
  · rw [hfolded, hposition, h.folded]
  · rw [hclaims, hpush]
    exact h.owner_pos
  · rw [hpush, hposition]
    exact h.copying
  · rw [hpush, hposition, hentries]
    exact h.stored
  · rw [hclaims, hposition]
    exact hidle
  · rw [hclaims]
    exact hscan

/-- A step within the slot of a position that call `j` won, to column `i'` of the loop for `usage'`,
keeps the invariant when the table is that of `j`'s columns up to there. -/
theorem HandInv.inSlot {hd tl : ℕ} (hpc : s.worker = .scan hd tl usage i)
    (hne : hd ≠ tl) (hj : s.claims[hd]? = some j) {table : AdvisorHash} {usage' : ColUsageType}
    {i' : ℕ} (hring : RingInv { s with table := table, worker := .scan hd tl usage' i' })
    (htable : table = tableAt ((s.claims.take hd).map entry) (some (entry j)) usage' i') :
    HandInv entry { s with table := table, worker := .scan hd tl usage' i' } := by
  have hpos : s.position = hd := by simp [RingState.position, hpc]
  refine h.stay hring rfl rfl rfl rfl hpos.symm ?_ (by simp) ?_
  · rintro _ _ _ ⟨⟩
    exact absurd rfl hne
  · rintro _ _ _ _ ⟨⟩
    rw [hj]
    exact htable

/-- The step past the last column of a slot keeps the invariant: the position is folded, and the
table is that of a drain with one more entry. -/
theorem HandInv.nextSlot (hok : FoldsAfterCopy s .worker) {hd tl : ℕ}
    (hpc : s.worker = .scan hd tl .USAGE_SORT i) (hne : hd ≠ tl) (hj : s.claims[hd]? = some j)
    (hlast : ((entry j).columns .USAGE_SORT)[i]? = none) (hring : RingInv { s with
      folded := s.folded ++ [hd]
      worker := .scan (hd + 1) tl .USAGE_PREDICATE 0 }) :
    HandInv entry { s with
      folded := s.folded ++ [hd]
      worker := .scan (hd + 1) tl .USAGE_PREDICATE 0 } := by
  have hpos : s.position = hd := by simp [RingState.position, hpc]
  refine ⟨hring, ?_, h.owner_pos, ?_, ?_, ?_, by simp, ?_⟩
  · show s.folded ++ [hd] = List.range (hd + 1)
    rw [h.folded, hpos, List.range_succ]
  · -- No call is about to copy into the slot left behind.
    intro j' p hj'
    have hle := h.copying j' p hj'
    have hne' : p ≠ hd := by
      rintro rfl
      exact hok p tl _ i hpc hne j' hj'
    show hd + 1 ≤ p
    omega
  · intro j' p hj' hle
    have hle' : hd + 1 ≤ p := hle
    exact h.stored j' p hj' (by omega)
  · rintro _ _ _ ⟨⟩
    exact ⟨rfl, rfl⟩
  · rintro _ _ _ _ ⟨⟩
    have htab := h.table_scan hd tl .USAGE_SORT i hpc
    simp only [hj, map_some, tableAt] at htab
    rw [tableAt_start, List.take_add_one, hj]
    rw [htab]
    simp [drainEntries, drainEntry, WorkloadEntry.chargedBefore, take_columns hlast,
      WorkloadEntry.charged]

/-- Every step of the worker that reads a slot only after the copy into it keeps the invariant. -/
theorem HandInv.drain (hι : Fintype.card ι < 2^64)
    (hok : FoldsAfterCopy s .worker) : HandInv entry (drainRingBuffer s) := by
  have hring := h.ring.drain hι
  have hw := h.ring.worker_ok
  unfold drainRingBuffer at hring ⊢
  cases hpc : s.worker with
  | idle =>
    simp only [hpc] at hring ⊢
    have hpos : s.position = s.head := by simp [RingState.position, hpc]
    exact h.stay hring rfl rfl rfl rfl hpos.symm (by simp)
      (fun _ => h.table_idle (by simp [hpc])) (by simp)
  | readTail hd =>
    simp only [hpc] at hring ⊢
    have hpos : s.position = hd := by simp [RingState.position, hpc]
    refine h.stay hring rfl rfl rfl rfl hpos.symm ?_ (by simp) ?_
    · rintro _ _ _ ⟨⟩
      exact ⟨rfl, rfl⟩
    · rintro _ _ _ _ ⟨⟩
      rw [tableAt_start, ← hpos]
      exact h.table_idle (by simp [hpc])
  | scan hd tl usage i =>
    rw [hpc] at hw
    obtain ⟨-, hmid, hhi⟩ := hw
    have hpos : s.position = hd := by simp [RingState.position, hpc]
    simp only [hpc] at hring ⊢
    split_ifs at hring ⊢ with hend
    · -- The batch is done, and `head` becomes the position that the worker had reached.
      subst hend
      obtain ⟨rfl, rfl⟩ := h.at_end hd usage i hpc
      refine h.stay hring rfl rfl rfl rfl hpos.symm (by simp) ?_ (by simp)
      intro _
      have htab := h.table_scan hd hd _ _ hpc
      rwa [tableAt_start, ← hpos] at htab
    · obtain ⟨j, hj, hslot⟩ := h.reads_owner hok hd tl usage i hpc hend
      have htab := h.table_scan hd tl usage i hpc
      rw [hj, map_some] at htab
      rw [hslot] at hring ⊢
      cases hk : ((entry j).columns usage)[i]? with
      | some k =>
        simp only [hk] at hring ⊢
        refine h.inSlot hpc hend hj hring ?_
        rw [htab]
        have hnext : (entry j).chargedBefore usage (i + 1) =
            (entry j).chargedBefore usage i ++ [k] := by
          cases usage <;> simp [WorkloadEntry.chargedBefore, List.take_add_one, hk]
        simp only [tableAt]
        rw [hnext, List.foldl_append]
        rfl
      | none =>
        -- One of the three loops is done, and with the last of them the slot.
        cases usage with
        | USAGE_PREDICATE | USAGE_JOIN =>
          simp only [hk] at hring ⊢
          refine h.inSlot hpc hend hj hring ?_
          rw [htab]
          simp [tableAt, WorkloadEntry.chargedBefore, take_columns hk]
        | USAGE_SORT =>
          have hcard := h.ring.tail_le_card
          have hnext : succ64 hd = hd + 1 := succ64_of_lt (by omega)
          simp only [hk, hnext] at hring ⊢
          exact h.nextSlot hok hpc hend hj hk hring

end

/-! ## The hand-over -/

/-- In every run of fewer than `2^64` pushes in which the worker reads the slot of a position only
after the owner of the position has copied its entry: whenever the worker reads a slot, the slot
holds the entry of the call whose compare-and-swap won its position; every position that the worker
has passed has been folded exactly once; and between two drains the table is that of a drain of the
entries of the positions below `head`, in the order in which they were won. -/
theorem ring_handover [DecidableEq ι] (hι : Fintype.card ι < 2^64) (entry : ι → WorkloadEntry)
    (ls : List (Actor ι)) (s : RingState ι)
    (h : Runs.Run (ringStep entry) FoldsAfterCopy .init ls s) :
    (FoldsAfterCopy s .worker → ReadsOwner entry s) ∧ FoldsOnce s ∧
      (s.worker = .idle →
        s.table = drainEntries .empty ((s.claims.take s.head).map entry)) := by
  have hinv : HandInv entry s := by
    refine h.invariant (HandInv entry) handInv_init ?_
    intro a l b ha hok hstep
    cases l with
    | push i => exact ha.push hι hstep
    | worker =>
      simp only [ringStep, some.injEq] at hstep
      exact hstep ▸ ha.drain hι hok
  refine ⟨hinv.reads_owner, ?_, ?_⟩
  · intro p
    rw [hinv.folded, List.nodup_range.count]
    simp
  · intro hidle
    have htab := hinv.table_idle (by simp [hidle])
    simpa [RingState.position, hidle] using htab

/-- A query that costs 500 and has a predicate on column 1 of relation 16384. -/
def lostQuery : Fin 1 → WorkloadEntry := fun _ => .onePredicate 16384 1 500 1

/-- The call copies its entry before the worker reads the slot: the run meets the condition, and the
worker's table is that of the query. -/
theorem ring_handover_copied : ∃ s, Runs.Run (ringStep lostQuery) FoldsAfterCopy .init
      [.push 0, .push 0, .push 0, .push 0, .worker, .worker, .worker, .worker, .worker, .worker,
        .worker] s ∧
    s.worker = .idle ∧ s.head = 1 ∧ FoldsOnce s ∧ s.table = drainEntries .empty [lostQuery 0] := by
  -- The checked condition: the worker only moves when the one call is not about to copy.
  have hs : Runs.execOk (ringStep lostQuery)
      (fun s a => match a, s.push 0 with
        | .worker, .copy _ => false
        | _, _ => true) .init
      [.push 0, .push 0, .push 0, .push 0, .worker, .worker, .worker, .worker, .worker, .worker,
        .worker] = some _ := rfl
  have hrun : Runs.Run (ringStep lostQuery) FoldsAfterCopy .init _ _ :=
    (Runs.run_of_execOk hs .nil).mono ?_
  · obtain ⟨-, honce, htable⟩ := ring_handover (by simp) lostQuery _ _ hrun
    exact ⟨_, hrun, rfl, rfl, honce, htable rfl⟩
  · intro s a hok
    cases a with
    | push i => trivial
    | worker =>
      intro p t usage i _ _ j hj
      rw [Subsingleton.elim j 0] at hj
      simp [hj] at hok

/-- A call wins position 0, and before it copies its entry the worker drains: in the state after
five steps the worker is about to fold the zeroed slot. In the end the call has returned as
written and position 0 is folded, but nothing has been charged to the query's column. -/
theorem ring_handover_stale :
    (¬ ∀ s, RingReachable lostQuery s → ReadsOwner lostQuery s ∧ FoldsOnce s) ∧
      ∃ s, RingReachable lostQuery s ∧ s.worker = .idle ∧ s.head = 1 ∧ s.folded = [0] ∧
        s.push 0 = .written 0 ∧ s.table (advisorHashFn ⟨16384, 1, .USAGE_PREDICATE⟩) = none := by
  have hreach : ∀ {ls : List (Actor (Fin 1))} {s : RingState (Fin 1)},
      Runs.execOk (ringStep lostQuery) (fun _ _ => true) .init ls = some s →
      RingReachable lostQuery s :=
    fun hs => ⟨_, (Runs.run_of_execOk hs .nil).mono fun _ _ _ => trivial⟩
  constructor
  · intro hall
    have hs : Runs.execOk (ringStep lostQuery) (fun _ _ => true) .init
      [.push 0, .push 0, .push 0, .worker, .worker] = some _ := rfl
    obtain ⟨j, -, hj⟩ := (hall _ (hreach hs)).1 0 1 _ _ rfl (by decide)
    have hentry : 0 = (lostQuery j).n_pred := congrArg WorkloadEntry.n_pred hj
    exact absurd hentry (by simp [lostQuery, WorkloadEntry.onePredicate])
  · have hs : Runs.execOk (ringStep lostQuery) (fun _ _ => true) .init
      [.push 0, .push 0, .push 0, .worker, .worker, .worker, .worker,
        .worker, .worker, .push 0, .push 0] = some _ := rfl
    exact ⟨_, hreach hs, rfl, rfl, rfl, rfl, rfl⟩

end PgAutoIndex.AutoIndex
