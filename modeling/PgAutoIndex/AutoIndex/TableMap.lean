import PgAutoIndex.Runs
import PgAutoIndex.AutoIndex.Table

/-!
# The tracking table as a finite map

What the table of `index_advisor.c` is for is a finite map from columns to what has been charged to
them. `RentMap` is that map, with the table's three operations on it, and `Refines` says that the
table in memory represents a map: no key twice, every entry where the probe for its key ends, and
the entry that `advisor_hash_find_or_create` returns is the map's.

`advisor_hash_remove` and `advisor_hash_evict_stale` clear slots in the middle of probe sequences
and leave no mark there, so a later probe stops at the cleared slot before it reaches an entry
stored beyond it. `table_refines_iff` says exactly when that does not happen: the table represents
the map after every operation of a run if and only if every operation that deletes clears only slots
that lie on no remaining entry's probe path (`DeletesSafely`).
-/

namespace PgAutoIndex.AutoIndex

open LinearProbing Function Option

/-! ## Operations -/

/-- The updates made through one returned entry, in order. -/
def ColStatsEntry.charges (e : ColStatsEntry) (cs : List (ℚ × ℤ)) : ColStatsEntry :=
  cs.foldl (fun e c => e.charge c.1 c.2) e

@[simp] theorem ColStatsEntry.charges_key (e : ColStatsEntry) (cs : List (ℚ × ℤ)) :
    (e.charges cs).key = e.key := by
  unfold charges
  induction cs generalizing e with
  | nil => rfl
  | cons c cs ih => rw [List.foldl_cons, ih, charge_key]

/-- A call of one of the table's operations: `advisor_hash_find_or_create`, with the plan costs and
times charged through the entry that it returns, `advisor_hash_remove`, or
`advisor_hash_evict_stale` at a time and with a window. -/
inductive TableOp where
  | findOrCreate (k : ColStatsKey) (charges : List (ℚ × ℤ))
  | remove (k : ColStatsKey)
  | evictStale (now : ℤ) (window_days : ℕ)

/-- The call on the table in memory. -/
def TableOp.run (t : AdvisorHash) : TableOp → AdvisorHash
  | .findOrCreate k cs =>
    match advisorHashFindOrCreate t k with
    | (some idx, t') => update t' idx ((t' idx).map fun e => e.charges cs)
    | (none, t') => t'
  | .remove k => advisorHashRemove t k
  | .evictStale now window_days => advisorHashEvictStale now window_days t

/-- The table after a run from the empty table. -/
def tableAfter (ops : List TableOp) : AdvisorHash := ops.foldl TableOp.run AdvisorHash.empty

/-- The calls that a drain makes: one for each iteration of the inner loops of
`drain_ring_buffer`. -/
def drainOps (es : List WorkloadEntry) : List TableOp :=
  es.flatMap fun e => e.charged.map fun k => .findOrCreate k [(e.plan_cost, e.ts)]

/-- A drain makes its calls one after the other. -/
theorem drainEntries_eq_run (t : AdvisorHash) (es : List WorkloadEntry) :
    drainEntries t es = (drainOps es).foldl TableOp.run t := by
  unfold drainEntries drainOps
  induction es generalizing t with
  | nil => rfl
  | cons e es ih =>
    rw [List.foldl_cons, List.flatMap_cons, List.foldl_append, ← ih, drainEntry, List.foldl_map]
    rfl

/-! ## The map that the table is for -/

/-- What has been charged to each tracked column. -/
abbrev RentMap := ColStatsKey → Option ColStatsEntry

open Classical in
/-- The call on the map. A new key is refused when as many keys are tracked as the table has
slots. -/
noncomputable def TableOp.runMap (m : RentMap) : TableOp → RentMap
  | .findOrCreate k cs =>
    match m k with
    | some e => update m k (some (e.charges cs))
    | none =>
      if {k | m k ≠ none}.ncard < ADVISOR_HASH_SIZE then
        update m k (some ((ColStatsEntry.fresh k).charges cs))
      else m
  | .remove k => update m k none
  | .evictStale now window_days => fun k => (m k).filter fun e => !e.stale now window_days

/-- An entry of the map after `advisor_hash_find_or_create` has just been charged, or is another
key's and was there. -/
theorem runMap_findOrCreate {m : RentMap} {k j : ColStatsKey} {cs : List (ℚ × ℤ)}
    {e : ColStatsEntry}
    (h : (TableOp.findOrCreate k cs).runMap m j = some e) :
    (j = k ∧ ∃ e₀ : ColStatsEntry, e₀.charges cs = e) ∨ j ≠ k ∧ m j = some e := by
  cases hm : m k with
  | none =>
    simp only [TableOp.runMap, hm] at h
    split_ifs at h
    · rw [update_apply] at h
      split_ifs at h with hj
      · exact .inl ⟨hj, _, some.inj h⟩
      · exact .inr ⟨hj, h⟩
    · refine .inr ⟨?_, h⟩
      rintro rfl
      cases hm.symm.trans h
  | some e₀ =>
    simp only [TableOp.runMap, hm, update_apply] at h
    split_ifs at h with hj
    · exact .inl ⟨hj, e₀, some.inj h⟩
    · exact .inr ⟨hj, h⟩

/-- The map after a run from the empty map. -/
noncomputable def mapAfter (ops : List TableOp) : RentMap :=
  ops.foldl TableOp.runMap fun _ => none

/-- The table represents the map. -/
structure Refines (t : AdvisorHash) (m : RentMap) : Prop where
  /-- No two used slots carry the same key. -/
  distinct : ∀ i j e f, t i = some e → t j = some f → e.key = f.key → i = j
  /-- Every used slot is reached by the probe that starts at its key's hash value. -/
  reached : ∀ i e, t i = some e → advisorHashFind t e.key = .hit i
  /-- `advisor_hash_find_or_create` of a tracked key returns its entry, and changes nothing. -/
  tracked : ∀ k e, m k = some e →
    ∃ i, advisorHashFindOrCreate t k = (some i, t) ∧ t i = some e
  /-- A key that is not tracked, such as one just removed, is in no slot. -/
  untracked : ∀ k, m k = none → ∀ i e, t i = some e → e.key ≠ k

/-- The slots that a call clears lie on the probe path of no entry that stays in the table. -/
def DeletesSafely (t : AdvisorHash) : TableOp → Prop
  | .findOrCreate _ _ => True
  | .remove k => ∀ i, advisorHashFind t k = .hit i →
      ∀ j e, j ≠ i → t j = some e → ¬ Before (advisorHashFn e.key) i j
  | .evictStale now window_days => ∀ i j d e, t i = some d → d.stale now window_days = true →
      t j = some e → e.stale now window_days = false → ¬ Before (advisorHashFn e.key) i j

/-! ## One call -/

/-- The tables that linear probing handles correctly. -/
abbrev SoundTable (t : AdvisorHash) : Prop := Sound ColStatsEntry.key advisorHashFn t

/-- The map that a table stands for: what the probe for each key finds. -/
abbrev tableMap (t : AdvisorHash) : RentMap := lookup ColStatsEntry.key advisorHashFn t

variable {t : AdvisorHash}

/-- Representing a map is being sound and having that map. -/
theorem refines_iff_sound {m : RentMap} :
    Refines t m ↔ SoundTable t ∧ tableMap t = m := by
  constructor
  · intro h
    refine ⟨h.reached, ?_⟩
    have hs : SoundTable t := h.reached
    funext k
    cases hk : m k with
    | none => exact hs.lookup_eq_none_iff.mpr (h.untracked k hk)
    | some e =>
      obtain ⟨i, hfind, hi⟩ := h.tracked k e hk
      -- The slot returned held an entry before the call, so that the probe met the key there.
      have hkey : e.key = k := by
        unfold advisorHashFindOrCreate at hfind
        split at hfind
        · rename_i idx hf
          have hnone := (find_eq_free_iff.mp hf).1
          have hidx : idx = i := by simpa using congrArg Prod.fst hfind
          rw [hidx, hi] at hnone
          cases hnone
        · rename_i idx hf
          obtain ⟨⟨v, hv, hvk⟩, -⟩ := find_eq_hit_iff.mp hf
          have hidx : idx = i := by simpa using congrArg Prod.fst hfind
          rw [hidx, hi] at hv
          cases hv
          exact hvk
        · simp at hfind
      exact hs.lookup_eq_some_iff.mpr ⟨i, hi, hkey⟩
  · rintro ⟨hs, rfl⟩
    refine ⟨fun i j e f hi hj hk => hs.slot_unique hi hj hk, hs, ?_, ?_⟩
    · intro k e hk
      obtain ⟨i, hi, hek⟩ := hs.lookup_eq_some_iff.mp hk
      refine ⟨i, ?_, hi⟩
      have hf : advisorHashFind t k = .hit i := hs.find_eq_hit hi hek
      simp only [advisorHashFindOrCreate, hf]
    · intro k hk i e hi
      exact hs.lookup_eq_none_iff.mp hk i e hi

/-- A call of `advisor_hash_find_or_create` with its updates keeps a table sound and is the map's
operation. -/
theorem findOrCreate_sound (hs : SoundTable t) (k : ColStatsKey) (cs : List (ℚ × ℤ)) :
    SoundTable ((TableOp.findOrCreate k cs).run t) ∧
      tableMap ((TableOp.findOrCreate k cs).run t) =
        (TableOp.findOrCreate k cs).runMap (tableMap t) := by
  cases hf : advisorHashFind t k with
  | free idx =>
    have hrun : (TableOp.findOrCreate k cs).run t =
        update t idx (some ((ColStatsEntry.fresh k).charges cs)) := by
      simp [TableOp.run, advisorHashFindOrCreate, hf]
    have hnone : tableMap t k = none := by simp [tableMap, lookup, hf]
    rw [hrun]
    refine ⟨hs.put (.inl hf) (by simp), ?_⟩
    rw [tableMap, hs.lookup_put (.inl hf) (by simp)]
    simp only [TableOp.runMap, hnone]
    rw [if_pos (hs.ncard_keys_of_free hf)]
  | hit idx =>
    obtain ⟨⟨e, he, hek⟩, -⟩ := find_eq_hit_iff.mp hf
    have hrun : (TableOp.findOrCreate k cs).run t =
        update t idx (some (e.charges cs)) := by
      simp [TableOp.run, advisorHashFindOrCreate, hf, he]
    have hsome : tableMap t k = some e := hs.lookup_eq_some_iff.mpr ⟨idx, he, hek⟩
    rw [hrun]
    refine ⟨hs.put (.inr hf) (by simp [hek]), ?_⟩
    rw [tableMap, hs.lookup_put (.inr hf) (by simp [hek])]
    simp only [TableOp.runMap, hsome]
  | full =>
    have hrun : (TableOp.findOrCreate k cs).run t = t := by
      simp [TableOp.run, advisorHashFindOrCreate, hf]
    have hnone : tableMap t k = none := by simp [tableMap, lookup, hf]
    rw [hrun]
    refine ⟨hs, ?_⟩
    -- The table is full, and the map refuses the key as well: all 2048 keys are tracked.
    simp only [TableOp.runMap, hnone]
    rw [if_neg]
    rw [hs.ncard_keys_of_full hf]
    exact lt_irrefl _

/-- `advisor_hash_remove` empties the slot where the probe finds the key. -/
theorem advisorHashRemove_eq_clear (t : AdvisorHash) (k : ColStatsKey) :
    advisorHashRemove t k = clear t (fun j => advisorHashFind t k = .hit j) := by
  funext j
  unfold advisorHashRemove clear
  cases hf : advisorHashFind t k with
  | free i => simp
  | full => simp
  | hit i =>
    by_cases hji : j = i
    · simp [hji]
    · simp [update_of_ne hji, Ne.symm hji]

/-- `advisor_hash_evict_stale` empties the slots whose entries are stale. -/
theorem advisorHashEvictStale_eq_clear (now : ℤ) (window_days : ℕ) (t : AdvisorHash) :
    advisorHashEvictStale now window_days t =
      clear t (fun j => (t j).any (fun e => e.stale now window_days) = true) := by
  funext j
  unfold advisorHashEvictStale clear
  cases ht : t j with
  | none => simp
  | some e => cases hst : e.stale now window_days <;> simp [ht, hst, Option.filter]

/-- A call on a sound table leaves it sound exactly when it deletes safely. -/
theorem run_sound_iff (hs : SoundTable t) (op : TableOp) :
    SoundTable (op.run t) ↔ DeletesSafely t op := by
  cases op with
  | findOrCreate k cs => exact iff_of_true (findOrCreate_sound hs k cs).1 trivial
  | remove k =>
    rw [TableOp.run, advisorHashRemove_eq_clear, SoundTable, hs.clear_iff]
    constructor
    · intro h i hi j e hji hj
      refine h i j e hi ?_ hj
      rw [hi]
      simpa using Ne.symm hji
    · intro h i j e hi hj he
      refine h i hi j e ?_ he
      rintro rfl
      exact hj hi
  | evictStale now window_days =>
    rw [TableOp.run, advisorHashEvictStale_eq_clear, SoundTable, hs.clear_iff]
    constructor
    · intro h i j d e hi hd hj he
      exact h i j e (by simp [hi, hd]) (by simp [hj, he]) hj
    · intro h i j e hi hj he
      obtain ⟨d, hd, hst⟩ := any_eq_true .. |>.mp hi
      refine h i j d e hd hst he ?_
      simpa [he] using hj

/-- A call that leaves the table sound is the map's operation. -/
theorem tableMap_run (hs : SoundTable t) (op : TableOp) (hs' : SoundTable (op.run t)) :
    tableMap (op.run t) = op.runMap (tableMap t) := by
  cases op with
  | findOrCreate k cs => exact (findOrCreate_sound hs k cs).2
  | remove k =>
    rw [TableOp.run, advisorHashRemove_eq_clear] at hs' ⊢
    funext k'
    apply ext
    intro e
    rw [tableMap, Sound.lookup_clear_eq_some_iff hs', TableOp.runMap]
    by_cases hkk : k' = k
    · -- The removed key: its one slot is the slot cleared.
      subst hkk
      rw [update_self]
      constructor
      · rintro ⟨i, hi, hv, hk⟩
        exact absurd (hs.find_eq_hit hv hk) hi
      · rintro ⟨⟩
    · -- Another key: the slot cleared does not hold it.
      rw [update_of_ne hkk, hs.lookup_eq_some_iff]
      constructor
      · rintro ⟨i, -, hv, hk⟩
        exact ⟨i, hv, hk⟩
      · rintro ⟨i, hv, hk⟩
        refine ⟨i, ?_, hv, hk⟩
        intro hhit
        obtain ⟨⟨w, hw, hwk⟩, -⟩ := find_eq_hit_iff.mp hhit
        rw [hv] at hw
        cases hw
        exact hkk (hk.symm.trans hwk)
  | evictStale now window_days =>
    rw [TableOp.run, advisorHashEvictStale_eq_clear] at hs' ⊢
    funext k
    apply ext
    intro e
    rw [tableMap, Sound.lookup_clear_eq_some_iff hs', TableOp.runMap, filter_eq_some_iff,
      hs.lookup_eq_some_iff]
    constructor
    · rintro ⟨i, hi, hv, hk⟩
      exact ⟨⟨i, hv, hk⟩, by simpa [hv] using hi⟩
    · rintro ⟨⟨i, hv, hk⟩, hst⟩
      exact ⟨i, by simpa [hv] using hst, hv, hk⟩

/-! ## Whole runs -/

/-- A run with one more call. -/
theorem tableAfter_concat (ops : List TableOp) (op : TableOp) :
    tableAfter (ops ++ [op]) = op.run (tableAfter ops) := by
  simp [tableAfter]

/-- The table is sound after every call of a run from the empty table, if and only if every call
deletes safely in the table that it meets. -/
theorem sound_run_iff (ops : List TableOp) :
    (∀ n ≤ ops.length, SoundTable (tableAfter (ops.take n))) ↔
      ∀ n op, ops[n]? = some op → DeletesSafely (tableAfter (ops.take n)) op := by
  -- The induction is on the run's last call; the call before it leaves a sound table on both sides.
  induction ops using List.reverseRecOn with
  | nil =>
    refine iff_of_true ?_ (by simp)
    intro n _
    rw [List.take_nil]
    exact sound_empty
  | append_singleton ops op ih =>
    rw [Runs.forall_take_concat (fun l => SoundTable (tableAfter l)),
      Runs.forall_call_concat (fun l => DeletesSafely (tableAfter l)), ← ih]
    refine and_congr_right fun h => ?_
    have hs := h ops.length le_rfl
    rw [List.take_length] at hs
    rw [tableAfter_concat, run_sound_iff hs op]

/-- A run that leaves the table sound after every call ends with the table of the map. -/
theorem tableMap_tableAfter (ops : List TableOp)
    (h : ∀ n ≤ ops.length, SoundTable (tableAfter (ops.take n))) :
    tableMap (tableAfter ops) = mapAfter ops := by
  induction ops using List.reverseRecOn with
  | nil =>
    funext k
    have hs : SoundTable (tableAfter []) := sound_empty
    exact hs.lookup_eq_none_iff.mpr (by simp [tableAfter, AdvisorHash.empty])
  | append_singleton ops op ih =>
    rw [Runs.forall_take_concat (fun l => SoundTable (tableAfter l)), tableAfter_concat] at h
    obtain ⟨hops, hs'⟩ := h
    have hs := hops ops.length le_rfl
    rw [List.take_length] at hs
    rw [tableAfter_concat, tableMap_run hs op hs', ih hops]
    simp [mapAfter]

/-- A run whose calls delete safely ends with a table that represents the map. -/
theorem refines_of_deletesSafely {ops : List TableOp}
    (h : ∀ n op, ops[n]? = some op → DeletesSafely (tableAfter (ops.take n)) op) :
    Refines (tableAfter ops) (mapAfter ops) := by
  have hsound := (sound_run_iff ops).mpr h
  have hlast := hsound ops.length le_rfl
  rw [List.take_length] at hlast
  exact refines_iff_sound.mpr ⟨hlast, tableMap_tableAfter ops hsound⟩

/-- After every call of a run from the empty table the table represents the map, if and only if
every call of the run deletes safely in the table that it meets. -/
theorem table_refines_iff (ops : List TableOp) :
    (∀ n ≤ ops.length, Refines (tableAfter (ops.take n)) (mapAfter (ops.take n))) ↔
      ∀ n op, ops[n]? = some op → DeletesSafely (tableAfter (ops.take n)) op := by
  constructor
  · intro h
    refine (sound_run_iff ops).mp fun n hn => ?_
    exact (refines_iff_sound.mp (h n hn)).1
  · -- An initial part of a run whose calls delete safely is one as well.
    intro h n _
    refine refines_of_deletesSafely fun m op hop => ?_
    have hmn : m < n := by
      have hlt := (List.getElem?_eq_some_iff.mp hop).1
      rw [List.length_take] at hlt
      omega
    rw [List.getElem?_take_of_lt hmn] at hop
    rw [List.take_take, min_eq_left hmn.le]
    exact h m op hop

/-- Column 32 of relation 16384 and column 1 of relation 16385 hash to the same slot. -/
def collidingRun : List TableOp :=
  [.findOrCreate ⟨16384, 32, .USAGE_PREDICATE⟩ [(10, 1)],
    .findOrCreate ⟨16385, 1, .USAGE_PREDICATE⟩ [(20, 1)],
    .remove ⟨16384, 32, .USAGE_PREDICATE⟩]

/-- Two colliding columns are tracked and the first is removed: the probe for the second stops at
the cleared slot, one before the slot that holds its entry. -/
theorem collidingRun_not_refines :
    ¬ ∀ n ≤ collidingRun.length,
      Refines (tableAfter (collidingRun.take n)) (mapAfter (collidingRun.take n)) := by
  intro h
  have href := h 3 (by decide)
  have hslot : tableAfter (collidingRun.take 3) 1105 =
      some ⟨⟨16385, 1, .USAGE_PREDICATE⟩, 1, 20, 1⟩ := by decide +kernel
  have hfind : advisorHashFind (tableAfter (collidingRun.take 3)) ⟨16385, 1, .USAGE_PREDICATE⟩ ≠
      .hit 1105 := by decide +kernel
  exact hfind (href.reached _ _ hslot)

end PgAutoIndex.AutoIndex
