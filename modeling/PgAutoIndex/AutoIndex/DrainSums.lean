import PgAutoIndex.AutoIndex.TableMap

/-!
# What a drain adds up

A drain of entries into the empty tracking table charges each column once for every mention of it.
Slots are placed by linear probing, so that where a column ends up depends on the order of the
entries; what has been charged to it does not. As long as the entries mention no more columns than
the table has slots, the table is the map that sends each column to its charges in the order of the
entries (`tableMap_drainEntries`), and counts and sums are the same for every order
(`drain_sums_perm`).
-/

namespace PgAutoIndex.AutoIndex

open List

/-! ## The charges to one column -/

/-- The columns that a list of entries mentions. -/
def drainedColumns (es : List WorkloadEntry) : Finset ColStatsKey :=
  (es.flatMap WorkloadEntry.charged).toFinset

/-- The charges that a drain of the entries makes to one column, in order: one for each mention. -/
def chargesTo (es : List WorkloadEntry) (k : ColStatsKey) : List (ℚ × ℤ) :=
  es.flatMap fun e => replicate (e.charged.count k) (e.plan_cost, e.ts)

/-- An entry with the charges to its column, if there are any. -/
def chargedEntry (k : ColStatsKey) (cs : List (ℚ × ℤ)) : Option ColStatsEntry :=
  if cs = [] then none else some ((ColStatsEntry.fresh k).charges cs)

/-- Charges are added up. -/
theorem ColStatsEntry.charges_eq (e : ColStatsEntry) (cs : List (ℚ × ℤ)) :
    e.charges cs = ⟨e.key, e.exec_count + cs.length, e.cumulative_rent + (cs.map Prod.fst).sum,
      (cs.getLast?.map Prod.snd).getD e.last_seen⟩ := by
  induction cs using reverseRecOn with
  | nil => simp [charges]
  | append_singleton cs c ih =>
    unfold charges at ih ⊢
    rw [foldl_append, ih]
    simp [charge, add_assoc]

variable {t : AdvisorHash}

/-- One charge to a table that stands for the charges `f`, with room for one more column if the
column is new. -/
theorem chargeColumn_sound {f : ColStatsKey → List (ℚ × ℤ)} (hs : SoundTable t)
    (ht : ∀ k, tableMap t k = chargedEntry k (f k)) (k : ColStatsKey) (c : ℚ × ℤ)
    (hroom : f k = [] → {k | f k ≠ []}.ncard < ADVISOR_HASH_SIZE) :
    SoundTable (chargeColumn c.1 c.2 t k) ∧ ∀ j, tableMap (chargeColumn c.1 c.2 t k) j =
      chargedEntry j (f j ++ if k = j then [c] else []) := by
  obtain ⟨hsound, hmap⟩ := findOrCreate_sound hs k [c]
  refine ⟨hsound, fun j => ?_⟩
  have hkeys : {k | tableMap t k ≠ none} = {k | f k ≠ []} := by
    ext j
    simp [ht, chargedEntry]
  have hrun : chargeColumn c.1 c.2 t k = (TableOp.findOrCreate k [c]).run t := rfl
  rw [hrun, hmap, TableOp.runMap, hkeys, ht]
  by_cases hk : f k = []
  · rw [if_pos (hroom hk)]
    by_cases hj : k = j
    · subst hj
      simp [chargedEntry, hk]
    · simp [chargedEntry, hk, hj, ht, Function.update_of_ne (Ne.symm hj)]
  · by_cases hj : k = j
    · subst hj
      simp [chargedEntry, hk, ColStatsEntry.charges]
    · simp [chargedEntry, hk, hj, ht, Function.update_of_ne (Ne.symm hj)]

/-- The charges of a list of entries, one after the other. -/
def chargeList (es : List WorkloadEntry) : List (ColStatsKey × ℚ × ℤ) :=
  es.flatMap fun e => e.charged.map fun k => (k, e.plan_cost, e.ts)

/-- The charges of a list that go to one column. -/
theorem filter_chargeList (es : List WorkloadEntry) (k : ColStatsKey) :
    ((chargeList es).filter (·.1 = k)).map Prod.snd = chargesTo es k := by
  unfold chargeList chargesTo
  rw [filter_flatMap, map_flatMap]
  congr 1
  funext e
  rw [filter_map, map_map, Function.comp_def, map_const', ← countP_eq_length_filter]
  rfl

/-- A drain makes its charges one after the other. -/
theorem drainEntries_eq_foldl (t : AdvisorHash) (es : List WorkloadEntry) :
    drainEntries t es = (chargeList es).foldl (fun t c => chargeColumn c.2.1 c.2.2 t c.1) t := by
  rw [chargeList, foldl_flatMap]
  simp only [foldl_map]
  rfl

/-- A list of charges to no more columns than there are slots leaves the empty table with each
column's charges. -/
theorem foldl_charge_sound (cs : List (ColStatsKey × ℚ × ℤ))
    (hcap : (cs.map Prod.fst).toFinset.card ≤ ADVISOR_HASH_SIZE) :
    SoundTable (cs.foldl (fun t c => chargeColumn c.2.1 c.2.2 t c.1) .empty) ∧
      ∀ k, tableMap (cs.foldl (fun t c => chargeColumn c.2.1 c.2.2 t c.1) .empty) k =
        chargedEntry k ((cs.filter (·.1 = k)).map Prod.snd) := by
  induction cs using reverseRecOn with
  | nil =>
    have hs : SoundTable .empty := LinearProbing.sound_empty
    exact ⟨hs, fun k => hs.lookup_eq_none_iff.mpr (by simp [AdvisorHash.empty])⟩
  | append_singleton cs c ih =>
    have hsub : (cs.map Prod.fst).toFinset.card ≤ ((cs ++ [c]).map Prod.fst).toFinset.card :=
      Finset.card_le_card (by intro k; simp; tauto)
    obtain ⟨hs, ht⟩ := ih (hsub.trans hcap)
    rw [foldl_append, foldl_cons, foldl_nil]
    have hstep := chargeColumn_sound hs ht c.1 c.2 ?_
    · refine ⟨hstep.1, fun k => ?_⟩
      rw [hstep.2 k, filter_append, map_append]
      by_cases hk : c.1 = k <;> simp [hk]
    · -- A new column adds one to the columns so far.
      intro hnew
      have hkeys : {k | (cs.filter (·.1 = k)).map Prod.snd ≠ []} = ↑(cs.map Prod.fst).toFinset := by
        ext k
        simp
      have hmem : c.1 ∉ (cs.map Prod.fst).toFinset := by
        rw [← Finset.mem_coe, ← hkeys]
        exact not_not.mpr hnew
      have hcard : ((cs ++ [c]).map Prod.fst).toFinset = insert c.1 (cs.map Prod.fst).toFinset := by
        simp
      rw [hcard, Finset.card_insert_of_notMem hmem] at hcap
      rw [hkeys, Set.ncard_coe_finset]
      omega

/-- After a drain into the empty table, the probe for a column finds it with its charges. -/
theorem tableMap_drainEntries (es : List WorkloadEntry)
    (hcap : (drainedColumns es).card ≤ ADVISOR_HASH_SIZE) :
    SoundTable (drainEntries .empty es) ∧
      ∀ k, tableMap (drainEntries .empty es) k = chargedEntry k (chargesTo es k) := by
  have hkeys : (chargeList es).map Prod.fst = es.flatMap WorkloadEntry.charged := by
    simp [chargeList, map_flatMap, Function.comp_def]
  have hsound := foldl_charge_sound (chargeList es) (by rwa [hkeys])
  simpa only [← drainEntries_eq_foldl, filter_chargeList] using hsound

/-! ## Sums -/

/-- What the table has under a column: its count and its rent. -/
def tableSums (t : AdvisorHash) (k : ColStatsKey) : Option (ℕ × ℚ) :=
  (tableMap t k).map fun e => (e.exec_count, e.cumulative_rent)

/-- The sums over the mentions of a column in a list of entries, if there is one. -/
def keySums (es : List WorkloadEntry) (k : ColStatsKey) : Option (ℕ × ℚ) :=
  if k ∈ drainedColumns es then
    some ((es.map fun e => e.charged.count k).sum,
      (es.map fun e => (e.charged.count k : ℚ) * e.plan_cost).sum)
  else none

/-- The count and the rent of a drained column are the sums over its mentions. -/
theorem tableSums_drainEntries (es : List WorkloadEntry)
    (hcap : (drainedColumns es).card ≤ ADVISOR_HASH_SIZE) (k : ColStatsKey) :
    tableSums (drainEntries .empty es) k = keySums es k := by
  have hnil : chargesTo es k = [] ↔ k ∉ drainedColumns es := by
    simp [chargesTo, drainedColumns, count_eq_zero]
  rw [tableSums, (tableMap_drainEntries es hcap).2 k, chargedEntry, keySums]
  by_cases hk : k ∈ drainedColumns es
  · rw [if_neg (by simpa [hnil] using hk), if_pos hk, Option.map_some, ColStatsEntry.charges_eq]
    simp [ColStatsEntry.fresh, chargesTo, flatMap_def, sum_flatten, Function.comp_def]
  · rw [if_pos (hnil.mpr hk), if_neg hk, Option.map_none]

/-- Two orders of the same entries, which mention at most 2048 columns, leave the empty table with
the same count and the same rent under every column, in one slot each: the sums over the column's
mentions. -/
theorem drain_sums_perm (es es' : List WorkloadEntry) (hperm : es'.Perm es)
    (hcap : (drainedColumns es).card ≤ ADVISOR_HASH_SIZE) :
    SoundTable (drainEntries .empty es') ∧ ∀ k,
      tableSums (drainEntries .empty es') k = tableSums (drainEntries .empty es) k ∧
      tableSums (drainEntries .empty es) k = keySums es k := by
  have hcolumns : drainedColumns es' = drainedColumns es :=
    toFinset_eq_of_perm _ _ (hperm.flatMap_right _)
  have hcap' : (drainedColumns es').card ≤ ADVISOR_HASH_SIZE := by rwa [hcolumns]
  refine ⟨(tableMap_drainEntries es' hcap').1, fun k => ⟨?_, tableSums_drainEntries es hcap k⟩⟩
  rw [tableSums_drainEntries es' hcap', tableSums_drainEntries es hcap, keySums, keySums, hcolumns,
    (hperm.map _).sum_eq, (hperm.map _).sum_eq]

/-- Two columns of one hash value, in both orders. -/
theorem drain_sums_perm_colliding :
    tableSums (drainEntries .empty
        [.onePredicate 16385 1 20 2, .onePredicate 16384 32 10 1]) ⟨16384, 32, .USAGE_PREDICATE⟩ =
      tableSums (drainEntries .empty
        [.onePredicate 16384 32 10 1, .onePredicate 16385 1 20 2]) ⟨16384, 32, .USAGE_PREDICATE⟩ :=
  ((drain_sums_perm _ _ (.swap _ _ []) (by decide)).2 _).1

end PgAutoIndex.AutoIndex
