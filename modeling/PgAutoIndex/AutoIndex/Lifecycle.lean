import PgAutoIndex.AutoIndex.AdvisorOutcomes

/-!
# The lifecycle pass

`autoindex_run_lifecycle` of `index_lifecycle.c`: a query for the automatic indexes without scans,
and a loop that drops them one after another. The loop reads its bound and its rows from
`SPI_processed` and `SPI_tuptable`, which every call of `SPI_execute` overwrites. The first `DROP
INDEX` leaves a bound of zero and no rows, so that the loop ends there: `autoindexRunLifecycle_eq`
says that a pass drops the first row on a relation that is not a system relation, and nothing else.
All such rows are gone exactly when the others are attached to the first one, a partitioned index
(`lifecycle_drops_all_iff`).
-/

namespace PgAutoIndex.AutoIndex

open List

/-! ## The pass -/

/-- The globals in which SPI returns its results. -/
structure Spi where
  processed : ℕ
  /-- The rows, `none` for a null pointer. -/
  tuptable : Option (List PgIndex)

/-- The globals after a `SELECT`. -/
def Spi.ofSelect (rows : List PgIndex) : Spi := ⟨rows.length, some rows⟩

/-- The globals after a utility command that returns no rows. -/
def Spi.ofUtility : Spi := ⟨0, none⟩

/-- How a pass can end other than by returning. -/
inductive LifecycleError where
  /-- A statement raises an error. -/
  | sql (e : SqlError)
  /-- A row is read through a null pointer, or past the end of the rows. -/
  | badRow
  | outOfFuel
  deriving DecidableEq

/-- What a pass meets: the order in which its query returns rows, and which statements raise an
error. -/
structure LifecycleInput where
  order : List PgIndex → List PgIndex
  order_perm : ∀ rows, (order rows).Perm rows
  selectRaises : Bool
  dropRaises : PgIndex → Bool

/-- The rows of the pass's query: indexes whose name matches the pattern, and whose scan counter is
zero or missing. -/
def unusedAutoIndexes (idx_scan : PgIndex → Option ℕ) (cat : Catalog) : List PgIndex :=
  cat.indexes.filter fun i => likeAutoIndex i.relname && (idx_scan i).getD 0 == 0

/-- The index is on a relation that is not a system relation. -/
def PgIndex.droppable (i : PgIndex) : Bool := !(i.indrelid < FirstNormalObjectId)

/-- `DROP INDEX IF EXISTS`. An index that is attached to a partitioned index cannot be dropped
alone. -/
def dropIndex (dropRaises : PgIndex → Bool) (cat : Catalog) (row : PgIndex) :
    Except SqlError Catalog :=
  if row.ancestors ≠ [] then .error (.dependentObjectsStillExist row.relname)
  else if dropRaises row then .error .raised
  else .ok (cat.drop row.name)

/-- The loop, at row `i`. -/
def lifecycleLoop (dropRaises : PgIndex → Bool) :
    ℕ → ℕ → Spi → Catalog → Except LifecycleError Catalog
  | 0, _, _, _ => .error .outOfFuel
  | fuel + 1, i, spi, cat =>
    -- Both globals are read anew in every iteration.
    if i < spi.processed then
      match spi.tuptable.bind fun rows => rows[i]? with
      | none => .error .badRow
      | some row =>
        if row.droppable then
          match dropIndex dropRaises cat row with
          | .error e => .error (.sql e)
          | .ok cat => lifecycleLoop dropRaises fuel (i + 1) .ofUtility cat
        else lifecycleLoop dropRaises fuel (i + 1) spi cat
    else .ok cat

/-- `autoindex_run_lifecycle`. -/
def autoindexRunLifecycle (x : LifecycleInput) (idx_scan : PgIndex → Option ℕ) (cat : Catalog) :
    Except LifecycleError Catalog :=
  if x.selectRaises then .error (.sql .raised)
  else
    let rows := x.order (unusedAutoIndexes idx_scan cat)
    lifecycleLoop x.dropRaises (rows.length + 1) 0 (.ofSelect rows) cat

/-! ## What a pass drops -/

/-- What a pass does with the first row that is on no system relation. -/
def dropFirst (dropRaises : PgIndex → Bool) (rows : List PgIndex) (cat : Catalog) :
    Except LifecycleError Catalog :=
  match rows.find? PgIndex.droppable with
  | none => .ok cat
  | some row => (dropIndex dropRaises cat row).mapError .sql

/-- The loop ends past the last row, and after a drop. -/
theorem lifecycleLoop_of_le (dropRaises : PgIndex → Bool) (fuel : ℕ) {i : ℕ} {spi : Spi}
    (h : spi.processed ≤ i) (cat : Catalog) :
    lifecycleLoop dropRaises (fuel + 1) i spi cat = .ok cat := by
  rw [lifecycleLoop, if_neg (by omega)]

/-- The loop ends with the first row that it drops, and does not run out of fuel. -/
theorem lifecycleLoop_eq (dropRaises : PgIndex → Bool) (rows : List PgIndex) (cat : Catalog)
    (fuel i : ℕ) (hfuel : rows.length ≤ i + fuel) :
    lifecycleLoop dropRaises (fuel + 1) i (.ofSelect rows) cat =
      dropFirst dropRaises (rows.drop i) cat := by
  induction fuel generalizing i with
  | zero =>
    rw [add_zero] at hfuel
    rw [lifecycleLoop_of_le dropRaises 0 hfuel, drop_eq_nil_of_le hfuel]
    rfl
  | succ fuel ih =>
    rcases lt_or_ge i rows.length with hlt | hge
    · have hrow : (Spi.ofSelect rows).tuptable.bind (fun rows => rows[i]?) = some rows[i] := by
        simp [Spi.ofSelect, hlt]
      have hnext := ih (i + 1) (by omega)
      -- A drop leaves a bound of zero, so that the next test ends the loop.
      have hzero : Spi.ofUtility.processed ≤ i + 1 := Nat.zero_le _
      have hend := lifecycleLoop_of_le dropRaises fuel hzero
      rw [lifecycleLoop, if_pos (by simpa [Spi.ofSelect] using hlt), hrow,
        drop_eq_getElem_cons hlt, dropFirst, find?_cons]
      simp only [hend, hnext]
      cases rows[i].droppable with
      | false => rfl
      | true =>
        simp only [if_true]
        cases dropIndex dropRaises cat rows[i] <;> rfl
    · rw [lifecycleLoop_of_le dropRaises _ hge, drop_eq_nil_of_le hge]
      rfl

/-- A pass drops the first of its rows that is on no system relation, and nothing else. -/
theorem autoindexRunLifecycle_eq (x : LifecycleInput) (idx_scan : PgIndex → Option ℕ)
    (cat : Catalog) :
    autoindexRunLifecycle x idx_scan cat =
      if x.selectRaises then .error (.sql .raised)
      else dropFirst x.dropRaises (x.order (unusedAutoIndexes idx_scan cat)) cat := by
  unfold autoindexRunLifecycle
  rw [lifecycleLoop_eq _ _ _ _ _ (by omega), drop_zero]

/-- The first row that the query of a pass returns on a relation that is not a system relation. -/
def firstDroppable (x : LifecycleInput) (idx_scan : PgIndex → Option ℕ) (cat : Catalog) :
    Option PgIndex :=
  (x.order (unusedAutoIndexes idx_scan cat)).find? PgIndex.droppable

/-- That row is one of the rows, and not on a system relation. -/
theorem firstDroppable_eq_some {x : LifecycleInput} {idx_scan : PgIndex → Option ℕ} {cat : Catalog}
    {row : PgIndex} (h : firstDroppable x idx_scan cat = some row) :
    row ∈ unusedAutoIndexes idx_scan cat ∧ row.droppable = true :=
  ⟨(x.order_perm _).mem_iff.mp (mem_of_find?_eq_some h), find?_some h⟩

/-- A pass that returns has dropped the first row that it could drop, or there was none. -/
theorem autoindexRunLifecycle_ok {x : LifecycleInput} {idx_scan : PgIndex → Option ℕ}
    {cat cat' : Catalog} (h : autoindexRunLifecycle x idx_scan cat = .ok cat') :
    (cat' = cat ∧ ∀ i ∈ unusedAutoIndexes idx_scan cat, i.droppable = false) ∨
      ∃ row, firstDroppable x idx_scan cat = some row ∧ x.selectRaises = false ∧
        row.ancestors = [] ∧ x.dropRaises row = false ∧ cat' = cat.drop row.name := by
  rw [autoindexRunLifecycle_eq, dropFirst] at h
  have hperm := x.order_perm (unusedAutoIndexes idx_scan cat)
  split_ifs at h with hselect
  split at h
  · rename_i hnone
    refine .inl ⟨(Except.ok.inj h).symm, fun i hi => ?_⟩
    have hnot := find?_eq_none.mp hnone i (hperm.mem_iff.mpr hi)
    simpa using hnot
  · rename_i row hrow
    unfold dropIndex at h
    split_ifs at h with hattached hdrop
    · cases h
    · cases h
    · exact .inr ⟨row, hrow, by simpa using hselect, by simpa using hattached, by simpa using hdrop,
        (Except.ok.inj h).symm⟩

/-- A pass that has a row to drop and meets no error drops it. -/
theorem autoindexRunLifecycle_of_first {x : LifecycleInput} {idx_scan : PgIndex → Option ℕ}
    {cat : Catalog} {row : PgIndex} (h : firstDroppable x idx_scan cat = some row)
    (hselect : x.selectRaises = false) (hattached : row.ancestors = [])
    (hdrop : x.dropRaises row = false) :
    autoindexRunLifecycle x idx_scan cat = .ok (cat.drop row.name) := by
  unfold firstDroppable at h
  simp [autoindexRunLifecycle_eq, dropFirst, dropIndex, h, hselect, hattached, hdrop,
    Except.mapError]

/-- The test that protects system relations. -/
theorem droppable_iff {i : PgIndex} : i.droppable = true ↔ FirstNormalObjectId ≤ i.indrelid := by
  simp [PgIndex.droppable]

/-- After a pass that returns, none of the rows on a relation that is not a system relation still
exists, if and only if all of them but the first are attached to the first. -/
theorem lifecycle_drops_all_iff (x : LifecycleInput) (idx_scan : PgIndex → Option ℕ)
    (cat cat' : Catalog) (h : autoindexRunLifecycle x idx_scan cat = .ok cat') :
    (∀ row ∈ unusedAutoIndexes idx_scan cat, FirstNormalObjectId ≤ row.indrelid →
        row ∉ cat'.indexes) ↔
      ∀ first, firstDroppable x idx_scan cat = some first →
        ∀ row ∈ unusedAutoIndexes idx_scan cat, FirstNormalObjectId ≤ row.indrelid →
          row = first ∨ first.name ∈ row.ancestors := by
  rcases autoindexRunLifecycle_ok h with ⟨rfl, hnone⟩ | ⟨first, hfirst, -, -, -, rfl⟩
  · -- There was nothing to drop.
    have hsystem : ∀ row ∈ unusedAutoIndexes idx_scan cat', ¬ FirstNormalObjectId ≤
      row.indrelid := by
      intro row hrow hrel
      rw [← droppable_iff, hnone row hrow] at hrel
      cases hrel
    exact iff_of_true (fun row hrow hrel => absurd hrel (hsystem row hrow))
      fun first _ row hrow hrel => absurd hrel (hsystem row hrow)
  · have hmem : first ∈ cat.indexes := mem_of_mem_filter (firstDroppable_eq_some hfirst).1
    simp only [hfirst, Option.some.injEq, forall_eq']
    refine forall₂_congr fun row hrow => imp_congr_right fun _ => ?_
    -- What is gone has the name of the first row, or is attached to it.
    rw [cat.not_mem_drop (mem_of_mem_filter hrow)]
    refine or_congr_left ⟨cat.eq_of_name (mem_of_mem_filter hrow) hmem, ?_⟩
    rintro rfl
    rfl

/-- A pass whose query returns the rows in catalog order, and whose statements succeed. -/
def quietLifecycle : LifecycleInput where
  order := id
  order_perm := fun _ => .refl _
  selectRaises := false
  dropRaises := fun _ => false

/-- The automatic index on `orders.id`. -/
def ordersIdIndex : PgIndex := ⟨"autoindex_orders_id", 2200, 16384, 1, "id", []⟩

/-- The automatic index on `orders.customer`. -/
def ordersCustomerIndex : PgIndex := ⟨"autoindex_orders_customer", 2200, 16384, 2, "customer", []⟩

/-- Neither of two automatic indexes has a scan: the pass drops the first and leaves the second. -/
theorem lifecycle_leaves_second :
    ∃ cat', autoindexRunLifecycle quietLifecycle (fun _ => some 0)
        ⟨[ordersTable], [ordersIdIndex, ordersCustomerIndex], by decide⟩ = .ok cat' ∧
      ¬ ∀ row ∈ unusedAutoIndexes (fun _ => some 0)
          ⟨[ordersTable], [ordersIdIndex, ordersCustomerIndex], by decide⟩,
        FirstNormalObjectId ≤ row.indrelid → row ∉ cat'.indexes :=
  ⟨⟨[ordersTable], [ordersCustomerIndex], by decide⟩, by decide, by decide⟩

/-- The partitioned table `events`. -/
def eventsTable : PgClass :=
  ⟨16386, "events", 2200, .PARTITIONED_TABLE, -1, 0, [⟨1, "at"⟩]⟩

/-- A partition of it. -/
def eventsPartition : PgClass := ⟨16387, "events_1", 2200, .RELATION, 1000, 10, [⟨1, "at"⟩]⟩

/-- An automatic index on the partitioned table. -/
def eventsIndex : PgIndex := ⟨"autoindex_events_at", 2200, 16386, 1, "at", []⟩

/-- The index on the partition, attached to that one. -/
def eventsPartitionIndex : PgIndex :=
  ⟨"autoindex_events_1_at", 2200, 16387, 1, "at", [(2200, "autoindex_events_at")]⟩

/-- A database with the table, its partition and the two indexes. -/
def eventsCatalog : Catalog :=
  ⟨[eventsTable, eventsPartition], [eventsIndex, eventsPartitionIndex], by decide⟩

/-- Two automatic indexes, of which one is attached to the other, are dropped together. -/
theorem lifecycle_drops_attached :
    unusedAutoIndexes (fun _ => none) eventsCatalog = [eventsIndex, eventsPartitionIndex] ∧
      ∃ cat', autoindexRunLifecycle quietLifecycle (fun _ => none) eventsCatalog = .ok cat' ∧
        ∀ row ∈ unusedAutoIndexes (fun _ => none) eventsCatalog,
          FirstNormalObjectId ≤ row.indrelid → row ∉ cat'.indexes := by
  have hpass : autoindexRunLifecycle quietLifecycle (fun _ => none) eventsCatalog =
      .ok ⟨[eventsTable, eventsPartition], [], by decide⟩ := by decide
  refine ⟨by decide, _, hpass, (lifecycle_drops_all_iff _ _ _ _ hpass).mpr ?_⟩
  intro first hfirst
  obtain rfl : eventsIndex = first := Option.some.inj hfirst
  decide

end PgAutoIndex.AutoIndex
