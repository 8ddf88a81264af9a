import PgAutoIndex.AutoIndex.AdvisorPass

/-!
# Failure, cap and purchase

Four properties of advisor passes, compared with the lists of removals and orders that say what a
pass does. A pass that fails keeps the rent of the columns without an index exactly when the
removals before the failing statement were all of columns that had an index before the pass
(`advisor_failure_keeps_iff`), because the abort brings back the catalog alone. Passes keep every
table within its cap exactly when each of them builds no more than what its snapshot leaves room for
(`advisor_cap_iff`), because the cap is checked against the snapshot for every candidate. The
removed columns have their indexes after a pass that commits exactly when each had one before or is
among the indexes built (`advisor_bought_iff`), because the command finds its table by an
unqualified name and takes any relation of its index's name for the index. And a pass comes to its
end and serves every column exactly when all its commands are accepted
(`advisor_survives_drops_iff`), so that a table that has been dropped blocks the others when its
column triggers.
-/

namespace PgAutoIndex.AutoIndex

open List

variable {sv : Server} {cat : Catalog} {t : AdvisorHash}

/-! ## A pass that fails -/

/-- The pass raises an error when it has handled `m` of its candidates. An error in an estimate
comes before the first of them. -/
def FailsAt (sv : Server) (x : PassInput) (cat : Catalog) (t : AdvisorHash) (m : ℕ) : Prop :=
  (∃ e, autoindexRunAdvisor sv x cat t = .error e) ∧ (finishedCandidates sv x cat t).length = m

/-- After a pass that fails at its candidate `m`, every tracked column without an index still has
its entry with its rent, if and only if every key removed for the `m` candidates before it, those
with a table below its cap, is of a column that had an index before the pass. -/
theorem advisor_failure_keeps_iff (sv : Server) (x : PassInput) (cat : Catalog) (t : AdvisorHash)
    (m : ℕ) (h : FailsAt sv x cat t m) :
    (∀ i cs, passTable sv x t i = some cs →
        ¬ (autoIndexMainPass sv x cat t).catalog.Indexed cs.key.relid cs.key.attnum →
        (autoIndexMainPass sv x cat t).table i = some cs) ↔
      ∀ n k, (removals sv cat ((passCandidates sv cat (passTable sv x t)).take m))[n]? = some k →
        ∀ i, advisorHashFind
          (((removals sv cat ((passCandidates sv cat (passTable sv x t)).take m)).take n).foldl
            advisorHashRemove (passTable sv x t)) k = .hit i → cat.Indexed k.relid k.attnum := by
  obtain ⟨⟨e, he⟩, hm⟩ := h
  -- The abort brings back the catalog, and the removals stay.
  have hcatalog : (autoIndexMainPass sv x cat t).catalog = cat := by
    rw [autoIndexMainPass_of_error he]
  have hfinished : finishedCandidates sv x cat t =
      (passCandidates sv cat (passTable sv x t)).take m := by
    rw [← hm]
    exact prefix_iff_eq_take.mp (finishedCandidates_initial sv x cat t)
  rw [hcatalog, autoIndexMainPass_table, hfinished]
  exact foldl_remove_keeps_iff _ _ fun k => cat.Indexed k.relid k.attnum

/-- A pass raises some error, or commits in some state. -/
theorem error_or_ok {ε α : Type} (r : Except ε α) : (∃ e, r = .error e) ∨ ∃ a, r = .ok a := by
  cases r with
  | error e => exact .inl ⟨e, rfl⟩
  | ok a => exact .inr ⟨a, rfl⟩

/-- A pass that is seen not to commit raises some error. -/
theorem exists_error_of_isOk {ε α : Type} {r : Except ε α} (h : r.isOk = false) :
    ∃ e, r = .error e := by
  rcases error_or_ok r with herror | ⟨a, rfl⟩
  · exact herror
  · cases h

/-- A pass that is seen to commit ends in some state. -/
theorem exists_ok_of_isOk {ε α : Type} {r : Except ε α} (h : r.isOk = true) : ∃ a, r = .ok a := by
  rcases error_or_ok r with ⟨e, rfl⟩ | hok
  · cases h
  · exact hok

/-- A server with a cap of one index per table, on which one execution is enough. -/
def smallServer : Server where
  toSettings :=
    { Settings.default with
      min_exec_freq := 1
      max_indexes_per_table := 1
      min_exec_freq_range := by decide
      max_indexes_per_table_range := by decide }
  seq_page_cost := 1
  cpu_operator_cost := 1 / 400
  log := fun _ => 7
  search_path := [11, 2200]
  system_schemas := [11, 99]
  reserved := fun _ => false
  otherSql := fun _ _ => .error .raised

/-- The table `orders` of the schema `public`, with two columns. -/
def ordersTable : PgClass :=
  ⟨16384, "orders", 2200, .RELATION, 1000, 10, [⟨1, "id"⟩, ⟨2, "customer"⟩]⟩

/-- A database with that table and no index. -/
def ordersCatalog : Catalog := ⟨[ordersTable], [], by decide⟩

/-- A pass that drains two queries and meets no other error: one on `orders.customer`, and one on a
table that has been dropped since. -/
def droppedTablePass : PassInput where
  now := 2
  drained := [.onePredicate 16384 2 500 1, .onePredicate 16385 1 200 1]
  raises := fun _ => false

/-- The same database with an index on `orders.customer`. -/
def indexedCatalog : Catalog :=
  ⟨[ordersTable], [⟨"orders_customer_idx", 2200, 16384, 2, "customer", []⟩], by decide⟩

/-- The first candidate gets its index and loses its entry, the second raises an error, and the
abort takes back the index: `orders.customer` is left with neither rent nor index. -/
theorem advisor_failure_loses_rent :
    (∃ e, autoindexRunAdvisor smallServer droppedTablePass ordersCatalog .empty = .error e) ∧
      ¬ ∀ i cs, passTable smallServer droppedTablePass .empty i = some cs →
        ¬ (autoIndexMainPass smallServer droppedTablePass ordersCatalog .empty).catalog.Indexed
          cs.key.relid cs.key.attnum →
        (autoIndexMainPass smallServer droppedTablePass ordersCatalog .empty).table i =
          some cs := by
  constructor
  · exact exists_error_of_isOk (by decide +kernel)
  · intro hall
    have hlost := hall (advisorHashFn ⟨16384, 2, .USAGE_PREDICATE⟩)
      ⟨⟨16384, 2, .USAGE_PREDICATE⟩, 1, 500, 1⟩ (by decide +kernel) (by decide +kernel)
    revert hlost
    decide +kernel

/-- If `orders.customer` has an index already, its entry is the only one that a pass has removed
when the second candidate raises the error. -/
theorem advisor_failure_keeps_second :
    FailsAt smallServer droppedTablePass indexedCatalog .empty 1 ∧
      ∀ i cs, passTable smallServer droppedTablePass .empty i = some cs →
        ¬ (autoIndexMainPass smallServer droppedTablePass indexedCatalog .empty).catalog.Indexed
          cs.key.relid cs.key.attnum →
        (autoIndexMainPass smallServer droppedTablePass indexedCatalog .empty).table i =
          some cs := by
  have hfails : FailsAt smallServer droppedTablePass indexedCatalog .empty 1 :=
    ⟨exists_error_of_isOk (by decide +kernel), by decide +kernel⟩
  have hremovals : removals smallServer indexedCatalog ((passCandidates smallServer indexedCatalog
      (passTable smallServer droppedTablePass .empty)).take 1) =
      [⟨16384, 2, .USAGE_PREDICATE⟩] := by decide +kernel
  refine ⟨hfails, ?_⟩
  refine (advisor_failure_keeps_iff smallServer droppedTablePass indexedCatalog .empty 1
    hfails).mpr fun n k hk _ _ => ?_
  rw [hremovals] at hk
  rw [mem_singleton.mp (mem_of_getElem? hk)]
  decide

/-! ## The cap -/

/-- Every table has at most as many automatic indexes as it may have. -/
def WithinCap (sv : Server) (cat : Catalog) : Prop :=
  ∀ relid, countAutoIndexes cat relid ≤ sv.max_indexes_per_table

/-- The candidates of a pass from a state. -/
abbrev WorkerState.candidates (sv : Server) (s : WorkerState) (x : PassInput) :
    List IndexCandidate :=
  passCandidates sv s.catalog (passTable sv x s.table)

/-- If the pass commits, it builds on each table no more than the cap leaves room for. -/
def BuildsWithinCap (sv : Server) (s : WorkerState) (x : PassInput) : Prop :=
  ∀ p, autoindexRunAdvisor sv x s.catalog s.table = .ok p → ∀ relid,
    countAutoIndexes s.catalog relid +
      (built s.catalog (orders sv s.catalog (s.candidates sv x))).countP
        (fun j => j.indrelid = relid) ≤
        sv.max_indexes_per_table

/-- The name of the index that a command asks for matches the pattern. -/
theorem likeAutoIndex_of_wanted {cmd : CreateIndex} {path : List Oid} {j : PgIndex}
    (h : cmd.wanted path cat = .ok j) : likeAutoIndex j.relname = true := by
  unfold CreateIndex.wanted at h
  split at h
  · cases h
  · split at h
    · cases h
    · cases h
      exact likeAutoIndex_storedName cmd

/-- The names of the indexes ordered match the pattern. -/
theorem likeAutoIndex_of_mem_orders {cs : List IndexCandidate} {j : PgIndex}
    (hj : j ∈ orders sv cat cs) : likeAutoIndex j.relname = true := by
  obtain ⟨c, -, hc⟩ := mem_filterMap.mp hj
  obtain ⟨cmd, -, hcmd⟩ := Option.bind_eq_some_iff.mp hc
  cases hwanted : cmd.wanted sv.search_path cat <;> rw [hwanted] at hcmd <;> cases hcmd
  exact likeAutoIndex_of_wanted hwanted

/-- A pass that commits adds to a table's automatic indexes those it builds on it. -/
theorem countAutoIndexes_pass {x : PassInput} {p : Pass}
    (h : autoindexRunAdvisor sv x cat t = .ok p)
    (hplain : NoInjection sv cat (passCandidates sv cat (passTable sv x t))) (relid : Oid) :
    countAutoIndexes p.catalog relid = countAutoIndexes cat relid +
      (built cat (orders sv cat (passCandidates sv cat (passTable sv x t)))).countP
        (fun j => j.indrelid = relid) := by
  have hnew : (built cat (orders sv cat (passCandidates sv cat (passTable sv x t)))).countP
      (fun j => j.indrelid = relid ∧ likeAutoIndex j.relname) =
      (built cat (orders sv cat (passCandidates sv cat (passTable sv x t)))).countP
        (fun j => j.indrelid = relid) := by
    refine countP_congr fun j hj => ?_
    obtain ⟨before, after, hjs, -, -⟩ := mem_built_iff.mp hj
    have hlike : likeAutoIndex j.relname = true :=
      likeAutoIndex_of_mem_orders (hjs ▸ mem_append_right _ mem_cons_self)
    simp [hlike]
  rw [countAutoIndexes, autoindexRunAdvisor_catalog h hplain, countP_append, hnew, countAutoIndexes]

/-- One pass keeps the tables within their caps exactly when it builds within them. -/
theorem withinCap_step_iff {s : WorkerState} {x : PassInput} (hs : WithinCap sv s.catalog)
    (hplain : NoInjection sv s.catalog (s.candidates sv x)) :
    WithinCap sv (workerStep sv s x).catalog ↔ BuildsWithinCap sv s x := by
  rcases error_or_ok (autoindexRunAdvisor sv x s.catalog s.table) with ⟨e, he⟩ | ⟨p, hp⟩
  · -- An abort leaves the catalog as it was.
    rw [workerStep, autoIndexMainPass_of_error he]
    refine iff_of_true hs fun p hp => ?_
    cases he.symm.trans hp
  · rw [workerStep, autoIndexMainPass_of_ok hp]
    simp only [BuildsWithinCap, WithinCap, countAutoIndexes_pass hp hplain, hp, Except.ok.injEq,
      forall_eq']

/-- In a run of passes from a catalog within the caps, none of whose commands is accepted as SQL of
its own, every table is within its cap after every pass if and only if every pass that commits
builds on each table no more indexes than the cap leaves room for in the catalog it starts from. -/
theorem advisor_cap_iff (sv : Server) (s : WorkerState) (xs : List PassInput)
    (hs : WithinCap sv s.catalog)
    (hplain : ∀ n x, xs[n]? = some x → NoInjection sv (workerAfter sv s (xs.take n)).catalog
      ((workerAfter sv s (xs.take n)).candidates sv x)) :
    (∀ n ≤ xs.length, WithinCap sv (workerAfter sv s (xs.take n)).catalog) ↔
      ∀ n x, xs[n]? = some x → BuildsWithinCap sv (workerAfter sv s (xs.take n)) x := by
  -- The induction is on the last pass, which starts from a catalog within the caps.
  induction xs using reverseRecOn with
  | nil => exact iff_of_true (by simpa [workerAfter] using hs) (by simp)
  | append_singleton xs x ih =>
    rw [Runs.forall_call_concat (fun l x => NoInjection sv (workerAfter sv s l).catalog
      ((workerAfter sv s l).candidates sv x))] at hplain
    rw [Runs.forall_take_concat (fun l => WithinCap sv (workerAfter sv s l).catalog),
      Runs.forall_call_concat (fun l => BuildsWithinCap sv (workerAfter sv s l)), ← ih hplain.1]
    refine and_congr_right fun h => ?_
    have hlast := h xs.length le_rfl
    rw [take_length] at hlast
    have hstep : workerAfter sv s (xs ++ [x]) = workerStep sv (workerAfter sv s xs) x := by
      simp [workerAfter]
    rw [hstep]
    exact withinCap_step_iff hlast hplain.2

/-- A pass that drains one query on each column of `orders`. -/
def twoColumnsPass : PassInput where
  now := 2
  drained := [.onePredicate 16384 1 500 1, .onePredicate 16384 2 500 1]
  raises := fun _ => false

/-- Both columns trigger in one pass, and each finds the snapshot without an index: the table ends
up with two indexes under a cap of one. -/
theorem advisor_cap_exceeded :
    WithinCap smallServer ordersCatalog ∧
      ¬ WithinCap smallServer
        (workerAfter smallServer ⟨ordersCatalog, .empty⟩ [twoColumnsPass]).catalog := by
  constructor
  · intro relid
    simp [countAutoIndexes, ordersCatalog]
  · intro h
    have htwo : countAutoIndexes
        (workerAfter smallServer ⟨ordersCatalog, .empty⟩ [twoColumnsPass]).catalog 16384 = 2 := by
      decide +kernel
    have hone := h 16384
    rw [htwo] at hone
    exact absurd hone (by decide)

/-- A pass that drains one query on `orders.customer`. -/
def oneColumnPass : PassInput where
  now := 2
  drained := [.onePredicate 16384 2 500 1]
  raises := fun _ => false

/-- The column `orders.customer`. -/
def customerKey : ColStatsKey := ⟨16384, 2, .USAGE_PREDICATE⟩

/-- The calls of this pass before the removal: one entry is made, at its home. -/
def customerOps : List TableOp :=
  [.evictStale 2 smallServer.workload_window_days, .findOrCreate customerKey [(500, 1)]]

/-- That entry is the only one. -/
theorem customerOps_slot {i : Fin ADVISOR_HASH_SIZE} {e : ColStatsEntry}
    (h : tableAfter customerOps i = some e) : i = advisorHashFn customerKey := by
  have hother : ∀ j, j ≠ advisorHashFn customerKey → tableAfter customerOps j = none := by
    decide +kernel
  by_contra hne
  cases h.symm.trans (hother i hne)

/-- The worker's table after this pass represents the map after its calls: each of them deletes
safely. -/
theorem workerAfter_refines_one :
    Refines (workerAfter smallServer ⟨ordersCatalog, .empty⟩ [oneColumnPass]).table
      (mapAfter (customerOps ++ [.remove customerKey])) := by
  have hremovals : removals smallServer ordersCatalog
      (finishedCandidates smallServer oneColumnPass ordersCatalog .empty) = [customerKey] := by
    decide +kernel
  have hops : workerOps smallServer ⟨ordersCatalog, .empty⟩ [oneColumnPass] =
      customerOps ++ [.remove customerKey] := by
    rw [workerOps, passOps, hremovals]
    rfl
  have hrefines := (workerAfter_refines smallServer ordersCatalog [oneColumnPass]).2
  rw [hops] at hrefines
  refine hrefines fun n op hop => ?_
  obtain _ | _ | _ | n := n
  · cases hop
    intro i j d e hd
    cases hd
  · cases hop
    trivial
  · cases hop
    intro i hi j e hji hj
    obtain ⟨⟨d, hd, -⟩, -⟩ := LinearProbing.find_eq_hit_iff.mp hi
    exact absurd ((customerOps_slot hj).trans (customerOps_slot hd).symm) hji
  · cases hop

/-- A pass in which one column triggers stays within the cap. -/
theorem advisor_cap_kept : WithinCap smallServer ordersCatalog ∧ ∀ n ≤ 1, WithinCap smallServer
    (workerAfter smallServer ⟨ordersCatalog, .empty⟩ ([oneColumnPass].take n)).catalog := by
  have hstart : WithinCap smallServer ordersCatalog := fun _ => Nat.zero_le _
  have hbuilt : built ordersCatalog (orders smallServer ordersCatalog
      (passCandidates smallServer ordersCatalog (passTable smallServer oneColumnPass .empty))) =
      [⟨"autoindex_orders_customer", 2200, 16384, 2, "customer", []⟩] := by decide +kernel
  refine ⟨hstart,
    (advisor_cap_iff smallServer ⟨ordersCatalog, .empty⟩ [oneColumnPass] hstart ?_).mpr ?_⟩
  · intro n x hx c _ cmd _
    exact .inr fun _ => ⟨.raised, rfl⟩
  · intro n x hx p hp relid
    obtain ⟨rfl, rfl⟩ : n = 0 ∧ oneColumnPass = x := by
      cases n <;> simp_all
    show countAutoIndexes ordersCatalog relid + countP _ (built ordersCatalog
      (orders smallServer ordersCatalog
        (passCandidates smallServer ordersCatalog (passTable smallServer oneColumnPass .empty)))) ≤
        1
    rw [hbuilt, countAutoIndexes, ordersCatalog, countP_nil, zero_add]
    exact countP_le_length

/-! ## The index bought -/

/-- After a pass that commits, every column whose entry the pass removed has an index, if and only
if every key removed is of a column that had an index before the pass, or for which the pass ordered
an index whose name was free in its schema, and was not ordered before it in the pass. -/
theorem advisor_bought_iff (sv : Server) (x : PassInput) (cat : Catalog)
    (t : AdvisorHash) (p : Pass)
    (h : autoindexRunAdvisor sv x cat t = .ok p)
    (hplain : NoInjection sv cat (passCandidates sv cat (passTable sv x t))) :
    (∀ i cs, passTable sv x t i = some cs → p.table i ≠ some cs →
        p.catalog.Indexed cs.key.relid cs.key.attnum) ↔
      ∀ n k, (removals sv cat (passCandidates sv cat (passTable sv x t)))[n]? = some k →
        ∀ i, advisorHashFind
          (((removals sv cat (passCandidates sv cat (passTable sv x t))).take n).foldl
          advisorHashRemove (passTable sv x t)) k = .hit i →
        cat.Indexed k.relid k.attnum ∨
          ∃ before j after, orders sv cat (passCandidates sv cat (passTable sv x t)) =
              before ++ j :: after ∧
            j.indrelid = k.relid ∧ j.indkey = k.attnum ∧
            j.name ∉ cat.names ∧ ∀ i ∈ before, i.name ≠ j.name := by
  -- The removals of a pass that commits lose entries of indexed columns only, as above.
  have hkeeps := foldl_remove_keeps_iff (passTable sv x t)
    (removals sv cat (passCandidates sv cat (passTable sv x t)))
    fun k => p.catalog.Indexed k.relid k.attnum
  rw [← autoindexRunAdvisor_table h] at hkeeps
  simp only [← autoindexRunAdvisor_indexed_iff h hplain]
  rw [← hkeeps]
  exact forall₂_congr fun i cs => imp_congr_right fun _ => not_imp_comm

/-- The table `orders` of a schema that is not in the search path. -/
def archiveOrders : PgClass :=
  ⟨16400, "orders", 16390, .RELATION, 1000, 10, [⟨1, "id"⟩, ⟨2, "customer"⟩]⟩

/-- A database with a table `orders` in two schemas. -/
def twoOrdersCatalog : Catalog := ⟨[ordersTable, archiveOrders], [], by decide⟩

/-- A pass that drains one query on the `orders.customer` that is not in the search path. -/
def archivePass : PassInput where
  now := 2
  drained := [.onePredicate 16400 2 500 1]
  raises := fun _ => false

/-- The command for the table outside the search path names the table inside it: that one gets the
index, and the column that paid for it has lost its entry. -/
theorem advisor_bought_elsewhere :
    ∃ p, autoindexRunAdvisor smallServer archivePass twoOrdersCatalog .empty = .ok p ∧
      p.catalog.Indexed 16384 2 ∧
      ¬ ∀ i cs, passTable smallServer archivePass .empty i = some cs → p.table i ≠ some cs →
        p.catalog.Indexed cs.key.relid cs.key.attnum := by
  obtain ⟨p, hp⟩ : ∃ p, autoindexRunAdvisor smallServer archivePass twoOrdersCatalog .empty =
      .ok p := exists_ok_of_isOk (by decide +kernel)
  have hmain := autoIndexMainPass_of_ok hp
  subst hmain
  refine ⟨_, hp, by decide +kernel, ?_⟩
  intro hall
  have hindexed := hall (advisorHashFn ⟨16400, 2, .USAGE_PREDICATE⟩)
    ⟨⟨16400, 2, .USAGE_PREDICATE⟩, 1, 500, 1⟩ (by decide +kernel) (by decide +kernel)
  revert hindexed
  decide +kernel

/-- A pass on the one table `orders` buys the index it removes the entry for. -/
theorem advisor_bought_there :
    ∃ p, autoindexRunAdvisor smallServer oneColumnPass ordersCatalog .empty = .ok p ∧
      ∀ i cs, passTable smallServer oneColumnPass .empty i = some cs → p.table i ≠ some cs →
        p.catalog.Indexed cs.key.relid cs.key.attnum := by
  obtain ⟨p, hp⟩ : ∃ p, autoindexRunAdvisor smallServer oneColumnPass ordersCatalog .empty =
      .ok p := exists_ok_of_isOk (by decide +kernel)
  refine ⟨p, hp, (advisor_bought_iff smallServer oneColumnPass ordersCatalog .empty p hp ?_).mpr ?_⟩
  · intro c _ cmd _
    exact .inr fun _ => ⟨.raised, rfl⟩
  · have hremovals : removals smallServer ordersCatalog
        (passCandidates smallServer ordersCatalog (passTable smallServer oneColumnPass .empty)) =
        [⟨16384, 2, .USAGE_PREDICATE⟩] := by decide +kernel
    have horders : orders smallServer ordersCatalog
        (passCandidates smallServer ordersCatalog (passTable smallServer oneColumnPass .empty)) =
        [⟨"autoindex_orders_customer", 2200, 16384, 2, "customer", []⟩] := by decide +kernel
    intro n k hk i _
    rw [hremovals] at hk
    rw [mem_singleton.mp (mem_of_getElem? hk), horders]
    exact .inr ⟨[], _, [], rfl, rfl, rfl, by decide, by simp⟩

/-! ## Vanished tables -/

/-- If no statement raises an error for an outside reason: a pass commits, removes the entries of
its candidates below the cap, and leaves every one of them whose table exists with an index, if and
only if every purchase is served after the orders of those before it, and its column had an index
before or is that of an order under a free name, which is the first of its name. -/
theorem advisor_survives_drops_iff (sv : Server) (s : WorkerState) (x : PassInput)
    (hraises : ∀ st, x.raises st = false) (hplain : NoInjection sv s.catalog (s.candidates sv x)) :
    (∃ p, autoindexRunAdvisor sv x s.catalog s.table = .ok p ∧
      p.table = (removals sv s.catalog (s.candidates sv x)).foldl advisorHashRemove
        (passTable sv x s.table) ∧
      ∀ c ∈ purchases sv s.catalog (s.candidates sv x),
        (∃ r ∈ s.catalog.relations, r.oid = c.relid) → p.catalog.Indexed c.relid c.attnum) ↔
    (∀ n (c : IndexCandidate), (purchases sv s.catalog (s.candidates sv x))[n]? = some c →
      c.served sv s.catalog ((((purchases sv s.catalog (s.candidates sv x)).take n).filterMap
        (IndexCandidate.order sv s.catalog)).foldl Catalog.add s.catalog) = true) ∧
    ∀ c ∈ purchases sv s.catalog (s.candidates sv x), s.catalog.Indexed c.relid c.attnum ∨
      ∃ before j after, orders sv s.catalog (s.candidates sv x) = before ++ j :: after ∧
        j.indrelid = c.relid ∧ j.indkey = c.attnum ∧
        j.name ∉ s.catalog.names ∧ ∀ i ∈ before, i.name ≠ j.name := by
  have hrun : autoindexRunAdvisor sv x s.catalog s.table = runCandidates sv s.catalog x.raises 0
      (s.candidates sv x) ⟨s.catalog, passTable sv x s.table, []⟩ := by
    rw [autoindexRunAdvisor_eq, collectCandidates_of_runs hraises]
    rfl
  have hok := runCandidates_ok_iff (i := 0) (p := ⟨s.catalog, passTable sv x s.table, []⟩) hraises
    hplain ⟨rfl, fun _ => id⟩
  rw [← hrun] at hok
  constructor
  · rintro ⟨p, hp, -, hindexed⟩
    have hserved := hok.mp ⟨p, hp⟩
    refine ⟨hserved, fun c hc => ?_⟩
    rw [← autoindexRunAdvisor_indexed_iff hp hplain]
    refine hindexed c hc ?_
    -- The table of a candidate that is served exists.
    obtain ⟨n, hn⟩ := mem_iff_getElem?.mp hc
    obtain ⟨cmd, hcmd, -⟩ := (Option.any_eq_true _ _).mp (hserved n c hn)
    obtain ⟨r, hr, -⟩ := Option.bind_eq_some_iff.mp hcmd
    exact ⟨r, mem_of_find?_eq_some hr, by simpa using find?_some hr⟩
  · rintro ⟨hserved, hbought⟩
    obtain ⟨p, hp⟩ := hok.mpr hserved
    refine ⟨p, hp, autoindexRunAdvisor_table hp, fun c hc _ => ?_⟩
    rw [autoindexRunAdvisor_indexed_iff hp hplain]
    exact hbought c hc

/-- The dropped table raises an error, and `orders.customer`, which has triggered too, is left
without its index. -/
theorem advisor_blocked_by_drop :
    (outcome (autoindexRunAdvisor smallServer droppedTablePass ordersCatalog .empty)).1 =
        some (.cacheLookupFailed 1 16385) ∧
      ⟨16384, 2, .USAGE_PREDICATE, 1, 500, 100⟩ ∈ purchases smallServer ordersCatalog
        (passCandidates smallServer ordersCatalog (passTable smallServer droppedTablePass .empty)) ∧
      ¬ (autoIndexMainPass smallServer droppedTablePass ordersCatalog .empty).catalog.Indexed
        16384 2 := by
  decide +kernel

/-- Without a query on a dropped table, both columns of `orders` get their index in one pass. -/
theorem advisor_survives_two :
    (∀ st, twoColumnsPass.raises st = false) ∧
      ∃ p, autoindexRunAdvisor smallServer twoColumnsPass ordersCatalog .empty = .ok p ∧
        p.catalog.Indexed 16384 1 ∧ p.catalog.Indexed 16384 2 := by
  have hpurchases : purchases smallServer ordersCatalog
      (WorkerState.candidates smallServer ⟨ordersCatalog, .empty⟩ twoColumnsPass) =
      [⟨16384, 1, .USAGE_PREDICATE, 1, 500, 100⟩, ⟨16384, 2, .USAGE_PREDICATE, 1, 500, 100⟩] := by
    decide +kernel
  have horders : orders smallServer ordersCatalog
      (WorkerState.candidates smallServer ⟨ordersCatalog, .empty⟩ twoColumnsPass) =
      [⟨"autoindex_orders_id", 2200, 16384, 1, "id", []⟩,
        ⟨"autoindex_orders_customer", 2200, 16384, 2, "customer", []⟩] := by
    rw [orders, hpurchases]
    decide +kernel
  obtain ⟨p, hp, -, hindexed⟩ := (advisor_survives_drops_iff smallServer ⟨ordersCatalog, .empty⟩
    twoColumnsPass (fun _ => rfl) fun _ _ _ _ => .inr fun _ => ⟨.raised, rfl⟩).mpr (by
      rw [hpurchases, horders]
      constructor
      · rintro (_ | _ | n) c hc <;> cases hc <;> decide +kernel
      · refine forall_mem_cons.mpr ⟨.inr ⟨[], _, _, rfl, rfl, rfl, by decide, by simp⟩, ?_⟩
        refine forall_mem_singleton.mpr (.inr ⟨[_], _, [], rfl, rfl, rfl, by decide, by decide⟩))
  rw [hpurchases] at hindexed
  refine ⟨fun _ => rfl, p, hp, ?_, ?_⟩
  · exact hindexed _ mem_cons_self ⟨ordersTable, mem_singleton_self _, rfl⟩
  · exact hindexed _ (mem_cons_of_mem _ (mem_singleton_self _))
      ⟨ordersTable, mem_singleton_self _, rfl⟩

end PgAutoIndex.AutoIndex
