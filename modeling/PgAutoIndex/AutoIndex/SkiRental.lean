import PgAutoIndex.RentOrBuy
import PgAutoIndex.AutoIndex.AdvisorOutcomes

/-!
# The ski-rental policy

The advisor as a rent-or-buy policy for one column: the plan costs of the queries on the column are
the rent, and the build cost of its index is the price. A run of passes is followed from an empty
tracking table up to the pass that creates the index, through the whole pass: the drain, the guards
and the estimate, the checks, and the command.

What is paid is that of the policy of `RentOrBuy` on the batches of costs that the passes drain
(`paid_eq_pays`). The rent is compared with the price only after it has been charged, for all
queries that have arrived since the last pass, and only once there are `min_exec_freq` of them: the
total is twice the optimum, and in addition the batch with which the index is created and what the
queries before the `min_exec_freq`-th cost above the price (`advisor_pays_le`).
-/

namespace PgAutoIndex.AutoIndex

open Option

open List hiding getElem?_eq_some_iff

/-! ## What is paid -/

/-- The plan costs that a pass drains. -/
def PassInput.costs (x : PassInput) : List ℚ := x.drained.map WorkloadEntry.plan_cost

/-- The plan costs of a run up to the pass after which the column has an index, and the price if
there is such a pass. -/
def paid (sv : Server) (k : ColStatsKey) (price : ℚ) : WorkerState → List PassInput → ℚ
  | _, [] => 0
  | s, x :: xs => x.costs.sum +
      if (workerStep sv s x).catalog.Indexed k.relid k.attnum then price
      else paid sv k price (workerStep sv s x) xs

/-- The plan costs drained by the pass after which the column has an index, `0` without one. -/
def creatingBatch (sv : Server) (k : ColStatsKey) : WorkerState → List PassInput → ℚ
  | _, [] => 0
  | s, x :: xs =>
      if (workerStep sv s x).catalog.Indexed k.relid k.attnum then x.costs.sum
      else creatingBatch sv k (workerStep sv s x) xs

/-- The setting of the policy: queries that mention one predicate column, once each, passes that
fail for no outside reason and evict nothing, and a column whose index can be created. -/
structure RentalRun (sv : Server) (k : ColStatsKey) (s : WorkerState) (xs : List PassInput) :
    Prop where
  predicate : k.usage_type = .USAGE_PREDICATE
  attnum_pos : ¬ k.attnum ≤ 0
  charged : ∀ x ∈ xs, ∀ e ∈ x.drained, e.charged = [k] ∧ 0 < e.plan_cost
  runs : ∀ x ∈ xs, ∀ st, x.raises st = false
  no_eviction : ∀ n x, xs[n]? = some x →
    advisorHashEvictStale x.now sv.workload_window_days (workerAfter sv s (xs.take n)).table =
      (workerAfter sv s (xs.take n)).table
  below_cap : countAutoIndexes s.catalog k.relid < sv.max_indexes_per_table
  not_indexed : ¬ s.catalog.Indexed k.relid k.attnum
  not_existing : indexAlreadyExists s.catalog k.relid k.attnum = false
  /-- The command for the column creates an index on it. -/
  creates : ∀ p : Pass, p.catalog = s.catalog →
    ∃ p', createIndexForCandidate sv false k.relid k.attnum p = .ok p' ∧
      p'.catalog.Indexed k.relid k.attnum

/-! ## One pass -/

/-- The tracking table when queries of these costs have been charged to the one column. -/
def tally (k : ColStatsKey) (costs : List ℚ) (last_seen : ℤ) : AdvisorHash :=
  if costs = [] then .empty
  else Function.update AdvisorHash.empty (advisorHashFn k)
    (some ⟨k, costs.length, costs.sum, last_seen⟩)

variable {sv : Server} {k : ColStatsKey}

/-- The table of no queries is empty. -/
theorem tally_nil (k : ColStatsKey) (last_seen : ℤ) : tally k [] last_seen = AdvisorHash.empty := by
  simp [tally]

variable {costs : List ℚ} {last_seen : ℤ} {s : WorkerState} {xs : List PassInput}

/-- A slot of the table. -/
theorem tally_eq_some {i : Fin ADVISOR_HASH_SIZE} {e : ColStatsEntry} :
    tally k costs last_seen i = some e ↔
      costs ≠ [] ∧ i = advisorHashFn k ∧ e = ⟨k, costs.length, costs.sum, last_seen⟩ := by
  unfold tally
  split_ifs with hcosts
  · simp [AdvisorHash.empty, hcosts]
  · by_cases hi : i = advisorHashFn k
    · simp [hi, hcosts, eq_comm]
    · simp [AdvisorHash.empty, hi]

/-- A query on the column adds its cost. -/
theorem drainEntry_tally {e : WorkloadEntry} (he : e.charged = [k]) (costs : List ℚ)
    (last_seen : ℤ) :
    drainEntry (tally k costs last_seen) e = tally k (costs ++ [e.plan_cost]) e.ts := by
  have hhome : HomeFree (tally k costs last_seen) k := by
    intro e' he'
    rw [(tally_eq_some.mp he').2.2]
  rw [drainEntry, he, foldl_cons, foldl_nil, chargeColumn_of_home hhome]
  unfold tally
  split_ifs with hcosts
  · simp_all
  · simp [hcosts, AdvisorHash.empty, ColStatsEntry.charge, ColStatsEntry.fresh]
  · simp_all
  · simp [ColStatsEntry.charge]

/-- A drain of queries on the column adds their costs. -/
theorem drainEntries_tally {es : List WorkloadEntry} (he : ∀ e ∈ es, e.charged = [k])
    (costs : List ℚ) (last_seen : ℤ) : drainEntries (tally k costs last_seen) es =
      tally k (costs ++ es.map WorkloadEntry.plan_cost) (es.foldl (fun _ e => e.ts) last_seen) := by
  induction es generalizing costs last_seen with
  | nil => simp [drainEntries]
  | cons e es ih =>
    obtain ⟨hhead, htail⟩ := forall_mem_cons.mp he
    have hrest := ih htail (costs ++ [e.plan_cost]) e.ts
    rw [drainEntries] at hrest ⊢
    rw [foldl_cons, drainEntry_tally hhead, hrest]
    simp

/-- An entry that is not stale stays. -/
theorem evictStale_tally {now : ℤ} {window_days : ℕ}
    (h : now - last_seen ≤ window_days * USECS_PER_DAY) :
    advisorHashEvictStale now window_days (tally k costs last_seen) = tally k costs last_seen := by
  funext i
  unfold advisorHashEvictStale
  cases hi : tally k costs last_seen i with
  | none => rfl
  | some e =>
    obtain ⟨-, -, rfl⟩ := tally_eq_some.mp hi
    have hfresh : ¬ now - last_seen > window_days * USECS_PER_DAY := not_lt.mpr h
    simp [ColStatsEntry.stale, hfresh]

/-- A list in which at most one element is kept. -/
theorem filterMap_eq_toList {α β : Type} {f : α → Option β} {l : List α} {a : α} (hl : l.Nodup)
    (ha : a ∈ l) (h : ∀ b, b ≠ a → f b = none) : l.filterMap f = (f a).toList := by
  induction l with
  | nil => cases ha
  | cons b l ih =>
    obtain ⟨hb, hl'⟩ := nodup_cons.mp hl
    by_cases hba : b = a
    · subst hba
      have hrest : l.filterMap f = [] :=
        filterMap_eq_nil_iff.mpr fun c hc => h c (ne_of_mem_of_not_mem hc hb)
      rw [filterMap_cons, hrest]
      cases f b <;> rfl
    · rw [filterMap_cons, h b hba]
      exact ih hl' ((mem_cons.mp ha).resolve_left (Ne.symm hba))

/-- The column is the one candidate, once its queries are enough and cost enough. -/
theorem candidates_tally (hp : k.usage_type = .USAGE_PREDICATE) (hpos : ¬ k.attnum ≤ 0)
    (cat : Catalog) (costs : List ℚ) (last_seen : ℤ) :
    (finRange ADVISOR_HASH_SIZE).filterMap (candidateAt sv cat (tally k costs last_seen)) =
      if sv.min_exec_freq ≤ costs.length ∧ estimateIndexBuildCost sv cat k.relid ≤ costs.sum then
        [(⟨k, costs.length, costs.sum, last_seen⟩ : ColStatsEntry).candidate
          (estimateIndexBuildCost sv cat k.relid)]
      else [] := by
  rw [filterMap_eq_toList (nodup_finRange _) (mem_finRange (advisorHashFn k))]
  · unfold candidateAt tally
    by_cases hcosts : costs = []
    · -- No query yet, and at least one is needed.
      have hfreq := sv.min_exec_freq_range.1
      simp [hcosts, AdvisorHash.empty]
      omega
    · simp only [hcosts, if_false, Function.update_self, bind_some, ColStatsEntry.eligible, hp]
      split_ifs <;> simp_all
  · intro i hi
    have hnone : tally k costs last_seen i = none :=
      eq_none_iff_forall_ne_some.mpr fun e he => hi (tally_eq_some.mp he).2.1
    simp [candidateAt, hnone]

/-- One pass of a rental run: if the column's queries are enough and cost the price, it has its
index after the pass; otherwise the pass has only charged its costs. -/
theorem workerStep_tally {x : PassInput} (hrun : RentalRun sv k s (x :: xs))
    (htable : s.table = tally k costs last_seen) :
    if sv.min_exec_freq ≤ (costs ++ x.costs).length ∧
        estimateIndexBuildCost sv s.catalog k.relid ≤ (costs ++ x.costs).sum then
      (workerStep sv s x).catalog.Indexed k.relid k.attnum
    else workerStep sv s x =
      ⟨s.catalog, tally k (costs ++ x.costs) (x.drained.foldl (fun _ e => e.ts) last_seen)⟩ := by
  have hevict : advisorHashEvictStale x.now sv.workload_window_days s.table = s.table :=
    hrun.no_eviction 0 x rfl
  have hdrain := drainEntries_tally
    (fun e he => (hrun.charged x mem_cons_self e he).1) costs last_seen
  have hpass : passTable sv x s.table =
      tally k (costs ++ x.costs) (x.drained.foldl (fun _ e => e.ts) last_seen) := by
    rw [passTable, hevict, htable, hdrain, PassInput.costs]
  have hruns := hrun.runs x mem_cons_self
  have hadvisor := autoindexRunAdvisor_eq sv x s.catalog s.table
  rw [hpass, collectCandidates_of_runs hruns,
    candidates_tally hrun.predicate hrun.attnum_pos] at hadvisor
  split_ifs with htrigger
  · -- The column is the only candidate, and none of the checks stops its command.
    obtain ⟨p', hp', hindexed⟩ :=
      hrun.creates ⟨s.catalog, tally k (costs ++ x.costs)
        (x.drained.foldl (fun _ e => e.ts) last_seen), []⟩ rfl
    have hcap : ¬ sv.max_indexes_per_table ≤ countAutoIndexes s.catalog k.relid :=
      not_le.mpr hrun.below_cap
    rw [if_pos htrigger] at hadvisor
    simp only [sortCandidates, length_singleton, sortLoop, exchange, runCandidates,
      handleCandidate, hruns, IndexCandidate.capped, ColStatsEntry.candidate, hcap,
      hrun.not_existing, hp', decide_false, Bool.false_eq_true, if_false] at hadvisor
    rw [workerStep, autoIndexMainPass_of_ok hadvisor]
    exact hindexed
  · -- There is no candidate, and the pass ends with the table it has drained into.
    rw [if_neg htrigger] at hadvisor
    rw [workerStep, autoIndexMainPass_of_ok hadvisor]

/-! ## The whole run -/

/-- The rest of a rental run is one. -/
theorem RentalRun.tail {x : PassInput} (hrun : RentalRun sv k s (x :: xs))
    (hcatalog : (workerStep sv s x).catalog = s.catalog) :
    RentalRun sv k (workerStep sv s x) xs := by
  refine ⟨hrun.predicate, hrun.attnum_pos, fun y hy => hrun.charged y (mem_cons_of_mem x hy),
    fun y hy => hrun.runs y (mem_cons_of_mem x hy), fun n y hy => ?_, ?_, ?_, ?_, ?_⟩
  · have hlater := hrun.no_eviction (n + 1) y (by rwa [getElem?_cons_succ])
    rwa [take_succ_cons, workerAfter_cons] at hlater
  · rw [hcatalog]
    exact hrun.below_cap
  · rw [hcatalog]
    exact hrun.not_indexed
  · rw [hcatalog]
    exact hrun.not_existing
  · rw [hcatalog]
    exact hrun.creates

/-- The run pays what the rent-or-buy policy pays, and creates the index with the same batch. -/
theorem paid_eq_pays (xs : List PassInput) (hrun : RentalRun sv k s xs)
    (htable : s.table = tally k costs last_seen) :
    paid sv k (estimateIndexBuildCost sv s.catalog k.relid) s xs =
        RentOrBuy.pays (estimateIndexBuildCost sv s.catalog k.relid) sv.min_exec_freq costs.sum
          costs.length (xs.map PassInput.costs) ∧
      creatingBatch sv k s xs =
        RentOrBuy.buyingBatch (estimateIndexBuildCost sv s.catalog k.relid)
          sv.min_exec_freq costs.sum
          costs.length (xs.map PassInput.costs) := by
  induction xs generalizing s costs last_seen with
  | nil => exact ⟨rfl, rfl⟩
  | cons x xs ih =>
    have hstep := workerStep_tally hrun htable
    rw [length_append, sum_append] at hstep
    rw [map_cons, paid, creatingBatch, RentOrBuy.pays, RentOrBuy.buyingBatch]
    split_ifs at hstep with htrigger
    · rw [if_pos hstep, if_pos hstep, if_pos htrigger, if_pos htrigger]
      exact ⟨rfl, rfl⟩
    · -- No index yet: the catalog is unchanged, and the costs paid are those charged.
      have hcatalog : (workerStep sv s x).catalog = s.catalog := by rw [hstep]
      have hnot : ¬ (workerStep sv s x).catalog.Indexed k.relid k.attnum := by
        rw [hcatalog]
        exact hrun.not_indexed
      obtain ⟨hpays, hbatch⟩ := ih (hrun.tail hcatalog) (by rw [hstep])
      rw [length_append, sum_append, hcatalog] at hpays hbatch
      rw [if_neg hnot, if_neg hnot, if_neg htrigger, if_neg htrigger, hpays, hbatch]
      exact ⟨rfl, rfl⟩

/-- In every rental run from an empty table, what is paid up to the pass that creates the index,
with the price if it does, is at most twice the smaller of the cost of all queries and the price,
and in addition the cost of the queries that the creating pass drained and what the first
`min_exec_freq - 1` queries cost above the price. -/
theorem advisor_pays_le (sv : Server) (k : ColStatsKey) (cat : Catalog) (xs : List PassInput)
    (hrun : RentalRun sv k ⟨cat, .empty⟩ xs) :
    paid sv k (estimateIndexBuildCost sv cat k.relid) ⟨cat, .empty⟩ xs ≤
      2 * min (xs.flatMap PassInput.costs).sum (estimateIndexBuildCost sv cat k.relid) +
        creatingBatch sv k ⟨cat, .empty⟩ xs +
        max 0 (((xs.flatMap PassInput.costs).take (sv.min_exec_freq - 1)).sum -
          estimateIndexBuildCost sv cat k.relid) := by
  obtain ⟨hpays, hbatch⟩ := paid_eq_pays xs hrun (tally_nil k 0).symm
  have hprice : 0 ≤ estimateIndexBuildCost sv cat k.relid :=
    le_trans (by norm_num) (le_max_left 100 _)
  have hcosts : ∀ b ∈ xs.map PassInput.costs, ∀ c ∈ b, 0 ≤ c := by
    intro b hb c hc
    obtain ⟨x, hx, rfl⟩ := mem_map.mp hb
    obtain ⟨e, he, rfl⟩ := mem_map.mp hc
    exact (hrun.charged x hx e he).2.le
  have hle := RentOrBuy.pays_le hprice sv.min_exec_freq_range.1 (xs.map PassInput.costs) hcosts
  -- The run is the policy's run on the batches of its passes.
  rw [hpays, hbatch, flatMap_def]
  exact hle

/-- A pass that drains one query on `orders.customer`, which costs ten times the price. -/
def bigQueryPass : PassInput where
  now := 2
  drained := [.onePredicate 16384 2 1000 1]
  raises := fun _ => false

/-- The small server with a frequency guard. -/
def rentalServer (freq : ℕ) (h : 1 ≤ freq ∧ freq ≤ 2147483647) : Server :=
  { smallServer with min_exec_freq := freq, min_exec_freq_range := h }

/-- Big queries on `orders.customer` make a rental run, as long as nothing is evicted. -/
theorem bigQuery_rentalRun (freq : ℕ) (h : 1 ≤ freq ∧ freq ≤ 2147483647)
    (hxs : ∀ x ∈ xs, x = bigQueryPass) (hevict : ∀ n x, xs[n]? = some x → advisorHashEvictStale 2 3
        (workerAfter (rentalServer freq h) ⟨ordersCatalog, .empty⟩ (xs.take n)).table =
        (workerAfter (rentalServer freq h) ⟨ordersCatalog, .empty⟩ (xs.take n)).table) :
    RentalRun (rentalServer freq h) customerKey ⟨ordersCatalog, .empty⟩ xs := by
  refine ⟨rfl, by decide, ?_, ?_, ?_, Nat.zero_lt_one, by decide, by decide, ?_⟩
  · intro x hx e he
    rw [hxs x hx] at he
    rw [mem_singleton.mp he]
    exact ⟨rfl, by decide⟩
  · intro x hx st
    rw [hxs x hx]
    rfl
  · intro n x hx
    rw [hxs x (mem_of_getElem? hx)]
    exact hevict n x hx
  · rintro ⟨cat, t, cmds⟩ rfl
    exact ⟨⟨⟨[ordersTable], [⟨"autoindex_orders_customer", 2200, 16384, 2, "customer", []⟩],
      by decide⟩, t,
      cmds ++ [⟨"orders", "customer"⟩]⟩, rfl, _, mem_singleton_self _, rfl, rfl⟩

/-- One pass with one big query is a rental run. -/
theorem bigQuery_once (freq : ℕ) (h : 1 ≤ freq ∧ freq ≤ 2147483647) :
    RentalRun (rentalServer freq h) customerKey ⟨ordersCatalog, .empty⟩ [bigQueryPass] := by
  refine bigQuery_rentalRun freq h (by simp) ?_
  intro n x hx
  have hn : n = 0 := by
    have hlt := (List.getElem?_eq_some_iff.mp hx).1
    simpa using hlt
  rw [hn, take_zero, workerAfter, foldl_nil, ← tally_nil customerKey 1]
  dsimp only
  refine evictStale_tally ?_
  decide

/-- Two passes with one big query each are a rental run where two executions are needed: the first
pass only charges its query. -/
theorem bigQuery_twice :
    RentalRun (rentalServer 2 (by decide)) customerKey ⟨ordersCatalog, .empty⟩
      [bigQueryPass, bigQueryPass] := by
  have hfirst := workerStep_tally (bigQuery_once 2 (by decide)) (tally_nil customerKey 1).symm
  refine bigQuery_rentalRun 2 (by decide) (by simp) ?_
  intro n x hx
  have hn : n = 0 ∨ n = 1 := by
    have hlt := (List.getElem?_eq_some_iff.mp hx).1
    simp only [length_cons, length_nil] at hlt
    omega
  rcases hn with rfl | rfl
  · exact (bigQuery_once 2 (by decide)).no_eviction 0 bigQueryPass rfl
  · rw [take_succ_cons, take_zero, workerAfter_cons, hfirst, workerAfter, foldl_nil]
    dsimp only
    refine evictStale_tally ?_
    decide

/-- One query of ten times the price is paid for before the pass that sees it, and then the index
is. Where two executions are needed, a second such query is paid for as well. -/
theorem advisor_pays_more :
    (∃ xs, RentalRun (rentalServer 1 (by decide)) customerKey ⟨ordersCatalog, .empty⟩ xs ∧
      2 * min (xs.flatMap PassInput.costs).sum
          (estimateIndexBuildCost (rentalServer 1 (by decide)) ordersCatalog customerKey.relid) <
        paid (rentalServer 1 (by decide)) customerKey
          (estimateIndexBuildCost (rentalServer 1 (by decide)) ordersCatalog customerKey.relid)
          ⟨ordersCatalog, .empty⟩ xs) ∧
    ∃ xs, RentalRun (rentalServer 2 (by decide)) customerKey ⟨ordersCatalog, .empty⟩ xs ∧
      2 * min (xs.flatMap PassInput.costs).sum
          (estimateIndexBuildCost (rentalServer 2 (by decide)) ordersCatalog customerKey.relid) +
          creatingBatch (rentalServer 2 (by decide)) customerKey ⟨ordersCatalog, .empty⟩ xs <
        paid (rentalServer 2 (by decide)) customerKey
          (estimateIndexBuildCost (rentalServer 2 (by decide)) ordersCatalog customerKey.relid)
          ⟨ordersCatalog, .empty⟩ xs := by
  refine ⟨⟨_, bigQuery_once 1 (by decide), ?_⟩, ⟨_, bigQuery_twice, ?_⟩⟩
  · obtain ⟨hpays, -⟩ := paid_eq_pays _ (bigQuery_once 1 (by decide)) (tally_nil customerKey 1).symm
    rw [hpays]
    decide +kernel
  · obtain ⟨hpays, hbatch⟩ := paid_eq_pays _ bigQuery_twice (tally_nil customerKey 1).symm
    rw [hpays, hbatch]
    decide +kernel

/-- The bound for the run with one big query. -/
theorem advisor_pays_le_bigQuery :
    paid (rentalServer 1 (by decide)) customerKey
        (estimateIndexBuildCost (rentalServer 1 (by decide)) ordersCatalog customerKey.relid)
        ⟨ordersCatalog, .empty⟩ [bigQueryPass] ≤
      2 * min ([bigQueryPass].flatMap PassInput.costs).sum
          (estimateIndexBuildCost (rentalServer 1 (by decide)) ordersCatalog customerKey.relid) +
        creatingBatch (rentalServer 1 (by decide)) customerKey ⟨ordersCatalog, .empty⟩
          [bigQueryPass] +
        max 0 ((([bigQueryPass].flatMap PassInput.costs).take 0).sum -
          estimateIndexBuildCost (rentalServer 1 (by decide)) ordersCatalog customerKey.relid) :=
  advisor_pays_le _ _ _ _ (bigQuery_once 1 (by decide))

end PgAutoIndex.AutoIndex
