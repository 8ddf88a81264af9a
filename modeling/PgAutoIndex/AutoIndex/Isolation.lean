import PgAutoIndex.AutoIndex.AdvisorOutcomes

/-!
# Workload of other databases

The executor hook runs in the backends of all databases and pushes into one ring, but the worker is
connected to one database, `postgres`, and neither a `WorkloadEntry` nor a key of the tracking table
says where a query ran. A query of another database on a relation with the same OID is charged to
the column of `postgres`, and `isolation_broken` is a pair of runs in which that alone makes the
advisor create an index.

The commands do not depend on the other databases as long as their queries stay out of the way
(`Separated`): no column that they mention is one that queries in `postgres` mention, the probe for
a column of `postgres` meets none of their entries, and no foreign column triggers.
`commandsOf_local` follows the run with all queries and the run with only those of `postgres` side
by side: the table of the second is that of the first without the foreign entries.
-/

namespace PgAutoIndex.AutoIndex

open LinearProbing Function

open List hiding getElem?_eq_some_iff lookup

/-! ## Runs of a cluster -/

/-- A captured query, and whether it ran in the worker's database. The ring only has the entry. -/
structure Captured where
  fromPostgres : Bool
  entry : WorkloadEntry

/-- A pass of the worker, with the queries captured in the whole cluster since the last one. -/
structure ClusterPass where
  now : ℤ
  drained : List Captured
  raises : Statement → Bool

/-- What the pass meets. -/
def ClusterPass.input (x : ClusterPass) : PassInput :=
  ⟨x.now, x.drained.map Captured.entry, x.raises⟩

/-- What the pass would meet if the other databases were idle. -/
def ClusterPass.localInput (x : ClusterPass) : PassInput :=
  ⟨x.now, (x.drained.filter Captured.fromPostgres).map Captured.entry, x.raises⟩

/-- The commands that a run of passes issues. -/
def commandsOf (sv : Server) : WorkerState → List PassInput → List CreateIndex
  | _, [] => []
  | s, x :: xs => (autoIndexMainPass sv x s.catalog s.table).commands ++
      commandsOf sv (workerStep sv s x) xs

/-- In a pass from a state, no column of another database triggers, and no estimate for one raises
an error. -/
def Untriggered (sv : Server) (loc : ColStatsKey → Bool) (s : WorkerState)
    (x : ClusterPass) : Prop :=
  ∀ i cs, passTable sv x.input s.table i = some cs → loc cs.key = false →
    candidateAt sv s.catalog (passTable sv x.input s.table) i = none ∧
    x.raises (.estimate i) = false

/-- The slots that the probe for a key meets before the one where it ends. -/
def met (t : AdvisorHash) (k : ColStatsKey) (j : Fin ADVISOR_HASH_SIZE) : Bool :=
  match advisorHashFind t k with
  | .free i => Before (advisorHashFn k) j i
  | .hit i => Before (advisorHashFn k) j i
  | .full => true

/-- The key that a call probes for. -/
def TableOp.key? : TableOp → Option ColStatsKey
  | .findOrCreate k _ => some k
  | .remove k => some k
  | .evictStale _ _ => none

/-- The call has no key, or one of `postgres`. -/
def TableOp.isLocal (loc : ColStatsKey → Bool) (op : TableOp) : Bool := op.key?.all loc

/-- A call for a column of `postgres` meets no entry of another database on its way. -/
def ProbesApart (loc : ColStatsKey → Bool) (t : AdvisorHash) (op : TableOp) : Prop :=
  ∀ k, op.key? = some k → loc k = true → ∀ j e, met t k j = true → t j = some e → loc e.key = true

/-- Whether the probes stay apart is decidable. -/
instance (loc : ColStatsKey → Bool) (t : AdvisorHash) (op : TableOp) :
    Decidable (ProbesApart loc t op) :=
  decidable_of_iff ((op.key?.all fun k => !loc k || (finRange ADVISOR_HASH_SIZE).all fun j =>
    !met t k j || (t j).all fun e => loc e.key) = true) <| by
      simp only [ProbesApart, Option.all_eq_true, Bool.or_eq_true, Bool.not_eq_true', all_eq_true,
        mem_finRange, forall_const, ← Bool.not_eq_true, ← imp_iff_not_or]
      exact forall₃_congr fun _ _ _ => forall_congr' fun _ =>
        ⟨fun h e hm he => h hm e he, fun h hm e he => h e hm he⟩

/-- The queries of the other databases stay out of the way in a run from an empty table. -/
structure Separated (sv : Server) (cat : Catalog) (loc : ColStatsKey → Bool)
    (xs : List ClusterPass) :
    Prop where
  /-- The columns that `postgres` mentions and those that the others mention are different. -/
  columns : ∀ x ∈ xs, ∀ c ∈ x.drained, ∀ k ∈ c.entry.charged, loc k = c.fromPostgres
  probes : ∀ n op, (workerOps sv ⟨cat, .empty⟩ (xs.map ClusterPass.input))[n]? = some op →
    ProbesApart loc (tableAfter ((workerOps sv ⟨cat, .empty⟩ (xs.map ClusterPass.input)).take n)) op
  untriggered : ∀ n x, xs[n]? = some x →
    Untriggered sv loc (workerAfter sv ⟨cat, .empty⟩ ((xs.take n).map ClusterPass.input)) x

/-! ## The local part of a table -/

/-- The entries of the columns of `postgres`. -/
def localPart (loc : ColStatsKey → Bool) (t : AdvisorHash) : AdvisorHash :=
  fun i => (t i).filter fun e => loc e.key

variable {k : ColStatsKey} {t t' : AdvisorHash} {sv : Server} {cat : Catalog}
  {loc : ColStatsKey → Bool} {i : Fin ADVISOR_HASH_SIZE}

/-- The local part after writing into a slot. -/
theorem localPart_update (i : Fin ADVISOR_HASH_SIZE) (v : Option ColStatsEntry) :
    localPart loc (update t i v) =
      update (localPart loc t) i (v.filter fun e => loc e.key) := by
  funext j
  by_cases hj : j = i
  · simp [localPart, hj]
  · simp [localPart, update_of_ne hj]

/-- A probe that meets no foreign entry ends in the local part where it ends in the table. -/
theorem find_localPart (hk : loc k = true)
    (h : ∀ j e, met t k j = true → t j = some e → loc e.key = true) :
    advisorHashFind (localPart loc t) k = advisorHashFind t k := by
  have hsame : ∀ {j e}, t j = some e → loc e.key = true → localPart loc t j = some e := by
    intro j e hj he
    simp [localPart, hj, he]
  -- What the probe walks past in the table, it walks past in the local part.
  have hpasses : ∀ j, met t k j = true → Passes t ColStatsEntry.key k j →
      Passes (localPart loc t) ColStatsEntry.key k j := by
    rintro j hmet ⟨e, hj, hne⟩
    exact ⟨e, hsame hj (h j e hmet hj), hne⟩
  unfold met at hpasses
  cases hf : advisorHashFind t k with
  | free i =>
    obtain ⟨hnone, hpath⟩ := find_eq_free_iff.mp hf
    rw [hf] at hpasses
    exact find_eq_free_iff.mpr ⟨by simp [localPart, hnone],
      fun j hj => hpasses j (decide_eq_true hj) (hpath j hj)⟩
  | hit i =>
    obtain ⟨⟨e, he, rfl⟩, hpath⟩ := find_eq_hit_iff.mp hf
    rw [hf] at hpasses
    exact find_eq_hit_iff.mpr ⟨⟨e, hsame he hk, rfl⟩,
      fun j hj => hpasses j (decide_eq_true hj) (hpath j hj)⟩
  | full =>
    rw [hf] at hpasses
    exact find_eq_full_iff.mpr fun j => hpasses j rfl (find_eq_full_iff.mp hf j)

/-- What a call writes into the slot where its probe ends. -/
def TableOp.write (v : Option ColStatsEntry) : TableOp → Option ColStatsEntry
  | .findOrCreate k cs => some ((v.getD (.fresh k)).charges cs)
  | .remove _ => none
  | .evictStale _ _ => v

/-- A call with a key writes where its probe ends, and nowhere else. -/
theorem run_eq_write {op : TableOp} (hop : op.key? = some k) (t : AdvisorHash) :
    op.run t = match advisorHashFind t k with
      | .free i => update t i (op.write (t i))
      | .hit i => update t i (op.write (t i))
      | .full => t := by
  cases op with
  | evictStale => cases hop
  | findOrCreate k' cs =>
    cases hop
    cases hf : advisorHashFind t k with
    | free i =>
      simp [TableOp.run, advisorHashFindOrCreate, TableOp.write, hf, (find_eq_free_iff.mp hf).1]
    | hit i =>
      obtain ⟨⟨e, he, -⟩, -⟩ := find_eq_hit_iff.mp hf
      simp [TableOp.run, advisorHashFindOrCreate, TableOp.write, hf, he]
    | full => simp [TableOp.run, advisorHashFindOrCreate, hf]
  | remove k' =>
    cases hop
    cases hf : advisorHashFind t k with
    | free i =>
      simp [TableOp.run, advisorHashRemove, TableOp.write, hf, (find_eq_free_iff.mp hf).1]
    | hit i => simp [TableOp.run, advisorHashRemove, TableOp.write, hf]
    | full => simp [TableOp.run, advisorHashRemove, hf]

/-- The local part after a write for a key into a slot that is empty or holds the key. -/
theorem localPart_write (loc : ColStatsKey → Bool) {op : TableOp} (hop : op.key? = some k)
    (hi : ∀ e, t i = some e → e.key = k) :
    localPart loc (update t i (op.write (t i))) =
      if loc k then update (localPart loc t) i (op.write (localPart loc t i))
      else localPart loc t := by
  have hslot : localPart loc t i = if loc k then t i else none := by
    unfold localPart
    cases ht : t i with
    | none => simp
    | some e => simp [Option.filter, hi e ht]
  have hkey : ∀ e, op.write (t i) = some e → e.key = k := by
    intro e he
    cases op <;> cases hop <;> cases he
    cases ht : t i with
    | none => simp
    | some e => simpa using hi e ht
  rw [localPart_update, hslot]
  cases hw : op.write (t i) with
  | none => split_ifs <;> simp_all
  | some e => split_ifs <;> simp_all [Option.filter, update_eq_self_iff]

/-- A call changes the local part as the same call on the local part would, if its key is local, and
not at all if it is foreign. -/
theorem localPart_run {op : TableOp} (h : ProbesApart loc t op) : localPart loc (op.run t) =
    if op.isLocal loc then op.run (localPart loc t) else localPart loc t := by
  cases hop : op.key? with
  | none =>
    rw [TableOp.isLocal, hop, Option.all_none, if_pos rfl]
    cases op <;> cases hop
    funext i
    simp only [TableOp.run, localPart, advisorHashEvictStale, Option.filter_filter, Bool.and_comm]
  | some k =>
    have hwrite : ∀ i, advisorHashFind t k = .free i ∨ advisorHashFind t k = .hit i →
        ∀ e, t i = some e → e.key = k := by
      rintro i (hf | hf) e he
      · cases (find_eq_free_iff.mp hf).1.symm.trans he
      · obtain ⟨⟨e', he', hk⟩, -⟩ := find_eq_hit_iff.mp hf
        cases he'.symm.trans he
        exact hk
    have hpart : ∀ i, advisorHashFind t k = .free i ∨ advisorHashFind t k = .hit i → _ :=
      fun i hi => localPart_write loc hop (hwrite i hi)
    rw [run_eq_write hop, run_eq_write hop, TableOp.isLocal, hop, Option.all_some]
    cases hk : loc k with
    | true =>
      rw [find_localPart hk (h k hop hk)]
      cases hf : advisorHashFind t k with
      | free i => simpa [hk] using hpart i (.inl hf)
      | hit i => simpa [hk] using hpart i (.inr hf)
      | full => rfl
    | false =>
      cases hf : advisorHashFind t k with
      | free i => simpa [hk] using hpart i (.inl hf)
      | hit i => simpa [hk] using hpart i (.inr hf)
      | full => rfl

/-- The local part after a run of calls is the local part after the calls with local keys. -/
theorem localPart_foldl (ops : List TableOp) (h : ∀ n op, ops[n]? = some op →
      ProbesApart loc ((ops.take n).foldl TableOp.run t) op) :
    localPart loc (ops.foldl TableOp.run t) =
      (ops.filter (TableOp.isLocal loc)).foldl TableOp.run (localPart loc t) := by
  induction ops generalizing t with
  | nil => rfl
  | cons op ops ih =>
    rw [Runs.forall_call_cons (fun before => ProbesApart loc (before.foldl TableOp.run t))] at h
    have hhead : ProbesApart loc t op := h.1
    rw [foldl_cons, ih h.2, localPart_run hhead, filter_cons]
    split_ifs <;> rfl

/-- The calls of a drain with local keys are those of a drain of the local queries. -/
theorem drainOps_local {cs : List Captured}
    (h : ∀ c ∈ cs, ∀ k ∈ c.entry.charged, loc k = c.fromPostgres) :
    (drainOps (cs.map Captured.entry)).filter (TableOp.isLocal loc) =
      drainOps ((cs.filter Captured.fromPostgres).map Captured.entry) := by
  induction cs with
  | nil => rfl
  | cons c cs ih =>
    obtain ⟨hc, hcs⟩ := forall_mem_cons.mp h
    unfold drainOps at ih ⊢
    rw [map_cons, flatMap_cons, filter_append, ih hcs, filter_cons]
    -- The calls for one query are all kept or all left out.
    have hlocal : ∀ op ∈ c.entry.charged.map
      (TableOp.findOrCreate · [(c.entry.plan_cost, c.entry.ts)]),
        op.isLocal loc = c.fromPostgres := forall_mem_map.mpr hc
    cases hfrom : c.fromPostgres with
    | true =>
      rw [filter_eq_self.mpr (by simpa [hfrom] using hlocal)]
      rfl
    | false =>
      rw [filter_eq_nil_iff.mpr (by simpa [hfrom] using hlocal)]
      rfl

/-- The calls of a pass with local keys: if only local keys are removed, those of a pass of
`postgres` alone that finishes the same candidates. -/
theorem passOps_local {x : ClusterPass}
    (hx : ∀ c ∈ x.drained, ∀ k ∈ c.entry.charged, loc k = c.fromPostgres)
    (hfinished : finishedCandidates sv x.localInput cat t' = finishedCandidates sv x.input cat t)
    (hremovals : ∀ k ∈ removals sv cat (finishedCandidates sv x.input cat t), loc k = true) :
    (passOps sv x.input cat t).filter (TableOp.isLocal loc) = passOps sv x.localInput cat t' := by
  have hkept : ∀ op ∈ (removals sv cat (finishedCandidates sv x.input cat t)).map TableOp.remove,
      op.isLocal loc = true := forall_mem_map.mpr hremovals
  have hdrain : (drainOps x.input.drained).filter (TableOp.isLocal loc) =
      drainOps x.localInput.drained := drainOps_local hx
  unfold passOps
  rw [filter_append, filter_cons_of_pos rfl, hfinished, filter_eq_self.mpr hkept, hdrain]
  rfl

/-! ## Passes that differ in the table -/

section Passes

variable {sv : Server} {snapshot : Catalog} {raises : Statement → Bool}

/-- Handling a candidate does not depend on the table. -/
theorem outcome_handleCandidate (i : ℕ) (c : IndexCandidate) (p : Pass) (t : AdvisorHash) :
    outcome (handleCandidate sv snapshot raises i c { p with table := t }) =
      outcome (handleCandidate sv snapshot raises i c p) := by
  unfold handleCandidate
  split_ifs
  · rfl
  · rfl
  · rfl
  · rfl
  · unfold createIndexForCandidate
    cases getColumnName p.catalog c.relid c.attnum with
    | error e => rfl
    | ok colname =>
      cases getTableName p.catalog c.relid with
      | none => rfl
      | some tblname =>
        dsimp only
        split_ifs
        · rfl
        · cases CreateIndex.exec sv p.catalog ⟨tblname, colname⟩ <;> rfl

/-- The creation loop does not depend on the table, and neither do the candidates it finishes. -/
theorem outcome_runCandidates (i : ℕ) (cs : List IndexCandidate) (p : Pass) (t : AdvisorHash) :
    outcome (runCandidates sv snapshot raises i cs { p with table := t }) =
        outcome (runCandidates sv snapshot raises i cs p) ∧
      finished sv snapshot raises i cs { p with table :=
        t } = finished sv snapshot raises i cs p := by
  induction cs generalizing i p t with
  | nil => exact ⟨rfl, rfl⟩
  | cons c cs ih =>
    have hout : outcome (handleCandidate sv snapshot raises i c { p with table := t }) =
        outcome (handleCandidate sv snapshot raises i c p) := outcome_handleCandidate i c p t
    unfold runCandidates finished
    -- The two states fail at the same candidates, since an outcome shows its error.
    cases h : handleCandidate sv snapshot raises i c p <;>
      cases h' : handleCandidate sv snapshot raises i c { p with table := t } <;>
      rw [h, h'] at hout
    case error.error => exact ⟨hout, rfl⟩
    case ok.ok q q' =>
      -- The two states differ in the table only, so the rest of the loop goes the same way.
      simp only [outcome] at hout
      have hq : q' = { q with table := q'.table } := by
        cases q'
        simp_all
      obtain ⟨hrest, hfin⟩ := ih (i + 1) q q'.table
      dsimp only
      rw [hq, hrest, hfin]
      exact ⟨rfl, rfl⟩
    all_goals simp [outcome] at hout

/-- Tables of which one has, besides the other's entries, only entries that are no candidates have
the same candidates. -/
theorem collectCandidates_congr (slots : List (Fin ADVISOR_HASH_SIZE))
    (h : ∀ i, t' i = t i ∨ t' i = none ∧ ∀ cs, t i = some cs →
      candidateAt sv snapshot t i = none ∧ raises (.estimate i) = false) :
    collectCandidates sv snapshot raises t' slots =
      collectCandidates sv snapshot raises t slots := by
  induction slots with
  | nil => rfl
  | cons i slots ih =>
    unfold collectCandidates
    rw [ih]
    rcases h i with heq | ⟨hnone, hskip⟩
    · rw [heq]
    · rw [hnone]
      cases hi : t i with
      | none => rfl
      | some cs =>
        -- The entry is skipped by the guards, or its rent is below the estimate.
        obtain ⟨hcand, hraise⟩ := hskip cs hi
        unfold candidateAt at hcand
        rw [hi, Option.bind_some] at hcand
        by_cases helig : cs.eligible sv = true
        · have hrent : ¬ estimateIndexBuildCost sv snapshot cs.key.relid ≤ cs.cumulative_rent := by
            intro hle
            rw [if_pos ⟨helig, hle⟩] at hcand
            cases hcand
          simp only [helig, hraise, hrent, if_true, if_false, Bool.false_eq_true]
          cases collectCandidates sv snapshot raises t slots <;> rfl
        · simp only [helig, if_false, Bool.false_eq_true]

end Passes

/-! ## Side by side -/

/-- Passes with the same candidates have the same outcome, and finish the same candidates. -/
theorem outcome_runAdvisor_congr {x x' : PassInput} (hraises : x'.raises = x.raises)
    (hcollect : collectCandidates sv cat x'.raises (passTable sv x' t')
        (finRange ADVISOR_HASH_SIZE) =
      collectCandidates sv cat x.raises (passTable sv x t) (finRange ADVISOR_HASH_SIZE)) :
    outcome (autoindexRunAdvisor sv x' cat t') = outcome (autoindexRunAdvisor sv x cat t) ∧
      finishedCandidates sv x' cat t' = finishedCandidates sv x cat t := by
  rw [autoindexRunAdvisor_eq, autoindexRunAdvisor_eq]
  unfold finishedCandidates
  rw [hcollect, hraises]
  generalize collectCandidates sv cat x.raises (passTable sv x t) (finRange ADVISOR_HASH_SIZE) = r
  cases r with
  | error e => exact ⟨rfl, rfl⟩
  | ok cs => exact outcome_runCandidates 0 (sortCandidates cs) ⟨cat, passTable sv x t, []⟩ _

/-- Passes with the same outcome issue the same commands and leave the same catalog. -/
theorem autoIndexMainPass_congr {x x' : PassInput}
    (h : outcome (autoindexRunAdvisor sv x' cat t') = outcome (autoindexRunAdvisor sv x cat t)) :
    (autoIndexMainPass sv x' cat t').commands = (autoIndexMainPass sv x cat t).commands ∧
      (autoIndexMainPass sv x' cat t').catalog = (autoIndexMainPass sv x cat t).catalog := by
  unfold autoIndexMainPass
  generalize autoindexRunAdvisor sv x' cat t' = r' at h
  generalize autoindexRunAdvisor sv x cat t = r at h
  cases r <;> cases r' <;> simp_all [outcome]

/-- One pass of the whole cluster beside the pass of `postgres` alone, which starts from the local
part of the table: they issue the same commands, leave the same catalog, and the table of the second
stays the local part of that of the first. -/
theorem autoIndexMainPass_local {x : ClusterPass}
    (hx : ∀ c ∈ x.drained, ∀ k ∈ c.entry.charged, loc k = c.fromPostgres)
    (hprobes : ∀ n op, (passOps sv x.input cat t)[n]? = some op →
      ProbesApart loc (((passOps sv x.input cat t).take n).foldl TableOp.run t) op)
    (hskip : Untriggered sv loc ⟨cat, t⟩ x) :
    (autoIndexMainPass sv x.localInput cat (localPart loc t)).commands =
        (autoIndexMainPass sv x.input cat t).commands ∧
      (autoIndexMainPass sv x.localInput cat (localPart loc t)).catalog =
        (autoIndexMainPass sv x.input cat t).catalog ∧
      (autoIndexMainPass sv x.localInput cat (localPart loc t)).table =
        localPart loc (autoIndexMainPass sv x.input cat t).table := by
  -- The tables after eviction and drain.
  have htable : passTable sv x.localInput (localPart loc t) =
      localPart loc (passTable sv x.input t) := by
    have hdrain := ((Runs.forall_call_append (fun before => ProbesApart loc
      (before.foldl TableOp.run t)) _ _).mp hprobes).1
    have hpart := localPart_foldl _ hdrain
    have hlocal : (drainOps x.input.drained).filter (TableOp.isLocal loc) =
        drainOps x.localInput.drained := drainOps_local hx
    rw [filter_cons_of_pos rfl, hlocal, foldl_cons, foldl_cons, ← drainEntries_eq_run,
      ← drainEntries_eq_run] at hpart
    exact hpart.symm
  -- The candidates.
  have hcollect : collectCandidates sv cat x.localInput.raises
      (passTable sv x.localInput (localPart loc t)) (finRange ADVISOR_HASH_SIZE) =
      collectCandidates sv cat x.input.raises (passTable sv x.input t)
        (finRange ADVISOR_HASH_SIZE) := by
    refine collectCandidates_congr _ fun i => ?_
    rw [htable, localPart]
    cases hi : passTable sv x.input t i with
    | none => exact .inl rfl
    | some cs =>
      cases hloc : loc cs.key with
      | true => exact .inl (by simp [Option.filter, hloc])
      | false =>
        refine .inr ⟨by simp [Option.filter, hloc], ?_⟩
        rintro cs' ⟨⟩
        exact hskip i cs hi hloc
  -- The creation loop, from the same candidates.
  have hraises : x.localInput.raises = x.input.raises := rfl
  obtain ⟨hout, hfinished⟩ := outcome_runAdvisor_congr hraises hcollect
  obtain ⟨hcommands, hcatalog⟩ := autoIndexMainPass_congr hout
  refine ⟨hcommands, hcatalog, ?_⟩
  -- The candidates are local, so that the same keys are removed.
  have hremovals : ∀ k ∈ removals sv cat (finishedCandidates sv x.input cat t), loc k = true := by
    intro k hk
    obtain ⟨c, hc, rfl⟩ := mem_map.mp hk
    obtain ⟨i, -, hi⟩ := mem_filterMap.mp ((sortCandidates_perm _).mem_iff.mp
      ((finishedCandidates_initial sv x.input cat t).subset (mem_of_mem_filter hc)))
    obtain ⟨e, he, -, -, rfl⟩ := candidateAt_eq_some hi
    refine Bool.of_not_eq_false fun hforeign => ?_
    cases (hskip i e he hforeign).1.symm.trans hi
  rw [autoIndexMainPass_table_eq_run, autoIndexMainPass_table_eq_run, localPart_foldl _ hprobes,
    passOps_local hx hfinished hremovals]

/-- A run of the whole cluster issues the commands that the run of `postgres` alone issues from the
local part of the table. -/
theorem commandsOf_local (xs : List ClusterPass) (cat : Catalog) (t : AdvisorHash)
    (hx : ∀ x ∈ xs, ∀ c ∈ x.drained, ∀ k ∈ c.entry.charged, loc k = c.fromPostgres)
    (hprobes : ∀ n op, (workerOps sv ⟨cat, t⟩ (xs.map ClusterPass.input))[n]? = some op →
      ProbesApart loc
      (((workerOps sv ⟨cat, t⟩ (xs.map ClusterPass.input)).take n).foldl TableOp.run t) op)
    (hskip : ∀ n x, xs[n]? = some x →
      Untriggered sv loc (workerAfter sv ⟨cat, t⟩ ((xs.take n).map ClusterPass.input)) x) :
    commandsOf sv ⟨cat, localPart loc t⟩ (xs.map ClusterPass.localInput) =
      commandsOf sv ⟨cat, t⟩ (xs.map ClusterPass.input) := by
  induction xs generalizing cat t with
  | nil => rfl
  | cons x xs ih =>
    obtain ⟨hhead, htail⟩ := forall_mem_cons.mp hx
    rw [map_cons, workerOps, Runs.forall_call_append (fun before => ProbesApart loc
      (before.foldl TableOp.run t))] at hprobes
    rw [Runs.forall_call_cons (fun before => Untriggered sv loc (workerAfter sv ⟨cat, t⟩
      (before.map ClusterPass.input)))] at hskip
    obtain ⟨hprobes, hprobes'⟩ := hprobes
    -- After the first pass the two runs have the same catalog, and tables in the same relation.
    obtain ⟨hcommands, hcatalog, htable⟩ := autoIndexMainPass_local hhead hprobes hskip.1
    have hrest := ih (autoIndexMainPass sv x.input cat t).catalog
      (autoIndexMainPass sv x.input cat t).table htail ?_ ?_
    · rw [map_cons, map_cons, commandsOf, commandsOf, hcommands, workerStep, workerStep, hcatalog,
        htable, hrest]
    · simpa only [foldl_append, ← autoIndexMainPass_table_eq_run, workerStep] using hprobes'
    · simpa only [map_cons, workerAfter_cons, workerStep] using hskip.2

/-- A run without queries in other databases is separated, whatever slots its columns share. -/
theorem separated_of_own {xs : List ClusterPass}
    (h : ∀ x ∈ xs, ∀ c ∈ x.drained, c.fromPostgres = true) :
    Separated sv cat (fun _ => true) xs where
  columns x hx c hc _ _ := (h x hx c hc).symm
  probes _ _ _ _ _ _ _ _ _ _ := rfl
  untriggered _ _ _ _ _ _ hforeign := nomatch hforeign

/-- Two runs from the same catalog with the same queries in `postgres`, in both of which the queries
of the other databases stay out of the way, issue the same commands. -/
theorem isolation_of_separated (sv : Server) (cat : Catalog) (loc loc' : ColStatsKey → Bool)
    (xs ys : List ClusterPass)
    (hsame : xs.map ClusterPass.localInput = ys.map ClusterPass.localInput)
    (hxs : Separated sv cat loc xs) (hys : Separated sv cat loc' ys) :
    commandsOf sv ⟨cat, .empty⟩ (xs.map ClusterPass.input) =
      commandsOf sv ⟨cat, .empty⟩ (ys.map ClusterPass.input) := by
  -- Each run issues the commands of its `postgres` part, and the two have the same.
  have hlocal : ∀ {loc : ColStatsKey → Bool} {xs : List ClusterPass}, Separated sv cat loc xs →
      commandsOf sv ⟨cat, .empty⟩ (xs.map ClusterPass.localInput) =
        commandsOf sv ⟨cat, .empty⟩ (xs.map ClusterPass.input) := by
    intro loc xs h
    exact commandsOf_local xs cat .empty h.columns h.probes h.untriggered
  rw [← hlocal hxs, ← hlocal hys, hsame]

/-- A pass with one query in another database, on the relation that has there the OID of `orders`.
-/
def foreignPass : ClusterPass where
  now := 2
  drained := [⟨false, .onePredicate 16384 2 500 1⟩]
  raises := fun _ => false

/-- A pass without queries. -/
def idlePass : ClusterPass where
  now := 2
  drained := []
  raises := fun _ => false

/-- Nothing runs in `postgres` in either run, but the query in the other database makes the advisor
create an index in `postgres`. -/
theorem isolation_broken :
    [foreignPass].map ClusterPass.localInput = [idlePass].map ClusterPass.localInput ∧
      commandsOf smallServer ⟨ordersCatalog, .empty⟩ ([foreignPass].map ClusterPass.input) =
        [⟨"orders", "customer"⟩] ∧
      commandsOf smallServer ⟨ordersCatalog, .empty⟩ ([idlePass].map ClusterPass.input) = [] := by
  refine ⟨rfl, ?_, ?_⟩ <;> decide +kernel

/-- A pass with three queries in `postgres`, of which two are on columns with the same first slot,
and a cheap one in another database on a relation with another OID. -/
def mixedPass : ClusterPass where
  now := 2
  drained := [⟨false, .onePredicate 16390 1 50 1⟩, ⟨true, .onePredicate 16384 32 50 1⟩,
    ⟨true, .onePredicate 16385 1 50 1⟩, ⟨true, .onePredicate 16384 2 500 1⟩]
  raises := fun _ => false

/-- The same pass without the query in the other database. -/
def ownPass : ClusterPass where
  now := 2
  drained := mixedPass.drained.tail
  raises := fun _ => false

/-- The relation has one of the two OIDs. -/
def isOwn (k : ColStatsKey) : Bool := k.relid = 16384 ∨ k.relid = 16385

/-- A run of one pass is separated if its queries, its calls and its table are. -/
theorem separated_singleton {x : ClusterPass}
    (hcolumns : ∀ c ∈ x.drained, ∀ k ∈ c.entry.charged, loc k = c.fromPostgres)
    (hprobes : ∀ n < (workerOps sv ⟨cat, .empty⟩ [x.input]).length,
      ((workerOps sv ⟨cat, .empty⟩ [x.input])[n]?).all fun op => decide
        (ProbesApart loc (tableAfter ((workerOps sv ⟨cat, .empty⟩ [x.input]).take n)) op))
    (htable : ∀ i, (passTable sv x.input .empty i).all (fun cs => loc cs.key ||
      (candidateAt sv cat (passTable sv x.input .empty) i).isNone) = true)
    (hraises : ∀ st, x.raises st = false) : Separated sv cat loc [x] := by
  refine ⟨by simpa using hcolumns, fun n op hop => ?_, ?_⟩
  · have hall := hprobes n (List.getElem?_eq_some_iff.mp hop).1
    rw [map_singleton] at hop
    rw [hop] at hall
    simpa using hall
  · rintro (_ | n) y hy i cs hi hloc <;> cases hy
    have hall := htable i
    rw [take_zero, map_nil, workerAfter, foldl_nil] at hi ⊢
    rw [hi] at hall
    refine ⟨?_, hraises _⟩
    simpa [hloc] using hall

/-- The cheap query in the other database does not change the commands. -/
theorem isolation_of_cheap :
    commandsOf smallServer ⟨ordersCatalog, .empty⟩ ([mixedPass].map ClusterPass.input) =
      commandsOf smallServer ⟨ordersCatalog, .empty⟩ ([ownPass].map ClusterPass.input) := by
  refine isolation_of_separated smallServer ordersCatalog isOwn _ [mixedPass] [ownPass] rfl
    (separated_singleton ?_ ?_ ?_ fun _ => rfl) (separated_of_own ?_) <;>
    decide +kernel

end PgAutoIndex.AutoIndex
