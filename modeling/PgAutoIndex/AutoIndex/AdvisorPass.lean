import PgAutoIndex.AutoIndex.Advisor
import PgAutoIndex.AutoIndex.TableMap

/-!
# What a pass leaves behind

The loops of `autoindex_run_advisor` in terms of what they start from. The candidates of a pass are
those of its table's slots, by rent. The effect of the creation loop on the tracking table is a list
of removals (`removals`), one for each candidate finished whose table is below its cap. Its effect
on the catalog, if the pass commits, is a list of indexes (`orders`), one for each candidate for
which a command runs, of which those are built whose names are free (`built`).

Eviction, drain and removals are calls of the tracking table's operations, so that a whole run of
passes is a run of such calls (`workerAfter_table`). As long as each of them deletes safely, the
worker's table represents the map of what has been charged (`workerAfter_refines`).
-/

namespace PgAutoIndex.AutoIndex

open LinearProbing List

/-! ## Candidates -/

/-- The candidate in a slot, if its entry passes the guards and its rent has reached the build
cost. -/
def candidateAt (sv : Server) (cat : Catalog) (t : AdvisorHash) (i : Fin ADVISOR_HASH_SIZE) :
    Option IndexCandidate :=
  (t i).bind fun cs =>
    if cs.eligible sv ∧ estimateIndexBuildCost sv cat cs.key.relid ≤ cs.cumulative_rent then
      some (cs.candidate (estimateIndexBuildCost sv cat cs.key.relid))
    else none

/-- The candidates of a table in the order in which they are handled. -/
def passCandidates (sv : Server) (cat : Catalog) (t : AdvisorHash) : List IndexCandidate :=
  sortCandidates ((finRange ADVISOR_HASH_SIZE).filterMap (candidateAt sv cat t))

variable {sv : Server} {cat snapshot : Catalog} {raises : Statement → Bool} {t : AdvisorHash}
  {e : ColStatsEntry}
variable {cs : List IndexCandidate} {i : ℕ} {c : IndexCandidate} {p p' : Pass} {x : PassInput}
  {cat' : Catalog}

/-- An evaluation loop that raises no error collects the slots' candidates. -/
theorem collectCandidates_ok {slots : List (Fin ADVISOR_HASH_SIZE)}
    (h : collectCandidates sv cat raises t slots = .ok cs) :
    cs = slots.filterMap (candidateAt sv cat t) := by
  induction slots generalizing cs with
  | nil => simpa [collectCandidates] using h.symm
  | cons i slots ih =>
    unfold collectCandidates at h
    rw [filterMap_cons]
    cases hi : t i with
    | none =>
      simp only [hi] at h
      simp [candidateAt, hi, ih h]
    | some entry =>
      simp only [hi] at h
      rw [candidateAt, hi, Option.bind_some]
      by_cases helig : entry.eligible sv = true
      · simp only [helig, if_true, true_and] at h ⊢
        cases hrest : collectCandidates sv cat raises t slots with
        | error e =>
          simp only [hrest] at h
          split_ifs at h
        | ok rest =>
          simp only [hrest] at h
          rw [← ih hrest]
          split_ifs at h ⊢ <;> simpa using h.symm
      · simp only [helig, Bool.false_eq_true, if_false] at h
        simp [helig, ih h]

/-- The evaluation loop of a pass that fails for no outside reason. -/
theorem collectCandidates_of_runs (h : ∀ st, raises st = false) (t : AdvisorHash)
    (slots : List (Fin ADVISOR_HASH_SIZE)) :
    collectCandidates sv cat raises t slots = .ok (slots.filterMap (candidateAt sv cat t)) := by
  have hok : ∃ cs, collectCandidates sv cat raises t slots = .ok cs := by
    induction slots with
    | nil => exact ⟨[], rfl⟩
    | cons i slots ih =>
      obtain ⟨cs, hcs⟩ := ih
      unfold collectCandidates
      cases t i with
      | none => exact ⟨cs, hcs⟩
      | some entry =>
        simp only [h, hcs, Bool.false_eq_true, if_false]
        split_ifs <;> exact ⟨_, rfl⟩
  obtain ⟨cs, hcs⟩ := hok
  rw [hcs, collectCandidates_ok hcs]

/-- Exchanging only moves candidates. -/
theorem exchange_perm (c : IndexCandidate) (cs : List IndexCandidate) :
    ((exchange c cs).1 :: (exchange c cs).2).Perm (c :: cs) := by
  induction cs generalizing c with
  | nil => exact .refl _
  | cons d ds ih =>
    unfold exchange
    split_ifs
    · exact (List.Perm.swap _ _ _).trans ((ih d).cons c)
    · exact ((List.Perm.swap _ _ _).trans ((ih c).cons d)).trans (List.Perm.swap _ _ _)

/-- The outer loop of the sort only moves candidates. -/
theorem sortLoop_perm (n : ℕ) (cs : List IndexCandidate) : (sortLoop n cs).Perm cs := by
  induction n generalizing cs with
  | zero => exact .refl _
  | succ n ih =>
    cases cs with
    | nil => exact .refl _
    | cons c cs => exact ((ih _).cons _).trans (exchange_perm c cs)

/-- The sort only moves candidates. -/
theorem sortCandidates_perm (cs : List IndexCandidate) : (sortCandidates cs).Perm cs :=
  sortLoop_perm cs.length cs

/-- A slot's candidate comes from the slot's entry. -/
theorem candidateAt_eq_some {i : Fin ADVISOR_HASH_SIZE} (h : candidateAt sv cat t i = some c) :
    ∃ cs, t i = some cs ∧ cs.eligible sv = true ∧
      estimateIndexBuildCost sv cat cs.key.relid ≤ cs.cumulative_rent ∧
      c = cs.candidate (estimateIndexBuildCost sv cat cs.key.relid) := by
  obtain ⟨cs, hi, hcs⟩ := Option.bind_eq_some_iff.mp h
  split_ifs at hcs with hpaid
  cases hcs
  exact ⟨cs, hi, hpaid.1, hpaid.2, rfl⟩

/-! ## The creation loop -/

/-- The command that `create_index_for_candidate` builds in a catalog. -/
def IndexCandidate.command (cat : Catalog) (c : IndexCandidate) : Option CreateIndex :=
  (cat.relations.find? fun r => r.oid = c.relid).bind fun r =>
    (r.attributes.find? fun a => a.attnum = c.attnum).map fun a => ⟨r.relname, a.attname⟩

/-- The state in which the loop ends or raises its error. -/
def reached : Except (SqlError × Pass) Pass → Pass
  | .ok p => p
  | .error (_, p) => p

/-- What can be seen of a loop besides the table: its error, if any, the catalog and the commands.
-/
def outcome : Except (SqlError × Pass) Pass → Option SqlError × Catalog × List CreateIndex
  | .ok p => (none, p.catalog, p.commands)
  | .error (e, p) => (some e, p.catalog, p.commands)

/-- `create_index_for_candidate` succeeds when its command does. -/
theorem createIndexForCandidate_ok {raise : Bool}
    (h : createIndexForCandidate sv raise c.relid c.attnum p = .ok p') :
    ∃ cmd cat', c.command p.catalog = some cmd ∧ cmd.exec sv p.catalog = .ok cat' ∧
      p' = ⟨cat', p.table, p.commands ++ [cmd]⟩ := by
  unfold createIndexForCandidate getColumnName getTableName at h
  unfold IndexCandidate.command
  cases hr : p.catalog.relations.find? fun r => r.oid = c.relid with
  | none => simp [hr] at h
  | some r =>
    cases ha : r.attributes.find? fun a => a.attnum = c.attnum with
    | none => simp [hr, ha] at h
    | some a =>
      simp only [hr, ha, Option.bind_some, Option.map_some] at h ⊢
      split_ifs at h
      split at h
      · cases h
      · rename_i cat' hexec
        cases h
        exact ⟨_, cat', rfl, hexec, rfl⟩

/-- The names of a command are those that the candidate's table and column have. -/
theorem command_eq_some {cmd : CreateIndex} (h : c.command cat = some cmd) :
    getTableName cat c.relid = some cmd.tblname ∧
      getColumnName cat c.relid c.attnum = .ok cmd.colname := by
  obtain ⟨r, hr, hr'⟩ := Option.bind_eq_some_iff.mp h
  obtain ⟨a, ha, rfl⟩ := Option.map_eq_some_iff.mp hr'
  simp [getTableName, getColumnName, hr, ha]

/-- With its command it succeeds, if nothing else raises an error. -/
theorem createIndexForCandidate_of_exec {cmd : CreateIndex} (hcmd : c.command p.catalog = some cmd)
    (hexec : cmd.exec sv p.catalog = .ok cat') :
    createIndexForCandidate sv false c.relid c.attnum p =
      .ok ⟨cat', p.table, p.commands ++ [cmd]⟩ := by
  obtain ⟨htable, hcolumn⟩ := command_eq_some hcmd
  simp [createIndexForCandidate, htable, hcolumn, hexec]

/-- The ways in which a candidate is finished: skipped at the cap, removed because an index exists,
or removed after its command. -/
theorem handleCandidate_ok (h : handleCandidate sv snapshot raises i c p = .ok p') :
    (c.capped sv snapshot = true ∧ p' = p) ∨
    (c.capped sv snapshot = false ∧ indexAlreadyExists snapshot c.relid c.attnum = true ∧
      p' = { p with table := advisorHashRemove p.table c.key }) ∨
    (c.capped sv snapshot = false ∧ indexAlreadyExists snapshot c.relid c.attnum = false ∧
      ∃ cmd cat', c.command p.catalog = some cmd ∧ cmd.exec sv p.catalog = .ok cat' ∧
        p' = ⟨cat', advisorHashRemove p.table c.key, p.commands ++ [cmd]⟩) := by
  unfold handleCandidate at h
  split_ifs at h with _ hcap _ hex
  · cases h
    exact .inl ⟨hcap, rfl⟩
  · cases h
    exact .inr (.inl ⟨by simpa using hcap, hex, rfl⟩)
  · split at h
    · cases h
    · rename_i q hq
      cases h
      obtain ⟨cmd, cat', hcmd, hexec, rfl⟩ := createIndexForCandidate_ok hq
      exact .inr (.inr ⟨by simpa using hcap, by simpa using hex, cmd, cat', hcmd, hexec, rfl⟩)

/-- If no statement raises an error for an outside reason, a candidate is finished unless its
command fails. -/
theorem handleCandidate_of_runs (hraises : ∀ st, raises st = false) :
    handleCandidate sv snapshot raises i c p =
      if c.capped sv snapshot then .ok p
      else if indexAlreadyExists snapshot c.relid c.attnum then
        .ok { p with table := advisorHashRemove p.table c.key }
      else (createIndexForCandidate sv false c.relid c.attnum p).map fun p' =>
        { p' with table := advisorHashRemove p'.table c.key } := by
  unfold handleCandidate
  simp only [hraises, Bool.false_eq_true, if_false]
  cases createIndexForCandidate sv false c.relid c.attnum p <;> rfl

/-- A candidate that raises an error has not changed the tracking table. -/
theorem handleCandidate_error {e : SqlError × Pass}
    (h : handleCandidate sv snapshot raises i c p = .error e) : e.2.table = p.table := by
  unfold handleCandidate at h
  split_ifs at h
  iterate 2
    cases h
    rfl
  · -- `create_index_for_candidate` does not touch the tracking table.
    have htable : (reached
      (createIndexForCandidate sv (raises (.create i)) c.relid c.attnum p)).table = p.table := by
      unfold createIndexForCandidate
      split <;> try rfl
      dsimp only
      split_ifs
      · rfl
      · split <;> rfl
    split at h
    · rename_i e' he
      cases h
      rwa [he] at htable
    · cases h

/-! ## The tracking table after a pass -/

/-- The keys that the loop removes for the candidates that it has finished. -/
def removals (sv : Server) (snapshot : Catalog) (cs : List IndexCandidate) : List ColStatsKey :=
  (cs.filter fun c => !c.capped sv snapshot).map IndexCandidate.key

/-- The candidates that the loop finishes before a statement raises an error. -/
def finished (sv : Server) (snapshot : Catalog) (raises : Statement → Bool) :
    ℕ → List IndexCandidate → Pass → List IndexCandidate
  | _, [], _ => []
  | i, c :: cs, p =>
    match handleCandidate sv snapshot raises i c p with
    | .error _ => []
    | .ok p' => c :: finished sv snapshot raises (i + 1) cs p'

/-- The loop removes the keys of the candidates that it finishes, also when it fails. -/
theorem runCandidates_table (i : ℕ) (cs : List IndexCandidate) (p : Pass) :
    (reached (runCandidates sv snapshot raises i cs p)).table =
      (removals sv snapshot (finished sv snapshot raises i cs p)).foldl advisorHashRemove
        p.table := by
  induction cs generalizing i p with
  | nil => rfl
  | cons c cs ih =>
    unfold runCandidates finished
    cases h : handleCandidate sv snapshot raises i c p with
    | error e => exact handleCandidate_error h
    | ok p' =>
      rw [ih]
      obtain ⟨hcap, rfl⟩ | ⟨hcap, -, rfl⟩ | ⟨hcap, -, cmd, cat', -, -, rfl⟩ :=
        handleCandidate_ok h <;>
        simp [removals, hcap]

/-- A loop that returns has finished every candidate. -/
theorem finished_of_ok (h : runCandidates sv snapshot raises i cs p = .ok p') :
    finished sv snapshot raises i cs p = cs := by
  induction cs generalizing i p with
  | nil => rfl
  | cons c cs ih =>
    unfold runCandidates at h
    unfold finished
    cases hq : handleCandidate sv snapshot raises i c p with
    | error e => simp [hq] at h
    | ok q =>
      rw [hq] at h
      simp only [ih h]

/-- A removal only clears slots. -/
theorem advisorHashRemove_eq_some {k : ColStatsKey} {i : Fin ADVISOR_HASH_SIZE} :
    advisorHashRemove t k i = some e ↔ t i = some e ∧ advisorHashFind t k ≠ .hit i := by
  unfold advisorHashRemove
  cases advisorHashFind t k with
  | free j => simp
  | full => simp
  | hit j =>
    by_cases hij : i = j
    · simp [hij]
    · simp [Function.update_of_ne hij, Ne.symm hij]

/-- Removals only clear slots. -/
theorem foldl_remove_eq_some {ks : List ColStatsKey} {i : Fin ADVISOR_HASH_SIZE}
    (h : ks.foldl advisorHashRemove t i = some e) : t i = some e := by
  induction ks generalizing t with
  | nil => exact h
  | cons k ks ih => exact (advisorHashRemove_eq_some.mp (ih h)).1

/-- The entries lost to a list of removals are all of keys with a property exactly when every
removal that finds an entry is of such a key. -/
theorem foldl_remove_keeps_iff (t : AdvisorHash) (ks : List ColStatsKey) (Q : ColStatsKey → Prop) :
    (∀ i e, t i = some e → ¬ Q e.key → ks.foldl advisorHashRemove t i = some e) ↔
      ∀ n k, ks[n]? = some k →
        ∀ i, advisorHashFind ((ks.take n).foldl advisorHashRemove t) k = .hit i → Q k := by
  -- The induction is on the last removal, which meets the table that the others have left.
  induction ks using reverseRecOn with
  | nil => exact iff_of_true (fun i e hi _ => hi) (by simp)
  | append_singleton ks k ih =>
    rw [Runs.forall_call_concat (fun l k =>
      ∀ i, advisorHashFind (l.foldl advisorHashRemove t) k = .hit i → Q k), ← ih]
    simp only [foldl_append, foldl_cons, foldl_nil, advisorHashRemove_eq_some]
    constructor
    · intro h
      refine ⟨fun i e hi hQ => (h i e hi hQ).1, fun i hi => ?_⟩
      -- The last removal clears an entry, which was in that slot from the start.
      obtain ⟨⟨e, he, rfl⟩, -⟩ := find_eq_hit_iff.mp hi
      by_contra hQ
      exact (h i e (foldl_remove_eq_some he) hQ).2 hi
    · rintro ⟨h, hlast⟩ i e hi hQ
      refine ⟨h i e hi hQ, fun hhit => ?_⟩
      obtain ⟨⟨e', he', rfl⟩, -⟩ := find_eq_hit_iff.mp hhit
      rw [h i e hi hQ] at he'
      cases he'
      exact hQ (hlast i hhit)

/-- An empty table has no candidates. -/
theorem collectCandidates_of_empty (slots : List (Fin ADVISOR_HASH_SIZE))
    (h : ∀ i ∈ slots, t i = none) : collectCandidates sv cat raises t slots = .ok [] := by
  induction slots with
  | nil => rfl
  | cons i slots ih =>
    obtain ⟨hi, hslots⟩ := forall_mem_cons.mp h
    simp only [collectCandidates, hi, ih hslots]

/-- The early return for an empty table changes nothing: the loops would do nothing. -/
theorem autoindexRunAdvisor_eq (sv : Server) (x : PassInput) (cat : Catalog) (t : AdvisorHash) :
    autoindexRunAdvisor sv x cat t =
      match collectCandidates sv cat x.raises (passTable sv x t) (finRange ADVISOR_HASH_SIZE) with
      | .error e => .error (e, ⟨cat, passTable sv x t, []⟩)
      | .ok cs =>
        runCandidates sv cat x.raises 0 (sortCandidates cs) ⟨cat, passTable sv x t, []⟩ := by
  unfold autoindexRunAdvisor
  dsimp only
  split_ifs with hempty
  · rw [collectCandidates_of_empty _ (by simpa using hempty)]
    simp only [sortCandidates, length_nil, sortLoop, runCandidates]
  · -- The scrutinee is generalized, since a case split on it would evaluate all slots.
    generalize collectCandidates sv cat x.raises (passTable sv x t)
      (finRange ADVISOR_HASH_SIZE) = r
    cases r <;> rfl

/-- The candidates that a pass finishes before a statement raises an error. -/
def finishedCandidates (sv : Server) (x : PassInput) (cat : Catalog) (t : AdvisorHash) :
    List IndexCandidate :=
  match collectCandidates sv cat x.raises (passTable sv x t) (finRange ADVISOR_HASH_SIZE) with
  | .error _ => []
  | .ok cs =>
    finished sv cat x.raises 0 (sortCandidates cs) ⟨cat, passTable sv x t, []⟩

/-- The loop finishes an initial part of its list. -/
theorem finished_initial (i : ℕ) (cs : List IndexCandidate) (p : Pass) :
    finished sv snapshot raises i cs p <+: cs := by
  induction cs generalizing i p with
  | nil => exact nil_prefix
  | cons c cs ih =>
    unfold finished
    split
    · exact nil_prefix
    · exact cons_prefix_cons.mpr ⟨rfl, ih _ _⟩

/-- A pass finishes an initial part of the candidates of its table. -/
theorem finishedCandidates_initial (sv : Server) (x : PassInput) (cat : Catalog) (t : AdvisorHash) :
    finishedCandidates sv x cat t <+: passCandidates sv cat (passTable sv x t) := by
  unfold finishedCandidates
  split
  · exact nil_prefix
  · rename_i cs hcs
    rw [passCandidates, ← collectCandidates_ok hcs]
    exact finished_initial 0 _ _

/-- The tracking table after a pass, whether it commits or not. -/
theorem autoIndexMainPass_table (sv : Server) (x : PassInput) (cat : Catalog) (t : AdvisorHash) :
    (autoIndexMainPass sv x cat t).table =
      (removals sv cat (finishedCandidates sv x cat t)).foldl advisorHashRemove
        (passTable sv x t) := by
  have hreached : (autoIndexMainPass sv x cat t).table =
      (reached (autoindexRunAdvisor sv x cat t)).table := by
    unfold autoIndexMainPass
    generalize autoindexRunAdvisor sv x cat t = r
    cases r <;> rfl
  rw [hreached, autoindexRunAdvisor_eq]
  unfold finishedCandidates
  split
  · rfl
  · exact runCandidates_table 0 _ _

/-- A pass that commits. -/
theorem autoIndexMainPass_of_ok (h : autoindexRunAdvisor sv x cat t = .ok p) :
    autoIndexMainPass sv x cat t = p := by
  unfold autoIndexMainPass
  rw [h]

/-- A pass that fails. -/
theorem autoIndexMainPass_of_error {e : SqlError × Pass}
    (h : autoindexRunAdvisor sv x cat t = .error e) :
    autoIndexMainPass sv x cat t = { e.2 with catalog := cat } := by
  unfold autoIndexMainPass
  rw [h]

/-- A pass that commits has finished all candidates of its table. -/
theorem finishedCandidates_of_ok (h : autoindexRunAdvisor sv x cat t = .ok p) :
    finishedCandidates sv x cat t = passCandidates sv cat (passTable sv x t) := by
  rw [autoindexRunAdvisor_eq] at h
  unfold finishedCandidates passCandidates
  split at h
  · cases h
  · rename_i cs hcs
    rw [← collectCandidates_ok hcs]
    exact finished_of_ok h

/-- The tracking table of a pass that commits. -/
theorem autoindexRunAdvisor_table (h : autoindexRunAdvisor sv x cat t = .ok p) :
    p.table = (removals sv cat (passCandidates sv cat (passTable sv x t))).foldl advisorHashRemove
      (passTable sv x t) := by
  rw [← autoIndexMainPass_of_ok h, autoIndexMainPass_table, finishedCandidates_of_ok h]

/-! ## The calls of a run -/

/-- The calls that a pass makes on the tracking table. -/
def passOps (sv : Server) (x : PassInput) (cat : Catalog) (t : AdvisorHash) : List TableOp :=
  .evictStale x.now sv.workload_window_days :: drainOps x.drained ++
    (removals sv cat (finishedCandidates sv x cat t)).map .remove

/-- The calls that a run of passes makes. -/
def workerOps (sv : Server) : WorkerState → List PassInput → List TableOp
  | _, [] => []
  | s, x :: xs => passOps sv x s.catalog s.table ++ workerOps sv (workerStep sv s x) xs

/-- A pass makes its calls one after the other, whether it commits or not. -/
theorem autoIndexMainPass_table_eq_run (sv : Server) (x : PassInput) (cat : Catalog)
    (t : AdvisorHash) :
    (autoIndexMainPass sv x cat t).table = (passOps sv x cat t).foldl TableOp.run t := by
  rw [autoIndexMainPass_table, passTable, drainEntries_eq_run, passOps, foldl_append,
    foldl_map, foldl_cons]
  rfl

/-- The worker's table after a run of passes is the table after the calls that the run makes. -/
theorem workerAfter_table (sv : Server) (s : WorkerState) (xs : List PassInput) :
    (workerAfter sv s xs).table = (workerOps sv s xs).foldl TableOp.run s.table := by
  induction xs generalizing s with
  | nil => rfl
  | cons x xs ih =>
    rw [workerAfter_cons, ih, workerOps, foldl_append, ← autoIndexMainPass_table_eq_run,
      workerStep]

/-- The worker's table after a run of passes from an empty table, failing passes included, is the
table after the calls of the run. If all of these delete safely, the worker's table represents the
map after them. -/
theorem workerAfter_refines (sv : Server) (cat : Catalog) (xs : List PassInput) :
    let ops := workerOps sv ⟨cat, .empty⟩ xs
    (workerAfter sv ⟨cat, .empty⟩ xs).table = tableAfter ops ∧
      ((∀ n op, ops[n]? = some op → DeletesSafely (tableAfter (ops.take n)) op) →
        Refines (workerAfter sv ⟨cat, .empty⟩ xs).table (mapAfter ops)) := by
  have htable := workerAfter_table sv ⟨cat, .empty⟩ xs
  refine ⟨htable, fun hsafe => ?_⟩
  rw [htable]
  exact refines_of_deletesSafely hsafe

/-! ## Building a list of indexes -/

/-- Those of a list of indexes that get built, one after the other. -/
def built (cat : Catalog) : List PgIndex → List PgIndex
  | [] => []
  | i :: js => if i.name ∈ cat.names then built cat js else i :: built (cat.add i) js

/-- An index of a name that is taken is not built. -/
theorem add_of_mem {i : PgIndex} (h : i.name ∈ cat.names) : cat.add i = cat := by
  rw [Catalog.add, dif_pos h]

/-- An index of a free name is built. -/
theorem indexes_add {i : PgIndex} (h : i.name ∉ cat.names) :
    (cat.add i).indexes = cat.indexes ++ [i] := by
  rw [Catalog.add, dif_neg h]

/-- Building an index keeps the tables. -/
theorem relations_add (cat : Catalog) (i : PgIndex) : (cat.add i).relations = cat.relations := by
  unfold Catalog.add
  split_ifs <;> rfl

/-- The names taken after building an index of a free name. -/
theorem mem_names_add {i : PgIndex} (h : i.name ∉ cat.names) (name : Oid × String) :
    name ∈ (cat.add i).names ↔ name ∈ cat.names ∨ name = i.name := by
  unfold Catalog.names
  rw [indexes_add h, relations_add]
  simp [or_assoc]

/-- Building a list of indexes changes the catalog by those built. -/
theorem foldl_add (cat : Catalog) (js : List PgIndex) :
    (js.foldl Catalog.add cat).indexes = cat.indexes ++ built cat js := by
  induction js generalizing cat with
  | nil => simp [built]
  | cons i js ih =>
    rw [foldl_cons, ih, built]
    split_ifs with hname
    · rw [add_of_mem hname]
    · rw [indexes_add hname, append_assoc, singleton_append]

/-- The indexes built are those whose name is free before, and is not the name of an index that
comes earlier in the list. -/
theorem mem_built_iff {js : List PgIndex} {j : PgIndex} :
    j ∈ built cat js ↔ ∃ before after, js = before ++ j :: after ∧ j.name ∉ cat.names ∧
      ∀ i ∈ before, i.name ≠ j.name := by
  induction js generalizing cat with
  | nil => simp [built]
  | cons i js ih =>
    rw [built]
    split_ifs with hname
    · -- The head is not built, and nothing of its name is, since the name is taken.
      have hne : j.name ∉ cat.names → i.name ≠ j.name := fun hfree heq => hfree (heq ▸ hname)
      rw [ih]
      constructor
      · rintro ⟨before, after, rfl, hfree, hfirst⟩
        exact ⟨i :: before, after, rfl, hfree, forall_mem_cons.mpr ⟨hne hfree, hfirst⟩⟩
      · rintro ⟨_ | ⟨b, before⟩, after, hjs, hfree, hfirst⟩ <;> cases hjs
        · exact absurd rfl (hne hfree)
        · exact ⟨before, after, rfl, hfree, (forall_mem_cons.mp hfirst).2⟩
    · -- The head is built, and takes its name from the rest.
      have hadd : j.name ∉ (cat.add i).names ↔ j.name ∉ cat.names ∧ i.name ≠ j.name := by
        rw [mem_names_add hname, not_or, ne_comm]
      rw [List.mem_cons, ih]
      constructor
      · rintro (rfl | ⟨before, after, rfl, hfree, hfirst⟩)
        · exact ⟨[], js, rfl, hname, by simp⟩
        · obtain ⟨hfree', hne⟩ := hadd.mp hfree
          exact ⟨i :: before, after, rfl, hfree', forall_mem_cons.mpr ⟨hne, hfirst⟩⟩
      · rintro ⟨_ | ⟨b, before⟩, after, hjs, hfree, hfirst⟩ <;> cases hjs
        · exact .inl rfl
        · obtain ⟨hne, hfirst'⟩ := forall_mem_cons.mp hfirst
          exact .inr ⟨before, after, rfl, hadd.mpr ⟨hfree, hne⟩, hfirst'⟩

/-! ## The catalog after a pass that commits -/

/-- The candidates for which the loop runs a command. -/
def purchases (sv : Server) (snapshot : Catalog) (cs : List IndexCandidate) : List IndexCandidate :=
  cs.filter fun c => !c.capped sv snapshot && !indexAlreadyExists snapshot c.relid c.attnum

/-- The index that the command for a candidate asks for. -/
def IndexCandidate.order (sv : Server) (cat : Catalog) (c : IndexCandidate) : Option PgIndex :=
  (c.command cat).bind fun cmd => (cmd.wanted sv.search_path cat).toOption

/-- The indexes that the commands of a pass ask for. -/
def orders (sv : Server) (snapshot : Catalog) (cs : List IndexCandidate) : List PgIndex :=
  (purchases sv snapshot cs).filterMap (IndexCandidate.order sv snapshot)

/-- No command of the pass has an index name that the server reads as SQL of its own and accepts,
nor makes an index on a partitioned table. -/
def NoInjection (sv : Server) (snapshot : Catalog) (cs : List IndexCandidate) : Prop :=
  ∀ c ∈ purchases sv snapshot cs, ∀ cmd, c.command snapshot = some cmd →
    cmd.plain sv.search_path snapshot = true ∨
      ∀ cat, ∃ e, sv.otherSql (cmd.text sv.reserved) cat = .error e

/-- A catalog with the same tables, and at least the indexes. -/
def Catalog.Grows (cat cat' : Catalog) : Prop :=
  cat'.relations = cat.relations ∧ ∀ i ∈ cat.indexes, i ∈ cat'.indexes

/-- A name that stands for a table among more indexes of that name stands for it among fewer: an
index can only come before the table in the search path. -/
theorem resolveTable_of_fewer (hrel : cat'.relations = cat.relations) {relname : String}
    (hidx : ∀ i ∈ cat.indexes, i.relname = relname → i ∈ cat'.indexes) {path : List Oid}
    {r : PgClass} (h : resolveTable cat' relname path = .ok r) :
    resolveTable cat relname path = .ok r := by
  induction path with
  | nil => cases h
  | cons nsp path ih =>
    unfold resolveTable at h ⊢
    rw [hrel] at h
    split at h
    · exact h
    · split_ifs at h with hany
      -- No index shadows the table among more indexes, so none does among fewer.
      rw [if_neg]
      · exact ih h
      · intro hany'
        refine hany ?_
        rw [any_eq_true] at hany' ⊢
        obtain ⟨i, hi, hname⟩ := hany'
        exact ⟨i, hidx i hi (Prod.mk.inj (of_decide_eq_true hname)).2, hname⟩

/-- What a command asks for among more indexes of its table's name, it asks for among fewer. -/
theorem wanted_of_fewer (hrel : cat'.relations = cat.relations) {cmd : CreateIndex}
    (hidx : ∀ i ∈ cat.indexes, i.relname = cmd.tblname → i ∈ cat'.indexes) {path : List Oid}
    {i : PgIndex} (h : cmd.wanted path cat' = .ok i) :
    cmd.wanted path cat = .ok i := by
  unfold CreateIndex.wanted at h ⊢
  split at h
  · cases h
  · rename_i r hr
    rw [resolveTable_of_fewer hrel hidx hr]
    exact h

/-- Building an index keeps the tables and the indexes there are. -/
theorem Catalog.Grows.add (hg : cat.Grows cat') (i : PgIndex) :
    cat.Grows (cat'.add i) := by
  refine ⟨(relations_add cat' i).trans hg.1, fun j hj => ?_⟩
  by_cases hname : i.name ∈ cat'.names
  · rw [add_of_mem hname]
    exact hg.2 j hj
  · rw [indexes_add hname]
    exact mem_append_left _ (hg.2 j hj)

/-- A plain command is plain among more indexes. -/
theorem CreateIndex.plain_of_grows (hg : cat.Grows cat') {cmd : CreateIndex} {path : List Oid}
    (h : cmd.plain path cat = true) : cmd.plain path cat' = true := by
  unfold CreateIndex.plain at h ⊢
  rw [Bool.and_eq_true] at h ⊢
  refine ⟨h.1, ?_⟩
  cases hr : resolveTable cat' cmd.tblname path with
  | error e => rfl
  | ok r =>
    have hfewer := resolveTable_of_fewer hg.1 (fun i hi _ => hg.2 i hi) hr
    simpa [hfewer] using h.2

/-- A command succeeds if it is plain and asks for an index, and then builds that. -/
theorem exec_ok_iff {cmd : CreateIndex}
    (hplain : cmd.plain sv.search_path cat = true ∨
      ∀ c, ∃ e, sv.otherSql (cmd.text sv.reserved) c = .error e) :
    cmd.exec sv cat = .ok cat' ↔ cmd.plain sv.search_path cat = true ∧
      ∃ i, cmd.wanted sv.search_path cat = .ok i ∧ cat' = cat.add i := by
  unfold CreateIndex.exec
  by_cases hcmd : cmd.plain sv.search_path cat = true
  · rw [if_pos hcmd]
    cases cmd.wanted sv.search_path cat with
    | error e => simp
    | ok i => simp [hcmd, eq_comm]
  · obtain ⟨e, he⟩ := hplain.resolve_left hcmd cat
    simp [hcmd, he]

/-- The creation loop of a pass that commits builds the indexes that its commands ask for. -/
theorem runCandidates_catalog (h : runCandidates sv snapshot raises i cs p = .ok p')
    (hplain : NoInjection sv snapshot cs) (hg : snapshot.Grows p.catalog) :
    p'.catalog = (orders sv snapshot cs).foldl Catalog.add p.catalog := by
  induction cs generalizing i p with
  | nil =>
    cases h
    rfl
  | cons c cs ih =>
    unfold runCandidates at h
    split at h
    · cases h
    · rename_i q hq
      have hplain' : NoInjection sv snapshot cs := by
        intro c' hc'
        exact hplain c' ((sublist_cons_self c cs).filter _ |>.subset hc')
      obtain ⟨hcap, rfl⟩ | ⟨hcap, hex, rfl⟩ | ⟨hcap, hex, cmd, cat', hcmd, hexec, rfl⟩ :=
        handleCandidate_ok hq
      · rw [ih h hplain' hg]
        simp [orders, purchases, hcap]
      · rw [ih h hplain' hg]
        simp [orders, purchases, hcap, hex]
      · -- A command runs in the grown catalog, and asks for the same index as in the snapshot.
        have hcmd' : c.command snapshot = some cmd := by
          unfold IndexCandidate.command at hcmd ⊢
          rw [← hg.1, hcmd]
        have hmem : c ∈ purchases sv snapshot (c :: cs) := by
          simp [purchases, hcap, hex]
        obtain ⟨-, j, hj, rfl⟩ := (exec_ok_iff
          ((hplain c hmem cmd hcmd').imp_left (CreateIndex.plain_of_grows hg))).mp hexec
        have horder : c.order sv snapshot = some j := by
          simp [IndexCandidate.order, hcmd', wanted_of_fewer hg.1 (fun i hi _ => hg.2 i hi) hj,
            Except.toOption]
        rw [ih h hplain' (hg.add j)]
        simp [orders, purchases, hcap, hex, horder]

/-- The catalog after a pass that commits: the indexes ordered are built, as far as their names are
free. -/
theorem autoindexRunAdvisor_catalog (h : autoindexRunAdvisor sv x cat t = .ok p)
    (hplain : NoInjection sv cat (passCandidates sv cat (passTable sv x t))) :
    p.catalog.indexes = cat.indexes ++
      built cat (orders sv cat (passCandidates sv cat (passTable sv x t))) := by
  rw [autoindexRunAdvisor_eq] at h
  split at h
  · cases h
  · rename_i cs hcs
    have hcands : sortCandidates cs = passCandidates sv cat (passTable sv x t) := by
      rw [passCandidates, ← collectCandidates_ok hcs]
    rw [hcands] at h
    rw [runCandidates_catalog h hplain ⟨rfl, fun _ hi => hi⟩, foldl_add]

/-- The columns with an index after a pass that commits: those that had one, and those for which the
pass ordered one under a free name, and no other of that name before. -/
theorem autoindexRunAdvisor_indexed_iff (h : autoindexRunAdvisor sv x cat t = .ok p)
    (hplain : NoInjection sv cat (passCandidates sv cat (passTable sv x t))) (relid : Oid)
    (attnum : Int16) :
    p.catalog.Indexed relid attnum ↔ cat.Indexed relid attnum ∨
      ∃ before j after, orders sv cat (passCandidates sv cat (passTable sv x t)) =
          before ++ j :: after ∧
        j.indrelid = relid ∧ j.indkey = attnum ∧
        j.name ∉ cat.names ∧ ∀ i ∈ before, i.name ≠ j.name := by
  simp only [Catalog.Indexed, autoindexRunAdvisor_catalog h hplain, List.mem_append, or_and_right,
    exists_or, mem_built_iff]
  refine or_congr_right ⟨?_, ?_⟩
  · rintro ⟨j, ⟨before, after, hjs, hnew⟩, hrel, hatt⟩
    exact ⟨before, j, after, hjs, hrel, hatt, hnew⟩
  · rintro ⟨before, j, after, hjs, hrel, hatt, hnew⟩
    exact ⟨j, ⟨before, after, hjs, hnew⟩, hrel, hatt⟩

/-! ## When a pass commits -/

/-- The table and the column of the candidate are there, and its command asks for an index in a
catalog `grown` to which the pass has added others. -/
def IndexCandidate.served (sv : Server) (cat grown : Catalog) (c : IndexCandidate) : Bool :=
  (c.command cat).any fun cmd =>
    cmd.plain sv.search_path grown && (cmd.wanted sv.search_path grown).isOk

/-- A candidate that is served gets the index that it orders, and any other raises an error. -/
theorem createIndexForCandidate_cases (hg : snapshot.Grows p.catalog)
    (hplain : ∀ cmd, c.command snapshot = some cmd → cmd.plain sv.search_path snapshot = true ∨
      ∀ cat, ∃ e, sv.otherSql (cmd.text sv.reserved) cat = .error e) :
    (c.served sv snapshot p.catalog = true ∧ ∃ j cmd, c.order sv snapshot = some j ∧
      createIndexForCandidate sv false c.relid c.attnum p =
        .ok ⟨p.catalog.add j, p.table, p.commands ++ [cmd]⟩) ∨
    c.served sv snapshot p.catalog = false ∧
      ∃ e, createIndexForCandidate sv false c.relid c.attnum p = .error e := by
  have hcommand : c.command p.catalog = c.command snapshot := by
    unfold IndexCandidate.command
    rw [hg.1]
  unfold IndexCandidate.served
  cases h : createIndexForCandidate sv false c.relid c.attnum p with
  | ok p' =>
    obtain ⟨cmd, cat', hcmd, hexec, rfl⟩ := createIndexForCandidate_ok h
    rw [hcommand] at hcmd
    obtain ⟨hcmd', j, hj, rfl⟩ := (exec_ok_iff ((hplain cmd hcmd).imp_left
      (CreateIndex.plain_of_grows hg))).mp hexec
    refine .inl ⟨by simp [hcmd, hcmd', hj, Except.isOk, Except.toBool], j, cmd, ?_, rfl⟩
    simp [IndexCandidate.order, hcmd, wanted_of_fewer hg.1 (fun i hi _ => hg.2 i hi) hj,
      Except.toOption]
  | error e =>
    refine .inr ⟨Bool.eq_false_iff.mpr fun hserved => ?_, e, rfl⟩
    obtain ⟨cmd, hcmd, hserved⟩ := (Option.any_eq_true _ _).mp hserved
    rw [Bool.and_eq_true] at hserved
    cases hj : cmd.wanted sv.search_path p.catalog with
    | error e => simp [hj, Except.isOk, Except.toBool] at hserved
    | ok j =>
      have hexec := (exec_ok_iff (.inl hserved.1)).mpr ⟨hserved.1, j, hj, rfl⟩
      rw [createIndexForCandidate_of_exec (hcommand.trans hcmd) hexec] at h
      cases h

/-- If no statement raises an error for an outside reason, the creation loop returns exactly when
every purchase is served after the orders of those before it. -/
theorem runCandidates_ok_iff (hraises : ∀ st, raises st = false)
    (hplain : NoInjection sv snapshot cs)
    (hg : snapshot.Grows p.catalog) :
    (∃ p', runCandidates sv snapshot raises i cs p = .ok p') ↔
      ∀ n (c : IndexCandidate), (purchases sv snapshot cs)[n]? = some c → c.served sv snapshot
        ((((purchases sv snapshot cs).take n).filterMap (IndexCandidate.order sv snapshot)).foldl
          Catalog.add p.catalog) = true := by
  induction cs generalizing i p with
  | nil => exact iff_of_true ⟨p, rfl⟩ (by simp [purchases])
  | cons c cs ih =>
    have hplain' : NoInjection sv snapshot cs := fun c' hc' =>
      hplain c' ((sublist_cons_self c cs).filter _ |>.subset hc')
    unfold runCandidates
    rw [handleCandidate_of_runs hraises]
    by_cases hcap : c.capped sv snapshot = true
    · have hpurchases : purchases sv snapshot (c :: cs) = purchases sv snapshot cs := by
        simp [purchases, hcap]
      rw [if_pos hcap, hpurchases]
      exact ih hplain' hg
    by_cases hex : indexAlreadyExists snapshot c.relid c.attnum = true
    · have hpurchases : purchases sv snapshot (c :: cs) = purchases sv snapshot cs := by
        simp [purchases, hex]
      rw [if_neg hcap, if_pos hex, hpurchases]
      exact ih hplain' hg
    have hpurchases : purchases sv snapshot (c :: cs) = c :: purchases sv snapshot cs := by
      simp [purchases, hcap, hex]
    rw [if_neg hcap, if_neg hex, hpurchases, Runs.forall_call_cons
      (fun before (c : IndexCandidate) => c.served sv snapshot
        ((before.filterMap (IndexCandidate.order sv snapshot)).foldl Catalog.add p.catalog) = true),
      filterMap_nil, foldl_nil]
    rcases createIndexForCandidate_cases hg (hplain c (by simp [hpurchases])) with
      ⟨hserved, j, cmd, hj, hp⟩ | ⟨hserved, e, he⟩
    · -- The rest of the loop starts from the catalog with the index.
      rw [hp]
      simp only [hserved, true_and, filterMap_cons, hj, foldl_cons]
      exact ih hplain' (hg.add j)
    · rw [he, hserved]
      exact iff_of_false (fun ⟨_, h⟩ => nomatch h) fun h => nomatch h.1

end PgAutoIndex.AutoIndex
