import PgAutoIndex.AutoIndex.Catalog

/-!
# The advisor pass

`autoindex_run_advisor` of `index_advisor.c`, and the transaction that `AutoIndexMain` runs it in. A
pass evicts stale entries, drains the ring, collects the tracked columns whose rent has reached the
build cost of an index, sorts them by rent, and then handles them one after another: a column whose
table is at its cap is skipped, a column that already has an index is dropped from the table, and
for any other an index is created and the column is dropped from the table.

The two checks are read-only SPI queries, which see the catalog as the pass's snapshot has it, while
`CREATE INDEX` and the lookups of names see what the pass has done so far. Any of the statements may
raise an error, for the reasons the model knows or for any other (`Statement`). The tracking table
belongs to the worker process: the abort that follows an error brings back the catalog, and not the
table.
-/

namespace PgAutoIndex.AutoIndex

/-! ## The advisor's queries -/

/-- `estimate_index_build_cost`. A relation that is not in `pg_class` is taken to have one page and
one row. -/
def estimateIndexBuildCost (sv : Server) (cat : Catalog) (relid : Oid) : ℚ :=
  let row := cat.relations.find? fun r => r.oid = relid
  let reltuples := max 1 ((row.map PgClass.reltuples).getD 1)
  let relpages := max 1 ((row.map PgClass.relpages).getD 1)
  max 100 (relpages * sv.seq_page_cost +
    reltuples * sv.cpu_operator_cost * sv.log (reltuples + 1))

/-- `index_already_exists`: the first column of some index of the table has the name that the
table's column has. -/
def indexAlreadyExists (cat : Catalog) (relid : Oid) (attnum : Int16) : Bool :=
  cat.indexes.any fun i => i.indrelid = relid ∧
    cat.relations.any fun r => r.oid = i.indrelid ∧
      r.attributes.any fun a => a.attnum = attnum ∧ a.attname = i.attname

/-- `count_auto_indexes`. -/
def countAutoIndexes (cat : Catalog) (relid : Oid) : ℕ :=
  cat.indexes.countP fun i => i.indrelid = relid ∧ likeAutoIndex i.relname

/-- `get_table_name`. -/
def getTableName (cat : Catalog) (relid : Oid) : Option String :=
  (cat.relations.find? fun r => r.oid = relid).map PgClass.relname

/-- `get_column_name`, which raises an error for a column that is not in the catalog. -/
def getColumnName (cat : Catalog) (relid : Oid) (attnum : Int16) : Except SqlError String :=
  match (cat.relations.find? fun r => r.oid = relid).bind fun r =>
      r.attributes.find? fun a => a.attnum = attnum with
  | some a => .ok a.attname
  | none => .error (.cacheLookupFailed attnum relid)

/-! ## Candidates -/

/-- A column that has triggered. -/
structure IndexCandidate where
  relid : Oid
  attnum : Int16
  usage_type : ColUsageType
  exec_count : ℕ
  cumulative_rent : ℚ
  c_buy : ℚ
  deriving DecidableEq

/-- The key that a candidate is removed under. -/
def IndexCandidate.key (c : IndexCandidate) : ColStatsKey := ⟨c.relid, c.attnum, c.usage_type⟩

/-- The statements of a pass: an estimate for a slot of the table, and the cap query, the existence
query and the command for a candidate. -/
inductive Statement where
  | estimate (slot : Fin ADVISOR_HASH_SIZE)
  | count (candidate : ℕ)
  | alreadyExists (candidate : ℕ)
  | create (candidate : ℕ)

/-- The guards before the estimate: usage, column number, and frequency. -/
def ColStatsEntry.eligible (sv : Server) (cs : ColStatsEntry) : Bool :=
  (cs.key.usage_type = .USAGE_PREDICATE || cs.key.usage_type = .USAGE_JOIN) &&
    !(cs.key.attnum ≤ 0) && !(cs.exec_count < sv.min_exec_freq)

/-- The candidate that an entry becomes when its rent has reached the build cost. -/
def ColStatsEntry.candidate (cs : ColStatsEntry) (c_buy : ℚ) : IndexCandidate where
  relid := cs.key.relid
  attnum := cs.key.attnum
  usage_type := cs.key.usage_type
  exec_count := cs.exec_count
  cumulative_rent := cs.cumulative_rent
  c_buy := c_buy

/-- The evaluation loop, over the slots that remain. -/
def collectCandidates (sv : Server) (cat : Catalog) (raises : Statement → Bool) (t : AdvisorHash) :
    List (Fin ADVISOR_HASH_SIZE) → Except SqlError (List IndexCandidate)
  | [] => .ok []
  | i :: slots =>
    match t i with
    | none => collectCandidates sv cat raises t slots
    | some cs =>
      if cs.eligible sv then
        if raises (.estimate i) then .error .raised
        else
          match collectCandidates sv cat raises t slots with
          | .error e => .error e
          | .ok rest =>
            let c_buy := estimateIndexBuildCost sv cat cs.key.relid
            .ok (if c_buy ≤ cs.cumulative_rent then cs.candidate c_buy :: rest else rest)
      else collectCandidates sv cat raises t slots

/-- The inner loop of the sort: the candidate at the outer index is exchanged with every later one
that has more rent. -/
def exchange (c : IndexCandidate) : List IndexCandidate → IndexCandidate × List IndexCandidate
  | [] => (c, [])
  | d :: ds =>
    if c.cumulative_rent < d.cumulative_rent then
      ((exchange d ds).1, c :: (exchange d ds).2)
    else
      ((exchange c ds).1, d :: (exchange c ds).2)

/-- The outer loop of the sort, for the number of candidates. -/
def sortLoop : ℕ → List IndexCandidate → List IndexCandidate
  | 0, cs => cs
  | _ + 1, [] => []
  | n + 1, c :: cs => (exchange c cs).1 :: sortLoop n (exchange c cs).2

/-- The candidates by rent, highest first. -/
def sortCandidates (cs : List IndexCandidate) : List IndexCandidate := sortLoop cs.length cs

/-! ## Handling the candidates -/

/-- The state of a pass: the catalog as its transaction sees it, the tracking table, and the
commands issued so far. -/
structure Pass where
  catalog : Catalog
  table : AdvisorHash
  commands : List CreateIndex

/-- `create_index_for_candidate`. -/
def createIndexForCandidate (sv : Server) (raises : Bool) (relid : Oid) (attnum : Int16)
    (p : Pass) :
    Except (SqlError × Pass) Pass :=
  -- Both names are looked up before either is tested.
  match getTableName p.catalog relid, getColumnName p.catalog relid attnum with
  | _, .error e => .error (e, p)
  -- No table name: the function returns without a command, and its caller goes on as after one.
  | none, .ok _ => .ok p
  | some tblname, .ok colname =>
    let cmd : CreateIndex := ⟨tblname, colname⟩
    let issued : Pass := { p with commands := p.commands ++ [cmd] }
    if raises then .error (.raised, issued)
    else
      match cmd.exec sv p.catalog with
      | .error e => .error (e, issued)
      | .ok cat => .ok { issued with catalog := cat }

/-- The table of the candidate has as many automatic indexes as it may have. -/
def IndexCandidate.capped (sv : Server) (snapshot : Catalog) (c : IndexCandidate) : Bool :=
  sv.max_indexes_per_table ≤ countAutoIndexes snapshot c.relid

/-- The body of the creation loop, for the candidate at index `i`. -/
def handleCandidate (sv : Server) (snapshot : Catalog) (raises : Statement → Bool) (i : ℕ)
    (c : IndexCandidate) (p : Pass) : Except (SqlError × Pass) Pass :=
  if raises (.count i) then .error (.raised, p)
  else if c.capped sv snapshot then .ok p
  else if raises (.alreadyExists i) then .error (.raised, p)
  else if indexAlreadyExists snapshot c.relid c.attnum then
    -- Still removed, so that it is not evaluated again.
    .ok { p with table := advisorHashRemove p.table c.key }
  else
    match createIndexForCandidate sv (raises (.create i)) c.relid c.attnum p with
    | .error e => .error e
    | .ok p' => .ok { p' with table := advisorHashRemove p'.table c.key }

/-- The creation loop, from the candidate at index `i` on. -/
def runCandidates (sv : Server) (snapshot : Catalog) (raises : Statement → Bool) :
    ℕ → List IndexCandidate → Pass → Except (SqlError × Pass) Pass
  | _, [], p => .ok p
  | i, c :: cs, p =>
    match handleCandidate sv snapshot raises i c p with
    | .error e => .error e
    | .ok p' => runCandidates sv snapshot raises (i + 1) cs p'

/-- What a pass meets: the time, the entries in the ring, and which of its statements raise an error
for a reason outside the model. -/
structure PassInput where
  now : ℤ
  drained : List WorkloadEntry
  raises : Statement → Bool

/-- The table of a pass once stale entries are evicted and the ring is drained. -/
def passTable (sv : Server) (x : PassInput) (t : AdvisorHash) : AdvisorHash :=
  drainEntries (advisorHashEvictStale x.now sv.workload_window_days t) x.drained

/-- `autoindex_run_advisor`: the state at its return, or the error it raises and the state in which
it does. -/
def autoindexRunAdvisor (sv : Server) (x : PassInput) (cat : Catalog) (t : AdvisorHash) :
    Except (SqlError × Pass) Pass :=
  let p : Pass := ⟨cat, passTable sv x t, []⟩
  -- Nothing is tracked: the pass returns before it runs a statement.
  if (List.finRange ADVISOR_HASH_SIZE).all fun i => (p.table i).isNone then .ok p
  else
    match collectCandidates sv cat x.raises p.table (List.finRange ADVISOR_HASH_SIZE) with
    | .error e => .error (e, p)
    | .ok cs => runCandidates sv cat x.raises 0 (sortCandidates cs) p

/-- What `AutoIndexMain` makes of a pass: at an error the transaction is aborted, and the catalog is
as it was at the start, but the tracking table is as the pass left it. -/
def autoIndexMainPass (sv : Server) (x : PassInput) (cat : Catalog) (t : AdvisorHash) : Pass :=
  match autoindexRunAdvisor sv x cat t with
  | .ok p => p
  | .error (_, p) => { p with catalog := cat }

/-- The catalog and the worker's tracking table, between two passes. -/
structure WorkerState where
  catalog : Catalog
  table : AdvisorHash

/-- The state after a pass. -/
def workerStep (sv : Server) (s : WorkerState) (x : PassInput) : WorkerState :=
  ⟨(autoIndexMainPass sv x s.catalog s.table).catalog,
    (autoIndexMainPass sv x s.catalog s.table).table⟩

/-- The state after a run of passes. -/
def workerAfter (sv : Server) (s : WorkerState) (xs : List PassInput) : WorkerState :=
  xs.foldl (workerStep sv) s

/-- A run begins with its first pass. -/
theorem workerAfter_cons (sv : Server) (s : WorkerState) (x : PassInput) (xs : List PassInput) :
    workerAfter sv s (x :: xs) = workerAfter sv (workerStep sv s x) xs := by
  rw [workerAfter, List.foldl_cons, workerAfter]

end PgAutoIndex.AutoIndex
