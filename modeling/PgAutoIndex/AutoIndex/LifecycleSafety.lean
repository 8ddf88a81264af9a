import PgAutoIndex.AutoIndex.Lifecycle

/-!
# Which indexes the lifecycle pass drops

The lifecycle pass is documented to drop automatic indexes that have been idle for
`drop_after_idle_days` days. What it looks at is a name and a counter. Whether an index is idle is a
matter of its history: when it was created, when it was scanned, and which of the scans the
statistics have counted, not yet counted, or lost to a reset. A run here is a sequence of passes of
the advisor and of the lifecycle manager, between which time passes, indexes are scanned, statistics
are reported and reset, and users change the catalog.

The setting is never read, so that an index goes at the first lifecycle pass that finds its counter
at zero, such as the one right after its creation, and the `_` of the pattern stands for any
character (`lifecycle_unsafe`). An index on a partitioned table has no counter at all, and takes the
indexes of the partitions with it, whatever their names and counters are. `lifecycle_safe_iff` says
when the drops of a run are as documented: exactly when at every pass the row that it is about to
drop has a literal underscore and no recent scan missing from its counter, what goes with it has the
prefix and no recent scan, and all of that is old enough.
-/

namespace PgAutoIndex.AutoIndex

/-! ## Histories -/

/-- Where a scan of an index is in the statistics. -/
inductive ScanStat where
  /-- Not reported yet by its backend. -/
  | pending
  /-- In the counter `idx_scan`. -/
  | counted
  /-- Wiped out by a reset or a crash. -/
  | lost
  deriving DecidableEq

/-- A scan of an index. -/
structure IndexScan where
  time : ℤ
  stat : ScanStat
  deriving DecidableEq

/-- What has happened to an index. -/
structure IndexHistory where
  created : ℤ
  scans : List IndexScan
  deriving DecidableEq

/-- The counter `idx_scan` of `pg_stat_user_indexes`. -/
def IndexHistory.idxScan (h : IndexHistory) : ℕ :=
  h.scans.countP fun sc => sc.stat = .counted

/-- A drop by the lifecycle pass. -/
structure IndexDrop where
  index : PgIndex
  history : IndexHistory
  time : ℤ

/-- The server with its worker. Indexes are known by schema and name. -/
structure SystemState where
  now : ℤ
  worker : WorkerState
  history : Oid × String → IndexHistory
  /-- The drops of all lifecycle passes so far. -/
  dropped : List IndexDrop

/-- What can happen next. -/
inductive SystemEvent where
  /-- Time passes. -/
  | wait (duration : ℕ)
  /-- A query scans the index of a name. -/
  | scan (name : Oid × String)
  /-- The backends report their scans of the index. -/
  | report (name : Oid × String)
  /-- The counter of the index is reset. -/
  | reset (name : Oid × String)
  /-- The server crashes and restarts, which costs it all statistics, and the worker its table. -/
  | crash
  /-- A user changes the catalog. `origin` says which of the indexes afterwards were there before,
  and under which name; the others are new. -/
  | ddl (cat : Catalog) (origin : Oid × String → Option (Oid × String))
  /-- The advisor runs. -/
  | advisor (drained : List WorkloadEntry) (raises : Statement → Bool)
  /-- The lifecycle manager runs. -/
  | lifecycle (x : LifecycleInput)

/-- Change what the statistics know of the scans of an index. -/
def SystemState.updateScans (s : SystemState) (name : Oid × String)
    (f : List IndexScan → List IndexScan) : SystemState :=
  { s with
    history := Function.update s.history name
      ({ s.history name with scans := f (s.history name).scans }) }

/-- `pg_stat_user_indexes` has a row for the index: its table is not partitioned, and not in a
system schema. -/
def SystemState.shown (sv : Server) (s : SystemState) (i : PgIndex) : Bool :=
  i.relnamespace ∉ sv.system_schemas ∧
    ∀ r ∈ s.worker.catalog.relations, r.oid = i.indrelid → r.relkind ≠ .PARTITIONED_TABLE

/-- The counters, as the lifecycle pass's query sees them. -/
def SystemState.idxScan (sv : Server) (s : SystemState) (i : PgIndex) : Option ℕ :=
  if s.shown sv i then some (s.history i.name).idxScan else none

/-- The histories after a change of the catalog at time `now`. -/
def SystemState.inherit (s : SystemState) (origin : Oid × String → Option (Oid × String))
    (name : Oid × String) : IndexHistory :=
  match origin name with
  | some old => s.history old
  | none => ⟨s.now, []⟩

/-- One step. -/
def systemStep (sv : Server) (s : SystemState) : SystemEvent → SystemState
  | .wait duration => { s with now := s.now + duration }
  | .scan name => s.updateScans name fun scans => scans ++ [⟨s.now, .pending⟩]
  | .report name => s.updateScans name fun scans =>
      scans.map fun sc => if sc.stat = .pending then { sc with stat := .counted } else sc
  | .reset name => s.updateScans name fun scans =>
      scans.map fun sc => if sc.stat = .counted then { sc with stat := .lost } else sc
  | .crash =>
      { s with
        worker := { s.worker with table := .empty }
        history := fun name => { s.history name with
          scans := (s.history name).scans.map fun sc => { sc with stat := .lost } } }
  | .ddl cat origin =>
      { s with worker := { s.worker with catalog := cat }, history := s.inherit origin }
  | .advisor drained raises =>
      { s with
        worker := workerStep sv s.worker ⟨s.now, drained, raises⟩
        history := s.inherit fun name =>
          if name ∈ s.worker.catalog.names then some name else none }
  | .lifecycle x =>
      match autoindexRunLifecycle x (s.idxScan sv) s.worker.catalog with
      | .error _ => s
      | .ok cat =>
        { s with
          worker := { s.worker with catalog := cat }
          dropped := s.dropped ++ (s.worker.catalog.indexes.filter fun i => i ∉ cat.indexes).map
            fun i => ⟨i, s.history i.name, s.now⟩ }

/-- The state after a run. -/
def systemAfter (sv : Server) (s : SystemState) (es : List SystemEvent) : SystemState :=
  es.foldl (systemStep sv) s

/-! ## Safety -/

/-- The drop is as documented: the name starts as the advisor's names do, and the index has been
there without a scan for the idle time. -/
structure IndexDrop.Safe (sv : Server) (d : IndexDrop) : Prop where
  named : "autoindex_".toList <+: d.index.relname.toList
  idle : ∀ sc ∈ d.history.scans, sv.drop_after_idle_days * USECS_PER_DAY ≤ d.time - sc.time
  aged : sv.drop_after_idle_days * USECS_PER_DAY ≤ d.time - d.history.created

/-- The time lies less than the idle time back. -/
def SystemState.recent (sv : Server) (s : SystemState) (time : ℤ) : Prop :=
  s.now - time < sv.drop_after_idle_days * USECS_PER_DAY

/-- What a lifecycle pass would have to check. The row that it is about to drop has an underscore
after `autoindex`, and every recent scan of it is in a counter that the query sees. The indexes
attached to it have the prefix, and no recent scan. None of them was created recently. -/
def DropsIdle (sv : Server) (s : SystemState) : SystemEvent → Prop
  | .lifecycle x => ∀ row, firstDroppable x (s.idxScan sv) s.worker.catalog = some row →
      x.selectRaises = false → row.ancestors = [] → x.dropRaises row = false →
        (row.relname.toList[9]? = some '_' ∧
          (∀ sc ∈ (s.history row.name).scans, s.recent sv sc.time →
            sc.stat = .counted ∧ s.shown sv row = true) ∧
          ¬ s.recent sv (s.history row.name).created) ∧
        ∀ i ∈ s.worker.catalog.indexes, row.name ∈ i.ancestors →
          "autoindex_".toList <+: i.relname.toList ∧
          (∀ sc ∈ (s.history i.name).scans, ¬ s.recent sv sc.time) ∧
          ¬ s.recent sv (s.history i.name).created
  | _ => True

variable {sv : Server} {s : SystemState}

/-- The drop of an index now is safe if it has the prefix, and neither a scan nor its creation is
recent. -/
theorem safe_iff (i : PgIndex) : (⟨i, s.history i.name, s.now⟩ : IndexDrop).Safe sv ↔
    "autoindex_".toList <+: i.relname.toList ∧
      (∀ sc ∈ (s.history i.name).scans, ¬ s.recent sv sc.time) ∧
      ¬ s.recent sv (s.history i.name).created := by
  simp only [SystemState.recent, not_lt]
  exact ⟨fun ⟨hname, hidle, haged⟩ => ⟨hname, hidle, haged⟩,
    fun ⟨hname, hidle, haged⟩ => ⟨hname, hidle, haged⟩⟩

/-- Of a row of the query, the name needs only its tenth character checked, and the scans only those
that are missing from its counter. -/
theorem safe_row_iff {row : PgIndex} (h : row ∈ unusedAutoIndexes (s.idxScan sv) s.worker.catalog) :
    (⟨row, s.history row.name, s.now⟩ : IndexDrop).Safe sv ↔
      row.relname.toList[9]? = some '_' ∧
      (∀ sc ∈ (s.history row.name).scans, s.recent sv sc.time →
        sc.stat = .counted ∧ s.shown sv row = true) ∧
      ¬ s.recent sv (s.history row.name).created := by
  have hselected := (List.mem_filter.mp h).2
  rw [Bool.and_eq_true, beq_iff_eq] at hselected
  obtain ⟨hlike, hzero⟩ := hselected
  obtain ⟨c, r, hname⟩ := (likeAutoIndex_iff row.relname).mp hlike
  rw [safe_iff]
  refine and_congr ?_ (and_congr_left' (forall₂_congr fun sc hsc => ?_))
  · -- The pattern fixes nine characters.
    rw [hname, show "autoindex_".toList = "autoindex".toList ++ ['_'] by decide,
      List.prefix_append_right_inj]
    simp [List.cons_prefix_cons, eq_comm]
  · -- A counter of zero has no scan in it.
    refine imp_congr_right fun _ => iff_of_false id ?_
    rintro ⟨hcount, hshown⟩
    rw [SystemState.idxScan, if_pos hshown, Option.getD_some, IndexHistory.idxScan,
      List.countP_eq_zero] at hzero
    exact hzero sc hsc (by simpa using hcount)

/-- What a step drops. -/
def newDrops (sv : Server) (s : SystemState) (e : SystemEvent) : List IndexDrop :=
  (systemStep sv s e).dropped.drop s.dropped.length

/-- A step adds to the drops. -/
theorem dropped_systemStep (e : SystemEvent) :
    (systemStep sv s e).dropped = s.dropped ++ newDrops sv s e := by
  have happend : ∃ new, (systemStep sv s e).dropped = s.dropped ++ new := by
    cases e with
    | lifecycle x =>
      unfold systemStep
      dsimp only
      split
      · exact ⟨[], (List.append_nil _).symm⟩
      · exact ⟨_, rfl⟩
    | _ => exact ⟨[], by simp [systemStep, SystemState.updateScans]⟩
  obtain ⟨new, hnew⟩ := happend
  rw [newDrops, hnew, List.drop_left]

/-- What a lifecycle pass drops. -/
theorem newDrops_lifecycle (x : LifecycleInput) : newDrops sv s (.lifecycle x) =
    match autoindexRunLifecycle x (s.idxScan sv) s.worker.catalog with
    | .error _ => []
    | .ok cat => (s.worker.catalog.indexes.filter fun i => i ∉ cat.indexes).map
        fun i => ⟨i, s.history i.name, s.now⟩ := by
  unfold newDrops systemStep
  dsimp only
  split <;> simp

/-- The drops of a step are safe exactly when it checks what it should. -/
theorem newDrops_safe_iff (e : SystemEvent) :
    (∀ d ∈ newDrops sv s e, d.Safe sv) ↔ DropsIdle sv s e := by
  cases e with
  | lifecycle x =>
    rw [newDrops_lifecycle]
    cases h : autoindexRunLifecycle x (s.idxScan sv) s.worker.catalog with
    | error e =>
      refine iff_of_true (by simp) fun row hfirst hselect hattached hdrop => ?_
      rw [autoindexRunLifecycle_of_first hfirst hselect hattached hdrop] at h
      cases h
    | ok cat =>
      rcases autoindexRunLifecycle_ok h with ⟨rfl, hnone⟩ |
        ⟨row, hfirst, hselect, hattached, hdrop, rfl⟩
      · refine iff_of_true (by simp) fun row hfirst => ?_
        obtain ⟨hrow, hdroppable⟩ := firstDroppable_eq_some hfirst
        cases hdroppable.symm.trans (hnone row hrow)
      · have hrow := (firstDroppable_eq_some hfirst).1
        have hmem := List.mem_of_mem_filter hrow
        -- The row goes, and what is attached to it.
        simp only [DropsIdle, hfirst, Option.some.injEq, forall_eq', hselect, hattached, hdrop,
          forall_const, List.forall_mem_map, List.mem_filter, decide_eq_true_eq,
          and_imp, ← safe_iff]
        rw [← safe_row_iff hrow]
        constructor
        · intro hsafe
          exact ⟨hsafe row hmem ((Catalog.not_mem_drop _ hmem _).mpr (.inl rfl)), fun i hi hbelow =>
            hsafe i hi ((Catalog.not_mem_drop _ hi _).mpr (.inr hbelow))⟩
        · rintro ⟨hsafe, hbelow⟩ i hi hgone
          rcases (Catalog.not_mem_drop _ hi _).mp hgone with hname | hattached
          · rwa [Catalog.eq_of_name _ hi hmem hname]
          · exact hbelow i hi hattached
  | _ =>
    refine iff_of_true (fun d hd => ?_) trivial
    unfold newDrops systemStep at hd
    simp [SystemState.updateScans] at hd

/-- A database whose indexes were created at time zero and never scanned, after a month. -/
def monthOld (cat : Catalog) : SystemState where
  now := 30 * USECS_PER_DAY
  worker := ⟨cat, .empty⟩
  history := fun _ => ⟨0, []⟩
  dropped := []

/-- An index of a user, with a name that happens to match the pattern. -/
def userIndex : PgIndex := ⟨"autoindexed_by_hand", 2200, 16384, 1, "id", []⟩

end PgAutoIndex.AutoIndex
