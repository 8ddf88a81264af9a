import PgAutoIndex.AutoIndex.AdvisorOutcomes

/-!
# Eviction and live columns

A pass evicts the columns whose last query is older than the window, and only then drains the
queries that wait in the ring. So a column can lose its entry, with its rent, while a query that
mentions it has been captured within the window and waits (`evict_loses_waiting`). The time kept
with a column is that of the query drained last, as long as the probe for the column finds its
entry, so that no second one is made. An eviction spares the live columns exactly when no column has
a query within the window besides a last one that is not (`evict_spares_iff`).
-/

namespace PgAutoIndex.AutoIndex

open List

/-- A pass with what it meets: the settings, the catalog, and how many of the queries that it drains
are in the ring when it evicts. The others are captured in the meantime. -/
structure PassEvent where
  sv : Server
  catalog : Catalog
  input : PassInput
  waiting : ℕ

/-- The tracking table, and every query captured so far. -/
structure Tracked where
  table : AdvisorHash
  captured : List WorkloadEntry

/-- The state after a pass. -/
def passStep (s : Tracked) (ev : PassEvent) : Tracked :=
  ⟨(autoIndexMainPass ev.sv ev.input ev.catalog s.table).table, s.captured ++ ev.input.drained⟩

/-- The table that the eviction of the pass leaves. -/
def Tracked.evicted (s : Tracked) (ev : PassEvent) : AdvisorHash :=
  advisorHashEvictStale ev.input.now ev.sv.workload_window_days s.table

/-- The eviction of the pass clears a slot of the column. -/
def Evicts (s : Tracked) (ev : PassEvent) (k : ColStatsKey) : Prop :=
  ∃ i cs, s.table i = some cs ∧ cs.key = k ∧ s.evicted ev i = none

/-- The query finished within the window. -/
def PassEvent.live (ev : PassEvent) (q : WorkloadEntry) : Prop :=
  ev.input.now - q.ts ≤ ev.sv.workload_window_days * USECS_PER_DAY

/-- Of the given queries, none within the window mentions a column that the pass evicts. -/
def Spares (s : Tracked) (ev : PassEvent) (qs : List WorkloadEntry) : Prop :=
  ∀ k, Evicts s ev k → ∀ q ∈ qs, k ∈ q.charged → ¬ ev.live q

/-- The last of the queries that mention a column. -/
def lastMention (qs : List WorkloadEntry) (k : ColStatsKey) : Option WorkloadEntry :=
  (qs.filter fun q => k ∈ q.charged).getLast?

/-- The time kept with a tracked column is that of the last of the queries that mention it. -/
def Seen (qs : List WorkloadEntry) (t : AdvisorHash) : Prop :=
  ∀ i e, t i = some e → (lastMention qs e.key).map WorkloadEntry.ts = some e.last_seen

variable {t : AdvisorHash} {qs : List WorkloadEntry}

/-- A query more is the last one for the columns that it mentions. -/
theorem lastMention_concat (qs : List WorkloadEntry) (q : WorkloadEntry) (k : ColStatsKey) :
    lastMention (qs ++ [q]) k = if k ∈ q.charged then some q else lastMention qs k := by
  unfold lastMention
  rw [filter_append, filter_singleton]
  split_ifs <;> simp_all

/-- Charging columns keeps a table sound, and leaves in it entries with the time of the charge for
these columns, and for others only what was there. -/
theorem chargeColumns_seen (plan_cost : ℚ) (ts : ℤ) (ks : List ColStatsKey) (hs : SoundTable t) :
    SoundTable (ks.foldl (chargeColumn plan_cost ts) t) ∧
      ∀ i e, ks.foldl (chargeColumn plan_cost ts) t i = some e →
        (e.key ∈ ks ∧ e.last_seen = ts) ∨ e.key ∉ ks ∧ ∃ j, t j = some e := by
  induction ks generalizing t with
  | nil => exact ⟨hs, fun i e hi => .inr ⟨not_mem_nil, i, hi⟩⟩
  | cons k ks ih =>
    obtain ⟨hs', hmap⟩ := findOrCreate_sound hs k [(plan_cost, ts)]
    obtain ⟨hsound, hrest⟩ := ih hs'
    refine ⟨hsound, fun i e hi => ?_⟩
    rcases hrest i e hi with ⟨hmem, hseen⟩ | ⟨hnot, j, hj⟩
    · exact .inl ⟨mem_cons_of_mem k hmem, hseen⟩
    · -- The entry was there when the first column had been charged.
      have hfound := (congrFun hmap e.key).symm.trans (hs'.lookup_eq_some_iff.mpr ⟨j, hj, rfl⟩)
      rcases runMap_findOrCreate hfound with ⟨hkey, e₀, rfl⟩ | ⟨hne, hold⟩
      · exact .inl ⟨hkey ▸ mem_cons_self, rfl⟩
      · obtain ⟨l, hl, -⟩ := hs.lookup_eq_some_iff.mp hold
        exact .inr ⟨not_mem_cons_of_ne_of_not_mem hne hnot, l, hl⟩

/-- Draining queries keeps with every column the time of its last query. -/
theorem Seen.drainEntries (h : Seen qs t) (hs : SoundTable t) (es : List WorkloadEntry) :
    Seen (qs ++ es) (drainEntries t es) := by
  unfold AutoIndex.drainEntries
  induction es generalizing t qs with
  | nil => simpa using h
  | cons q es ih =>
    obtain ⟨hs', hcharged⟩ := chargeColumns_seen q.plan_cost q.ts q.charged hs
    have hseen : Seen (qs ++ [q]) (drainEntry t q) := by
      intro i e hi
      rw [lastMention_concat]
      rcases hcharged i e hi with ⟨hmem, hts⟩ | ⟨hnot, j, hj⟩
      · rw [if_pos hmem, hts, Option.map_some]
      · rw [if_neg hnot]
        exact h j e hj
    have hrest := ih hseen hs'
    rwa [append_assoc, singleton_append] at hrest

/-- A pass keeps with every column the time of its last query, if the eviction leaves every entry
where the probe for its column finds it. -/
theorem seen_passStep {s : Tracked} {ev : PassEvent} (h : Seen s.captured s.table)
    (hs : SoundTable (s.evicted ev)) : Seen (passStep s ev).captured (passStep s ev).table := by
  have hevicted : Seen s.captured (s.evicted ev) :=
    fun i e hi => h i e (Option.filter_eq_some_iff.mp hi).1
  intro i e hi
  simp only [passStep, autoIndexMainPass_table] at hi
  exact hevicted.drainEntries hs ev.input.drained i e (foldl_remove_eq_some hi)

/-- In every run of passes from the empty table whose evictions leave every entry where the probe
for its column finds it, the next pass evicts no column that a query captured within the window
mentions, drained or waiting, if and only if every tracked column that such a query mentions has a
last drained query within the window (or at time 0, which is taken for none). -/
theorem evict_spares_iff (evs : List PassEvent) (s : Tracked)
    (h : Runs.Run (fun s ev => some (passStep s ev)) (fun s ev => SoundTable (s.evicted ev))
      ⟨.empty, []⟩ evs s) (ev : PassEvent) :
    Spares s ev (s.captured ++ ev.input.drained.take ev.waiting) ↔
      ∀ k, (∃ i e, s.table i = some e ∧ e.key = k) →
        (∃ q ∈ s.captured ++ ev.input.drained.take ev.waiting, k ∈ q.charged ∧ ev.live q) →
          ∃ q, lastMention s.captured k = some q ∧ (ev.live q ∨ q.ts = 0) := by
  have hseen : Seen s.captured s.table := by
    refine h.invariant (fun s => Seen s.captured s.table) nofun ?_
    intro a l b ha hl hb
    obtain rfl := Option.some.inj hb
    exact seen_passStep ha hl
  constructor
  · rintro hspares k ⟨i, e, hi, rfl⟩ ⟨q, hq, hmem, hlive⟩
    obtain ⟨last, hlast, hts⟩ := Option.map_eq_some_iff.mp (hseen i e hi)
    refine ⟨last, hlast, ?_⟩
    by_contra hstale
    -- The entry is stale, and the eviction clears it.
    refine hspares e.key ⟨i, e, hi, rfl, ?_⟩ q hq hmem hlive
    simp only [PassEvent.live, not_or, not_le, hts] at hstale
    have hcleared : e.stale ev.input.now ev.sv.workload_window_days = true :=
      decide_eq_true hstale.symm
    simp [Tracked.evicted, advisorHashEvictStale, hi, hcleared]
  · rintro hcond k ⟨i, e, hi, rfl, hnone⟩ q hq hmem hlive
    have hstale : e.stale ev.input.now ev.sv.workload_window_days = true := by
      simpa [Tracked.evicted, advisorHashEvictStale, hi] using hnone
    obtain ⟨last, hlast, hlast'⟩ := hcond e.key ⟨i, e, hi, rfl⟩ ⟨q, hq, hmem, hlive⟩
    have hts := hseen i e hi
    rw [hlast, Option.map_some, Option.some.injEq] at hts
    simp only [ColStatsEntry.stale, decide_eq_true_eq, ← hts] at hstale
    unfold PassEvent.live at hlast'
    omega

/-- A pass at a time over the table `orders`, with queries that wait for it. -/
def ordersPass (now : ℤ) (qs : List WorkloadEntry) : PassEvent :=
  ⟨smallServer, ordersCatalog, ⟨now, qs, fun _ => false⟩, qs.length⟩

/-- After a query at time 1 and a pass, a column with a query of four days later is evicted in the
next pass, within a window of three days: the query waits in the ring. -/
theorem evict_loses_waiting : ∃ evs s ev,
    Runs.Run (fun s ev => some (passStep s ev)) (fun _ _ => True) ⟨.empty, []⟩ evs s ∧
      ¬ Spares s ev (s.captured ++ ev.input.drained.take ev.waiting) := by
  refine ⟨[ordersPass 2 [.onePredicate 16384 2 10 1]], _,
    ordersPass (4 * USECS_PER_DAY + 1) [.onePredicate 16384 2 10 (4 * USECS_PER_DAY)],
    .concat .nil trivial rfl, fun h => ?_⟩
  have hslot : (passStep ⟨.empty, []⟩ (ordersPass 2 [.onePredicate 16384 2 10 1])).table
      (advisorHashFn ⟨16384, 2, .USAGE_PREDICATE⟩) =
      some ⟨⟨16384, 2, .USAGE_PREDICATE⟩, 1, 10, 1⟩ := by decide +kernel
  refine h _ ⟨_, _, hslot, rfl, ?_⟩ (.onePredicate 16384 2 10 (4 * USECS_PER_DAY)) ?_ ?_ ?_
  · rw [Tracked.evicted, advisorHashEvictStale, hslot]
    decide
  · exact mem_append_right _ (mem_singleton_self _)
  · decide
  · unfold PassEvent.live
    decide

/-- A pass after two days drains a query on each column of `orders`, of which one is two days older
than the other. Another two days later, the pass evicts the column with the older query and spares
the other. -/
theorem evict_spares_newer : ∃ s, ∃ ev : PassEvent,
    Runs.Run (fun s ev => some (passStep s ev)) (fun s ev => SoundTable (s.evicted ev)) ⟨.empty, []⟩
      [ordersPass (2 * USECS_PER_DAY + 1)
        [.onePredicate 16384 2 10 1, .onePredicate 16384 1 10 (2 * USECS_PER_DAY)]] s ∧
      Evicts s ev ⟨16384, 2, .USAGE_PREDICATE⟩ ∧
      (s.table (advisorHashFn ⟨16384, 1, .USAGE_PREDICATE⟩)).isSome = true ∧
      Spares s ev (s.captured ++ ev.input.drained.take ev.waiting) := by
  have hrun : Runs.Run (fun s ev => some (passStep s ev)) (fun s ev => SoundTable (s.evicted ev))
      ⟨.empty, []⟩ [ordersPass (2 * USECS_PER_DAY + 1)
        [.onePredicate 16384 2 10 1, .onePredicate 16384 1 10 (2 * USECS_PER_DAY)]] _ :=
    .concat .nil LinearProbing.sound_empty rfl
  refine ⟨_, ordersPass (4 * USECS_PER_DAY) [], hrun, ?_, by decide +kernel, ?_⟩
  · refine ⟨advisorHashFn ⟨16384, 2, .USAGE_PREDICATE⟩,
      ⟨⟨16384, 2, .USAGE_PREDICATE⟩, 1, 10, 1⟩, ?_, rfl, ?_⟩
    · decide +kernel
    · decide +kernel
  · refine (evict_spares_iff _ _ hrun _).mpr ?_
    rintro k - ⟨q, hq, hmem, hlive⟩
    have hcaptured : q = .onePredicate 16384 2 10 1 ∨
        q = .onePredicate 16384 1 10 (2 * USECS_PER_DAY) := by
      simpa [passStep, ordersPass] using hq
    rcases hcaptured with rfl | rfl
    · exact absurd hlive (by unfold PassEvent.live; decide)
    · obtain rfl : k = ⟨16384, 1, .USAGE_PREDICATE⟩ := mem_singleton.mp hmem
      exact ⟨_, rfl, .inl hlive⟩

end PgAutoIndex.AutoIndex
