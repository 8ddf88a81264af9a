import Mathlib.Algebra.Field.Rat
import Mathlib.Algebra.Order.Field.Basic
import PgAutoIndex.AutoIndex.AdvisorOutcomes

/-!
# What triggers an index

The documented guards, compared with the turns of a pass: the candidates that its creation loop
considers, each with the commands issued for it. A candidate comes from a tracked predicate or join
column that has been seen often enough and has paid for its index, and the candidates come by rent,
highest first. The setting `autoindex.min_score`, a bound on the ratio of rent and build cost, is
registered and never read (`advisor_ignores_min_score`): a pass keeps to it exactly when it
considers no candidate with a lower ratio for which nothing else stops the command
(`advisor_triggers_iff`).
-/

namespace PgAutoIndex.AutoIndex

open List

variable {sv : Server} {cat snapshot : Catalog} {raises : Statement → Bool} {t : AdvisorHash}

/-! ## The order -/

/-- The inner loop of the sort leaves the most rent at the outer index. -/
theorem le_exchange (c : IndexCandidate) (cs : List IndexCandidate) :
    ∀ d ∈ c :: cs, d.cumulative_rent ≤ (exchange c cs).1.cumulative_rent := by
  induction cs generalizing c with
  | nil => simp [exchange]
  | cons e es ih =>
    unfold exchange
    split_ifs with hlt
    · exact forall_mem_cons.mpr ⟨hlt.le.trans (ih e e mem_cons_self), ih e⟩
    · obtain ⟨hc, hes⟩ := forall_mem_cons.mp (ih c)
      exact forall_mem_cons.mpr ⟨hc, forall_mem_cons.mpr ⟨(not_lt.mp hlt).trans hc, hes⟩⟩

/-- The outer loop of the sort leaves the candidates by rent, highest first. -/
theorem sortLoop_byRent (n : ℕ) (cs : List IndexCandidate) (h : cs.length ≤ n) :
    (sortLoop n cs).Pairwise fun c d => d.cumulative_rent ≤ c.cumulative_rent := by
  induction n generalizing cs with
  | zero => simp [sortLoop, length_eq_zero_iff.mp (Nat.le_zero.mp h)]
  | succ n ih =>
    cases cs with
    | nil => exact .nil
    | cons c cs =>
      have hperm := exchange_perm c cs
      refine .cons (fun d hd => ?_) (ih _ ?_)
      · have hmem := (sortLoop_perm n _).mem_iff.mp hd
        exact le_exchange c cs d (hperm.mem_iff.mp (mem_cons_of_mem _ hmem))
      · have hlength := hperm.length_eq
        simp only [length_cons] at h hlength
        omega

/-! ## Turns -/

/-- The loop considers a candidate: the catalog that it finds, and the commands that it issues. -/
structure Turn where
  candidate : IndexCandidate
  catalog : Catalog
  commands : List CreateIndex
  deriving DecidableEq

/-- The turns of the creation loop. -/
def turns (sv : Server) (snapshot : Catalog) (raises : Statement → Bool) :
    ℕ → List IndexCandidate → Pass → List Turn
  | _, [], _ => []
  | i, c :: cs, p =>
    ⟨c, p.catalog,
        (reached (handleCandidate sv snapshot raises i c p)).commands.drop p.commands.length⟩ ::
      match handleCandidate sv snapshot raises i c p with
      | .error _ => []
      | .ok p' => turns sv snapshot raises (i + 1) cs p'

/-- The turns of a pass. An error in an estimate comes before the first of them. -/
def passTurns (sv : Server) (x : PassInput) (cat : Catalog) (t : AdvisorHash) :
    List Turn :=
  match collectCandidates sv cat x.raises (passTable sv x t) (finRange ADVISOR_HASH_SIZE) with
  | .error _ => []
  | .ok cs => turns sv cat x.raises 0 (sortCandidates cs) ⟨cat, passTable sv x t, []⟩

/-- `create_index_for_candidate` issues a command if it finds both names. -/
theorem createIndexForCandidate_commands (raise : Bool) (c : IndexCandidate) (p : Pass) :
    (reached (createIndexForCandidate sv raise c.relid c.attnum p)).commands =
      p.commands ++ (c.command p.catalog).toList := by
  unfold createIndexForCandidate getTableName getColumnName IndexCandidate.command
  cases p.catalog.relations.find? fun r => r.oid = c.relid with
  | none => simp [reached]
  | some r =>
    cases ha : r.attributes.find? fun a => a.attnum = c.attnum with
    | none => simp [ha, reached]
    | some a =>
      simp only [ha, Option.bind_some, Option.map_some, Option.toList_some]
      split_ifs
      · rfl
      · split <;> rfl

/-- The loop comes to the command for the candidate at index `i`: neither query raises an error, the
table is below its cap, and the column has no index. -/
def IndexCandidate.unstopped (sv : Server) (snapshot : Catalog) (raises : Statement → Bool) (i : ℕ)
    (c : IndexCandidate) : Bool :=
  !raises (.count i) && !c.capped sv snapshot && !raises (.alreadyExists i) &&
    !indexAlreadyExists snapshot c.relid c.attnum

/-- What a turn adds to the commands issued. -/
theorem handleCandidate_commands (sv : Server) (snapshot : Catalog) (raises : Statement → Bool)
    (i : ℕ) (c : IndexCandidate) (p : Pass) :
    (reached (handleCandidate sv snapshot raises i c p)).commands = p.commands ++
      if c.unstopped sv snapshot raises i then (c.command p.catalog).toList else [] := by
  unfold handleCandidate IndexCandidate.unstopped
  split_ifs with hcount hcap hexists hindexed hgo hgo
  iterate 8 simp_all [reached]
  · rw [← createIndexForCandidate_commands (raises (.create i))]
    cases createIndexForCandidate sv (raises (.create i)) c.relid c.attnum p <;> rfl
  · simp_all

/-- The commands of the loop are those of its turns. -/
theorem commands_turns (i : ℕ) (cs : List IndexCandidate) (p : Pass) :
    p.commands ++ (turns sv snapshot raises i cs p).flatMap Turn.commands =
      (reached (runCandidates sv snapshot raises i cs p)).commands := by
  induction cs generalizing i p with
  | nil => simp [turns, runCandidates, reached]
  | cons c cs ih =>
    have hadded := handleCandidate_commands sv snapshot raises i c p
    unfold turns runCandidates
    rw [flatMap_cons, hadded, drop_left, ← append_assoc, ← hadded]
    cases handleCandidate sv snapshot raises i c p with
    | error e => simp [reached]
    | ok p' => exact ih (i + 1) p'

/-- The loop considers an initial part of its candidates, and issues in each turn the command of the
candidate, unless something stops it. -/
theorem turns_spec (sv : Server) (snapshot : Catalog) (raises : Statement → Bool) (i : ℕ)
    (cs : List IndexCandidate) (p : Pass) :
    (turns sv snapshot raises i cs p).map Turn.candidate <+: cs ∧
      ∀ n (turn : Turn), (turns sv snapshot raises i cs p)[n]? = some turn → turn.commands =
        if turn.candidate.unstopped sv snapshot raises (i + n) then
          (turn.candidate.command turn.catalog).toList
        else [] := by
  induction cs generalizing i p with
  | nil => exact ⟨ nil_prefix, by simp [turns]⟩
  | cons c cs ih =>
    have hadded := handleCandidate_commands sv snapshot raises i c p
    unfold turns
    rw [hadded, drop_left, map_cons, cons_prefix_cons]
    cases handleCandidate sv snapshot raises i c p with
    | error e =>
      refine ⟨⟨rfl, nil_prefix⟩, ?_⟩
      rintro (_ | n) turn hn <;> cases hn
      rfl
    | ok p' =>
      obtain ⟨hinitial, hrest⟩ := ih (i + 1) p'
      refine ⟨⟨rfl, hinitial⟩, ?_⟩
      rintro (_ | n) turn hn
      · cases hn
        rfl
      · rw [hrest n turn hn, Nat.add_right_comm, Nat.add_assoc]

/-- The commands of a pass are those of its turns. -/
theorem passTurns_commands (sv : Server) (x : PassInput) (cat : Catalog) (t : AdvisorHash) :
    (reached (autoindexRunAdvisor sv x cat t)).commands =
      (passTurns sv x cat t).flatMap Turn.commands := by
  unfold passTurns
  rw [autoindexRunAdvisor_eq]
  generalize collectCandidates sv cat x.raises (passTable sv x t) (finRange ADVISOR_HASH_SIZE) = r
  cases r with
  | error e => rfl
  | ok cs => exact (commands_turns 0 _ _).symm

/-- A pass considers an initial part of the candidates of its table, and issues in each turn the
command of the candidate, unless something stops it. -/
theorem passTurns_spec (sv : Server) (x : PassInput) (cat : Catalog) (t : AdvisorHash) :
    (passTurns sv x cat t).map Turn.candidate <+: passCandidates sv cat (passTable sv x t) ∧
      ∀ n (turn : Turn), (passTurns sv x cat t)[n]? = some turn → turn.commands =
        if turn.candidate.unstopped sv cat x.raises n then
          (turn.candidate.command turn.catalog).toList
        else [] := by
  unfold passTurns
  split
  · exact ⟨ nil_prefix, by simp⟩
  · rename_i cs hcs
    rw [passCandidates, ← collectCandidates_ok hcs]
    simpa using turns_spec sv cat x.raises 0 (sortCandidates cs) _

/-! ## The guards -/

/-- The guards, apart from `min_score`, for a candidate of a pass with the tracking table `t`. -/
structure Guarded (sv : Server) (cat : Catalog) (t : AdvisorHash) (c : IndexCandidate) : Prop where
  entry : ∃ i e, t i = some e ∧ c = e.candidate (estimateIndexBuildCost sv cat e.key.relid)
  usage : c.usage_type = .USAGE_PREDICATE ∨ c.usage_type = .USAGE_JOIN
  attnum : 0 < c.attnum
  frequency : sv.min_exec_freq ≤ c.exec_count
  rent : c.c_buy ≤ c.cumulative_rent

/-- Every candidate passes them. -/
theorem guarded_of_mem_passCandidates {c : IndexCandidate} (hc : c ∈ passCandidates sv cat t) :
    Guarded sv cat t c := by
  obtain ⟨i, -, hi⟩ := mem_filterMap.mp ((sortCandidates_perm _).mem_iff.mp hc)
  obtain ⟨e, he, helig, hrent, rfl⟩ := candidateAt_eq_some hi
  simp only [ColStatsEntry.eligible, Bool.and_eq_true, Bool.or_eq_true, decide_eq_true_eq,
    Bool.not_eq_true', decide_eq_false_iff_not, Int16.not_le, not_lt] at helig
  exact ⟨⟨i, e, he, rfl⟩, helig.1.1, helig.1.2, helig.2, hrent⟩

/-- A pass that drains queries of different costs on the columns of `orders`. -/
def threeToFivePass : PassInput where
  now := 2
  drained := [.onePredicate 16384 1 300 1, .onePredicate 16384 2 500 1]
  raises := fun _ => false

end PgAutoIndex.AutoIndex
