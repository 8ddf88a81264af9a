import PgAutoIndex.Kleene

/-!
# Canonicalizing a qualification

The model of `optimizer/prep/prepqual.c`: `canonicalize_qual` and the functions below it. A
qualification is a tree of AND, OR and NOT over atoms and Boolean constants. The pass drops the
constants of the top-level AND/OR structure, treating a NULL as FALSE in a WHERE clause and as TRUE
in a CHECK constraint, and pulls the terms common to all arms of an OR out of it.

All of the pass stays inside the positive AND/OR structure, where only acceptance of a row counts
(`Kleene.accepts`). So the proofs are about `Expr.Accepted`, one statement for both uses, and every
rewriting is an argument in two-valued logic: the arms of an OR all imply each common term, and an
arm holds when its common terms and the rest of it hold (`armAccepted_iff`).
-/

namespace PgAutoIndex.Optimizer

open List
open Kleene (Truth conj disj neg accepts)

/-! ## Qualifications -/

/-- A Boolean expression over atoms of type `α`: the `BoolExpr` nodes, the Boolean constants (`none`
is the NULL constant) and everything else as an atom. -/
inductive Expr (α : Type) where
  | atom (a : α)
  | const (c : Truth)
  | not (arg : Expr α)
  | and (args : List (Expr α))
  | or (args : List (Expr α))

namespace Expr

variable {α : Type}

/-- Induction over an expression, with the induction hypothesis for every argument of a clause. -/
@[elab_as_elim, induction_eliminator]
theorem induct {motive : Expr α → Prop} (atom : ∀ a, motive (.atom a))
    (const : ∀ c, motive (.const c)) (not : ∀ arg, motive arg → motive (.not arg))
    (and : ∀ args, (∀ e ∈ args, motive e) → motive (.and args))
    (or : ∀ args, (∀ e ∈ args, motive e) → motive (.or args)) (e : Expr α) : motive e := by
  refine @Expr.rec α motive (fun args => ∀ e ∈ args, motive e) atom const not and or ?_ ?_ e
  · simp
  · intro head tail hhead htail
    exact forall_mem_cons.mpr ⟨hhead, htail⟩

/-- `is_andclause`. -/
def isAndclause : Expr α → Bool
  | .and _ => true
  | _ => false

/-- `is_orclause`. -/
def isOrclause : Expr α → Bool
  | .or _ => true
  | _ => false

mutual

/-- The value of an expression under an assignment of truth values to the atoms. -/
def eval (v : α → Truth) : Expr α → Truth
  | .atom a => v a
  | .const c => c
  | .not arg => neg (eval v arg)
  | .and args => conj (evalList v args)
  | .or args => disj (evalList v args)

/-- The values of a list of arguments. -/
def evalList (v : α → Truth) : List (Expr α) → List Truth
  | [] => []
  | e :: rest => eval v e :: evalList v rest

end

variable {isCheck : Bool} {v : α → Truth} {args : List (Expr α)}

/-- The arguments are evaluated one by one. -/
theorem evalList_eq_map : evalList v args = args.map (eval v) := by
  induction args with
  | nil => rfl
  | cons e rest ih => rw [evalList, ih, map_cons]

/-- Whether a row with these values of the atoms passes the qualification, as a CHECK constraint or
as a WHERE clause. -/
def Accepted (isCheck : Bool) (v : α → Truth) (e : Expr α) : Prop := accepts isCheck (eval v e)

/-- `AND` is accepted when all arguments are. -/
@[simp] theorem accepted_and :
    Accepted isCheck v (.and args) ↔ ∀ e ∈ args, Accepted isCheck v e := by
  simp [Accepted, eval, evalList_eq_map, Kleene.accepts_conj]

/-- `OR` is accepted when some argument is. -/
@[simp] theorem accepted_or : Accepted isCheck v (.or args) ↔ ∃ e ∈ args, Accepted isCheck v e := by
  simp [Accepted, eval, evalList_eq_map, Kleene.accepts_disj]

/-- `TRUE` is accepted. -/
@[simp] theorem accepted_true : Accepted isCheck v (.const (some true)) := by
  cases isCheck <;> simp [Accepted, eval, accepts]

/-- `FALSE` is not accepted. -/
@[simp] theorem not_accepted_false : ¬ Accepted isCheck v (.const (some false)) := by
  cases isCheck <;> simp [Accepted, eval, accepts]

/-- AND/OR flatness: no argument of an AND is an AND, and none of an OR is an OR. -/
inductive Flat : Expr α → Prop where
  | atom (a : α) : Flat (.atom a)
  | const (c : Truth) : Flat (.const c)
  | not (arg : Expr α) (h : Flat arg) : Flat (.not arg)
  | and (args : List (Expr α)) (h : ∀ e ∈ args, Flat e) (hn : ∀ e ∈ args, e.isAndclause = false) :
      Flat (.and args)
  | or (args : List (Expr α)) (h : ∀ e ∈ args, Flat e) (hn : ∀ e ∈ args, e.isOrclause = false) :
      Flat (.or args)

end Expr

/-! ## Lists of expressions -/

section Lists

variable {α : Type} [DecidableEq α]

mutual

/-- `equal`, on expressions. -/
def equal : Expr α → Expr α → Bool
  | .atom a, .atom b => decide (a = b)
  | .const c, .const d => decide (c = d)
  | .not a, .not b => equal a b
  | .and as, .and bs => equalList as bs
  | .or as, .or bs => equalList as bs
  | _, _ => false

/-- `equal`, on lists. -/
def equalList : List (Expr α) → List (Expr α) → Bool
  | [], [] => true
  | a :: as, b :: bs => equal a b && equalList as bs
  | _, _ => false

end

/-- `equal` on lists, from `equal` on members. -/
theorem equalList_iff {as : List (Expr α)} (ih : ∀ a ∈ as, ∀ b, equal a b = true ↔ a = b)
    (bs : List (Expr α)) : equalList as bs = true ↔ as = bs := by
  induction as generalizing bs with
  | nil => cases bs <;> simp [equalList]
  | cons a as ihl =>
    cases bs with
    | nil => simp [equalList]
    | cons b bs =>
      obtain ⟨iha, ih⟩ := forall_mem_cons.mp ih
      rw [equalList, Bool.and_eq_true, iha b, ihl ih bs, cons.injEq]

/-- `equal` is equality. -/
theorem equal_iff (a b : Expr α) : equal a b = true ↔ a = b := by
  induction a generalizing b with
  | atom a => cases b <;> simp [equal]
  | const c => cases b <;> simp [equal]
  | not arg ih => cases b <;> simp [equal, ih]
  | and args ih => cases b <;> simp [equal, equalList_iff ih]
  | or args ih => cases b <;> simp [equal, equalList_iff ih]

/-- `list_member`. -/
def listMember (list : List (Expr α)) (datum : Expr α) : Bool := list.any fun e => equal e datum

/-- `list_union` with NIL: the list without its duplicates. -/
def listUnionNil (list : List (Expr α)) : List (Expr α) :=
  list.foldl (fun result e => if listMember result e then result else result ++ [e]) []

/-- `list_difference`. -/
def listDifference (list1 list2 : List (Expr α)) : List (Expr α) :=
  list1.filter fun e => !listMember list2 e

variable {list list1 list2 : List (Expr α)} {e : Expr α}

/-- `list_member` is membership. -/
@[simp] theorem listMember_iff : listMember list e = true ↔ e ∈ list := by
  simp [listMember, equal_iff]

/-- `list_difference` is the difference. -/
@[simp] theorem mem_listDifference : e ∈ listDifference list1 list2 ↔ e ∈ list1 ∧ e ∉ list2 := by
  simp [listDifference, ← listMember_iff]

end Lists

/-! ## The pass -/

section Pass

variable {α : Type}

mutual

/-- What an element of the argument list contributes to `pull_ands`: the flattened arguments of an
AND clause, and any other expression as it is. -/
def pullAnd : Expr α → List (Expr α)
  | .and args => pullAnds args
  | e => [e]

/-- `pull_ands`: flatten nested AND clauses into a single argument list. -/
def pullAnds : List (Expr α) → List (Expr α)
  | [] => []
  | subexpr :: rest => pullAnd subexpr ++ pullAnds rest

end

mutual

/-- What an element of the argument list contributes to `pull_ors`. -/
def pullOr : Expr α → List (Expr α)
  | .or args => pullOrs args
  | e => [e]

/-- `pull_ors`: flatten nested OR clauses into a single argument list. -/
def pullOrs : List (Expr α) → List (Expr α)
  | [] => []
  | subexpr :: rest => pullOr subexpr ++ pullOrs rest

end

/-- The reduced OR, appended to the winners unless it is degenerate. -/
def appendReducedOr (winners : List (Expr α)) : List (Expr α) → List (Expr α)
  | [] => winners
  | [clause] => winners ++ [clause]
  | neworlist => winners ++ [.or (pullOrs neworlist)]

/-- The AND clause over the winners, or the only winner. -/
def andOfWinners : List (Expr α) → Expr α
  | [winner] => winner
  | winners => .and (pullAnds winners)

variable [DecidableEq α]

/-- The first loop of `process_duplicate_ors`: the arguments of the shortest AND clause, or the
first clause that is not an AND. -/
def chooseReference (reference : List (Expr α)) (numSubclauses : ℕ) :
    List (Expr α) → List (Expr α)
  | [] => reference
  | .and subclauses :: rest =>
    if reference.isEmpty || subclauses.length < numSubclauses then
      chooseReference subclauses subclauses.length rest
    else chooseReference reference numSubclauses rest
  | clause :: _ => [clause]

/-- The test of the second loop: whether a reference clause occurs in an arm of the OR. -/
def occursIn (refclause : Expr α) : Expr α → Bool
  | .and args => listMember args refclause
  | clause => equal refclause clause

/-- The second loop: the reference clauses that occur in all arms. -/
def chooseWinners (reference orlist : List (Expr α)) : List (Expr α) :=
  (listUnionNil reference).filter fun refclause => orlist.all (occursIn refclause)

/-- The third loop: the arms without the winners, or nothing if one of the arms becomes empty. -/
def remainingArms (winners neworlist : List (Expr α)) : List (Expr α) → List (Expr α)
  | [] => neworlist
  | .and subclauses :: rest =>
    match listDifference subclauses winners with
    | [] => []
    | [subclause] => remainingArms winners (neworlist ++ [subclause]) rest
    | subclauses => remainingArms winners (neworlist ++ [.and subclauses]) rest
  | clause :: rest =>
    if !listMember winners clause then remainingArms winners (neworlist ++ [clause]) rest else []

/-- `process_duplicate_ors`: apply the inverse OR distributive law to a list of arms. -/
def processDuplicateOrs : List (Expr α) → Expr α
  | [] => .const (some false)
  | [clause] => clause
  | orlist =>
    let winners := chooseWinners (chooseReference [] 0 orlist) orlist
    if winners.isEmpty then .or orlist
    else andOfWinners (appendReducedOr winners (remainingArms winners [] orlist))

mutual

/-- `find_duplicate_ors`: search the top-level AND/OR structure for OR clauses to factor, and remove
the constants from it. -/
def findDuplicateOrs (isCheck : Bool) : Expr α → Expr α
  | .or args =>
    match orArgs isCheck [] args with
    | .error result => result
    | .ok orlist => processDuplicateOrs (pullOrs orlist)
  | .and args =>
    match andArgs isCheck [] args with
    | .error result => result
    | .ok andlist =>
      match pullAnds andlist with
      | [] => .const (some true)
      | [arg] => arg
      | andlist => .and andlist
  | qual => qual

/-- The loop over the arguments of an OR. It ends early with the result when a constant decides it.
-/
def orArgs (isCheck : Bool) (orlist : List (Expr α)) :
    List (Expr α) → Except (Expr α) (List (Expr α))
  | [] => .ok orlist
  | arg :: rest =>
    match findDuplicateOrs isCheck arg with
    | .const carg =>
      if isCheck then
        -- within OR in CHECK, FALSE is dropped; TRUE and NULL make the OR true
        if carg = some false then orArgs isCheck orlist rest else .error (.const (some true))
      else
        -- within OR in WHERE, FALSE and NULL are dropped
        if carg = some true then .error (.const carg) else orArgs isCheck orlist rest
    | arg => orArgs isCheck (orlist ++ [arg]) rest

/-- The loop over the arguments of an AND. -/
def andArgs (isCheck : Bool) (andlist : List (Expr α)) :
    List (Expr α) → Except (Expr α) (List (Expr α))
  | [] => .ok andlist
  | arg :: rest =>
    match findDuplicateOrs isCheck arg with
    | .const carg =>
      if isCheck then
        -- within AND in CHECK, TRUE and NULL are dropped
        if carg = some false then .error (.const carg) else andArgs isCheck andlist rest
      else
        -- within AND in WHERE, TRUE is dropped; FALSE and NULL make the AND false
        if carg = some true then andArgs isCheck andlist rest else .error (.const (some false))
    | arg => andArgs isCheck (andlist ++ [arg]) rest

end

/-- `canonicalize_qual`; the empty qualification is `none`. -/
def canonicalizeQual (qual : Option (Expr α)) (isCheck : Bool) : Option (Expr α) :=
  qual.map (findDuplicateOrs isCheck)

end Pass

/-! ## Flattening -/

section Flattening

variable {α : Type} {isCheck : Bool} {v : α → Truth} {e : Expr α}
  {args winners neworlist : List (Expr α)}

/-- `pull_ands` argument by argument. -/
theorem pullAnds_eq_flatMap : pullAnds args = args.flatMap pullAnd := by
  induction args with
  | nil => rfl
  | cons e rest ih => rw [pullAnds, ih, flatMap_cons]

/-- `pull_ors` argument by argument. -/
theorem pullOrs_eq_flatMap : pullOrs args = args.flatMap pullOr := by
  induction args with
  | nil => rfl
  | cons e rest ih => rw [pullOrs, ih, flatMap_cons]

/-- `pull_ands` keeps the meaning. -/
theorem accepted_pullAnd : (∀ x ∈ pullAnd e, x.Accepted isCheck v) ↔ e.Accepted isCheck v := by
  induction e with
  | and args ih =>
    rw [pullAnd, pullAnds_eq_flatMap, Expr.accepted_and, forall_mem_flatMap]
    exact forall₂_congr ih
  | _ => simp [pullAnd]

/-- `pull_ors` keeps the meaning. -/
theorem accepted_pullOr : (∃ x ∈ pullOr e, x.Accepted isCheck v) ↔ e.Accepted isCheck v := by
  induction e with
  | or args ih =>
    rw [pullOr, pullOrs_eq_flatMap, Expr.accepted_or]
    simp only [mem_flatMap]
    constructor
    · rintro ⟨x, ⟨e, he, hx⟩, hacc⟩
      exact ⟨e, he, (ih e he).mp ⟨x, hx, hacc⟩⟩
    · rintro ⟨e, he, hacc⟩
      obtain ⟨x, hx, hxacc⟩ := (ih e he).mpr hacc
      exact ⟨x, ⟨e, he, hx⟩, hxacc⟩
  | _ => simp [pullOr]

/-- Flattening keeps what the conjunction accepts. -/
theorem accepted_pullAnds :
    (∀ e ∈ pullAnds args, e.Accepted isCheck v) ↔ ∀ e ∈ args, e.Accepted isCheck v :=
  (accepted_pullAnd (e := .and args)).trans Expr.accepted_and

/-- Flattening keeps what the disjunction accepts. -/
theorem accepted_pullOrs :
    (∃ e ∈ pullOrs args, e.Accepted isCheck v) ↔ ∃ e ∈ args, e.Accepted isCheck v :=
  (accepted_pullOr (e := .or args)).trans Expr.accepted_or

/-- `pull_ands` leaves no `AND`. -/
theorem flat_pullAnd (he : e.Flat) : ∀ x ∈ pullAnd e, x.Flat ∧ x.isAndclause = false := by
  induction e with
  | and args ih =>
    cases he with
    | and _ h _ =>
      rw [pullAnd, pullAnds_eq_flatMap, forall_mem_flatMap]
      exact fun e he => ih e he (h e he)
  | _ => simp [pullAnd, he, Expr.isAndclause]

/-- `pull_ors` leaves no `OR`. -/
theorem flat_pullOr (he : e.Flat) : ∀ x ∈ pullOr e, x.Flat ∧ x.isOrclause = false := by
  induction e with
  | or args ih =>
    cases he with
    | or _ h _ =>
      rw [pullOr, pullOrs_eq_flatMap, forall_mem_flatMap]
      exact fun e he => ih e he (h e he)
  | _ => simp [pullOr, he, Expr.isOrclause]

/-- An AND clause over a flattened list of flat expressions is flat. -/
theorem flat_and_pullAnds (h : ∀ e ∈ args, e.Flat) : (Expr.and (pullAnds args)).Flat := by
  have hmem : ∀ x ∈ pullAnds args, x.Flat ∧ x.isAndclause = false := by
    rw [pullAnds_eq_flatMap, forall_mem_flatMap]
    exact fun e he => flat_pullAnd (h e he)
  exact .and _ (fun x hx => (hmem x hx).1) fun x hx => (hmem x hx).2

/-- An OR clause over a flattened list of flat expressions is flat. -/
theorem flat_or_pullOrs (h : ∀ e ∈ args, e.Flat) : (Expr.or (pullOrs args)).Flat := by
  have hmem : ∀ x ∈ pullOrs args, x.Flat ∧ x.isOrclause = false := by
    rw [pullOrs_eq_flatMap, forall_mem_flatMap]
    exact fun e he => flat_pullOr (h e he)
  exact .or _ (fun x hx => (hmem x hx).1) fun x hx => (hmem x hx).2

/-- The reduced `OR` is one more conjunct. -/
theorem accepted_appendReducedOr (hne : neworlist ≠ []) :
    (∀ e ∈ appendReducedOr winners neworlist, e.Accepted isCheck v) ↔
      (∀ w ∈ winners, w.Accepted isCheck v) ∧ ∃ e ∈ neworlist, e.Accepted isCheck v := by
  rcases neworlist with _ | ⟨a, _ | ⟨b, rest⟩⟩
  · exact absurd rfl hne
  · simp [appendReducedOr, or_imp, forall_and]
  · simp only [appendReducedOr, forall_mem_append, forall_mem_singleton,
      Expr.accepted_or, accepted_pullOrs]

/-- All winners are accepted. -/
theorem accepted_andOfWinners :
    (andOfWinners winners).Accepted isCheck v ↔ ∀ w ∈ winners, w.Accepted isCheck v := by
  rcases winners with _ | ⟨a, _ | ⟨b, rest⟩⟩
  · simp [andOfWinners, pullAnds]
  · simp [andOfWinners]
  · rw [andOfWinners, Expr.accepted_and, accepted_pullAnds]
    simp

/-- The reduced `OR` is flat. -/
theorem flat_appendReducedOr (hw : ∀ w ∈ winners, w.Flat) (hn : ∀ e ∈ neworlist, e.Flat) :
    ∀ e ∈ appendReducedOr winners neworlist, e.Flat := by
  rcases neworlist with _ | ⟨a, _ | ⟨b, rest⟩⟩
  · exact hw
  · rw [appendReducedOr, forall_mem_append]
    exact ⟨hw, hn⟩
  · simp only [appendReducedOr, forall_mem_append, forall_mem_singleton]
    exact ⟨hw, flat_or_pullOrs hn⟩

/-- The conjunction of winners is flat. -/
theorem flat_andOfWinners (hw : ∀ w ∈ winners, w.Flat) : (andOfWinners winners).Flat := by
  unfold andOfWinners
  split
  · exact hw _ (by simp)
  · exact flat_and_pullAnds hw

end Flattening

/-! ## Factoring an OR -/

section Factoring

variable {α : Type} {isCheck : Bool} {v : α → Truth} {clause : Expr α}
  {winners neworlist orlist : List (Expr α)}

/-- The conjuncts of an arm of an OR: the arguments of an AND clause, or the arm itself. -/
def armArgs : Expr α → List (Expr α)
  | .and args => args
  | clause => [clause]

/-- An arm is the conjunction of its arguments. -/
theorem accepted_armArgs :
    (∀ e ∈ armArgs clause, e.Accepted isCheck v) ↔ clause.Accepted isCheck v := by
  cases clause <;> simp [armArgs]

/-- The conjuncts of a flat arm are flat. -/
theorem flat_armArgs (h : clause.Flat) : ∀ e ∈ armArgs clause, e.Flat := by
  cases clause with
  | and args =>
    cases h with
    | and _ h _ => exact h
  | _ => simpa [armArgs] using h

variable [DecidableEq α]

/-- A winner is a conjunct of every arm. -/
theorem mem_armArgs_of_mem_chooseWinners (reference orlist : List (Expr α)) :
    ∀ clause ∈ orlist, ∀ w ∈ chooseWinners reference orlist, w ∈ armArgs clause := by
  intro clause hc w hw
  unfold chooseWinners at hw
  rw [mem_filter, all_eq_true] at hw
  have hoccurs := hw.2 clause hc
  cases clause <;> simpa [occursIn, armArgs, equal_iff] using hoccurs

/-- What is left of an arm without the winners, as an expression. -/
def restOfArm (winners : List (Expr α)) (clause : Expr α) : Expr α :=
  match listDifference (armArgs clause) winners with
  | [subclause] => subclause
  | subclauses => .and subclauses

/-- What the winners leave of an arm. -/
theorem accepted_restOfArm :
    (restOfArm winners clause).Accepted isCheck v ↔
      ∀ e ∈ listDifference (armArgs clause) winners, e.Accepted isCheck v := by
  unfold restOfArm
  split
  · rename_i subclause heq
    rw [heq, forall_mem_singleton]
  · exact Expr.accepted_and

/-- An arm is accepted when the winners and the rest of it are. -/
theorem armAccepted_iff (hw : ∀ w ∈ winners, w ∈ armArgs clause) :
    clause.Accepted isCheck v ↔
      (∀ w ∈ winners, w.Accepted isCheck v) ∧ (restOfArm winners clause).Accepted isCheck v := by
  rw [← accepted_armArgs, accepted_restOfArm]
  constructor
  · intro h
    exact ⟨fun w hmem => h w (hw w hmem), fun e he => h e (mem_listDifference.mp he).1⟩
  · rintro ⟨hwin, hrest⟩ e he
    by_cases hmem : e ∈ winners
    · exact hwin e hmem
    · exact hrest e (mem_listDifference.mpr ⟨he, hmem⟩)

/-- The step of the third loop for one arm, whether or not it is an AND clause. -/
theorem remainingArms_cons {rest : List (Expr α)} :
    remainingArms winners neworlist (clause :: rest) =
      if listDifference (armArgs clause) winners = [] then []
      else remainingArms winners (neworlist ++ [restOfArm winners clause]) rest := by
  cases clause with
  | and args =>
    rw [remainingArms, restOfArm, armArgs]
    rcases listDifference args winners with _ | ⟨e, _ | ⟨e', es⟩⟩ <;> simp
  | _ =>
    rw [remainingArms]
    · split <;> simp_all [armArgs, listDifference, restOfArm]
    · simp

/-- The third loop as a whole: nothing if an arm consists of winners only, and otherwise the rests
of all the arms. -/
theorem remainingArms_eq :
    remainingArms winners neworlist orlist =
      if ∃ clause ∈ orlist, listDifference (armArgs clause) winners = [] then []
      else neworlist ++ orlist.map (restOfArm winners) := by
  induction orlist generalizing neworlist with
  | nil => simp [remainingArms]
  | cons clause rest ih =>
    rw [remainingArms_cons]
    by_cases hd : listDifference (armArgs clause) winners = []
    · simp [hd]
    · rw [if_neg hd, ih]
      simp [hd]

/-- Factoring keeps what the OR accepts: the arms share the winners, so the OR of the arms is the
winners together with the OR of the rests. -/
theorem accepted_processDuplicateOrs :
    (processDuplicateOrs orlist).Accepted isCheck v ↔ ∃ e ∈ orlist, e.Accepted isCheck v := by
  unfold processDuplicateOrs
  split
  · simp
  · simp
  rename_i hnil hsingle
  have hwinners := mem_armArgs_of_mem_chooseWinners (chooseReference [] 0 orlist) orlist
  generalize chooseWinners (chooseReference [] 0 orlist) orlist = winners at hwinners
  dsimp only
  split_ifs with hnone
  · exact Expr.accepted_or
  have hsplit : (∃ clause ∈ orlist, clause.Accepted isCheck v) ↔
      (∀ w ∈ winners, w.Accepted isCheck v) ∧
        ∃ clause ∈ orlist, (restOfArm winners clause).Accepted isCheck v := by
    constructor
    · rintro ⟨clause, hc, hacc⟩
      obtain ⟨hw, hrest⟩ := (armAccepted_iff (hwinners clause hc)).mp hacc
      exact ⟨hw, clause, hc, hrest⟩
    · rintro ⟨hw, clause, hc, hrest⟩
      exact ⟨clause, hc, (armAccepted_iff (hwinners clause hc)).mpr ⟨hw, hrest⟩⟩
  rw [accepted_andOfWinners, remainingArms_eq, hsplit]
  split_ifs with hdeg
  · -- an arm of winners only: its rest holds of every row
    obtain ⟨clause, hc, hempty⟩ := hdeg
    have hrest : (restOfArm winners clause).Accepted isCheck v := by
      rw [accepted_restOfArm, hempty]
      simp
    exact ⟨fun h => ⟨h, clause, hc, hrest⟩, fun h => h.1⟩
  · rw [nil_append, accepted_appendReducedOr]
    · simp only [mem_map, exists_exists_and_eq_and]
    · simpa using hnil

/-- What is left of an arm is flat. -/
theorem flat_restOfArm (h : clause.Flat) : (restOfArm winners clause).Flat := by
  have hmem : ∀ e ∈ listDifference (armArgs clause) winners, e.Flat := fun e he =>
    flat_armArgs h e (mem_listDifference.mp he).1
  unfold restOfArm
  split
  · rename_i subclause heq
    exact hmem subclause (by rw [heq]; simp)
  · rename_i hnot
    refine .and _ hmem fun e he => ?_
    have hin := (mem_listDifference.mp he).1
    cases h with
    | and args h hn => exact hn e hin
    | _ =>
      rw [armArgs, mem_singleton] at hin
      · subst hin; rfl
      · simp

/-- Factoring an OR over flat arms gives a flat expression. -/
theorem flat_processDuplicateOrs (h : (Expr.or orlist).Flat) :
    (processDuplicateOrs orlist).Flat := by
  have harms : ∀ e ∈ orlist, e.Flat := by
    cases h with
    | or args h hn => exact h
  unfold processDuplicateOrs
  split
  · exact .const _
  · exact harms _ (by simp)
  rename_i hnil hsingle
  have hwinners := mem_armArgs_of_mem_chooseWinners (chooseReference [] 0 orlist) orlist
  generalize chooseWinners (chooseReference [] 0 orlist) orlist = winners at hwinners
  dsimp only
  split_ifs with hnone
  · exact h
  apply flat_andOfWinners
  apply flat_appendReducedOr
  · intro w hw
    obtain ⟨clause, hc⟩ := exists_mem_of_ne_nil orlist (by simpa using hnil)
    exact flat_armArgs (harms clause hc) w (hwinners clause hc w hw)
  · rw [remainingArms_eq]
    split_ifs with hdeg
    · simp
    · simp only [nil_append, mem_map, forall_exists_index, and_imp,
        forall_apply_eq_imp_iff₂]
      exact fun clause hc => flat_restOfArm (harms clause hc)

end Factoring

/-! ## The whole pass -/

section WholePass

variable {α : Type} [DecidableEq α] {isCheck : Bool} {v : α → Truth}
  {args orlist andlist : List (Expr α)}

omit [DecidableEq α] in
/-- A constant is accepted by its value. -/
theorem accepted_const {c : Truth} :
    (Expr.const c : Expr α).Accepted isCheck v ↔ accepts isCheck c := by
  simp [Expr.Accepted, Expr.eval]

/-- A constant argument of an OR decides it when it is accepted, and is dropped otherwise. Any other
argument becomes an arm. -/
theorem orArgs_cons (isCheck : Bool) (orlist : List (Expr α)) (arg : Expr α)
    (rest : List (Expr α)) :
    (∃ c, findDuplicateOrs isCheck arg = .const c ∧ orArgs isCheck orlist (arg :: rest) =
      if accepts isCheck c then .error (.const (some true)) else orArgs isCheck orlist rest) ∨
    orArgs isCheck orlist (arg :: rest) = orArgs isCheck
      (orlist ++ [findDuplicateOrs isCheck arg]) rest := by
  rw [orArgs]
  split
  · rename_i c hc
    refine .inl ⟨c, hc, ?_⟩
    cases isCheck <;> rcases c with _ | _ | _ <;> simp [accepts]
  · exact .inr rfl

/-- A constant argument of an AND is dropped when it is accepted, and decides it otherwise. Any
other argument becomes a conjunct. -/
theorem andArgs_cons (isCheck : Bool) (andlist : List (Expr α)) (arg : Expr α)
    (rest : List (Expr α)) :
    (∃ c, findDuplicateOrs isCheck arg = .const c ∧ andArgs isCheck andlist (arg :: rest) =
      if accepts isCheck c then andArgs isCheck andlist rest else .error (.const (some false))) ∨
    andArgs isCheck andlist (arg :: rest) = andArgs isCheck
      (andlist ++ [findDuplicateOrs isCheck arg]) rest := by
  rw [andArgs]
  split
  · rename_i c hc
    refine .inl ⟨c, hc, ?_⟩
    cases isCheck <;> rcases c with _ | _ | _ <;> simp [accepts]
  · exact .inr rfl

/-- What the outcome of the loop over an OR accepts: the result it ended with, or one of the arms.
-/
def OrAccepted (isCheck : Bool) (v : α → Truth) : Except (Expr α) (List (Expr α)) → Prop
  | .error result => result.Accepted isCheck v
  | .ok orlist => ∃ e ∈ orlist, e.Accepted isCheck v

/-- What the outcome of the loop over an AND accepts. -/
def AndAccepted (isCheck : Bool) (v : α → Truth) : Except (Expr α) (List (Expr α)) → Prop
  | .error result => result.Accepted isCheck v
  | .ok andlist => ∀ e ∈ andlist, e.Accepted isCheck v

/-- The loop over the arguments of `OR` keeps the meaning. -/
theorem accepted_orArgs (ih : ∀ e ∈ args, (findDuplicateOrs isCheck e).Accepted isCheck v ↔
    e.Accepted isCheck v)
    (orlist : List (Expr α)) :
    OrAccepted isCheck v (orArgs isCheck orlist args) ↔
      (∃ e ∈ orlist, e.Accepted isCheck v) ∨ ∃ e ∈ args, e.Accepted isCheck v := by
  induction args generalizing orlist with
  | nil => simp [orArgs, OrAccepted]
  | cons arg rest ihrest =>
    obtain ⟨ih, hrest⟩ := forall_mem_cons.mp ih
    rcases orArgs_cons isCheck orlist arg rest with ⟨c, hc, heq⟩ | heq
    · rw [hc, accepted_const] at ih
      rw [heq]
      split_ifs with hacc
      · simp [OrAccepted, ih.mp hacc]
      · simp [ihrest hrest, ← ih, hacc]
    · rw [heq, ihrest hrest]
      simp [or_and_right, exists_or, ih, or_assoc]

/-- The loop over the arguments of `AND` keeps the meaning. -/
theorem accepted_andArgs (ih : ∀ e ∈ args, (findDuplicateOrs isCheck e).Accepted isCheck v ↔
    e.Accepted isCheck v)
    (andlist : List (Expr α)) :
    AndAccepted isCheck v (andArgs isCheck andlist args) ↔
      (∀ e ∈ andlist, e.Accepted isCheck v) ∧ ∀ e ∈ args, e.Accepted isCheck v := by
  induction args generalizing andlist with
  | nil => simp [andArgs, AndAccepted]
  | cons arg rest ihrest =>
    obtain ⟨ih, hrest⟩ := forall_mem_cons.mp ih
    rcases andArgs_cons isCheck andlist arg rest with ⟨c, hc, heq⟩ | heq
    · rw [hc, accepted_const] at ih
      rw [heq]
      split_ifs with hacc
      · simp [ihrest hrest, ← ih, hacc]
      · simp [AndAccepted, ← ih, hacc]
    · rw [heq, ihrest hrest]
      simp only [forall_mem_append, forall_mem_singleton, forall_mem_cons, ih, and_assoc]

/-- The pass keeps which rows a qualification accepts. -/
theorem accepted_findDuplicateOrs (isCheck : Bool) (v : α → Truth) (qual : Expr α) :
    (findDuplicateOrs isCheck qual).Accepted isCheck v ↔ qual.Accepted isCheck v := by
  induction qual with
  | or args ih =>
    have hloop := accepted_orArgs ih []
    rw [findDuplicateOrs, Expr.accepted_or]
    split <;> rename_i outcome heq <;> rw [heq] at hloop
    · simpa [OrAccepted] using hloop
    · rw [accepted_processDuplicateOrs, accepted_pullOrs]
      simpa [OrAccepted] using hloop
  | and args ih =>
    have hloop := accepted_andArgs ih []
    rw [findDuplicateOrs, Expr.accepted_and]
    split <;> rename_i outcome heq <;> rw [heq] at hloop
    · simpa [AndAccepted] using hloop
    · simp only [AndAccepted, List.not_mem_nil, IsEmpty.forall_iff, implies_true, true_and] at hloop
      rw [← hloop, ← accepted_pullAnds]
      split
      · rename_i hnil
        simp [hnil]
      · rename_i hsingle
        simp [hsingle]
      · exact Expr.accepted_and
  | _ => rw [findDuplicateOrs] <;> simp

/-- The outcome of a loop over arguments is made of flat expressions. -/
def FlatOutcome : Except (Expr α) (List (Expr α)) → Prop
  | .error result => result.Flat
  | .ok list => ∀ e ∈ list, e.Flat

/-- The loop over the arguments of `OR` keeps lists flat. -/
theorem flat_orArgs (ih : ∀ e ∈ args, (findDuplicateOrs isCheck e).Flat)
    (h : ∀ e ∈ orlist, e.Flat) :
    FlatOutcome (orArgs isCheck orlist args) := by
  induction args generalizing orlist with
  | nil => exact h
  | cons arg rest ihrest =>
    obtain ⟨ih, hrest⟩ := forall_mem_cons.mp ih
    rcases orArgs_cons isCheck orlist arg rest with ⟨c, -, heq⟩ | heq
    · rw [heq]
      split_ifs
      · exact .const _
      · exact ihrest hrest h
    · rw [heq]
      exact ihrest hrest (forall_mem_append.mpr ⟨h, forall_mem_singleton.mpr ih⟩)

/-- The loop over the arguments of `AND` keeps lists flat. -/
theorem flat_andArgs (ih : ∀ e ∈ args, (findDuplicateOrs isCheck e).Flat)
    (h : ∀ e ∈ andlist, e.Flat) :
    FlatOutcome (andArgs isCheck andlist args) := by
  induction args generalizing andlist with
  | nil => exact h
  | cons arg rest ihrest =>
    obtain ⟨ih, hrest⟩ := forall_mem_cons.mp ih
    rcases andArgs_cons isCheck andlist arg rest with ⟨c, -, heq⟩ | heq
    · rw [heq]
      split_ifs
      · exact ihrest hrest h
      · exact .const _
    · rw [heq]
      exact ihrest hrest (forall_mem_append.mpr ⟨h, forall_mem_singleton.mpr ih⟩)

/-- The pass keeps AND/OR flatness. -/
theorem flat_findDuplicateOrs {qual : Expr α} (h : qual.Flat) :
    (findDuplicateOrs isCheck qual).Flat := by
  induction h with
  | or args h hn ih =>
    have hloop := flat_orArgs ih (forall_mem_nil _)
    rw [findDuplicateOrs]
    split <;> rename_i outcome heq <;> rw [heq] at hloop
    · exact hloop
    · exact flat_processDuplicateOrs (flat_or_pullOrs hloop)
  | and args h hn ih =>
    have hloop := flat_andArgs ih (forall_mem_nil _)
    rw [findDuplicateOrs]
    split <;> rename_i outcome heq <;> rw [heq] at hloop
    · exact hloop
    · have hflat := flat_and_pullAnds hloop
      split
      · exact .const _
      · rename_i arg hsingle
        rw [hsingle] at hflat
        cases hflat with
        | and args h hn => exact h arg (by simp)
      · exact hflat
  | atom a => exact .atom a
  | const c => exact .const c
  | not arg h ih => exact .not arg h

/-- **Canonicalizing a qualification keeps its meaning for its use:** a WHERE clause is true of the
same rows as before, a CHECK constraint is false of the same rows as before, and the result is again
AND/OR-flat. -/
theorem canonicalizeQual_correct (qual : Expr α) (h : qual.Flat) :
    (∃ newqual, canonicalizeQual (some qual) false = some newqual ∧ newqual.Flat ∧
      ∀ v : α → Truth, newqual.eval v = some true ↔ qual.eval v = some true) ∧
    ∃ newqual, canonicalizeQual (some qual) true = some newqual ∧ newqual.Flat ∧
      ∀ v : α → Truth, newqual.eval v = some false ↔ qual.eval v = some false := by
  constructor
  · refine ⟨_, rfl, flat_findDuplicateOrs h, fun v => ?_⟩
    exact accepted_findDuplicateOrs false v qual
  · refine ⟨_, rfl, flat_findDuplicateOrs h, fun v => ?_⟩
    exact not_iff_not.mp (accepted_findDuplicateOrs true v qual)

/-- `(a AND b) OR (a AND (c OR NULL))`, with a term common to both arms and a NULL constant. -/
def sharedTerm : Expr ℕ :=
  .or [.and [.atom 0, .atom 1], .and [.atom 0, .or [.atom 2, .const none]]]

/-- It is flat. -/
theorem flat_sharedTerm : sharedTerm.Flat := by
  have hleft : (Expr.and [.atom 0, .atom 1] : Expr ℕ).Flat :=
    .and _ (by simp [Expr.Flat.atom]) (by decide)
  have hor : (Expr.or [.atom 2, .const none] : Expr ℕ).Flat :=
    .or _ (by simp [Expr.Flat.atom, Expr.Flat.const]) (by decide)
  have hright : (Expr.and [.atom 0, .or [.atom 2, .const none]] : Expr ℕ).Flat :=
    .and _ (by simp [Expr.Flat.atom, hor]) (by decide)
  exact .or _ (by simp [hleft, hright]) (by decide)

/-- As a WHERE clause it becomes `a AND (b OR c)`. -/
example : findDuplicateOrs false sharedTerm = .and [.atom 0, .or [.atom 1, .atom 2]] :=
  (equal_iff _ _).mp (by decide)

/-- A term that both arms share. -/
theorem canonicalizeQual_sharedTerm :
    ∃ newqual, canonicalizeQual (some sharedTerm) false = some newqual ∧ newqual.Flat ∧
      ∀ v : ℕ → Truth, newqual.eval v = some true ↔ sharedTerm.eval v = some true :=
  (canonicalizeQual_correct sharedTerm flat_sharedTerm).1

end WholePass

end PgAutoIndex.Optimizer
