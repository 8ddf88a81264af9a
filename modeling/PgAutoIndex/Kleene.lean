import Mathlib.Data.List.Basic

/-!
# Three-valued conjunctions and disjunctions

The connectives of SQL: a truth value is `some true`, `some false` or `none` for NULL. A conjunction
is false as soon as one of its inputs is, a disjunction is true as soon as one of its inputs is, and
otherwise a NULL input makes the result NULL.

A condition is used in one of two ways. A filter lets a row through when the condition is true, and
a constraint accepts a row when the condition is not false. `accepts` is the test, for either use.
Both tests turn the three-valued connectives into the two-valued ones (`accepts_conj`,
`accepts_disj`), so a rewriting of positive formulas that is sound in two-valued logic is sound for
either use.
-/

namespace Kleene

/-- A truth value of SQL, with `none` for NULL. -/
abbrev Truth := Option Bool

/-- The conjunction of a list of truth values. -/
def conj : List Truth → Truth
  | [] => some true
  | some false :: _ => some false
  | some true :: rest => conj rest
  | none :: rest => if conj rest = some false then some false else none

/-- The disjunction of a list of truth values. -/
def disj : List Truth → Truth
  | [] => some false
  | some true :: _ => some true
  | some false :: rest => disj rest
  | none :: rest => if disj rest = some true then some true else none

/-- The negation of a truth value. -/
def neg (t : Truth) : Truth := t.map (!·)

/-- Whether a condition of this value lets a row through: a constraint (`check`) accepts it unless
the value is false, a filter only when the value is true. -/
def accepts (check : Bool) (t : Truth) : Prop := if check then t ≠ some false else t = some true

/-- Acceptance is decidable. -/
instance instDecidableAccepts (check : Bool) (t : Truth) : Decidable (accepts check t) :=
  inferInstanceAs (Decidable (if check then t ≠ some false else t = some true))

/-- A conjunction is accepted when all its inputs are. -/
theorem accepts_conj (check : Bool) (ts : List Truth) :
    accepts check (conj ts) ↔ ∀ t ∈ ts, accepts check t := by
  induction ts with
  | nil => cases check <;> simp [conj, accepts]
  | cons t rest ih =>
    rw [List.forall_mem_cons, ← ih]
    -- The first input and the conjunction of the others: a table of nine lines.
    rcases t with _ | _ | _ <;> rw [conj] <;> rcases conj rest with _ | _ | _ <;>
      cases check <;> decide

/-- A disjunction is accepted when one of its inputs is. -/
theorem accepts_disj (check : Bool) (ts : List Truth) :
    accepts check (disj ts) ↔ ∃ t ∈ ts, accepts check t := by
  induction ts with
  | nil => cases check <;> simp [disj, accepts]
  | cons t rest ih =>
    rw [List.exists_mem_cons_iff, ← ih]
    rcases t with _ | _ | _ <;> rw [disj] <;> rcases disj rest with _ | _ | _ <;>
      cases check <;> decide

end Kleene
