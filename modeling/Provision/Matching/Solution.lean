import Provision.Bound
import Provision.Matching.Search

/-!
# Solutions

A solution lists, for every required bound, the columns of the matrix that give units to it, and how
many. Columns are offered bounds or single instances.
-/

namespace Provision

/-- The columns that serve each required bound, with the number of units they give. -/
structure Solution (γ : Type) where
  rows : List (Bound × List (γ × Nat))

/-- A matrix whose size does not fit its rows and columns. -/
structure ShapeMismatch where
  rows : Nat
  cols : Nat
  required : Nat
  columns : Nat
deriving DecidableEq, Repr

/-- The wording for a matrix that does not fit. -/
def ShapeMismatch.message (e : ShapeMismatch) : String :=
  "called `Solution::from_assignment` with a " ++ toString e.rows ++ "x" ++ toString e.cols ++
    " assignment for " ++ toString e.required ++ " rows and " ++ toString e.columns ++ " columns"

/-- Why there is no solution. -/
inductive MatchError where
  | infeasible
  | aborted (reason : StopReason)
deriving DecidableEq, Repr

/-- The wording of a match error. -/
def MatchError.message : MatchError → String
  | .infeasible => "no feasible assignment exists"
  | .aborted reason => "search aborted: " ++ reason.render

namespace Solution
variable {γ : Type}

/-- The solution that an assignment describes: its cells with at least one unit. -/
def ofAssignment (required : List Bound) (columns : List γ)
    (a : Assignment required.length columns.length) : Solution γ where
  rows := (List.finRange required.length).map fun r =>
    (required.get r, (List.finRange columns.length).filterMap fun c =>
      if 0 < a.get r c then some (columns.get c, a.get r c) else none)

/-- The solution that an assignment of any size describes, if its size fits. -/
def ofAssignment? {m n : Nat} (required : List Bound) (columns : List γ) (a : Assignment m n) :
    Except ShapeMismatch (Solution γ) :=
  if h : m = required.length ∧ n = columns.length then
    .ok (ofAssignment required columns (h.1 ▸ h.2 ▸ a))
  else .error ⟨m, n, required.length, columns.length⟩

/-- The solution that a search has found. -/
def ofOutcome (required : List Bound) (columns : List γ)
    (o : Outcome required.length columns.length) : Except MatchError (Solution γ) :=
  match o.result with
  | .feasible a => .ok (ofAssignment required columns a)
  | .infeasible => .error .infeasible
  | .unknown => .error (.aborted o.reason)

/-- The number of rows. -/
def size (s : Solution γ) : Nat := s.rows.length

/-- How many units each row gets. -/
def assigned (s : Solution γ) : List Nat := s.rows.map fun row => sumOf (row.2.map (·.2))

/-- The text of a row. -/
def renderRow (label : γ → String) (row : Bound × List (γ × Nat)) : String :=
  row.1.render ++ " <-" ++
    (if row.2.isEmpty then " (none)"
      else String.join (row.2.map fun e => " " ++ label e.1 ++ " x" ++ toString e.2)) ++ "\n"

/-- The text of a solution, one row a line. -/
def render (label : γ → String) (s : Solution γ) : String :=
  String.join (s.rows.map (renderRow label))

end Solution

end Provision
