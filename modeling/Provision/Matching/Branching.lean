import Provision.Matching.State

/-!
# Branching

A branching step picks a cell that is not fixed and splits its interval in the middle. The two
halves are listed with the upper one first, so that the lower one is on top of the stack.
-/

namespace Provision

/-- The restriction of one of `cells` cells to an interval. -/
structure Decision (cells : Nat) where
  cell : Fin cells
  domain : Interval Nat
deriving DecidableEq

/-- The text of a decision. -/
def Decision.render {cells : Nat} (d : Decision cells) : String :=
  "Decision(cell: " ++ toString d.cell.val ++ ", domain: " ++ d.domain.render ++ ")"

/-- How the cell to split is chosen. -/
inductive Branching where
  | smallestDomain
  | chronological
deriving DecidableEq, Repr

namespace Branching
variable {m n : Nat}

/-- The name of a way of branching. -/
def name : Branching → String
  | .smallestDomain => "SmallestDomainBuilder"
  | .chronological => "ChronologicalBuilder"

/-- The first cell of a list with the least width. -/
def narrowest (s : State m n) : List (Cell m n) → Option (Cell m n)
  | [] => none
  | k :: rest =>
    match narrowest s rest with
    | none => some k
    | some best => if s.domains[k].width ≤ s.domains[best].width then some k else some best

/-- The cells that are not fixed, in order. -/
def unfixedCells (s : State m n) : List (Cell m n) :=
  (List.finRange (m * n)).filter fun k => !s.domains[k].isFixed

/-- The cell to split, if one is not fixed. -/
def select (b : Branching) (s : State m n) : Option (Cell m n) :=
  match b with
  | .smallestDomain => narrowest s (unfixedCells s)
  | .chronological => (unfixedCells s).head?

/-- The halves of a cell's interval, the upper one first; none if the cell is fixed. -/
def split (s : State m n) (k : Cell m n) : List (Decision (m * n)) :=
  match s.domains[k].halves? with
  | none => []
  | some (lower, upper) => [⟨k, upper⟩, ⟨k, lower⟩]

/-- The decisions of a branching step. -/
def decisions (b : Branching) (s : State m n) : List (Decision (m * n)) :=
  match b.select s with
  | none => []
  | some k => split s k

end Branching

end Provision
