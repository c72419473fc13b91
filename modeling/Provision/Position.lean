/-!
# Positions in the assignment matrix

Rows are requirements, columns are offers, and cells are numbered row by row. A position knows which
of the three it counts, so that the numbers of different axes are not mixed up.
-/

namespace Provision

/-- What a position counts. -/
inductive Axis where
  | row
  | column
  | cell
deriving DecidableEq, Repr

/-- The name of an axis. -/
def Axis.name : Axis → String
  | .row => "RowIndex"
  | .column => "ColumnIndex"
  | .cell => "CellIndex"

/-- A number on an axis, counted from zero. -/
structure Position (axis : Axis) where
  index : Nat
deriving DecidableEq, Repr

namespace Position
variable {axis : Axis}

/-- The following position. -/
def next (p : Position axis) : Position axis := ⟨p.index + 1⟩

/-- The position some steps further on. -/
def advance (p : Position axis) (steps : Nat) : Position axis := ⟨p.index + steps⟩

/-- All positions below a number, in order. -/
def below (n : Nat) : List (Position axis) := (List.range n).map (⟨·⟩)

/-- The text of a position: the axis and the number. -/
def render (p : Position axis) : String := axis.name ++ "(" ++ toString p.index ++ ")"

end Position

end Provision
