import Provision.Matching.Grid

/-!
# Matching problems

A matching problem asks for a matrix of unit counts. Every row needs a minimum in total, every
column has a maximum to give in total, and every cell has an upper bound. A cell whose upper bound
is zero is not allowed to hold anything.
-/

namespace Provision

/-- What a matrix of units with `m` rows and `n` columns has to obey. -/
structure Problem (m n : Nat) where
  rowMin : Vector Nat m
  colMax : Vector Nat n
  upper : Vector Nat (m * n)

/-- A permission for a place that the matrix does not have. -/
structure OutsideMatrix where
  row : Nat
  col : Nat
  rows : Nat
  cols : Nat
deriving DecidableEq, Repr

/-- The wording for a permission outside the matrix. -/
def OutsideMatrix.message (e : OutsideMatrix) : String :=
  "called `MatchProblemBuilder::allow` with (" ++ toString e.row ++ ", " ++ toString e.col ++
    ") outside a " ++ toString e.rows ++ "x" ++ toString e.cols ++ " matrix"

namespace Problem
variable {m n : Nat}

/-- The problem that allows nothing. -/
def closed (rowMin : Vector Nat m) (colMax : Vector Nat n) : Problem m n :=
  ⟨rowMin, colMax, Vector.replicate (m * n) 0⟩

/-- Give a cell an upper bound; an upper bound of zero withdraws the permission. -/
def allow (p : Problem m n) (r : Fin m) (c : Fin n) (upper : Nat) : Problem m n :=
  { p with upper := put p.upper (Cell.of r c) upper }

/-- Give the cell at some coordinates an upper bound, if the matrix has it. -/
def allow? (p : Problem m n) (r c upper : Nat) : Except OutsideMatrix (Problem m n) :=
  if h : r < m ∧ c < n then .ok (p.allow ⟨r, h.1⟩ ⟨c, h.2⟩ upper)
  else .error ⟨r, c, m, n⟩

/-- The problem with the given row minima and column maxima after a sequence of permissions. -/
def ofPermissions (rowMin : Vector Nat m) (colMax : Vector Nat n)
    (permissions : List (Nat × Nat × Nat)) : Except OutsideMatrix (Problem m n) :=
  permissions.foldlM (fun p e => p.allow? e.1 e.2.1 e.2.2) (closed rowMin colMax)

/-- The problem whose upper bounds are given by a function on rows and columns. -/
def ofFn (rowMin : Vector Nat m) (colMax : Vector Nat n) (upper : Fin m → Fin n → Nat) :
    Problem m n :=
  ⟨rowMin, colMax, Vector.ofFn fun k : Cell m n => upper k.row k.col⟩

/-- The cell may hold units. -/
def isAllowed (p : Problem m n) (k : Cell m n) : Bool := 0 < p.upper[k]

/-- The allowed cells of a row, from left to right. -/
def allowedInRow (p : Problem m n) (r : Fin m) : List (Cell m n) :=
  (Cell.ofRow r).filter p.isAllowed

/-- The allowed cells of a column, from top to bottom. -/
def allowedInCol (p : Problem m n) (c : Fin n) : List (Cell m n) :=
  (Cell.ofCol c).filter p.isAllowed

/-- The text of a problem: its size and the number of allowed cells. -/
def render (p : Problem m n) : String :=
  "MatchProblem(rows: " ++ toString m ++ ", cols: " ++ toString n ++ ", allowed cells: " ++
    toString ((List.finRange (m * n)).countP p.isAllowed) ++ ")"

end Problem

end Provision
