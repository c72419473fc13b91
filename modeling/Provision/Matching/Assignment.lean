import Provision.Matching.Problem

/-!
# Assignments

An assignment gives every cell of the matrix a number of units. It satisfies a problem when every
row gets its minimum, no column gives more than its maximum, and no cell exceeds its upper bound.
-/

namespace Provision

/-- A number of units for every cell. -/
structure Assignment (m n : Nat) where
  values : Vector Nat (m * n)
deriving DecidableEq

/-- A list of values that does not fill the matrix. -/
structure SizeMismatch where
  found : Nat
  rows : Nat
  cols : Nat
deriving DecidableEq, Repr

/-- The wording for a list of values of the wrong length. -/
def SizeMismatch.message (e : SizeMismatch) : String :=
  "assertion `left == right` failed: called `Assignment::new` with " ++ toString e.found ++
    " values for a " ++ toString e.rows ++ "x" ++ toString e.cols ++ " matrix\n  left: " ++
    toString e.found ++ "\n right: " ++ toString (e.rows * e.cols)

namespace Assignment
variable {m n : Nat}

/-- The assignment with the given values, row by row. -/
def ofList (m n : Nat) (values : List Nat) : Except SizeMismatch (Assignment m n) :=
  if h : values.length = m * n then .ok ⟨⟨values.toArray, by simpa using h⟩⟩
  else .error ⟨values.length, m, n⟩

/-- The number of units in a row and a column. -/
def get (a : Assignment m n) (r : Fin m) (c : Fin n) : Nat := a.values[Cell.of r c]

/-- The number of units a row gets. -/
def rowTotal (a : Assignment m n) (r : Fin m) : Nat := sumOf ((List.finRange n).map (a.get r))

/-- The number of units a column gives. -/
def colTotal (a : Assignment m n) (c : Fin n) : Nat := sumOf ((List.finRange m).map (a.get · c))

/-- All constraints of a problem hold. -/
def Satisfies (a : Assignment m n) (p : Problem m n) : Prop :=
  (∀ k : Cell m n, a.values[k] ≤ p.upper[k]) ∧
    (∀ r : Fin m, p.rowMin[r] ≤ a.rowTotal r) ∧ ∀ c : Fin n, a.colTotal c ≤ p.colMax[c]

instance (a : Assignment m n) (p : Problem m n) : Decidable (a.Satisfies p) :=
  inferInstanceAs (Decidable (_ ∧ _ ∧ _))

/-- Whether an assignment satisfies a problem that may have another size. -/
def satisfiesAny {m' n' : Nat} (a : Assignment m n) (p : Problem m' n') : Bool :=
  if h : m = m' ∧ n = n' then decide (Satisfies (h.1 ▸ h.2 ▸ a) p) else false

end Assignment

end Provision
