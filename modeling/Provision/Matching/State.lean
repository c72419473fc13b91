import Provision.Interval
import Provision.Matching.Assignment

/-!
# Search states

A search state holds an interval of possible values for every cell. The sums of upper and of lower
ends that propagation asks for are kept beside the intervals and are adjusted with every change, as
is the number of cells that are not fixed.
-/

namespace Provision

/-- The intervals of all cells, with the sums kept for them. -/
structure State (m n : Nat) where
  domains : Vector (Interval Nat) (m * n)
  rowHi : Vector Nat m
  rowLo : Vector Nat m
  colLo : Vector Nat n
  unfixed : Nat
deriving DecidableEq

namespace State
variable {m n : Nat}

/-- The number of cells with more than one value. -/
def countUnfixed (domains : Vector (Interval Nat) (m * n)) : Nat :=
  (List.finRange (m * n)).countP fun k => !domains[k].isFixed

/-- The state before the search: every cell ranges up to its upper bound. -/
def root (p : Problem m n) : State m n :=
  let domains := p.upper.map Interval.upTo
  { domains
    rowHi := Vector.ofFn fun r => sumOf ((Cell.ofRow r).map fun k : Cell m n => domains[k].hi)
    rowLo := Vector.replicate m 0
    colLo := Vector.replicate n 0
    unfixed := countUnfixed domains }

/-- Give a cell another interval and adjust the sums. -/
def set (s : State m n) (k : Cell m n) (d : Interval Nat) : State m n :=
  let old := s.domains[k]
  { domains := put s.domains k d
    rowHi := put s.rowHi k.row (s.rowHi[k.row] - old.hi + d.hi)
    rowLo := put s.rowLo k.row (s.rowLo[k.row] - old.lo + d.lo)
    colLo := put s.colLo k.col (s.colLo[k.col] - old.lo + d.lo)
    unfixed :=
      match old.isFixed, d.isFixed with
      | false, true => s.unfixed - 1
      | true, false => s.unfixed + 1
      | _, _ => s.unfixed }

@[simp] theorem domains_set (s : State m n) (k : Cell m n) (d : Interval Nat) :
    (s.set k d).domains = put s.domains k d := rfl

/-- Every cell has a single value. -/
def isFixed (s : State m n) : Bool := s.unfixed = 0

/-- The assignment of the lower ends. -/
def lower (s : State m n) : Assignment m n := ⟨s.domains.map (·.lo)⟩

/-- The lower ends satisfy all row minima and column maxima. -/
def lowerFeasible (s : State m n) (p : Problem m n) : Bool :=
  ((List.finRange m).all fun r => p.rowMin[r] ≤ s.rowLo[r]) &&
    (List.finRange n).all fun c => s.colLo[c] ≤ p.colMax[c]

/-- The text of a state: its size and the number of cells that are not fixed. -/
def render (s : State m n) : String :=
  "SearchState(rows: " ++ toString m ++ ", cols: " ++ toString n ++ ", unfixed: " ++
    toString s.unfixed ++ ")"

end State

end Provision
