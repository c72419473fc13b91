import Provision.Matching.Grid
import Provision.Position
import Provision.Statistics

/-!
# Search statistics

Counters of one search, and the two ways in which a node is found to be hopeless.
-/

namespace Provision

/-- Why no assignment is left in a search state. -/
inductive Conflict (m n : Nat) where
  | rowDeficit (row : Fin m)
  | colExcess (col : Fin n)
deriving DecidableEq

/-- The text of a conflict. -/
def Conflict.message {m n : Nat} : Conflict m n → String
  | .rowDeficit r => "row deficit at " ++ Position.render (⟨r⟩ : Position .row)
  | .colExcess c => "column excess at " ++ Position.render (⟨c⟩ : Position .column)

/-- Why a node is closed without descending further. -/
inductive PruneReason where
  | rowDeficit
  | colExcess
  | emptyDomain
deriving DecidableEq, Repr

/-- The name of a prune reason. -/
def PruneReason.render : PruneReason → String
  | .rowDeficit => "RowDeficit"
  | .colExcess => "ColumnExcess"
  | .emptyDomain => "EmptyDomain"

/-- A conflict as a prune reason. -/
def Conflict.reason {m n : Nat} : Conflict m n → PruneReason
  | .rowDeficit _ => .rowDeficit
  | .colExcess _ => .colExcess

/-- The counters of a search, and the time it took in nanoseconds. -/
structure SearchStatistics where
  nodes : Nat := 0
  backtracks : Nat := 0
  decisions : Nat := 0
  maxDepth : Nat := 0
  prunedRows : Nat := 0
  prunedCols : Nat := 0
  narrowings : Nat := 0
  solutions : Nat := 0
  nanos : Nat := 0
deriving DecidableEq, Repr

namespace SearchStatistics

/-- A node is visited. -/
def onNode (s : SearchStatistics) : SearchStatistics := { s with nodes := Counter.add s.nodes 1 }

/-- A frame is undone. -/
def onBacktrack (s : SearchStatistics) : SearchStatistics :=
  { s with backtracks := Counter.add s.backtracks 1 }

@[simp] theorem nodes_onBacktrack (s : SearchStatistics) : s.onBacktrack.nodes = s.nodes := rfl

@[simp] theorem maxDepth_onBacktrack (s : SearchStatistics) :
    s.onBacktrack.maxDepth = s.maxDepth := rfl

/-- A solution is found. -/
def onSolution (s : SearchStatistics) : SearchStatistics :=
  { s with solutions := Counter.add s.solutions 1 }

/-- A depth is reached. -/
def onDepth (s : SearchStatistics) (depth : Nat) : SearchStatistics :=
  { s with maxDepth := max s.maxDepth depth }

/-- Decisions are generated. -/
def onDecisions (s : SearchStatistics) (count : Nat) : SearchStatistics :=
  { s with decisions := Counter.add s.decisions count }

/-- A node is closed because a row cannot reach its minimum. -/
def onPrunedRow (s : SearchStatistics) : SearchStatistics :=
  { s with prunedRows := Counter.add s.prunedRows 1 }

/-- A node is closed because a column is committed beyond its maximum. -/
def onPrunedCol (s : SearchStatistics) : SearchStatistics :=
  { s with prunedCols := Counter.add s.prunedCols 1 }

/-- A node is closed by a conflict. -/
def onConflict {m n : Nat} (s : SearchStatistics) : Conflict m n → SearchStatistics
  | .rowDeficit _ => s.onPrunedRow
  | .colExcess _ => s.onPrunedCol

@[simp] theorem nodes_onConflict {m n : Nat} (s : SearchStatistics) (c : Conflict m n) :
    (s.onConflict c).nodes = s.nodes := by
  cases c <;> rfl

@[simp] theorem maxDepth_onConflict {m n : Nat} (s : SearchStatistics) (c : Conflict m n) :
    (s.onConflict c).maxDepth = s.maxDepth := by
  cases c <;> rfl

/-- Intervals are narrowed. -/
def onNarrowings (s : SearchStatistics) (count : Nat) : SearchStatistics :=
  { s with narrowings := Counter.add s.narrowings count }

/-- The number of nodes closed by conflicts. -/
def prunings (s : SearchStatistics) : Nat := Counter.add s.prunedRows s.prunedCols

/-- The report of a search. -/
def render (s : SearchStatistics) : String :=
  "Match Search Statistics:\n" ++
  "  Nodes explored:       " ++ toString s.nodes ++ "\n" ++
  "  Backtracks:           " ++ toString s.backtracks ++ "\n" ++
  "  Max depth reached:    " ++ toString s.maxDepth ++ "\n" ++
  "  Decisions generated:  " ++ toString s.decisions ++ "\n" ++
  "  Prunings (row):       " ++ toString s.prunedRows ++ "\n" ++
  "  Prunings (column):    " ++ toString s.prunedCols ++ "\n" ++
  "  Narrowings:           " ++ toString s.narrowings ++ "\n" ++
  "  Solutions found:      " ++ toString s.solutions ++ "\n" ++
  "  Total time:           " ++ Text.renderElapsed s.nanos ++ "\n"

end SearchStatistics

end Provision
