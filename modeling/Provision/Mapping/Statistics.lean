import Provision.Statistics

/-!
# Mapping statistics

Counters of the construction of one mapping.
-/

namespace Provision

/-- The counters of a construction, the number of its workers, and the time it took in nanoseconds.
-/
structure MappingStatistics where
  combinations : Nat := 0
  checks : Nat := 0
  hits : Nat := 0
  supports : Nat := 0
  workers : Nat := 0
  nanos : Nat := 0
deriving DecidableEq, Repr

namespace MappingStatistics

/-- Combinations are drawn. -/
def onCombinations (s : MappingStatistics) (count : Nat) : MappingStatistics :=
  { s with combinations := Counter.add s.combinations count }

/-- Pairs are handed to the oracle. -/
def onChecks (s : MappingStatistics) (count : Nat) : MappingStatistics :=
  { s with checks := Counter.add s.checks count }

/-- A pair is answered from memory. -/
def onHit (s : MappingStatistics) : MappingStatistics := { s with hits := Counter.add s.hits 1 }

/-- A support is found. -/
def onSupport (s : MappingStatistics) : MappingStatistics :=
  { s with supports := Counter.add s.supports 1 }

/-- The report of a construction. -/
def render (s : MappingStatistics) : String :=
  "Functionality Mapping Statistics:\n" ++
  "  Combinations:         " ++ toString s.combinations ++ "\n" ++
  "  Support checks:       " ++ toString s.checks ++ "\n" ++
  "  Cache hits:           " ++ toString s.hits ++ "\n" ++
  "  Supports found:       " ++ toString s.supports ++ "\n" ++
  "  Threads used:         " ++ toString s.workers ++ "\n" ++
  "  Total time:           " ++ Text.renderElapsed s.nanos ++ "\n"

end MappingStatistics

end Provision
