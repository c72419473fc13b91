import Provision.Matching.Branching
import Provision.Matching.Statistics
import Provision.Monitor.Search

/-!
# Events of a matching search

A matching search tells its monitor about every node it opens, prunes, splits and leaves. A monitor
of searches in general can follow it too: it hears of entering, leaving and single steps.
-/

namespace Provision

/-- What a matching search reports. -/
inductive TreeEvent where
  | enter {m n : Nat} (problem : Problem m n) (stats : SearchStatistics)
  | leave (stats : SearchStatistics)
  | step {m n : Nat} (state : State m n) (stats : SearchStatistics)
  | prune {m n : Nat} (state : State m n) (reason : PruneReason) (stats : SearchStatistics)
  | enqueue {m n : Nat} (state : State m n) (count : Nat) (stats : SearchStatistics)
  | descend {m n : Nat} (state : State m n) (decision : Decision (m * n)) (stats : SearchStatistics)
  | backtrack {m n : Nat} (state : State m n) (stats : SearchStatistics)
  | solution {m n : Nat} (assignment : Assignment m n) (stats : SearchStatistics)

/-- The part of an event that any search reports. -/
def TreeEvent.general? : TreeEvent → Option SearchEvent
  | .enter _ _ => some .enter
  | .leave _ => some .leave
  | .step _ _ => some .step
  | _ => none

/-- What a monitor of a matching search may look at when it is asked for a command. -/
structure TreeView where
  rows : Nat
  cols : Nat
  state : State rows cols
  stats : SearchStatistics

/-- A monitor of matching searches. -/
abbrev TreeMonitor (σ : Type) := Monitor TreeEvent TreeView σ

namespace TreeMonitor
variable {σ : Type}

/-- A monitor of searches in general, following a matching search. -/
def follow (m : SearchMonitor σ) : TreeMonitor σ where
  name s := "WrapperMonitor(" ++ m.name s ++ ")"
  observe e s := e.general?.elim s (m.observe · s)
  command _ s := m.command () s

/-- The name of the monitor that does nothing. -/
def idleName : String := "NoOperationMonitor"

/-- The title of groups of monitors. -/
def panelTitle : String := "CompositeTreeSearchMonitor"

/-- A panel of monitors. -/
def panel (m : TreeMonitor σ) : TreeMonitor (Panel σ) := Panel.monitor panelTitle m

/-- The text of a monitor. -/
def render (m : TreeMonitor σ) (s : σ) : String := "TreeSearchMonitor(" ++ m.name s ++ ")"

/-- The names of the members of a panel in a dump of values. -/
def renderMembers (m : TreeMonitor σ) (ps : List (Panel σ)) : String :=
  "[" ++ ", ".intercalate (ps.map fun p => "\"" ++ m.panel.name p ++ "\"") ++ "]"

end TreeMonitor

/-- A monitor that keeps a log: how often it writes, in milliseconds, and when it looks at the
clock. The log itself is not kept by the library. -/
structure ProgressLog where
  intervalMillis : Nat
  mask : Nat
deriving DecidableEq, Repr

namespace ProgressLog

/-- One line a second. -/
def standard : ProgressLog := ⟨1000, 4095⟩

/-- The name of the log. -/
def name : String := "LogTreeSearchMonitor"

/-- The text of a log: whole seconds and the mask. -/
def render (l : ProgressLog) : String :=
  "LogTreeSearchMonitor(log_interval: " ++ toString (l.intervalMillis / 1000) ++
    "s, clock_check_mask: " ++ toString l.mask ++ ")"

end ProgressLog

end Provision
