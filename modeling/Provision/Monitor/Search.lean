import Provision.Monitor
import Provision.Pool

/-!
# Monitors of searches in general

Every search reports when it is entered and left, each step, and the supports it finds. The monitors
here stop a search when a flag is raised or a time budget is spent. Neither clock nor flag is part
of the library: a monitor holds what they show.
-/

namespace Provision

/-- What any search reports. -/
inductive SearchEvent where
  | enter
  | leave
  | step
  | support (functionality : Functionality) (pool : Pool)
deriving DecidableEq

/-- A monitor that needs no view of the search. -/
abbrev SearchMonitor (σ : Type) := Monitor SearchEvent Unit σ

/-- A time budget. The clock is looked at only when the step number has none of the bits of the
mask; `spent` is what the clock shows then. -/
structure TimeLimit where
  mask : Nat
  steps : Nat
  spent : Bool
deriving DecidableEq, Repr

namespace TimeLimit

/-- The mask for a look at the clock every 16384 steps. -/
def coarseMask : Nat := 0x3FFF

/-- A budget whose clock is looked at by a mask. -/
def withMask (mask : Nat) (spent : Bool) : TimeLimit := ⟨mask, 0, spent⟩

/-- A budget that runs from a fixed moment; the clock is looked at every time. -/
def anchored (spent : Bool) : TimeLimit := ⟨0, 0, spent⟩

/-- The number of different step numbers. -/
def stepCycle : Nat := 18446744073709551616

/-- Entering a search starts the step number afresh. -/
def observe (t : TimeLimit) : SearchEvent → TimeLimit
  | .enter => { t with steps := 0 }
  | .step => { t with steps := (t.steps + 1) % stepCycle }
  | _ => t

/-- Stop when the clock is looked at and the budget is spent. -/
def command (t : TimeLimit) : Command :=
  if t.steps &&& t.mask = 0 && t.spent then .terminate "time limit reached" else .proceed

end TimeLimit

/-- The monitors that come with the library. -/
inductive Limit where
  | none
  | interrupt (raised : Bool)
  | time (budget : TimeLimit)
deriving DecidableEq, Repr

namespace Limit

/-- The name of a limit. -/
def name : Limit → String
  | .none => "NoOpMonitor"
  | .interrupt _ => "InterruptMonitor"
  | .time _ => "TimeLimitMonitor"

/-- Only a time budget takes note of events. -/
def observe (e : SearchEvent) : Limit → Limit
  | .time t => .time (t.observe e)
  | l => l

/-- What a limit asks for. -/
def command : Limit → Command
  | .none => .proceed
  | .interrupt raised => if raised then .terminate "Interrupt signal received" else .proceed
  | .time t => t.command

/-- A raised or lowered flag, as interrupts see it. -/
def withFlag (raised : Bool) : Limit → Limit
  | .interrupt _ => .interrupt raised
  | l => l

/-- Limits as monitors. -/
def monitor : SearchMonitor Limit := ⟨name, observe, fun _ l => (l.command, l)⟩

/-- A time budget that runs from a fixed moment and then an interrupt, each of them if there is one:
whether the budget is spent, and whether the interrupt is raised. -/
def ofBudget (spent raised : Option Bool) : Panel Limit :=
  .group <| (spent.toList.map fun s => .leaf (.time (.anchored s))) ++
    raised.toList.map fun r => .leaf (.interrupt r)

end Limit

/-- The title of groups of search monitors. -/
def SearchMonitor.panelTitle : String := "CompositeMonitor"

namespace SearchMonitor
variable {σ : Type}

/-- A panel of search monitors. -/
def panel (m : SearchMonitor σ) : SearchMonitor (Panel σ) := Panel.monitor panelTitle m

/-- The text of a monitor. -/
def render (m : SearchMonitor σ) (s : σ) : String := "SearchMonitor(" ++ m.name s ++ ")"

/-- The text of a panel in a dump of values. -/
def renderMembers (m : SearchMonitor σ) (ps : List (Panel σ)) : String :=
  "CompositeMonitor \x7b monitors: \"" ++ ", ".intercalate (ps.map m.panel.name) ++ "\" \x7d"

end SearchMonitor

end Provision
