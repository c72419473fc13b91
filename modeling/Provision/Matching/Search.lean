import Provision.Matching.Descent

/-!
# Matching search

A depth-first search for an assignment that satisfies a problem. It stops at the first node whose
lower ends satisfy all constraints, when all decisions are used up, or when its monitor asks for it.
The monitor is asked once a step, before the step is made.
-/

namespace Provision

/-- What a search has found out. -/
inductive MatchResult (m n : Nat) where
  | feasible (assignment : Assignment m n)
  | infeasible
  | unknown
deriving DecidableEq

namespace MatchResult
variable {m n : Nat}

/-- The assignment found, if any. -/
def assignment? : MatchResult m n → Option (Assignment m n)
  | .feasible a => some a
  | _ => none

/-- The name of a result. -/
def render : MatchResult m n → String
  | .feasible _ => "Feasible"
  | .infeasible => "Infeasible"
  | .unknown => "Unknown"

end MatchResult

/-- The result of a search, why it stopped, and its counters. -/
structure Outcome (m n : Nat) where
  result : MatchResult m n
  reason : StopReason
  stats : SearchStatistics
deriving DecidableEq

namespace Outcome
variable {m n : Nat}

/-- The outcome of a search that has found an assignment. -/
def feasible (a : Assignment m n) (stats : SearchStatistics) : Outcome m n :=
  ⟨.feasible a, .feasibilityProven, stats⟩

/-- The outcome of a search that has found that there is none. -/
def infeasible (stats : SearchStatistics) : Outcome m n :=
  ⟨.infeasible, .infeasibilityProven, stats⟩

/-- The outcome of a search that was stopped. -/
def aborted (reason : String) (stats : SearchStatistics) : Outcome m n :=
  ⟨.unknown, .aborted reason, stats⟩

/-- The text of an outcome. -/
def render (o : Outcome m n) : String :=
  "MatchOutcome(result: " ++ o.result.render ++ ", reason: " ++ o.reason.render ++ ")"

end Outcome

variable {m n : Nat} {σ : Type}

/-- Go on with a session until it is over, and return the monitor's state besides the outcome. -/
def Session.run (p : Problem m n) (b : Branching) (monitor : TreeMonitor σ) (s : Session m n)
    (x : σ) : Outcome m n × σ :=
  match s.found with
  | some a => (.feasible a s.stats, x)
  | none =>
    match monitor.command s.view (monitor.observe (.step s.work.state s.stats) x) with
    | (.terminate reason, x) => (.aborted reason s.stats, x)
    | (.proceed, x) =>
      match _h : s.advance p b with
      | none => (.infeasible s.stats, x)
      | some (s', events) => s'.run p b monitor (monitor.observeAll events x)
termination_by s.workLeft
decreasing_by exact Session.workLeft_of_advance _h

namespace Problem

/-- Search for an assignment under a monitor. -/
def solveWith (p : Problem m n) (b : Branching) (monitor : TreeMonitor σ) (x : σ) :
    Outcome m n × σ :=
  let node := Session.start p b
  let x := monitor.observeAll node.events (monitor.observe (.enter p {}) x)
  let (outcome, x) :=
    if node.blocked then (Outcome.infeasible node.session.stats, x)
    else node.session.run p b monitor x
  (outcome, monitor.observe (.leave outcome.stats) x)

/-- Search for an assignment. -/
def solve (p : Problem m n) (b : Branching) : Outcome m n :=
  (p.solveWith b (.idle TreeMonitor.idleName) ()).1

end Problem

end Provision
