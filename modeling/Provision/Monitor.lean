/-!
# Monitors

A monitor follows a search: it is told the events of the search one after the other, and is asked
now and then whether the search may go on. Its own state may be anything. A search hands out events
and takes commands, and nothing else passes between the two.

Monitors are combined in panels: every member sees every event, and the first member that asks for
termination is heard.
-/

namespace Provision

/-- What a monitor asks of a search. -/
inductive Command where
  | proceed
  | terminate (reason : String)
deriving DecidableEq, Repr

namespace Command

/-- The search is asked to stop. -/
def isTerminate : Command → Bool
  | .proceed => false
  | .terminate _ => true

/-- The text of a command. -/
def render : Command → String
  | .proceed => "Continue"
  | .terminate reason => "Terminate: " ++ reason

end Command

/-- Why a search stopped. -/
inductive StopReason where
  | feasibilityProven
  | infeasibilityProven
  | exhausted
  | aborted (reason : String)
deriving DecidableEq, Repr

namespace StopReason

/-- The search was stopped from outside. -/
def isAborted : StopReason → Bool
  | .aborted _ => true
  | _ => false

/-- The text of a stop reason. -/
def render : StopReason → String
  | .feasibilityProven => "Feasibility Proven"
  | .infeasibilityProven => "Infeasibility Proven"
  | .exhausted => "Exhausted"
  | .aborted reason => "Aborted: " ++ reason

end StopReason

/-- How a monitor with states `σ` takes events `ε`, and answers when shown a view `κ` of the search.
-/
structure Monitor (ε κ σ : Type) where
  name : σ → String
  observe : ε → σ → σ
  command : κ → σ → Command × σ

namespace Monitor
variable {ε κ σ τ : Type}

/-- A monitor that sees nothing and never interferes. -/
def idle (name : String) : Monitor ε κ σ := ⟨fun _ => name, fun _ s => s, fun _ s => (.proceed, s)⟩

/-- Tell a monitor several events in order. -/
def observeAll (m : Monitor ε κ σ) (events : List ε) (s : σ) : σ :=
  events.foldl (fun s e => m.observe e s) s

/-- A monitor of either of two kinds. -/
def either (m : Monitor ε κ σ) (n : Monitor ε κ τ) : Monitor ε κ (σ ⊕ τ) where
  name := Sum.elim m.name n.name
  observe e := Sum.map (m.observe e) (n.observe e)
  command v
    | .inl s => ((m.command v s).1, .inl (m.command v s).2)
    | .inr t => ((n.command v t).1, .inr (n.command v t).2)

/-- The monitor keeps to `proceed` whatever it has seen. -/
def NeverTerminates (m : Monitor ε κ σ) : Prop := ∀ v s, (m.command v s).1 = .proceed

theorem neverTerminates_idle (name : String) : (idle name : Monitor ε κ σ).NeverTerminates :=
  fun _ _ => rfl

end Monitor

/-- Monitors set up together; a group is a member of its own right. -/
inductive Panel (σ : Type) where
  | leaf (state : σ)
  | group (members : List (Panel σ))

namespace Panel
variable {ε κ σ : Type}

/-- The name of a member, where groups have a common title. -/
def name (title : String) (m : Monitor ε κ σ) : Panel σ → String
  | leaf s => m.name s
  | group _ => title

mutual

/-- Every member sees the event. -/
def observe (m : Monitor ε κ σ) (e : ε) : Panel σ → Panel σ
  | leaf s => leaf (m.observe e s)
  | group ps => group (observeEach m e ps)

/-- Every member of a list sees the event. -/
def observeEach (m : Monitor ε κ σ) (e : ε) : List (Panel σ) → List (Panel σ)
  | [] => []
  | p :: ps => observe m e p :: observeEach m e ps

end

mutual

/-- The command of the first member that asks for termination; later members are not asked. -/
def command (m : Monitor ε κ σ) (v : κ) : Panel σ → Command × Panel σ
  | leaf s => ((m.command v s).1, leaf (m.command v s).2)
  | group ps => ((firstCommand m v ps).1, group (firstCommand m v ps).2)

/-- The command of the first member of a list that asks for termination. -/
def firstCommand (m : Monitor ε κ σ) (v : κ) : List (Panel σ) → Command × List (Panel σ)
  | [] => (.proceed, [])
  | p :: ps =>
    match command m v p with
    | (.terminate reason, p') => (.terminate reason, p' :: ps)
    | (.proceed, p') => ((firstCommand m v ps).1, p' :: (firstCommand m v ps).2)

end

/-- The panel as a monitor. -/
def monitor (title : String) (m : Monitor ε κ σ) : Monitor ε κ (Panel σ) where
  name := name title m
  observe := observe m
  command := command m

end Panel

end Provision
