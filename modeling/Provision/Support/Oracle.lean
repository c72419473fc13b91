import Provision.Matching.Supply
import Provision.Support.Requirement

/-!
# The support oracle

An oracle knows the requirements of some functionalities and decides whether a pool meets them. Its
searches run under limits that may stop them; a question whose search is stopped has no answer.
-/

namespace Provision

/-- A taxonomy and the requirements of the functionalities that may be asked for. -/
structure Oracle where
  taxonomy : Taxonomy
  requirements : Table Functionality (List Bound)

namespace Oracle
variable {τ : Type}

/-- The oracle for a list of functionalities. The first one without a requirement decides the error.
-/
def ofFunctionalities (t : Taxonomy) (fs : List Functionality) : Except SupportError Oracle :=
  match fs.mapM fun f => (t.requirement f).map fun bounds => (f, bounds) with
  | .ok requirements => .ok ⟨t, .ofList requirements⟩
  | .error e => .error (.bound e)

/-- What a functionality requires, if the oracle knows it. -/
def requirement? (o : Oracle) (f : Functionality) : Option (List Bound) := o.requirements.get? f

/-- The functionalities that the oracle knows, in order. -/
def functionalities (o : Oracle) : List Functionality := o.requirements.keys

/-- What a search says about support. -/
def verdict {m n : Nat} (outcome : Outcome m n) : Except SupportError Bool :=
  match outcome.result with
  | .feasible _ => .ok true
  | .infeasible => .ok false
  | .unknown => .error (.incomplete outcome.reason.render)

/-- Whether a pool supports a functionality, as far as limits let the search go. -/
def check (o : Oracle) (limits : SearchMonitor τ) (x : τ) (p : Pool) (f : Functionality) :
    Except SupportError Bool × τ :=
  match o.requirement? f with
  | none => (.error (.unknownFunctionality f), x)
  | some required =>
    let available := o.taxonomy.availability p
    let r := o.taxonomy.searchWith required available (TreeMonitor.follow limits) x
    (verdict r.1, r.2)

/-- Whether a pool supports a functionality, without limits. -/
def supports (o : Oracle) (p : Pool) (f : Functionality) : Except SupportError Bool :=
  (o.check (.idle "") () p f).1

end Oracle

end Provision
