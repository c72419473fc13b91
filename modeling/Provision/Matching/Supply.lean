import Provision.Matching.Solution
import Provision.Taxonomy

/-!
# Matching requirements with offers

Required bounds are the rows and offers are the columns of a matching problem. An offer serves a
requirement of its own model and of every ancestor of it. Offers are bounds, or single instances of
one unit each.

A requirement that all fitting offers together cannot meet is refused without a search.
-/

namespace Provision

/-- The minima of a list of bounds, as row minima. -/
def Bound.minima (bounds : List Bound) : Vector Nat bounds.length :=
  Vector.ofFn fun r => (bounds.get r).min

@[simp] theorem Bound.getElem_minima (bounds : List Bound) (r : Fin bounds.length) :
    (minima bounds)[r] = (bounds.get r).min := by
  rw [minima, getElem_ofFn]

/-- The maxima of a list of bounds, as column maxima. -/
def Bound.maxima (bounds : List Bound) : Vector Nat bounds.length :=
  Vector.ofFn fun c => (bounds.get c).max

@[simp] theorem Bound.getElem_maxima (bounds : List Bound) (c : Fin bounds.length) :
    (maxima bounds)[c] = (bounds.get c).max := by
  rw [maxima, getElem_ofFn]

namespace Problem

/-- The problem of meeting required bounds from available ones. -/
def ofBounds (t : Taxonomy) (required available : List Bound) :
    Problem required.length available.length :=
  .ofFn (Bound.minima required) (Bound.maxima available) fun r c =>
    if t.isSubtype (available.get c).model (required.get r).model then
      Nat.min (required.get r).max (available.get c).max
    else 0

/-- The problem of meeting required bounds from instances. -/
def ofInstances (t : Taxonomy) (required : List Bound) (instances : List Instance) :
    Problem required.length instances.length :=
  .ofFn (Bound.minima required) (Vector.replicate _ 1) fun r c =>
    if t.isSubtype (instances.get c).model (required.get r).model then
      Nat.min (required.get r).max 1
    else 0

end Problem

namespace Taxonomy
variable {σ : Type}

/-! ### Offers as bounds -/

/-- For every required model, in order, the offers that serve it taken together. -/
def mergedAvailability (t : Taxonomy) (required available : List Bound) : List Bound :=
  let models : KeySet Model := .ofList (required.map (·.model))
  Bound.accumulateByModel <| models.toList.flatMap fun model =>
    (available.filter fun offer => t.isSubtype offer.model model).map fun offer =>
      { offer with model }

/-- The offers that serve a row reach its minimum when they are taken together. -/
def coversMerged (t : Taxonomy) (required available : List Bound) : Bool :=
  let merged := t.mergedAvailability required available
  required.all fun row =>
    row.min ≤ ((merged.find? fun b => b.model = row.model).elim 0 (·.max))

/-- Search for units of available bounds that meet required ones. -/
def searchWith (t : Taxonomy) (required available : List Bound) (monitor : TreeMonitor σ) (x : σ) :
    Outcome required.length available.length × σ :=
  if t.coversMerged required available then
    (Problem.ofBounds t required available).solveWith .smallestDomain monitor x
  else (.infeasible {}, x)

/-- The solution that a search under a monitor finds. -/
def matchWith (t : Taxonomy) (required available : List Bound) (monitor : TreeMonitor σ) (x : σ) :
    Except MatchError (Solution Bound) × σ :=
  let r := t.searchWith required available monitor x
  (Solution.ofOutcome required available r.1, r.2)

/-- Units of available bounds that meet required ones. -/
def solve (t : Taxonomy) (required available : List Bound) : Except MatchError (Solution Bound) :=
  (t.matchWith required available (.idle TreeMonitor.idleName) ()).1

/-- The available bounds can meet the required ones. -/
def supports (t : Taxonomy) (required available : List Bound) : Bool :=
  (t.solve required available).isOk

/-! ### Offers as instances -/

/-- Every row has as many instances that may serve it as it needs. -/
def coversInstances (t : Taxonomy) (required : List Bound) (instances : List Instance) : Bool :=
  required.all fun row => row.min ≤ instances.countP fun i => t.isSubtype i.model row.model

/-- Search for instances that meet required bounds. -/
def searchInstancesWith (t : Taxonomy) (required : List Bound) (instances : List Instance)
    (monitor : TreeMonitor σ) (x : σ) : Outcome required.length instances.length × σ :=
  if t.coversInstances required instances then
    (Problem.ofInstances t required instances).solveWith .smallestDomain monitor x
  else (.infeasible {}, x)

/-- The solution that a search under a monitor finds. -/
def matchInstancesWith (t : Taxonomy) (required : List Bound) (instances : List Instance)
    (monitor : TreeMonitor σ) (x : σ) : Except MatchError (Solution Instance) × σ :=
  let r := t.searchInstancesWith required instances monitor x
  (Solution.ofOutcome required instances r.1, r.2)

/-- Instances that meet required bounds. -/
def solveInstances (t : Taxonomy) (required : List Bound) (instances : List Instance) :
    Except MatchError (Solution Instance) :=
  (t.matchInstancesWith required instances (.idle TreeMonitor.idleName) ()).1

/-- The instances can meet the required bounds. -/
def supportsInstances (t : Taxonomy) (required : List Bound) (instances : List Instance) : Bool :=
  (t.solveInstances required instances).isOk

end Taxonomy

end Provision
