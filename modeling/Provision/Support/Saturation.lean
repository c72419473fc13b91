import Provision.Support.Requirement

/-!
# Saturation

Beyond some count, more units of a model do not change whether a requirement can be met. One unit
offers a number of units to each required row; as many units as cover the row on their own are
enough for it, and the sum over all rows is enough for the requirement.
-/

namespace Provision

namespace Taxonomy

/-- How many units one unit of a model offers to a required model. -/
def serves (t : Taxonomy) (m required : Model) : Nat :=
  sumOf (((t.unitOffers m).filter fun offer => t.isSubtype offer.1 required).map (·.2))

/-- How many units of a model cover a required row on their own; none if they do not serve it. -/
def coveringUnits (t : Taxonomy) (m : Model) (row : Bound) : Nat :=
  (row.min + t.serves m row.model - 1) / t.serves m row.model

/-- How many units of a model are enough for all rows, cut at the threshold of bounds. -/
def enoughUnits (t : Taxonomy) (rows : List Bound) (m : Model) : Nat :=
  Nat.min (sumOf (rows.map (t.coveringUnits m))) Bound.threshold

/-- The saturation of one requirement: for each model of a pool, how many units are enough. Models
that serve no row are left out. A requirement that asks for nothing is met by any single unit. -/
def requirementSaturation (t : Taxonomy) (required : List Bound) (p : Pool) : Pool :=
  let rows := required.filter fun row => 0 < row.min
  if rows.isEmpty then p.compact.mapValues fun _ _ => .ofNat 1
  else p.filterMap fun m _ =>
    let enough := t.enoughUnits rows m
    if 0 < enough then some (.ofNat enough) else none

/-- The part of a pool that is enough for every one of several requirements. -/
def saturation (t : Taxonomy) (requirements : List (List Bound)) (p : Pool) : Pool :=
  p.boundedBy <|
    requirements.foldl (fun most required => most.max (t.requirementSaturation required p)) .empty

end Taxonomy

end Provision
