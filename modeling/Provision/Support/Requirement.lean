import Provision.Bound
import Provision.Taxonomy

/-!
# Requirements and availability

A functionality requires what all its restrictions ask for together. A pool makes available its own
units, and besides, for every unit of a model, what the restrictions of that model grant. There are
several reasons why it is not decided whether a pool supports a functionality.
-/

namespace Provision

/-- Why support is not decided. -/
inductive SupportError where
  | unknownFunctionality (id : Functionality)
  | unknownModel (id : Model)
  | bound (cause : BoundError)
  | incomplete (reason : String)
deriving DecidableEq

/-- The wording of a support error. -/
def SupportError.message : SupportError → String
  | .unknownFunctionality id => "unknown functionality: " ++ id.id
  | .unknownModel id => "unknown resource model: " ++ id.id
  | .bound cause => "invalid cardinality bound: " ++ cause.message
  | .incomplete reason => "mapping construction incomplete: " ++ reason

/-- How many units of its model a restriction grants; without a maximum it grants as many as a bound
may hold. -/
def Restriction.grant (r : Restriction) : Nat := r.max.getD Bound.threshold

namespace Taxonomy

/-- What a functionality requires: one bound per model, in model order. -/
def requirement (t : Taxonomy) (f : Functionality) : Except BoundError (List Bound) := do
  let bounds ← (t.restrictionsOf f).mapM Bound.ofRestriction
  Bound.intersectByModel bounds

/-- What a single unit of a model offers: itself, and what the restrictions of the model grant. -/
def unitOffers (t : Taxonomy) (m : Model) : List (Model × Nat) :=
  ((m, 1) :: (t.restrictionsOf m).map fun r => (r.model, r.grant)).filter fun offer => 0 < offer.2

/-- What a number of units of a model offers. -/
def offers (t : Taxonomy) (m : Model) (count : Nat) : List Bound :=
  (t.unitOffers m).map fun offer => .upTo offer.1 (offer.2 * count)

/-- What a pool makes available: one bound per model, in model order. -/
def availability (t : Taxonomy) (p : Pool) : List Bound :=
  Bound.accumulateByModel (p.compact.toList.flatMap fun e => t.offers e.1 e.2)

end Taxonomy

end Provision
