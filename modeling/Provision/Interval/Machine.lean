import Provision.Interval
import Provision.Saturating

/-!
# Intervals of machine integers

The shape of an interval over a fixed-width type is computed inside that type. The distance between
the ends of a signed interval need not fit the type, and then there is no width, and nothing that is
derived from it.
-/

namespace Provision.Interval

/-- A difference that leaves its integer type. -/
structure DifferenceOverflow where
deriving DecidableEq, Repr

/-- The wording for a difference that leaves its type. -/
def DifferenceOverflow.message (_ : DifferenceOverflow) : String :=
  "attempt to subtract with overflow"

/-- The interval of a single integer. -/
def single (z : Int) : Interval Int := ⟨z, z, Int.le_refl z⟩

/-- The distance between the ends, as a value of the type. -/
def widthIn (k : IntKind) (i : Interval Int) : Except DifferenceOverflow Int :=
  if k.Fits (i.hi - i.lo) then .ok (i.hi - i.lo) else .error {}

/-- The number of points, clamped to the type. -/
def sizeIn (k : IntKind) (i : Interval Int) : Except DifferenceOverflow Int :=
  (i.widthIn k).map (k.satAdd · 1)

/-- The middle point, rounded towards the lower end. -/
def midpointIn (k : IntKind) (i : Interval Int) : Except DifferenceOverflow Int :=
  (i.widthIn k).map (i.lo + · / 2)

/-- The middle point when the width poses no question. -/
def middle (i : Interval Int) : Int := i.lo + (i.hi - i.lo) / 2

/-- The lower and the upper half; a single point has no halves. -/
def halvesIn (k : IntKind) (i : Interval Int) :
    Except DifferenceOverflow (Option (Interval Int × Interval Int)) :=
  if h : i.lo = i.hi then .ok none
  else
    have := i.lo_le_hi
    (i.widthIn k).map fun _ =>
      some (⟨i.lo, i.middle, by simp only [middle]; omega⟩,
        ⟨i.middle + 1, i.hi, by simp only [middle]; omega⟩)

theorem midpointIn_eq (k : IntKind) (i : Interval Int) :
    i.midpointIn k = (i.widthIn k).map fun _ => i.middle := by
  rw [midpointIn, widthIn, middle]; split <;> rfl

/-- The first points in increasing order, and nothing beyond the upper end. -/
def firstPoints (i : Interval Int) (n : Nat) : List (Option Int) :=
  (List.range n).map fun (j : Nat) => if i.lo + j ≤ i.hi then some (i.lo + j) else none

end Provision.Interval
