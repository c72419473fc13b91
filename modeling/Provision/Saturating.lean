/-!
# Saturating arithmetic

Counts and totals live in integer types of fixed width. An operation whose exact result leaves the
type is clamped to the nearer end of it. Every operation here is the exact integer operation
followed by `IntKind.clamp`, so its result always fits (`IntKind.fits_clamp`), and it is exact
whenever the exact result fits (`IntKind.clamp_of_fits`).
-/

namespace Provision

/-- An integer type of fixed width, signed in two's complement or unsigned. -/
structure IntKind where
  signed : Bool
  bits : Nat
deriving DecidableEq, Repr

namespace IntKind

/-- Unsigned integers of the given width. -/
def unsigned (bits : Nat) : IntKind := ⟨false, bits⟩

/-- Signed integers of the given width. -/
def twos (bits : Nat) : IntKind := ⟨true, bits⟩

/-- The least value of the type. -/
def min (k : IntKind) : Int := if k.signed then -Int.pow 2 (k.bits - 1) else 0

/-- The greatest value of the type. -/
def max (k : IntKind) : Int :=
  if k.signed then Int.pow 2 (k.bits - 1) - 1 else Int.pow 2 k.bits - 1

/-- The value lies within the type. -/
def Fits (k : IntKind) (z : Int) : Prop := k.min ≤ z ∧ z ≤ k.max

instance (k : IntKind) (z : Int) : Decidable (k.Fits z) := inferInstanceAs (Decidable (_ ∧ _))

theorem min_nonpos (k : IntKind) : k.min ≤ 0 := by
  have : 0 < Int.pow 2 (k.bits - 1) := Int.pow_pos (by decide)
  rw [min]; split <;> omega

theorem max_nonneg (k : IntKind) : 0 ≤ k.max := by
  have h₁ : 0 < Int.pow 2 (k.bits - 1) := Int.pow_pos (by decide)
  have h₂ : 0 < Int.pow 2 k.bits := Int.pow_pos (by decide)
  rw [max]; split <;> omega

theorem min_le_max (k : IntKind) : k.min ≤ k.max :=
  Int.le_trans k.min_nonpos k.max_nonneg

/-- The value of the type nearest to an integer. -/
def clamp (k : IntKind) (z : Int) : Int :=
  if z < k.min then k.min else if k.max < z then k.max else z

theorem fits_clamp (k : IntKind) (z : Int) : k.Fits (k.clamp z) := by
  have := k.min_le_max
  rw [clamp, Fits]; split
  · omega
  · split <;> omega

@[simp] theorem clamp_of_fits {k : IntKind} {z : Int} (h : k.Fits z) : k.clamp z = z := by
  rw [clamp, Fits] at *; split
  · omega
  · split <;> omega

/-- Addition, clamped to the type. -/
def satAdd (k : IntKind) (a b : Int) : Int := k.clamp (a + b)

/-- Subtraction, clamped to the type. -/
def satSub (k : IntKind) (a b : Int) : Int := k.clamp (a - b)

/-- Multiplication, clamped to the type. -/
def satMul (k : IntKind) (a b : Int) : Int := k.clamp (a * b)

/-- The sum from left to right, clamped after every term. -/
def satSum (k : IntKind) (zs : List Int) : Int := zs.foldl k.satAdd 0

/-- The product of a value and a factor, clamped to the type and then cut at a ceiling. -/
def scaleClamped (k : IntKind) (value factor ceiling : Int) : Int :=
  Min.min (k.satMul value factor) ceiling

theorem satAdd_comm (k : IntKind) (a b : Int) : k.satAdd a b = k.satAdd b a := by
  rw [satAdd, satAdd, Int.add_comm]

end IntKind

end Provision
