import Mathlib.Tactic.SplitIfs
import Provision.Saturating

/-!
# Sums that are clamped on the way

A sum of three terms is computed as two sums, and each of them is clamped to the type. The clamp of
the inner sum shows in the result if that sum is beyond one end of the type and the term that is
still to come leads back from there. It can show in one grouping and not in the other, and for terms
of the type it never shows in both.

## Main definitions

* `IntKind.Rebounds k s t`: the sum `s` is beyond an end of the type from which `t` leads back.

## Main results

* `IntKind.satAdd_assoc_iff`: which three terms may be regrouped.
-/

namespace Provision.IntKind
variable {k : IntKind} {s t x y z : Int}

/-- A sum is beyond an end of the type, and the next term leads back from there. -/
def Rebounds (k : IntKind) (s t : Int) : Prop :=
  (k.max < s ∧ t < 0) ∨ (s < k.min ∧ 0 < t)

theorem not_rebounds_of_nonneg (hs : 0 ≤ s) (ht : 0 ≤ t) : ¬k.Rebounds s t := by
  have hmin := k.min_nonpos
  unfold Rebounds
  omega

theorem not_rebounds_of_fits (hs : k.Fits s) : ¬k.Rebounds s t := by
  unfold Rebounds Fits at *
  omega

theorem clamp_nonneg (hs : 0 ≤ s) : 0 ≤ k.clamp s := by
  have hmin := k.min_nonpos
  have hmax := k.max_nonneg
  simp only [clamp]
  split_ifs <;> omega

/-- A clamp that the next term does not lead back from may as well be left to the end. -/
theorem clamp_clamp_add (h : ¬k.Rebounds s t) : k.clamp (k.clamp s + t) = k.clamp (s + t) := by
  have hmin := k.min_nonpos
  have hmax := k.max_nonneg
  unfold Rebounds at h
  simp only [clamp]
  split_ifs <;> omega

/-- A clamp that the next term leads back from is seen in the result. -/
theorem clamp_clamp_add_ne (ht : k.Fits t) (h : k.Rebounds s t) :
    k.clamp (k.clamp s + t) ≠ k.clamp (s + t) := by
  have hmin := k.min_nonpos
  have hmax := k.max_nonneg
  unfold Rebounds Fits at *
  simp only [clamp]
  split_ifs <;> omega

/-- Of the two inner sums of three terms at most one is clamped so that it shows. -/
theorem not_rebounds_of_rebounds (hx : k.Fits x) (hy : k.Fits y) (hz : k.Fits z)
    (h : k.Rebounds (x + y) z) : ¬k.Rebounds (y + z) x := by
  unfold Rebounds Fits at *
  omega

/-- **Three terms may be regrouped** unless the clamp of one of the inner sums shows. -/
theorem satAdd_assoc_iff (hx : k.Fits x) (hy : k.Fits y) (hz : k.Fits z) :
    k.satAdd (k.satAdd x y) z = k.satAdd x (k.satAdd y z) ↔
      ¬k.Rebounds (x + y) z ∧ ¬k.Rebounds (y + z) x := by
  have hleft : k.satAdd (k.satAdd x y) z = k.clamp (k.clamp (x + y) + z) := rfl
  have hright : k.satAdd x (k.satAdd y z) = k.clamp (k.clamp (y + z) + x) := by
    rw [satAdd_comm]
    rfl
  have hsum : x + y + z = y + z + x := by omega
  rw [hleft, hright]
  by_cases hxy : k.Rebounds (x + y) z
  · -- The other clamp does not show, so that the two results differ by this one.
    have hyz := not_rebounds_of_rebounds hx hy hz hxy
    rw [clamp_clamp_add hyz, ← hsum]
    simp [hxy, clamp_clamp_add_ne hz hxy]
  · rw [clamp_clamp_add hxy, hsum]
    by_cases hyz : k.Rebounds (y + z) x
    · simp [hyz, (clamp_clamp_add_ne hx hyz).symm]
    · simp [hxy, hyz, clamp_clamp_add hyz]

end Provision.IntKind
