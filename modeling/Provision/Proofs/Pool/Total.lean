import Provision.Proofs.Pool.Sequence

/-!
# The number of sub-pools that is counted

An odometer counts its sub-pools without enumerating them. It multiplies the numbers of positions of
its wheels, which counts the reading with all wheels at zero as well, and takes that one off in the
end. The product is given up as soon as it passes the ceiling. So the ceiling is held against one
more than the number of sub-pools, and a number that just reaches the ceiling is not counted.

## Main results

* `Odometer.total?_after_withStep`: what is counted, at any time.
* `Odometer.not_total?_of_le_ceiling`: a number that could be counted and is not.
-/

namespace Provision.Odometer
/-! ## The product -/

theorem product?_eq (step : Nat) (ws : List Wheel) :
    product? step ws = if (ws.map (Wheel.values step)).prod ≤ totalCeiling then
      some (ws.map (Wheel.values step)).prod else none := by
  split
  · next hle => exact product?_eq_some_iff.mpr ⟨rfl, hle⟩
  · next hlt =>
    refine Option.eq_none_iff_forall_ne_some.mpr fun n hn => hlt ?_
    obtain ⟨rfl, hle⟩ := product?_eq_some_iff.mp hn
    exact hle

/-- An odometer without wheels is no special case. -/
theorem total?_eq (o : Odometer) : o.total? = (product? o.step o.wheels).map (· - 1) := by
  rw [total?]
  split
  · next hnone =>
    rw [List.isEmpty_iff.mp hnone]
    rfl
  · rfl

/-- What is counted is the number of sub-pools, if one more can be counted. -/
theorem total?_withStep (bound : Pool) (step : Nat) :
    (withStep bound step).total? = if (withStep bound step).toList.length < totalCeiling then
      some (withStep bound step).toList.length else none := by
  have hlength := length_toList_withStep bound step
  rw [total?_eq, product?_eq]
  have hprod : ((withStep bound step).wheels.map (Wheel.values (withStep bound step).step)).prod =
      (withStep bound step).toList.length + 1 := hlength.symm
  rw [hprod]
  by_cases hlt : (withStep bound step).toList.length < totalCeiling
  · rw [if_pos hlt, if_pos (Nat.succ_le_of_lt hlt)]
    rfl
  · rw [if_neg hlt, if_neg (mt Nat.lt_of_succ_le hlt)]
    rfl

/-! ## At any time -/

theorem map_values_rewind (step : Nat) (ws : List Wheel) :
    (ws.map Wheel.rewind).map (Wheel.values step) = ws.map (Wheel.values step) := by
  rw [List.map_map]
  rfl

/-- Counting depends on the bounds of the wheels and not on their positions. -/
theorem total?_reset (o : Odometer) : o.reset.total? = o.total? := by
  have hwheels : o.reset.wheels = o.wheels.map Wheel.rewind := rfl
  have hstep : o.reset.step = o.step := rfl
  rw [total?_eq, total?_eq, product?_eq, product?_eq, hwheels, hstep, map_values_rewind]

/-- **An odometer counts its sub-pools**, whatever has been handed out, as long as there are fewer
than the ceiling. Otherwise it does not count them. -/
theorem total?_after_withStep (bound : Pool) (step calls : Nat) :
    let o := withStep bound step
    (o.after calls).total? =
      if o.toList.length < totalCeiling then some o.toList.length else none := by
  intro o
  have hreset : o.reset.total? = o.total? := total?_reset o
  rw [← total?_reset, reset_after, hreset]
  exact total?_withStep bound step

/-- Two models with as many units as a pool can hold have just as many sub-pools as can be counted,
but they are not counted. -/
theorem not_total?_of_le_ceiling : ¬∀ (bound : Pool) (step : Nat),
    let o := withStep bound step
    (o.toList.length ≤ totalCeiling → o.total? = some o.toList.length) ∧
      (o.total? = none → totalCeiling < o.toList.length) := by
  intro h
  let bound : Pool := .ofEntries [(⟨"A"⟩, 4294967295), (⟨"B"⟩, 4294967295)]
  have hlength := length_toList_withStep bound 1
  have hprod : ((wheelsOf bound).map (Wheel.values (max 1 1))).prod = totalCeiling + 1 := by
    decide +kernel
  rw [hprod] at hlength
  have hnone : (withStep bound 1).total? = none := by decide +kernel
  have hpast : totalCeiling < (withStep bound 1).toList.length := (h bound 1).2 hnone
  omega

end Provision.Odometer
