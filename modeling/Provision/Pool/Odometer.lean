import Provision.Pool

/-!
# Enumeration of sub-pools

An odometer walks through the sub-pools of a pool. It has a wheel for every model with units, in
model order, the first wheel turning fastest. A wheel advances by a step and stops short at its
bound before it rolls over to zero.
-/

namespace Provision

/-- A wheel of the odometer: how many units of a model are picked now, and at most. -/
structure Wheel where
  model : Model
  bound : Nat
  reading : Nat
  reading_le : reading ≤ bound

namespace Wheel

/-- The wheel at zero. -/
def rewind (w : Wheel) : Wheel := ⟨w.model, w.bound, 0, Nat.zero_le _⟩

/-- The wheel one step further on, at most at its bound. -/
def advance (step : Nat) (w : Wheel) : Wheel :=
  ⟨w.model, w.bound, min (w.reading + step) w.bound, Nat.min_le_right _ _⟩

/-- The number of values the wheel takes. -/
def values (step : Nat) (w : Wheel) : Nat := (w.bound + step - 1) / step + 1

end Wheel

/-- The wheels and the step of an enumeration, and whether it has run out. -/
structure Odometer where
  wheels : List Wheel
  step : Nat
  step_pos : 0 < step
  exhausted : Bool

namespace Odometer

/-- The wheels of a pool, at zero. -/
def wheelsOf (bound : Pool) : List Wheel :=
  (bound.entries.filter fun e => 0 < e.2.toNat).map fun e => ⟨e.1, e.2.toNat, 0, Nat.zero_le _⟩

/-- The enumeration of the sub-pools of a pool; a step of zero counts as one. -/
def withStep (bound : Pool) (step : Nat) : Odometer :=
  ⟨wheelsOf bound, max step 1, Nat.le_max_right _ _, (wheelsOf bound).isEmpty⟩

/-- The enumeration of all sub-pools of a pool. -/
def ofPool (bound : Pool) : Odometer := withStep bound 1

/-- Turn the first wheel; a wheel at its bound rolls over and turns the next one. Nothing is left
when the last wheel rolls over. -/
def turn (step : Nat) : List Wheel → Option (List Wheel)
  | [] => none
  | w :: rest =>
    if w.reading = w.bound then (turn step rest).map (w.rewind :: ·)
    else some (w.advance step :: rest)

/-- The pool that the wheels show. -/
def reading (wheels : List Wheel) : Pool :=
  .ofEntries ((wheels.filter fun w => 0 < w.reading).map fun w => (w.model, w.reading))

/-- The next sub-pool, and the odometer after it. -/
def next (o : Odometer) : Option (Pool × Odometer) :=
  if o.exhausted then none
  else (turn o.step o.wheels).map fun wheels => (reading wheels, { o with wheels := wheels })

/-- The odometer after a failed turn. -/
def stop (o : Odometer) : Odometer := { o with exhausted := true }

/-- The next sub-pool, if any, and the odometer afterwards. -/
def pull (o : Odometer) : Option Pool × Odometer :=
  match o.next with
  | none => (none, o.stop)
  | some (p, o') => (some p, o')

/-- Up to a number of sub-pools, and the odometer after them. -/
def take (o : Odometer) : Nat → List Pool × Odometer
  | 0 => ([], o)
  | n + 1 =>
    match o.next with
    | none => ([], o.stop)
    | some (p, o') => let (ps, o'') := o'.take n; (p :: ps, o'')

/-- The odometer at its start. -/
def reset (o : Odometer) : Odometer :=
  { o with wheels := o.wheels.map Wheel.rewind, exhausted := o.wheels.isEmpty }

/-- The greatest number of combinations that is counted. -/
def totalCeiling : Nat := 18446744073709551615

/-- The number of readings of all wheels, unless it passes the ceiling on the way. -/
def product? (step : Nat) (wheels : List Wheel) : Option Nat :=
  wheels.foldlM (fun n w =>
    if n * w.values step ≤ totalCeiling then some (n * w.values step) else none) 1

/-- The number of sub-pools enumerated from the start, if it can be counted. -/
def total? (o : Odometer) : Option Nat :=
  if o.wheels.isEmpty then some 0 else (product? o.step o.wheels).map (· - 1)

/-! ### The turns that are left -/

/-- The number of turns before the last wheel rolls over. -/
def turnsLeft (step : Nat) : List Wheel → Nat
  | [] => 0
  | w :: rest => (w.bound - w.reading + step - 1) / step + turnsLeft step rest * w.values step

theorem turnsLeft_of_turn {step : Nat} (hstep : 0 < step) {ws ws' : List Wheel}
    (h : turn step ws = some ws') : turnsLeft step ws = turnsLeft step ws' + 1 := by
  induction ws generalizing ws' with
  | nil => simp [turn] at h
  | cons w rest ih =>
    unfold turn at h
    split at h
    · next heq =>
      obtain ⟨rest', hrest, rfl⟩ := Option.map_eq_some_iff.1 h
      have := ih hrest
      simp only [turnsLeft, this, Wheel.rewind, Wheel.values, heq, Nat.sub_self, Nat.zero_add,
        Nat.sub_zero, Nat.add_mul, Nat.one_mul, Nat.div_eq_of_lt (by omega : step - 1 < step)]
      omega
    · next hne =>
      obtain rfl := Option.some.inj h
      have hle := w.reading_le
      simp only [turnsLeft, Wheel.advance, Wheel.values]
      have hdiv : (w.bound - w.reading + step - 1) / step =
          (w.bound - min (w.reading + step) w.bound + step - 1) / step + 1 := by
        by_cases hs : w.reading + step ≤ w.bound
        · rw [Nat.min_eq_left hs, ← Nat.add_div_right _ hstep]
          congr 1
          omega
        · rw [Nat.min_eq_right (by omega), Nat.sub_self, Nat.zero_add,
            Nat.div_eq_of_lt (by omega : step - 1 < step)]
          exact Nat.div_eq_of_lt_le (by omega) (by omega)
      omega

/-- The number of sub-pools still to come. -/
def left (o : Odometer) : Nat := turnsLeft o.step o.wheels

theorem left_of_next {o o' : Odometer} {p : Pool} (h : o.next = some (p, o')) :
    o.left = o'.left + 1 := by
  unfold next at h
  split at h
  · simp at h
  · obtain ⟨ws, hws, he⟩ := Option.map_eq_some_iff.1 h
    simp only [Prod.mk.injEq] at he
    rw [← he.2]
    exact turnsLeft_of_turn o.step_pos hws

theorem left_take_le (o : Odometer) (n : Nat) : (o.take n).2.left ≤ o.left := by
  induction n generalizing o with
  | zero => exact Nat.le_refl _
  | succ n ih =>
    rw [take]
    split
    · exact Nat.le_refl _
    · next h => exact Nat.le_trans (ih _) (by have := left_of_next h; omega)

theorem left_take_lt {o : Odometer} {n : Nat} (h : (o.take (n + 1)).1 ≠ []) :
    (o.take (n + 1)).2.left < o.left := by
  rw [take] at h ⊢
  split
  · next hn => simp [hn] at h
  · next p o' hn =>
    have := left_take_le o' n
    have := left_of_next hn
    simp only
    omega

/-- All sub-pools still to come, in order. -/
def toList (o : Odometer) : List Pool :=
  match _h : o.next with
  | none => []
  | some (p, o') => p :: o'.toList
termination_by o.left
decreasing_by have := left_of_next _h; omega

end Odometer

end Provision
