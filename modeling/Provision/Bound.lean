import Provision.Pool

/-!
# Bounds on units

A bound `[min, max]` says how many units of a model a requirement asks for or a resource offers. Its
ends are in order and stay below a threshold: `min ≤ max ≤ threshold` is part of the type, so no
operation on bounds has to check it again.
-/

namespace Provision

/-- The greatest maximum of a bound. -/
def Bound.threshold : Nat := 2147483646

/-- An interval of unit counts of one model. -/
structure Bound where
  model : Model
  min : Nat
  max : Nat
  min_le_max : min ≤ max
  max_le_threshold : max ≤ Bound.threshold
deriving DecidableEq

/-- Why an operation on bounds fails. -/
inductive BoundError where
  | modelMismatch (expected found : Model)
  | modelNotFound (model : Model)
  | insufficientBound (model : Model) (available requested : Nat)
  | underflow (model : Model)
  | invalidBound (model : Model) (min max : Nat)
deriving DecidableEq

/-- The wording of a bound error. -/
def BoundError.message : BoundError → String
  | .modelMismatch expected found =>
    "Model mismatch: expected bound for " ++ expected.id ++ ", found " ++ found.id
  | .modelNotFound model => "No bound for model " ++ model.id
  | .insufficientBound model available requested =>
    "Insufficient bound for " ++ model.id ++ ": at most " ++ toString available ++ " available, " ++
      toString requested ++ " requested"
  | .underflow model => "Cannot decrement bound of " ++ model.id ++ ": already [0, 0]"
  | .invalidBound model min max =>
    "Invalid bound for " ++ model.id ++ ": min " ++ toString min ++ " exceeds max " ++ toString max

namespace Bound

theorem ext {a b : Bound} (hmodel : a.model = b.model) (hmin : a.min = b.min)
    (hmax : a.max = b.max) : a = b := by
  cases a; cases b; simp_all

/-- The bound with the given ends; the maximum is cut at the threshold. -/
def make (model : Model) (min max : Nat) : Except BoundError Bound :=
  let max := Nat.min max threshold
  if h : min ≤ max then .ok ⟨model, min, max, h, Nat.min_le_right _ _⟩
  else .error (.invalidBound model min max)

theorem make_eq_ok_iff {model : Model} {min max : Nat} {b : Bound} :
    make model min max = .ok b ↔
      b.model = model ∧ b.min = min ∧ b.max = Nat.min max threshold := by
  unfold make
  simp only
  split
  · simp only [Except.ok.injEq]
    exact ⟨fun h => by simp [← h], fun h => ext h.1.symm h.2.1.symm h.2.2.symm⟩
  · next h =>
    simp only [reduceCtorEq, false_iff, not_and]
    intro _ hmin hmax
    exact h (hmin ▸ hmax ▸ b.min_le_max)

/-- Any number of units up to the threshold. -/
def unbounded (model : Model) : Bound :=
  ⟨model, 0, threshold, Nat.zero_le _, Nat.le_refl _⟩

/-- The bound that a restriction sets; without a maximum it reaches up to the threshold. -/
def ofRestriction (r : Restriction) : Except BoundError Bound :=
  make r.model r.min (r.max.getD threshold)

/-- The bound from zero up to a number of units, cut at the threshold. -/
def upTo (model : Model) (max : Nat) : Bound :=
  ⟨model, 0, Nat.min max threshold, Nat.zero_le _, Nat.min_le_right _ _⟩

/-- A number of units lies within the bound. -/
def admits (b : Bound) (n : Nat) : Bool := b.min ≤ n && n ≤ b.max

/-- What is left of a bound when the minimum of another one has been provided. -/
def subtractMin (a b : Bound) : Except BoundError Bound :=
  if a.model ≠ b.model then .error (.modelMismatch a.model b.model)
  else if a.max < b.min then .error (.insufficientBound a.model a.max b.min)
  else .ok ⟨a.model, a.min - b.min, a.max - b.min, by have := a.min_le_max; omega,
    by have := a.max_le_threshold; omega⟩

/-- One unit less at both ends; a minimum of zero stays. -/
def decrement (b : Bound) : Except BoundError Bound :=
  if b.max = 0 then .error (.underflow b.model)
  else .ok ⟨b.model, b.min - 1, b.max - 1, by have := b.min_le_max; omega,
    by have := b.max_le_threshold; omega⟩

/-- The ends of two bounds added up, each cut at the threshold. -/
def plus (a b : Bound) : Bound :=
  ⟨a.model, Nat.min (a.min + b.min) threshold, Nat.min (a.max + b.max) threshold, by
    have := a.min_le_max
    have := b.min_le_max
    simp only [Nat.min_def]
    split <;> split <;> omega, Nat.min_le_right _ _⟩

/-- The text of a bound. -/
def render (b : Bound) : String :=
  b.model.id ++ "[" ++ toString b.min ++ "," ++ toString b.max ++ "]"

/-- The text of a bound in a dump of values. -/
def renderTagged (b : Bound) : String := "ModelBound(" ++ b.render ++ ")"

/-! ### Lists of bounds -/

/-- The maxima of a list of bounds as a pool. -/
def upperPool (bounds : List Bound) : Pool := .ofEntries (bounds.map fun b => (b.model, b.max))

/-- The minima of a list of bounds as a pool. -/
def lowerPool (bounds : List Bound) : Pool := .ofEntries (bounds.map fun b => (b.model, b.min))

/-- Subtract the minima of all bounds of the same model, one after the other. -/
def subtractAll (a : Bound) (consumed : List Bound) : Except BoundError Bound :=
  (consumed.filter fun b => b.model = a.model).foldlM subtractMin a

/-- Subtract a list of bounds from another one. Every model subtracted must be listed. An entry that
does not suffice is an error, or is left out if so asked. -/
def subtractLists (as bs : List Bound) (dropInsufficient : Bool) :
    Except BoundError (List Bound) :=
  match bs.find? fun b => as.all fun a => a.model ≠ b.model with
  | some b => .error (.modelNotFound b.model)
  | none =>
    if dropInsufficient then .ok (as.filterMap fun a => (a.subtractAll bs).toOption)
    else as.mapM (·.subtractAll bs)

/-- The greatest minimum and the least maximum per model. -/
def commonEnds (bounds : List Bound) : Table Model (Nat × Nat) :=
  bounds.foldl (fun t b => t.update b.model fun
    | none => (b.min, b.max)
    | some (lo, hi) => (Nat.max lo b.min, Nat.min hi b.max)) .empty

/-- One bound per model, in model order, that admits what all bounds of that model admit. -/
def intersectByModel (bounds : List Bound) : Except BoundError (List Bound) :=
  (commonEnds bounds).entries.mapM fun e => make e.1 e.2.1 e.2.2

/-- One bound per model, in model order, whose ends are the sums of the ends of that model. -/
def accumulateByModel (bounds : List Bound) : List Bound :=
  (bounds.foldl (fun (t : Table Model Bound) b => t.update b.model fun old => old.elim b (·.plus b))
    .empty).entries.map (·.2)

end Bound

end Provision
