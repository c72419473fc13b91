import Provision.Pool
import Provision.Saturating

/-!
# Pool arithmetic

A delta holds a signed amount per model. Sums and differences of pools and deltas are deltas; a
delta without negative amounts is a pool again. Amounts saturate at the ends of their type.
-/

namespace Provision

/-- The integer type of amounts. -/
def Amount.kind : IntKind := .twos 64

/-- A signed number of units. -/
structure Amount where
  toInt : Int
  fits : Amount.kind.Fits toInt
deriving DecidableEq

namespace Amount

theorem ext {a b : Amount} (h : a.toInt = b.toInt) : a = b := by
  cases a; cases b; simpa using h

/-- The amount nearest to an integer. -/
def ofInt (z : Int) : Amount := ⟨kind.clamp z, kind.fits_clamp z⟩

@[simp] theorem toInt_ofInt (z : Int) : (ofInt z).toInt = kind.clamp z := rfl

end Amount

/-- Signed amounts per model. -/
abbrev Delta := Table Model Amount

/-- Why a delta is not a pool. -/
inductive PoolError where
  | negativeCardinality (model : Model) (amount : Int)
deriving DecidableEq

/-- The wording of a pool error. -/
def PoolError.message : PoolError → String
  | .negativeCardinality model amount =>
    "Cannot convert delta to a model pool: model " ++ model.id ++ " has negative count " ++
      toString amount

namespace Delta

/-- The delta without entries. -/
def empty : Delta := Table.empty

/-- The delta of a list of entries; the last entry of a model wins. -/
def ofEntries (entries : List (Model × Int)) : Delta :=
  Table.ofList (entries.map fun e => (e.1, .ofInt e.2))

/-- The amount of a model; a model without an entry has none. -/
def amount (d : Delta) (m : Model) : Int := (d.get? m).elim 0 Amount.toInt

/-- Set the amount of a model. -/
def set (d : Delta) (m : Model) (z : Int) : Delta := d.insert m (.ofInt z)

/-- The entries as plain integers, in model order. -/
def toList (d : Delta) : List (Model × Int) := d.entries.map fun e => (e.1, e.2.toInt)

/-- Some amount is negative. -/
def isNegative (d : Delta) : Bool := d.entries.any fun e => e.2.toInt < 0

/-- Every amount is zero. -/
def isZero (d : Delta) : Bool := d.entries.all fun e => e.2.toInt = 0

/-- A pool as a delta. -/
def ofPool (p : Pool) : Delta := p.mapValues fun _ c => .ofInt c.toNat

/-- Combine two deltas over the union of their models; a missing amount counts as zero. -/
def combine (f : Int → Int → Int) (d e : Delta) : Delta :=
  Table.zip (fun a b => .ofInt (f (a.elim 0 Amount.toInt) (b.elim 0 Amount.toInt))) d e

/-- The amounts of both deltas together. -/
def sum (d e : Delta) : Delta := combine (· + ·) d e

/-- What is left of the second delta when the first is taken away from it. -/
def subtract (d e : Delta) : Delta := combine (fun a b => b - a) d e

/-- The delta as a pool, if no amount is negative; otherwise the first negative amount is reported.
-/
def toPool (d : Delta) : Except PoolError Pool :=
  match d.entries.find? fun e => e.2.toInt < 0 with
  | some e => .error (.negativeCardinality e.1 e.2.toInt)
  | none => .ok (d.mapValues fun _ a => .ofNat a.toInt.toNat)

/-- The text of a delta in a dump of values. -/
def renderTagged (d : Delta) : String :=
  "ModelPoolDelta\x7b" ++ ", ".intercalate (d.toList.map fun e => e.1.id ++ ": " ++ toString e.2) ++
    "\x7d"

end Delta

namespace Pool

/-- All units of several pools together. -/
def merge (pools : List Pool) : Except PoolError Pool :=
  (pools.foldl (fun d p => d.sum (.ofPool p)) Delta.empty).toPool

/-- The unions of a member of one set with a member of the other; an empty set adds no condition. -/
def maxCompositions (s t : KeySet Pool) : KeySet Pool :=
  if s.isEmpty then t
  else if t.isEmpty then s
  else .ofList (s.toList.flatMap fun p => t.toList.map p.max)

end Pool

end Provision
