import Provision.Pool.Odometer
import Provision.Support.Requirement

/-!
# Functionality mappings

A mapping records which sub-pools of a pool support which functionalities. It is kept in both
directions: the supporting pools of every functionality, and the functionalities of every recorded
pool. Recorded pools are compact.

A pool supports what any recorded pool within it supports.
-/

namespace Provision

/-- The supports recorded for a pool, by functionality and by pool. -/
structure Mapping where
  pool : Pool
  saturation : Pool
  byFunctionality : Table Functionality (KeySet Pool)
  byPool : Table Pool (KeySet Functionality)
deriving DecidableEq

namespace Mapping

/-- The mapping of a pool without any support recorded. -/
def empty (pool : Pool) (functionalities : List Functionality) (saturation : Pool) : Mapping where
  pool := pool.compact
  saturation := saturation.compact
  byFunctionality := .ofList (functionalities.map fun f => (f, .empty))
  byPool := .empty

/-- The functionalities of the mapping, in order. -/
def functionalities (m : Mapping) : List Functionality := m.byFunctionality.keys

/-- The pair of a functionality and a compact pool is recorded. -/
def isRecorded (m : Mapping) (f : Functionality) (p : Pool) : Bool :=
  (m.byFunctionality.get? f).any (·.contains p)

/-- Record that a compact pool supports a functionality of the mapping. -/
def record (m : Mapping) (f : Functionality) (p : Pool) : Mapping :=
  { m with
    byFunctionality := m.byFunctionality.update f fun old => KeySet.add (old.getD .empty) p
    byPool := m.byPool.update p fun old => KeySet.add (old.getD .empty) f }

/-- Record that a pool supports a functionality, and tell whether that was new. -/
def add (m : Mapping) (f : Functionality) (p : Pool) : Except SupportError (Bool × Mapping) :=
  if !m.byFunctionality.contains f then .error (.unknownFunctionality f)
  else if m.isRecorded f p.compact then .ok (false, m)
  else .ok (true, m.record f p.compact)

/-- The recorded pools that support a functionality, in order. -/
def poolsOf (m : Mapping) (f : Functionality) : Except SupportError (KeySet Pool) :=
  match m.byFunctionality.get? f with
  | some pools => .ok pools
  | none => .error (.unknownFunctionality f)

/-- The functionalities that a pool supports because of the recorded pools within it. -/
def functionalitiesOf (m : Mapping) (p : Pool) : KeySet Functionality :=
  m.byPool.entries.foldl (fun fs e => if e.1.isSubset p then KeySet.union fs e.2 else fs) .empty

/-- Some recorded pool supports the functionality. -/
def isSupported (m : Mapping) (f : Functionality) : Bool :=
  (m.byFunctionality.get? f).any fun pools => !pools.isEmpty

/-- The enumeration of the sub-pools of the saturation bound. -/
def combinations (m : Mapping) : Odometer := .ofPool m.saturation

/-- The recorded pools of every functionality. -/
def supports (m : Mapping) : List (Functionality × List Pool) :=
  m.byFunctionality.entries.map fun e => (e.1, e.2.toList)

/-- The number of recorded pairs. -/
def size (m : Mapping) : Nat := sumOf (m.byFunctionality.entries.map fun e => e.2.size)

/-- The text of a mapping: both pools, and how many pools support each functionality. -/
def render (m : Mapping) : String :=
  "Functionality Mapping:\n" ++
  "  Model pool:       " ++ m.pool.render ++ "\n" ++
  "  Saturation bound: " ++ m.saturation.render ++ "\n" ++
  String.join (m.byFunctionality.entries.map fun e =>
    "  " ++ e.1.id ++ ": " ++ toString e.2.size ++ " combination(s)\n")

/-! ### What is recorded -/

theorem isRecorded_record (m : Mapping) (f f' : Functionality) (p p' : Pool) :
    (m.record f p).isRecorded f' p' = ((f' = f ∧ p' = p : Bool) || m.isRecorded f' p') := by
  unfold isRecorded record
  simp only [Table.get?_update]
  by_cases hf : f' = f
  · subst hf
    by_cases hp : p' = p
    · simp [hp, KeySet.add, Table.contains]
    · cases h : m.byFunctionality.get? f' <;> simp [hp, KeySet.add, Table.contains]
  · simp [hf]

end Mapping

end Provision
