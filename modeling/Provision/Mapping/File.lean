import Provision.Mapping
import Provision.Text

/-!
# Mapping files

A mapping file lists a pool, functionalities and a saturation bound, each under a header line, and
then has a block for every functionality with the pools that support it. A pool is listed with one
model and its count a line; pools of a block are set apart by a blank line.
-/

namespace Provision

/-- The lines that structure a mapping file. -/
inductive Marker where
  | resources
  | functionalities
  | saturation
  | block
  | functionality
  | agents
deriving DecidableEq, Repr

namespace Marker

/-- All markers. -/
def all : List Marker := [resources, functionalities, saturation, block, functionality, agents]

/-- The line that a marker stands on. -/
def text : Marker → String
  | resources => "# AVAILABLE RESOURCES"
  | functionalities => "# AVAILABLE FUNCTIONALITIES"
  | saturation => "# SATURATION BOUND"
  | block => "---"
  | functionality => "# FUNCTIONALITY"
  | agents => "# AGENTS (MODEL POOLS)"

/-- The line that a marker stands on, character by character. -/
def line (k : Marker) : List Char := k.text.toList

/-- The marker that a line is. -/
def ofLine? (line : List Char) : Option Marker := all.find? fun k => k.line = line

theorem ofLine?_eq_some_iff {line : List Char} {k : Marker} :
    ofLine? line = some k ↔ k.line = line := by
  constructor
  · intro h
    simpa using List.find?_some h
  · rintro rfl
    cases k <;> decide +kernel

end Marker

/-- Why a mapping has no file. -/
inductive MappingWriteError where
  | invalidIdentifier (id : Model)
  | emptyCombination (functionality : Functionality)
deriving DecidableEq

/-- The wording of a write error. -/
def MappingWriteError.message : MappingWriteError → String
  | .invalidIdentifier id => "invalid identifier '" ++ id.id ++ "'"
  | .emptyCombination f => "functionality '" ++ f.id ++ "' has an empty combination"

/-- The name can stand on a line of its own without being taken for something else. -/
def Model.isWritable (m : Model) : Bool :=
  !m.chars.isEmpty && !m.hasBlank && m.chars.head? ≠ some '#' && m.chars ≠ Marker.block.line

namespace Mapping

/-- The line of a name. -/
def nameLine (id : Model) : Except MappingWriteError (List Char) :=
  if id.isWritable then .ok id.chars else .error (.invalidIdentifier id)

/-- The line of a pool entry. -/
def entryLine (e : Model × Nat) : Except MappingWriteError (List Char) :=
  (nameLine e.1).map fun name => name ++ ' ' :: (toString e.2).toList

/-- The lines of a pool. -/
def poolLines (p : Pool) : Except MappingWriteError (List (List Char)) :=
  p.compact.toList.mapM entryLine

/-- The lines of the pools that support a functionality, with a blank line between two pools. -/
def combinationLines (f : Functionality) :
    List Pool → Except MappingWriteError (List (List Char))
  | [] => .ok []
  | p :: rest => do
    if p.holdsNothing then throw (.emptyCombination f)
    let lines ← poolLines p
    let more ← combinationLines f rest
    return lines ++ (if rest.isEmpty then [] else [] :: more)

/-- The block of a functionality. -/
def blockLines (f : Functionality) (pools : List Pool) :
    Except MappingWriteError (List (List Char)) := do
  let lines ← combinationLines f pools
  return Marker.block.line :: Marker.functionality.line :: f.chars :: Marker.agents.line :: lines

/-- The lines of the file of a mapping. -/
def lines (m : Mapping) : Except MappingWriteError (List (List Char)) := do
  let pool ← poolLines m.pool
  let names ← m.functionalities.mapM nameLine
  let saturation ← poolLines m.saturation
  let blocks ← m.supports.mapM fun e => blockLines e.1 e.2
  return Marker.resources.line :: pool ++ Marker.functionalities.line :: names ++
    Marker.saturation.line :: saturation ++ blocks.flatten

/-- The file of a mapping. -/
def write (m : Mapping) : Except MappingWriteError String :=
  m.lines.map fun lines => String.ofList (lines.flatMap (· ++ ['\n']))

end Mapping

end Provision
