import Provision.Mapping.File
import Provision.Text

/-!
# Reading mapping files

A mapping file is read line by line. Blanks at both ends of a line do not count, and lines that
start with a hash sign are comments unless they are markers. Blank lines end a combination and mean
nothing elsewhere. The first faulty line decides the error.
-/

namespace Provision

/-- What is wrong with a line of a mapping file. -/
inductive MappingFault where
  | unexpectedMarker (marker : Marker)
  | unexpectedLine (line : List Char)
  | notEntry (line : List Char)
  | badCount (word : List Char)
  | zeroCount (model : Model)
  | repeatedModel (model : Model)
  | notName (line : List Char)
  | undeclared (functionality : Functionality)
  | repeatedCombination
  | unexpectedEnd
deriving DecidableEq

/-- The wording of a fault. -/
def MappingFault.message : MappingFault → String
  | .unexpectedMarker marker => "unexpected section marker '" ++ marker.text ++ "'"
  | .unexpectedLine line => "unexpected line '" ++ String.ofList line ++ "'"
  | .notEntry line => "expected '<model> <count>', found '" ++ String.ofList line ++ "'"
  | .badCount word => "could not parse count '" ++ String.ofList word ++ "'"
  | .zeroCount model => "zero count for model '" ++ model.id ++ "'"
  | .repeatedModel model => "model '" ++ model.id ++ "' listed twice"
  | .notName line => "expected one identifier, found '" ++ String.ofList line ++ "'"
  | .undeclared f => "functionality '" ++ f.id ++ "' was not declared"
  | .repeatedCombination => "combination listed twice"
  | .unexpectedEnd => "unexpected end of file"

/-- Why a file is no mapping file. -/
inductive MappingReadError where
  | notText
  | malformed (line : Nat) (cause : MappingFault)
deriving DecidableEq

/-- The wording of a read error. -/
def MappingReadError.message : MappingReadError → String
  | .notText => Text.notTextMessage
  | .malformed line cause =>
    "Line " ++ toString line ++ ": malformed mapping file: " ++ cause.message

/-- How far a mapping file has been read, and what it has said so far. -/
inductive MappingDraft where
  | start
  | resources (pool : Pool)
  | functionalities (pool : Pool) (names : List Functionality)
  | saturation (pool : Pool) (names : List Functionality) (bound : Pool)
  | block (mapping : Mapping)
  | name (mapping : Mapping)
  | header (mapping : Mapping) (functionality : Functionality)
  | agents (mapping : Mapping) (functionality : Functionality) (combination : Pool)

namespace MappingDraft

/-- The entry that a line spells. -/
def readEntry (line : List Char) : Except MappingFault (Model × Nat) :=
  match Text.words line with
  | [model, count] =>
    match Text.numeral? count with
    | none => .error (.badCount count)
    | some 0 => .error (.zeroCount (.ofChars model))
    | some n => .ok (.ofChars model, n)
  | _ => .error (.notEntry line)

/-- The name that a line spells. -/
def readName (line : List Char) : Except MappingFault Model :=
  match Text.words line with
  | [word] => .ok (.ofChars word)
  | _ => .error (.notName line)

/-- The pool with the entry that a line spells. -/
def addEntry (p : Pool) (line : List Char) : Except MappingFault Pool := do
  let (model, n) ← readEntry line
  if p.contains model then throw (.repeatedModel model)
  return p.set model n

/-- Record a combination that has been read, unless it is empty. -/
def finishCombination (m : Mapping) (f : Functionality) (combination : Pool) :
    Except MappingFault Mapping :=
  if combination.isEmpty then .ok m
  else if m.isRecorded f combination then .error .repeatedCombination
  else .ok (m.record f combination)

/-- Read a marker. -/
def onMarker (d : MappingDraft) (k : Marker) : Except MappingFault MappingDraft :=
  match d, k with
  | start, .resources => .ok (resources .empty)
  | resources pool, .functionalities => .ok (functionalities pool [])
  | functionalities pool names, .saturation => .ok (saturation pool names .empty)
  | saturation pool names bound, .block => .ok (block (.empty pool names bound))
  | agents m f combination, .block => (finishCombination m f combination).map block
  | block m, .functionality => .ok (name m)
  | header m f, .agents => .ok (agents m f .empty)
  | _, k => .error (.unexpectedMarker k)

/-- Read a line of text. -/
def onText (d : MappingDraft) (line : List Char) : Except MappingFault MappingDraft :=
  match d with
  | resources pool => (addEntry pool line).map resources
  | functionalities pool names =>
    (readName line).map fun f => functionalities pool (names ++ [f])
  | saturation pool names bound => (addEntry bound line).map (saturation pool names)
  | name m =>
    (readName line).bind fun f =>
      if m.byFunctionality.contains f then .ok (header m f) else .error (.undeclared f)
  | agents m f combination => (addEntry combination line).map (agents m f)
  | start | block _ | header _ _ => .error (.unexpectedLine line)

/-- Read a blank line. -/
def onBlank : MappingDraft → Except MappingFault MappingDraft
  | agents m f combination => (finishCombination m f combination).map fun m => agents m f .empty
  | d => .ok d

/-- Read a line. -/
def onLine (d : MappingDraft) (line : List Char) : Except MappingFault MappingDraft :=
  match Text.trim line with
  | [] => d.onBlank
  | c :: rest =>
    match Marker.ofLine? (c :: rest) with
    | some k => d.onMarker k
    | none => if c = '#' then .ok d else d.onText (c :: rest)

/-- The mapping of a file that ends here. -/
def finish : MappingDraft → Except MappingFault Mapping
  | saturation pool names bound => .ok (.empty pool names bound)
  | agents m f combination => finishCombination m f combination
  | _ => .error .unexpectedEnd

/-- Read the remaining lines, where the given number of lines has been read before. -/
def readFrom (d : MappingDraft) (number : Nat) : List Text.Line → Except MappingReadError Mapping
  | [] =>
    match d.finish with
    | .ok m => .ok m
    | .error cause => .error (.malformed number cause)
  | none :: _ => .error .notText
  | some line :: rest =>
    match d.onLine line with
    | .ok d => d.readFrom (number + 1) rest
    | .error cause => .error (.malformed (number + 1) cause)

end MappingDraft

/-- The mapping that the lines of a file spell. -/
def Mapping.read (lines : List Text.Line) : Except MappingReadError Mapping :=
  MappingDraft.start.readFrom 0 lines

end Provision
