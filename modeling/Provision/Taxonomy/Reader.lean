import Provision.Taxonomy
import Provision.Text

/-!
# Reading taxonomies

A taxonomy file has one statement a line. A hash sign starts a comment that runs to the end of the
line, and a line without words says nothing. The first faulty line decides the error.
-/

namespace Provision

/-- What is wrong with a line. -/
inductive StatementError where
  | unexpected (word : List Char)
  | arity (keyword : String) (expected found : Nat)
  | unknownModel (model : Model)
  | badNumeral (word : List Char)
  | emptyRange (min max : Nat)

/-- Why a file is no taxonomy. -/
inductive TaxonomyError where
  | notText
  | line (number : Nat) (cause : StatementError)

/-- The wording of a taxonomy error. -/
def TaxonomyError.message : TaxonomyError → String
  | .notText => Text.notTextMessage
  | .line number (.unexpected word) =>
    "Line " ++ toString number ++ ": unexpected statement '" ++ String.ofList word ++ "'"
  | .line number (.arity keyword expected found) =>
    "Line " ++ toString number ++ ": '" ++ keyword ++ "' expects " ++ toString expected ++
      " arguments, found " ++ toString found
  | .line number (.unknownModel model) =>
    "Line " ++ toString number ++ ": model '" ++ model.id ++ "' was never declared"
  | .line number (.badNumeral word) =>
    "Parse error: Line " ++ toString number ++ ": could not parse token '" ++ String.ofList word ++
      "' as type u32"
  | .line number (.emptyRange min max) =>
    "Line " ++ toString number ++ ": restriction minimum " ++ toString min ++ " exceeds maximum " ++
      toString max

namespace Statement

/-- The number a word stands for. -/
def readNumeral (word : List Char) : Except StatementError Nat :=
  match Text.numeral? word with
  | some n => .ok n
  | none => .error (.badNumeral word)

/-- The maximum a word stands for; a star stands for none. -/
def readMax (word : List Char) : Except StatementError (Option Nat) :=
  if word = ['*'] then .ok none else (readNumeral word).map some

/-- The model a word names, which must be known. -/
def readKnown (known : Model → Bool) (word : List Char) : Except StatementError Model :=
  if known (.ofChars word) then .ok (.ofChars word) else .error (.unknownModel (.ofChars word))

/-- The statement that a keyword and its arguments spell. -/
def ofWords (known : Model → Bool) (keyword : List Char) (args : List (List Char)) :
    Except StatementError Statement :=
  if keyword = "model".toList then
    match args with
    | [id] => .ok (.model (.ofChars id))
    | _ => .error (.arity "model" 1 args.length)
  else if keyword = "functionality".toList then
    match args with
    | [id] => .ok (.functionality (.ofChars id))
    | _ => .error (.arity "functionality" 1 args.length)
  else if keyword = "subtype".toList then
    match args with
    | [child, parent] => do
      let child ← readKnown known child
      let parent ← readKnown known parent
      return .subtype child parent
    | _ => .error (.arity "subtype" 2 args.length)
  else if keyword = "restriction".toList then
    match args with
    | [owner, offered, least, most] => do
      let owner ← readKnown known owner
      let offered ← readKnown known offered
      let least ← readNumeral least
      let most ← readMax most
      if most.any (· < least) then .error (.emptyRange least (most.getD 0))
      else return .restriction owner ⟨offered, least, most⟩
    | _ => .error (.arity "restriction" 4 args.length)
  else .error (.unexpected keyword)

/-- The statement on a line, if the line says anything. -/
def ofLine (known : Model → Bool) (line : List Char) : Except StatementError (Option Statement) :=
  match Text.words (line.takeWhile (· ≠ '#')) with
  | [] => .ok none
  | keyword :: args => (ofWords known keyword args).map some

end Statement

namespace Draft

/-- Whether a statement may mention a model: a strict reader asks for an earlier declaration. -/
def mayMention (d : Draft) (strict : Bool) (m : Model) : Bool := !strict || d.isDeclared m

/-- Declare what the remaining lines say, the first of which has the given number. -/
def readFrom (strict : Bool) (d : Draft) (number : Nat) :
    List Text.Line → Except TaxonomyError Draft
  | [] => .ok d
  | none :: _ => .error .notText
  | some line :: rest =>
    match Statement.ofLine (d.mayMention strict) line with
    | .error cause => .error (.line number cause)
    | .ok none => readFrom strict d (number + 1) rest
    | .ok (some s) => readFrom strict (d.declare s) (number + 1) rest

end Draft

/-- The taxonomy that the lines of a file declare. A strict reader refuses names that no earlier
line declares. -/
def Taxonomy.read (strict : Bool) (lines : List Text.Line) : Except TaxonomyError Taxonomy :=
  (Draft.empty.readFrom strict 1 lines).map Draft.finish

end Provision
