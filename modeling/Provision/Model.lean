import Provision.Text

/-!
# Models, instances and restrictions

A model is a named kind of resource, and a functionality is named the same way. Names are ordered by
code points.
-/

namespace Provision

/-- The name of a kind of resource, or of a functionality. -/
structure Model where
  id : String
deriving DecidableEq, Repr, Inhabited

/-- A capability that a group of resources may provide. -/
abbrev Functionality := Model

namespace Model

instance : Ord Model := ⟨fun a b => compare a.id b.id⟩

theorem compare_eq (a b : Model) : compare a b = compare a.id b.id := rfl

instance : Std.TransOrd Model where
  eq_swap := by simp only [compare_eq]; exact Std.OrientedCmp.eq_swap
  isLE_trans := by simp only [compare_eq]; exact Std.TransCmp.isLE_trans

instance : Std.LawfulEqOrd Model where
  compare_self := by simp
  eq_of_compare {a b} h := by
    cases a; cases b
    simpa [compare_eq] using h

/-- The name, character by character. -/
def chars (m : Model) : List Char := m.id.toList

/-- The model whose name is spelt by a list of characters. -/
def ofChars (cs : List Char) : Model := ⟨String.ofList cs⟩

@[simp] theorem chars_ofChars (cs : List Char) : (ofChars cs).chars = cs := by
  simp [chars, ofChars]

@[simp] theorem ofChars_chars (m : Model) : ofChars m.chars = m := by
  simp [chars, ofChars]

/-- Some character of the name is blank. -/
def hasBlank (m : Model) : Bool := m.chars.any Text.isBlank

/-- A name in a dump of values. -/
def renderTagged (m : Model) : String := "ResourceModel(" ++ m.id ++ ")"

end Model

/-- A single resource: its model and a number. -/
structure Instance where
  model : Model
  number : Nat
deriving DecidableEq, Repr

namespace Instance

/-- Order by model, then by number. -/
instance : Ord Instance :=
  ⟨fun a b => (compare a.model b.model).then (compare a.number b.number)⟩

/-- The text of an instance: its model and its number. -/
def render (i : Instance) : String := i.model.id ++ "#" ++ toString i.number

end Instance

/-- How many units of a model something asks for or offers; no maximum means any number. -/
structure Restriction where
  model : Model
  min : Nat
  max : Option Nat
deriving DecidableEq, Repr

/-- The text of a restriction; a star stands for no maximum. -/
def Restriction.render (r : Restriction) : String :=
  r.model.id ++ " [" ++ toString r.min ++ ", " ++ (r.max.elim "*" toString) ++ "]"

end Provision
