import Provision.Model
import Provision.Numbers
import Provision.Table

/-!
# Taxonomies

A taxonomy orders models by subsumption and attaches restrictions to models and functionalities. It
is declared by a sequence of statements: models, subtypes, functionalities and restrictions.

A model is a subtype of itself and of everything reached by declared subtype edges. What is reached
is collected from a worklist. Cycles are allowed; the parents of a model are put on the worklist at
most once.
-/

namespace Provision

/-- A declaration. -/
inductive Statement where
  | model (id : Model)
  | subtype (child parent : Model)
  | functionality (id : Functionality)
  | restriction (owner : Model) (restriction : Restriction)
deriving DecidableEq

/-- The declared parents of each model. -/
abbrev Parentage := Table Model (List Model)

namespace Parentage

/-- The declared parents of a model, in order of declaration. -/
def parentsOf (ps : Parentage) (m : Model) : List Model := (ps.get? m).getD []

/-- How many parents the models that have not been seen may still put on a worklist. -/
def outstanding (ps : Parentage) (seen : KeySet Model) : Nat :=
  sumOf ((ps.entries.filter (·.1 ∉ seen.toList)).map (·.2.length))

/-- A model that is seen for the first time uses up what its parents are counted for. -/
theorem outstanding_add (ps : Parentage) {seen : KeySet Model} {m : Model}
    (hm : m ∉ seen.toList) :
    ps.outstanding (seen.add m) + (ps.parentsOf m).length ≤ ps.outstanding seen := by
  have hfilter : ps.entries.filter (·.1 ∉ (seen.add m).toList) =
      (ps.entries.filter (·.1 ∉ seen.toList)).filter (·.1 ≠ m) := by
    rw [List.filter_filter]
    congr 1
    funext e
    simp [KeySet.mem_add]
  rw [outstanding, outstanding, hfilter, parentsOf]
  cases hget : ps.get? m with
  | none => exact sumOf_filter_le _ _ _
  | some parents =>
    have hentry : (m, parents) ∈ ps.entries := Table.mem_entries_iff.mpr hget
    have hkept : (m, parents) ∈ ps.entries.filter (·.1 ∉ seen.toList) := by
      simpa [hentry] using hm
    exact sumOf_filter_add_le _ hkept (by simp)

/-- Everything seen so far, together with what a worklist leads to. The model on top of the worklist
is passed over if it is the start or has been seen. Otherwise it is seen now, and its parents are
put on top of the rest, the last one highest. -/
def collect (ps : Parentage) (start : Model) (seen : KeySet Model) : List Model → KeySet Model
  | [] => seen
  | m :: rest =>
    if m = start ∨ m ∈ seen.toList then ps.collect start seen rest
    else ps.collect start (seen.add m) ((ps.parentsOf m).reverse ++ rest)
termination_by work => ps.outstanding seen + work.length
decreasing_by
  · simp
  · next h =>
    have hpaid := ps.outstanding_add fun hm => h (.inr hm)
    simp only [List.length_append, List.length_reverse, List.length_cons]
    omega

/-- The models other than `m` that are reached from `m` by subtype edges. -/
def ancestors (ps : Parentage) (m : Model) : KeySet Model :=
  ps.collect m .empty (ps.parentsOf m).reverse

end Parentage

/-- What has been declared so far. -/
structure Draft where
  parentage : Parentage
  restrictions : Table Model (List Restriction)
  functionalities : KeySet Functionality
  models : KeySet Model

namespace Draft

/-- Nothing is declared. -/
def empty : Draft := ⟨.empty, .empty, .empty, .empty⟩

/-- Declare one more statement. -/
def declare (d : Draft) : Statement → Draft
  | .model id => { d with models := d.models.add id }
  | .subtype child parent =>
    { d with
      models := (d.models.add child).add parent
      parentage := d.parentage.update child fun old => old.getD [] ++ [parent] }
  | .functionality id => { d with functionalities := d.functionalities.add id }
  | .restriction owner r =>
    { d with
      models := d.models.add r.model
      restrictions := d.restrictions.update owner fun old => old.getD [] ++ [r] }

/-- The name is known as a model or as a functionality. -/
def isDeclared (d : Draft) (id : Model) : Bool :=
  d.models.contains id || d.functionalities.contains id

/-- The draft after a sequence of statements. -/
def ofStatements (statements : List Statement) : Draft := statements.foldl declare empty

end Draft

/-- Models, functionalities, their restrictions, and the ancestors of every model with a parent. -/
structure Taxonomy where
  ancestry : Table Model (KeySet Model)
  restrictions : Table Model (List Restriction)
  functionalities : KeySet Functionality
  models : KeySet Model

/-- The taxonomy that has been declared. The owner of a restriction is a model unless it is declared
a functionality. -/
def Draft.finish (d : Draft) : Taxonomy where
  ancestry := d.parentage.mapValues fun m _ => d.parentage.ancestors m
  restrictions := d.restrictions
  functionalities := d.functionalities
  models := (d.restrictions.keys.filter fun o => !d.functionalities.contains o).foldl KeySet.add
    d.models

namespace Taxonomy

/-- The taxonomy that a sequence of statements declares. -/
def ofStatements (statements : List Statement) : Taxonomy := (Draft.ofStatements statements).finish

/-- The ancestors of a model, itself excluded, in order. -/
def ancestorsOf (t : Taxonomy) (m : Model) : List Model :=
  ((t.ancestry.get? m).getD .empty).toList

/-- The model is the other one or has it among its ancestors. -/
def isSubtype (t : Taxonomy) (m ancestor : Model) : Bool :=
  m = ancestor || ((t.ancestry.get? m).getD .empty).contains ancestor

/-- The restrictions attached to a model or functionality, in order of declaration. -/
def restrictionsOf (t : Taxonomy) (id : Model) : List Restriction :=
  (t.restrictions.get? id).getD []

/-- The name is declared a functionality. -/
def isFunctionality (t : Taxonomy) (id : Model) : Bool := t.functionalities.contains id

end Taxonomy

end Provision
