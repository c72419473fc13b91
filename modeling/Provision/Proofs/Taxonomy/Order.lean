import Provision.Proofs.Support.Additivity
import Provision.Proofs.Support.Requirement
import Provision.Proofs.Taxonomy.Subsumption
import Provision.Support.Saturation

/-!
# The order of statements

A taxonomy depends on which statements are made, and how often, but not on their order. Edges,
models and functionalities are sets of what is stated. Only the restrictions of an owner are kept in
order of declaration, so statements in another order list them in another order. Nothing that is
asked of the restrictions shows it: what a unit grants is a sum, and what a functionality requires
is a conjunction.

## Main definitions

* `Statement.restrictionOf? owner s`: the restriction that a statement attaches to an owner.
* `Taxonomy.Rearranges t t'`: two taxonomies differ at most in the order of restrictions.

## Main results

* `Taxonomy.rearranges_of_perm`: statements in another order declare a taxonomy rearranged.
* `Taxonomy.ofStatements_perm`: all questions have the same answers then.
-/

namespace Provision

/-! ## What statements declare -/

namespace Statement

/-- The models that a statement makes known, apart from the owner of a restriction. -/
def models : Statement → List Model
  | .model id => [id]
  | .functionality _ => []
  | .subtype child parent => [child, parent]
  | .restriction _ r => [r.model]

/-- The restriction that a statement attaches to an owner, if it does. -/
def restrictionOf? (owner : Model) : Statement → Option Restriction
  | .restriction o r => if o = owner then some r else none
  | _ => none

end Statement

namespace Draft
variable {statements : List Statement} {id owner : Model}

theorem mem_functionalities_ofStatements_iff :
    id ∈ (ofStatements statements).functionalities.toList ↔ .functionality id ∈ statements := by
  rw [ofStatements_iff (P := fun d => id ∈ d.functionalities.toList)
    (Q := fun s => .functionality id = s) List.not_mem_nil]
  · simp
  · intro d s
    cases s <;> simp [declare, KeySet.mem_add, or_comm]

theorem mem_models_ofStatements_iff :
    id ∈ (ofStatements statements).models.toList ↔ ∃ s ∈ statements, id ∈ s.models := by
  refine ofStatements_iff (P := fun d => id ∈ d.models.toList) List.not_mem_nil fun d s => ?_
  cases s <;> simp only [declare, Statement.models, KeySet.mem_add, List.mem_cons,
    List.not_mem_nil] <;> tauto

/-- The restrictions of an owner are those stated for it, in order. -/
theorem restrictions_ofStatements (statements : List Statement) (owner : Model) :
    ((ofStatements statements).restrictions.get? owner).getD [] =
      statements.filterMap (Statement.restrictionOf? owner) := by
  have hfold : ∀ d : Draft, ((statements.foldl declare d).restrictions.get? owner).getD [] =
      (d.restrictions.get? owner).getD [] ++
        statements.filterMap (Statement.restrictionOf? owner) := by
    induction statements with
    | nil => simp
    | cons s rest ih =>
      intro d
      rw [List.foldl_cons, ih, List.filterMap_cons]
      cases s with
      | restriction o r =>
        by_cases ho : o = owner
        · simp [declare, Statement.restrictionOf?, Table.get?_update, ho]
        · simp [declare, Statement.restrictionOf?, Table.get?_update, ho, Ne.symm ho]
      | _ => rfl
  rw [ofStatements, hfold]
  rfl

theorem mem_keys_restrictions_ofStatements_iff :
    owner ∈ (ofStatements statements).restrictions.keys ↔
      ∃ s ∈ statements, (s.restrictionOf? owner).isSome := by
  refine ofStatements_iff (P := fun d => owner ∈ d.restrictions.keys) List.not_mem_nil
    fun d s => ?_
  cases s with
  | restriction o r =>
    by_cases ho : o = owner
    · simp [declare, Statement.restrictionOf?, Table.mem_keys_update, ho]
    · simp [declare, Statement.restrictionOf?, Table.mem_keys_update, ho, Ne.symm ho]
  | _ => simp [declare, Statement.restrictionOf?]

end Draft

namespace Taxonomy
variable {t t' : Taxonomy} {as bs : List Statement}

/-! ## Restrictions in another order -/

/-- Two taxonomies tell the same, but may list the restrictions of an owner in different orders. -/
structure Rearranges (t t' : Taxonomy) : Prop where
  isSubtype : ∀ x y, t.isSubtype x y = t'.isSubtype x y
  functionalities : t.functionalities = t'.functionalities
  models : t.models = t'.models
  restrictionsOf : ∀ id, (t.restrictionsOf id).Perm (t'.restrictionsOf id)

theorem isSubtype_ofStatements_iff {x y : Model} : (ofStatements as).isSubtype x y = true ↔
    x = y ∨ y ∈ (ofStatements as).ancestorsOf x := by
  rw [isSubtype, Bool.or_eq_true, decide_eq_true_eq]
  exact or_congr_right KeySet.contains_iff

/-- A model is stated, or it owns a restriction and is never declared a functionality. -/
theorem mem_models_ofStatements_iff {id : Model} : id ∈ (ofStatements as).models.toList ↔
    (∃ s ∈ as, id ∈ s.models) ∨
      (∃ s ∈ as, (s.restrictionOf? id).isSome) ∧ .functionality id ∉ as := by
  rw [ofStatements, Draft.finish, KeySet.mem_foldl_add, Draft.mem_models_ofStatements_iff,
    List.mem_filter, Draft.mem_keys_restrictions_ofStatements_iff, Bool.not_eq_true',
    ← Bool.not_eq_true, KeySet.contains_iff, Draft.mem_functionalities_ofStatements_iff]

/-- **Statements in another order declare a taxonomy rearranged.** -/
theorem rearranges_of_perm (h : as.Perm bs) : (ofStatements as).Rearranges (ofStatements bs) where
  isSubtype x y := by
    have hdeclared : Statement.Declared as = Statement.Declared bs :=
      funext₂ fun _ _ => propext h.mem_iff
    rw [Bool.eq_iff_iff, isSubtype_ofStatements_iff, isSubtype_ofStatements_iff,
      mem_ancestorsOf_iff, mem_ancestorsOf_iff, hdeclared]
  functionalities := by
    refine KeySet.ext_mem fun id => ?_
    exact Draft.mem_functionalities_ofStatements_iff.trans
      (h.mem_iff.trans Draft.mem_functionalities_ofStatements_iff.symm)
  models := by
    refine KeySet.ext_mem fun id => ?_
    simp only [mem_models_ofStatements_iff, h.mem_iff]
  restrictionsOf id := by
    rw [restrictionsOf, restrictionsOf, ofStatements, ofStatements, Draft.finish, Draft.finish,
      Draft.restrictions_ofStatements, Draft.restrictions_ofStatements]
    exact h.filterMap _

namespace Rearranges
variable (h : t.Rearranges t')
include h

/-! ## What does not show it -/

theorem exactSupply_eq (p : Pool) (s : Model) : t.exactSupply p s = t'.exactSupply p s := by
  have hgranted : ∀ m, t.granted m s = t'.granted m s := fun m =>
    (((h.restrictionsOf m).filter _).map _).sum_eq
  simp only [exactSupply, hgranted]

theorem availability_eq (p : Pool) : t.availability p = t'.availability p := by
  refine eq_of_sorted (Bound.sorted_accumulateByModel _) (Bound.sorted_accumulateByModel _)
    fun b => ?_
  rw [mem_availability_iff, mem_availability_iff, h.exactSupply_eq]

theorem unitOffers_perm (m : Model) : (t.unitOffers m).Perm (t'.unitOffers m) :=
  (((h.restrictionsOf m).map _).cons _).filter _

theorem coveringUnits_eq (m : Model) (row : Bound) :
    t.coveringUnits m row = t'.coveringUnits m row := by
  have hserves : t.serves m row.model = t'.serves m row.model := by
    simp only [serves, sumOf_eq_sum, h.isSubtype]
    exact (((h.unitOffers_perm m).filter _).map _).sum_eq
  rw [coveringUnits, coveringUnits, hserves]

theorem requirementSaturation_eq (required : List Bound) (p : Pool) :
    t.requirementSaturation required p = t'.requirementSaturation required p := by
  have hcovering : t.coveringUnits = t'.coveringUnits := funext₂ h.coveringUnits_eq
  have henough : t.enoughUnits = t'.enoughUnits := by
    funext rows m
    rw [enoughUnits, enoughUnits, hcovering]
  rw [requirementSaturation, requirementSaturation, henough]

theorem saturation_eq (reqs : List (List Bound)) (p : Pool) :
    t.saturation reqs p = t'.saturation reqs p := by
  simp only [saturation, h.requirementSaturation_eq]

theorem requirement_eq_ok_iff (f : Functionality) (bounds : List Bound) :
    t.requirement f = .ok bounds ↔ t'.requirement f = .ok bounds := by
  simp only [Taxonomy.requirement_eq_ok_iff, Restriction.AllAdmit, (h.restrictionsOf f).mem_iff]

end Rearranges

/-- **The order of statements does not matter.** Statements and any permutation of them declare the
same subsumption, functionalities and models. Every pool makes the same available and has the same
saturation, and a functionality has the same requirement or has none both times. -/
theorem ofStatements_perm (h : as.Perm bs) :
    (∀ x y, (ofStatements as).isSubtype x y = (ofStatements bs).isSubtype x y) ∧
    (ofStatements as).functionalities = (ofStatements bs).functionalities ∧
    (ofStatements as).models = (ofStatements bs).models ∧
    (∀ p, (ofStatements as).availability p = (ofStatements bs).availability p) ∧
    (∀ required p, (ofStatements as).requirementSaturation required p =
      (ofStatements bs).requirementSaturation required p) ∧
    (∀ reqs p, (ofStatements as).saturation reqs p = (ofStatements bs).saturation reqs p) ∧
    ∀ f bounds, (ofStatements as).requirement f = .ok bounds ↔
      (ofStatements bs).requirement f = .ok bounds := by
  have hsame := rearranges_of_perm h
  exact ⟨hsame.isSubtype, hsame.functionalities, hsame.models, hsame.availability_eq,
    hsame.requirementSaturation_eq, hsame.saturation_eq, hsame.requirement_eq_ok_iff⟩

/-- A survey and its statements from last to first. A rover grants two restrictions on what serves
the survey, and the survey restricts cameras twice. It owns restrictions before it is declared a
functionality the one time, and after that the other time. -/
theorem ofStatements_perm_rover :
    let camera : Model := ⟨"camera"⟩
    let stereo : Model := ⟨"stereo"⟩
    let rover : Model := ⟨"rover"⟩
    let survey : Functionality := ⟨"survey"⟩
    let as : List Statement := [.restriction survey ⟨camera, 1, some 4⟩,
      .restriction rover ⟨stereo, 0, some 2⟩, .restriction survey ⟨camera, 3, none⟩,
      .functionality survey, .subtype stereo camera, .restriction rover ⟨camera, 0, some 1⟩]
    let p : Pool := .ofEntries [(rover, 2), (stereo, 1)]
    let bounds : List Bound := [⟨camera, 3, 4, by decide, by decide⟩]
    let available : List Bound := [⟨camera, 0, 2, by decide, by decide⟩,
      ⟨rover, 0, 2, by decide, by decide⟩, ⟨stereo, 0, 5, by decide, by decide⟩]
    as.Perm as.reverse ∧
      (ofStatements as).restrictionsOf rover ≠ (ofStatements as.reverse).restrictionsOf rover ∧
      (ofStatements as.reverse).isSubtype stereo camera = true ∧
      (ofStatements as.reverse).functionalities.toList = [survey] ∧
      (ofStatements as.reverse).models.toList = [camera, rover, stereo] ∧
      (ofStatements as.reverse).availability p = available ∧
      (ofStatements as.reverse).requirementSaturation bounds p =
        .ofEntries [(rover, 1), (stereo, 3)] ∧
      (ofStatements as.reverse).saturation [bounds] p = .ofEntries [(rover, 1), (stereo, 1)] ∧
      (ofStatements as.reverse).requirement survey = .ok bounds := by
  intro camera stereo rover survey as p bounds available
  have hperm : as.Perm as.reverse := as.reverse_perm.symm
  obtain ⟨hsubtype, hfunctionalities, hmodels, havailability, hrequired, hsaturation,
    hrequirement⟩ := ofStatements_perm hperm
  rw [← hsubtype, ← hfunctionalities, ← hmodels, ← havailability, ← hrequired, ← hsaturation,
    ← hrequirement]
  exact ⟨hperm, by decide +kernel, by decide +kernel, by decide +kernel, by decide +kernel,
    by decide +kernel, by decide +kernel, by decide +kernel, by decide +kernel⟩

-- What cannot be required is reported for the first restriction that fails, so the error shows the
-- order.
example :
    let a : Restriction := ⟨⟨"arm"⟩, 2, some 1⟩
    let b : Restriction := ⟨⟨"drill"⟩, 3, some 1⟩
    let f : Functionality := ⟨"survey"⟩
    (ofStatements [.restriction f a, .restriction f b]).requirement f ≠
      (ofStatements [.restriction f b, .restriction f a]).requirement f := by
  decide +kernel

end Taxonomy

end Provision
