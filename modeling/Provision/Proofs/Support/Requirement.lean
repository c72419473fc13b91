import Provision.Proofs.Bound.Intersection
import Provision.Support.Requirement

/-!
# Requirements are conjunctions

Each restriction of a functionality is made a bound, and the bounds are intersected. A restriction
fails on its own when no bound can hold it, and restrictions on one model fail together when they
share no number. Otherwise the requirement admits of each model just what all its restrictions
admit, as far as bounds reach.

## Main definitions

* `Restriction.Admits r n`: a number of units is within a restriction.
* `Restriction.AllAdmit rs m n`: all restrictions on a model admit a number.

## Main results

* `Taxonomy.requirement_exact`: when there is a requirement, and which one.
-/

namespace Provision

namespace Restriction
variable {r : Restriction} {rs : List Restriction} {b : Bound} {bounds : List Bound} {m : Model}
  {n : Nat}

/-- A number of units is within the restriction, where a star is the greatest maximum of a bound. -/
def Admits (r : Restriction) (n : Nat) : Prop := r.min ≤ n ∧ n ≤ r.grant

/-- All restrictions on a model in a list admit a number. -/
def AllAdmit (rs : List Restriction) (m : Model) (n : Nat) : Prop :=
  ∀ r ∈ rs, r.model = m → r.Admits n

/-! ## Bounds of restrictions -/

theorem ofRestriction_eq_ok_iff : Bound.ofRestriction r = .ok b ↔
    b.model = r.model ∧ b.min = r.min ∧ b.max = Nat.min r.grant Bound.threshold :=
  Bound.make_eq_ok_iff

theorem exists_ofRestriction_iff :
    (∃ b, Bound.ofRestriction r = .ok b) ↔ r.min ≤ Nat.min r.grant Bound.threshold := by
  constructor
  · intro ⟨b, hb⟩
    obtain ⟨-, hmin, hmax⟩ := ofRestriction_eq_ok_iff.mp hb
    rw [← hmin, ← hmax]
    exact b.min_le_max
  · intro h
    exact ⟨⟨r.model, r.min, _, h, Nat.min_le_right _ _⟩,
      ofRestriction_eq_ok_iff.mpr ⟨rfl, rfl, rfl⟩⟩

/-- The bound of a restriction admits what the restriction admits, as far as bounds reach. -/
theorem admits_ofRestriction_iff (h : Bound.ofRestriction r = .ok b) :
    b.admits n = true ↔ n ≤ Bound.threshold ∧ r.Admits n := by
  obtain ⟨-, hmin, hmax⟩ := ofRestriction_eq_ok_iff.mp h
  rw [Bound.admits_iff, hmin, hmax, Nat.le_min, Admits]
  tauto

section
variable (h : List.Forall₂ (fun r b => Bound.ofRestriction r = .ok b) rs bounds)
include h

theorem exists_model_iff : (∃ b ∈ bounds, b.model = m) ↔ ∃ r ∈ rs, r.model = m := by
  obtain ⟨hright, hleft⟩ := exists_of_forall₂ h
  constructor
  · rintro ⟨b, hb, rfl⟩
    obtain ⟨r, hr, hrb⟩ := hleft b hb
    exact ⟨r, hr, (ofRestriction_eq_ok_iff.mp hrb).1.symm⟩
  · rintro ⟨r, hr, rfl⟩
    obtain ⟨b, hb, hrb⟩ := hright r hr
    exact ⟨b, hb, (ofRestriction_eq_ok_iff.mp hrb).1⟩

theorem allAdmit_bounds_iff :
    Bound.AllAdmit bounds m n ↔ ∀ r ∈ rs, r.model = m → n ≤ Bound.threshold ∧ r.Admits n := by
  obtain ⟨hright, hleft⟩ := exists_of_forall₂ h
  constructor
  · intro hall r hr hmodel
    obtain ⟨b, hb, hrb⟩ := hright r hr
    have hbm : b.model = m := (ofRestriction_eq_ok_iff.mp hrb).1.trans hmodel
    exact (admits_ofRestriction_iff hrb).mp (hall b hb hbm)
  · intro hall b hb hmodel
    obtain ⟨r, hr, hrb⟩ := hleft b hb
    have hrm : r.model = m := (ofRestriction_eq_ok_iff.mp hrb).1.symm.trans hmodel
    exact (admits_ofRestriction_iff hrb).mpr (hall r hr hrm)

theorem describes_bounds_iff {required : List Bound} :
    Bound.Describes required (fun m => ∃ b ∈ bounds, b.model = m) (Bound.AllAdmit bounds) ↔
      Bound.Describes required (fun m => ∃ r ∈ rs, r.model = m)
        fun m n => n ≤ Bound.threshold ∧ AllAdmit rs m n := by
  refine Bound.Describes.congr (fun m => exists_model_iff h) fun m hm n => ?_
  obtain ⟨r, hr, hmodel⟩ := (exists_model_iff h).mp hm
  rw [allAdmit_bounds_iff h]
  constructor
  · intro hall
    exact ⟨(hall r hr hmodel).1, fun r hr hmodel => (hall r hr hmodel).2⟩
  · intro ⟨hle, hall⟩ r hr hmodel
    exact ⟨hle, hall r hr hmodel⟩

end

end Restriction

namespace Taxonomy
variable {t : Taxonomy} {f : Functionality} {bounds : List Bound}

/-- A requirement describes the conjunction of the restrictions, each of which has a bound. -/
theorem requirement_eq_ok_iff : t.requirement f = .ok bounds ↔
    (∀ r ∈ t.restrictionsOf f, r.min ≤ Nat.min r.grant Bound.threshold) ∧
      Bound.Describes bounds (fun m => ∃ r ∈ t.restrictionsOf f, r.model = m)
        fun m n => n ≤ Bound.threshold ∧ Restriction.AllAdmit (t.restrictionsOf f) m n := by
  simp only [requirement, bind_eq_ok_iff, mapM_eq_ok_iff, Bound.intersectByModel_eq_ok_iff,
    ← Restriction.exists_ofRestriction_iff, ← exists_forall₂_iff]
  constructor
  · intro ⟨bs, hbs, hdescribes⟩
    exact ⟨⟨bs, hbs⟩, (Restriction.describes_bounds_iff hbs).mp hdescribes⟩
  · intro ⟨⟨bs, hbs⟩, hdescribes⟩
    exact ⟨bs, hbs, (Restriction.describes_bounds_iff hbs).mpr hdescribes⟩

theorem exists_requirement_iff : (∃ bounds, t.requirement f = .ok bounds) ↔
    (∀ r ∈ t.restrictionsOf f, r.min ≤ Nat.min r.grant Bound.threshold) ∧
      ∀ m, ∃ n, Restriction.AllAdmit (t.restrictionsOf f) m n := by
  constructor
  · intro ⟨bounds, h⟩
    obtain ⟨hfits, hdescribes⟩ := requirement_eq_ok_iff.mp h
    refine ⟨hfits, fun m => ?_⟩
    have hrest : ∀ m, (¬∃ r ∈ t.restrictionsOf f, r.model = m) →
        0 ≤ Bound.threshold ∧ Restriction.AllAdmit (t.restrictionsOf f) m 0 := fun m hm =>
      ⟨Nat.zero_le _, fun r hr hmodel => absurd ⟨r, hr, hmodel⟩ hm⟩
    obtain ⟨n, -, hn⟩ := hdescribes.exists_admitted hrest m
    exact ⟨n, hn⟩
  · intro ⟨hfits, hshared⟩
    obtain ⟨bs, hbs⟩ := exists_forall₂_iff.mpr fun r hr =>
      Restriction.exists_ofRestriction_iff.mpr (hfits r hr)
    have hadmit : ∀ m, ∃ n, Bound.AllAdmit bs m n := by
      intro m
      obtain ⟨n, hn⟩ := hshared m
      -- A number above the threshold may be shared; then the threshold is shared as well.
      refine ⟨Nat.min n Bound.threshold, (Restriction.allAdmit_bounds_iff hbs).mpr ?_⟩
      intro r hr hmodel
      obtain ⟨hmin, hmax⟩ := hn r hr hmodel
      have hfit := Nat.le_min.mp (hfits r hr)
      exact ⟨Nat.min_le_right _ _, Nat.le_min.mpr ⟨hmin, hfit.2⟩,
        Nat.le_trans (Nat.min_le_left _ _) hmax⟩
    obtain ⟨bounds, hbounds⟩ := Bound.exists_intersectByModel_iff.mpr hadmit
    exact ⟨bounds, bind_eq_ok_iff.mpr ⟨bs, mapM_eq_ok_iff.mpr hbs, hbounds⟩⟩

/-- **A requirement is the conjunction of the restrictions.** There is one when every restriction
fits a bound and those on each model share a number. It has one bound for every restricted model, in
model order, which admits just what all restrictions on the model admit; so it depends on which
restrictions there are, and not on their order. -/
theorem requirement_exact (t : Taxonomy) (f : Functionality) :
    ((∃ bounds, t.requirement f = .ok bounds) ↔
      (∀ r ∈ t.restrictionsOf f, r.min ≤ Nat.min r.grant Bound.threshold) ∧
        ∀ m, ∃ n, Restriction.AllAdmit (t.restrictionsOf f) m n) ∧
    (∀ bounds, t.requirement f = .ok bounds →
      Bound.Describes bounds (fun m => ∃ r ∈ t.restrictionsOf f, r.model = m)
        fun m n => n ≤ Bound.threshold ∧ Restriction.AllAdmit (t.restrictionsOf f) m n) ∧
    ∀ (t' : Taxonomy) (f' : Functionality),
      (∀ r, r ∈ t.restrictionsOf f ↔ r ∈ t'.restrictionsOf f') →
        ∀ bounds, t.requirement f = .ok bounds → t'.requirement f' = .ok bounds := by
  refine ⟨exists_requirement_iff, fun bounds h => (requirement_eq_ok_iff.mp h).2, ?_⟩
  intro t' f' hsame bounds h
  rw [requirement_eq_ok_iff] at h ⊢
  simpa only [Restriction.AllAdmit, hsame] using h

/-- A survey asks for at least one camera, for one arm, and for two to four cameras: it requires an
arm and two to four cameras, in whichever order it asks. A drill that asks for at least three
cameras and for at most two has no requirement. -/
theorem requirement_exact_rover :
    let camera : Model := ⟨"camera"⟩
    let arm : Model := ⟨"arm"⟩
    let survey : Functionality := ⟨"survey"⟩
    let drill : Functionality := ⟨"drill"⟩
    let t := Taxonomy.ofStatements [.restriction survey ⟨camera, 1, none⟩,
      .restriction survey ⟨arm, 1, some 1⟩, .restriction survey ⟨camera, 2, some 4⟩,
      .restriction drill ⟨camera, 3, none⟩, .restriction drill ⟨camera, 0, some 2⟩]
    let t' := Taxonomy.ofStatements [.restriction survey ⟨camera, 2, some 4⟩,
      .restriction survey ⟨camera, 1, none⟩, .restriction survey ⟨arm, 1, some 1⟩]
    let bounds : List Bound :=
      [⟨arm, 1, 1, by decide, by decide⟩, ⟨camera, 2, 4, by decide, by decide⟩]
    t.requirement survey = .ok bounds ∧
      Restriction.AllAdmit (t.restrictionsOf survey) camera 3 ∧
      t'.requirement survey = .ok bounds ∧ ¬∃ bounds, t.requirement drill = .ok bounds := by
  intro camera arm survey drill t t' bounds
  have hbounds : t.requirement survey = .ok bounds := by decide +kernel
  obtain ⟨-, hdescribes, hsame⟩ := requirement_exact t survey
  refine ⟨hbounds, ?_, ?_, ?_⟩
  · have hadmits : Bound.admits ⟨camera, 2, 4, by decide, by decide⟩ 3 = true := by decide
    exact (((hdescribes bounds hbounds).admits_iff _ (by decide) 3).mp hadmits).2
  · refine hsame t' survey (fun r => ?_) bounds hbounds
    have hperm : (t.restrictionsOf survey).Perm (t'.restrictionsOf survey) := by decide
    exact hperm.mem_iff
  · rw [(requirement_exact t drill).1]
    rintro ⟨-, hshared⟩
    obtain ⟨n, hn⟩ := hshared camera
    have hmin := (hn ⟨camera, 3, none⟩ (by decide) rfl).1
    have hmax := (hn ⟨camera, 0, some 2⟩ (by decide) rfl).2
    exact absurd (Nat.le_trans hmin hmax) (by decide)

end Taxonomy

end Provision
