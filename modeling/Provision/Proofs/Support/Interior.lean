import Provision.Proofs.Support.Saturation

/-!
# The saturation bound is an interior operator

Which models the ceiling of the saturation bound lists depends on the pool that is cut. But how many
units of a model are enough for a requirement is the same in all pools that have the model. So the
bound cuts every pool at one fixed level per model: what it leaves is a part of the pool, grows with
the pool, and is cut no further.

## Main definitions

* `Taxonomy.saturationLevel t rows m`: the units of a model that are enough for a requirement.
* `Taxonomy.ceiling t reqs m`: the greatest level of several requirements.

## Main results

* `Taxonomy.count_saturation`: the saturation bound of a pool is the pool, cut at the ceiling.
* `Taxonomy.saturation_interior`: the laws of an interior operator.
-/

namespace Provision
namespace Taxonomy
variable {t : Taxonomy} {rows : List Bound} {reqs : List (List Bound)} {p : Pool}

/-- How many units of a model are enough for a requirement, in whatever pool. A requirement that
asks for nothing is met by any single unit. -/
def saturationLevel (t : Taxonomy) (rows : List Bound) (m : Model) : Nat :=
  if ∃ row ∈ rows, 0 < row.min then min (t.enough rows m) Bound.threshold else 1

/-- How many units of a model are enough for each of several requirements. -/
def ceiling (t : Taxonomy) (reqs : List (List Bound)) (m : Model) : Nat :=
  reqs.foldr (fun rows most => Nat.max (t.saturationLevel rows m) most) 0

theorem ceiling_le_iff {m : Model} {k : Nat} :
    t.ceiling reqs m ≤ k ↔ ∀ rows ∈ reqs, t.saturationLevel rows m ≤ k := by
  induction reqs with
  | nil => simp [ceiling]
  | cons rows rest ih =>
    rw [ceiling, List.foldr_cons, ← ceiling, Nat.max_le, ih, List.forall_mem_cons]

theorem count_requirementSaturation_eq {m : Model} (hm : p.count m ≠ 0) :
    (t.requirementSaturation rows p).count m = t.saturationLevel rows m := by
  by_cases hrows : ∃ row ∈ rows, 0 < row.min
  · rw [saturationLevel, if_pos hrows, count_requirementSaturation hrows hm]
  · rw [saturationLevel, if_neg hrows]
    refine count_requirementSaturation_of_min_eq_zero (fun row hrow => ?_) hm
    exact Nat.eq_zero_of_not_pos fun hpos => hrows ⟨row, hrow, hpos⟩

/-- The saturation bound cuts every pool at the same ceiling. -/
theorem count_saturation (m : Model) :
    (t.saturation reqs p).count m = min (p.count m) (t.ceiling reqs m) := by
  rw [saturation, Pool.count_boundedBy]
  by_cases hm : p.count m = 0
  · rw [hm, Nat.zero_min, Nat.zero_min]
  · -- Where the pool has the model, both sides are the least upper bound of the levels.
    refine congrArg (min (p.count m)) (eq_of_forall_ge_iff fun k => ?_)
    have hempty : Pool.count .empty m ≤ k := Nat.zero_le k
    rw [Pool.count_foldl_max_le_iff, and_iff_right hempty, ceiling_le_iff]
    simp only [count_requirementSaturation_eq hm]

theorem isCompact_saturation : (t.saturation reqs p).isCompact = true :=
  Pool.isCompact_boundedBy p _

/-- **The saturation bound is an interior operator.** Whatever the requirements, the bound of a pool
is a compact part of it, a larger pool has a larger bound, and the bound is its own bound. -/
theorem saturation_interior (t : Taxonomy) (reqs : List (List Bound)) :
    (∀ p, (t.saturation reqs p).isCompact = true ∧ (t.saturation reqs p).isSubset p = true) ∧
    (∀ p q : Pool, p.isSubset q = true →
      (t.saturation reqs p).isSubset (t.saturation reqs q) = true) ∧
    ∀ p, t.saturation reqs (t.saturation reqs p) = t.saturation reqs p := by
  refine ⟨fun p => ⟨isCompact_saturation, ?_⟩, fun p q hle => ?_, fun p => ?_⟩
  · exact Pool.isSubset_iff.mpr count_saturation_le
  · rw [Pool.isSubset_iff] at hle ⊢
    intro m
    rw [count_saturation, count_saturation]
    exact min_le_min_right _ (hle m)
  · refine Pool.ext_count isCompact_saturation isCompact_saturation fun m => ?_
    rw [count_saturation, count_saturation, min_assoc, min_self]

/-- Two rovers bring the three cameras of one requirement, and any unit meets the other one. A pool
with one rover has less than is enough, and one with four rovers has more. -/
theorem saturation_interior_rovers :
    let rover : Model := ⟨"rover"⟩
    let camera : Model := ⟨"camera"⟩
    let rock : Model := ⟨"rock"⟩
    let t := Taxonomy.ofStatements [.restriction rover ⟨camera, 0, some 2⟩]
    let reqs : List (List Bound) :=
      [[⟨camera, 3, 3, by decide, by decide⟩], [.unbounded camera]]
    let p := Pool.ofEntries [(rover, 1)]
    let q := Pool.ofEntries [(rock, 7), (rover, 4)]
    let enough := Pool.ofEntries [(rock, 1), (rover, 2)]
    p.isSubset q = true ∧ t.saturation reqs p = p ∧ t.saturation reqs q = enough ∧
      p.isSubset enough = true ∧ t.saturation reqs enough = enough := by
  intro rover camera rock t reqs p q enough
  have hsubset : p.isSubset q = true := by decide
  have hp : t.saturation reqs p = p := by decide +kernel
  have hq : t.saturation reqs q = enough := by decide +kernel
  obtain ⟨-, hmono, hidem⟩ := saturation_interior t reqs
  have hbounds := hmono p q hsubset
  have hself := hidem q
  rw [hp, hq] at hbounds
  rw [hq] at hself
  exact ⟨hsubset, hp, hq, hbounds, hself⟩

end Taxonomy

end Provision
