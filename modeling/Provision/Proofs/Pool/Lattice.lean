import Mathlib.Order.Bounds.Basic
import Mathlib.Order.Lattice
import Provision.Proofs.Pool.Counts

/-!
# The lattice of pools

A pool is a part of another one if it has no more units of any model. So pools are ordered by their
counts, where a model without an entry counts as one with an entry of zero units. Pools that are
parts of each other have the same counts, and the same entries once they are compact.

In this order two pools have a least upper bound, by the greater counts, and a greatest lower bound,
by the lesser ones. Counts take both of them to the join and the meet of functions from models to
numbers, and with them the laws of a distributive lattice.

## Main results

* `Pool.isLUB_max`, `Pool.isGLB_boundedBy`: the two bounds.
* `Pool.distrib_lattice`: the laws of the lattice of pools.
-/

namespace Provision.Pool
variable {p q r : Pool}

/-! ## Pools as functions -/

theorem isSubset_iff_count_le : p.isSubset q = true ↔ p.count ≤ q.count := isSubset_iff

theorem count_max_eq_sup (p q : Pool) : (p.max q).count = p.count ⊔ q.count :=
  funext fun m => p.count_max q m

theorem count_boundedBy_eq_inf (p q : Pool) : (p.boundedBy q).count = p.count ⊓ q.count :=
  funext fun m => p.count_boundedBy q m

/-- Compact pools are determined by their counts. -/
theorem compact_eq_compact_iff : p.compact = q.compact ↔ p.count = q.count := by
  constructor
  · intro h
    funext m
    rw [← count_compact, h, count_compact]
  · intro h
    apply ext_count p.isCompact_compact q.isCompact_compact
    intro m
    rw [count_compact, count_compact, h]

theorem isCompact_max (hp : p.isCompact = true) (hq : q.isCompact = true) :
    (p.max q).isCompact = true := by
  rw [isCompact_iff_count_ne_zero] at hp hq ⊢
  intro m hm
  rw [count_max, ← Nat.pos_iff_ne_zero]
  rcases mem_models_max.mp hm with hm | hm
  · exact Nat.lt_of_lt_of_le (Nat.pos_of_ne_zero (hp m hm)) (Nat.le_max_left _ _)
  · exact Nat.lt_of_lt_of_le (Nat.pos_of_ne_zero (hq m hm)) (Nat.le_max_right _ _)

/-! ## The order -/

theorem isSubset_refl (p : Pool) : p.isSubset p = true :=
  isSubset_iff_count_le.mpr le_rfl

theorem isSubset_trans (hpq : p.isSubset q = true) (hqr : q.isSubset r = true) :
    p.isSubset r = true := by
  rw [isSubset_iff_count_le] at *
  exact hpq.trans hqr

/-- Pools are ordered by inclusion. -/
instance : Preorder Pool where
  le p q := p.isSubset q = true
  le_refl := isSubset_refl
  le_trans _ _ _ := isSubset_trans

theorem le_iff : p ≤ q ↔ p.isSubset q = true := Iff.rfl

theorem isSubset_antisymm_iff :
    p.isSubset q = true ∧ q.isSubset p = true ↔ p.compact = q.compact := by
  rw [compact_eq_compact_iff, isSubset_iff_count_le, isSubset_iff_count_le]
  exact le_antisymm_iff.symm

theorem isSubset_max_iff :
    (p.max q).isSubset r = true ↔ p.isSubset r = true ∧ q.isSubset r = true := by
  simp only [isSubset_iff_count_le, count_max_eq_sup, sup_le_iff]

theorem isSubset_boundedBy_iff :
    r.isSubset (p.boundedBy q) = true ↔ r.isSubset p = true ∧ r.isSubset q = true := by
  simp only [isSubset_iff_count_le, count_boundedBy_eq_inf, le_inf_iff]

theorem isLUB_max (p q : Pool) : IsLUB {p, q} (p.max q) := by
  rw [isLUB_iff_le_iff]
  intro r
  simp [le_iff, isSubset_max_iff]

theorem isGLB_boundedBy (p q : Pool) : IsGLB {p, q} (p.boundedBy q) := by
  rw [isGLB_iff_le_iff]
  intro r
  simp [le_iff, isSubset_boundedBy_iff]

/-! ## Distributivity -/

theorem boundedBy_max (p q r : Pool) :
    p.boundedBy (q.max r) = (p.boundedBy q).max (p.boundedBy r) := by
  apply ext_count (isCompact_boundedBy _ _)
    (isCompact_max (isCompact_boundedBy _ _) (isCompact_boundedBy _ _))
  intro m
  apply congrFun
  simp only [count_max_eq_sup, count_boundedBy_eq_inf, inf_sup_left]

theorem max_boundedBy (p q r : Pool) :
    (p.max q).boundedBy r = (p.boundedBy r).max (q.boundedBy r) := by
  apply ext_count (isCompact_boundedBy _ _)
    (isCompact_max (isCompact_boundedBy _ _) (isCompact_boundedBy _ _))
  intro m
  apply congrFun
  simp only [count_max_eq_sup, count_boundedBy_eq_inf, inf_sup_right]

/-- **Pools form a distributive lattice**, up to entries of zero units. Inclusion is a preorder, and
pools that include each other are equal once they are compact. The greater counts are the least
upper bound, the lesser ones the greatest lower bound, which is compact, and bounding distributes
over the greater counts on both sides. -/
theorem distrib_lattice :
    (∀ p : Pool, p.isSubset p = true) ∧
    (∀ p q r : Pool, p.isSubset q = true → q.isSubset r = true → p.isSubset r = true) ∧
    (∀ p q : Pool, p.isSubset q = true ∧ q.isSubset p = true ↔ p.compact = q.compact) ∧
    (∀ p q : Pool, IsLUB {p, q} (p.max q)) ∧
    (∀ p q : Pool, IsGLB {p, q} (p.boundedBy q) ∧ (p.boundedBy q).isCompact = true) ∧
    (∀ p q r : Pool, p.boundedBy (q.max r) = (p.boundedBy q).max (p.boundedBy r)) ∧
    ∀ p q r : Pool, (p.max q).boundedBy r = (p.boundedBy r).max (q.boundedBy r) :=
  ⟨isSubset_refl, fun _ _ _ => isSubset_trans, fun _ _ => isSubset_antisymm_iff, isLUB_max,
    fun p q => ⟨isGLB_boundedBy p q, isCompact_boundedBy p q⟩, boundedBy_max, max_boundedBy⟩

/-- Two pools of wheels that differ in an entry of zero units only are parts of each other, and so
both are parts of the same rovers. A part of two rovers is a part of the lesser counts of the two,
which list neither the arm that only one of them has nor the camera that none has. -/
theorem distrib_lattice_rovers :
    let arm : Model := ⟨"arm"⟩
    let camera : Model := ⟨"camera"⟩
    let wheel : Model := ⟨"wheel"⟩
    let p := Pool.ofEntries [(camera, 0), (wheel, 4)]
    let q := Pool.ofEntries [(wheel, 4)]
    let rover := Pool.ofEntries [(arm, 1), (wheel, 5)]
    let rover' := Pool.ofEntries [(camera, 0), (wheel, 6)]
    p ≠ q ∧ p.isSubset q = true ∧ q.isSubset p = true ∧ p.compact = q.compact ∧
      q.isSubset rover = true ∧ p.isSubset rover = true ∧
      rover.boundedBy rover' = .ofEntries [(wheel, 5)] ∧
      p.isSubset (rover.boundedBy rover') = true := by
  intro arm camera wheel p q rover rover'
  obtain ⟨-, htrans, hantisymm, -, hglb, -⟩ := distrib_lattice
  have hpq : p.isSubset q = true := by decide
  have hqp : q.isSubset p = true := by decide
  have hq : q.isSubset rover = true := by decide
  have hp : p.isSubset rover = true := htrans p q rover hpq hq
  have hp' : p.isSubset rover' = true := by decide
  have hbelow : p ∈ lowerBounds {rover, rover'} := by
    simp [le_iff, hp, hp']
  exact ⟨by decide, hpq, hqp, (hantisymm p q).mp ⟨hpq, hqp⟩, hq, hp, by decide,
    (hglb rover rover').1.2 hbelow⟩

end Provision.Pool
