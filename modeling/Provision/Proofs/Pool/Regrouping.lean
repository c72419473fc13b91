import Provision.Proofs.Pool.Amounts
import Provision.Proofs.Saturating

/-!
# Regrouping sums

A sum of deltas does not depend on their order. It depends on the grouping where an inner sum leaves
the type of amounts and the third delta leads back into it: the clamp of the inner sum is then seen
in the result. The counts of pools are too small for that, so that a delta and two pools can be
added up in any order and grouping.

## Main definitions

* `Delta.Regroups a b c`: the two groupings of a sum of three deltas agree.

## Main results

* `Delta.regroups_iff`: two groupings agree exactly where no clamp of an inner sum is seen.
* `Delta.sum_comm_assoc_iff`: addition is commutative, and which sums may be regrouped.
* `Delta.not_sum_assoc`: addition is not associative.
-/

namespace Provision.Delta

theorem sum_comm (d e : Delta) : d.sum e = e.sum d := by
  apply ext_amount
  · intro m
    rw [mem_keys_sum, mem_keys_sum, or_comm]
  · intro m
    rw [amount_sum, amount_sum, IntKind.satAdd_comm]

/-- Both groupings of a sum of three deltas come to the same. -/
def Regroups (a b c : Delta) : Prop := (a.sum b).sum c = a.sum (b.sum c)

/-- **Sums may be regrouped** unless, for some model, an inner sum leaves the type of amounts and
the third amount leads back into it. -/
theorem regroups_iff {a b c : Delta} :
    a.Regroups b c ↔ ∀ m, ¬Amount.kind.Rebounds (a.amount m + b.amount m) (c.amount m) ∧
      ¬Amount.kind.Rebounds (b.amount m + c.amount m) (a.amount m) := by
  have hassoc := fun m =>
    IntKind.satAdd_assoc_iff (a.fits_amount m) (b.fits_amount m) (c.fits_amount m)
  constructor
  · intro h m
    have hm := congrArg (amount · m) h
    simp only [amount_sum] at hm
    exact (hassoc m).mp hm
  · intro h
    apply ext_amount
    · intro m
      simp only [mem_keys_sum, or_assoc]
    · intro m
      simp only [amount_sum]
      exact (hassoc m).mpr (h m)

/-! ## Pools among the deltas -/

/-- The counts of two pools add up to an amount. -/
theorem fits_count_add_count (p q : Pool) (m : Model) :
    Amount.kind.Fits (p.count m + q.count m) := by
  have hp := p.count_le_ceiling m
  have hq := q.count_le_ceiling m
  have hmin := Amount.kind.min_nonpos
  have hmax : (Count.ceiling + Count.ceiling : Int) ≤ Amount.kind.max := by decide
  unfold IntKind.Fits
  omega

/-- A count that takes a sum out of the type is followed by no count that leads back. -/
theorem not_rebounds_count (d : Delta) (p q : Pool) (m : Model) :
    ¬Amount.kind.Rebounds (d.amount m + p.count m) (q.count m) := by
  have hd := d.fits_amount m
  unfold IntKind.Rebounds IntKind.Fits at *
  omega

theorem regroups_delta_first (d : Delta) (p q : Pool) : d.Regroups (ofPool p) (ofPool q) := by
  rw [regroups_iff]
  intro m
  rw [amount_ofPool, amount_ofPool]
  exact ⟨not_rebounds_count d p q m, IntKind.not_rebounds_of_fits (fits_count_add_count p q m)⟩

theorem regroups_delta_between (d : Delta) (p q : Pool) : (ofPool p).Regroups d (ofPool q) := by
  rw [regroups_iff]
  intro m
  rw [amount_ofPool, amount_ofPool, Int.add_comm (p.count m)]
  exact ⟨not_rebounds_count d p q m, not_rebounds_count d q p m⟩

theorem regroups_delta_last (d : Delta) (p q : Pool) : (ofPool p).Regroups (ofPool q) d := by
  rw [regroups_iff]
  intro m
  rw [amount_ofPool, amount_ofPool, Int.add_comm (q.count m)]
  exact ⟨IntKind.not_rebounds_of_fits (fits_count_add_count p q m), not_rebounds_count d q p m⟩

/-! ## The laws of addition -/

/-- **Addition is commutative, and it is associative up to clamps.** Three deltas may be regrouped
exactly where no inner sum leaves the type of amounts so that the third delta leads back into it,
and a delta may be regrouped with any two pools. -/
theorem sum_comm_assoc_iff :
    (∀ a b : Delta, a.sum b = b.sum a) ∧
    (∀ a b c : Delta, (a.sum b).sum c = a.sum (b.sum c) ↔
      ∀ m, ¬Amount.kind.Rebounds (a.amount m + b.amount m) (c.amount m) ∧
        ¬Amount.kind.Rebounds (b.amount m + c.amount m) (a.amount m)) ∧
    ∀ (d : Delta) (p q : Pool),
      (d.sum (ofPool p)).sum (ofPool q) = d.sum ((ofPool p).sum (ofPool q)) ∧
      ((ofPool p).sum d).sum (ofPool q) = (ofPool p).sum (d.sum (ofPool q)) ∧
      ((ofPool p).sum (ofPool q)).sum d = (ofPool p).sum ((ofPool q).sum d) :=
  ⟨sum_comm, fun _ _ _ => regroups_iff, fun d p q =>
    ⟨regroups_delta_first d p q, regroups_delta_between d p q, regroups_delta_last d p q⟩⟩

/-- A sum that cannot be regrouped. One unit more than the greatest amount is clamped to that
amount, so that one unit less is left when a unit is taken away again. -/
theorem not_sum_assoc : ¬((∀ a b : Delta, a.sum b = b.sum a) ∧
    ∀ a b c : Delta, (a.sum b).sum c = a.sum (b.sum c)) := by
  rintro ⟨-, hassoc⟩
  let camera : Model := ⟨"camera"⟩
  have hunits := hassoc (ofEntries [(camera, 9223372036854775807)])
    (ofPool (Pool.ofEntries [(camera, 1)])) (ofEntries [(camera, -1)])
  exact absurd hunits (by decide +kernel)

end Provision.Delta
