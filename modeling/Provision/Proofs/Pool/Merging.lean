import Mathlib.Algebra.BigOperators.Group.List.Basic
import Provision.Proofs.Pool.Amounts
import Provision.Proofs.Saturating

/-!
# Merged pools

Pools are merged as deltas: their amounts are added up one pool after the other, each sum is clamped
to the type of amounts, and at the end what is left is cut at the ceiling of counts. Counts are not
negative, so that a sum that has left the type stays at the end of it, and the cuts come to one.

## Main results

* `Pool.exists_merge`: merging never fails.
* `Pool.mem_models_merge`: every model listed in any of the pools is listed afterwards.
* `Pool.count_merge`: its count is the exact sum of its counts, cut at the ceiling.
-/

namespace Provision

/-- What an amount is cut to as a count does not depend on its having been clamped. -/
theorem Amount.min_toNat_clamp (n : Nat) :
    Min.min (kind.clamp n).toNat Count.ceiling = Min.min n Count.ceiling := by
  have hmin := kind.min_nonpos
  have hmax : (Count.ceiling : Int) ≤ kind.max := by decide
  simp only [IntKind.clamp]
  split_ifs <;> omega

/-! ## Sums of pools -/

namespace Delta

theorem mem_keys_foldl_sum {pools : List Pool} {d : Delta} {m : Model} :
    m ∈ (pools.foldl (fun d p => d.sum (.ofPool p)) d).keys ↔
      m ∈ d.keys ∨ ∃ p ∈ pools, m ∈ p.models := by
  induction pools generalizing d with
  | nil => simp
  | cons p rest ih =>
    rw [List.foldl_cons, ih, mem_keys_sum, mem_keys_ofPool, List.exists_mem_cons_iff, or_assoc]

/-- Pools are added one after the other as if at once, where no amount is negative to start with. -/
theorem amount_foldl_sum (pools : List Pool) {d : Delta} {m : Model} (hd : 0 ≤ d.amount m) :
    (pools.foldl (fun d p => d.sum (.ofPool p)) d).amount m =
      Amount.kind.clamp (d.amount m + (pools.map (·.count m)).sum) := by
  induction pools generalizing d with
  | nil => simp [IntKind.clamp_of_fits (d.fits_amount m)]
  | cons p rest ih =>
    have hsum : 0 ≤ d.amount m + p.count m := Int.add_nonneg hd (Int.natCast_nonneg _)
    have hamount : (d.sum (.ofPool p)).amount m = Amount.kind.clamp (d.amount m + p.count m) := by
      rw [amount_sum, amount_ofPool, IntKind.satAdd]
    have hnonneg : 0 ≤ (d.sum (.ofPool p)).amount m := hamount ▸ IntKind.clamp_nonneg hsum
    rw [List.foldl_cons, ih hnonneg, hamount,
      IntKind.clamp_clamp_add (IntKind.not_rebounds_of_nonneg hsum (Int.natCast_nonneg _)),
      List.map_cons, List.sum_cons, Int.natCast_add, Int.add_assoc]

theorem amount_foldl_sum_empty (pools : List Pool) (m : Model) :
    (pools.foldl (fun d p => d.sum (.ofPool p)) empty).amount m =
      Amount.kind.clamp ((pools.map (·.count m)).sum : Nat) := by
  have hempty : empty.amount m = 0 := rfl
  rw [amount_foldl_sum pools (Int.le_of_eq hempty.symm), hempty, Int.zero_add]

end Delta

/-! ## Merging -/

namespace Pool

theorem exists_merge (pools : List Pool) : ∃ r, merge pools = .ok r := by
  apply Delta.exists_toPool_of_nonneg
  intro m
  rw [Delta.amount_foldl_sum_empty]
  exact IntKind.clamp_nonneg (Int.natCast_nonneg _)

theorem mem_models_merge {pools : List Pool} {r : Pool} (h : merge pools = .ok r) {m : Model} :
    m ∈ r.models ↔ ∃ p ∈ pools, m ∈ p.models := by
  rw [Delta.mem_models_toPool h, Delta.mem_keys_foldl_sum]
  exact or_iff_right List.not_mem_nil

/-- **Merging adds up exactly**, with one cut at the end. -/
theorem count_merge {pools : List Pool} {r : Pool} (h : merge pools = .ok r) (m : Model) :
    r.count m = Min.min (pools.map (·.count m)).sum Count.ceiling := by
  rw [Delta.count_toPool h, Delta.amount_foldl_sum_empty, Amount.min_toNat_clamp]

end Pool

end Provision
