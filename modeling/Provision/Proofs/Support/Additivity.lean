import Provision.Proofs.Pool.Merging
import Provision.Proofs.Support.Availability

/-!
# Availability adds up

What a pool makes available of a model is the exact number of units that its own units and the
restrictions of their models come to, cut at the threshold once. Pools merged make available what
the lists of the single pools accumulate to. The counts of a merged pool are cut as well, but at a
ceiling above the threshold: where that cut takes anything away, a single unit offered for each of
the units left is enough to reach the threshold.

## Main definitions

* `Taxonomy.granted t m s`: the units of `s` that the restrictions of `m` grant to one unit of it.
* `Taxonomy.exactSupply t p s`: the units of `s` that a pool comes to, model by model.

## Main results

* `Taxonomy.mem_availability_iff`: what availability lists.
* `Taxonomy.exists_availability_merge`: any number of pools may be merged before or after.
* `Taxonomy.availability_additive`: availability is exact and additive.
-/

namespace Provision

namespace Taxonomy
variable (t : Taxonomy)

/-! ## The exact supply -/

/-- How many units of a model the restrictions of another one grant to each unit of it. -/
def granted (m s : Model) : Nat :=
  (((t.restrictionsOf m).filter fun r => r.model = s).map Restriction.grant).sum

/-- How many units of a model a pool comes to: every unit counts as itself and as what the
restrictions of its model grant. -/
def exactSupply (p : Pool) (s : Model) : Nat :=
  (p.models.map fun m => p.count m * ((if m = s then 1 else 0) + t.granted m s)).sum

theorem perUnit_eq (m s : Model) :
    t.perUnit m s = (if m = s then 1 else 0) + t.granted m s := by
  -- Offers of no units are left out, but they would add nothing.
  have hdrop : ∀ offers : List (Model × Nat),
      ((offers.filter fun offer => 0 < offer.2).map fun offer =>
        if offer.1 = s then offer.2 else 0).sum =
      (offers.map fun offer => if offer.1 = s then offer.2 else 0).sum := by
    intro offers
    rw [sum_map_filter]
    refine congrArg List.sum (List.map_congr_left fun offer _ => ?_)
    by_cases hpos : 0 < offer.2
    · simp [hpos]
    · simp [Nat.eq_zero_of_not_pos hpos]
  rw [perUnit, unitOffers, hdrop, List.map_cons, List.sum_cons, List.map_map, granted,
    sum_map_filter]
  simp [Function.comp_def]

theorem supplied_eq_exactSupply (p : Pool) (s : Model) : t.supplied p s = t.exactSupply p s := by
  rw [supplied, exactSupply, Pool.toList, Pool.models, Table.keys, List.map_map, List.map_map]
  refine congrArg List.sum (List.map_congr_left fun e he => ?_)
  rw [Function.comp_apply, Function.comp_apply, Pool.count_of_mem_entries he, t.perUnit_eq,
    Nat.mul_comm]

/-! ## What availability lists -/

theorem isOffer_of_mem_offers {m : Model} {k : Nat} (hk : 0 < k) {b : Bound}
    (hb : b ∈ t.offers m k) : b.IsOffer := by
  obtain ⟨offer, hoffer, rfl⟩ := List.mem_map.mp hb
  have hpos : 0 < offer.2 := of_decide_eq_true (List.mem_filter.mp hoffer).2
  exact Bound.isOffer_upTo (Nat.mul_pos hpos hk)

theorem isOffer_of_mem_flatMap {p : Pool} {b : Bound}
    (hb : b ∈ p.compact.toList.flatMap fun e => t.offers e.1 e.2) : b.IsOffer := by
  obtain ⟨e, he, hb⟩ := List.mem_flatMap.mp hb
  obtain ⟨⟨m, c⟩, hc, rfl⟩ := List.mem_map.mp he
  have hpos : 0 < c.toNat :=
    Pool.isCompact_iff.mp p.isCompact_compact m c (Table.mem_entries_iff.mp hc)
  exact t.isOffer_of_mem_offers hpos hb

/-- Availability lists an offer of every model that the pool comes to any units of. -/
theorem mem_availability_iff {p : Pool} {b : Bound} :
    b ∈ t.availability p ↔
      b.min = 0 ∧ 0 < b.max ∧ b.max = min (t.exactSupply p b.model) Bound.threshold := by
  have hsum := (Bound.maxSum_accumulateByModel _ b.model).symm.trans
    (t.maxSum_availability p b.model)
  rw [t.supplied_eq_exactSupply] at hsum
  rw [availability, Bound.mem_accumulateByModel,
    Bound.get?_merged (fun b => t.isOffer_of_mem_flatMap), ← hsum]
  generalize Bound.maxSum _ b.model = k
  rw [Option.ite_none_left_eq_some, Option.some.injEq]
  constructor
  · rintro ⟨hk, hb⟩
    have hoffer : (Bound.upTo b.model k).IsOffer := Bound.isOffer_upTo (Nat.pos_of_ne_zero hk)
    rw [hb] at hoffer
    exact ⟨hoffer.1, hoffer.2, (congrArg Bound.max hb).symm⟩
  · rintro ⟨hmin, hpos, hmax⟩
    have hk : k ≠ 0 := by
      rintro rfl
      rw [Nat.zero_min] at hmax
      omega
    exact ⟨hk, Bound.ext rfl hmin.symm hmax.symm⟩

theorem isOffer_of_mem_availability {p : Pool} {b : Bound} (hb : b ∈ t.availability p) :
    b.IsOffer :=
  have hspec := t.mem_availability_iff.mp hb
  ⟨hspec.1, hspec.2.1⟩

/-! ## Merged pools -/

/-- The ceiling of counts lies above the threshold, so that a cut at it does not show. -/
theorem min_mul_ceiling (w k : Nat) :
    min (w * min k Count.ceiling) Bound.threshold = min (w * k) Bound.threshold := by
  rcases Nat.eq_zero_or_pos w with rfl | hw
  · simp
  rcases Nat.le_total k Count.ceiling with hk | hk
  · rw [Nat.min_eq_left hk]
  · have hcut : Bound.threshold ≤ Count.ceiling := by decide
    have hceiling : Count.ceiling ≤ w * Count.ceiling := Nat.le_mul_of_pos_left _ hw
    have hle : w * Count.ceiling ≤ w * k := Nat.mul_le_mul_left w hk
    rw [Nat.min_eq_right hk]
    omega

theorem sum_supplied_eq_sum {pools : List Pool} {S : Finset Model}
    (hS : ∀ p ∈ pools, ∀ m, p.count m ≠ 0 → m ∈ S) (x : Model) :
    (pools.map fun p => t.supplied p x).sum =
      ∑ m ∈ S, t.perUnit m x * (pools.map (·.count m)).sum := by
  induction pools with
  | nil => simp
  | cons p rest ih =>
    obtain ⟨hp, hrest⟩ := List.forall_mem_cons.mp hS
    rw [List.map_cons, List.sum_cons, ih hrest, t.supplied_eq_sum hp, ← Finset.sum_add_distrib]
    refine Finset.sum_congr rfl fun m _ => ?_
    rw [List.map_cons, List.sum_cons, Nat.mul_add]

/-- A merged pool supplies what the single pools supply together. -/
theorem min_supplied_merge {pools : List Pool} {r : Pool} (h : Pool.merge pools = .ok r)
    (x : Model) : min (t.supplied r x) Bound.threshold =
      min (pools.map fun p => t.supplied p x).sum Bound.threshold := by
  -- One set of models that has all units of all the pools.
  let S : Finset Model := r.keys.toFinset ∪ (pools.flatMap Pool.models).toFinset
  have hr : ∀ m, r.count m ≠ 0 → m ∈ S := fun m hm =>
    Finset.mem_union_left _ (Pool.mem_toFinset_keys hm)
  have hpools : ∀ p ∈ pools, ∀ m, p.count m ≠ 0 → m ∈ S := fun p hp m hm =>
    Finset.mem_union_right _ (List.mem_toFinset.mpr (List.mem_flatMap.mpr
      ⟨p, hp, List.mem_toFinset.mp (Pool.mem_toFinset_keys hm)⟩))
  rw [t.sum_supplied_eq_sum hpools, t.supplied_eq_sum hr, ← Finset.sum_map_toList,
    ← Finset.sum_map_toList]
  refine min_sum_congr fun m _ => ?_
  rw [Pool.count_merge h, min_mul_ceiling]

/-- **Pools may be merged before or after**: what they make available together is accumulated from
what each of them makes available. -/
theorem exists_availability_merge (pools : List Pool) :
    ∃ r, Pool.merge pools = .ok r ∧
      t.availability r = Bound.accumulateByModel (pools.flatMap t.availability) := by
  obtain ⟨r, hr⟩ := Pool.exists_merge pools
  refine ⟨r, hr, ?_⟩
  refine Bound.accumulateByModel_congr (fun b => t.isOffer_of_mem_flatMap) (fun b hb => ?_)
    fun x => ?_
  · obtain ⟨p, -, hb⟩ := List.mem_flatMap.mp hb
    exact t.isOffer_of_mem_availability hb
  · calc min (Bound.maxSum (r.compact.toList.flatMap fun e => t.offers e.1 e.2) x) Bound.threshold
        = min (t.supplied r x) Bound.threshold := by
          rw [← t.maxSum_availability, availability, Bound.maxSum_accumulateByModel]
      _ = min (pools.map fun p => t.supplied p x).sum Bound.threshold :=
          t.min_supplied_merge hr x
      _ = min (pools.map fun p => Bound.maxSum (t.availability p) x).sum Bound.threshold := by
          refine min_sum_congr fun p _ => ?_
          rw [t.maxSum_availability, Nat.min_assoc, Nat.min_self]
      _ = min (Bound.maxSum (pools.flatMap t.availability) x) Bound.threshold := by
          rw [Bound.maxSum_flatMap]

/-- **Availability is exact and additive.** It lists, in the order of models and each model once,
the bounds from zero to the exact supply of the pool cut at the threshold, where that is not zero.
Two pools merged make available what their two lists accumulate to, also where counts reach the
ceiling. -/
theorem availability_additive (p q : Pool) :
    ((t.availability p).Pairwise fun a b => compare a.model b.model = .lt) ∧
    (∀ b, b ∈ t.availability p ↔
      b.min = 0 ∧ 0 < b.max ∧ b.max = min (t.exactSupply p b.model) Bound.threshold) ∧
    ∃ r, Pool.merge [p, q] = .ok r ∧
      t.availability r = Bound.accumulateByModel (t.availability p ++ t.availability q) := by
  refine ⟨Bound.sorted_accumulateByModel _, fun b => t.mem_availability_iff, ?_⟩
  obtain ⟨r, hr, heq⟩ := t.exists_availability_merge [p, q]
  refine ⟨r, hr, ?_⟩
  rw [heq, List.flatMap_cons, List.flatMap_cons, List.flatMap_nil, List.append_nil]

end Taxonomy

end Provision
