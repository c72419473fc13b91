import Provision.Support.Saturation
import Provision.Proofs.Pool.Counts
import Provision.Proofs.Supply.Transport

/-!
# What a pool makes available

The products and sums behind availability are cut at the threshold one by one. All cuts together
come to one: a pool makes available the exact number of units of a model that its own units offer,
cut at the end.

## Main definitions

* `Taxonomy.perUnit t m x`: the units of `x` that one unit of `m` offers.
* `Taxonomy.supplied t p x`: the units of `x` that a pool offers, without a cut.
-/

namespace Provision

namespace Taxonomy

/-! ## Offers -/

/-- How many units of a model one unit of another one offers. -/
def perUnit (t : Taxonomy) (m x : Model) : Nat :=
  ((t.unitOffers m).map fun offer => if offer.1 = x then offer.2 else 0).sum

/-- The models of which one unit of a model offers any. -/
def offered (t : Taxonomy) (m : Model) : Finset Model := ((t.unitOffers m).map (·.1)).toFinset

theorem mem_offered_of_perUnit {t : Taxonomy} {m x : Model} (h : t.perUnit m x ≠ 0) :
    x ∈ t.offered m := by
  by_contra hnot
  refine h (List.sum_eq_zero fun k hk => ?_)
  obtain ⟨offer, hoffer, rfl⟩ := List.mem_map.mp hk
  refine if_neg fun heq => hnot ?_
  exact List.mem_toFinset.mpr (List.mem_map.mpr ⟨offer, hoffer, heq⟩)

/-- A unit serves a row with everything it offers that fits the row. -/
theorem serves_eq_sum {t : Taxonomy} {m : Model} {S : Finset Model} (hS : t.offered m ⊆ S)
    (required : Model) :
    t.serves m required = ∑ x ∈ S, if t.isSubtype x required then t.perUnit m x else 0 := by
  have hmem : ∀ offer ∈ t.unitOffers m, offer.1 ∈ S := fun offer hoffer =>
    hS (List.mem_toFinset.mpr (List.mem_map_of_mem hoffer))
  rw [serves, sumOf_eq_sum, sum_map_filter]
  simp only [perUnit]
  generalize t.unitOffers m = offers at hmem ⊢
  induction offers with
  | nil => simp
  | cons offer rest ih =>
    rw [List.map_cons, List.sum_cons, ih fun o ho => hmem o (List.mem_cons_of_mem offer ho)]
    -- Of the new terms, only the one of the model offered is not zero.
    have hfirst : (if t.isSubtype offer.1 required then offer.2 else 0) =
        ∑ x ∈ S, if x = offer.1 then (if t.isSubtype x required then offer.2 else 0) else 0 := by
      rw [Finset.sum_ite_eq_of_mem' _ _ _ (hmem offer List.mem_cons_self)]
    rw [hfirst, ← Finset.sum_add_distrib]
    refine Finset.sum_congr rfl fun x _ => ?_
    rw [List.map_cons, List.sum_cons]
    by_cases hx : x = offer.1
    · subst hx
      by_cases hfit : t.isSubtype offer.1 required = true <;> simp [hfit]
    · simp [hx, Ne.symm hx]

/-- What a number of units offers adds up to the number for one unit, many times. -/
theorem min_maxSum_offers (t : Taxonomy) (m : Model) (k : Nat) (x : Model) :
    min (Bound.maxSum (t.offers m k) x) Bound.threshold =
      min (t.perUnit m x * k) Bound.threshold := by
  rw [perUnit, ← List.sum_map_mul_right, Bound.maxSum, offers, List.map_map]
  refine min_sum_congr fun offer _ => ?_
  by_cases hx : offer.1 = x
  · simp [Bound.upTo, hx]
  · simp [Bound.upTo, hx]

/-- How many units of a model the units of a pool offer together. -/
def supplied (t : Taxonomy) (p : Pool) (x : Model) : Nat :=
  (p.toList.map fun e => t.perUnit e.1 x * e.2).sum

theorem supplied_eq_sum (t : Taxonomy) {p : Pool} {S : Finset Model}
    (hS : ∀ m, p.count m ≠ 0 → m ∈ S) (x : Model) :
    t.supplied p x = ∑ m ∈ S, t.perUnit m x * p.count m :=
  Pool.sum_toList hS (fun m k => t.perUnit m x * k) fun _ => Nat.mul_zero _

/-- A larger pool offers at least as much. -/
theorem supplied_mono (t : Taxonomy) {p q : Pool} (h : ∀ m, p.count m ≤ q.count m) (x : Model) :
    t.supplied p x ≤ t.supplied q x := by
  have hq : ∀ m, q.count m ≠ 0 → m ∈ q.keys.toFinset := fun m hm => Pool.mem_toFinset_keys hm
  have hp : ∀ m, p.count m ≠ 0 → m ∈ q.keys.toFinset := fun m hm =>
    hq m (Nat.ne_of_gt (Nat.lt_of_lt_of_le (Nat.pos_of_ne_zero hm) (h m)))
  rw [t.supplied_eq_sum hp, t.supplied_eq_sum hq]
  exact Finset.sum_le_sum fun m _ => Nat.mul_le_mul_left _ (h m)

/-- **Availability is exact.** For every model it lists the units that the pool offers, cut once. -/
theorem maxSum_availability (t : Taxonomy) (p : Pool) (x : Model) :
    Bound.maxSum (t.availability p) x = min (t.supplied p x) Bound.threshold := by
  have hcompact : t.supplied p.compact x = t.supplied p x := by
    have hS : ∀ m, p.count m ≠ 0 → m ∈ p.keys.toFinset := fun m hm => Pool.mem_toFinset_keys hm
    have hS' : ∀ m, p.compact.count m ≠ 0 → m ∈ p.keys.toFinset := fun m hm =>
      hS m (p.count_compact m ▸ hm)
    rw [t.supplied_eq_sum hS, t.supplied_eq_sum hS']
    simp only [Pool.count_compact]
  rw [availability, Bound.maxSum_accumulateByModel, Bound.maxSum_flatMap, ← hcompact, supplied]
  exact min_sum_congr fun e _ => t.min_maxSum_offers e.1 e.2 x

end Taxonomy

end Provision
