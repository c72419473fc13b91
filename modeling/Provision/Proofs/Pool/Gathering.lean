import Provision.Proofs.Pool.Counts
import Provision.Proofs.Pool.Merging

/-!
# Merging as gathering entries

Pools can be put together in two ways. They are merged as deltas, where sums of amounts are clamped
at the ends of a wide type and cut at the ceiling of counts at the end. Or their entries are
gathered in a pool, where every count is cut as soon as it goes over the ceiling. Both come to the
exact sum of the counts, cut once, so that pools may be merged in any order and some of them
beforehand.

## Main definitions

* `Pool.gather`: the pool of all entries of several pools.
* `MergePlan`: merges of pools that have been merged themselves.

## Main results

* `Pool.merge_eq_gather`: merging is gathering.
* `MergePlan.run_eq_gather`: what a plan comes to depends on the pools in it only.
* `Pool.merge_exact`: both of these, with the models and counts that result.
-/

namespace Provision

namespace Pool

/-! ## Gathered entries -/

/-- The pool of the entries of several pools, added one after the other. -/
def gather (pools : List Pool) : Pool := ofEntries (pools.flatMap toList)

theorem mem_models_gather {pools : List Pool} {m : Model} :
    m ∈ (gather pools).models ↔ ∃ p ∈ pools, m ∈ p.models := by
  rw [gather, mem_models_ofEntries, List.map_flatMap, List.mem_flatMap]
  simp only [← map_fst_toList]

theorem count_gather (pools : List Pool) (m : Model) :
    (gather pools).count m = Min.min (pools.map (·.count m)).sum Count.ceiling := by
  have hsum : ((pools.flatMap toList).map fun e => if e.1 = m then e.2 else 0).sum =
      (pools.map (·.count m)).sum := by
    induction pools with
    | nil => rfl
    | cons p rest ih =>
      rw [List.flatMap_cons, List.map_append, List.sum_append, sum_ite_toList, ih, List.map_cons,
        List.sum_cons]
  rw [gather, count_ofEntries, hsum]

/-- The entries of the pools may as well be added pool after pool. -/
theorem foldl_addAll_eq_gather (pools : List Pool) :
    pools.foldl (fun q p => q.addAll p.toList) .empty = gather pools := by
  rw [gather, ofEntries, addAll, List.foldl_flatMap]
  rfl

theorem gather_singleton (p : Pool) : gather [p] = p := by
  apply ext_models
  · simp [mem_models_gather]
  · intro m
    simp [count_gather, p.count_le_ceiling m]

theorem gather_perm {pools pools' : List Pool} (h : pools.Perm pools') :
    gather pools = gather pools' := by
  apply ext_models
  · intro m
    simp only [mem_models_gather, h.mem_iff]
  · intro m
    rw [count_gather, count_gather, (h.map (·.count m)).sum_eq]

/-- Pools that are gathered from others bring the same counts, cut or not. -/
theorem gather_map_gather {α : Type} (members : α → List Pool) (groups : List α) :
    gather (groups.map fun g => gather (members g)) = gather (groups.flatMap members) := by
  apply ext_models
  · intro m
    simp only [mem_models_gather, List.mem_map, List.mem_flatMap]
    constructor
    · rintro ⟨_, ⟨g, hg, rfl⟩, hm⟩
      obtain ⟨p, hp, hmp⟩ := mem_models_gather.mp hm
      exact ⟨p, ⟨g, hg, hp⟩, hmp⟩
    · rintro ⟨p, ⟨g, hg, hp⟩, hmp⟩
      exact ⟨_, ⟨g, hg, rfl⟩, mem_models_gather.mpr ⟨p, hp, hmp⟩⟩
  · intro m
    have hflat : ((groups.flatMap members).map (·.count m)).sum =
        (groups.map fun g => ((members g).map (·.count m)).sum).sum := by
      induction groups with
      | nil => rfl
      | cons g rest ih => simp [ih]
    rw [count_gather, count_gather, hflat, List.map_map]
    refine min_sum_congr fun g _ => ?_
    rw [Function.comp_apply, count_gather, Nat.min_assoc, Nat.min_self]

/-! ## Merged pools -/

/-- **Merging is gathering**, and it never fails. -/
theorem merge_eq_gather (pools : List Pool) : merge pools = .ok (gather pools) := by
  obtain ⟨r, hr⟩ := exists_merge pools
  rw [hr]
  refine congrArg Except.ok (ext_models (fun m => ?_) fun m => ?_)
  · rw [mem_models_merge hr, mem_models_gather]
  · rw [count_merge hr, count_gather]

end Pool

/-! ## Plans of merges -/

/-- A plan for merging pools: a pool as it is, or the merge of what other plans come to. -/
inductive MergePlan where
  | pool (p : Pool)
  | merged (parts : List MergePlan)

namespace MergePlan

mutual

/-- The pools of a plan, from left to right. -/
def pools : MergePlan → List Pool
  | pool p => [p]
  | merged parts => allPools parts

/-- The pools of a list of plans. -/
def allPools : List MergePlan → List Pool
  | [] => []
  | part :: rest => part.pools ++ allPools rest

end

mutual

/-- Carry out a plan, the inner merges first. -/
def run : MergePlan → Except PoolError Pool
  | pool p => .ok p
  | merged parts => do Pool.merge (← runAll parts)

/-- Carry out a list of plans. -/
def runAll : List MergePlan → Except PoolError (List Pool)
  | [] => .ok []
  | part :: rest => do return (← part.run) :: (← runAll rest)

end

theorem allPools_eq (parts : List MergePlan) : allPools parts = parts.flatMap pools := by
  induction parts with
  | nil => rfl
  | cons part rest ih => rw [allPools, List.flatMap_cons, ih]

mutual

/-- **What a plan comes to depends on the pools in it only.** -/
theorem run_eq_gather : ∀ plan : MergePlan, plan.run = .ok (Pool.gather plan.pools)
  | pool p => by rw [run, pools, Pool.gather_singleton]
  | merged parts => by
    rw [run, runAll_eq_gather parts, pools, allPools_eq, ← Pool.gather_map_gather]
    exact Pool.merge_eq_gather _

theorem runAll_eq_gather :
    ∀ parts : List MergePlan, runAll parts = .ok (parts.map fun part => Pool.gather part.pools)
  | [] => rfl
  | part :: rest => by
    rw [runAll, run_eq_gather part, runAll_eq_gather rest]
    rfl

end

end MergePlan

namespace Pool

/-- **Merging accumulates exactly.** It never fails. The merged pool lists the models of all pools
with the exact sums of their counts, cut at the ceiling, and it is the pool of all their entries. It
is the same for the pools in any order, some or all of them merged beforehand. -/
theorem merge_exact :
    (∀ pools : List Pool, ∃ r, merge pools = .ok r ∧
      (∀ m, m ∈ r.models ↔ ∃ p ∈ pools, m ∈ p.models) ∧
      (∀ m, r.count m = Min.min (pools.map (·.count m)).sum Count.ceiling) ∧
      ofEntries (pools.flatMap toList) = r ∧
      pools.foldl (fun q p => q.addAll p.toList) .empty = r) ∧
    (∀ pools pools' : List Pool, pools.Perm pools' → merge pools = merge pools') ∧
    ∀ (plan : MergePlan) (pools : List Pool), plan.pools.Perm pools → plan.run = merge pools := by
  refine ⟨fun pools => ?_, fun pools pools' h => ?_, fun plan pools h => ?_⟩
  · exact ⟨gather pools, merge_eq_gather pools, fun _ => mem_models_gather, count_gather pools, rfl,
      foldl_addAll_eq_gather pools⟩
  · rw [merge_eq_gather, merge_eq_gather, gather_perm h]
  · rw [plan.run_eq_gather, merge_eq_gather, gather_perm h]

/-- All cameras that can be counted, one more in a pool that lists an arm without a unit of it, and
no camera. The count stays at the ceiling whatever is merged first, and the arm stays listed. -/
theorem merge_exact_ceiling :
    let camera : Model := ⟨"camera"⟩
    let arm : Model := ⟨"arm"⟩
    let full := Pool.ofEntries [(camera, Count.ceiling)]
    let more := Pool.ofEntries [(arm, 0), (camera, 1)]
    let spent := Pool.ofEntries [(camera, 0)]
    let plan : MergePlan := .merged [.merged [.pool spent, .pool more], .merged [], .pool full]
    [spent, more, full].Perm [full, more, spent] ∧ plan.pools.Perm [full, more, spent] ∧
      merge [full, more, spent] = .ok (.ofEntries [(arm, 0), (camera, Count.ceiling)]) ∧
      merge [spent, more, full] = merge [full, more, spent] ∧
      plan.run = merge [full, more, spent] := by
  intro camera arm full more spent plan
  have hperm : [spent, more, full].Perm [full, more, spent] :=
    List.reverse_perm [full, more, spent]
  have hmerge : merge [full, more, spent] =
      .ok (.ofEntries [(arm, 0), (camera, Count.ceiling)]) := by decide +kernel
  exact ⟨hperm, hperm, hmerge, merge_exact.2.1 _ _ hperm, merge_exact.2.2 plan _ hperm⟩

end Pool

end Provision
