import Provision.Pool.Delta
import Provision.Proofs.Pool.Lattice

/-!
# Compositions of sets of pools

A set of pools stands for a condition on pools: that one of the members is a part of the pool. The
compositions of two sets stand for both conditions together. Pools that differ in entries of zero
units are different members, and an empty set, which no pool meets, adds no condition when it is
composed.

## Main definitions

* `Pool.Covers q s`: some member of the set is a part of the pool.

## Main results

* `Pool.maxCompositions_conjoins`: composition is commutative and associative, the empty set is its
  identity, and otherwise it means conjunction.
-/

namespace Provision

namespace Pool

/-! ## The greater of two pools -/

theorem max_comm (p q : Pool) : p.max q = q.max p := by
  refine Table.ext_get? fun m => ?_
  rw [get?_max, get?_max]
  exact (Option.commutative_merge Count.greater).comm _ _

theorem max_assoc (p q r : Pool) : (p.max q).max r = p.max (q.max r) := by
  refine Table.ext_get? fun m => ?_
  simp only [get?_max]
  exact (Option.associative_merge Count.greater).assoc _ _ _

/-! ## Compositions -/

section
variable {s t u : KeySet Pool} {q : Pool}

theorem maxCompositions_empty_left (t : KeySet Pool) : maxCompositions .empty t = t := rfl

theorem maxCompositions_empty_right (s : KeySet Pool) : maxCompositions s .empty = s := by
  rw [maxCompositions]
  split
  · next h => exact (Table.isEmpty_iff.mp h).symm
  · rfl

theorem mem_maxCompositions (hs : s ≠ .empty) (ht : t ≠ .empty) {r : Pool} :
    r ∈ (maxCompositions s t).toList ↔ ∃ p ∈ s.toList, ∃ q ∈ t.toList, p.max q = r := by
  rw [maxCompositions, if_neg (Table.isEmpty_iff.not.mpr hs), if_neg (Table.isEmpty_iff.not.mpr ht),
    KeySet.mem_ofList]
  simp

theorem maxCompositions_ne_empty (hs : s ≠ .empty) (ht : t ≠ .empty) :
    maxCompositions s t ≠ .empty := by
  obtain ⟨p, hp⟩ := KeySet.ne_empty_iff.mp hs
  obtain ⟨q, hq⟩ := KeySet.ne_empty_iff.mp ht
  exact KeySet.ne_empty_iff.mpr ⟨p.max q, (mem_maxCompositions hs ht).mpr ⟨p, hp, q, hq, rfl⟩⟩

theorem maxCompositions_comm (s t : KeySet Pool) : maxCompositions s t = maxCompositions t s := by
  by_cases hs : s = .empty
  · rw [hs, maxCompositions_empty_left, maxCompositions_empty_right]
  by_cases ht : t = .empty
  · rw [ht, maxCompositions_empty_left, maxCompositions_empty_right]
  refine KeySet.ext_mem fun r => ?_
  rw [mem_maxCompositions hs ht, mem_maxCompositions ht hs]
  constructor
  · rintro ⟨p, hp, q, hq, rfl⟩
    exact ⟨q, hq, p, hp, max_comm q p⟩
  · rintro ⟨q, hq, p, hp, rfl⟩
    exact ⟨p, hp, q, hq, max_comm p q⟩

theorem maxCompositions_assoc (s t u : KeySet Pool) :
    maxCompositions (maxCompositions s t) u = maxCompositions s (maxCompositions t u) := by
  by_cases hs : s = .empty
  · rw [hs, maxCompositions_empty_left, maxCompositions_empty_left]
  by_cases ht : t = .empty
  · rw [ht, maxCompositions_empty_left, maxCompositions_empty_right]
  by_cases hu : u = .empty
  · rw [hu, maxCompositions_empty_right, maxCompositions_empty_right]
  refine KeySet.ext_mem fun x => ?_
  rw [mem_maxCompositions (maxCompositions_ne_empty hs ht) hu,
    mem_maxCompositions hs (maxCompositions_ne_empty ht hu)]
  simp only [mem_maxCompositions hs ht, mem_maxCompositions ht hu]
  constructor
  · rintro ⟨_, ⟨p, hp, q, hq, rfl⟩, r, hr, rfl⟩
    exact ⟨p, hp, q.max r, ⟨q, hq, r, hr, rfl⟩, (max_assoc p q r).symm⟩
  · rintro ⟨p, hp, _, ⟨q, hq, r, hr, rfl⟩, rfl⟩
    exact ⟨p.max q, ⟨p, hp, q, hq, rfl⟩, r, hr, max_assoc p q r⟩

/-! ## Conjunction -/

/-- Some member of the set is a part of the pool. -/
def Covers (q : Pool) (s : KeySet Pool) : Prop := ∃ p ∈ s.toList, p.isSubset q = true

theorem covers_maxCompositions_iff (hs : s ≠ .empty) (ht : t ≠ .empty) :
    q.Covers (maxCompositions s t) ↔ q.Covers s ∧ q.Covers t := by
  simp only [Covers, mem_maxCompositions hs ht]
  constructor
  · rintro ⟨_, ⟨a, ha, b, hb, rfl⟩, h⟩
    obtain ⟨hqa, hqb⟩ := isSubset_max_iff.mp h
    exact ⟨⟨a, ha, hqa⟩, b, hb, hqb⟩
  · rintro ⟨⟨a, ha, hqa⟩, b, hb, hqb⟩
    exact ⟨a.max b, ⟨a, ha, b, hb, rfl⟩, isSubset_max_iff.mpr ⟨hqa, hqb⟩⟩

end

/-- **Composed sets mean conjunction.** Composition is commutative and associative, and the empty
set is its identity. A pool is covered by the compositions of two sets that are not empty just when
it is covered by both sets. -/
theorem maxCompositions_conjoins :
    (∀ s t, maxCompositions s t = maxCompositions t s) ∧
    (∀ s t u, maxCompositions (maxCompositions s t) u = maxCompositions s (maxCompositions t u)) ∧
    (∀ s, maxCompositions .empty s = s ∧ maxCompositions s .empty = s) ∧
    ∀ s t, s ≠ .empty → t ≠ .empty → ∀ q : Pool,
      q.Covers (maxCompositions s t) ↔ q.Covers s ∧ q.Covers t :=
  ⟨maxCompositions_comm, maxCompositions_assoc,
    fun s => ⟨maxCompositions_empty_left s, maxCompositions_empty_right s⟩,
    fun _ _ hs ht _ => covers_maxCompositions_iff hs ht⟩

/-- A camera or an arm, and besides four wheels. The member with the arm lists no unit of a camera,
and so does its composition; a pool without that entry covers them all the same. -/
theorem maxCompositions_conjoins_rover :
    let camera : Model := ⟨"camera"⟩
    let arm : Model := ⟨"arm"⟩
    let wheel : Model := ⟨"wheel"⟩
    let s : KeySet Pool :=
      .ofList [.ofEntries [(camera, 1)], .ofEntries [(arm, 1), (camera, 0)]]
    let t : KeySet Pool := .ofList [.ofEntries [(wheel, 4)]]
    let q := Pool.ofEntries [(arm, 2), (wheel, 4)]
    s ≠ .empty ∧ t ≠ .empty ∧
      (maxCompositions t s).toList = [.ofEntries [(arm, 1), (camera, 0), (wheel, 4)],
        .ofEntries [(camera, 1), (wheel, 4)]] ∧
      q.Covers s ∧ q.Covers t ∧ q.Covers (maxCompositions t s) := by
  intro camera arm wheel s t q
  have hs : s ≠ .empty := by decide
  have ht : t ≠ .empty := by decide
  have hmembers : (maxCompositions t s).toList = [.ofEntries [(arm, 1), (camera, 0), (wheel, 4)],
      .ofEntries [(camera, 1), (wheel, 4)]] := by decide
  have hqs : q.Covers s := ⟨.ofEntries [(arm, 1), (camera, 0)], by decide, by decide⟩
  have hqt : q.Covers t := ⟨.ofEntries [(wheel, 4)], by decide, by decide⟩
  have hconj := maxCompositions_conjoins.2.2.2 t s ht hs q
  exact ⟨hs, ht, hmembers, hqs, hqt, hconj.mpr ⟨hqt, hqs⟩⟩

end Pool

end Provision
