import Provision.Proofs.Support.Saturation

/-!
# Saturation at the threshold

The saturation of a requirement is computed from what one unit offers, without a cut, but all that a
pool makes available of a model is cut at the threshold. A row that is to be covered by units of a
model beyond the threshold is not covered by them, and the saturation may then be too low. It is
right as long as no cut takes away units that the rows could use.

## Main definitions

* `Pool.clipped p`: the pool with its counts cut at the threshold.
-/

namespace Provision

/-- The pool with its counts cut at the threshold of bounds. -/
def Pool.clipped (p : Pool) : Pool :=
  p.mapValues fun _ c => .ofNat (Min.min c.toNat Bound.threshold)

@[simp] theorem Pool.count_clipped (p : Pool) (m : Model) :
    p.clipped.count m = Min.min (p.count m) Bound.threshold := by
  rw [count, count, clipped, Table.get?_mapValues]
  cases p.get? m with
  | none => rfl
  | some c => exact Nat.min_eq_left (Nat.le_trans (Nat.min_le_right _ _) (by decide))

namespace Taxonomy
variable {t : Taxonomy} {rows : List Bound} {p q : Pool}

/-- Units beyond the threshold of counts are not missed where the supply is cut at the threshold. -/
theorem min_supplied_clipped (x : Model) :
    min (t.supplied p.clipped x) Bound.threshold = min (t.supplied p x) Bound.threshold := by
  rw [supplied, supplied, Pool.toList, Pool.toList, Pool.clipped, Table.mapValues, List.map_map,
    List.map_map, List.map_map]
  refine min_sum_congr fun e _ => ?_
  have hcount : min (min e.2.toNat Bound.threshold) Count.ceiling =
      min e.2.toNat Bound.threshold :=
    Nat.min_eq_left (Nat.le_trans (Nat.min_le_right _ _) (by decide))
  simp only [Function.comp_apply, Count.toNat_ofNat, hcount]
  rcases Nat.eq_zero_or_pos (t.perUnit e.1 x) with hzero | hpos
  · rw [hzero, Nat.zero_mul, Nat.zero_mul]
  · rcases Nat.le_total e.2.toNat Bound.threshold with hle | hge
    · rw [Nat.min_eq_left hle]
    · -- Either product reaches the threshold.
      have hmul := Nat.le_mul_of_pos_left e.2.toNat hpos
      rw [Nat.min_eq_right hge, Nat.min_eq_right (Nat.le_mul_of_pos_left _ hpos),
        Nat.min_eq_right (Nat.le_trans hge hmul)]

/-- A part of a pool that has all units of a model up to the threshold, or enough of them for all
rows, meets what the pool meets, if no cut takes away units that the rows could use. -/
theorem exists_meets_of_kept (hle : ∀ m, q.count m ≤ p.count m)
    (hkept : ∀ m, q.count m < min (p.count m) Bound.threshold → t.enough rows m ≤ q.count m)
    (hcut : ∀ x, t.supplied p x ≤ Bound.threshold ∨ t.asked rows x ≤ Bound.threshold)
    (h : ∃ u, t.Meets rows (t.availability p) u) : ∃ u, t.Meets rows (t.availability q) u := by
  rw [exists_meets_availability_iff] at h ⊢
  have hpart : t.Spares rows p.clipped q.clipped := by
    refine ⟨fun m => ?_, fun m hlt => ?_⟩
    · rw [Pool.count_clipped, Pool.count_clipped]
      exact min_le_min_right _ (hle m)
    · rw [Pool.count_clipped, Pool.count_clipped] at hlt
      have henough := hkept m (by omega)
      rw [Pool.count_clipped]
      omega
  have hclipped : t.CanMeet rows (t.supplied p.clipped) := h.mono fun x => by
    rw [← min_supplied_clipped]
    exact Nat.min_le_left _ _
  have hq : t.CanMeet rows (t.supplied q) := (hpart.canMeet hclipped).mono fun x =>
    t.supplied_mono (fun m => q.count_clipped m ▸ Nat.min_le_left _ _) x
  refine (canMeet_min_iff fun x => ?_).mpr hq
  exact (hcut x).imp_left (Nat.le_trans (t.supplied_mono hle x))

/-- A pool that meets a requirement still meets it at the saturation, if no cut takes away units
that the rows could use. -/
theorem exists_meets_boundedBy_requirementSaturation
    (hcut : ∀ x, t.supplied p x ≤ Bound.threshold ∨ t.asked rows x ≤ Bound.threshold)
    (h : ∃ u, t.Meets rows (t.availability p) u) :
    ∃ u, t.Meets rows (t.availability (p.boundedBy (t.requirementSaturation rows p))) u := by
  by_cases hrows : ∃ row ∈ rows, 0 < row.min
  · refine exists_meets_of_kept (fun m => ?_) (fun m hlt => ?_) hcut h
    · rw [Pool.count_boundedBy]
      exact Nat.min_le_left _ _
    · rw [Pool.count_boundedBy] at hlt ⊢
      rw [count_requirementSaturation hrows (by omega)] at hlt ⊢
      omega
  · have hzero : ∀ row ∈ rows, row.min = 0 := fun row hrow =>
      Nat.eq_zero_of_not_pos fun hpos => hrows ⟨row, hrow, hpos⟩
    exact exists_meets_availability_iff.mpr (canMeet_of_min_eq_zero hzero _)

/-- **A pool supports a requirement if the part at its saturation does.** The converse holds as long
as no cut takes away units that the rows could use: for every model, the units that the pool offers
or those that the rows ask for stay below the threshold. -/
theorem supports_boundedBy_requirementSaturation (t : Taxonomy) (rows : List Bound) (p : Pool) :
    (t.supports rows (t.availability (p.boundedBy (t.requirementSaturation rows p))) = true →
        t.supports rows (t.availability p) = true) ∧
      ((∀ x, t.supplied p x ≤ Bound.threshold ∨ t.asked rows x ≤ Bound.threshold) →
        t.supports rows (t.availability p) =
          t.supports rows (t.availability (p.boundedBy (t.requirementSaturation rows p)))) := by
  have hmore : t.supports rows (t.availability (p.boundedBy (t.requirementSaturation rows p))) =
      true → t.supports rows (t.availability p) = true := by
    rw [supports_iff, supports_iff]
    refine exists_meets_mono fun m => ?_
    rw [Pool.count_boundedBy]
    exact Nat.min_le_left _ _
  refine ⟨hmore, fun hcut => ?_⟩
  rw [Bool.eq_iff_iff]
  refine ⟨fun h => ?_, hmore⟩
  rw [supports_iff] at h ⊢
  exact exists_meets_boundedBy_requirementSaturation hcut h

/-- Rovers that bring any number of cameras: one of four is enough for three cameras. -/
theorem supports_boundedBy_requirementSaturation_rovers :
    let rover : Model := ⟨"rover"⟩
    let camera : Model := ⟨"camera"⟩
    let t := Taxonomy.ofStatements [.restriction rover ⟨camera, 0, none⟩]
    let rows : List Bound := [⟨camera, 3, 3, by decide, by decide⟩]
    let p := Pool.ofEntries [(rover, 4)]
    p.boundedBy (t.requirementSaturation rows p) = .ofEntries [(rover, 1)] ∧
      (∀ x, t.supplied p x ≤ Bound.threshold ∨ t.asked rows x ≤ Bound.threshold) ∧
      t.supports rows (t.availability p) = true ∧
      t.supports rows (t.availability (.ofEntries [(rover, 1)])) = true := by
  intro rover camera t rows p
  have hpart : p.boundedBy (t.requirementSaturation rows p) = .ofEntries [(rover, 1)] := by
    decide +kernel
  have hcut : ∀ x, t.supplied p x ≤ Bound.threshold ∨ t.asked rows x ≤ Bound.threshold := fun x =>
    .inr (Nat.le_trans (asked_le_sum_min x) (by decide))
  have hsupports : t.supports rows (t.availability p) = true := by decide +kernel
  have heq := (supports_boundedBy_requirementSaturation t rows p).2 hcut
  rw [hpart, hsupports] at heq
  exact ⟨hpart, hcut, hsupports, heq.symm⟩

/-- A saturation that is too low. Each of three units offers one unit to the first row, and as many
as a bound can hold to the second one, which fit the first row as well. Three units support both
rows. Two units, the saturation, do not: of what they offer to the second row, only one unit's worth
is made available. -/
theorem not_supports_boundedBy_requirementSaturation :
    let a : Model := ⟨"A"⟩
    let r : Model := ⟨"R"⟩
    let x : Model := ⟨"X"⟩
    let t := Taxonomy.ofStatements
      [.subtype x r, .restriction a ⟨r, 0, some 1⟩, .restriction a ⟨x, 0, none⟩]
    let rows : List Bound := [⟨r, 3, Bound.threshold, by decide, by decide⟩,
      ⟨x, Bound.threshold, Bound.threshold, by decide, by decide⟩]
    let p := Pool.ofEntries [(a, 3)]
    t.requirementSaturation rows p = .ofEntries [(a, 2)] ∧
      t.supports rows (t.availability p) = true ∧
      t.supports rows (t.availability (p.boundedBy (t.requirementSaturation rows p))) = false := by
  decide +kernel

end Taxonomy

end Provision
