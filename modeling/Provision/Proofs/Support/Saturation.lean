import Provision.Proofs.Support.Exchange

/-!
# Saturation keeps support

The saturation bound of a pool has enough units of every model for each of the requirements it is
computed from. Any part of the pool may therefore be cut at the bound without losing the support of
one of them, nor its last unit.

The sums that the bound is computed from may be kept as counts, which are cut at their ceiling, or
exactly: no row asks for as much as the ceiling, and the bound ends below it.

## Main definitions

* `Taxonomy.enoughCounted t rows m`: the units that are enough, with every sum kept as a count.

## Main results

* `Taxonomy.enoughCounted_eq`: the cut of a count does not show.
* `Taxonomy.exists_meets_boundedBy_saturation`: the cut of a pool at its bound loses nothing.
-/

namespace Provision

/-! ## Sums of counts -/

namespace Count

/-- The sum of some numbers, cut at the ceiling after every term. -/
def total (l : List Nat) : Count := l.foldl (fun c n => .ofNat (c.toNat + n)) (.ofNat 0)

/-- Cutting after every term comes to cutting once. -/
theorem toNat_total (l : List Nat) : (total l).toNat = min (sumOf l) ceiling := by
  have hfold : ∀ c : Count, (l.foldl (fun c n => .ofNat (c.toNat + n)) c).toNat =
      min (c.toNat + sumOf l) ceiling := by
    induction l with
    | nil =>
      intro c
      have hc := c.le_ceiling
      simp
      omega
    | cons n rest ih =>
      intro c
      rw [List.foldl_cons, ih, toNat_ofNat, sumOf_cons]
      omega
  rw [total, hfold]
  simp

end Count

namespace Taxonomy
variable {t : Taxonomy} {rows : List Bound} {reqs : List (List Bound)} {p q : Pool}

/-- A unit that serves all that a row asks for covers it alone. -/
theorem ceilDiv_of_le {need served : Nat} (hle : need ≤ served) :
    (need + served - 1) / served = if need = 0 then 0 else 1 := by
  split
  · next hzero =>
    rw [hzero, Nat.zero_add]
    cases served with
    | zero => rfl
    | succ k => exact Nat.div_eq_of_lt (by omega)
  · exact Nat.div_eq_of_lt_le (by omega) (by omega)

/-- How many units cover a row on their own, where the units they offer are a count. -/
def coveringCounted (t : Taxonomy) (m : Model) (row : Bound) : Nat :=
  let served := Count.total <|
    ((t.unitOffers m).filter fun offer => t.isSubtype offer.1 row.model).map (·.2)
  if served.toNat = 0 then 0 else (row.min + served.toNat - 1) / served.toNat

/-- How many units are enough for all rows, where they are a count. -/
def enoughCounted (t : Taxonomy) (rows : List Bound) (m : Model) : Nat :=
  Nat.min (Count.total (rows.map (t.coveringCounted m))).toNat Bound.threshold

/-- The cut of what a unit offers changes no quotient, since a row asks for less. -/
theorem coveringCounted_eq (t : Taxonomy) (m : Model) (row : Bound) :
    t.coveringCounted m row = t.coveringUnits m row := by
  have hneed : row.min ≤ Count.ceiling := by
    have hmin := row.min_le_max
    have hmax := row.max_le_threshold
    have hthreshold : Bound.threshold ≤ Count.ceiling := by decide
    omega
  have hdiv : t.coveringCounted m row =
      (row.min + min (t.serves m row.model) Count.ceiling - 1) /
        min (t.serves m row.model) Count.ceiling := by
    simp only [coveringCounted, Count.toNat_total, serves]
    split
    · next hzero => rw [hzero, Nat.div_zero]
    · rfl
  rw [hdiv, coveringUnits]
  by_cases hserved : t.serves m row.model ≤ Count.ceiling
  · rw [Nat.min_eq_left hserved]
  · rw [Nat.min_eq_right (by omega), ceilDiv_of_le hneed, ceilDiv_of_le (by omega)]

/-- **Counts saturate without effect**: the sums that decide how many units are enough may be kept
as counts or exactly. -/
theorem enoughCounted_eq (t : Taxonomy) (rows : List Bound) (m : Model) :
    t.enoughCounted rows m = t.enoughUnits rows m := by
  have hcovering : t.coveringCounted m = t.coveringUnits m := funext (t.coveringCounted_eq m)
  have hthreshold : Bound.threshold ≤ Count.ceiling := by decide
  rw [enoughCounted, enoughUnits, hcovering, Count.toNat_total]
  exact (Nat.min_assoc _ _ _).trans (congrArg _ (Nat.min_eq_right hthreshold))

/-! ## What a requirement is saturated with -/

/-- A requirement that asks for something is saturated with enough units, cut at the threshold. -/
theorem count_requirementSaturation (hrows : ∃ row ∈ rows, 0 < row.min) {m : Model}
    (hm : p.count m ≠ 0) :
    (t.requirementSaturation rows p).count m = min (t.enough rows m) Bound.threshold := by
  have hne : (rows.filter fun row => 0 < row.min).isEmpty = false := by
    obtain ⟨row, hrow, hpos⟩ := hrows
    rw [List.isEmpty_eq_false_iff]
    exact List.ne_nil_of_mem (List.mem_filter.mpr ⟨hrow, decide_eq_true hpos⟩)
  have hunits : t.enoughUnits (rows.filter fun row => 0 < row.min) m =
      min (t.enough rows m) Bound.threshold := by
    rw [enoughUnits, sumOf_eq_sum, ← enough, enough_filter]
  rw [requirementSaturation, hne, if_neg Bool.false_ne_true, Pool.count, Table.get?_filterMap]
  cases hget : p.get? m with
  | none =>
    rw [Pool.count, hget] at hm
    exact absurd rfl hm
  | some c =>
    rw [Option.bind_some, hunits]
    by_cases hpos : 0 < min (t.enough rows m) Bound.threshold
    · rw [if_pos hpos]
      exact Nat.min_eq_left (Nat.le_trans (Nat.min_le_right _ _) (by decide))
    · rw [if_neg hpos]
      exact (Nat.eq_zero_of_not_pos hpos).symm

/-- A requirement that asks for nothing is saturated with any unit. -/
theorem count_requirementSaturation_of_min_eq_zero (hrows : ∀ row ∈ rows, row.min = 0) {m : Model}
    (hm : p.count m ≠ 0) : (t.requirementSaturation rows p).count m = 1 := by
  have hnil : rows.filter (fun row => 0 < row.min) = [] := by
    refine List.filter_eq_nil_iff.mpr fun row hrow => ?_
    rw [hrows row hrow]
    decide
  rw [requirementSaturation, hnil, List.isEmpty_nil, if_pos rfl, Pool.count,
    Table.get?_mapValues]
  cases hget : p.compact.get? m with
  | none =>
    rw [← Pool.count_compact, Pool.count, hget] at hm
    exact absurd rfl hm
  | some c => rfl

/-- The saturation bound has what each requirement is saturated with, as far as the pool has it. -/
theorem le_count_saturation (hmem : rows ∈ reqs) (m : Model) :
    min (p.count m) ((t.requirementSaturation rows p).count m) ≤ (t.saturation reqs p).count m := by
  rw [saturation, Pool.count_boundedBy]
  refine min_le_min_left _ ?_
  have hbounds := Pool.count_foldl_max_le_iff.mp (Nat.le_refl (Pool.count (reqs.foldl
    (fun most required => most.max (t.requirementSaturation required p)) .empty) m))
  exact hbounds.2 rows hmem

theorem count_saturation_le (m : Model) : (t.saturation reqs p).count m ≤ p.count m := by
  rw [saturation, Pool.count_boundedBy]
  exact Nat.min_le_left _ _

/-! ## Cutting a pool -/

/-- A part of a pool keeps enough units for a requirement when it is cut at the saturation bound. -/
theorem spares_saturation (hmem : rows ∈ reqs) (hrows : ∃ row ∈ rows, 0 < row.min)
    (hsum : (rows.map (·.min)).sum ≤ Bound.threshold) (hle : ∀ m, q.count m ≤ p.count m) :
    t.Spares rows q (q.boundedBy (t.saturation reqs p)) where
  le m := by
    rw [Pool.count_boundedBy]
    exact Nat.min_le_left _ _
  kept m hlt := by
    rw [Pool.count_boundedBy] at hlt ⊢
    have hbound := hle m
    have hsat := le_count_saturation (t := t) (p := p) hmem m
    have henough := Nat.le_trans (enough_le_sum_min (t := t) m) hsum
    rw [count_requirementSaturation hrows (by omega), Nat.min_eq_left henough] at hsat
    omega

/-- Rows that ask for nothing are met by nothing. -/
theorem canMeet_of_min_eq_zero (hrows : ∀ row ∈ rows, row.min = 0) (supply : Model → Nat) :
    t.CanMeet rows supply :=
  ⟨∅, fun _ _ => 0, fun _ _ hne => absurd rfl hne, fun _ _ hne => absurd rfl hne,
    fun r => (hrows _ (List.getElem_mem r.isLt)).symm, fun _ => by simp⟩

/-- A pool that meets a row with a minimum has a unit. -/
theorem CanMeet.exists_count (h : t.CanMeet rows (t.supplied p))
    (hrows : ∃ row ∈ rows, 0 < row.min) : ∃ m, p.count m ≠ 0 := by
  obtain ⟨S, y, hy⟩ := h
  obtain ⟨row, hrow, hpos⟩ := hrows
  obtain ⟨r, hr, rfl⟩ := List.mem_iff_getElem.mp hrow
  have hne : ∑ x ∈ S, y ⟨r, hr⟩ x ≠ 0 := hy.row ⟨r, hr⟩ ▸ Nat.ne_of_gt hpos
  obtain ⟨x, -, hx⟩ := Finset.exists_ne_zero_of_sum_ne_zero hne
  by_contra hnone
  have hempty : ∀ m, p.count m ≠ 0 → m ∈ (∅ : Finset Model) := fun m hm => absurd ⟨m, hm⟩ hnone
  have hle := hy.le_supply ⟨r, hr⟩ x
  rw [t.supplied_eq_sum hempty, Finset.sum_empty] at hle
  exact hx (Nat.le_zero.mp hle)

/-- **Cutting at the saturation bound loses nothing.** A part of a pool that has a unit and meets
one of the requirements still has a unit and still meets it after the cut. -/
theorem exists_meets_boundedBy_saturation (hmem : rows ∈ reqs)
    (hsum : (rows.map (·.min)).sum ≤ Bound.threshold) (hle : ∀ m, q.count m ≤ p.count m)
    (hq : ∃ m, q.count m ≠ 0) (hmeets : ∃ u, t.Meets rows (t.availability q) u) :
    (∃ m, (q.boundedBy (t.saturation reqs p)).count m ≠ 0) ∧
      ∃ u, t.Meets rows (t.availability (q.boundedBy (t.saturation reqs p))) u := by
  have hasked : ∀ x, t.asked rows x ≤ Bound.threshold := fun x =>
    Nat.le_trans (asked_le_sum_min x) hsum
  rw [exists_meets_availability_iff, canMeet_min_iff fun x => .inr (hasked x)] at hmeets ⊢
  by_cases hrows : ∃ row ∈ rows, 0 < row.min
  · have hcut := (spares_saturation hmem hrows hsum hle).canMeet hmeets
    exact ⟨hcut.exists_count hrows, hcut⟩
  · have hzero : ∀ row ∈ rows, row.min = 0 := fun row hrow =>
      Nat.eq_zero_of_not_pos fun hpos => hrows ⟨row, hrow, hpos⟩
    refine ⟨?_, canMeet_of_min_eq_zero hzero _⟩
    obtain ⟨m, hm⟩ := hq
    have hbound := hle m
    have hsat := le_count_saturation (t := t) (p := p) hmem m
    rw [count_requirementSaturation_of_min_eq_zero hzero (by omega)] at hsat
    refine ⟨m, ?_⟩
    rw [Pool.count_boundedBy]
    omega

end Taxonomy

end Provision
