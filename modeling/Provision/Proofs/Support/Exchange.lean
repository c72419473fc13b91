import Provision.Proofs.Support.Allotment

/-!
# Enough units

Where a pool has enough units of a model to cover every row that the model serves, further units of
it are not missed. The argument exchanges units: a row that is served by any model that was cut is
covered by units of that model which are set aside for the row alone, and every other row keeps what
it had. No model that was cut offers anything to the other rows, so the two kinds of rows do not
compete.

## Main definitions

* `Taxonomy.enough t rows m`: the units of a model that cover all rows which it serves.
* `Taxonomy.Spares t rows p q`: the part `q` of `p` lacks no unit that the rows could need.
* `Taxonomy.exchange t rows p q g y`: the allotment `y`, with `g` for the rows that a model serves
  of which `q` lacks units.
-/

namespace Provision
namespace Taxonomy
variable {t : Taxonomy} {rows : List Bound}

/-! ## Covering a row -/

/-- As many units as cover a row offer at least its minimum. -/
theorem le_serves_mul_coveringUnits {m : Model} {row : Bound} (h : t.serves m row.model ≠ 0) :
    row.min ≤ t.serves m row.model * t.coveringUnits m row := by
  have hpos : 0 < t.serves m row.model := Nat.pos_of_ne_zero h
  have hdiv := Nat.lt_mul_div_succ (row.min + t.serves m row.model - 1) hpos
  rw [Nat.mul_add, Nat.mul_one] at hdiv
  rw [coveringUnits]
  omega

theorem coveringUnits_eq_zero {m : Model} {row : Bound} (h : row.min = 0) :
    t.coveringUnits m row = 0 := by
  rw [coveringUnits, h]
  rcases Nat.eq_zero_or_pos (t.serves m row.model) with hzero | hpos
  · rw [hzero, Nat.div_zero]
  · exact Nat.div_eq_of_lt (by omega)

/-- A row is covered by no more units than it requires. -/
theorem coveringUnits_le_min (m : Model) (row : Bound) : t.coveringUnits m row ≤ row.min := by
  rcases Nat.eq_zero_or_pos row.min with hmin | hmin
  · rw [coveringUnits_eq_zero hmin]
    exact Nat.zero_le _
  · rw [coveringUnits]
    rcases Nat.eq_zero_or_pos (t.serves m row.model) with hzero | hpos
    · rw [hzero, Nat.div_zero]
      exact Nat.zero_le _
    · refine Nat.div_le_of_le_mul ?_
      have hmul := Nat.mul_le_mul_left (t.serves m row.model - 1) hmin
      have hle := Nat.le_mul_of_pos_left row.min hpos
      rw [Nat.mul_succ, Nat.mul_zero, Nat.zero_add, Nat.sub_one_mul] at hmul
      omega

/-- How many units of a model cover all rows that it serves. -/
def enough (t : Taxonomy) (rows : List Bound) (m : Model) : Nat :=
  (rows.map (t.coveringUnits m)).sum

theorem enough_eq_sum (m : Model) :
    t.enough rows m = ∑ r : Fin rows.length, t.coveringUnits m (rows.get r) :=
  (Fin.sum_univ_fun_getElem rows (t.coveringUnits m)).symm

theorem enough_le_sum_min (m : Model) : t.enough rows m ≤ (rows.map (·.min)).sum :=
  List.sum_le_sum fun row _ => coveringUnits_le_min m row

/-- Rows without a minimum add nothing. -/
theorem enough_filter (m : Model) :
    t.enough (rows.filter fun row => 0 < row.min) m = t.enough rows m := by
  rw [enough, enough, sum_map_filter]
  congr 1
  refine List.map_congr_left fun row _ => ?_
  by_cases hrow : 0 < row.min
  · simp [hrow]
  · rw [coveringUnits_eq_zero (Nat.eq_zero_of_not_pos hrow), ite_self]

/-- Units set aside for a row: what they consist of fits the row and adds up to its minimum, and as
many units of `m` as cover the row offer all of it. -/
structure Dedicated (t : Taxonomy) (row : Bound) (m : Model) (g : Model → Nat) : Prop where
  le : ∀ x, g x ≤ t.perUnit m x * t.coveringUnits m row
  fits : ∀ x, g x ≠ 0 → t.isSubtype x row.model = true
  total : ∑ x ∈ t.offered m, g x = row.min

/-- Units of a model that serves a row can be set aside for it. -/
theorem exists_dedicated {m : Model} {row : Bound} (h : t.serves m row.model ≠ 0) :
    ∃ g, t.Dedicated row m g := by
  have htotal : row.min ≤ ∑ x ∈ t.offered m,
      (if t.isSubtype x row.model then t.perUnit m x else 0) * t.coveringUnits m row := by
    rw [← Finset.sum_mul, ← serves_eq_sum (Finset.Subset.refl _)]
    exact le_serves_mul_coveringUnits h
  obtain ⟨g, hle, hsum⟩ := exists_le_sum_eq _ _ htotal
  refine ⟨g, fun x => Nat.le_trans (hle x) (Nat.mul_le_mul_right _ ?_), fun x hx => ?_, hsum⟩
  · by_cases hfit : t.isSubtype x row.model = true
    · rw [if_pos hfit]
    · rw [if_neg hfit]
      exact Nat.zero_le _
  · by_contra hfit
    have hzero := hle x
    rw [if_neg hfit, Nat.zero_mul] at hzero
    omega

namespace Dedicated
variable {row : Bound} {m : Model} {g : Model → Nat}

theorem eq_zero (h : t.Dedicated row m g) {x : Model} (hx : t.perUnit m x = 0) : g x = 0 := by
  have hle := h.le x
  rw [hx, Nat.zero_mul] at hle
  exact Nat.le_zero.mp hle

theorem mem_offered (h : t.Dedicated row m g) {x : Model} (hx : g x ≠ 0) : x ∈ t.offered m :=
  mem_offered_of_perUnit fun hzero => hx (h.eq_zero hzero)

theorem sum_of_subset (h : t.Dedicated row m g) {S : Finset Model} (hS : t.offered m ⊆ S) :
    ∑ x ∈ S, g x = row.min := by
  rw [← h.total]
  refine (Finset.sum_subset hS fun x _ hx => ?_).symm
  by_contra hne
  exact hx (h.mem_offered hne)

end Dedicated

/-! ## Parts of a pool -/

/-- The models of which a part of a pool lacks units. -/
def cutModels (p q : Pool) : Finset Model := p.keys.toFinset.filter fun m => q.count m < p.count m

@[simp] theorem mem_cutModels {p q : Pool} {m : Model} :
    m ∈ cutModels p q ↔ q.count m < p.count m := by
  rw [cutModels, Finset.mem_filter, and_iff_right_iff_imp]
  intro h
  exact Pool.mem_toFinset_keys (Nat.ne_of_gt (Nat.zero_lt_of_lt h))

/-- A part of a pool that has all units of a model, or enough of them for all rows. -/
structure Spares (t : Taxonomy) (rows : List Bound) (p q : Pool) : Prop where
  le : ∀ m, q.count m ≤ p.count m
  kept : ∀ m, q.count m < p.count m → t.enough rows m ≤ q.count m

namespace Spares
variable {p q : Pool}

/-- What a part supplies is a sum over the models of the whole pool. -/
theorem supplied_eq_sum (h : t.Spares rows p q) (x : Model) :
    t.supplied q x = ∑ m ∈ p.keys.toFinset, t.perUnit m x * q.count m := by
  refine t.supplied_eq_sum (fun m hm => Pool.mem_toFinset_keys ?_) x
  exact Nat.ne_of_gt (Nat.lt_of_lt_of_le (Nat.pos_of_ne_zero hm) (h.le m))

/-- A model that no cut model offers is supplied as before. -/
theorem supplied_eq (h : t.Spares rows p q) {x : Model}
    (hx : ∀ m ∈ cutModels p q, t.perUnit m x = 0) : t.supplied q x = t.supplied p x := by
  rw [h.supplied_eq_sum, t.supplied_eq_sum fun m hm => Pool.mem_toFinset_keys hm]
  refine Finset.sum_congr rfl fun m _ => ?_
  rcases Nat.lt_or_eq_of_le (h.le m) with hlt | heq
  · rw [hx m (mem_cutModels.mpr hlt), Nat.zero_mul, Nat.zero_mul]
  · rw [heq]

/-- The units of cut models that cover the rows of `D`, one model a row, are there. -/
theorem sum_covering_le (h : t.Spares rows p q) {D : Finset (Fin rows.length)}
    {cut : Fin rows.length → Model} (hcut : ∀ r ∈ D, cut r ∈ cutModels p q) (x : Model) :
    ∑ r ∈ D, t.perUnit (cut r) x * t.coveringUnits (cut r) (rows.get r) ≤ t.supplied q x := by
  rw [h.supplied_eq_sum]
  calc ∑ r ∈ D, t.perUnit (cut r) x * t.coveringUnits (cut r) (rows.get r)
      ≤ ∑ r ∈ D, ∑ m ∈ cutModels p q, t.perUnit m x * t.coveringUnits m (rows.get r) :=
        Finset.sum_le_sum fun r hr => Finset.single_le_sum
          (f := fun m => t.perUnit m x * t.coveringUnits m (rows.get r))
          (fun _ _ => Nat.zero_le _) (hcut r hr)
    _ = ∑ m ∈ cutModels p q, t.perUnit m x * ∑ r ∈ D, t.coveringUnits m (rows.get r) := by
        rw [Finset.sum_comm]
        simp only [Finset.mul_sum]
    _ ≤ ∑ m ∈ cutModels p q, t.perUnit m x * q.count m := by
        refine Finset.sum_le_sum fun m hm => Nat.mul_le_mul_left _ ?_
        refine Nat.le_trans ?_ (h.kept m (mem_cutModels.mp hm))
        rw [enough_eq_sum]
        exact Finset.sum_le_univ_sum_of_nonneg fun _ => Nat.zero_le _
    _ ≤ ∑ m ∈ p.keys.toFinset, t.perUnit m x * q.count m :=
        Finset.sum_le_sum_of_subset (Finset.filter_subset _ _)

end Spares

/-! ## The exchange -/

/-- What is offered to a row fits it. -/
theorem perUnit_le_serves {m x required : Model} (hfit : t.isSubtype x required = true) :
    t.perUnit m x ≤ t.serves m required := by
  have hsum := serves_eq_sum (t := t) (m := m) (S := insert x (t.offered m))
    (Finset.subset_insert _ _) required
  have hsingle := Finset.single_le_sum
    (f := fun x => if t.isSubtype x required then t.perUnit m x else 0)
    (fun _ _ => Nat.zero_le _) (Finset.mem_insert_self x (t.offered m))
  rw [if_pos hfit] at hsingle
  exact hsum ▸ hsingle

/-- A row that some cut model serves. -/
def Affected (t : Taxonomy) (p q : Pool) (row : Bound) : Prop :=
  ∃ m ∈ cutModels p q, t.serves m row.model ≠ 0

instance (t : Taxonomy) (p q : Pool) (row : Bound) : Decidable (t.Affected p q row) :=
  inferInstanceAs (Decidable (∃ m ∈ cutModels p q, _))

/-- Every affected row is covered by a cut model. -/
theorem exists_cut (t : Taxonomy) (rows : List Bound) (p q : Pool) :
    ∃ (cut : Fin rows.length → Model) (g : Fin rows.length → Model → Nat),
      ∀ r, t.Affected p q (rows.get r) →
        cut r ∈ cutModels p q ∧ t.Dedicated (rows.get r) (cut r) (g r) := by
  have hrow : ∀ r : Fin rows.length, ∃ (m : Model) (g : Model → Nat),
      t.Affected p q (rows.get r) → m ∈ cutModels p q ∧ t.Dedicated (rows.get r) m g := by
    intro r
    by_cases hr : t.Affected p q (rows.get r)
    · obtain ⟨m, hm, hserves⟩ := hr
      obtain ⟨g, hg⟩ := exists_dedicated hserves
      exact ⟨m, g, fun _ => ⟨hm, hg⟩⟩
    · exact ⟨default, fun _ => 0, fun haffected => absurd haffected hr⟩
  choose cut g h using hrow
  exact ⟨cut, g, h⟩

/-- No cut model offers anything to the rows that are not affected. -/
theorem perUnit_eq_zero_of_not_affected {p q : Pool} {row : Bound} (hrow : ¬t.Affected p q row)
    {x : Model} (hfit : t.isSubtype x row.model = true) {m : Model} (hm : m ∈ cutModels p q) :
    t.perUnit m x = 0 := by
  by_contra hper
  refine hrow ⟨m, hm, fun hzero => hper ?_⟩
  exact Nat.le_zero.mp (hzero ▸ perUnit_le_serves hfit)

/-- The allotment after the exchange: affected rows take what is set aside for them, and the other
rows keep what they had. -/
def exchange (t : Taxonomy) (rows : List Bound) (p q : Pool) (g y : Fin rows.length → Model → Nat)
    (r : Fin rows.length) (x : Model) : Nat :=
  if t.Affected p q (rows.get r) then g r x else y r x

section
variable {p q : Pool} {g y : Fin rows.length → Model → Nat} {cut : Fin rows.length → Model}

theorem exchange_of_affected {r : Fin rows.length} (hr : t.Affected p q (rows.get r)) :
    t.exchange rows p q g y r = g r :=
  funext fun _ => if_pos hr

theorem exchange_of_not_affected {r : Fin rows.length} (hr : ¬t.Affected p q (rows.get r)) :
    t.exchange rows p q g y r = y r :=
  funext fun _ => if_neg hr

/-- The exchange takes no more of a model than the part supplies. -/
theorem Spares.sum_exchange_le (h : t.Spares rows p q) {S : Finset Model}
    (hy : t.Allots rows S (t.supplied p) y)
    (hcut : ∀ r, t.Affected p q (rows.get r) →
      cut r ∈ cutModels p q ∧ t.Dedicated (rows.get r) (cut r) (g r)) (x : Model) :
    ∑ r, t.exchange rows p q g y r x ≤ t.supplied q x := by
  by_cases hkept : ∃ r, ¬t.Affected p q (rows.get r) ∧ y r x ≠ 0
  · -- An unaffected row uses `x`, so no cut model offers it and affected rows leave it alone.
    obtain ⟨r₀, hr₀, hne⟩ := hkept
    have hx : ∀ m ∈ cutModels p q, t.perUnit m x = 0 := fun m hm =>
      perUnit_eq_zero_of_not_affected hr₀ (hy.fits r₀ x hne) hm
    rw [h.supplied_eq hx]
    refine Nat.le_trans (Finset.sum_le_sum fun r _ => ?_) (hy.col x)
    by_cases hr : t.Affected p q (rows.get r)
    · obtain ⟨hmem, hg⟩ := hcut r hr
      rw [exchange_of_affected hr, hg.eq_zero (hx _ hmem)]
      exact Nat.zero_le _
    · rw [exchange_of_not_affected hr]
  · -- Only affected rows use `x`, from the units that are set aside for them.
    calc ∑ r, t.exchange rows p q g y r x
        ≤ ∑ r, if t.Affected p q (rows.get r) then
            t.perUnit (cut r) x * t.coveringUnits (cut r) (rows.get r) else 0 := by
          refine Finset.sum_le_sum fun r _ => ?_
          by_cases hr : t.Affected p q (rows.get r)
          · rw [exchange_of_affected hr, if_pos hr]
            exact (hcut r hr).2.le x
          · have hzero : y r x = 0 := by_contra fun hne => hkept ⟨r, hr, hne⟩
            rw [exchange_of_not_affected hr, if_neg hr, hzero]
      _ = ∑ r with t.Affected p q (rows.get r),
            t.perUnit (cut r) x * t.coveringUnits (cut r) (rows.get r) :=
          (Finset.sum_filter _ _).symm
      _ ≤ t.supplied q x :=
          h.sum_covering_le (fun r hr => (hcut r (Finset.mem_filter.mp hr).2).1) x

/-- The exchange is an allotment of what the part supplies. -/
theorem Spares.allots_exchange (h : t.Spares rows p q) {S : Finset Model}
    (hy : t.Allots rows S (t.supplied p) y)
    (hcut : ∀ r, t.Affected p q (rows.get r) →
      cut r ∈ cutModels p q ∧ t.Dedicated (rows.get r) (cut r) (g r)) :
    t.Allots rows (S ∪ Finset.univ.biUnion fun r => t.offered (cut r)) (t.supplied q)
      (t.exchange rows p q g y) := by
  have hsub : ∀ r, t.offered (cut r) ⊆ S ∪ Finset.univ.biUnion fun r => t.offered (cut r) :=
    fun r => Finset.subset_union_right.trans' (Finset.subset_biUnion_of_mem
      (fun r => t.offered (cut r)) (Finset.mem_univ r))
  refine ⟨fun r x hne => ?_, fun r x hne => ?_, fun r => ?_, h.sum_exchange_le hy hcut⟩
  · by_cases hr : t.Affected p q (rows.get r)
    · rw [exchange_of_affected hr] at hne
      exact hsub r ((hcut r hr).2.mem_offered hne)
    · rw [exchange_of_not_affected hr] at hne
      exact Finset.mem_union_left _ (hy.within r x hne)
  · by_cases hr : t.Affected p q (rows.get r)
    · rw [exchange_of_affected hr] at hne
      exact (hcut r hr).2.fits x hne
    · rw [exchange_of_not_affected hr] at hne
      exact hy.fits r x hne
  · by_cases hr : t.Affected p q (rows.get r)
    · rw [exchange_of_affected hr]
      exact (hcut r hr).2.sum_of_subset (hsub r)
    · rw [exchange_of_not_affected hr]
      exact hy.row_of_subset Finset.subset_union_left r

end

/-- **No row needs more units than enough.** What the units of a pool meet, the units of a part meet
that has enough of every model. -/
theorem Spares.canMeet {p q : Pool} (h : t.Spares rows p q) (hp : t.CanMeet rows (t.supplied p)) :
    t.CanMeet rows (t.supplied q) := by
  obtain ⟨S, y, hy⟩ := hp
  obtain ⟨cut, g, hcut⟩ := t.exists_cut rows p q
  exact ⟨_, _, h.allots_exchange hy hcut⟩

end Taxonomy

end Provision
