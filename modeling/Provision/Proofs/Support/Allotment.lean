import Provision.Proofs.Support.Availability

/-!
# Allotments

Whether offers meet requirements does not depend on how the offers are listed, only on how many
units of each model there are. Rows need not get more than their minima, and then no limit on a
single cell ever binds: what is left is a table of units by row and model, an *allotment*.

## Main definitions

* `Taxonomy.Allots t rows S supply y`: the units `y r x` of models give every row its minimum.
* `Taxonomy.CanMeet t rows supply`: some allotment exists.
-/

namespace Provision

/-- Numbers that add up to at least `k` can be lowered until they add up to `k`. -/
theorem exists_le_sum_eq {ι : Type} [DecidableEq ι] (S : Finset ι) (f : ι → Nat) {k : Nat}
    (h : k ≤ ∑ i ∈ S, f i) : ∃ g : ι → Nat, (∀ i, g i ≤ f i) ∧ ∑ i ∈ S, g i = k := by
  induction S using Finset.induction_on generalizing k with
  | empty =>
    rw [Finset.sum_empty] at h
    exact ⟨fun _ => 0, fun i => Nat.zero_le _, by simpa using (Nat.le_zero.mp h).symm⟩
  | insert i S hi ih =>
    rw [Finset.sum_insert hi] at h
    obtain ⟨g, hle, hsum⟩ := ih (k := k - f i) (by omega)
    refine ⟨Function.update g i (min (f i) k), fun j => ?_, ?_⟩
    · by_cases hj : j = i
      · subst hj
        rw [Function.update_self]
        exact Nat.min_le_left _ _
      · rw [Function.update_of_ne hj]
        exact hle j
    · rw [Finset.sum_insert hi, Finset.sum_update_of_notMem hi, Function.update_self, hsum]
      omega

/-- Needs that are covered in total can be served from several stores, none of which gives more than
it holds. -/
theorem exists_shares {ι κ : Type} [DecidableEq ι] [DecidableEq κ] {R : Finset ι} {C : Finset κ}
    {need : ι → Nat} {held : κ → Nat} (h : ∑ r ∈ R, need r ≤ ∑ c ∈ C, held c) :
    ∃ u : ι → κ → Nat, (∀ r ∈ R, ∑ c ∈ C, u r c = need r) ∧ ∀ c, ∑ r ∈ R, u r c ≤ held c := by
  induction R using Finset.induction_on generalizing held with
  | empty =>
    exact ⟨fun _ _ => 0, fun r hr => absurd hr (Finset.notMem_empty r), fun c => Nat.zero_le _⟩
  | insert r R hr ih =>
    rw [Finset.sum_insert hr] at h
    obtain ⟨g, hle, hsum⟩ := exists_le_sum_eq C held (k := need r) (by omega)
    -- What is left over when `r` is served suffices for the others.
    have hleft : ∑ c ∈ C, (held c - g c) + ∑ c ∈ C, g c = ∑ c ∈ C, held c := by
      rw [← Finset.sum_add_distrib]
      exact Finset.sum_congr rfl fun c _ => Nat.sub_add_cancel (hle c)
    obtain ⟨u, hrow, hcol⟩ := @ih (fun c => held c - g c) (by omega)
    have hother : ∀ r' ∈ R, Function.update u r g r' = u r' := fun r' hr' =>
      Function.update_of_ne (ne_of_mem_of_not_mem hr' hr) g u
    refine ⟨Function.update u r g, fun r' hr' => ?_, fun c => ?_⟩
    · rcases Finset.mem_insert.mp hr' with rfl | hmem
      · rw [Function.update_self, hsum]
      · rw [hother r' hmem, hrow r' hmem]
    · rw [Finset.sum_insert hr, Function.update_self,
        Finset.sum_congr rfl fun r' hr' => congrFun (hother r' hr') c]
      have hrest := hcol c
      have hmine := hle c
      omega

namespace Taxonomy
variable {t : Taxonomy} {rows : List Bound}

/-- An allotment of units to rows: units of models in `S` only, from models that fit the row, in all
just the minimum of every row, and no more units of a model than there are. -/
structure Allots (t : Taxonomy) (rows : List Bound) (S : Finset Model) (supply : Model → Nat)
    (y : Fin rows.length → Model → Nat) : Prop where
  within : ∀ r x, y r x ≠ 0 → x ∈ S
  fits : ∀ r x, y r x ≠ 0 → t.isSubtype x (rows.get r).model = true
  row : ∀ r, ∑ x ∈ S, y r x = (rows.get r).min
  col : ∀ x, ∑ r, y r x ≤ supply x

/-- Units of models, as many as there are, can be allotted to rows. -/
def CanMeet (t : Taxonomy) (rows : List Bound) (supply : Model → Nat) : Prop :=
  ∃ S y, t.Allots rows S supply y

theorem Allots.mono {S : Finset Model} {supply supply' : Model → Nat}
    {y : Fin rows.length → Model → Nat} (h : t.Allots rows S supply y)
    (hle : ∀ x, supply x ≤ supply' x) : t.Allots rows S supply' y :=
  { h with col := fun x => Nat.le_trans (h.col x) (hle x) }

/-- More units do no harm. -/
theorem CanMeet.mono {supply supply' : Model → Nat} (h : t.CanMeet rows supply)
    (hle : ∀ x, supply x ≤ supply' x) : t.CanMeet rows supply' := by
  obtain ⟨S, y, hy⟩ := h
  exact ⟨S, y, hy.mono hle⟩

theorem Allots.le_supply {S : Finset Model} {supply : Model → Nat}
    {y : Fin rows.length → Model → Nat} (h : t.Allots rows S supply y) (r : Fin rows.length)
    (x : Model) : y r x ≤ supply x :=
  Nat.le_trans (Finset.single_le_sum (f := fun r => y r x) (fun _ _ => Nat.zero_le _)
    (Finset.mem_univ r)) (h.col x)

/-- The units that all rows which a model fits require together. -/
def asked (t : Taxonomy) (rows : List Bound) (x : Model) : Nat :=
  (rows.map fun row => if t.isSubtype x row.model then row.min else 0).sum

theorem asked_le_sum_min (x : Model) : t.asked rows x ≤ (rows.map (·.min)).sum := by
  refine List.sum_le_sum fun row _ => ?_
  split
  · exact Nat.le_refl _
  · exact Nat.zero_le _

/-- No more of a model is allotted than the rows that it fits require. -/
theorem Allots.sum_le_asked {S : Finset Model} {supply : Model → Nat}
    {y : Fin rows.length → Model → Nat} (h : t.Allots rows S supply y) (x : Model) :
    ∑ r, y r x ≤ t.asked rows x := by
  have hasked : t.asked rows x = ∑ r : Fin rows.length,
      if t.isSubtype x (rows.get r).model then (rows.get r).min else 0 :=
    (Fin.sum_univ_fun_getElem rows fun row => if t.isSubtype x row.model then row.min else 0).symm
  rw [hasked]
  refine Finset.sum_le_sum fun r _ => ?_
  rcases Nat.eq_zero_or_pos (y r x) with hzero | hpos
  · rw [hzero]
    exact Nat.zero_le _
  · have hne := Nat.ne_of_gt hpos
    rw [if_pos (h.fits r x hne), ← h.row r]
    exact Finset.single_le_sum (f := fun x => y r x) (fun _ _ => Nat.zero_le _) (h.within r x hne)

/-- Where no more of a model is supplied, or else asked for, than a limit, a cut at the limit does
not affect the rows. -/
theorem canMeet_min_iff {supply : Model → Nat} {k : Nat}
    (hk : ∀ x, supply x ≤ k ∨ t.asked rows x ≤ k) :
    t.CanMeet rows (fun x => min (supply x) k) ↔ t.CanMeet rows supply := by
  constructor
  · exact fun h => h.mono fun x => Nat.min_le_left _ _
  · rintro ⟨S, y, hy⟩
    refine ⟨S, y, { hy with col := fun x => Nat.le_min.mpr ⟨hy.col x, ?_⟩ }⟩
    rcases hk x with hsupply | hasked
    · exact Nat.le_trans (hy.col x) hsupply
    · exact Nat.le_trans (hy.sum_le_asked x) hasked

/-- The models that units are taken from may be listed more generously. -/
theorem Allots.row_of_subset {S S' : Finset Model} {supply : Model → Nat}
    {y : Fin rows.length → Model → Nat} (h : t.Allots rows S supply y) (hsub : S ⊆ S')
    (r : Fin rows.length) : ∑ x ∈ S', y r x = (rows.get r).min := by
  rw [← h.row r]
  refine (Finset.sum_subset hsub fun x _ hx => ?_).symm
  exact by_contra fun hne => hx (h.within r x hne)

/-- The maxima of a list, by place, for the places of one model. -/
theorem sum_max_eq_maxSum (available : List Bound) (x : Model) :
    (∑ c : Fin available.length, if (available.get c).model = x then (available.get c).max else 0) =
      Bound.maxSum available x := by
  rw [Bound.maxSum]
  exact Fin.sum_univ_fun_getElem available fun b => if b.model = x then b.max else 0

/-- A table that meets requirements is an allotment, once its rows are lowered to their minima. -/
theorem Meets.canMeet {available : List Bound} {u : Fin rows.length → Fin available.length → Nat}
    (h : t.Meets rows available u) : t.CanMeet rows (Bound.maxSum available) := by
  have hlower : ∀ r, ∃ g : Fin available.length → Nat,
      (∀ c, g c ≤ u r c) ∧ ∑ c, g c = (rows.get r).min := fun r => exists_le_sum_eq _ _ (h.row r)
  choose g hle hsum using hlower
  refine ⟨(available.map (·.model)).toFinset,
    fun r x => ∑ c : Fin available.length, if (available.get c).model = x then g r c else 0,
    ⟨fun r x hne => ?_, fun r x hne => ?_, fun r => ?_, fun x => ?_⟩⟩
  · obtain ⟨c, -, hc⟩ := Finset.exists_ne_zero_of_sum_ne_zero hne
    obtain ⟨hmodel, -⟩ := ite_ne_right_iff.mp hc
    exact List.mem_toFinset.mpr (hmodel ▸ List.mem_map_of_mem (List.getElem_mem _))
  · obtain ⟨c, -, hc⟩ := Finset.exists_ne_zero_of_sum_ne_zero hne
    obtain ⟨hmodel, hg⟩ := ite_ne_right_iff.mp hc
    rw [← hmodel]
    by_contra hfit
    have hzero := h.fits r c (Bool.eq_false_iff.mpr hfit)
    have hbound := hle r c
    omega
  · rw [Finset.sum_comm, ← hsum r]
    refine Finset.sum_congr rfl fun c _ => ?_
    refine Finset.sum_ite_eq_of_mem _ _ _ (List.mem_toFinset.mpr ?_)
    exact List.mem_map_of_mem (List.getElem_mem _)
  · rw [Finset.sum_comm, ← sum_max_eq_maxSum]
    refine Finset.sum_le_sum fun c _ => ?_
    by_cases hmodel : (available.get c).model = x
    · simp only [if_pos hmodel]
      exact Nat.le_trans (Finset.sum_le_sum fun r _ => hle r c) (h.col c)
    · simp only [if_neg hmodel, Finset.sum_const_zero, Nat.le_refl]

/-- Units allotted by model can be taken from the places where the model is offered. -/
theorem exists_places {available : List Bound} {y : Fin rows.length → Model → Nat}
    (hcol : ∀ x, ∑ r, y r x ≤ Bound.maxSum available x) :
    ∃ u : Fin rows.length → Fin available.length → Nat,
      (∀ r x, ∑ c with (available.get c).model = x, u r c = y r x) ∧
        ∀ c, ∑ r, u r c ≤ (available.get c).max := by
  have hshares : ∀ x, ∃ u : Fin rows.length → Fin available.length → Nat,
      (∀ r, ∑ c with (available.get c).model = x, u r c = y r x) ∧
        ∀ c, ∑ r, u r c ≤ (available.get c).max := by
    intro x
    have hplaces : ∑ r, y r x ≤ ∑ c with (available.get c).model = x, (available.get c).max := by
      rw [Finset.sum_filter, sum_max_eq_maxSum]
      exact hcol x
    obtain ⟨u, hrow, hheld⟩ := exists_shares hplaces
    exact ⟨u, fun r => hrow r (Finset.mem_univ r), hheld⟩
  choose u hrow hheld using hshares
  refine ⟨fun r c => u (available.get c).model r c, fun r x => ?_, fun c => hheld _ c⟩
  rw [← hrow x r]
  refine Finset.sum_congr rfl fun c hc => ?_
  exact congrArg (fun x => u x r c) (Finset.mem_filter.mp hc).2

/-- An allotment is a table that meets requirements, with the units taken from the places where they
are offered. -/
theorem CanMeet.exists_meets {available : List Bound}
    (h : t.CanMeet rows (Bound.maxSum available)) : ∃ u, t.Meets rows available u := by
  obtain ⟨S, y, hy⟩ := h
  obtain ⟨u, hplaces, hcol⟩ := exists_places hy.col
  have htotal : ∀ r, ∑ c, u r c = (rows.get r).min := by
    intro r
    have hmem : ∀ c ∈ Finset.univ, (available.get c).model ∈
        S ∪ Finset.univ.image fun c : Fin available.length => (available.get c).model :=
      fun c hc => Finset.mem_union_right _ (Finset.mem_image_of_mem _ hc)
    rw [← hy.row_of_subset Finset.subset_union_left r, ← Finset.sum_fiberwise_of_maps_to hmem]
    exact Finset.sum_congr rfl fun x _ => hplaces r x
  refine ⟨u, fun r c hfit => ?_, fun r c => Nat.le_min.mpr ⟨?_, ?_⟩, fun r => (htotal r).ge, hcol⟩
  · have hle : u r c ≤ y r (available.get c).model := by
      rw [← hplaces]
      exact Finset.single_le_sum (f := u r) (fun _ _ => Nat.zero_le _)
        (Finset.mem_filter.mpr ⟨Finset.mem_univ c, rfl⟩)
    by_contra hne
    rw [hy.fits r _ (by omega)] at hfit
    cases hfit
  · refine Nat.le_trans ?_ (rows.get r).min_le_max
    rw [← htotal r]
    exact Finset.single_le_sum (f := u r) (fun _ _ => Nat.zero_le _) (Finset.mem_univ c)
  · refine Nat.le_trans ?_ (hcol c)
    exact Finset.single_le_sum (f := fun r => u r c) (fun _ _ => Nat.zero_le _) (Finset.mem_univ r)

/-- **Only the units of each model matter**, not the places where they are offered. -/
theorem exists_meets_iff {available : List Bound} :
    (∃ u, t.Meets rows available u) ↔ t.CanMeet rows (Bound.maxSum available) :=
  ⟨fun ⟨_, hu⟩ => hu.canMeet, CanMeet.exists_meets⟩

/-- **A pool meets requirements just when the units it offers can be allotted.** -/
theorem exists_meets_availability_iff {p : Pool} :
    (∃ u, t.Meets rows (t.availability p) u) ↔
      t.CanMeet rows fun x => min (t.supplied p x) Bound.threshold := by
  have hsupply : Bound.maxSum (t.availability p) =
      fun x => min (t.supplied p x) Bound.threshold := funext (t.maxSum_availability p)
  rw [exists_meets_iff, hsupply]

/-- Requirements that a pool meets are met by every larger pool. -/
theorem exists_meets_mono {p q : Pool} (hle : ∀ m, p.count m ≤ q.count m)
    (h : ∃ u, t.Meets rows (t.availability p) u) : ∃ u, t.Meets rows (t.availability q) u := by
  rw [exists_meets_availability_iff] at h ⊢
  exact h.mono fun x => min_le_min_right _ (t.supplied_mono hle x)

end Taxonomy

end Provision
