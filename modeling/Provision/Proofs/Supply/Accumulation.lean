import Mathlib.Algebra.BigOperators.Group.List.Basic
import Mathlib.Algebra.Order.BigOperators.Group.List
import Provision.Bound
import Provision.Proofs.Pool.Counts

/-!
# Accumulated bounds

Bounds of one model are added up with a cut after every addition. The cuts compose: the maximum that
a model ends with is the sum of all its maxima, cut once.

## Main definitions

* `Bound.maxSum bounds x`: the sum of the maxima of the bounds of a model, without a cut.
* `Bound.merged bounds`: accumulated bounds as a table.
* `Bound.IsOffer b`: the bound goes from no unit up to some units.
-/

namespace Provision

namespace Bound

/-! ## Sums of maxima -/

/-- The maxima of all bounds of a model, added up. -/
def maxSum (bounds : List Bound) (x : Model) : Nat :=
  (bounds.map fun b => if b.model = x then b.max else 0).sum

@[simp] theorem maxSum_nil (x : Model) : maxSum [] x = 0 := rfl

@[simp] theorem maxSum_cons (b : Bound) (rest : List Bound) (x : Model) :
    maxSum (b :: rest) x = (if b.model = x then b.max else 0) + maxSum rest x := rfl

@[simp] theorem maxSum_append (as bs : List Bound) (x : Model) :
    maxSum (as ++ bs) x = maxSum as x + maxSum bs x := by
  simp [maxSum]

theorem maxSum_flatMap {α : Type} (l : List α) (f : α → List Bound) (x : Model) :
    maxSum (l.flatMap f) x = (l.map fun a => maxSum (f a) x).sum := by
  induction l with
  | nil => rfl
  | cons a rest ih => rw [List.flatMap_cons, maxSum_append, ih, List.map_cons, List.sum_cons]

theorem maxSum_eq_zero {bounds : List Bound} {x : Model} (h : ∀ b ∈ bounds, b.model ≠ x) :
    maxSum bounds x = 0 :=
  sum_ite_key_eq_zero Bound.max h

/-- Where every model occurs once, the sum for a model is the maximum of its bound. -/
theorem maxSum_of_mem {bounds : List Bound} (hnodup : (bounds.map (·.model)).Nodup) {b : Bound}
    (hb : b ∈ bounds) : maxSum bounds b.model = b.max :=
  sum_ite_key_of_mem Bound.max hnodup hb

/-! ## The table of sums -/

/-- Add a bound to the one that a table has for the same model. -/
def put (t : Table Model Bound) (b : Bound) : Table Model Bound :=
  t.update b.model fun old => old.elim b (·.plus b)

/-- The accumulated bounds of a list, by model. -/
def merged (bounds : List Bound) : Table Model Bound := bounds.foldl put .empty

theorem accumulateByModel_eq (bounds : List Bound) :
    accumulateByModel bounds = (merged bounds).entries.map (·.2) := rfl

/-- The maximum of the bound that a table has for a model. -/
def maxAt (t : Table Model Bound) (x : Model) : Nat := (t.get? x).elim 0 Bound.max

theorem maxAt_put (t : Table Model Bound) (b : Bound) (x : Model) :
    maxAt (put t b) x =
      Min.min (maxAt t x + if b.model = x then b.max else 0) threshold := by
  have hle : maxAt t x ≤ threshold := by
    rw [maxAt]
    cases t.get? x with
    | none => exact Nat.zero_le _
    | some a => exact a.max_le_threshold
  rw [maxAt, put, Table.get?_update]
  by_cases hx : x = b.model
  · subst hx
    rw [if_pos rfl, if_pos rfl, maxAt]
    cases t.get? b.model with
    | none => simp [b.max_le_threshold]
    | some a => rfl
  · rw [if_neg hx, if_neg (Ne.symm hx), Nat.add_zero, Nat.min_eq_left hle, maxAt]

theorem maxAt_foldl_put (bounds : List Bound) (t : Table Model Bound) (x : Model) :
    maxAt (bounds.foldl put t) x = Min.min (maxAt t x + maxSum bounds x) threshold := by
  induction bounds generalizing t with
  | nil =>
    rw [List.foldl_nil, maxSum_nil, Nat.add_zero, maxAt]
    cases t.get? x with
    | none => rfl
    | some a => exact (Nat.min_eq_left a.max_le_threshold).symm
  | cons b rest ih =>
    rw [List.foldl_cons, ih, maxAt_put, maxSum_cons]
    omega

theorem maxAt_merged (bounds : List Bound) (x : Model) :
    maxAt (merged bounds) x = Min.min (maxSum bounds x) threshold := by
  rw [merged, maxAt_foldl_put]
  exact congrArg (Min.min · threshold) (Nat.zero_add _)

/-! ## What all bounds of a table have in common -/

section
variable {P : Model → Bound → Prop} (hplus : ∀ x a b, P x a → P x b → P x (a.plus b))
include hplus

theorem forall_put {t : Table Model Bound} (ht : ∀ x a, t.get? x = some a → P x a) {b : Bound}
    (hb : P b.model b) (x : Model) (a : Bound) (ha : (put t b).get? x = some a) : P x a := by
  rw [put, Table.get?_update] at ha
  by_cases hx : x = b.model
  · subst hx
    rw [if_pos rfl] at ha
    obtain rfl := Option.some.inj ha
    cases hold : t.get? b.model with
    | none => exact hb
    | some old => exact hplus _ _ _ (ht _ _ hold) hb
  · rw [if_neg hx] at ha
    exact ht x a ha

/-- What holds of the bounds of a list and is kept by adding bounds up holds in the table. -/
theorem forall_merged {bounds : List Bound} (h : ∀ b ∈ bounds, P b.model b) (x : Model) (a : Bound)
    (ha : (merged bounds).get? x = some a) : P x a := by
  have hfold : ∀ t : Table Model Bound, (∀ x a, t.get? x = some a → P x a) →
      ∀ x a, (bounds.foldl put t).get? x = some a → P x a := by
    clear ha
    induction bounds with
    | nil => exact fun t ht => ht
    | cons b rest ih =>
      obtain ⟨hb, hrest⟩ := List.forall_mem_cons.mp h
      exact fun t ht => ih hrest (put t b) (forall_put hplus ht hb)
  exact hfold .empty (fun x a h => by cases h) x a ha

end

/-- Every bound of a table is kept under its own model. -/
def Labelled (t : Table Model Bound) : Prop := ∀ x b, t.get? x = some b → b.model = x

theorem labelled_merged (bounds : List Bound) : Labelled (merged bounds) :=
  forall_merged (P := fun x b => b.model = x) (fun _ _ _ ha _ => ha) fun _ _ => rfl

/-- From no unit up to some units, as an offer has it. -/
def IsOffer (b : Bound) : Prop := b.min = 0 ∧ 0 < b.max

theorem isOffer_upTo {x : Model} {k : Nat} (hk : 0 < k) : (upTo x k).IsOffer :=
  ⟨rfl, Nat.lt_min.mpr ⟨hk, by decide⟩⟩

theorem IsOffer.plus {a b : Bound} (ha : a.IsOffer) (hb : b.IsOffer) : (a.plus b).IsOffer := by
  refine ⟨?_, Nat.lt_min.mpr ⟨Nat.add_pos_left ha.2 b.max, by decide⟩⟩
  simp [Bound.plus, ha.1, hb.1]

/-- Offers of a model add up to the offer of all their units, cut at the threshold. -/
theorem get?_merged {bounds : List Bound} (h : ∀ b ∈ bounds, b.IsOffer) (x : Model) :
    (merged bounds).get? x =
      if maxSum bounds x = 0 then none else some (upTo x (maxSum bounds x)) := by
  have hmax := maxAt_merged bounds x
  rw [maxAt] at hmax
  cases hget : (merged bounds).get? x with
  | none =>
    rw [hget, Option.elim_none] at hmax
    have hzero : maxSum bounds x = 0 :=
      (Nat.min_eq_zero_iff.mp hmax.symm).resolve_right (by decide)
    rw [if_pos hzero]
  | some b =>
    rw [hget, Option.elim_some] at hmax
    have hoffer : b.IsOffer := forall_merged (P := fun _ b => b.IsOffer)
      (fun _ _ _ ha hb => ha.plus hb) h x b hget
    have hpos : maxSum bounds x ≠ 0 := fun hzero => by
      rw [hzero, Nat.zero_min] at hmax
      exact absurd hoffer.2 (Nat.not_lt.mpr (Nat.le_of_eq hmax))
    rw [if_neg hpos]
    exact congrArg some (Bound.ext (labelled_merged bounds x b hget) hoffer.1 hmax)

/-! ## The accumulated list -/

theorem mem_accumulateByModel {bounds : List Bound} {b : Bound} :
    b ∈ accumulateByModel bounds ↔ (merged bounds).get? b.model = some b := by
  rw [accumulateByModel_eq, List.mem_map]
  constructor
  · rintro ⟨⟨x, a⟩, he, rfl⟩
    have hget := Table.mem_entries_iff.mp he
    rw [labelled_merged bounds x a hget]
    exact hget
  · intro h
    exact ⟨(b.model, b), Table.mem_entries_iff.mpr h, rfl⟩

theorem map_model_accumulateByModel (bounds : List Bound) :
    (accumulateByModel bounds).map (·.model) = (merged bounds).keys := by
  rw [accumulateByModel_eq, List.map_map, Table.keys]
  refine List.map_congr_left fun e he => ?_
  exact labelled_merged bounds e.1 e.2 (Table.mem_entries_iff.mp he)

/-- Accumulation lists the models in order, each of them once. -/
theorem sorted_accumulateByModel (bounds : List Bound) :
    (accumulateByModel bounds).Pairwise fun a b => compare a.model b.model = .lt :=
  Table.sorted_of_map_eq_keys (map_model_accumulateByModel bounds)

/-- Accumulation leaves one bound per model. -/
theorem nodup_accumulateByModel (bounds : List Bound) :
    ((accumulateByModel bounds).map (·.model)).Nodup := by
  rw [map_model_accumulateByModel]
  exact (merged bounds).nodup_keys

/-- **Accumulation cuts once.** The maximum of a model is the exact sum of its maxima, cut at the
threshold. -/
theorem maxSum_accumulateByModel (bounds : List Bound) (x : Model) :
    maxSum (accumulateByModel bounds) x = Min.min (maxSum bounds x) threshold := by
  rw [← maxAt_merged, maxAt]
  cases hget : (merged bounds).get? x with
  | none =>
    refine maxSum_eq_zero fun b hb heq => ?_
    rw [mem_accumulateByModel, heq, hget] at hb
    cases hb
  | some b =>
    have hlabel := labelled_merged bounds x b hget
    subst hlabel
    exact maxSum_of_mem (nodup_accumulateByModel bounds) (mem_accumulateByModel.mpr hget)

/-- Accumulated offers are told apart by their sums, cut at the threshold. -/
theorem accumulateByModel_congr {as bs : List Bound} (has : ∀ b ∈ as, b.IsOffer)
    (hbs : ∀ b ∈ bs, b.IsOffer)
    (h : ∀ x, Min.min (maxSum as x) threshold = Min.min (maxSum bs x) threshold) :
    accumulateByModel as = accumulateByModel bs := by
  have htable : merged as = merged bs := by
    refine Table.ext_get? fun x => ?_
    have hupTo : upTo x (maxSum as x) = upTo x (maxSum bs x) := Bound.ext rfl rfl (h x)
    have hzero : maxSum as x = 0 ↔ maxSum bs x = 0 := by
      have hcut : 0 < threshold := by decide
      have hx := h x
      omega
    rw [get?_merged has, get?_merged hbs, hupTo]
    simp only [hzero]
  rw [accumulateByModel_eq, accumulateByModel_eq, htable]

/-- The bound found for a model has the sum for its maximum; none is found where the sum is zero. -/
theorem max_find?_of_nodup {bounds : List Bound} (hnodup : (bounds.map (·.model)).Nodup)
    (x : Model) :
    ((bounds.find? fun b => b.model = x).elim 0 (·.max)) = maxSum bounds x := by
  cases hfind : bounds.find? fun b => decide (b.model = x) with
  | none =>
    refine (maxSum_eq_zero fun b hb => ?_).symm
    simpa using List.find?_eq_none.mp hfind b hb
  | some b =>
    have hmodel : b.model = x := by simpa using List.find?_some hfind
    subst hmodel
    exact (maxSum_of_mem hnodup (List.mem_of_find?_eq_some hfind)).symm

end Bound

end Provision
