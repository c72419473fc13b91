import Provision.Bound
import Provision.Proofs.Table

/-!
# Intersected bounds

Bounds of one model are intersected by their ends, without a look at whether anything is left
between them. Only at the end is each pair of ends made a bound, which fails where they are out of
order. At every point the ends of a model admit just what all its bounds so far admit, so that the
failures are those of the models whose bounds share no number.

## Main definitions

* `Bound.Describes bounds asked admitted`: in model order, one bound for every model asked for,
  which admits just what is admitted of the model.
* `Bound.AllAdmit bounds m n`: all bounds of a model admit a number.

## Main results

* `Bound.intersectByModel_eq_ok_iff`: intersecting gives the list that describes the conjunction of
  the bounds.
* `Bound.exists_intersectByModel_iff`: it fails just when the bounds of a model share no number.
-/

namespace Provision

namespace Bound

theorem admits_iff {b : Bound} {n : Nat} : b.admits n = true ↔ b.min ≤ n ∧ n ≤ b.max := by
  simp [admits]

theorem le_threshold_of_admits {b : Bound} {n : Nat} (h : b.admits n = true) : n ≤ threshold :=
  Nat.le_trans (admits_iff.mp h).2 b.max_le_threshold

theorem admits_min (b : Bound) : b.admits b.min = true :=
  admits_iff.mpr ⟨Nat.le_refl _, b.min_le_max⟩

theorem admits_max (b : Bound) : b.admits b.max = true :=
  admits_iff.mpr ⟨b.min_le_max, Nat.le_refl _⟩

/-- Bounds of a model are equal when they admit the same numbers. -/
theorem ext_admits {a b : Bound} (hmodel : a.model = b.model)
    (h : ∀ n, a.admits n = true ↔ b.admits n = true) : a = b := by
  have hamin := admits_iff.mp ((h a.min).mp a.admits_min)
  have hamax := admits_iff.mp ((h a.max).mp a.admits_max)
  have hbmin := admits_iff.mp ((h b.min).mpr b.admits_min)
  have hbmax := admits_iff.mp ((h b.max).mpr b.admits_max)
  exact ext hmodel (by omega) (by omega)

/-! ## Descriptions -/

/-- In model order, one bound for every model asked for, which admits just what is admitted of the
model. -/
structure Describes (bounds : List Bound) (asked : Model → Prop) (admitted : Model → Nat → Prop) :
    Prop where
  sorted : bounds.Pairwise fun a b => compare a.model b.model = .lt
  models : ∀ m, (∃ b ∈ bounds, b.model = m) ↔ asked m
  admits_iff : ∀ b ∈ bounds, ∀ n, b.admits n = true ↔ admitted b.model n

namespace Describes
variable {as bs : List Bound} {asked asked' : Model → Prop}
  {admitted admitted' : Model → Nat → Prop}

theorem mem_of_mem (has : Describes as asked admitted) (hbs : Describes bs asked admitted)
    {a : Bound} (ha : a ∈ as) : a ∈ bs := by
  obtain ⟨b, hb, hmodel⟩ := (hbs.models a.model).mpr ((has.models a.model).mp ⟨a, ha, rfl⟩)
  have heq : a = b := ext_admits hmodel.symm fun n => by
    rw [has.admits_iff a ha, hbs.admits_iff b hb, hmodel]
  exact heq ▸ hb

/-- There is only one description. -/
theorem eq (has : Describes as asked admitted) (hbs : Describes bs asked admitted) : as = bs :=
  eq_of_sorted has.sorted hbs.sorted fun _ => ⟨has.mem_of_mem hbs, hbs.mem_of_mem has⟩

/-- Some number is admitted of every model, given that zero is of the models not asked for. -/
theorem exists_admitted (h : Describes as asked admitted) (hrest : ∀ m, ¬asked m → admitted m 0)
    (m : Model) : ∃ n, admitted m n := by
  by_cases hm : asked m
  · obtain ⟨b, hb, rfl⟩ := (h.models m).mpr hm
    exact ⟨b.min, (h.admits_iff b hb b.min).mp b.admits_min⟩
  · exact ⟨0, hrest m hm⟩

theorem of_iff (h : Describes as asked admitted) (hasked : ∀ m, asked m ↔ asked' m)
    (hadmitted : ∀ m, asked m → ∀ n, admitted m n ↔ admitted' m n) :
    Describes as asked' admitted' where
  sorted := h.sorted
  models m := (h.models m).trans (hasked m)
  admits_iff b hb n := by
    have hm : asked b.model := (h.models b.model).mp ⟨b, hb, rfl⟩
    rw [h.admits_iff b hb, hadmitted b.model hm]

/-- What is admitted of the models that are not asked for makes no difference. -/
theorem congr (hasked : ∀ m, asked m ↔ asked' m)
    (hadmitted : ∀ m, asked m → ∀ n, admitted m n ↔ admitted' m n) :
    Describes as asked admitted ↔ Describes as asked' admitted' := by
  refine ⟨fun h => h.of_iff hasked hadmitted, fun h => ?_⟩
  refine h.of_iff (fun m => (hasked m).symm) fun m hm n => ?_
  exact (hadmitted m ((hasked m).mpr hm) n).symm

end Describes

/-! ## Common ends -/

section
variable {t : Table Model (Nat × Nat)} {bounds rs : List Bound} {b : Bound} {m : Model} {n : Nat}

/-- The ends that one more bound leaves. -/
def narrowed (b : Bound) : Option (Nat × Nat) → Nat × Nat
  | none => (b.min, b.max)
  | some (lo, hi) => (Nat.max lo b.min, Nat.min hi b.max)

theorem commonEnds_eq (bounds : List Bound) :
    commonEnds bounds = bounds.foldl (fun t b => t.update b.model b.narrowed) .empty := rfl

/-- The ends of a model in a table, if it has any, admit a number. -/
def EndsAdmit (t : Table Model (Nat × Nat)) (m : Model) (n : Nat) : Prop :=
  ∀ e, t.get? m = some e → e.1 ≤ n ∧ n ≤ e.2

/-- One more bound of a model takes away what it does not admit. -/
theorem endsAdmit_update_iff : EndsAdmit (t.update b.model b.narrowed) m n ↔
    EndsAdmit t m n ∧ (b.model = m → b.admits n = true) := by
  rw [EndsAdmit, EndsAdmit, Table.get?_update, admits_iff]
  by_cases hm : m = b.model
  · subst hm
    cases t.get? b.model with
    | none => simp [narrowed]
    | some e =>
      simp only [narrowed, if_pos, Option.some.injEq, forall_eq', forall_const]
      rw [Nat.max_le, Nat.le_min]
      tauto
  · simp [hm, Ne.symm hm]

theorem isSome_update_iff :
    ((t.update b.model b.narrowed).get? m).isSome ↔ (t.get? m).isSome ∨ b.model = m := by
  rw [Table.get?_update]
  by_cases hm : m = b.model
  · simp [hm]
  · simp [hm, Ne.symm hm]

/-- All bounds of a model in a list admit a number. -/
def AllAdmit (bounds : List Bound) (m : Model) (n : Nat) : Prop :=
  ∀ b ∈ bounds, b.model = m → b.admits n = true

/-- The ends of a table admit what its ends have admitted before and all bounds taken in since. -/
theorem endsAdmit_foldl_iff :
    EndsAdmit (bounds.foldl (fun t b => t.update b.model b.narrowed) t) m n ↔
      EndsAdmit t m n ∧ AllAdmit bounds m n := by
  induction bounds generalizing t with
  | nil => simp [AllAdmit]
  | cons b rest ih =>
    rw [List.foldl_cons, ih, endsAdmit_update_iff, AllAdmit, AllAdmit, List.forall_mem_cons,
      and_assoc]

theorem isSome_foldl_iff :
    ((bounds.foldl (fun t b => t.update b.model b.narrowed) t).get? m).isSome ↔
      (t.get? m).isSome ∨ ∃ b ∈ bounds, b.model = m := by
  induction bounds generalizing t with
  | nil => simp
  | cons b rest ih =>
    rw [List.foldl_cons, ih, isSome_update_iff, List.exists_mem_cons_iff, or_assoc]

theorem endsAdmit_commonEnds_iff : EndsAdmit (commonEnds bounds) m n ↔ AllAdmit bounds m n := by
  rw [commonEnds_eq, endsAdmit_foldl_iff]
  simp [EndsAdmit]

theorem mem_keys_commonEnds_iff : m ∈ (commonEnds bounds).keys ↔ ∃ b ∈ bounds, b.model = m := by
  rw [Table.mem_keys_iff, commonEnds_eq, isSome_foldl_iff]
  simp

/-! ## Intersections -/

/-- What the ends of a model admit, cut at the threshold, is what all its bounds admit. -/
theorem admitted_iff {lo hi : Nat} (he : (m, (lo, hi)) ∈ (commonEnds bounds).entries) :
    lo ≤ n ∧ n ≤ Nat.min hi threshold ↔ AllAdmit bounds m n := by
  have hkey : m ∈ (commonEnds bounds).keys := List.mem_map.mpr ⟨_, he, rfl⟩
  obtain ⟨b, hb, hmodel⟩ := mem_keys_commonEnds_iff.mp hkey
  have hends : EndsAdmit (commonEnds bounds) m n ↔ lo ≤ n ∧ n ≤ hi := by
    rw [EndsAdmit, Table.mem_entries_iff.mp he]
    simp
  rw [← endsAdmit_commonEnds_iff, hends, Nat.le_min]
  constructor
  · exact fun ⟨hlo, hhi, _⟩ => ⟨hlo, hhi⟩
  · intro h
    -- The table has the model from a bound, and what this one admits is below the threshold.
    have hall := endsAdmit_commonEnds_iff.mp (hends.mpr h)
    exact ⟨h.1, h.2, le_threshold_of_admits (hall b hb hmodel)⟩

/-- The models of the bounds made of ends are the keys of the table. -/
theorem map_model_of_forall₂ {entries : List (Model × Nat × Nat)}
    (h : List.Forall₂ (fun e r => make e.1 e.2.1 e.2.2 = .ok r) entries rs) :
    rs.map (·.model) = entries.map (·.1) := by
  induction h with
  | nil => rfl
  | cons he _ ih => rw [List.map_cons, List.map_cons, ih, (make_eq_ok_iff.mp he).1]

theorem describes_of_intersectByModel (h : intersectByModel bounds = .ok rs) :
    Describes rs (fun m => ∃ b ∈ bounds, b.model = m) (AllAdmit bounds) := by
  have hmade := mapM_eq_ok_iff.mp h
  have hkeys : rs.map (·.model) = (commonEnds bounds).keys := map_model_of_forall₂ hmade
  refine ⟨Table.sorted_of_map_eq_keys hkeys, fun m => ?_, fun r hr n => ?_⟩
  · have hmem : m ∈ rs.map (·.model) ↔ ∃ r ∈ rs, r.model = m := List.mem_map
    rw [← hmem, hkeys, mem_keys_commonEnds_iff]
  · obtain ⟨⟨m, lo, hi⟩, he, hr⟩ := (exists_of_forall₂ hmade).2 r hr
    obtain ⟨hmodel, hmin, hmax⟩ := make_eq_ok_iff.mp hr
    rw [admits_iff, hmodel, hmin, hmax]
    exact admitted_iff he

theorem exists_allAdmit (h : Describes rs (fun m => ∃ b ∈ bounds, b.model = m) (AllAdmit bounds))
    (m : Model) : ∃ n, AllAdmit bounds m n :=
  h.exists_admitted (fun _ hm b hb hmodel => absurd ⟨b, hb, hmodel⟩ hm) m

/-- Bounds can be intersected just when those of each model share a number. -/
theorem exists_intersectByModel_iff :
    (∃ rs, intersectByModel bounds = .ok rs) ↔ ∀ m, ∃ n, AllAdmit bounds m n := by
  constructor
  · intro ⟨rs, h⟩
    exact exists_allAdmit (describes_of_intersectByModel h)
  · intro h
    simp only [intersectByModel, mapM_eq_ok_iff, exists_forall₂_iff]
    intro ⟨m, lo, hi⟩ he
    obtain ⟨n, hn⟩ := h m
    obtain ⟨hlo, hhi⟩ := (admitted_iff he).mpr hn
    exact ⟨⟨m, lo, Nat.min hi threshold, Nat.le_trans hlo hhi, Nat.min_le_right _ _⟩,
      make_eq_ok_iff.mpr ⟨rfl, rfl, rfl⟩⟩

/-- Bounds are intersected to the list that describes their conjunction. -/
theorem intersectByModel_eq_ok_iff : intersectByModel bounds = .ok rs ↔
    Describes rs (fun m => ∃ b ∈ bounds, b.model = m) (AllAdmit bounds) := by
  refine ⟨describes_of_intersectByModel, fun h => ?_⟩
  obtain ⟨rs', hrs'⟩ := exists_intersectByModel_iff.mpr (exists_allAdmit h)
  rw [hrs', (describes_of_intersectByModel hrs').eq h]

end

end Bound

end Provision
