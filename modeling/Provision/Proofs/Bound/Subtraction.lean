import Mathlib.Algebra.BigOperators.Group.List.Basic
import Provision.Bound
import Provision.Proofs.Table

/-!
# Subtracted lists

From a bound, the minima of all bounds of its model in a list are subtracted one after the other. A
minimum that goes below zero stops there, and a bound is refused as soon as one of them exceeds what
is left of its maximum. All this depends on the exact sum of the minima only: a bound that has it is
lowered by it at both ends, and a bound that does not have it is refused at some point.

## Main definitions

* `Bound.minSum bounds m`: the sum of the minima of the bounds of a model.
* `Bound.lowered a n`: the bound with both ends lowered, as far as zero.
* `Bound.leftover as bs`: the entries of `as` that have what `bs` takes of their models, lowered.
* `Bound.Exceeds bs a available b`: from `a`, the list runs up to `b`, for which too little is left.

## Main results

* `Bound.subtractAll_of_le`, `Bound.exists_subtractAll_of_lt`: a list subtracted from one bound.
* `Bound.subtractLists_exact`: a list subtracted from a list, with all its failures.
-/

namespace Provision

namespace Bound

/-! ## Sums of minima -/

/-- The minima of all bounds of a model, added up. -/
def minSum (bounds : List Bound) (m : Model) : Nat :=
  (bounds.map fun b => if b.model = m then b.min else 0).sum

@[simp] theorem minSum_nil (m : Model) : minSum [] m = 0 := rfl

@[simp] theorem minSum_cons (b : Bound) (rest : List Bound) (m : Model) :
    minSum (b :: rest) m = (if b.model = m then b.min else 0) + minSum rest m := rfl

theorem minSum_perm {as bs : List Bound} (h : as.Perm bs) (m : Model) :
    minSum as m = minSum bs m :=
  (h.map _).sum_eq

/-! ## A list subtracted from one bound -/

/-- The bound with both ends lowered by a number of units; an end stops at zero. -/
def lowered (a : Bound) (n : Nat) : Bound :=
  ⟨a.model, a.min - n, a.max - n, Nat.sub_le_sub_right a.min_le_max n,
    Nat.le_trans (Nat.sub_le a.max n) a.max_le_threshold⟩

@[simp] theorem model_lowered (a : Bound) (n : Nat) : (a.lowered n).model = a.model := rfl

@[simp] theorem max_lowered (a : Bound) (n : Nat) : (a.lowered n).max = a.max - n := rfl

theorem lowered_lowered (a : Bound) (m n : Nat) : (a.lowered m).lowered n = a.lowered (m + n) :=
  ext rfl (Nat.sub_sub a.min m n) (Nat.sub_sub a.max m n)

theorem subtractMin_of_le {a b : Bound} (hmodel : b.model = a.model) (h : b.min ≤ a.max) :
    a.subtractMin b = .ok (a.lowered b.min) := by
  simp [subtractMin, hmodel, Nat.not_lt.mpr h, lowered]

theorem subtractMin_of_lt {a b : Bound} (hmodel : b.model = a.model) (h : a.max < b.min) :
    a.subtractMin b = .error (.insufficientBound a.model a.max b.min) := by
  simp [subtractMin, hmodel, h]

section
variable {a b : Bound} {bs : List Bound}

theorem subtractAll_nil : a.subtractAll [] = .ok a := rfl

/-- Bounds of other models are passed over. -/
theorem subtractAll_cons_of_ne (hmodel : b.model ≠ a.model) :
    a.subtractAll (b :: bs) = a.subtractAll bs := by
  simp [subtractAll, hmodel]

theorem subtractAll_cons_of_le (hmodel : b.model = a.model) (h : b.min ≤ a.max) :
    a.subtractAll (b :: bs) = (a.lowered b.min).subtractAll bs := by
  rw [subtractAll, List.filter_cons, if_pos (decide_eq_true hmodel), List.foldlM_cons,
    subtractMin_of_le hmodel h]
  rfl

theorem subtractAll_cons_of_lt (hmodel : b.model = a.model) (h : a.max < b.min) :
    a.subtractAll (b :: bs) = .error (.insufficientBound a.model a.max b.min) := by
  rw [subtractAll, List.filter_cons, if_pos (decide_eq_true hmodel), List.foldlM_cons,
    subtractMin_of_lt hmodel h]
  rfl

/-- A bound that has what a list takes of its model is lowered by the sum. -/
theorem subtractAll_of_le (h : minSum bs a.model ≤ a.max) :
    a.subtractAll bs = .ok (a.lowered (minSum bs a.model)) := by
  induction bs generalizing a with
  | nil => exact subtractAll_nil
  | cons b rest ih =>
    rw [minSum_cons] at h ⊢
    by_cases hmodel : b.model = a.model
    · rw [if_pos hmodel] at h ⊢
      have hrest : minSum rest a.model ≤ a.max - b.min := by omega
      rw [subtractAll_cons_of_le hmodel (by omega), ih hrest, lowered_lowered, model_lowered]
    · rw [if_neg hmodel, Nat.zero_add] at h ⊢
      rw [subtractAll_cons_of_ne hmodel, ih h]

/-- The bounds of a list up to one of them leave some units of a bound, which are too few for it. -/
def Exceeds (bs : List Bound) (a : Bound) (available : Nat) (b : Bound) : Prop :=
  ∃ taken rest, bs = taken ++ b :: rest ∧ b.model = a.model ∧ minSum taken a.model ≤ a.max ∧
    available = a.max - minSum taken a.model ∧ available < b.min

theorem Exceeds.cons_of_ne {available : Nat} {c : Bound} (h : Exceeds bs a available c)
    (hmodel : b.model ≠ a.model) : Exceeds (b :: bs) a available c := by
  obtain ⟨taken, rest, rfl, hc, hle, havailable, hlt⟩ := h
  refine ⟨b :: taken, rest, rfl, hc, ?_, ?_, hlt⟩ <;>
    simpa [hmodel]

theorem Exceeds.cons_of_le {available : Nat} {c : Bound}
    (h : Exceeds bs (a.lowered b.min) available c) (hmodel : b.model = a.model)
    (hb : b.min ≤ a.max) : Exceeds (b :: bs) a available c := by
  obtain ⟨taken, rest, rfl, hc, hle, havailable, hlt⟩ := h
  rw [model_lowered, max_lowered] at *
  refine ⟨b :: taken, rest, rfl, hc, ?_, ?_, hlt⟩ <;>
    rw [minSum_cons, if_pos hmodel] <;> omega

/-- A bound that does not have what a list takes of its model is refused at the first bound of the
list for which too little is left. -/
theorem exists_subtractAll_of_lt (h : a.max < minSum bs a.model) :
    ∃ available b, Exceeds bs a available b ∧
      a.subtractAll bs = .error (.insufficientBound a.model available b.min) := by
  induction bs generalizing a with
  | nil => simp at h
  | cons b rest ih =>
    rw [minSum_cons] at h
    by_cases hmodel : b.model = a.model
    · rw [if_pos hmodel] at h
      rcases Nat.lt_or_ge a.max b.min with hlt | hle
      · refine ⟨a.max, b, ⟨[], rest, rfl, hmodel, Nat.zero_le _, rfl, hlt⟩, ?_⟩
        exact subtractAll_cons_of_lt hmodel hlt
      · have hrest : (a.lowered b.min).max < minSum rest (a.lowered b.min).model := by
          rw [max_lowered, model_lowered]
          omega
        obtain ⟨available, c, hc, heq⟩ := ih hrest
        refine ⟨available, c, hc.cons_of_le hmodel hle, ?_⟩
        rw [subtractAll_cons_of_le hmodel hle, heq, model_lowered]
    · rw [if_neg hmodel, Nat.zero_add] at h
      obtain ⟨available, c, hc, heq⟩ := ih h
      refine ⟨available, c, hc.cons_of_ne hmodel, ?_⟩
      rw [subtractAll_cons_of_ne hmodel, heq]

end

/-! ## A list subtracted from a list -/

section
variable {as bs : List Bound}

/-- The entries that have what a list takes of their models, in order, each lowered by it. -/
def leftover (as bs : List Bound) : List Bound :=
  (as.filter fun a => minSum bs a.model ≤ a.max).map fun a => a.lowered (minSum bs a.model)

theorem leftover_perm {cs : List Bound} (h : bs.Perm cs) : leftover as bs = leftover as cs := by
  simp [leftover, minSum_perm h]

theorem toOption_subtractAll (a : Bound) (bs : List Bound) :
    (a.subtractAll bs).toOption =
      if minSum bs a.model ≤ a.max then some (a.lowered (minSum bs a.model)) else none := by
  rcases Nat.lt_or_ge a.max (minSum bs a.model) with hlt | hle
  · obtain ⟨available, b, -, herror⟩ := exists_subtractAll_of_lt hlt
    rw [herror, if_neg (Nat.not_le.mpr hlt)]
    rfl
  · rw [subtractAll_of_le hle, if_pos hle]
    rfl

theorem filterMap_subtractAll (as bs : List Bound) :
    as.filterMap (fun a => (a.subtractAll bs).toOption) = leftover as bs := by
  induction as with
  | nil => rfl
  | cons a rest ih =>
    rw [leftover] at ih ⊢
    by_cases h : minSum bs a.model ≤ a.max <;> simp [toOption_subtractAll, h, ← ih]

theorem mapM_subtractAll (h : ∀ a ∈ as, minSum bs a.model ≤ a.max) :
    as.mapM (·.subtractAll bs) = .ok (leftover as bs) := by
  induction as with
  | nil => rfl
  | cons a rest ih =>
    obtain ⟨ha, hrest⟩ := List.forall_mem_cons.mp h
    rw [leftover] at ih ⊢
    rw [List.mapM_cons, subtractAll_of_le ha, ih hrest]
    simp [ha, bind, Except.bind, pure, Except.pure]

/-- The first entry that does not have what is taken of its model is the one that fails. -/
theorem exists_mapM_subtractAll {a : Bound}
    (h : IsFirst (fun a => a.max < minSum bs a.model) as a) :
    ∃ available b, Exceeds bs a available b ∧
      as.mapM (·.subtractAll bs) = .error (.insufficientBound a.model available b.min) := by
  obtain ⟨available, b, hexceeds, herror⟩ := exists_subtractAll_of_lt h.1
  refine ⟨available, b, hexceeds, ?_⟩
  refine mapM_eq_error_of_isFirst h (fun x _ hx => ?_) herror
  exact ⟨_, subtractAll_of_le (Nat.not_lt.mp hx)⟩

/-- The first model that is not listed is the one that fails. -/
theorem subtractLists_of_isFirst {b : Bound}
    (h : IsFirst (fun b => ∀ a ∈ as, a.model ≠ b.model) bs b) (drop : Bool) :
    subtractLists as bs drop = .error (.modelNotFound b.model) := by
  have hfind : (bs.find? fun b => as.all fun a => a.model ≠ b.model) = some b := by
    simpa [find?_eq_some_iff_isFirst] using h
  rw [subtractLists, hfind]

theorem subtractLists_of_listed (h : ∀ b ∈ bs, ∃ a ∈ as, a.model = b.model) (drop : Bool) :
    subtractLists as bs drop =
      if drop then .ok (leftover as bs) else as.mapM (·.subtractAll bs) := by
  have hfind : (bs.find? fun b => as.all fun a => a.model ≠ b.model) = none := by
    simpa using h
  rw [subtractLists, hfind, ← filterMap_subtractAll]

/-- When a list can be subtracted, and what is left then. -/
theorem subtractLists_eq_ok_iff {drop : Bool} {r : List Bound} :
    subtractLists as bs drop = .ok r ↔
      (∀ b ∈ bs, ∃ a ∈ as, a.model = b.model) ∧
        (drop = true ∨ ∀ a ∈ as, minSum bs a.model ≤ a.max) ∧ r = leftover as bs := by
  rcases isFirst_or_forall (fun b => ∀ a ∈ as, a.model ≠ b.model) bs with ⟨b, hb⟩ | hnone
  · rw [subtractLists_of_isFirst hb]
    simp only [reduceCtorEq, false_iff, not_and]
    intro hlisted
    obtain ⟨a, ha, hmodel⟩ := hlisted b hb.mem
    exact absurd hmodel (hb.1 a ha)
  have hlisted : ∀ b ∈ bs, ∃ a ∈ as, a.model = b.model := by simpa using hnone
  rw [subtractLists_of_listed hlisted, and_iff_right hlisted]
  cases drop with
  | true => simp [eq_comm]
  | false =>
    rw [if_neg Bool.false_ne_true]
    rcases isFirst_or_forall (fun a => a.max < minSum bs a.model) as with ⟨a, ha⟩ | hall
    · obtain ⟨available, b, -, herror⟩ := exists_mapM_subtractAll ha
      have hnot : ¬∀ a ∈ as, minSum bs a.model ≤ a.max := by
        intro hle
        exact Nat.not_lt.mpr (hle a ha.mem) ha.1
      simp only [herror, hnot, reduceCtorEq, or_self, false_and]
    · have hle : ∀ a ∈ as, minSum bs a.model ≤ a.max := by simpa using hall
      rw [mapM_subtractAll hle, and_iff_right (.inr hle), Except.ok.injEq, eq_comm]

/-- **Lists are subtracted exactly, and in any order.** The first model that is not listed is
reported, whatever else fails. Otherwise the entries that have the exact sum of what is taken of
their models are lowered by it, and the first one that does not have it is reported unless such
entries are dropped. What is left does not depend on the order of the list subtracted. -/
theorem subtractLists_exact (as bs : List Bound) :
    (∀ b, IsFirst (fun b => ∀ a ∈ as, a.model ≠ b.model) bs b →
      ∀ drop, subtractLists as bs drop = .error (.modelNotFound b.model)) ∧
    ((∀ b ∈ bs, ∃ a ∈ as, a.model = b.model) →
      subtractLists as bs true = .ok (leftover as bs) ∧
      ((∀ a ∈ as, minSum bs a.model ≤ a.max) →
        subtractLists as bs false = .ok (leftover as bs)) ∧
      ∀ a, IsFirst (fun a => a.max < minSum bs a.model) as a →
        ∃ available b, Exceeds bs a available b ∧
          subtractLists as bs false = .error (.insufficientBound a.model available b.min)) ∧
    ∀ cs drop r, bs.Perm cs → subtractLists as bs drop = .ok r →
      subtractLists as cs drop = .ok r := by
  refine ⟨fun b hb drop => subtractLists_of_isFirst hb drop, fun hlisted => ⟨?_, ?_, ?_⟩, ?_⟩
  · exact subtractLists_eq_ok_iff.mpr ⟨hlisted, .inl rfl, rfl⟩
  · intro hle
    exact subtractLists_eq_ok_iff.mpr ⟨hlisted, .inr hle, rfl⟩
  · intro a ha
    rw [subtractLists_of_listed hlisted]
    exact exists_mapM_subtractAll ha
  · intro cs drop r hperm hr
    rw [subtractLists_eq_ok_iff] at hr ⊢
    simp only [← minSum_perm hperm, ← leftover_perm hperm, ← hperm.mem_iff]
    exact hr

/-- One arm and four cameras are subtracted from two bounds on cameras and one on arms. The camera
bound of at most three fails, on its second subtraction, or is left out; a wheel is not found. -/
theorem subtractLists_exact_rover :
    let camera : Model := ⟨"camera"⟩
    let arm : Model := ⟨"arm"⟩
    let wheel : Model := ⟨"wheel"⟩
    let narrow : Bound := ⟨camera, 1, 3, by decide, by decide⟩
    let rest : List Bound :=
      [⟨arm, 2, 5, by decide, by decide⟩, ⟨camera, 3, 6, by decide, by decide⟩]
    let pair : Bound := ⟨camera, 2, 2, by decide, by decide⟩
    let taken : List Bound := [pair, ⟨arm, 1, 4, by decide, by decide⟩, pair]
    let left : List Bound :=
      [⟨arm, 1, 4, by decide, by decide⟩, ⟨camera, 0, 2, by decide, by decide⟩]
    subtractLists (narrow :: rest) (taken ++ [unbounded wheel]) true =
        .error (.modelNotFound wheel) ∧
      subtractLists (narrow :: rest) taken true = .ok left ∧
      subtractLists (narrow :: rest) taken.reverse true = .ok left ∧
      subtractLists rest taken false = .ok left ∧
      ∃ available b, Exceeds taken narrow available b ∧
        subtractLists (narrow :: rest) taken false =
          .error (.insufficientBound camera available b.min) := by
  intro camera arm wheel narrow rest pair taken left
  have hlisted : ∀ b ∈ taken, ∃ a ∈ narrow :: rest, a.model = b.model := by decide
  have hdropped := (subtractLists_exact (narrow :: rest) taken).2.1 hlisted
  refine ⟨?_, hdropped.1, ?_, ?_, ?_⟩
  · refine (subtractLists_exact (narrow :: rest) (taken ++ [unbounded wheel])).1 (unbounded wheel)
      ⟨by decide, taken, [], rfl, ?_⟩ true
    intro b hb hnone
    obtain ⟨a, ha, hmodel⟩ := hlisted b hb
    exact hnone a ha hmodel
  · exact (subtractLists_exact (narrow :: rest) taken).2.2 taken.reverse true left
      (List.reverse_perm taken).symm hdropped.1
  · exact ((subtractLists_exact rest taken).2.1 (by decide)).2.1 (by decide)
  · exact hdropped.2.2 narrow ⟨by decide, [], rest, rfl, by simp⟩

end

end Bound

end Provision
