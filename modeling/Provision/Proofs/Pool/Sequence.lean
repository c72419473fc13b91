import Mathlib.Data.List.Chain
import Provision.Proofs.Pool.Enumeration

/-!
# The sequence of sub-pools

An odometer hands out the sub-pools of a pool one by one. Every turn goes forward in the order in
which the first model counts least, so no sub-pool is handed out twice; the turns that are left are
the product of the wheels' positions less one; and rewinding the wheels undoes all turns.

## Main definitions

* `Pool.Before p q`: `p` comes before `q` in the order of an odometer.
* `Odometer.after o n`: the odometer after `n` sub-pools have been asked for.
-/

namespace Provision

/-! ## The order of an odometer -/

namespace Pool
variable {p q r : Pool}

/-- Of the last model of which the pools have different numbers of units, the first has fewer. -/
def Before (p q : Pool) : Prop :=
  ∃ m, p.count m < q.count m ∧ ∀ m', compare m m' = .lt → p.count m' = q.count m'

theorem Before.trans (hpq : p.Before q) (hqr : q.Before r) : p.Before r := by
  obtain ⟨m, hm, hsame⟩ := hpq
  obtain ⟨k, hk, hsame'⟩ := hqr
  cases horder : compare m k with
  | lt =>
    refine ⟨k, hsame k horder ▸ hk, fun m' hlt => ?_⟩
    rw [hsame m' (Std.TransCmp.lt_trans horder hlt), hsame' m' hlt]
  | eq =>
    obtain rfl := Std.LawfulEqOrd.eq_of_compare horder
    exact ⟨m, hm.trans hk, fun m' hlt => (hsame m' hlt).trans (hsame' m' hlt)⟩
  | gt =>
    have hback : compare k m = .lt := Std.OrientedCmp.lt_of_gt horder
    refine ⟨m, hsame' m hback ▸ hm, fun m' hlt => ?_⟩
    rw [hsame m' hlt, hsame' m' (Std.TransCmp.lt_trans hback hlt)]

theorem not_before_self (p : Pool) : ¬p.Before p := fun ⟨_, hlt, _⟩ => Nat.lt_irrefl _ hlt

instance : Trans Before Before Before where
  trans := Before.trans

end Pool

namespace Odometer
variable {step : Nat} {hstep : 0 < step} {ws vs us : List Wheel} {bound : Pool}

/-- A turn rewinds the wheels at their bound up to the first one that is not, and advances that
one. -/
theorem exists_of_turn (h : turn step vs = some us) :
    ∃ full w rest, vs = full ++ w :: rest ∧ us = full.map Wheel.rewind ++ w.advance step :: rest ∧
      w.reading < w.bound := by
  induction vs generalizing us with
  | nil => cases h
  | cons v rest ih =>
    rw [turn] at h
    split at h
    · obtain ⟨us', hrest, rfl⟩ := Option.map_eq_some_iff.mp h
      obtain ⟨full, w, tail, rfl, rfl, hlt⟩ := ih hrest
      exact ⟨v :: full, w, tail, rfl, rfl, hlt⟩
    · next hne =>
      cases h
      exact ⟨[], v, rest, rfl, rfl, Nat.lt_of_le_of_ne v.reading_le hne⟩

/-- The wheels of a pool stand in the order of their models. -/
theorem sorted_model_wheelsOf (bound : Pool) :
    ((wheelsOf bound).map Wheel.model).Pairwise (compare · · = .lt) := by
  rw [wheelsOf, List.map_map]
  exact List.pairwise_map.mpr (List.Pairwise.sublist List.filter_sublist bound.sorted)

/-- **A turn goes forward**: it adds to the units of one model, and takes none but of models before
it. -/
theorem before_of_turn (hvs : Shows step (wheelsOf bound) vs) (hus : Shows step (wheelsOf bound) us)
    (hpos : 0 < step) (h : turn step vs = some us) : (reading vs).Before (reading us) := by
  obtain ⟨full, w, rest, rfl, rfl, hlt⟩ := exists_of_turn h
  have hw : w ∈ full ++ w :: rest := by simp
  have hadvanced : w.advance step ∈ full.map Wheel.rewind ++ w.advance step :: rest := by simp
  refine ⟨w.model, ?_, fun m hm => ?_⟩
  · have hcount := hus.count_reading_of_mem hadvanced
    have hmodel : (w.advance step).model = w.model := rfl
    have hreading : (w.advance step).reading = min (w.reading + step) w.bound := rfl
    rw [hmodel, hreading] at hcount
    rw [hvs.count_reading_of_mem hw, hcount]
    omega
  · by_cases hnone : bound.count m = 0
    · rw [hvs.count_reading_of_count_eq_zero hnone, hus.count_reading_of_count_eq_zero hnone]
    · -- A later model has its wheel behind the one that is advanced.
      have hsorted := hvs.map_model ▸ sorted_model_wheelsOf bound
      obtain ⟨v, hv, rfl⟩ := exists_mem_wheelsOf hnone
      have hmem : v.model ∈ (full ++ w :: rest).map Wheel.model :=
        hvs.map_model ▸ List.mem_map_of_mem hv
      rw [List.map_append, List.map_cons, List.pairwise_append] at hsorted
      rw [List.map_append, List.map_cons, List.mem_append, List.mem_cons] at hmem
      have hrest : v.model ∈ rest.map Wheel.model := by
        rcases hmem with hfull | heq | hrest
        · have hbefore := hsorted.2.2 _ hfull _ List.mem_cons_self
          rw [Std.OrientedCmp.gt_of_lt hm] at hbefore
          cases hbefore
        · exact absurd (Std.LawfulEqOrd.compare_eq_iff_eq.mpr heq.symm) (by rw [hm]; nofun)
        · exact hrest
      obtain ⟨u, hu, heq⟩ := List.mem_map.mp hrest
      rw [← heq, hvs.count_reading_of_mem (by simp [hu]), hus.count_reading_of_mem (by simp [hu])]

/-- Each reading is one turn after the one before it. -/
theorem isChain_visits (hstep : 0 < step) (ws : List Wheel) :
    (visits step hstep ws).IsChain fun vs us => turn step vs = some us := by
  cases hturn : turn step ws with
  | none =>
    rw [visits_of_turn_eq_none hturn]
    exact .singleton _
  | some ws' =>
    have hrest := isChain_visits hstep ws'
    rw [visits_of_turn hturn]
    rw [visits_eq_cons] at hrest ⊢
    exact .cons_cons hturn hrest
termination_by turnsLeft step ws
decreasing_by exact Nat.lt_of_succ_le (turnsLeft_of_turn hstep hturn).ge

/-- The sub-pools are handed out in the order of the odometer. -/
theorem pairwise_before_toList (bound : Pool) (step : Nat) :
    (withStep bound step).toList.Pairwise Pool.Before := by
  have hempty : (withStep bound step).exhausted = true → (withStep bound step).wheels = [] :=
    List.isEmpty_iff.mp
  rw [toList_eq hempty, wheels_withStep]
  have hchain := (isChain_visits (withStep bound step).step_pos
    ((wheelsOf bound).map Wheel.rewind)).imp_of_mem_imp fun vs us hvs hus hturn =>
      before_of_turn (mem_visits_rewind.mp hvs) (mem_visits_rewind.mp hus)
        (withStep bound step).step_pos hturn
  rw [List.map_tail]
  exact ((List.isChain_map _).mpr hchain).pairwise.tail

/-! ## The number of sub-pools -/

theorem turnsLeft_of_turn_eq_none (hpos : 0 < step) (h : turn step ws = none) :
    turnsLeft step ws = 0 := by
  induction ws with
  | nil => rfl
  | cons w rest ih =>
    rw [turn] at h
    split at h
    · next hend =>
      rw [turnsLeft, ih (Option.map_eq_none_iff.mp h), hend, Nat.sub_self, Nat.zero_add,
        Nat.div_eq_of_lt (by omega), Nat.zero_mul]
    · cases h

theorem length_visits (ws : List Wheel) :
    (visits step hstep ws).length = turnsLeft step ws + 1 := by
  cases hturn : turn step ws with
  | none => rw [visits_of_turn_eq_none hturn, turnsLeft_of_turn_eq_none hstep hturn]; rfl
  | some ws' =>
    rw [visits_of_turn hturn, List.length_cons, length_visits ws', turnsLeft_of_turn hstep hturn]
termination_by turnsLeft step ws
decreasing_by exact Nat.lt_of_succ_le (turnsLeft_of_turn hstep hturn).ge

/-- From zero, there is a reading for every choice of positions. -/
theorem turnsLeft_map_rewind (step : Nat) (ws : List Wheel) :
    turnsLeft step (ws.map Wheel.rewind) + 1 = (ws.map (Wheel.values step)).prod := by
  induction ws with
  | nil => rfl
  | cons w rest ih =>
    have hvalues : w.rewind.values step = w.values step := rfl
    have hfirst : (w.rewind.bound - w.rewind.reading + step - 1) / step + 1 = w.values step := rfl
    rw [List.map_cons, List.map_cons, List.prod_cons, ← ih, turnsLeft, hvalues, Nat.mul_add,
      Nat.mul_one, Nat.mul_comm (w.values step)]
    omega

theorem length_toList_withStep (bound : Pool) (step : Nat) :
    (withStep bound step).toList.length + 1 =
      ((wheelsOf bound).map (Wheel.values (max step 1))).prod := by
  have hempty : (withStep bound step).exhausted = true → (withStep bound step).wheels = [] :=
    List.isEmpty_iff.mp
  rw [toList_eq hempty, List.length_map, List.length_tail, length_visits, wheels_withStep,
    Nat.add_sub_cancel]
  exact turnsLeft_map_rewind _ _

/-- The readings are counted if there are not too many. -/
theorem product?_eq_some_iff {n : Nat} :
    product? step ws = some n ↔ n = (ws.map (Wheel.values step)).prod ∧ n ≤ totalCeiling := by
  have hfold : ∀ k ≤ totalCeiling, ws.foldlM (fun n w =>
        if n * w.values step ≤ totalCeiling then some (n * w.values step) else none) k = some n ↔
      n = k * (ws.map (Wheel.values step)).prod ∧ n ≤ totalCeiling := by
    induction ws with
    | nil =>
      intro k hk
      simp only [List.foldlM_nil, List.map_nil, List.prod_nil, Nat.mul_one]
      constructor
      · intro h
        cases h
        exact ⟨rfl, hk⟩
      · rintro ⟨rfl, -⟩
        rfl
    | cons w rest ih =>
      intro k hk
      rw [List.foldlM_cons, List.map_cons, List.prod_cons, ← Nat.mul_assoc]
      by_cases hle : k * w.values step ≤ totalCeiling
      · rw [if_pos hle]
        exact ih _ hle
      · -- Further wheels only make the product greater.
        have hpos : 0 < (rest.map (Wheel.values step)).prod := by
          rw [← turnsLeft_map_rewind]
          exact Nat.succ_pos _
        have hmore := Nat.le_mul_of_pos_right (k * w.values step) hpos
        rw [if_neg hle]
        constructor
        · intro h
          cases h
        · rintro ⟨rfl, hn⟩
          omega
  rw [product?, hfold 1 (by decide), Nat.one_mul]

/-- What is counted is the number of sub-pools. -/
theorem length_toList_of_total? {n : Nat} (h : (withStep bound step).total? = some n) :
    (withStep bound step).toList.length = n := by
  have hlength := length_toList_withStep bound step
  rw [total?] at h
  split at h
  · next hnone =>
    have hwheels : wheelsOf bound = [] := List.isEmpty_iff.mp hnone
    cases h
    rw [hwheels] at hlength
    exact Nat.succ.inj hlength
  · obtain ⟨k, hk, rfl⟩ := Option.map_eq_some_iff.mp h
    obtain ⟨rfl, -⟩ := product?_eq_some_iff.mp hk
    exact Nat.eq_sub_of_add_eq hlength

/-! ## One by one -/

/-- The odometer after a number of sub-pools have been asked for. -/
def after (o : Odometer) : Nat → Odometer
  | 0 => o
  | n + 1 => o.pull.2.after n

/-- Asking for a sub-pool gives the first one that is left, and leaves the others. -/
theorem pull_eq (o : Odometer) : o.pull.1 = o.toList.head? ∧ o.pull.2.toList = o.toList.tail := by
  rw [pull]
  cases hnext : o.next with
  | none =>
    have hstop : o.stop.next = none := by rw [next, if_pos (by rfl)]
    rw [toList_of_next_eq_none hnext]
    exact ⟨rfl, toList_of_next_eq_none hstop⟩
  | some r =>
    rw [toList_of_next hnext]
    exact ⟨rfl, rfl⟩

/-- What is handed out is the sequence, and nothing after its end. -/
theorem pull_after (o : Odometer) (n : Nat) : (o.after n).pull.1 = o.toList[n]? := by
  induction n generalizing o with
  | zero => rw [after, o.pull_eq.1, List.head?_eq_getElem?]
  | succ n ih => rw [after, ih, o.pull_eq.2, List.getElem?_tail]

/-- Rewinding the wheels takes back a turn. -/
theorem map_rewind_of_turn (h : turn step vs = some us) :
    us.map Wheel.rewind = vs.map Wheel.rewind := by
  obtain ⟨full, w, rest, rfl, rfl, -⟩ := exists_of_turn h
  rw [List.map_append, List.map_append, List.map_map]
  rfl

/-- What has been handed out makes no difference to a restart. -/
theorem reset_pull (o : Odometer) : o.pull.2.reset = o.reset := by
  rw [pull]
  cases hnext : o.next with
  | none => rfl
  | some r =>
    rw [next] at hnext
    split at hnext
    · cases hnext
    · obtain ⟨ws, hturn, rfl⟩ := Option.map_eq_some_iff.mp hnext
      have hwheels := map_rewind_of_turn hturn
      have hempty : ws.isEmpty = o.wheels.isEmpty := by
        rw [← List.isEmpty_map (f := Wheel.rewind), hwheels, List.isEmpty_map]
      simp only [reset, hwheels, hempty]

theorem reset_after (o : Odometer) (n : Nat) : (o.after n).reset = o.reset := by
  induction n generalizing o with
  | zero => rfl
  | succ n ih => rw [after, ih, reset_pull]

/-- **An odometer hands out all sub-pools on its marks, each once and in order.** These are the
compact pools with some unit whose counts are multiples of the step within the bound, or the bound
itself. After the last one it hands out nothing, the number that it counts is the length of the
sequence, and when it is reset it starts the same sequence again, however often it has been asked.
-/
theorem withStep_enumerates (bound : Pool) (step : Nat) :
    let o := withStep bound step
    (∀ p, p ∈ o.toList ↔ p.isCompact = true ∧ (∃ m, p.count m ≠ 0) ∧
        ∀ m, Wheel.IsMark (max step 1) (bound.count m) (p.count m)) ∧
      o.toList.Nodup ∧ o.toList.Pairwise Pool.Before ∧
      (∀ n, (o.after n).pull.1 = o.toList[n]?) ∧
      (∀ n, o.total? = some n → o.toList.length = n) ∧
      ∀ n, (o.after n).reset = o := by
  intro o
  have hordered : o.toList.Pairwise Pool.Before := pairwise_before_toList bound step
  have hdistinct : o.toList.Nodup := by
    refine hordered.imp fun hbefore heq => ?_
    rw [heq] at hbefore
    exact Pool.not_before_self _ hbefore
  have hreset : o.reset = o := by
    have hwheels : (wheelsOf bound).map Wheel.rewind = wheelsOf bound :=
      (wheels_withStep bound step).symm
    simp only [o, withStep, reset, hwheels]
  refine ⟨fun p => mem_toList_withStep, hdistinct, hordered, pull_after o,
    fun n => length_toList_of_total?, fun n => (reset_after o n).trans hreset⟩

-- The first model turns fastest, and its last step is cut short at the bound.
example : (withStep (.ofEntries [(⟨"A"⟩, 3), (⟨"B"⟩, 1)]) 2).toList.map Pool.toList =
    [[(⟨"A"⟩, 2)], [(⟨"A"⟩, 3)], [(⟨"B"⟩, 1)],
      [(⟨"A"⟩, 2), (⟨"B"⟩, 1)], [(⟨"A"⟩, 3), (⟨"B"⟩, 1)]] := by
  decide +kernel

end Odometer

end Provision
