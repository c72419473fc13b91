import Provision.Pool.Odometer
import Provision.Proofs.Pool.Counts

/-!
# What an odometer shows

The readings of an odometer that starts at zero are all combinations of the positions of its wheels,
in order: the first wheel runs through its positions for every reading of the wheels after it.

## Main definitions

* `Wheel.climb`: the positions of a wheel from where it stands up to its bound.
* `Odometer.visits`: the wheels as they stand, and after every turn that is left.
* `Odometer.IsMark step bound k`: a wheel with a bound stops at `k`.
-/

namespace Provision

/-! ## One wheel -/

namespace Wheel

@[simp] theorem rewind_advance (step : Nat) (w : Wheel) : (w.advance step).rewind = w.rewind := rfl

/-- The positions of a wheel from where it stands, up to its bound. -/
def climb (step : Nat) (hstep : 0 < step) (w : Wheel) : List Wheel :=
  if _h : w.reading = w.bound then [w] else w :: (w.advance step).climb step hstep
termination_by w.bound - w.reading
decreasing_by
  have hle := w.reading_le
  simp only [advance]
  omega

theorem ext {v w : Wheel} (hmodel : v.model = w.model) (hbound : v.bound = w.bound)
    (hreading : v.reading = w.reading) : v = w := by
  cases v; cases w
  simp_all

/-- A position of a wheel that starts at zero: a multiple of the step, or the bound. -/
def IsMark (step bound k : Nat) : Prop := k ≤ bound ∧ (k = bound ∨ step ∣ k)

instance (step bound k : Nat) : Decidable (IsMark step bound k) :=
  inferInstanceAs (Decidable (_ ∧ _))

theorem isMark_one_iff {bound k : Nat} : IsMark 1 bound k ↔ k ≤ bound :=
  ⟨fun h => h.1, fun h => ⟨h, .inr (Nat.one_dvd k)⟩⟩

theorem mem_climb {step : Nat} {hstep : 0 < step} {w v : Wheel} :
    v ∈ w.climb step hstep ↔ v.model = w.model ∧ v.bound = w.bound ∧ w.reading ≤ v.reading ∧
      (v.reading = v.bound ∨ step ∣ v.reading - w.reading) := by
  have hw := w.reading_le
  have hv := v.reading_le
  rw [climb]
  by_cases hend : w.reading = w.bound
  · rw [dif_pos hend, List.mem_singleton]
    constructor
    · rintro rfl
      exact ⟨rfl, rfl, Nat.le_refl _, .inl hend⟩
    · rintro ⟨hmodel, hbound, hle, -⟩
      exact ext hmodel hbound (by omega)
  · rw [dif_neg hend, List.mem_cons, mem_climb]
    have hadvance : (w.advance step).reading = min (w.reading + step) w.bound := rfl
    constructor
    · rintro (rfl | ⟨hmodel, hbound, hle, hmark⟩)
      · exact ⟨rfl, rfl, Nat.le_refl _, .inr (Nat.sub_self _ ▸ Nat.dvd_zero step)⟩
      · have hbound' : v.bound = w.bound := hbound
        refine ⟨hmodel, hbound, by omega, ?_⟩
        rcases hmark with hlast | hdvd
        · exact .inl hlast
        · -- A step that is cut short ends at the bound.
          by_cases hcut : w.reading + step ≤ w.bound
          · rw [hadvance, Nat.min_eq_left hcut] at hdvd
            refine .inr ?_
            have hsum : v.reading - w.reading = v.reading - (w.reading + step) + step := by omega
            exact hsum ▸ Nat.dvd_add hdvd (Nat.dvd_refl step)
          · exact .inl (by omega)
    · rintro ⟨hmodel, hbound, hle, hmark⟩
      by_cases hstay : v.reading = w.reading
      · exact .inl (ext hmodel hbound hstay)
      · refine .inr ⟨hmodel, hbound, ?_⟩
        rw [hadvance]
        rcases hmark with hlast | hdvd
        · exact ⟨by omega, .inl hlast⟩
        · have hfar := Nat.le_of_dvd (by omega) hdvd
          refine ⟨by omega, .inr ?_⟩
          rw [Nat.min_eq_left (by omega), Nat.sub_add_eq]
          exact Nat.dvd_sub hdvd (Nat.dvd_refl step)
termination_by w.bound - w.reading
decreasing_by
  simp only [advance]
  omega

/-- The wheel turned to the units of its model in a pool, as far as it goes. -/
def turnedTo (p : Pool) (w : Wheel) : Wheel :=
  ⟨w.model, w.bound, min (p.count w.model) w.bound, Nat.min_le_right _ _⟩

theorem mem_climb_rewind {step : Nat} {hstep : 0 < step} {w v : Wheel} :
    v ∈ w.rewind.climb step hstep ↔
      v.model = w.model ∧ v.bound = w.bound ∧ IsMark step w.bound v.reading := by
  have hv := v.reading_le
  rw [mem_climb, IsMark]
  constructor
  · rintro ⟨hmodel, hbound, -, hmark⟩
    have hbound' : v.bound = w.bound := hbound
    exact ⟨hmodel, hbound, hbound' ▸ hv, hbound' ▸ hmark⟩
  · rintro ⟨hmodel, hbound, -, hmark⟩
    exact ⟨hmodel, hbound, Nat.zero_le _, hbound ▸ hmark⟩

end Wheel

/-! ## All wheels -/

namespace Odometer
variable {step : Nat} {hstep : 0 < step}

/-- The wheels as they stand and after every further turn. -/
def visits (step : Nat) (hstep : 0 < step) (ws : List Wheel) : List (List Wheel) :=
  match _h : turn step ws with
  | none => [ws]
  | some ws' => ws :: visits step hstep ws'
termination_by turnsLeft step ws
decreasing_by exact Nat.lt_of_succ_le (turnsLeft_of_turn hstep _h).ge

theorem visits_of_turn_eq_none {ws : List Wheel} (h : turn step ws = none) :
    visits step hstep ws = [ws] := by
  rw [visits]
  split
  · rfl
  · next heq => rw [h] at heq; cases heq

theorem visits_of_turn {ws ws' : List Wheel} (h : turn step ws = some ws') :
    visits step hstep ws = ws :: visits step hstep ws' := by
  rw [visits]
  split
  · next heq => rw [h] at heq; cases heq
  · next heq =>
    rw [h] at heq
    cases heq
    rfl

theorem visits_eq_cons (ws : List Wheel) :
    visits step hstep ws = ws :: (visits step hstep ws).tail := by
  cases h : turn step ws with
  | none => rw [visits_of_turn_eq_none h, List.tail_cons]
  | some ws' => rw [visits_of_turn h, List.tail_cons]

/-- Wheels are turned in order: the first one climbs to its bound, and then once from zero for every
further turn of the others. -/
theorem visits_cons (w : Wheel) (rest : List Wheel) :
    visits step hstep (w :: rest) = (w.climb step hstep).map (· :: rest) ++
      (visits step hstep rest).tail.flatMap fun ws =>
        (w.rewind.climb step hstep).map (· :: ws) := by
  by_cases hend : w.reading = w.bound
  · have hclimb : w.climb step hstep = [w] := by rw [Wheel.climb, dif_pos hend]
    rw [hclimb]
    cases hrest : turn step rest with
    | none =>
      have hturn : turn step (w :: rest) = none := by rw [turn, if_pos hend, hrest]; rfl
      rw [visits_of_turn_eq_none hturn, visits_of_turn_eq_none hrest]
      rfl
    | some ws =>
      have hturn : turn step (w :: rest) = some (w.rewind :: ws) := by
        rw [turn, if_pos hend, hrest]
        rfl
      rw [visits_of_turn hturn, visits_of_turn hrest, visits_cons w.rewind ws, List.tail_cons]
      conv_rhs => rw [visits_eq_cons ws, List.flatMap_cons]
      rfl
  · have hclimb : w.climb step hstep = w :: (w.advance step).climb step hstep := by
      rw [Wheel.climb, dif_neg hend]
    have hturn : turn step (w :: rest) = some (w.advance step :: rest) := by
      rw [turn, if_neg hend]
    rw [visits_of_turn hturn, hclimb, visits_cons (w.advance step) rest, Wheel.rewind_advance,
      List.map_cons, List.cons_append]
termination_by turnsLeft step (w :: rest)
decreasing_by
  · exact Nat.lt_of_succ_le (turnsLeft_of_turn hstep hturn).ge
  · exact Nat.lt_of_succ_le (turnsLeft_of_turn hstep hturn).ge

/-- **The readings in order.** From zero, the first wheel runs through its positions for each of the
readings of the others. -/
theorem visits_map_rewind_cons (w : Wheel) (rest : List Wheel) :
    visits step hstep ((w :: rest).map Wheel.rewind) =
      (visits step hstep (rest.map Wheel.rewind)).flatMap fun ws =>
        (w.rewind.climb step hstep).map (· :: ws) := by
  conv_rhs => rw [visits_eq_cons, List.flatMap_cons]
  exact visits_cons w.rewind (rest.map Wheel.rewind)

/-- A reading of the wheels gives each of them some position. -/
def Shows (step : Nat) : List Wheel → List Wheel → Prop :=
  List.Forall₂ fun w v =>
    v.model = w.model ∧ v.bound = w.bound ∧ Wheel.IsMark step w.bound v.reading

/-- From zero, all readings are visited. -/
theorem mem_visits_rewind {ws vs : List Wheel} :
    vs ∈ visits step hstep (ws.map Wheel.rewind) ↔ Shows step ws vs := by
  induction ws generalizing vs with
  | nil =>
    rw [List.map_nil, visits_of_turn_eq_none rfl, List.mem_singleton]
    exact List.forall₂_nil_left_iff.symm
  | cons w rest ih =>
    rw [visits_map_rewind_cons, List.mem_flatMap, Shows, List.forall₂_cons_left_iff]
    constructor
    · rintro ⟨us, hus, hvs⟩
      obtain ⟨v, hv, rfl⟩ := List.mem_map.mp hvs
      exact ⟨v, us, Wheel.mem_climb_rewind.mp hv, ih.mp hus, rfl⟩
    · rintro ⟨v, us, hv, hus, rfl⟩
      exact ⟨us, ih.mpr hus, List.mem_map.mpr ⟨v, Wheel.mem_climb_rewind.mpr hv, rfl⟩⟩

/-- No reading comes back. -/
theorem turnsLeft_lt_of_mem_tail {ws vs : List Wheel} (h : vs ∈ (visits step hstep ws).tail) :
    turnsLeft step vs < turnsLeft step ws := by
  cases hturn : turn step ws with
  | none =>
    rw [visits_of_turn_eq_none hturn] at h
    cases h
  | some ws' =>
    have hleft := turnsLeft_of_turn hstep hturn
    rw [visits_of_turn hturn, List.tail_cons, visits_eq_cons] at h
    rcases List.mem_cons.mp h with rfl | htail
    · omega
    · have hlt := turnsLeft_lt_of_mem_tail htail
      omega
termination_by turnsLeft step ws
decreasing_by omega

theorem toList_of_next_eq_none {o : Odometer} (h : o.next = none) : o.toList = [] := by
  rw [toList]
  split
  · rfl
  · next heq => rw [h] at heq; cases heq

theorem toList_of_next {o o' : Odometer} {p : Pool} (h : o.next = some (p, o')) :
    o.toList = p :: o'.toList := by
  rw [toList]
  split
  · next heq => rw [h] at heq; cases heq
  · next heq =>
    rw [h] at heq
    cases heq
    rfl

/-- An odometer shows the readings that are visited after the one where it stands. -/
theorem toList_eq {o : Odometer} (h : o.exhausted = true → o.wheels = []) :
    o.toList = (visits o.step o.step_pos o.wheels).tail.map reading := by
  have hnext : o.next =
      (turn o.step o.wheels).map fun ws => (reading ws, { o with wheels := ws }) := by
    rw [next]
    by_cases hex : o.exhausted = true
    · rw [if_pos hex, h hex]
      rfl
    · rw [if_neg hex]
  rw [toList]
  cases hturn : turn o.step o.wheels with
  | none =>
    rw [visits_of_turn_eq_none hturn]
    split
    · rfl
    · next heq =>
      rw [hnext, hturn] at heq
      cases heq
  | some ws =>
    rw [visits_of_turn hturn, List.tail_cons, visits_eq_cons, List.map_cons]
    split
    · next heq =>
      rw [hnext, hturn] at heq
      cases heq
    · next p o' heq =>
      rw [hnext, hturn] at heq
      cases heq
      refine congrArg (reading ws :: ·) (toList_eq fun hex => ?_)
      rw [h hex] at hturn
      cases hturn
termination_by turnsLeft o.step o.wheels
decreasing_by exact Nat.lt_of_succ_le (turnsLeft_of_turn o.step_pos hturn).ge

/-! ## Readings as pools -/

theorem wheels_withStep (bound : Pool) (step : Nat) :
    (withStep bound step).wheels = (wheelsOf bound).map Wheel.rewind := by
  rw [wheelsOf, List.map_map]
  rfl

theorem mem_wheelsOf {bound : Pool} {w : Wheel} (h : w ∈ wheelsOf bound) :
    w.bound = bound.count w.model ∧ 0 < w.bound ∧ w.reading = 0 := by
  obtain ⟨e, he, rfl⟩ := List.mem_map.mp h
  obtain ⟨hmem, hpos⟩ := List.mem_filter.mp he
  exact ⟨(Pool.count_of_mem_entries hmem).symm, of_decide_eq_true hpos, rfl⟩

theorem exists_mem_wheelsOf {bound : Pool} {m : Model} (h : bound.count m ≠ 0) :
    ∃ w ∈ wheelsOf bound, w.model = m := by
  obtain ⟨e, he, rfl⟩ := List.mem_map.mp (Pool.mem_keys_of_count h)
  rw [Pool.count_of_mem_entries he] at h
  refine ⟨_, List.mem_map_of_mem (List.mem_filter.mpr ⟨he, ?_⟩), rfl⟩
  exact decide_eq_true (Nat.pos_of_ne_zero h)

theorem nodup_model_wheelsOf (bound : Pool) : ((wheelsOf bound).map Wheel.model).Nodup := by
  rw [wheelsOf, List.map_map]
  exact bound.nodup_keys.sublist (List.Sublist.map _ List.filter_sublist)

theorem count_reading (vs : List Wheel) (m : Model) :
    (reading vs).count m =
      min (vs.map fun v => if v.model = m then v.reading else 0).sum Count.ceiling := by
  rw [reading, Pool.count_ofEntries, List.map_map, sum_map_filter]
  congr 2
  refine List.map_congr_left fun v _ => ?_
  by_cases hv : 0 < v.reading
  · simp [hv]
  · simp [Nat.eq_zero_of_not_pos hv]

theorem isCompact_reading (vs : List Wheel) : (reading vs).isCompact = true := by
  refine Pool.isCompact_addAll (by decide) fun e he => ?_
  obtain ⟨v, hv, rfl⟩ := List.mem_map.mp he
  exact of_decide_eq_true (List.mem_filter.mp hv).2

namespace Shows
variable {bound : Pool} {vs : List Wheel}

theorem map_model {ws : List Wheel} (h : Shows step ws vs) :
    vs.map Wheel.model = ws.map Wheel.model := by
  induction h with
  | nil => rfl
  | cons hw _ ih => rw [List.map_cons, List.map_cons, hw.1, ih]

/-- The units that a reading shows are the position of the wheel. -/
theorem count_reading_of_mem (h : Shows step (wheelsOf bound) vs) {v : Wheel} (hv : v ∈ vs) :
    (reading vs).count v.model = v.reading := by
  have hnodup : (vs.map Wheel.model).Nodup := h.map_model ▸ nodup_model_wheelsOf bound
  rw [count_reading, sum_ite_key_of_mem Wheel.reading hnodup hv]
  obtain ⟨w, hw, -, -, hmark⟩ := (exists_of_forall₂ h).2 v hv
  have hbound := (mem_wheelsOf hw).1
  have hceiling := bound.count_le_ceiling w.model
  have hle := hmark.1
  omega

/-- A model without a wheel shows no unit. -/
theorem count_reading_of_count_eq_zero (h : Shows step (wheelsOf bound) vs) {m : Model}
    (hm : bound.count m = 0) : (reading vs).count m = 0 := by
  rw [count_reading, sum_ite_key_eq_zero Wheel.reading, Nat.zero_min]
  rintro v hv rfl
  obtain ⟨w, hw, hmodel, -, -⟩ := (exists_of_forall₂ h).2 v hv
  obtain ⟨hbound, hpos, -⟩ := mem_wheelsOf hw
  rw [← hmodel, hm] at hbound
  omega

theorem isMark (h : Shows step (wheelsOf bound) vs) (m : Model) :
    Wheel.IsMark step (bound.count m) ((reading vs).count m) := by
  by_cases hm : bound.count m = 0
  · rw [h.count_reading_of_count_eq_zero hm, hm]
    exact ⟨Nat.le_refl _, .inl rfl⟩
  · obtain ⟨w, hw, rfl⟩ := exists_mem_wheelsOf hm
    have hmodel : w.model ∈ vs.map Wheel.model := h.map_model ▸ List.mem_map_of_mem hw
    obtain ⟨v, hv, hvm⟩ := List.mem_map.mp hmodel
    obtain ⟨w', hw', hmodel', -, hmark⟩ := (exists_of_forall₂ h).2 v hv
    rw [← hvm, h.count_reading_of_mem hv, hmodel', ← (mem_wheelsOf hw').1]
    exact hmark

end Shows

/-- Wheels that all stand at zero have been rewound. -/
theorem Shows.eq_map_rewind {ws vs : List Wheel} (h : Shows step ws vs)
    (hzero : ∀ v ∈ vs, v.reading = 0) : vs = ws.map Wheel.rewind := by
  induction h with
  | nil => rfl
  | cons hw _ ih =>
    obtain ⟨hmodel, hbound, -⟩ := hw
    rw [List.map_cons, ← ih fun v hv => hzero v (List.mem_cons_of_mem _ hv)]
    exact congrArg (· :: _) (Wheel.ext hmodel hbound (hzero _ List.mem_cons_self))

/-- Wheels that have been rewound show no unit. -/
theorem count_reading_map_rewind (ws : List Wheel) (m : Model) :
    (reading (ws.map Wheel.rewind)).count m = 0 := by
  rw [count_reading, List.sum_eq_zero, Nat.zero_min]
  intro k hk
  obtain ⟨v, hv, rfl⟩ := List.mem_map.mp hk
  obtain ⟨w, -, rfl⟩ := List.mem_map.mp hv
  exact ite_self _

section
variable {bound p : Pool} (h : ∀ m, Wheel.IsMark step (bound.count m) (p.count m))
include h

theorem reading_turnedTo {w : Wheel} (hw : w ∈ wheelsOf bound) :
    (w.turnedTo p).reading = p.count w.model :=
  Nat.min_eq_left ((mem_wheelsOf hw).1 ▸ (h w.model).1)

/-- The wheels can be turned to every pool whose counts are positions of them. -/
theorem shows_map_turnedTo : Shows step (wheelsOf bound) ((wheelsOf bound).map (·.turnedTo p)) := by
  rw [Shows, List.forall₂_map_right_iff, List.forall₂_same]
  intro w hw
  refine ⟨rfl, rfl, ?_⟩
  rw [reading_turnedTo h hw, (mem_wheelsOf hw).1]
  exact h w.model

theorem count_reading_map_turnedTo (m : Model) :
    (reading ((wheelsOf bound).map (·.turnedTo p))).count m = p.count m := by
  by_cases hm : bound.count m = 0
  · have hle := (h m).1
    rw [(shows_map_turnedTo h).count_reading_of_count_eq_zero hm]
    omega
  · obtain ⟨w, hw, rfl⟩ := exists_mem_wheelsOf hm
    rw [← reading_turnedTo h hw]
    exact (shows_map_turnedTo h).count_reading_of_mem (List.mem_map_of_mem hw)

end

/-- **An odometer shows all sub-pools on its marks**, and only these: compact pools with some unit,
whose counts are positions of the wheels. -/
theorem mem_toList_withStep {bound p : Pool} {step : Nat} :
    p ∈ (withStep bound step).toList ↔ p.isCompact = true ∧ (∃ m, p.count m ≠ 0) ∧
      ∀ m, Wheel.IsMark (max step 1) (bound.count m) (p.count m) := by
  have hempty : (withStep bound step).exhausted = true → (withStep bound step).wheels = [] :=
    List.isEmpty_iff.mp
  rw [toList_eq hempty, List.mem_map, wheels_withStep]
  constructor
  · rintro ⟨vs, hvs, rfl⟩
    have hshows := mem_visits_rewind.mp (List.mem_of_mem_tail hvs)
    refine ⟨isCompact_reading vs, ?_, hshows.isMark⟩
    by_contra hnone
    have hzero : ∀ v ∈ vs, v.reading = 0 := fun v hv => by_contra fun hne =>
      hnone ⟨v.model, (hshows.count_reading_of_mem hv).trans_ne hne⟩
    have hlt := turnsLeft_lt_of_mem_tail hvs
    rw [hshows.eq_map_rewind hzero] at hlt
    exact Nat.lt_irrefl _ hlt
  · rintro ⟨hcompact, ⟨m, hm⟩, hmark⟩
    refine ⟨(wheelsOf bound).map (·.turnedTo p), ?_,
      Pool.ext_count (isCompact_reading _) hcompact (count_reading_map_turnedTo hmark)⟩
    have hvisited : (wheelsOf bound).map (·.turnedTo p) ∈ visits (withStep bound step).step
        (withStep bound step).step_pos ((wheelsOf bound).map Wheel.rewind) :=
      mem_visits_rewind.mpr (shows_map_turnedTo hmark)
    rw [visits_eq_cons] at hvisited
    rcases List.mem_cons.mp hvisited with hstart | htail
    · -- At the start no unit is shown, but `p` has one.
      rw [← count_reading_map_turnedTo hmark m, hstart, count_reading_map_rewind] at hm
      exact absurd rfl hm
    · exact htail

end Odometer

end Provision
