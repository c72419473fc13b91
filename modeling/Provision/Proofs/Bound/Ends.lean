import Mathlib.Data.Set.List
import Provision.Matching.Supply
import Provision.Proofs.Supply.Accumulation
import Provision.Support.Requirement

/-!
# Bounds on plain numbers

The ends of a bound are in order and stay below the threshold, and this is part of its type. A
program that computes with bounds keeps just the numbers, and it does not check the results of a
subtraction, an addition or a decrement again. Here every operation is computed in this way, on ends
about which nothing is known, and with subtractions that report when they go below zero.

As long as ends are only obtained from these operations, the plain computation never differs from
the one on bounds. So it meets no ends that are out of order, and no subtraction goes below zero.

## Main definitions

* `Ends`: a model and two numbers.
* `Ends.minus a b`: a subtraction that fails when it goes below zero.
* `Operation β`: an operation, with its operands in `β`.
* `Operation.run`, `Operation.value`: what an operation gives on ends and on bounds.
* `Ends.Obtained e`: the ends are obtained by some composition of operations.

## Main results

* `Operation.run_map_ends`: on the ends of bounds, the plain computation is that on bounds.
* `Operation.keeps_bounds`: ends that are obtained are in order, and a failure leaves them alone.
-/

namespace Provision

/-- A model and two numbers, in any order. -/
structure Ends where
  model : Model
  min : Nat
  max : Nat
deriving DecidableEq

/-- The ends of a bound. -/
def Bound.ends (b : Bound) : Ends := ⟨b.model, b.min, b.max⟩

namespace Ends

/-- Why a computation on ends fails: an operation refuses its operands, or a subtraction goes below
zero. -/
inductive Failure where
  | refused (cause : BoundError)
  | negative
deriving DecidableEq

/-- A subtraction that fails when it goes below zero. -/
def minus (a b : Nat) : Except Failure Nat := if b ≤ a then .ok (a - b) else .error .negative

/-- A sum or a product that stops at the ceiling of counts, and is then cut at the threshold. -/
def capped (n : Nat) : Nat := Nat.min (Count.ofNat n).toNat Bound.threshold

/-! ## Single bounds

Every computation has the name of the one on bounds. -/

def make (model : Model) (min max : Nat) : Except Failure Ends :=
  let max := Nat.min max Bound.threshold
  if max < min then .error (.refused (.invalidBound model min max)) else .ok ⟨model, min, max⟩

def unbounded (model : Model) : Ends := ⟨model, 0, Bound.threshold⟩

def ofRestriction (r : Restriction) : Except Failure Ends :=
  make r.model r.min (r.max.getD Bound.threshold)

def subtractMin (a b : Ends) : Except Failure Ends :=
  if a.model ≠ b.model then .error (.refused (.modelMismatch a.model b.model))
  else if a.max < b.min then .error (.refused (.insufficientBound a.model a.max b.min))
  else (minus a.max b.min).map fun max => ⟨a.model, a.min - b.min, max⟩

/-- A decrement works in place: besides its outcome, it leaves the ends as they are then. A minimum
of zero stays. -/
def decrement (e : Ends) : Except Failure Unit × Ends :=
  if e.min = 0 ∧ e.max = 0 then (.error (.refused (.underflow e.model)), e)
  else match minus e.max 1 with
    | .error failure => (.error failure, e)
    | .ok max =>
      if 0 < e.min then match minus e.min 1 with
        | .error failure => (.error failure, { e with max })
        | .ok min => (.ok (), { e with min, max })
      else (.ok (), { e with max })

/-! ## Lists of bounds -/

def subtractAll (a : Ends) (consumed : List Ends) : Except Failure Ends :=
  (consumed.filter fun b => b.model = a.model).foldlM subtractMin a

/-- The entries that are left, one after the other. Only an entry that is refused may be dropped. -/
def subtractEach (consumed : List Ends) (drop : Bool) : List Ends → Except Failure (List Ends)
  | [] => .ok []
  | a :: rest => match a.subtractAll consumed with
    | .ok e => (subtractEach consumed drop rest).map (e :: ·)
    | .error (.refused cause) =>
      if drop then subtractEach consumed drop rest else .error (.refused cause)
    | .error .negative => .error .negative

def subtractLists (as bs : List Ends) (drop : Bool) : Except Failure (List Ends) :=
  match bs.find? fun b => as.all fun a => a.model ≠ b.model with
  | some b => .error (.refused (.modelNotFound b.model))
  | none => subtractEach bs drop as

def intersectByModel (es : List Ends) : Except Failure (List Ends) :=
  let common : Table Model (Nat × Nat) := es.foldl (fun t e => t.update e.model fun
    | none => (e.min, e.max)
    | some (lo, hi) => (Nat.max lo e.min, Nat.min hi e.max)) .empty
  common.entries.mapM fun e => make e.1 e.2.1 e.2.2

/-- Add ends to the sums that a table has for their model. -/
def put (t : Table Model (Nat × Nat)) (e : Ends) : Table Model (Nat × Nat) :=
  t.update e.model fun old =>
    let sums := old.getD (0, 0)
    (capped (sums.1 + e.min), capped (sums.2 + e.max))

def accumulateByModel (es : List Ends) : List Ends :=
  (es.foldl put .empty).entries.map fun e => ⟨e.1, e.2.1, e.2.2⟩

/-! ## Requirements and availability -/

def mergedAvailability (t : Taxonomy) (required available : List Ends) : List Ends :=
  let models : KeySet Model := .ofList (required.map (·.model))
  accumulateByModel <| models.toList.flatMap fun model =>
    (available.filter fun offer => t.isSubtype offer.model model).filterMap fun offer =>
      (make model offer.min offer.max).toOption

def requirement (t : Taxonomy) (f : Functionality) : Except Failure (List Ends) := do
  let es ← (t.restrictionsOf f).mapM ofRestriction
  intersectByModel es

/-- The units themselves, and what is granted for them. -/
def offers (t : Taxonomy) (m : Model) (count : Nat) : List (Model × Nat) :=
  (m, count) :: ((t.restrictionsOf m).map fun r => (r.model, capped (r.grant * count))).filter
    fun offer => 0 < offer.2

def availability (t : Taxonomy) (p : Pool) : List Ends :=
  accumulateByModel <| ((p.toList.filter fun e => 0 < e.2).flatMap fun e => offers t e.1 e.2)
    |>.filterMap fun offer => (make offer.1 0 offer.2).toOption

end Ends

/-! ## Operations -/

/-- The operations that give bounds, each with its operands. -/
inductive Operation (β : Type) where
  | make (model : Model) (min max : Nat)
  | unbounded (model : Model)
  | ofRestriction (r : Restriction)
  | subtractMin (a b : β)
  | subtractLists (as bs : List β) (drop : Bool)
  | decrement (b : β)
  | intersect (bs : List β)
  | accumulate (bs : List β)
  | merge (t : Taxonomy) (required available : List β)
  | require (t : Taxonomy) (f : Functionality)
  | provide (t : Taxonomy) (p : Pool)

namespace Operation

/-- The same operation on other operands. -/
def map {β γ : Type} (f : β → γ) : Operation β → Operation γ
  | .make model min max => .make model min max
  | .unbounded model => .unbounded model
  | .ofRestriction r => .ofRestriction r
  | .subtractMin a b => .subtractMin (f a) (f b)
  | .subtractLists as bs drop => .subtractLists (as.map f) (bs.map f) drop
  | .decrement b => .decrement (f b)
  | .intersect bs => .intersect (bs.map f)
  | .accumulate bs => .accumulate (bs.map f)
  | .merge t required available => .merge t (required.map f) (available.map f)
  | .require t f => .require t f
  | .provide t p => .provide t p

/-- The operands of an operation. -/
def operands {β : Type} : Operation β → List β
  | .subtractMin a b => [a, b]
  | .subtractLists as bs _ => as ++ bs
  | .decrement b => [b]
  | .intersect bs => bs
  | .accumulate bs => bs
  | .merge _ required available => required ++ available
  | _ => []

/-- What an operation gives on ends. -/
def run : Operation Ends → Except Ends.Failure (List Ends)
  | .make model min max => (Ends.make model min max).map ([·])
  | .unbounded model => .ok [.unbounded model]
  | .ofRestriction r => (Ends.ofRestriction r).map ([·])
  | .subtractMin a b => (a.subtractMin b).map ([·])
  | .subtractLists as bs drop => Ends.subtractLists as bs drop
  | .decrement e => e.decrement.1.map fun _ => [e.decrement.2]
  | .intersect es => Ends.intersectByModel es
  | .accumulate es => .ok (Ends.accumulateByModel es)
  | .merge t required available => .ok (Ends.mergedAvailability t required available)
  | .require t f => Ends.requirement t f
  | .provide t p => .ok (Ends.availability t p)

/-- The operands when an operation has run. A decrement alone works in place. -/
def operandsAfter : Operation Ends → List Ends
  | .decrement e => [e.decrement.2]
  | op => op.operands

/-- What an operation gives on bounds. -/
def value : Operation Bound → Except BoundError (List Bound)
  | .make model min max => (Bound.make model min max).map ([·])
  | .unbounded model => .ok [.unbounded model]
  | .ofRestriction r => (Bound.ofRestriction r).map ([·])
  | .subtractMin a b => (a.subtractMin b).map ([·])
  | .subtractLists as bs drop => Bound.subtractLists as bs drop
  | .decrement b => b.decrement.map ([·])
  | .intersect bs => Bound.intersectByModel bs
  | .accumulate bs => .ok (Bound.accumulateByModel bs)
  | .merge t required available => .ok (t.mergedAvailability required available)
  | .require t f => t.requirement f
  | .provide t p => .ok (t.availability p)

end Operation

/-- Ends that some composition of operations gives, or leaves where it has worked in place. -/
inductive Ends.Obtained : Ends → Prop where
  | result {op : Operation Ends} {es : List Ends} {e : Ends}
      (hoperands : ∀ x ∈ op.operands, Obtained x) (hrun : op.run = .ok es) (he : e ∈ es) :
      Obtained e
  | operand {op : Operation Ends} {e : Ends} (hoperands : ∀ x ∈ op.operands, Obtained x)
      (he : e ∈ op.operandsAfter) : Obtained e

namespace Ends

/-! ## Failures -/

/-- An outcome of a computation on bounds, as one of the plain computation. -/
def lift {α β : Type} (f : α → β) : Except BoundError α → Except Failure β
  | .ok a => .ok (f a)
  | .error cause => .error (.refused cause)

section Lift
variable {α β γ δ : Type} {f : α → γ} {g : β → δ}

theorem map_lift (h : γ → δ) (x : Except BoundError α) : (lift f x).map h = lift (h ∘ f) x := by
  cases x <;> rfl

theorem lift_map (h : α → β) (x : Except BoundError α) : lift g (x.map h) = lift (g ∘ h) x := by
  cases x <;> rfl

theorem lift_bind {k : α → Except BoundError β} {k' : γ → Except Failure δ}
    (h : ∀ a, k' (f a) = lift g (k a)) (x : Except BoundError α) :
    (lift f x >>= k') = lift g (x >>= k) := by
  cases x with
  | error cause => rfl
  | ok a => exact h a

theorem mapM_eq_lift {k : α → Except BoundError β} {k' : α → Except Failure δ}
    (h : ∀ a, k' a = lift g (k a)) (l : List α) : l.mapM k' = lift (List.map g) (l.mapM k) := by
  induction l with
  | nil => rfl
  | cons a rest ih =>
    rw [List.mapM_cons, List.mapM_cons, h, ih]
    cases k a with
    | error cause => rfl
    | ok b => cases rest.mapM k <;> rfl

theorem foldlM_eq_lift {k : α → β → Except BoundError α} {k' : γ → δ → Except Failure γ}
    (h : ∀ a b, k' (f a) (g b) = lift f (k a b)) (l : List β) (a : α) :
    (l.map g).foldlM k' (f a) = lift f (l.foldlM k a) := by
  induction l generalizing a with
  | nil => rfl
  | cons b rest ih =>
    rw [List.map_cons, List.foldlM_cons, List.foldlM_cons, h]
    exact lift_bind ih (k a b)

end Lift

/-! ## Plain computations on the ends of bounds -/

theorem capped_eq (n : Nat) : capped n = Nat.min n Bound.threshold :=
  (Nat.min_assoc n Count.ceiling Bound.threshold).trans
    (congrArg (Nat.min n) (Nat.min_eq_right (by decide)))

theorem make_eq (model : Model) (min max : Nat) :
    make model min max = lift Bound.ends (Bound.make model min max) := by
  rw [make, Bound.make]
  by_cases h : min ≤ Nat.min max Bound.threshold
  · simp only [dif_pos h, if_neg (Nat.not_lt.mpr h)]
    rfl
  · simp only [dif_neg h, if_pos (Nat.lt_of_not_le h)]
    rfl

theorem toOption_make {b : Bound} {model : Model} {min max : Nat}
    (h : b.model = model ∧ b.min = min ∧ b.max = Nat.min max Bound.threshold) :
    (make model min max).toOption = some b.ends := by
  rw [make_eq, Bound.make_eq_ok_iff.mpr h]
  rfl

theorem ofRestriction_eq (r : Restriction) :
    ofRestriction r = lift Bound.ends (Bound.ofRestriction r) := make_eq _ _ _

theorem subtractMin_ends (a b : Bound) :
    a.ends.subtractMin b.ends = lift Bound.ends (a.subtractMin b) := by
  by_cases hmodel : a.model = b.model
  · by_cases hlt : a.max < b.min
    · simp [subtractMin, Bound.subtractMin, Bound.ends, hmodel, hlt, lift]
    · have hle : b.min ≤ a.max := Nat.not_lt.mp hlt
      simp [subtractMin, Bound.subtractMin, Bound.ends, hmodel, hlt, lift, minus, hle, Except.map]
  · simp [subtractMin, Bound.subtractMin, Bound.ends, hmodel, lift]

/-- The first subtraction cannot go below zero, since a bound that is not refused has a positive
maximum. -/
theorem decrement_ends (b : Bound) : b.ends.decrement = match b.decrement with
    | .ok b' => (.ok (), b'.ends)
    | .error cause => (.error (.refused cause), b.ends) := by
  have hle := b.min_le_max
  by_cases hmax : b.max = 0
  · have hmin : b.min = 0 := by omega
    simp [decrement, Bound.decrement, Bound.ends, hmax, hmin]
  · have hpos : 1 ≤ b.max := by omega
    by_cases hmin : b.min = 0
    · simp [decrement, Bound.decrement, Bound.ends, hmax, hmin, minus, hpos]
    · have hpos' : 1 ≤ b.min := by omega
      simp [decrement, Bound.decrement, Bound.ends, hmax, minus, hpos, hpos']
      omega

theorem subtractAll_ends (a : Bound) (bs : List Bound) :
    a.ends.subtractAll (bs.map Bound.ends) = lift Bound.ends (a.subtractAll bs) := by
  rw [subtractAll, Bound.subtractAll, List.filter_map]
  exact foldlM_eq_lift subtractMin_ends _ a

theorem subtractEach_ends (as bs : List Bound) (drop : Bool) :
    subtractEach (bs.map Bound.ends) drop (as.map Bound.ends) = lift (List.map Bound.ends)
      (if drop then .ok (as.filterMap fun a => (a.subtractAll bs).toOption)
        else as.mapM (·.subtractAll bs)) := by
  induction as with
  | nil => cases drop <;> rfl
  | cons a rest ih =>
    rw [List.map_cons, subtractEach, subtractAll_ends, ih, List.filterMap_cons, List.mapM_cons]
    cases a.subtractAll bs with
    | error cause => cases drop <;> rfl
    | ok b =>
      cases drop with
      | true => rfl
      | false =>
        rw [if_neg Bool.false_ne_true, if_neg Bool.false_ne_true]
        cases rest.mapM (·.subtractAll bs) <;> rfl

theorem subtractLists_ends (as bs : List Bound) (drop : Bool) :
    subtractLists (as.map Bound.ends) (bs.map Bound.ends) drop =
      lift (List.map Bound.ends) (Bound.subtractLists as bs drop) := by
  rw [subtractLists, Bound.subtractLists, subtractEach_ends, List.find?_map]
  simp only [List.all_map, Function.comp_def]
  change (match (bs.find? fun b => as.all fun a => decide (a.model ≠ b.model)).map Bound.ends with
    | some b => _
    | none => _) = _
  cases bs.find? fun b => as.all fun a => decide (a.model ≠ b.model) with
  | none => rfl
  | some b => rfl

theorem intersectByModel_ends (bs : List Bound) :
    intersectByModel (bs.map Bound.ends) =
      lift (List.map Bound.ends) (Bound.intersectByModel bs) := by
  rw [intersectByModel, List.foldl_map]
  exact mapM_eq_lift (fun e : Model × Nat × Nat => make_eq e.1 e.2.1 e.2.2) _

/-- The sums of a table of bounds. -/
def sums (t : Table Model Bound) : Table Model (Nat × Nat) :=
  t.mapValues fun _ b => (b.min, b.max)

theorem put_sums (t : Table Model Bound) (b : Bound) :
    put (sums t) b.ends = sums (Bound.put t b) := by
  refine Table.ext_get? fun x => ?_
  simp only [put, sums, Bound.put, Table.get?_update, Table.get?_mapValues, Bound.ends, capped_eq]
  by_cases hx : x = b.model
  · subst hx
    cases t.get? b.model with
    | none =>
      have hmax := b.max_le_threshold
      have hmin := Nat.le_trans b.min_le_max hmax
      simp [Nat.min_eq_left hmin, Nat.min_eq_left hmax]
    | some a => simp [Bound.plus]
  · simp [hx]

theorem accumulateByModel_ends (bs : List Bound) :
    accumulateByModel (bs.map Bound.ends) = (Bound.accumulateByModel bs).map Bound.ends := by
  have hfold : ∀ t, (bs.map Bound.ends).foldl put (sums t) = sums (bs.foldl Bound.put t) := by
    induction bs with
    | nil => exact fun t => rfl
    | cons b rest ih =>
      intro t
      rw [List.map_cons, List.foldl_cons, List.foldl_cons, put_sums, ih]
  have hsums : (bs.map Bound.ends).foldl put .empty = sums (Bound.merged bs) := hfold .empty
  rw [accumulateByModel, hsums, Bound.accumulateByModel_eq, sums, Table.mapValues, List.map_map,
    List.map_map]
  refine List.map_congr_left fun e he => ?_
  have hlabel := Bound.labelled_merged bs e.1 e.2 (Table.mem_entries_iff.mp he)
  simp [Bound.ends, hlabel]

theorem mergedAvailability_ends (t : Taxonomy) (required available : List Bound) :
    mergedAvailability t (required.map Bound.ends) (available.map Bound.ends) =
      (t.mergedAvailability required available).map Bound.ends := by
  -- Offers keep their ends, so none of them is refused under another model.
  have hmake : ∀ (model : Model) (b : Bound),
      (make model b.min b.max).toOption = some { b with model }.ends := fun model b =>
    toOption_make ⟨rfl, rfl, (Nat.min_eq_left b.max_le_threshold).symm⟩
  rw [mergedAvailability, Taxonomy.mergedAvailability, ← accumulateByModel_ends, List.map_flatMap]
  have hmodels : (required.map Bound.ends).map (·.model) = required.map (·.model) :=
    List.map_map
  rw [hmodels]
  refine congrArg accumulateByModel (congrArg (List.flatMap · _) (funext fun model => ?_))
  rw [List.filter_map, List.filterMap_map, List.map_map]
  exact (List.filterMap_congr fun b _ => hmake model b).trans (congrFun List.filterMap_eq_map _)

theorem requirement_eq (t : Taxonomy) (f : Functionality) :
    requirement t f = lift (List.map Bound.ends) (t.requirement f) := by
  rw [requirement, Taxonomy.requirement, mapM_eq_lift ofRestriction_eq]
  exact lift_bind intersectByModel_ends _

/-- What is granted for units of a model is offered, and none of it is refused. -/
theorem offers_ends (t : Taxonomy) (m : Model) {count : Nat} (hcount : 0 < count) :
    (offers t m count).filterMap (fun offer => (make offer.1 0 offer.2).toOption) =
      (t.offers m count).map Bound.ends := by
  have hmake : ∀ offer : Model × Nat,
      (make offer.1 0 offer.2).toOption = some (Bound.upTo offer.1 offer.2).ends := fun offer =>
    toOption_make ⟨rfl, rfl, rfl⟩
  have hmap : ∀ l : List (Model × Nat),
      l.filterMap (fun offer => (make offer.1 0 offer.2).toOption) =
        l.map fun offer => (Bound.upTo offer.1 offer.2).ends := fun l =>
    (List.filterMap_congr fun offer _ => hmake offer).trans (congrFun List.filterMap_eq_map l)
  have hpos : ∀ n, 0 < capped (n * count) ↔ 0 < n := by
    intro n
    have hthreshold : 0 < Bound.threshold := by decide
    rw [capped_eq, Nat.lt_min, and_iff_left hthreshold, Nat.mul_pos_iff_of_pos_right hcount]
  have hcut : ∀ (model : Model) (n : Nat),
      (Bound.upTo model (capped (n * count))).ends = (Bound.upTo model (n * count)).ends := by
    intro model n
    simp only [Bound.upTo, Bound.ends, capped_eq]
    exact congrArg (Ends.mk model 0) (Nat.min_eq_left (Nat.min_le_right _ _))
  rw [hmap, offers, Taxonomy.offers, Taxonomy.unitOffers, List.filter_cons_of_pos rfl,
    List.map_map, List.map_cons, List.map_cons, List.filter_map, List.filter_map, List.map_map,
    List.map_map]
  simp only [Function.comp_def, hpos, hcut, Nat.one_mul]

theorem availability_eq (t : Taxonomy) (p : Pool) :
    availability t p = (t.availability p).map Bound.ends := by
  have hpool : p.toList.filter (fun e => 0 < e.2) = p.compact.toList := by
    rw [Pool.toList, Pool.toList, List.filter_map]
    rfl
  rw [availability, Taxonomy.availability, ← accumulateByModel_ends, hpool, List.map_flatMap,
    List.filterMap_flatMap]
  refine congrArg accumulateByModel ?_
  rw [List.flatMap_def, List.flatMap_def]
  refine congrArg List.flatten (List.map_congr_left fun e he => offers_ends t e.1 ?_)
  rw [← hpool, List.mem_filter, decide_eq_true_eq] at he
  exact he.2

end Ends

/-! ## Compositions of operations -/

namespace Operation

/-- **On the ends of bounds, the plain computation is the one on bounds.** So it refuses the same
operands, and no subtraction goes below zero. -/
theorem run_map_ends (op : Operation Bound) :
    (op.map Bound.ends).run = Ends.lift (List.map Bound.ends) op.value := by
  cases op with
  | make model min max =>
    rw [map, run, value, Ends.make_eq, Ends.map_lift, Ends.lift_map]
    rfl
  | unbounded model => rfl
  | ofRestriction r =>
    rw [map, run, value, Ends.ofRestriction_eq, Ends.map_lift, Ends.lift_map]
    rfl
  | subtractMin a b =>
    rw [map, run, value, Ends.subtractMin_ends, Ends.map_lift, Ends.lift_map]
    rfl
  | subtractLists as bs drop => exact Ends.subtractLists_ends as bs drop
  | decrement b =>
    rw [map, run, value, Ends.decrement_ends]
    cases b.decrement <;> rfl
  | intersect bs => exact Ends.intersectByModel_ends bs
  | accumulate bs => exact congrArg Except.ok (Ends.accumulateByModel_ends bs)
  | merge t required available =>
    exact congrArg Except.ok (Ends.mergedAvailability_ends t required available)
  | require t f => exact Ends.requirement_eq t f
  | provide t p => exact congrArg Except.ok (Ends.availability_eq t p)

/-- An operation whose operands are ends of bounds is one on these bounds. -/
theorem exists_map_ends {op : Operation Ends}
    (h : ∀ x ∈ op.operands, x ∈ Set.range Bound.ends) :
    ∃ op' : Operation Bound, op'.map Bound.ends = op := by
  have hlist : ∀ {es : List Ends}, (∀ x ∈ es, x ∈ Set.range Bound.ends) →
      ∃ bs : List Bound, bs.map Bound.ends = es := by
    intro es hes
    have hrange : es ∈ Set.range (List.map Bound.ends) := by
      rw [Set.range_list_map]
      exact hes
    exact hrange
  cases op with
  | make model min max => exact ⟨.make model min max, rfl⟩
  | unbounded model => exact ⟨.unbounded model, rfl⟩
  | ofRestriction r => exact ⟨.ofRestriction r, rfl⟩
  | subtractMin a b =>
    simp only [operands, List.forall_mem_cons] at h
    obtain ⟨⟨a, rfl⟩, ⟨b, rfl⟩, -⟩ := h
    exact ⟨.subtractMin a b, rfl⟩
  | subtractLists as bs drop =>
    rw [operands, List.forall_mem_append] at h
    obtain ⟨as, rfl⟩ := hlist h.1
    obtain ⟨bs, rfl⟩ := hlist h.2
    exact ⟨.subtractLists as bs drop, rfl⟩
  | decrement e =>
    simp only [operands, List.forall_mem_cons] at h
    obtain ⟨⟨b, rfl⟩, -⟩ := h
    exact ⟨.decrement b, rfl⟩
  | intersect es =>
    obtain ⟨bs, rfl⟩ := hlist h
    exact ⟨.intersect bs, rfl⟩
  | accumulate es =>
    obtain ⟨bs, rfl⟩ := hlist h
    exact ⟨.accumulate bs, rfl⟩
  | merge t required available =>
    rw [operands, List.forall_mem_append] at h
    obtain ⟨required, rfl⟩ := hlist h.1
    obtain ⟨available, rfl⟩ := hlist h.2
    exact ⟨.merge t required available, rfl⟩
  | require t f => exact ⟨.require t f, rfl⟩
  | provide t p => exact ⟨.provide t p, rfl⟩

theorem operands_map {β γ : Type} (f : β → γ) (op : Operation β) :
    (op.map f).operands = op.operands.map f := by
  cases op <;> simp [map, operands]

/-- An operation leaves the ends of bounds behind, and just its operands where it fails. -/
theorem operandsAfter_map_ends (op : Operation Bound) :
    (∀ x ∈ (op.map Bound.ends).operandsAfter, x ∈ Set.range Bound.ends) ∧
      ∀ cause, op.value = .error cause →
        (op.map Bound.ends).operandsAfter = (op.map Bound.ends).operands := by
  have hoperands : ∀ x ∈ (op.map Bound.ends).operands, x ∈ Set.range Bound.ends := by
    intro x hx
    rw [operands_map, List.mem_map] at hx
    obtain ⟨b, -, rfl⟩ := hx
    exact Set.mem_range_self b
  cases op with
  | decrement b =>
    rw [map, operandsAfter, operands, value, Ends.decrement_ends]
    cases b.decrement with
    | error cause => simp
    | ok b' => simp [Except.map]
  | _ => exact ⟨hoperands, fun cause h => rfl⟩

/-- Ends that are obtained are the ends of a bound. -/
theorem mem_range_of_obtained {e : Ends} (h : e.Obtained) : e ∈ Set.range Bound.ends := by
  induction h with
  | result hoperands hrun he ih =>
    obtain ⟨op, rfl⟩ := exists_map_ends ih
    rw [run_map_ends] at hrun
    cases hvalue : op.value with
    | error cause =>
      rw [hvalue] at hrun
      cases hrun
    | ok bs =>
      rw [hvalue] at hrun
      cases hrun
      obtain ⟨b, -, rfl⟩ := List.mem_map.mp he
      exact Set.mem_range_self b
  | operand hoperands he ih =>
    obtain ⟨op, rfl⟩ := exists_map_ends ih
    exact (operandsAfter_map_ends op).1 _ he

/-- **Bounds stay in order**, though most operations do not check their results. Ends that any
composition of operations gives or leaves behind are in order and below the threshold. On such ends
no operation subtracts below zero, and one that fails leaves its operands as they were. On the ends
of bounds, the plain computation is the one on bounds. -/
theorem keeps_bounds :
    (∀ e : Ends, e.Obtained → e.min ≤ e.max ∧ e.max ≤ Bound.threshold) ∧
    (∀ op : Operation Ends, (∀ e ∈ op.operands, e.Obtained) → op.run ≠ .error .negative ∧
      ∀ failure, op.run = .error failure → op.operandsAfter = op.operands) ∧
    ∀ op : Operation Bound, (op.map Bound.ends).run = Ends.lift (List.map Bound.ends) op.value := by
  refine ⟨fun e he => ?_, fun op hop => ?_, run_map_ends⟩
  · obtain ⟨b, rfl⟩ := mem_range_of_obtained he
    exact ⟨b.min_le_max, b.max_le_threshold⟩
  · obtain ⟨op, rfl⟩ := exists_map_ends fun e he => mem_range_of_obtained (hop e he)
    rw [run_map_ends]
    cases hvalue : op.value with
    | ok bs => simp [Ends.lift]
    | error cause =>
      have hsame := (operandsAfter_map_ends op).2 cause hvalue
      simp [Ends.lift, hsame]

/-- Ends that are out of order, and so are never obtained, would go below zero. -/
example : (decrement (⟨⟨"camera"⟩, 1, 0⟩ : Ends)).run = .error .negative := rfl

end Operation

end Provision
