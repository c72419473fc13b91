import Provision.Pool.Delta
import Provision.Proofs.Table

/-!
# Deltas by their amounts

A delta is a table, but most of what is said about deltas is said about the amount of each model.
Sums and differences are computed model by model, where a pool enters with its counts. A delta is a
pool again unless some amount is negative, and then the least model with a negative amount is the
one that is reported.
-/

namespace Provision

theorem Amount.toInt_ofInt_count {c : Nat} (hc : c ≤ Count.ceiling) : (ofInt c).toInt = c := by
  have hfits : kind.Fits (c : Int) := by
    have hmin := kind.min_nonpos
    have hmax : (Count.ceiling : Int) ≤ kind.max := by decide
    unfold IntKind.Fits
    omega
  rw [toInt_ofInt, IntKind.clamp_of_fits hfits]

/-- The least model that has a property. -/
structure Model.Least (P : Model → Prop) (m : Model) : Prop where
  holds : P m
  isLE : ∀ m', P m' → (compare m m').isLE = true

namespace Delta

/-! ## Amounts and entries -/

theorem amount_eq_of_get? {d : Delta} {m : Model} {a : Amount} (h : d.get? m = some a) :
    d.amount m = a.toInt := by
  rw [amount, h, Option.elim_some]

theorem amount_of_mem_entries {d : Delta} {e : Model × Amount} (h : e ∈ d.entries) :
    d.amount e.1 = e.2.toInt :=
  amount_eq_of_get? (Table.mem_entries_iff.mp h)

theorem fits_amount (d : Delta) (m : Model) : Amount.kind.Fits (d.amount m) := by
  rw [amount]
  cases d.get? m with
  | none =>
    rw [Option.elim_none]
    exact ⟨Amount.kind.min_nonpos, Amount.kind.max_nonneg⟩
  | some a => exact a.fits

/-- A model with an amount is listed. -/
theorem exists_mem_entries_of_amount {d : Delta} {m : Model} (h : d.amount m ≠ 0) :
    ∃ a, (m, a) ∈ d.entries ∧ a.toInt = d.amount m := by
  rw [amount] at h ⊢
  cases hget : d.get? m with
  | none =>
    rw [hget] at h
    exact absurd rfl h
  | some a => exact ⟨a, Table.mem_entries_iff.mpr hget, rfl⟩

/-- Deltas are equal if they list the same models with the same amounts. -/
theorem ext_amount {d e : Delta} (hkeys : ∀ m, m ∈ d.keys ↔ m ∈ e.keys)
    (hamount : ∀ m, d.amount m = e.amount m) : d = e := by
  refine Table.ext_keys hkeys fun m a b ha hb => Amount.ext ?_
  have hm := hamount m
  rwa [amount_eq_of_get? ha, amount_eq_of_get? hb] at hm

/-! ## Pools as deltas -/

theorem mem_keys_ofPool {p : Pool} {m : Model} : m ∈ (ofPool p).keys ↔ m ∈ p.models := by
  rw [Pool.models, Table.mem_keys_iff, Table.mem_keys_iff, ofPool, Table.get?_mapValues,
    Option.isSome_map]

@[simp] theorem amount_ofPool (p : Pool) (m : Model) : (ofPool p).amount m = p.count m := by
  rw [amount, ofPool, Table.get?_mapValues, Pool.count]
  cases p.get? m with
  | none => rfl
  | some c =>
    rw [Option.map_some, Option.elim_some, Option.elim_some]
    exact Amount.toInt_ofInt_count c.le_ceiling

/-! ## Sums and differences -/

theorem get?_combine (f : Int → Int → Int) (d e : Delta) (m : Model) :
    (combine f d e).get? m =
      if (d.get? m).isNone && (e.get? m).isNone then none
      else some (.ofInt (f (d.amount m) (e.amount m))) := by
  rw [combine, Table.get?_zip]
  rfl

/-- A model that neither delta lists has no amount afterwards either. -/
theorem amount_combine {f : Int → Int → Int} (hf : f 0 0 = 0) (d e : Delta) (m : Model) :
    (combine f d e).amount m = Amount.kind.clamp (f (d.amount m) (e.amount m)) := by
  rw [amount, get?_combine]
  split
  · next hnone =>
    obtain ⟨hd, he⟩ := Bool.and_eq_true_iff.mp hnone
    rw [Option.isNone_iff_eq_none] at hd he
    rw [amount, amount, hd, he, Option.elim_none, hf]
    rfl
  · rfl

theorem mem_keys_combine {f : Int → Int → Int} {d e : Delta} {m : Model} :
    m ∈ (combine f d e).keys ↔ m ∈ d.keys ∨ m ∈ e.keys := by
  rw [Table.mem_keys_iff, Table.mem_keys_iff, Table.mem_keys_iff, get?_combine]
  cases d.get? m <;> cases e.get? m <;> simp

theorem mem_keys_sum {d e : Delta} {m : Model} : m ∈ (d.sum e).keys ↔ m ∈ d.keys ∨ m ∈ e.keys :=
  mem_keys_combine

@[simp] theorem amount_sum (d e : Delta) (m : Model) :
    (d.sum e).amount m = Amount.kind.satAdd (d.amount m) (e.amount m) :=
  amount_combine rfl d e m

@[simp] theorem amount_subtract (d e : Delta) (m : Model) :
    (d.subtract e).amount m = Amount.kind.satSub (e.amount m) (d.amount m) :=
  amount_combine rfl d e m

/-! ## Negative amounts -/

theorem isNegative_eq_true_iff {d : Delta} : d.isNegative = true ↔ ∃ m, d.amount m < 0 := by
  simp only [isNegative, List.any_eq_true, decide_eq_true_eq]
  constructor
  · rintro ⟨e, he, hneg⟩
    exact ⟨e.1, by rwa [amount_of_mem_entries he]⟩
  · rintro ⟨m, hneg⟩
    obtain ⟨a, ha, heq⟩ := exists_mem_entries_of_amount (Int.ne_of_lt hneg)
    exact ⟨(m, a), ha, by rwa [heq]⟩

/-- A delta without negative amounts is a pool, and of another one the least model with a negative
amount is reported. -/
theorem toPool_cases (d : Delta) :
    ((∀ m, 0 ≤ d.amount m) ∧ d.toPool = .ok (d.mapValues fun _ a => .ofNat a.toInt.toNat)) ∨
      ∃ m, Model.Least (d.amount · < 0) m ∧
        d.toPool = .error (.negativeCardinality m (d.amount m)) := by
  rw [toPool]
  cases hfind : d.entries.find? fun e => e.2.toInt < 0 with
  | none =>
    refine .inl ⟨fun m => ?_, rfl⟩
    by_contra hneg
    rw [Int.not_le] at hneg
    obtain ⟨a, ha, heq⟩ := exists_mem_entries_of_amount (Int.ne_of_lt hneg)
    have hnone := List.find?_eq_none.mp hfind (m, a) ha
    rw [decide_eq_true_eq, heq] at hnone
    exact hnone hneg
  | some e =>
    have hfirst := find?_eq_some_iff_isFirst.mp hfind
    have hamount := amount_of_mem_entries hfirst.mem
    refine .inr ⟨e.1, ⟨?_, ?_⟩, by rw [hamount]⟩
    · rw [hamount]
      exact of_decide_eq_true hfirst.1
    · intro m' hneg
      obtain ⟨a, ha, heq⟩ := exists_mem_entries_of_amount (Int.ne_of_lt hneg)
      have hle := Table.isLE_of_isFirst hfirst ha (decide_eq_true (heq ▸ hneg))
      exact hle

theorem exists_toPool_of_nonneg {d : Delta} (h : ∀ m, 0 ≤ d.amount m) :
    ∃ r, d.toPool = .ok r := by
  rcases d.toPool_cases with ⟨-, hok⟩ | ⟨m, hm, -⟩
  · exact ⟨_, hok⟩
  · exact absurd hm.holds (Int.not_lt.mpr (h m))

theorem toPool_eq_ok {d : Delta} {r : Pool} (h : d.toPool = .ok r) :
    r = d.mapValues fun _ a => .ofNat a.toInt.toNat := by
  rcases d.toPool_cases with ⟨-, hok⟩ | ⟨m, -, herror⟩
  · exact Except.ok.inj (h.symm.trans hok)
  · rw [herror] at h
    cases h

theorem mem_models_toPool {d : Delta} {r : Pool} (h : d.toPool = .ok r) {m : Model} :
    m ∈ r.models ↔ m ∈ d.keys := by
  rw [toPool_eq_ok h, Pool.models, Table.mem_keys_iff, Table.mem_keys_iff, Table.get?_mapValues,
    Option.isSome_map]

/-- A delta that is a pool has the amounts of that pool, up to the ceiling of counts. -/
theorem count_toPool {d : Delta} {r : Pool} (h : d.toPool = .ok r) (m : Model) :
    r.count m = Min.min (d.amount m).toNat Count.ceiling := by
  rw [toPool_eq_ok h, Pool.count, Table.get?_mapValues, amount]
  cases d.get? m with
  | none => rfl
  | some a => rfl

end Delta

end Provision
