import Provision.Proofs.Mapping.Records

/-!
# Mappings grow

All that ever happens to a mapping is that pairs are recorded in it. This leaves its two pools and
its list of functionalities alone, and it keeps the two directions of the mapping in step. So a
mapping is determined by the pairs that it has recorded.

## Main definitions

* `Mapping.Grows m₀ m`: `m` is `m₀` with further pairs of its functionalities recorded.
* `Mapping.Regular m`: the two directions of a mapping have the same pairs, and no pool is kept
  without a functionality.
-/

namespace Provision

namespace Mapping
variable {m m₀ m' : Mapping} {f : Functionality} {p : Pool}

/-! ## What a mapping lists -/

/-- The pools of a functionality are those recorded for it. -/
theorem mem_of_poolsOf {pools : KeySet Pool} (h : m.poolsOf f = .ok pools) :
    p ∈ pools.toList ↔ m.isRecorded f p = true := by
  rw [poolsOf] at h
  cases hget : m.byFunctionality.get? f with
  | none =>
    rw [hget] at h
    cases h
  | some pools' =>
    rw [hget] at h
    cases h
    rw [isRecorded, hget, Option.any_some, KeySet.contains_iff]

/-- There are pools, none perhaps, for just the functionalities of a mapping. -/
theorem exists_poolsOf_iff : (∃ pools, m.poolsOf f = .ok pools) ↔ f ∈ m.functionalities := by
  rw [functionalities, Table.mem_keys_iff, poolsOf]
  cases m.byFunctionality.get? f with
  | none => simp
  | some pools => simp

/-- A pair that is recorded is one of a functionality of the mapping. -/
theorem mem_functionalities_of_isRecorded (h : m.isRecorded f p = true) :
    f ∈ m.functionalities := by
  rw [isRecorded] at h
  rw [functionalities, Table.mem_keys_iff]
  cases hget : m.byFunctionality.get? f with
  | none =>
    rw [hget] at h
    cases h
  | some pools => rfl

theorem get?_byFunctionality_empty (pool saturation : Pool) (fs : List Functionality) :
    (empty pool fs saturation).byFunctionality.get? f = if f ∈ fs then some .empty else none := by
  refine Option.ext fun pools => ?_
  rw [empty, Table.get?_ofList_eq_some_iff, List.mem_map]
  · by_cases hf : f ∈ fs
    · simp [hf, eq_comm]
    · simp only [if_neg hf, reduceCtorEq, iff_false]
      rintro ⟨f', hf', heq⟩
      cases heq
      exact hf hf'
  · intro e he e' he' _
    obtain ⟨_, -, rfl⟩ := List.mem_map.mp he
    obtain ⟨_, -, rfl⟩ := List.mem_map.mp he'
    rfl

/-- A new mapping has the functionalities it is made for. -/
theorem mem_functionalities_empty {pool saturation : Pool} {fs : List Functionality} :
    f ∈ (empty pool fs saturation).functionalities ↔ f ∈ fs := by
  rw [functionalities, Table.mem_keys_iff, get?_byFunctionality_empty]
  by_cases hf : f ∈ fs <;> simp [hf]

/-! ## A call of `add` -/

/-- Everything that a call of `add` may do. -/
theorem add_cases (m : Mapping) (f : Functionality) (p : Pool) :
    (f ∉ m.functionalities ∧ m.add f p = .error (.unknownFunctionality f)) ∨
      (f ∈ m.functionalities ∧ m.isRecorded f p.compact = true ∧ m.add f p = .ok (false, m)) ∨
      (f ∈ m.functionalities ∧ m.isRecorded f p.compact = false ∧
        m.add f p = .ok (true, m.record f p.compact)) := by
  have hmem : m.byFunctionality.contains f = true ↔ f ∈ m.functionalities :=
    Table.mem_keys_iff.symm
  rw [← hmem]
  unfold add
  cases m.byFunctionality.contains f with
  | false => simp
  | true => cases m.isRecorded f p.compact <;> simp

/-- A compact pool that is new for a functionality is recorded. -/
theorem add_of_not_isRecorded (hf : f ∈ m.functionalities) (hp : p.isCompact = true)
    (hnew : m.isRecorded f p = false) : m.add f p = .ok (true, m.record f p) := by
  have hself := Pool.compact_eq_self hp
  rcases m.add_cases f p with ⟨hunknown, -⟩ | ⟨-, hrecorded, -⟩ | ⟨-, -, hadd⟩
  · exact absurd hf hunknown
  · rw [hself, hnew] at hrecorded
    cases hrecorded
  · rwa [hself] at hadd

/-- A compact pool that is recorded already changes nothing. -/
theorem add_of_isRecorded (hf : f ∈ m.functionalities) (hp : p.isCompact = true)
    (hrecorded : m.isRecorded f p = true) : m.add f p = .ok (false, m) := by
  have hself := Pool.compact_eq_self hp
  rcases m.add_cases f p with ⟨hunknown, -⟩ | ⟨-, -, hadd⟩ | ⟨-, hnew, -⟩
  · exact absurd hf hunknown
  · exact hadd
  · rw [hself, hrecorded] at hnew
    cases hnew

/-! ## Both directions -/

/-- The two directions of a mapping have the same pairs, and every pool that is kept at all is kept
with a functionality. -/
structure Regular (m : Mapping) : Prop where
  mirrored : ∀ p f, m.isRecorded f p = true ↔ m.Lists p f
  listed : ∀ p, p ∈ m.byPool.keys → ∃ f, m.Lists p f

theorem regular_empty (pool saturation : Pool) (fs : List Functionality) :
    (empty pool fs saturation).Regular where
  mirrored p f := by
    have hnone := records_empty pool saturation fs
    rw [hnone.byFunctionality, hnone.byPool]
  listed p hp := by
    cases hp

/-- Recording a pair keeps the directions in step. -/
theorem Regular.record (h : m.Regular) (f : Functionality) (p : Pool) : (m.record f p).Regular where
  mirrored p' f' := by
    rw [isRecorded_record, Bool.or_eq_true, decide_eq_true_eq, lists_record, h.mirrored, and_comm]
  listed p' hp' := by
    by_cases hp : p' = p
    · exact ⟨f, lists_record.mpr (.inl ⟨hp, rfl⟩)⟩
    · rw [Mapping.record, Table.mem_keys_iff, Table.get?_update, if_neg hp,
        ← Table.mem_keys_iff] at hp'
      obtain ⟨f', hf'⟩ := h.listed p' hp'
      exact ⟨f', lists_record.mpr (.inr hf')⟩

theorem Regular.mem_keys_byPool (h : m.Regular) : p ∈ m.byPool.keys ↔ ∃ f, m.Lists p f := by
  refine ⟨h.listed p, ?_⟩
  rintro ⟨f, fs, hget, -⟩
  rw [Table.mem_keys_iff, hget]
  rfl

/-- **A mapping is determined by what it has recorded**, with its pools and its functionalities. -/
theorem Regular.ext (h : m.Regular) (h' : m'.Regular) (hpool : m.pool = m'.pool)
    (hsaturation : m.saturation = m'.saturation)
    (hfunctionalities : ∀ f, f ∈ m.functionalities ↔ f ∈ m'.functionalities)
    (hrecorded : ∀ f p, m.isRecorded f p = true ↔ m'.isRecorded f p = true) : m = m' := by
  have hlists : ∀ p f, m.Lists p f ↔ m'.Lists p f := fun p f =>
    (h.mirrored p f).symm.trans ((hrecorded f p).trans (h'.mirrored p f))
  have hbyFunctionality : m.byFunctionality = m'.byFunctionality := by
    refine Table.ext_sets hfunctionalities fun f pools pools' hget hget' p => ?_
    have hpools : m.poolsOf f = .ok pools := by rw [poolsOf, hget]
    have hpools' : m'.poolsOf f = .ok pools' := by rw [poolsOf, hget']
    rw [mem_of_poolsOf hpools, mem_of_poolsOf hpools', hrecorded]
  have hbyPool : m.byPool = m'.byPool := by
    refine Table.ext_sets (fun p => ?_) fun p fs fs' hget hget' f => ?_
    · rw [h.mem_keys_byPool, h'.mem_keys_byPool]
      exact exists_congr (hlists p)
    · have hp := hlists p f
      simpa only [Lists, hget, hget', Option.some.injEq, exists_eq_left'] using hp
  obtain ⟨pool, saturation, byFunctionality, byPool⟩ := m
  simp only at hpool hsaturation hbyFunctionality hbyPool
  rw [hpool, hsaturation, hbyFunctionality, hbyPool]

/-! ## Growth -/

/-- A mapping with further pairs of its functionalities recorded. -/
inductive Grows (m₀ : Mapping) : Mapping → Prop where
  | refl : Grows m₀ m₀
  | record {m : Mapping} {f : Functionality} (p : Pool) (h : Grows m₀ m)
      (hf : f ∈ m₀.functionalities) : Grows m₀ (m.record f p)

namespace Grows

theorem pool_eq (h : m₀.Grows m) : m.pool = m₀.pool := by
  induction h with
  | refl => rfl
  | record p h hf ih => exact ih

theorem saturation_eq (h : m₀.Grows m) : m.saturation = m₀.saturation := by
  induction h with
  | refl => rfl
  | record p h hf ih => exact ih

theorem mem_functionalities_iff (h : m₀.Grows m) :
    f ∈ m.functionalities ↔ f ∈ m₀.functionalities := by
  induction h with
  | refl => exact Iff.rfl
  | @record m f' p h hf' ih =>
    rw [← ih, functionalities, functionalities, Table.mem_keys_iff, Table.mem_keys_iff,
      Mapping.record, Table.get?_update]
    by_cases hf : f = f'
    · subst hf
      have hmem := ih.mpr hf'
      rw [functionalities, Table.mem_keys_iff] at hmem
      simp [hmem]
    · rw [if_neg hf]

theorem regular (h : m₀.Grows m) (h₀ : m₀.Regular) : m.Regular := by
  induction h with
  | refl => exact h₀
  | @record m f' p h hf' ih => exact ih.record f' p

theorem add {added : Bool} (h : m₀.Grows m) (hadd : m.add f p = .ok (added, m')) :
    m₀.Grows m' := by
  rcases m.add_cases f p with ⟨-, hcase⟩ | ⟨-, -, hcase⟩ | ⟨hf, -, hcase⟩
  · rw [hcase] at hadd
    cases hadd
  · rw [hcase] at hadd
    cases hadd
    exact h
  · rw [hcase] at hadd
    cases hadd
    exact h.record p.compact (h.mem_functionalities_iff.mp hf)

end Grows

/-! ## Additions -/

/-- The mapping after some calls of `add`. A call that fails changes nothing. -/
def addAll (m : Mapping) (calls : List (Functionality × Pool)) : Mapping :=
  calls.foldl (fun m c => match m.add c.1 c.2 with
    | .ok (_, m') => m'
    | .error _ => m) m

theorem grows_addAll (m : Mapping) (calls : List (Functionality × Pool)) :
    m.Grows (m.addAll calls) := by
  have hcalls : ∀ {m' : Mapping}, m.Grows m' → m.Grows (m'.addAll calls) := by
    induction calls with
    | nil => exact fun h => h
    | cons c rest ih =>
      intro m' h
      rw [addAll, List.foldl_cons]
      refine ih ?_
      split
      · next hadd => exact h.add hadd
      · exact h
  exact hcalls .refl

/-- Only compact pools are recorded by additions. -/
theorem isCompact_of_add {added : Bool} (h : ∀ f p, m.isRecorded f p = true → p.isCompact = true)
    {f : Functionality} {p : Pool} (hadd : m.add f p = .ok (added, m')) {f' : Functionality}
    {p' : Pool} (hrecorded : m'.isRecorded f' p' = true) : p'.isCompact = true := by
  rcases m.add_cases f p with ⟨-, hcase⟩ | ⟨-, -, hcase⟩ | ⟨-, -, hcase⟩
  · rw [hcase] at hadd
    cases hadd
  · rw [hcase] at hadd
    cases hadd
    exact h f' p' hrecorded
  · rw [hcase] at hadd
    cases hadd
    rw [isRecorded_record, Bool.or_eq_true, decide_eq_true_eq] at hrecorded
    rcases hrecorded with ⟨-, rfl⟩ | hrecorded
    · exact p.isCompact_compact
    · exact h f' p' hrecorded

theorem isCompact_of_addAll (h : ∀ f p, m.isRecorded f p = true → p.isCompact = true)
    (calls : List (Functionality × Pool)) :
    ∀ f p, (m.addAll calls).isRecorded f p = true → p.isCompact = true := by
  induction calls generalizing m with
  | nil => exact h
  | cons c rest ih =>
    rw [addAll, List.foldl_cons]
    refine ih ?_
    split
    · next hadd => exact fun f p => isCompact_of_add h hadd
    · exact h

/-! ## Pairs recorded one after the other -/

/-- The mapping after some pairs have been recorded. -/
def recordAll (m : Mapping) (pairs : List (Functionality × Pool)) : Mapping :=
  pairs.foldl (fun m e => m.record e.1 e.2) m

theorem isRecorded_recordAll {pairs : List (Functionality × Pool)} :
    (m.recordAll pairs).isRecorded f p = true ↔ (f, p) ∈ pairs ∨ m.isRecorded f p = true := by
  induction pairs generalizing m with
  | nil => simp [recordAll]
  | cons e rest ih =>
    rw [recordAll, List.foldl_cons, ← recordAll, ih, isRecorded_record, Bool.or_eq_true,
      decide_eq_true_eq, List.mem_cons, Prod.ext_iff]
    tauto

theorem Grows.recordAll (h : m₀.Grows m) {pairs : List (Functionality × Pool)}
    (hpairs : ∀ e ∈ pairs, e.1 ∈ m₀.functionalities) : m₀.Grows (m.recordAll pairs) := by
  induction pairs generalizing m with
  | nil => exact h
  | cons e rest ih =>
    rw [List.forall_mem_cons] at hpairs
    exact ih (h.record e.2 hpairs.1) hpairs.2

end Mapping

end Provision
