import Provision.Proofs.Mapping.Growth

/-!
# The two directions of a mapping agree

A mapping answers in two directions: which pools support a functionality, and which functionalities
a pool supports. The first is read off one table and the second off the other, and `add` writes to
both. Whatever calls of `add` are made on a new mapping, the answers tell the same story, and they
depend on nothing but the pairs that the calls have had accepted.

## Main definitions

* `Mapping.accepted m calls`: the pairs of those calls of `add` that succeed.

## Main results

* `Mapping.directions_agree`: what holds of a mapping after any calls of `add`.
-/

namespace Provision

namespace Mapping
variable {m : Mapping} {f : Functionality} {p : Pool}

/-- A new mapping has recorded nothing. -/
theorem size_empty (pool saturation : Pool) (fs : List Functionality) :
    (empty pool fs saturation).size = 0 := by
  rw [size, sumOf_eq_sum]
  refine List.sum_eq_zero fun k hk => ?_
  obtain ⟨⟨f, pools⟩, he, rfl⟩ := List.mem_map.mp hk
  have hget := Table.mem_entries_iff.mp he
  rw [get?_byFunctionality_empty] at hget
  split at hget
  · cases hget
    rfl
  · cases hget

theorem size_record (hf : f ∈ m.functionalities) (hnew : m.isRecorded f p = false) :
    (m.record f p).size = m.size + 1 := by
  rw [functionalities, Table.mem_keys_iff, Option.isSome_iff_exists] at hf
  obtain ⟨pools, hget⟩ := hf
  rw [isRecorded, hget, Option.any_some] at hnew
  have hsum := m.byFunctionality.sum_update f (fun old => (old.getD .empty).add p) Table.size
  rw [hget] at hsum
  simp only [Option.elim_some, Option.getD_some, KeySet.size_add hnew] at hsum
  have hrecord : (m.record f p).byFunctionality =
      m.byFunctionality.update f fun old => (old.getD .empty).add p := rfl
  rw [size, size, sumOf_eq_sum, sumOf_eq_sum, hrecord]
  omega

/-- Pairs that are new make the mapping larger by their number. -/
theorem size_recordAll {pairs : List (Functionality × Pool)} (hnodup : pairs.Nodup)
    (hpairs : ∀ e ∈ pairs, e.1 ∈ m.functionalities ∧ m.isRecorded e.1 e.2 = false) :
    (m.recordAll pairs).size = m.size + pairs.length := by
  induction pairs generalizing m with
  | nil => rfl
  | cons e rest ih =>
    rw [List.nodup_cons] at hnodup
    obtain ⟨⟨hf, hnew⟩, hrest⟩ := List.forall_mem_cons.mp hpairs
    have hgrows : m.Grows (m.record e.1 e.2) := Grows.refl.record e.2 hf
    rw [recordAll, List.foldl_cons, ← recordAll, ih hnodup.2, size_record hf hnew,
      List.length_cons]
    · omega
    · intro e' he'
      refine ⟨hgrows.mem_functionalities_iff.mpr (hrest e' he').1, ?_⟩
      have hne : ¬ (e'.1 = e.1 ∧ e'.2 = e.2) := fun heq => hnodup.1 (Prod.ext_iff.mpr heq ▸ he')
      rw [isRecorded_record, decide_eq_false hne, Bool.false_or]
      exact (hrest e' he').2

/-! ## Calls -/

/-- A call grows the mapping just when it says so, and otherwise changes nothing. -/
theorem addAll_singleton (m : Mapping) (f : Functionality) (p : Pool) :
    ((∃ m', m.add f p = .ok (true, m')) ↔ (m.addAll [(f, p)]).size = m.size + 1) ∧
      ((¬ ∃ m', m.add f p = .ok (true, m')) → m.addAll [(f, p)] = m) := by
  rw [addAll, List.foldl_cons, List.foldl_nil]
  rcases m.add_cases f p with ⟨hf, hadd⟩ | ⟨hf, hrecorded, hadd⟩ | ⟨hf, hrecorded, hadd⟩
  · simp [hadd]
  · simp [hadd]
  · simp [hadd, size_record hf hrecorded]

/-- The pairs that calls of `add` are about, as far as they succeed; the pools are compacted. -/
def accepted (m : Mapping) : List (Functionality × Pool) → List (Functionality × Pool)
  | [] => []
  | c :: rest => match m.add c.1 c.2 with
    | .ok (_, m') => (c.1, c.2.compact) :: m'.accepted rest
    | .error _ => m.accepted rest

/-- A call is accepted when it is about a functionality of the mapping. -/
theorem mem_accepted_iff {calls : List (Functionality × Pool)} :
    (f, p) ∈ m.accepted calls ↔
      f ∈ m.functionalities ∧ ∃ q, (f, q) ∈ calls ∧ q.compact = p := by
  induction calls generalizing m with
  | nil => simp [accepted]
  | cons c rest ih =>
    obtain ⟨f', p'⟩ := c
    rw [accepted]
    rcases m.add_cases f' p' with ⟨hf, hadd⟩ | ⟨hf, -, hadd⟩ | ⟨hf, -, hadd⟩
    · simp only [hadd, ih, List.mem_cons, Prod.mk.injEq]
      constructor
      · rintro ⟨hmem, q, hq, hp⟩
        exact ⟨hmem, q, .inr hq, hp⟩
      · rintro ⟨hmem, q, ⟨rfl, -⟩ | hq, hp⟩
        · exact absurd hmem hf
        · exact ⟨hmem, q, hq, hp⟩
    all_goals
      have hmem : f ∈ (m.record f' p'.compact).functionalities ↔ f ∈ m.functionalities :=
        (Grows.refl.record p'.compact hf).mem_functionalities_iff
      simp only [hadd, ih, hmem, List.mem_cons, Prod.mk.injEq]
      constructor
      · rintro (⟨rfl, rfl⟩ | ⟨hmem, q, hq, hp⟩)
        · exact ⟨hf, p', .inl ⟨rfl, rfl⟩, rfl⟩
        · exact ⟨hmem, q, .inr hq, hp⟩
      · rintro ⟨hmem, q, ⟨rfl, rfl⟩ | hq, hp⟩
        · exact .inl ⟨rfl, hp.symm⟩
        · exact .inr ⟨hmem, q, hq, hp⟩

/-- A mapping has recorded what it had before and what has been accepted since. -/
theorem isRecorded_addAll {calls : List (Functionality × Pool)} :
    (m.addAll calls).isRecorded f p = true ↔
      (f, p) ∈ m.accepted calls ∨ m.isRecorded f p = true := by
  induction calls generalizing m with
  | nil => simp [addAll, accepted]
  | cons c rest ih =>
    obtain ⟨f', p'⟩ := c
    rw [addAll, List.foldl_cons, ← addAll, ih, accepted]
    rcases m.add_cases f' p' with ⟨hf, hadd⟩ | ⟨hf, hrecorded, hadd⟩ | ⟨hf, hrecorded, hadd⟩
    · simp [hadd]
    · simp only [hadd, List.mem_cons, Prod.mk.injEq]
      constructor
      · tauto
      · rintro ((⟨rfl, rfl⟩ | h) | h)
        · exact .inr hrecorded
        · exact .inl h
        · exact .inr h
    · simp only [hadd, List.mem_cons, Prod.mk.injEq, isRecorded_record, Bool.or_eq_true,
        decide_eq_true_eq]
      tauto

/-! ## Questions -/

theorem isRecorded_iff_exists_poolsOf :
    m.isRecorded f p = true ↔ ∃ pools, m.poolsOf f = .ok pools ∧ p ∈ pools.toList := by
  constructor
  · intro h
    obtain ⟨pools, hpools⟩ := exists_poolsOf_iff.mpr (mem_functionalities_of_isRecorded h)
    exact ⟨pools, hpools, (mem_of_poolsOf hpools).mpr h⟩
  · rintro ⟨pools, hpools, hp⟩
    exact (mem_of_poolsOf hpools).mp hp

/-- A pool has the functionalities that list a pool within it. -/
theorem Regular.mem_functionalitiesOf_iff (h : m.Regular) {q : Pool} :
    f ∈ (m.functionalitiesOf q).toList ↔
      ∃ pools, m.poolsOf f = .ok pools ∧ ∃ p ∈ pools.toList, p.isSubset q = true := by
  simp only [mem_functionalitiesOf, ← h.mirrored, isRecorded_iff_exists_poolsOf, Pool.isSubset_iff]
  constructor
  · rintro ⟨p, ⟨pools, hpools, hp⟩, hle⟩
    exact ⟨pools, hpools, p, hp, hle⟩
  · rintro ⟨pools, hpools, p, hp, hle⟩
    exact ⟨p, ⟨pools, hpools, hp⟩, hle⟩

theorem functionalitiesOf_mono {q q' : Pool} (hsubset : q.isSubset q' = true)
    (hf : f ∈ (m.functionalitiesOf q).toList) : f ∈ (m.functionalitiesOf q').toList := by
  rw [mem_functionalitiesOf] at hf ⊢
  obtain ⟨p, hp, hle⟩ := hf
  exact ⟨p, hp, fun x => (hle x).trans (Pool.isSubset_iff.mp hsubset x)⟩

theorem isSupported_iff :
    m.isSupported f = true ↔ ∃ pools, m.poolsOf f = .ok pools ∧ pools.toList ≠ [] := by
  rw [isSupported, poolsOf]
  cases m.byFunctionality.get? f with
  | none => simp
  | some pools => simp [KeySet.toList, Table.keys, Table.isEmpty]

/-- **The two directions of a mapping agree**, whatever calls of `add` are made on a new one. Both
keep the same pairs, and only compact pools. A pool has the functionalities that have a recorded
pool within it, so a larger pool has no fewer; a functionality is supported when it has a recorded
pool. A call of `add` that reports a new pair makes the mapping larger by one, and any other call
leaves it alone. The same calls make the same mapping in whatever order and however often they are
made, and so do other calls that have the same pairs accepted. -/
theorem directions_agree (pool saturation : Pool) (fs : List Functionality)
    (calls : List (Functionality × Pool)) :
    let m₀ := empty pool fs saturation
    let m := m₀.addAll calls
    m.Regular ∧
    (m.pool.isCompact = true ∧ m.saturation.isCompact = true ∧
      (∀ p ∈ m.byPool.keys, p.isCompact = true) ∧
      ∀ f pools, m.poolsOf f = .ok pools → ∀ p ∈ pools.toList, p.isCompact = true) ∧
    (∀ q f, f ∈ (m.functionalitiesOf q).toList ↔
      ∃ pools, m.poolsOf f = .ok pools ∧ ∃ p ∈ pools.toList, p.isSubset q = true) ∧
    (∀ q q', q.isSubset q' = true →
      ∀ f ∈ (m.functionalitiesOf q).toList, f ∈ (m.functionalitiesOf q').toList) ∧
    (∀ f, m.isSupported f = true ↔ ∃ pools, m.poolsOf f = .ok pools ∧ pools.toList ≠ []) ∧
    (∀ f p, ((∃ m', m.add f p = .ok (true, m')) ↔ (m.addAll [(f, p)]).size = m.size + 1) ∧
      ((¬ ∃ m', m.add f p = .ok (true, m')) → m.addAll [(f, p)] = m)) ∧
    (∀ calls', (∀ c, c ∈ calls' ↔ c ∈ calls) → m₀.addAll calls' = m) ∧
    ∀ calls', (∀ e, e ∈ m₀.accepted calls' ↔ e ∈ m₀.accepted calls) → m₀.addAll calls' = m := by
  intro m₀ m
  have hgrows : m₀.Grows m := grows_addAll m₀ calls
  have hregular : m.Regular := hgrows.regular (regular_empty pool saturation fs)
  have hcompact : ∀ f p, m.isRecorded f p = true → p.isCompact = true :=
    isCompact_of_addAll (fun f p h => (((records_empty _ _ _).byFunctionality p f).mp h).elim) calls
  have hsame : ∀ calls', (∀ e, e ∈ m₀.accepted calls' ↔ e ∈ m₀.accepted calls) →
      m₀.addAll calls' = m := by
    intro calls' hcalls
    have hgrows' : m₀.Grows (m₀.addAll calls') := grows_addAll m₀ calls'
    refine (hgrows'.regular (regular_empty pool saturation fs)).ext hregular
      (hgrows'.pool_eq.trans hgrows.pool_eq.symm)
      (hgrows'.saturation_eq.trans hgrows.saturation_eq.symm)
      (fun f => hgrows'.mem_functionalities_iff.trans hgrows.mem_functionalities_iff.symm)
      fun f p => ?_
    rw [isRecorded_addAll, isRecorded_addAll, hcalls]
  refine ⟨hregular, ⟨?_, ?_, ?_, ?_⟩, fun q f => hregular.mem_functionalitiesOf_iff,
    fun q q' hsubset f => functionalitiesOf_mono hsubset, fun f => isSupported_iff,
    m.addAll_singleton, ?_, hsame⟩
  · exact hgrows.pool_eq ▸ pool.isCompact_compact
  · exact hgrows.saturation_eq ▸ saturation.isCompact_compact
  · intro p hp
    obtain ⟨f, hf⟩ := hregular.listed p hp
    exact hcompact f p ((hregular.mirrored p f).mpr hf)
  · intro f pools hpools p hp
    exact hcompact f p ((mem_of_poolsOf hpools).mp hp)
  · intro calls' hcalls
    refine hsame calls' ?_
    rintro ⟨f, p⟩
    simp only [mem_accepted_iff, hcalls]

end Mapping

end Provision
