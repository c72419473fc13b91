import Provision.Mapping
import Provision.Proofs.Pool.Counts

/-!
# What a mapping has recorded

A mapping keeps every recorded pair of a pool and a functionality twice, once in either direction.
The two directions say the same, and a pool has the functionalities of all recorded pools within it.

## Main definitions

* `Mapping.Lists m p f`: `f` is kept with the pool `p`.
* `Mapping.Records m R`: in both directions, the recorded pairs are the pairs in `R`.
-/

namespace Provision

namespace Mapping

/-- A functionality is kept with a pool. -/
def Lists (m : Mapping) (p : Pool) (f : Functionality) : Prop :=
  ∃ fs, m.byPool.get? p = some fs ∧ f ∈ fs.toList

/-- The pairs that a mapping has recorded, as both of its directions have them. -/
structure Records (m : Mapping) (R : Pool → Functionality → Prop) : Prop where
  byFunctionality : ∀ p f, m.isRecorded f p = true ↔ R p f
  byPool : ∀ p f, m.Lists p f ↔ R p f

theorem Records.congr {m : Mapping} {R R' : Pool → Functionality → Prop} (h : m.Records R)
    (hiff : ∀ p f, R p f ↔ R' p f) : m.Records R' where
  byFunctionality p f := (h.byFunctionality p f).trans (hiff p f)
  byPool p f := (h.byPool p f).trans (hiff p f)

theorem lists_record {m : Mapping} {f f' : Functionality} {p p' : Pool} :
    (m.record f p).Lists p' f' ↔ p' = p ∧ f' = f ∨ m.Lists p' f' := by
  rw [Lists, record, Table.get?_update]
  by_cases hp : p' = p
  · subst hp
    rw [if_pos rfl]
    simp only [Option.some.injEq, exists_eq_left', KeySet.mem_add, true_and]
    refine or_congr Iff.rfl ?_
    rw [Lists]
    cases m.byPool.get? p' with
    | none => simp [KeySet.toList, Table.keys, Table.empty]
    | some fs => simp
  · rw [if_neg hp]
    simp [hp, Lists]

/-- Recording a pair adds it in both directions. -/
theorem Records.record {m : Mapping} {R : Pool → Functionality → Prop} (h : m.Records R)
    (f : Functionality) (p : Pool) :
    (m.record f p).Records fun p' f' => p' = p ∧ f' = f ∨ R p' f' where
  byFunctionality p' f' := by
    rw [isRecorded_record, Bool.or_eq_true, decide_eq_true_eq, h.byFunctionality]
    exact or_congr and_comm Iff.rfl
  byPool p' f' := by
    rw [lists_record, h.byPool]

/-- A new mapping has recorded nothing. -/
theorem records_empty (pool saturation : Pool) (fs : List Functionality) :
    (empty pool fs saturation).Records fun _ _ => False where
  byFunctionality p f := by
    have hnone : ∀ pools, (empty pool fs saturation).byFunctionality.get? f = some pools →
        pools = .empty := by
      intro pools hget
      rw [empty, Table.get?_ofList_eq_some_iff] at hget
      · obtain ⟨f', -, heq⟩ := List.mem_map.mp hget
        cases heq
        rfl
      · intro e he e' he' _
        obtain ⟨f', -, rfl⟩ := List.mem_map.mp he
        obtain ⟨f'', -, rfl⟩ := List.mem_map.mp he'
        rfl
    rw [isRecorded, iff_false, Bool.not_eq_true]
    cases hget : (empty pool fs saturation).byFunctionality.get? f with
    | none => rfl
    | some pools =>
      rw [hnone pools hget]
      rfl
  byPool p f := by
    rw [Lists]
    simp [empty]

/-- The functionalities of a pool are those recorded for some pool within it. -/
theorem mem_functionalitiesOf {m : Mapping} {q : Pool} {f : Functionality} :
    f ∈ (m.functionalitiesOf q).toList ↔
      ∃ p, m.Lists p f ∧ ∀ x, p.count x ≤ q.count x := by
  have hfold : ∀ (entries : List (Pool × KeySet Functionality)) (fs : KeySet Functionality),
      f ∈ (entries.foldl (fun fs e => if e.1.isSubset q then fs.union e.2 else fs) fs).toList ↔
        f ∈ fs.toList ∨ ∃ e ∈ entries, e.1.isSubset q = true ∧ f ∈ e.2.toList := by
    intro entries
    induction entries with
    | nil => simp
    | cons e rest ih =>
      intro fs
      rw [List.foldl_cons, ih]
      by_cases he : e.1.isSubset q = true
      · rw [if_pos he, KeySet.mem_union]
        simp [he, or_assoc]
      · rw [if_neg he]
        simp [he]
  rw [functionalitiesOf, hfold]
  constructor
  · rintro (hempty | ⟨e, he, hsubset, hf⟩)
    · cases hempty
    · exact ⟨e.1, ⟨e.2, Table.mem_entries_iff.mp he, hf⟩, Pool.isSubset_iff.mp hsubset⟩
  · rintro ⟨p, ⟨fs, hget, hf⟩, hle⟩
    exact .inr ⟨(p, fs), Table.mem_entries_iff.mpr hget, Pool.isSubset_iff.mpr hle, hf⟩

end Mapping

end Provision
