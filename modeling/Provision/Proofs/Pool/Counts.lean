import Provision.Pool
import Provision.Proofs.Table

/-!
# Pools by their counts

A pool is a table, but most of what is said about pools is said about the number of units of each
model. Compact pools are determined by these numbers.
-/

namespace Provision

namespace Count

/-- The greater of two counts. -/
def greater (a b : Count) : Count := .ofNat (Nat.max a.toNat b.toNat)

@[simp] theorem toNat_greater (a b : Count) : (greater a b).toNat = Nat.max a.toNat b.toNat :=
  Nat.min_eq_left (Nat.max_le.mpr ⟨a.le_ceiling, b.le_ceiling⟩)

instance : Std.Commutative greater where
  comm a b := ext (by simp [Nat.max_comm])

instance : Std.Associative greater where
  assoc a b c := ext (by simp [Nat.max_assoc])

end Count

namespace Pool

/-! ## Counts and entries -/

theorem count_of_mem_entries {p : Pool} {e : Model × Count} (h : e ∈ p.entries) :
    p.count e.1 = e.2.toNat := by
  have hget : p.get? e.1 = some e.2 := Table.mem_entries_iff.mp h
  rw [count, hget]
  rfl

theorem mem_keys_of_count {p : Pool} {m : Model} (h : p.count m ≠ 0) : m ∈ p.keys := by
  rw [Table.mem_keys_iff, Option.isSome_iff_ne_none]
  intro hnone
  rw [count, hnone] at h
  exact h rfl

theorem mem_toFinset_keys {p : Pool} {m : Model} (h : p.count m ≠ 0) : m ∈ p.keys.toFinset :=
  List.mem_toFinset.mpr (mem_keys_of_count h)

theorem get?_compact (p : Pool) (m : Model) :
    p.compact.get? m = (p.get? m).filter fun c => 0 < c.toNat :=
  Table.get?_filter p _ m

@[simp] theorem count_compact (p : Pool) (m : Model) : p.compact.count m = p.count m := by
  rw [count, count, get?_compact]
  cases p.get? m with
  | none => rfl
  | some c =>
    by_cases hc : 0 < c.toNat
    · simp [Option.filter_some, hc]
    · simp [Option.filter_some, Nat.eq_zero_of_not_pos hc]

/-- A pool that holds nothing counts no unit of any model. -/
theorem holdsNothing_eq_true_iff {p : Pool} : p.holdsNothing = true ↔ ∀ m, p.count m = 0 := by
  simp only [holdsNothing, List.all_eq_true, decide_eq_true_eq]
  constructor
  · intro h m
    by_contra hne
    obtain ⟨e, he, rfl⟩ := List.mem_map.mp (mem_keys_of_count hne)
    exact hne ((count_of_mem_entries he).trans (h e he))
  · intro h e he
    rw [← count_of_mem_entries he]
    exact h e.1

theorem holdsNothing_eq_false_iff {p : Pool} : p.holdsNothing = false ↔ ∃ m, p.count m ≠ 0 := by
  rw [← Bool.not_eq_true, holdsNothing_eq_true_iff, not_forall]

theorem isCompact_iff {p : Pool} :
    p.isCompact = true ↔ ∀ m c, p.get? m = some c → 0 < c.toNat := by
  simp only [isCompact, List.all_eq_true, decide_eq_true_eq]
  constructor
  · intro h m c hget
    exact h (m, c) (Table.mem_entries_iff.mpr hget)
  · intro h e he
    exact h e.1 e.2 (Table.mem_entries_iff.mp he)

theorem isCompact_boundedBy (p q : Pool) : (p.boundedBy q).isCompact = true := by
  rw [isCompact_iff]
  intro m c hget
  rw [boundedBy, Table.get?_filterMap, Option.bind_eq_some_iff] at hget
  obtain ⟨k, -, hk⟩ := hget
  simp only [Option.ite_none_right_eq_some, Option.some.injEq] at hk
  obtain ⟨hpos, rfl⟩ := hk
  have hle := k.le_ceiling
  rw [Count.toNat_ofNat]
  omega

theorem isCompact_compact (p : Pool) : p.compact.isCompact = true := by
  rw [isCompact_iff]
  intro m c hget
  rw [get?_compact, Option.filter_eq_some_iff] at hget
  exact of_decide_eq_true hget.2

theorem holdsNothing_of_isCompact {p : Pool} (hp : p.isCompact = true) :
    p.holdsNothing = p.isEmpty := by
  rw [holdsNothing, isCompact, List.all_eq_true] at *
  rw [Table.isEmpty]
  cases hentries : p.entries with
  | nil => rfl
  | cons e rest =>
    have hpos := hp e (hentries ▸ List.mem_cons_self)
    rw [decide_eq_true_eq] at hpos
    simp [Nat.ne_of_gt hpos]

/-- Pools are equal if they list the same models with the same counts. -/
theorem ext_models {p q : Pool} (hmodels : ∀ m, m ∈ p.models ↔ m ∈ q.models)
    (hcount : ∀ m, p.count m = q.count m) : p = q := by
  refine Table.ext_keys hmodels fun m c d hc hd => Count.ext ?_
  have hm := hcount m
  rwa [count, count, hc, hd] at hm

theorem isCompact_iff_count_ne_zero {p : Pool} :
    p.isCompact = true ↔ ∀ m ∈ p.models, p.count m ≠ 0 := by
  rw [isCompact_iff]
  constructor
  · intro h m hm
    obtain ⟨c, hget⟩ := Option.isSome_iff_exists.mp (Table.mem_keys_iff.mp hm)
    rw [count, hget]
    exact Nat.ne_of_gt (h m c hget)
  · intro h m c hget
    have hne := h m (Table.mem_keys_iff.mpr (Option.isSome_of_eq_some hget))
    rw [count, hget] at hne
    exact Nat.pos_of_ne_zero hne

/-- A compact pool lists the models that it has units of. -/
theorem mem_models_of_isCompact {p : Pool} (hp : p.isCompact = true) {m : Model} :
    m ∈ p.models ↔ p.count m ≠ 0 :=
  ⟨isCompact_iff_count_ne_zero.mp hp m, mem_keys_of_count⟩

/-- Compact pools with the same counts are equal. -/
theorem ext_count {p q : Pool} (hp : p.isCompact = true) (hq : q.isCompact = true)
    (h : ∀ m, p.count m = q.count m) : p = q :=
  ext_models (fun m => by rw [mem_models_of_isCompact hp, mem_models_of_isCompact hq, h m]) h

theorem compact_eq_self {p : Pool} (hp : p.isCompact = true) : p.compact = p :=
  ext_count p.isCompact_compact hp p.count_compact

theorem isEmpty_eq_false_iff {p : Pool} : p.isEmpty = false ↔ p ≠ .empty := by
  rw [← Bool.not_eq_true, Table.isEmpty_iff]
  rfl

/-- A pool is what its entries make it, set one after the other. -/
theorem foldl_set_toList (p : Pool) :
    p.toList.foldl (fun q e => q.set e.1 e.2) .empty = p := by
  rw [toList, List.foldl_map]
  simp only [set, Count.ofNat_toNat]
  exact Table.ofList_entries p

/-- Entries that are added one after the other add up, up to the ceiling. -/
theorem count_addAll (p : Pool) (entries : List (Model × Nat)) (m : Model) :
    (p.addAll entries).count m = Min.min
      (p.count m + (entries.map fun e => if e.1 = m then e.2 else 0).sum) Count.ceiling := by
  induction entries generalizing p with
  | nil =>
    rw [List.map_nil, List.sum_nil, Nat.add_zero, Nat.min_eq_left (p.count_le_ceiling m)]
    rfl
  | cons e rest ih =>
    rw [addAll, List.foldl_cons, ← addAll, ih, count_add, List.map_cons, List.sum_cons]
    by_cases hm : m = e.1
    · subst hm
      rw [if_pos rfl, if_pos rfl]
      omega
    · rw [if_neg hm, if_neg (Ne.symm hm), Nat.zero_add]

theorem count_ofEntries (entries : List (Model × Nat)) (m : Model) :
    (ofEntries entries).count m = Min.min
      (entries.map fun e => if e.1 = m then e.2 else 0).sum Count.ceiling := by
  rw [ofEntries, count_addAll]
  exact congrArg (Min.min · Count.ceiling) (Nat.zero_add _)

theorem mem_models_addAll {p : Pool} {entries : List (Model × Nat)} {m : Model} :
    m ∈ (p.addAll entries).models ↔ m ∈ p.models ∨ m ∈ entries.map (·.1) := by
  induction entries generalizing p with
  | nil => simp [addAll]
  | cons e rest ih =>
    have hadd : m ∈ (p.add e.1 e.2).models ↔ m = e.1 ∨ m ∈ p.models := Table.mem_keys_update
    rw [addAll, List.foldl_cons, ← addAll, ih, hadd, List.map_cons, List.mem_cons]
    tauto

theorem mem_models_ofEntries {entries : List (Model × Nat)} {m : Model} :
    m ∈ (ofEntries entries).models ↔ m ∈ entries.map (·.1) := by
  rw [ofEntries, mem_models_addAll]
  exact or_iff_right List.not_mem_nil

theorem map_fst_toList (p : Pool) : p.toList.map Prod.fst = p.models := by
  rw [toList, List.map_map]
  rfl

/-- A pool has one entry for each of its models. -/
theorem sum_ite_toList (p : Pool) (m : Model) :
    (p.toList.map fun e => if e.1 = m then e.2 else 0).sum = p.count m := by
  by_cases hm : m ∈ p.models
  · obtain ⟨e, he, rfl⟩ := List.mem_map.mp hm
    have hentry : (e.1, e.2.toNat) ∈ p.toList := List.mem_map_of_mem he
    have hnodup : (p.toList.map Prod.fst).Nodup := p.map_fst_toList ▸ p.nodup_keys
    rw [count_of_mem_entries he]
    exact sum_ite_key_of_mem Prod.snd hnodup hentry
  · have hcount : p.count m = 0 := by_contra fun hne => hm (mem_keys_of_count hne)
    rw [hcount]
    refine sum_ite_key_eq_zero Prod.snd fun e he heq => hm ?_
    rw [← map_fst_toList, ← heq]
    exact List.mem_map_of_mem he

theorem isCompact_addAll {p : Pool} {entries : List (Model × Nat)} (hp : p.isCompact = true)
    (h : ∀ e ∈ entries, 0 < e.2) : (p.addAll entries).isCompact = true := by
  induction entries generalizing p with
  | nil => exact hp
  | cons e rest ih =>
    rw [addAll, List.foldl_cons, ← addAll]
    refine ih ?_ fun e' he' => h e' (List.mem_cons_of_mem e he')
    rw [isCompact_iff] at hp ⊢
    intro m c hget
    rw [add, Table.get?_update] at hget
    by_cases hm : m = e.1
    · rw [if_pos hm] at hget
      obtain rfl := Option.some.inj hget
      have hpos := h e List.mem_cons_self
      rw [Count.toNat_ofNat, Nat.lt_min]
      exact ⟨by omega, by decide⟩
    · rw [if_neg hm] at hget
      exact hp m c hget

/-- A model that only one of the pools lists keeps its count there. -/
theorem get?_max (p q : Pool) (m : Model) :
    (p.max q).get? m = (p.get? m).merge Count.greater (q.get? m) := by
  rw [max, combine, Table.get?_zip]
  cases p.get? m <;> cases q.get? m <;> rfl

theorem mem_models_max {p q : Pool} {m : Model} :
    m ∈ (p.max q).models ↔ m ∈ p.models ∨ m ∈ q.models := by
  simp only [models, Table.mem_keys_iff, get?_max]
  cases p.get? m <;> cases q.get? m <;> simp

/-- The greater of two pools has the greater count of every model. -/
theorem count_max (p q : Pool) (m : Model) :
    (p.max q).count m = Nat.max (p.count m) (q.count m) := by
  rw [count, count, count, get?_max]
  cases p.get? m <;> cases q.get? m <;> simp

/-- Pools taken together by the greater counts form the least pool above all of them. -/
theorem count_foldl_max_le_iff {α : Type} {f : α → Pool} {l : List α} {p : Pool} {m : Model}
    {k : Nat} : (l.foldl (fun most a => most.max (f a)) p).count m ≤ k ↔
      p.count m ≤ k ∧ ∀ a ∈ l, (f a).count m ≤ k := by
  induction l generalizing p with
  | nil => simp
  | cons a rest ih =>
    rw [List.foldl_cons, ih, count_max, Nat.max_le, List.forall_mem_cons, and_assoc]

/-! ## Sums over pools -/

/-- A sum over the entries of a pool is one over any set of models that has all its units. -/
theorem sum_toList {p : Pool} {S : Finset Model} (hS : ∀ m, p.count m ≠ 0 → m ∈ S)
    (f : Model → Nat → Nat) (hf : ∀ m, f m 0 = 0) :
    (p.toList.map fun e => f e.1 e.2).sum = ∑ m ∈ S, f m (p.count m) := by
  have hkeys : (p.toList.map fun e => f e.1 e.2) = p.keys.map fun m => f m (p.count m) := by
    rw [toList, Table.keys, List.map_map, List.map_map]
    refine List.map_congr_left fun e he => ?_
    rw [Function.comp_apply, Function.comp_apply, count_of_mem_entries he]
  rw [hkeys, ← List.sum_toFinset _ p.nodup_keys]
  -- Outside either set a pool has no units.
  have hzero : ∀ m, p.count m = 0 → f m (p.count m) = 0 := fun m hm => by rw [hm, hf]
  calc ∑ m ∈ p.keys.toFinset, f m (p.count m)
      = ∑ m ∈ p.keys.toFinset ∪ S, f m (p.count m) :=
        Finset.sum_subset Finset.subset_union_left fun m _ hm => hzero m <| by_contra fun hne =>
          hm (mem_toFinset_keys hne)
    _ = ∑ m ∈ S, f m (p.count m) :=
        (Finset.sum_subset Finset.subset_union_right fun m _ hm => hzero m <| by_contra fun hne =>
          hm (hS m hne)).symm

end Pool

end Provision
