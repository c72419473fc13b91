import Mathlib.Algebra.BigOperators.Group.Finset.Basic
import Mathlib.Algebra.BigOperators.Group.List.Basic
import Mathlib.Algebra.Ring.Nat
import Mathlib.Data.List.Forall2
import Mathlib.Data.List.Sort
import Provision.Numbers
import Provision.Table

/-!
# Lists and tables

What is used of lists and tables in general: lists of results, sums that are cut or that range over
the members of a list with a key, the table of a list of pairs, and what an update does to a sum
over a table.
-/

namespace Provision

/-! ## Lists -/

/-- Of two lists related member by member, each member has a partner in the other one. -/
theorem exists_of_forall₂ {α β : Type} {R : α → β → Prop} {as : List α} {bs : List β}
    (h : List.Forall₂ R as bs) :
    (∀ a ∈ as, ∃ b ∈ bs, R a b) ∧ ∀ b ∈ bs, ∃ a ∈ as, R a b := by
  induction h with
  | nil => simp
  | cons hab _ ih =>
    simp only [List.mem_cons, forall_eq_or_imp, exists_eq_or_imp]
    exact ⟨⟨.inl hab, fun a ha => .inr (ih.1 a ha)⟩, .inl hab, fun b hb => .inr (ih.2 b hb)⟩

/-- A list has a list of partners when each member has a partner. -/
theorem exists_forall₂_iff {α β : Type} {R : α → β → Prop} {as : List α} :
    (∃ bs, List.Forall₂ R as bs) ↔ ∀ a ∈ as, ∃ b, R a b := by
  constructor
  · rintro ⟨bs, h⟩ a ha
    obtain ⟨b, -, hb⟩ := (exists_of_forall₂ h).1 a ha
    exact ⟨b, hb⟩
  · intro h
    induction as with
    | nil => exact ⟨[], .nil⟩
    | cons a rest ih =>
      obtain ⟨⟨b, hb⟩, hrest⟩ := List.forall_mem_cons.mp h
      obtain ⟨bs, hbs⟩ := ih hrest
      exact ⟨b :: bs, .cons hb hbs⟩

theorem map_eq_ok_iff {α β ε : Type} {x : Except ε α} {f : α → β} {b : β} :
    x.map f = .ok b ↔ ∃ a, x = .ok a ∧ b = f a := by
  cases x with
  | error e => simp [Except.map]
  | ok a => simp [Except.map, eq_comm]

/-- A computation goes through when both of its parts do. -/
theorem bind_eq_ok_iff {α β ε : Type} {x : Except ε α} {f : α → Except ε β} {b : β} :
    (x >>= f) = .ok b ↔ ∃ a, x = .ok a ∧ f a = .ok b := by
  cases x with
  | error e =>
    constructor
    · intro h
      cases h
    · rintro ⟨a, h, -⟩
      cases h
  | ok a =>
    constructor
    · exact fun h => ⟨a, rfl, h⟩
    · rintro ⟨a', h, hf⟩
      cases h
      exact hf

/-- A list of results is a result when every member is. -/
theorem mapM_eq_ok_iff {α β ε : Type} {f : α → Except ε β} {as : List α} {bs : List β} :
    as.mapM f = .ok bs ↔ List.Forall₂ (fun a b => f a = .ok b) as bs := by
  induction as generalizing bs with
  | nil =>
    rw [List.mapM_nil, List.forall₂_nil_left_iff]
    constructor
    · intro h
      cases h
      rfl
    · rintro rfl
      rfl
  | cons a rest ih =>
    rw [List.mapM_cons, bind_eq_ok_iff, List.forall₂_cons_left_iff]
    constructor
    · rintro ⟨b, hb, h⟩
      obtain ⟨us, hus, heq⟩ := bind_eq_ok_iff.mp h
      cases heq
      exact ⟨b, us, hb, ih.mp hus, rfl⟩
    · rintro ⟨b, us, hb, hus, rfl⟩
      exact ⟨b, hb, bind_eq_ok_iff.mpr ⟨us, ih.mpr hus, rfl⟩⟩

theorem map_eq_error_iff {α β ε : Type} {x : Except ε α} {f : α → β} {e : ε} :
    x.map f = .error e ↔ x = .error e := by
  cases x <;> simp [Except.map]

/-- A computation fails when one of its parts does. -/
theorem bind_eq_error_iff {α β ε : Type} {x : Except ε α} {f : α → Except ε β} {e : ε} :
    (x >>= f) = .error e ↔ x = .error e ∨ ∃ a, x = .ok a ∧ f a = .error e := by
  cases x <;> simp [bind, Except.bind]

/-- A list of results fails at one of its members. -/
theorem exists_of_mapM_eq_error {α β ε : Type} {f : α → Except ε β} {as : List α} {e : ε}
    (h : as.mapM f = .error e) : ∃ a ∈ as, f a = .error e := by
  induction as with
  | nil => cases h
  | cons a rest ih =>
    rw [List.mapM_cons] at h
    rcases bind_eq_error_iff.mp h with ha | ⟨b, -, h⟩
    · exact ⟨a, List.mem_cons_self, ha⟩
    · rcases bind_eq_error_iff.mp h with hrest | ⟨bs, -, h⟩
      · obtain ⟨a', ha', he⟩ := ih hrest
        exact ⟨a', List.mem_cons_of_mem a ha', he⟩
      · cases h

/-- A member of a list that has a property which no member before it has. -/
def IsFirst {α : Type} (p : α → Prop) (l : List α) (a : α) : Prop :=
  p a ∧ ∃ before after, l = before ++ a :: after ∧ ∀ x ∈ before, ¬p x

theorem IsFirst.mem {α : Type} {p : α → Prop} {l : List α} {a : α} (h : IsFirst p l a) : a ∈ l := by
  obtain ⟨-, before, after, rfl, -⟩ := h
  simp

theorem isFirst_or_forall {α : Type} (p : α → Prop) (l : List α) :
    (∃ a, IsFirst p l a) ∨ ∀ a ∈ l, ¬p a := by
  induction l with
  | nil => simp
  | cons a rest ih =>
    by_cases ha : p a
    · exact .inl ⟨a, ha, [], rest, rfl, by simp⟩
    · rcases ih with ⟨b, hb, before, after, rfl, hbefore⟩ | hnone
      · exact .inl ⟨b, hb, a :: before, after, rfl, List.forall_mem_cons.mpr ⟨ha, hbefore⟩⟩
      · exact .inr (List.forall_mem_cons.mpr ⟨ha, hnone⟩)

theorem find?_eq_some_iff_isFirst {α : Type} {p : α → Bool} {l : List α} {a : α} :
    l.find? p = some a ↔ IsFirst (p · = true) l a := by
  simp [List.find?_eq_some_iff_append, IsFirst]

/-- A list of results fails at the first member that does. -/
theorem mapM_eq_error_of_isFirst {α β ε : Type} {f : α → Except ε β} {p : α → Prop} {l : List α}
    {a : α} {e : ε} (ha : IsFirst p l a) (hok : ∀ x ∈ l, ¬p x → ∃ b, f x = .ok b)
    (he : f a = .error e) : l.mapM f = .error e := by
  obtain ⟨-, before, after, rfl, hbefore⟩ := ha
  induction before with
  | nil =>
    rw [List.nil_append, List.mapM_cons, he]
    rfl
  | cons x rest ih =>
    obtain ⟨hx, hrest⟩ := List.forall_mem_cons.mp hbefore
    obtain ⟨hokx, hokrest⟩ := List.forall_mem_cons.mp hok
    obtain ⟨b, hb⟩ := hokx hx
    rw [List.cons_append, List.mapM_cons, hb, ih hrest hokrest]
    rfl

/-- Lists in the strict order of a key are equal when they have the same members. -/
theorem eq_of_sorted {α κ : Type} [Ord κ] [Std.TransOrd κ] {key : α → κ} {as bs : List α}
    (ha : as.Pairwise fun a b => compare (key a) (key b) = .lt)
    (hb : bs.Pairwise fun a b => compare (key a) (key b) = .lt) (h : ∀ a, a ∈ as ↔ a ∈ bs) :
    as = bs := by
  have : Std.Irrefl fun a b : α => compare (key a) (key b) = .lt :=
    ⟨fun a hlt => by simp at hlt⟩
  have : Std.Antisymm fun a b : α => compare (key a) (key b) = .lt :=
    ⟨fun a b hab hba => absurd hab (Std.OrientedCmp.not_lt_of_lt hba)⟩
  exact ha.eq_of_mem_iff hb h

/-! ## Sums -/

theorem sumOf_eq_sum (l : List Nat) : sumOf l = l.sum := rfl

/-- A sum over the members that pass a test, as a sum over all members. -/
theorem sum_map_filter {α : Type} (l : List α) (p : α → Bool) (f : α → Nat) :
    ((l.filter p).map f).sum = (l.map fun a => if p a then f a else 0).sum := by
  rw [List.sum_map_ite]
  simp

/-- Where every key occurs once, the sum over the members with a key is the value of the one. -/
theorem sum_ite_key_of_mem {α κ : Type} [DecidableEq κ] {key : α → κ} (value : α → Nat) {l : List α}
    (hnodup : (l.map key).Nodup) {a : α} (ha : a ∈ l) :
    (l.map fun b => if key b = key a then value b else 0).sum = value a := by
  classical
  rw [← List.sum_toFinset _ (hnodup.of_map key),
    Finset.sum_eq_single_of_mem a (List.mem_toFinset.mpr ha), if_pos rfl]
  intro b hb hne
  exact if_neg fun hkey =>
    hne (List.inj_on_of_nodup_map hnodup (List.mem_toFinset.mp hb) ha hkey)

/-- Members with other keys add nothing to the sum for a key. -/
theorem sum_ite_key_eq_zero {α κ : Type} [DecidableEq κ] {key : α → κ} (value : α → Nat)
    {l : List α} {x : κ} (h : ∀ a ∈ l, key a ≠ x) :
    (l.map fun a => if key a = x then value a else 0).sum = 0 := by
  refine List.sum_eq_zero fun k hk => ?_
  obtain ⟨a, ha, rfl⟩ := List.mem_map.mp hk
  exact if_neg (h a ha)

/-- Cutting the terms of a sum changes nothing, if the sum is cut as well. -/
theorem min_sum_congr {α : Type} {l : List α} {f g : α → Nat} {cut : Nat}
    (h : ∀ a ∈ l, min (f a) cut = min (g a) cut) :
    min (l.map f).sum cut = min (l.map g).sum cut := by
  induction l with
  | nil => rfl
  | cons a rest ih =>
    have ha := h a List.mem_cons_self
    have hrest := ih fun b hb => h b (List.mem_cons_of_mem a hb)
    rw [List.map_cons, List.map_cons, List.sum_cons, List.sum_cons]
    omega

/-! ## Tables -/

theorem Table.sorted_keys {κ α : Type} [Ord κ] (t : Table κ α) :
    t.keys.Pairwise (compare · · = .lt) :=
  List.pairwise_map.mpr t.sorted

/-- A list whose keys are those of a table is in the order of the keys. -/
theorem Table.sorted_of_map_eq_keys {κ α β : Type} [Ord κ] {t : Table κ α} {key : β → κ}
    {l : List β} (h : l.map key = t.keys) :
    l.Pairwise fun a b => compare (key a) (key b) = .lt := by
  have hkeys := t.sorted_keys
  rw [← h] at hkeys
  exact List.pairwise_map.mp hkeys

/-- A table lists every key once. -/
theorem Table.nodup_keys {κ α : Type} [Ord κ] [Std.TransOrd κ] (t : Table κ α) : t.keys.Nodup := by
  refine t.sorted_keys.imp fun {a b} hlt heq => ?_
  have hself : compare b b = .eq := Std.ReflCmp.compare_self
  rw [heq, hself] at hlt
  cases hlt

/-- The first entry that passes a test has the least key of those that do. -/
theorem Table.isLE_of_isFirst {κ α : Type} [Ord κ] [Std.TransOrd κ] {t : Table κ α}
    {p : κ × α → Prop} {e e' : κ × α} (h : IsFirst p t.entries e) (he' : e' ∈ t.entries)
    (hp : p e') : (compare e.1 e'.1).isLE = true := by
  obtain ⟨-, before, after, heq, hbefore⟩ := h
  have hsorted : StrictlySorted (before ++ e :: after) := heq ▸ t.sorted
  rw [heq, List.mem_append, List.mem_cons] at he'
  rcases he' with hmem | rfl | hmem
  · exact absurd hp (hbefore e' hmem)
  · exact Std.ReflOrd.isLE_rfl
  · have hafter := (List.pairwise_cons.mp (List.pairwise_append.mp hsorted).2.1).1
    exact Ordering.isLE_of_eq_lt (hafter e' hmem)

/-- The only table without entries is the empty one. -/
theorem Table.isEmpty_iff {κ α : Type} [Ord κ] {t : Table κ α} :
    t.isEmpty = true ↔ t = .empty := by
  rw [isEmpty, List.isEmpty_iff]
  constructor
  · exact fun h => ext_entries h
  · rintro rfl
    rfl

theorem exists_foldl_eq_some {α : Type} {l : List α} (hne : l ≠ []) (old : Option α) :
    ∃ a ∈ l, l.foldl (fun _ a => some a) old = some a := by
  induction l generalizing old with
  | nil => exact absurd rfl hne
  | cons a rest ih =>
    cases rest with
    | nil => exact ⟨a, List.mem_singleton_self a, rfl⟩
    | cons a' rest =>
      obtain ⟨b, hb, heq⟩ := ih (List.cons_ne_nil a' rest) (some a)
      exact ⟨b, List.mem_cons_of_mem a hb, heq⟩

/-- Where a list of pairs gives every key one value, the table of the list has just its pairs. -/
theorem Table.get?_ofList_eq_some_iff {κ α : Type} [Ord κ] [Std.TransOrd κ] [Std.LawfulEqOrd κ]
    [DecidableEq κ] {pairs : List (κ × α)}
    (hone : ∀ e ∈ pairs, ∀ e' ∈ pairs, e.1 = e'.1 → e.2 = e'.2) {k : κ} {a : α} :
    (Table.ofList pairs).get? k = some a ↔ (k, a) ∈ pairs := by
  have hget : (Table.ofList pairs).get? k =
      ((pairs.filter (·.1 = k)).map (·.2)).foldl (fun _ a => some a) none := by
    rw [Table.ofList, Table.get?_enter, List.foldl_map]
    rfl
  have hmem : ∀ b, b ∈ (pairs.filter (·.1 = k)).map (·.2) ↔ (k, b) ∈ pairs := by
    intro b
    rw [List.mem_map]
    constructor
    · rintro ⟨e, he, rfl⟩
      obtain ⟨hpair, hkey⟩ := List.mem_filter.mp he
      exact of_decide_eq_true hkey ▸ hpair
    · exact fun hb => ⟨(k, b), List.mem_filter.mpr ⟨hb, decide_eq_true rfl⟩, rfl⟩
  rw [hget]
  constructor
  · intro h
    have hne : (pairs.filter (·.1 = k)).map (·.2) ≠ [] := by
      intro hnil
      rw [hnil] at h
      cases h
    obtain ⟨b, hb, heq⟩ := exists_foldl_eq_some hne none
    rw [h] at heq
    cases heq
    exact (hmem a).mp hb
  · intro h
    obtain ⟨b, hb, heq⟩ := exists_foldl_eq_some (List.ne_nil_of_mem ((hmem a).mpr h)) none
    rw [heq]
    exact congrArg some (hone (k, b) ((hmem b).mp hb) (k, a) h rfl)

/-- A table is the table of its entries. -/
theorem Table.ofList_entries {κ α : Type} [Ord κ] [Std.TransOrd κ] [Std.LawfulEqOrd κ]
    [DecidableEq κ] (t : Table κ α) : ofList t.entries = t := by
  refine ext_get? fun k => Option.ext fun a => ?_
  rw [get?_ofList_eq_some_iff, mem_entries_iff]
  intro e he e' he' hkey
  exact congrArg Prod.snd (List.inj_on_of_nodup_map t.nodup_keys he he' hkey)

/-- Sets with the same members are equal. -/
theorem KeySet.ext_mem {κ : Type} [Ord κ] [Std.TransOrd κ] [Std.LawfulEqOrd κ] {s t : KeySet κ}
    (h : ∀ k, k ∈ s.toList ↔ k ∈ t.toList) : s = t := by
  refine Table.ext_get? fun k => Option.ext fun u => ?_
  exact mem_toList_iff.symm.trans ((h k).trans mem_toList_iff)

theorem KeySet.ne_empty_iff {κ : Type} [Ord κ] {s : KeySet κ} :
    s ≠ .empty ↔ ∃ k, k ∈ s.toList := by
  rw [ne_eq, ← Table.isEmpty_iff, Bool.not_eq_true, Table.isEmpty,
    List.isEmpty_eq_false_iff_exists_mem, toList, Table.keys]
  simp

theorem KeySet.contains_iff {κ : Type} [Ord κ] [Std.TransOrd κ] [Std.LawfulEqOrd κ] {s : KeySet κ}
    {k : κ} : Table.contains s k = true ↔ k ∈ s.toList :=
  Table.mem_keys_iff.symm

/-- Tables are equal if they have the same keys and, for every key, the same value. -/
theorem Table.ext_keys {κ α : Type} [Ord κ] [Std.TransOrd κ] [Std.LawfulEqOrd κ] {s t : Table κ α}
    (hkeys : ∀ k, k ∈ s.keys ↔ k ∈ t.keys)
    (hvalue : ∀ k a b, s.get? k = some a → t.get? k = some b → a = b) : s = t := by
  refine Table.ext_get? fun k => ?_
  have hk := hkeys k
  rw [mem_keys_iff, mem_keys_iff] at hk
  cases hs : s.get? k with
  | none => cases ht : t.get? k with
    | none => rfl
    | some b => simp [hs, ht] at hk
  | some a => cases ht : t.get? k with
    | none => simp [hs, ht] at hk
    | some b => exact congrArg some (hvalue k a b hs ht)

/-- Tables of sets are equal if they have the same keys and, for every key, the same members. -/
theorem Table.ext_sets {κ ι : Type} [Ord κ] [Std.TransOrd κ] [Std.LawfulEqOrd κ] [Ord ι]
    [Std.TransOrd ι] [Std.LawfulEqOrd ι] {s t : Table κ (KeySet ι)}
    (hkeys : ∀ k, k ∈ s.keys ↔ k ∈ t.keys)
    (hmem : ∀ k a b, s.get? k = some a → t.get? k = some b → ∀ x, x ∈ a.toList ↔ x ∈ b.toList) :
    s = t :=
  ext_keys hkeys fun k a b hs ht => KeySet.ext_mem (hmem k a b hs ht)

theorem Table.mem_keys_update {κ α : Type} [Ord κ] [DecidableEq κ] [Std.TransOrd κ]
    [Std.LawfulEqOrd κ] {t : Table κ α} {k k' : κ} {f : Option α → α} :
    k' ∈ (t.update k f).keys ↔ k' = k ∨ k' ∈ t.keys := by
  rw [mem_keys_iff, mem_keys_iff, get?_update]
  by_cases h : k' = k <;> simp [h]

theorem KeySet.mem_foldl_add {κ : Type} [Ord κ] [DecidableEq κ] [Std.TransOrd κ]
    [Std.LawfulEqOrd κ] {s : KeySet κ} {ks : List κ} {k : κ} :
    k ∈ (ks.foldl add s).toList ↔ k ∈ s.toList ∨ k ∈ ks := by
  induction ks generalizing s with
  | nil => simp
  | cons k' rest ih =>
    rw [List.foldl_cons, ih, mem_add, List.mem_cons]
    tauto

theorem KeySet.mem_union {κ : Type} [Ord κ] [DecidableEq κ] [Std.TransOrd κ] [Std.LawfulEqOrd κ]
    {s t : KeySet κ} {k : κ} : k ∈ (s.union t).toList ↔ k ∈ s.toList ∨ k ∈ t.toList :=
  mem_foldl_add

/-! ## Sizes -/

/-- An update replaces one value in a sum over all values of a table. -/
theorem Table.sum_update {κ α : Type} [Ord κ] [Std.TransOrd κ] (t : Table κ α) (k : κ)
    (f : Option α → α) (g : α → Nat) :
    ((t.update k f).entries.map fun e => g e.2).sum + (t.get? k).elim 0 g =
      (t.entries.map fun e => g e.2).sum + g (f (t.get? k)) := by
  have hplace : ∀ l : List (κ × α), ((place k f l).map fun e => g e.2).sum + (lookup k l).elim 0 g =
      (l.map fun e => g e.2).sum + g (f (lookup k l)) := by
    intro l
    induction l with
    | nil => simp [place, lookup]
    | cons e rest ih =>
      rw [place, lookup]
      cases compare k e.1 with
      | lt => simp [Nat.add_comm]
      | eq => simp; omega
      | gt => simp; omega
  exact hplace t.entries

/-- A set has one member more when a new one is added. -/
theorem KeySet.size_add {κ : Type} [Ord κ] [Std.TransOrd κ] [Std.LawfulEqOrd κ] {s : KeySet κ}
    {k : κ} (h : Table.contains s k = false) : (s.add k).size = s.size + 1 := by
  have hsum := Table.sum_update s k (fun _ => ()) fun _ => 1
  rw [Table.contains, Option.isSome_eq_false_iff, Option.isNone_iff_eq_none] at h
  rw [h] at hsum
  have hlength : ∀ l : List (κ × Unit), (l.map fun _ => 1).sum = l.length := by
    intro l
    rw [List.map_const', List.sum_replicate_nat, Nat.mul_one]
  rwa [hlength, hlength, Option.elim_none, Nat.add_zero] at hsum

end Provision
