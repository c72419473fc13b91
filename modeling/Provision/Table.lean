/-!
# Sorted tables

A `Table κ α` is a finite map from keys to values, kept as a list of entries in strictly increasing
key order. Two tables with the same content are therefore equal (`Table.ext_get?`), iteration is in
key order, and each operation is described by what it does to `get?`.

A `KeySet κ` is a table without values: a finite set that lists its members in order.
-/

namespace Provision

/-- Entries in strictly increasing key order. -/
def StrictlySorted {κ α : Type} [Ord κ] (entries : List (κ × α)) : Prop :=
  entries.Pairwise fun a b => compare a.1 b.1 = .lt

/-- A finite map from keys to values whose entries are listed in increasing key order. -/
structure Table (κ α : Type) [Ord κ] where
  entries : List (κ × α)
  sorted : StrictlySorted entries

namespace Table
variable {κ α β γ : Type} [Ord κ]

instance [DecidableEq κ] [DecidableEq α] : DecidableEq (Table κ α) := fun s t =>
  decidable_of_iff (s.entries = t.entries)
    ⟨fun h => by cases s; cases t; simpa using h, fun h => h ▸ rfl⟩

theorem ext_entries {s t : Table κ α} (h : s.entries = t.entries) : s = t := by
  cases s; cases t; simpa using h

/-- The table without entries. -/
def empty : Table κ α := ⟨[], .nil⟩

instance : Inhabited (Table κ α) := ⟨empty⟩

/-- The value that a sorted list of entries gives to a key. -/
def lookup (k : κ) : List (κ × α) → Option α
  | [] => none
  | (k', a) :: rest =>
    match compare k k' with
    | .lt => none
    | .eq => some a
    | .gt => lookup k rest

/-- The value stored under a key. -/
def get? (t : Table κ α) (k : κ) : Option α := lookup k t.entries

/-- Whether a key has an entry. -/
def contains (t : Table κ α) (k : κ) : Bool := (t.get? k).isSome

/-- The keys in increasing order. -/
def keys (t : Table κ α) : List κ := t.entries.map (·.1)

/-- The number of entries. -/
def size (t : Table κ α) : Nat := t.entries.length

/-- Whether there is no entry. -/
def isEmpty (t : Table κ α) : Bool := t.entries.isEmpty

/-- Place `f old` under `k`, where `old` is the value that `k` has in the sorted list, if any. -/
def place (k : κ) (f : Option α → α) : List (κ × α) → List (κ × α)
  | [] => [(k, f none)]
  | (k', a) :: rest =>
    match compare k k' with
    | .lt => (k, f none) :: (k', a) :: rest
    | .eq => (k', f (some a)) :: rest
    | .gt => (k', a) :: place k f rest

theorem mem_keys_place {k : κ} {f : Option α → α} {l : List (κ × α)} {e : κ × α}
    (h : e ∈ place k f l) : e.1 = k ∨ ∃ e' ∈ l, e.1 = e'.1 := by
  induction l with
  | nil => simp [place] at h; simp [h]
  | cons hd tl ih =>
    unfold place at h
    split at h <;> simp only [List.mem_cons] at h ⊢ <;> grind

theorem strictlySorted_place [Std.TransOrd κ] {k : κ} {f : Option α → α} {l : List (κ × α)}
    (h : StrictlySorted l) : StrictlySorted (place k f l) := by
  induction l with
  | nil => exact List.pairwise_singleton _ _
  | cons hd tl ih =>
    have ⟨hhd, htl⟩ := List.pairwise_cons.1 h
    rw [place]
    split
    · next hlt =>
      refine List.pairwise_cons.2 ⟨fun e he => ?_, h⟩
      rcases List.mem_cons.1 he with rfl | he
      · exact hlt
      · exact Std.TransCmp.lt_trans hlt (hhd e he)
    · exact List.pairwise_cons.2 ⟨hhd, htl⟩
    · next hgt =>
      refine List.pairwise_cons.2 ⟨fun e he => ?_, ih htl⟩
      rcases mem_keys_place he with hk | ⟨e', he', hk⟩
      · rw [hk]; exact Std.OrientedCmp.lt_of_gt hgt
      · rw [hk]; exact hhd e' he'

/-- Store `f old` under `k`, where `old` is the value stored so far, if any. -/
def update [Std.TransOrd κ] (t : Table κ α) (k : κ) (f : Option α → α) : Table κ α :=
  ⟨place k f t.entries, strictlySorted_place t.sorted⟩

/-- Store a value under a key, replacing what was there. -/
def insert [Std.TransOrd κ] (t : Table κ α) (k : κ) (a : α) : Table κ α :=
  t.update k fun _ => a

/-- Keep the entries that satisfy a test. -/
def filter (t : Table κ α) (keep : κ → α → Bool) : Table κ α :=
  ⟨t.entries.filter fun e => keep e.1 e.2, t.sorted.sublist List.filter_sublist⟩

/-- Remove a key. -/
def erase (t : Table κ α) (k : κ) : Table κ α :=
  t.filter fun k' _ => compare k k' != .eq

/-- Replace every value by its image. -/
def mapValues (t : Table κ α) (f : κ → α → β) : Table κ β :=
  ⟨t.entries.map fun e => (e.1, f e.1 e.2), List.pairwise_map.2 (t.sorted.imp fun h => h)⟩

/-- Keep the entries with an image, and replace their values by it. -/
def filterMap (t : Table κ α) (f : κ → α → Option β) : Table κ β :=
  ⟨t.entries.filterMap fun e => (f e.1 e.2).map (e.1, ·), by
    refine List.pairwise_filterMap.2 (t.sorted.imp fun {a b} h => ?_)
    simp only [Option.map_eq_some_iff]
    rintro _ ⟨_, _, rfl⟩ _ ⟨_, _, rfl⟩
    exact h⟩

/-- Enter pairs one after the other; a later pair for a key is combined with the value before. -/
def enter [Std.TransOrd κ] (f : Option α → β → α) (t : Table κ α) (pairs : List (κ × β)) :
    Table κ α :=
  pairs.foldl (fun t e => t.update e.1 (f · e.2)) t

/-- The table of a list of pairs; the last pair of a key wins. -/
def ofList [Std.TransOrd κ] (pairs : List (κ × α)) : Table κ α :=
  enter (fun _ a => a) empty pairs

/-- Combine two tables over the union of their keys. -/
def zip [Std.TransOrd κ] (f : Option α → Option β → γ) (s : Table κ α) (t : Table κ β) :
    Table κ γ :=
  enter (fun _ c => c) (s.mapValues fun k a => f (some a) (t.get? k))
    (t.entries.map fun e => (e.1, f (s.get? e.1) (some e.2)))

/-! ### What the operations do to `get?` -/

@[simp] theorem get?_empty (k : κ) : (empty : Table κ α).get? k = none := rfl

theorem mem_of_lookup [Std.LawfulEqOrd κ] {k : κ} {a : α} {l : List (κ × α)}
    (h : lookup k l = some a) : (k, a) ∈ l := by
  induction l with
  | nil => simp [lookup] at h
  | cons hd tl ih =>
    unfold lookup at h
    split at h
    · simp at h
    · next heq =>
      have := Std.LawfulEqOrd.eq_of_compare heq
      simp only [Option.some.injEq] at h
      exact List.mem_cons.2 (.inl (by rw [this, ← h]))
    · exact List.mem_cons_of_mem _ (ih h)

theorem lookup_eq_some_of_mem [Std.TransOrd κ] {k : κ} {a : α}
    {l : List (κ × α)} (hl : StrictlySorted l) (h : (k, a) ∈ l) : lookup k l = some a := by
  induction l with
  | nil => simp at h
  | cons hd tl ih =>
    have ⟨hhd, htl⟩ := List.pairwise_cons.1 hl
    rcases List.mem_cons.1 h with rfl | h
    · simp [lookup]
    · have := Std.OrientedCmp.gt_of_lt (hhd _ h)
      simp [lookup, this, ih htl h]

variable [Std.TransOrd κ] [Std.LawfulEqOrd κ]

theorem mem_entries_iff {t : Table κ α} {k : κ} {a : α} :
    (k, a) ∈ t.entries ↔ t.get? k = some a :=
  ⟨lookup_eq_some_of_mem t.sorted, mem_of_lookup⟩

theorem mem_keys_iff {t : Table κ α} {k : κ} : k ∈ t.keys ↔ (t.get? k).isSome := by
  simp only [keys, List.mem_map, Option.isSome_iff_exists, ← mem_entries_iff]
  exact ⟨fun ⟨e, he, hk⟩ => ⟨e.2, hk ▸ he⟩, fun ⟨a, ha⟩ => ⟨_, ha, rfl⟩⟩

/-- Tables with the same content are equal. -/
theorem ext_get? {s t : Table κ α} (h : ∀ k, s.get? k = t.get? k) : s = t := by
  apply ext_entries
  have hs : s.entries.Pairwise fun a b => compare a.1 b.1 = .lt := s.sorted
  have ht : t.entries.Pairwise fun a b => compare a.1 b.1 = .lt := t.sorted
  refine List.Perm.eq_of_pairwise ?_ hs ht ?_
  · intro a b _ _ hab hba
    rw [Std.OrientedCmp.gt_of_lt hba] at hab
    cases hab
  · have hnd : ∀ u : Table κ α, u.entries.Nodup := fun u =>
      u.sorted.imp fun hlt heq => by simp [heq] at hlt
    refine (List.perm_ext_iff_of_nodup (hnd s) (hnd t)).2 fun e => ?_
    rw [show e = (e.1, e.2) from rfl, mem_entries_iff, mem_entries_iff, h]

@[simp] theorem get?_mapValues (t : Table κ α) (f : κ → α → β) (k : κ) :
    (t.mapValues f).get? k = (t.get? k).map (f k) := by
  ext b
  simp only [← mem_entries_iff, Option.map_eq_some_iff]
  simp only [mapValues, List.mem_map, Prod.mk.injEq, Prod.exists]
  grind

@[simp] theorem get?_filterMap (t : Table κ α) (f : κ → α → Option β) (k : κ) :
    (t.filterMap f).get? k = (t.get? k).bind (f k) := by
  ext b
  simp only [← mem_entries_iff, Option.bind_eq_some_iff]
  simp only [filterMap, List.mem_filterMap, Option.map_eq_some_iff, Prod.mk.injEq, Prod.exists]
  grind

@[simp] theorem get?_filter (t : Table κ α) (keep : κ → α → Bool) (k : κ) :
    (t.filter keep).get? k = (t.get? k).filter (keep k) := by
  ext a
  simp only [← mem_entries_iff, Option.filter_eq_some_iff]
  simp [filter]

variable [DecidableEq κ]

theorem lookup_place (k k' : κ) (f : Option α → α) {l : List (κ × α)} (hl : StrictlySorted l) :
    lookup k' (place k f l) = if k' = k then some (f (lookup k l)) else lookup k' l := by
  induction l with
  | nil =>
    by_cases h : k' = k
    · subst h; simp [place, lookup]
    · have : compare k' k ≠ .eq := fun hc => h (Std.LawfulEqOrd.eq_of_compare hc)
      simp only [place, lookup, if_neg h]
      split <;> simp_all
  | cons hd tl ih =>
    have ⟨hhd, htl⟩ := List.pairwise_cons.1 hl
    rw [place]
    split
    · next hlt =>
      by_cases h : k' = k
      · subst h; simp [lookup, hlt]
      · have : compare k' k ≠ .eq := fun hc => h (Std.LawfulEqOrd.eq_of_compare hc)
        simp only [if_neg h]
        rw [lookup]
        split
        · next hlt' => simp [lookup, Std.TransCmp.lt_trans hlt' hlt]
        · contradiction
        · rfl
    · next heq =>
      have hk := Std.LawfulEqOrd.eq_of_compare heq
      by_cases h : k' = k
      · subst h; simp [lookup, heq]
      · have : compare k' hd.1 ≠ .eq := fun hc =>
          h ((Std.LawfulEqOrd.eq_of_compare hc).trans hk.symm)
        simp only [if_neg h, lookup]
        split <;> simp_all
    · next hgt =>
      by_cases h : k' = k
      · subst h; simp [lookup, hgt, ih htl]
      · simp only [lookup, ih htl, if_neg h]

theorem get?_update (t : Table κ α) (k k' : κ) (f : Option α → α) :
    (t.update k f).get? k' = if k' = k then some (f (t.get? k)) else t.get? k' :=
  lookup_place k k' f t.sorted

@[simp] theorem get?_insert (t : Table κ α) (k k' : κ) (a : α) :
    (t.insert k a).get? k' = if k' = k then some a else t.get? k' :=
  get?_update t k k' _

@[simp] theorem get?_erase (t : Table κ α) (k k' : κ) :
    (t.erase k).get? k' = if k' = k then none else t.get? k' := by
  rw [erase, get?_filter]
  by_cases h : k' = k
  · subst h; cases t.get? k' <;> simp
  · have : compare k k' ≠ .eq := fun hc => h (Std.LawfulEqOrd.eq_of_compare hc).symm
    cases t.get? k' <;> simp [h, this]

/-- Entering pairs folds, per key, over the pairs of that key. -/
theorem get?_enter (f : Option α → β → α) (t : Table κ α) (pairs : List (κ × β)) (k : κ) :
    (enter f t pairs).get? k =
      (pairs.filter (·.1 = k)).foldl (fun o e => some (f o e.2)) (t.get? k) := by
  induction pairs generalizing t with
  | nil => rfl
  | cons e rest ih =>
    rw [enter, List.foldl_cons, ← enter, ih, get?_update]
    by_cases h : e.1 = k
    · subst h; simp
    · simp [h, Ne.symm h]

/-- A table has at most one entry of a key. -/
theorem filter_entries (t : Table κ α) (k : κ) :
    t.entries.filter (·.1 = k) = (t.get? k).toList.map (k, ·) := by
  have hmem : ∀ e, e ∈ t.entries.filter (·.1 = k) ↔ e.1 = k ∧ t.get? k = some e.2 := by
    intro e
    rw [List.mem_filter, decide_eq_true_eq, show e = (e.1, e.2) from rfl, mem_entries_iff]
    constructor
    · rintro ⟨hget, rfl⟩
      exact ⟨rfl, hget⟩
    · rintro ⟨rfl, hget⟩
      exact ⟨hget, rfl⟩
  have hnodup : (t.entries.filter (·.1 = k)).Nodup :=
    (t.sorted.imp fun hlt heq => by simp [heq] at hlt).filter _
  cases hget : t.get? k with
  | none =>
    apply List.eq_nil_iff_forall_not_mem.mpr
    intro e he
    simpa [hget] using (hmem e).mp he
  | some a =>
    apply List.Perm.eq_singleton
    apply (List.perm_ext_iff_of_nodup hnodup (List.nodup_cons.mpr ⟨by simp, List.nodup_nil⟩)).mpr
    intro e
    rw [hmem, hget, List.mem_singleton, Prod.ext_iff, Option.some.injEq]
    exact and_congr_right fun _ => eq_comm

theorem get?_zip (f : Option α → Option β → γ) (s : Table κ α) (t : Table κ β) (k : κ) :
    (zip f s t).get? k =
      if (s.get? k).isNone && (t.get? k).isNone then none
      else some (f (s.get? k) (t.get? k)) := by
  have hentered : (t.entries.map fun e => (e.1, f (s.get? e.1) (some e.2))).filter (·.1 = k) =
      (t.get? k).toList.map fun b => (k, f (s.get? k) (some b)) := by
    rw [List.filter_map]
    change (t.entries.filter (·.1 = k)).map _ = _
    rw [filter_entries, List.map_map]
    rfl
  rw [zip, get?_enter, hentered, get?_mapValues]
  cases t.get? k <;> cases s.get? k <;> simp

end Table

/-- A finite set that lists its members in increasing order. -/
abbrev KeySet (κ : Type) [Ord κ] := Table κ Unit

namespace KeySet
variable {κ : Type} [Ord κ]

/-- The members in increasing order. -/
def toList (s : KeySet κ) : List κ := Table.keys s

/-- Add a member. -/
def add [Std.TransOrd κ] (s : KeySet κ) (k : κ) : KeySet κ := Table.insert s k ()

/-- The set of the members of a list. -/
def ofList [Std.TransOrd κ] (ks : List κ) : KeySet κ := ks.foldl add Table.empty

theorem mem_toList_iff [Std.TransOrd κ] [Std.LawfulEqOrd κ] {s : KeySet κ} {k : κ} :
    k ∈ s.toList ↔ Table.get? s k = some () := by
  rw [toList, Table.mem_keys_iff]
  cases Table.get? s k <;> simp

theorem mem_add [DecidableEq κ] [Std.TransOrd κ] [Std.LawfulEqOrd κ] {s : KeySet κ} {k k' : κ} :
    k' ∈ (s.add k).toList ↔ k' = k ∨ k' ∈ s.toList := by
  rw [mem_toList_iff, mem_toList_iff, add, Table.get?_insert]
  by_cases h : k' = k <;> simp [h]

theorem mem_ofList [DecidableEq κ] [Std.TransOrd κ] [Std.LawfulEqOrd κ] {ks : List κ} {k : κ} :
    k ∈ (ofList ks).toList ↔ k ∈ ks := by
  have : ∀ s : KeySet κ, k ∈ (ks.foldl add s).toList ↔ k ∈ s.toList ∨ k ∈ ks := by
    induction ks with
    | nil => simp
    | cons hd tl ih =>
      intro s
      rw [List.foldl_cons, ih, mem_add, List.mem_cons]
      grind
  rw [ofList, this]
  simp [toList, Table.keys, Table.empty]

/-- The members of either set. -/
def union [Std.TransOrd κ] (s t : KeySet κ) : KeySet κ := (toList t).foldl add s

end KeySet

end Provision
