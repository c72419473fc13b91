import Provision.Model
import Provision.Numbers
import Provision.Table.Order

/-!
# Pools of resources

A pool counts units per model. A model may be listed with a count of zero; such entries count for
nothing, but they are kept until the pool is compacted. Counts stop at a ceiling.
-/

namespace Provision

/-- The greatest number of units counted for one model. -/
def Count.ceiling : Nat := 4294967295

/-- A number of units of one model. -/
structure Count where
  toNat : Nat
  le_ceiling : toNat ≤ Count.ceiling
deriving DecidableEq

namespace Count

theorem ext {a b : Count} (h : a.toNat = b.toNat) : a = b := by
  cases a; cases b; simpa using h

/-- The count nearest to a number. -/
def ofNat (n : Nat) : Count := ⟨min n ceiling, Nat.min_le_right _ _⟩

@[simp] theorem toNat_ofNat (n : Nat) : (ofNat n).toNat = min n ceiling := rfl

theorem ofNat_toNat (c : Count) : ofNat c.toNat = c :=
  ext (Nat.min_eq_left c.le_ceiling)

instance : Ord Count := ⟨fun a b => compare a.toNat b.toNat⟩

theorem compare_eq (a b : Count) : compare a b = compare a.toNat b.toNat := rfl

instance : Std.TransOrd Count where
  eq_swap := by simp only [compare_eq]; exact Std.OrientedCmp.eq_swap
  isLE_trans := by simp only [compare_eq]; exact Std.TransCmp.isLE_trans

instance : Std.LawfulEqOrd Count where
  compare_self := by simp
  eq_of_compare h := ext (Std.LawfulEqOrd.eq_of_compare (compare_eq _ _ ▸ h))

end Count

/-- Units per model. -/
abbrev Pool := Table Model Count

namespace Pool

/-- The pool without entries. -/
def empty : Pool := Table.empty

/-- The number of units of a model; a model without an entry has none. -/
def count (p : Pool) (m : Model) : Nat := (p.get? m).elim 0 Count.toNat

theorem count_le_ceiling (p : Pool) (m : Model) : p.count m ≤ Count.ceiling := by
  rw [count]
  cases p.get? m with
  | none => exact Nat.zero_le _
  | some c => exact c.le_ceiling

/-- Set the count of a model. -/
def set (p : Pool) (m : Model) (n : Nat) : Pool := p.insert m (.ofNat n)

/-- Add units of a model, up to the ceiling. -/
def add (p : Pool) (m : Model) (n : Nat) : Pool :=
  p.update m fun old => .ofNat (old.elim 0 Count.toNat + n)

theorem count_add (p : Pool) (m m' : Model) (n : Nat) :
    (p.add m n).count m' =
      if m' = m then min (p.count m + n) Count.ceiling else p.count m' := by
  unfold count add
  rw [Table.get?_update]
  split <;> simp

/-- Add all entries of a list, one after the other. -/
def addAll (p : Pool) (entries : List (Model × Nat)) : Pool :=
  entries.foldl (fun p e => p.add e.1 e.2) p

/-- The pool of a list of entries; entries of one model add up. -/
def ofEntries (entries : List (Model × Nat)) : Pool := empty.addAll entries

/-- The pool of a list of instances. -/
def ofInstances (instances : List Instance) : Pool :=
  ofEntries (instances.map fun i => (i.model, 1))

/-- Drop the entries of zero units. -/
def compact (p : Pool) : Pool := p.filter fun _ c => 0 < c.toNat

/-- No entry is zero. -/
def isCompact (p : Pool) : Bool := p.entries.all fun e => 0 < e.2.toNat

/-- The pool holds no unit. -/
def holdsNothing (p : Pool) : Bool := p.entries.all fun e => e.2.toNat = 0

/-- The number of units of all models together. -/
def total (p : Pool) : Nat := sumOf (p.entries.map fun e => e.2.toNat)

/-- The models listed, in order. -/
def models (p : Pool) : List Model := p.keys

/-- The entries as plain numbers, in model order. -/
def toList (p : Pool) : List (Model × Nat) := p.entries.map fun e => (e.1, e.2.toNat)

/-- The other pool has at least as many units of every model. -/
def isSubset (p q : Pool) : Bool := p.entries.all fun e => e.2.toNat ≤ q.count e.1

theorem isSubset_iff {p q : Pool} : p.isSubset q = true ↔ ∀ m, p.count m ≤ q.count m := by
  simp only [isSubset, List.all_eq_true, decide_eq_true_eq]
  constructor
  · intro h m
    cases hm : p.get? m with
    | none => simp [count, hm]
    | some c =>
      have := h (m, c) (Table.mem_entries_iff.2 hm)
      simpa [count, hm] using this
  · rintro h ⟨m, c⟩ hmem
    have := Table.mem_entries_iff.1 hmem
    simpa [count, this] using h m

/-- The units that another pool has too; nothing is listed with a count of zero. -/
def boundedBy (p ceiling : Pool) : Pool :=
  p.filterMap fun m c =>
    let n := min c.toNat (ceiling.count m)
    if 0 < n then some (.ofNat n) else none

theorem count_boundedBy (p q : Pool) (m : Model) :
    (p.boundedBy q).count m = min (p.count m) (q.count m) := by
  have hq := q.count_le_ceiling m
  unfold boundedBy count at *
  rw [Table.get?_filterMap]
  cases hp : p.get? m with
  | none => simp
  | some c =>
    simp only [Option.bind_some, Option.elim_some]
    split
    · simp only [Option.elim_some, Count.toNat_ofNat]
      omega
    · simp only [Option.elim_none]
      omega

/-- Combine two pools over the union of their models: a model that only one of them lists keeps the
count it has there. -/
def combine (pick : Nat → Nat → Nat) (p q : Pool) : Pool :=
  Table.zip (fun a b => match a, b with
    | some a, some b => .ofNat (pick a.toNat b.toNat)
    | some a, none => a
    | none, some b => b
    | none, none => .ofNat 0) p q

/-- The greater count of each model. -/
def max (p q : Pool) : Pool := combine Nat.max p q

/-- The lesser count of each model listed in both pools; other models keep the count they have. -/
def min (p q : Pool) : Pool := combine Nat.min p q

/-- The text of a pool. -/
def render (p : Pool) : String :=
  "\x7b" ++ ", ".intercalate (p.toList.map fun e => e.1.id ++ ": " ++ toString e.2) ++ "\x7d"

/-- The text of a pool in a dump of values. -/
def renderTagged (p : Pool) : String := "ModelPool" ++ p.render

end Pool

end Provision
