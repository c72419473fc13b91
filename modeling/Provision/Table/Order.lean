import Provision.Table

/-!
# The order of tables

Tables are compared as the lists of their entries: the first difference decides, and an entry is
compared by its key before its value. The order is total and only equal tables compare as equal, so
tables can be keys of other tables.
-/

namespace Provision.Table
variable {κ α : Type} [Ord κ] [Ord α]

/-- Compare two entries, keys first. -/
def compareEntries (a b : κ × α) : Ordering :=
  (compare a.1 b.1).then (compare a.2 b.2)

instance : Ord (Table κ α) where
  compare s t := List.compareLex compareEntries s.entries t.entries

instance [Std.TransOrd κ] [Std.TransOrd α] :
    Std.TransCmp (compareEntries : κ × α → κ × α → Ordering) :=
  inferInstanceAs
    (Std.TransCmp (compareLex (compareOn (·.1 : κ × α → κ)) (compareOn (·.2 : κ × α → α))))

instance [Std.LawfulEqOrd κ] [Std.LawfulEqOrd α] :
    Std.LawfulEqCmp (compareEntries : κ × α → κ × α → Ordering) where
  compare_self := by simp [compareEntries]
  eq_of_compare := by
    intro a b h
    simp only [compareEntries, Ordering.then_eq_eq, Std.compare_eq_iff_eq] at h
    exact Prod.ext h.1 h.2

theorem compare_eq (s t : Table κ α) :
    compare s t = List.compareLex compareEntries s.entries t.entries := rfl

instance [Std.TransOrd κ] [Std.TransOrd α] : Std.TransOrd (Table κ α) where
  eq_swap := by simp only [compare_eq]; exact Std.OrientedCmp.eq_swap
  isLE_trans := by simp only [compare_eq]; exact Std.TransCmp.isLE_trans

instance [Std.LawfulEqOrd κ] [Std.LawfulEqOrd α] : Std.LawfulEqOrd (Table κ α) where
  compare_self := by simp only [compare_eq]; exact Std.ReflCmp.compare_self
  eq_of_compare := by
    simp only [compare_eq]
    exact fun h => ext_entries (Std.LawfulEqCmp.eq_of_compare h)

end Provision.Table
