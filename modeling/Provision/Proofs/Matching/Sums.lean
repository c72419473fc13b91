import Mathlib.Algebra.BigOperators.Fin
import Mathlib.Algebra.Order.BigOperators.Group.Finset
import Provision.Matching.Volume

/-!
# The sums kept in a search state

A search state keeps, for every row and column, sums over the ends of its intervals. A state is
*consistent* when they are the sums of the intervals it holds now. The root is consistent, and every
change of a cell keeps consistency, so that a state may be recovered from its intervals alone.

## Main definitions

* `Cell.inRow r`, `Cell.inCol c`: the cells of a line, as finite sets.
* `State.Consistent s`: what `s` keeps agrees with its intervals.
-/

namespace Provision
variable {m n : Nat}

namespace Cell

/-- The cells of a row as a set. -/
def inRow (r : Fin m) : Finset (Cell m n) := (ofRow r).toFinset

/-- The cells of a column as a set. -/
def inCol (c : Fin n) : Finset (Cell m n) := (ofCol c).toFinset

@[simp] theorem mem_inRow {r : Fin m} {k : Cell m n} : k ∈ inRow r ↔ k.row = r := by
  rw [inRow, List.mem_toFinset, mem_ofRow]

@[simp] theorem mem_inCol {c : Fin n} {k : Cell m n} : k ∈ inCol c ↔ k.col = c := by
  rw [inCol, List.mem_toFinset, mem_ofCol]

theorem nodup_ofRow (r : Fin m) : (ofRow r : List (Cell m n)).Nodup :=
  (List.nodup_finRange n).map fun _ _ h => (of_inj.mp h).2

theorem nodup_ofCol (c : Fin n) : (ofCol c : List (Cell m n)).Nodup :=
  (List.nodup_finRange m).map fun _ _ h => (of_inj.mp h).1

theorem sum_ofRow (r : Fin m) (f : Cell m n → Nat) :
    sumOf ((ofRow r).map f) = ∑ k ∈ inRow r, f k :=
  (List.sum_toFinset f (nodup_ofRow r)).symm

theorem sum_ofCol (c : Fin n) (f : Cell m n → Nat) :
    sumOf ((ofCol c).map f) = ∑ k ∈ inCol c, f k :=
  (List.sum_toFinset f (nodup_ofCol c)).symm

end Cell

theorem Assignment.rowTotal_eq (a : Assignment m n) (r : Fin m) :
    a.rowTotal r = ∑ k ∈ Cell.inRow (n := n) r, a.values[k] := by
  rw [← Cell.sum_ofRow, Cell.ofRow, List.map_map]
  rfl

theorem Assignment.colTotal_eq (a : Assignment m n) (c : Fin n) :
    a.colTotal c = ∑ k ∈ Cell.inCol (m := m) c, a.values[k] := by
  rw [← Cell.sum_ofCol, Cell.ofCol, List.map_map]
  rfl

/-! ## One cell changes -/

/-- A sum over a line that misses the changed cell stays. -/
theorem sum_put_of_notMem {α : Type} {L : Finset (Cell m n)} {k : Cell m n} (hk : k ∉ L)
    (v : Vector α (m * n)) (d : α) (g : α → Nat) :
    ∑ j ∈ L, g (put v k d)[j] = ∑ j ∈ L, g v[j] := by
  refine Finset.sum_congr rfl fun j hj => ?_
  have hne : j ≠ k := fun h => hk (h ▸ hj)
  rw [getElem_put, if_neg hne]

/-- A sum over a line through the changed cell trades the old term for the new one. -/
theorem sum_put_of_mem {α : Type} {L : Finset (Cell m n)} {k : Cell m n} (hk : k ∈ L)
    (v : Vector α (m * n)) (d : α) (g : α → Nat) :
    ∑ j ∈ L, g (put v k d)[j] = ∑ j ∈ L, g v[j] - g v[k] + g d := by
  have hrest : ∑ j ∈ L.erase k, g (put v k d)[j] = ∑ j ∈ L.erase k, g v[j] :=
    sum_put_of_notMem (Finset.notMem_erase k L) v d g
  have hself : (put v k d)[k] = d := by rw [getElem_put, if_pos rfl]
  rw [← Finset.add_sum_erase L _ hk, ← Finset.add_sum_erase L _ hk, hrest, hself]
  omega

/-! ## Consistent states -/

namespace State

/-- What is kept beside the intervals agrees with them. -/
structure Consistent (s : State m n) : Prop where
  rowHi : ∀ r : Fin m, s.rowHi[r] = ∑ k ∈ Cell.inRow (n := n) r, s.domains[k].hi
  rowLo : ∀ r : Fin m, s.rowLo[r] = ∑ k ∈ Cell.inRow (n := n) r, s.domains[k].lo
  colLo : ∀ c : Fin n, s.colLo[c] = ∑ k ∈ Cell.inCol (m := m) c, s.domains[k].lo
  unfixed : s.unfixed = countUnfixed s.domains

/-- A consistent state is determined by its intervals. -/
theorem Consistent.ext {s t : State m n} (hs : s.Consistent) (ht : t.Consistent)
    (h : s.domains = t.domains) : s = t := by
  have hrowHi : s.rowHi = t.rowHi := by
    ext r hr
    exact (hs.rowHi ⟨r, hr⟩).trans (h ▸ (ht.rowHi ⟨r, hr⟩).symm)
  have hrowLo : s.rowLo = t.rowLo := by
    ext r hr
    exact (hs.rowLo ⟨r, hr⟩).trans (h ▸ (ht.rowLo ⟨r, hr⟩).symm)
  have hcolLo : s.colLo = t.colLo := by
    ext c hc
    exact (hs.colLo ⟨c, hc⟩).trans (h ▸ (ht.colLo ⟨c, hc⟩).symm)
  have hunfixed : s.unfixed = t.unfixed := hs.unfixed.trans (h ▸ ht.unfixed.symm)
  cases s; cases t
  simp_all

theorem domains_root (p : Problem m n) (k : Cell m n) :
    (root p).domains[k] = Interval.upTo p.upper[k] := by
  simp [root]

theorem consistent_root (p : Problem m n) : (root p).Consistent where
  rowHi r := by simp [root, Cell.sum_ofRow]
  rowLo r := by simp [root, Interval.upTo]
  colLo c := by simp [root, Interval.upTo]
  unfixed := rfl

/-- Whether an interval has more than one point, as a number. -/
def loose (d : Interval Nat) : Nat := if d.isFixed then 0 else 1

theorem countUnfixed_eq (v : Vector (Interval Nat) (m * n)) :
    countUnfixed v = ∑ k : Cell m n, loose v[k] := by
  rw [Fin.sum_univ_def, countUnfixed]
  induction List.finRange (m * n) with
  | nil => rfl
  | cons k rest ih =>
    rw [List.countP_cons, List.map_cons, List.sum_cons, ih, loose, Nat.add_comm]
    cases v[k].isFixed <;> rfl

/-- A sum kept for every line follows a change of a cell: the new term comes in where the old one is
taken out. -/
theorem kept_put {l : Nat} {kept : Vector Nat l} {line : Fin l → Finset (Cell m n)}
    {lineOf : Cell m n → Fin l} (hline : ∀ {i k}, k ∈ line i ↔ lineOf k = i)
    {v : Vector (Interval Nat) (m * n)} {g : Interval Nat → Nat}
    (h : ∀ i : Fin l, kept[i] = ∑ j ∈ line i, g v[j]) (k : Cell m n) (d : Interval Nat)
    (i : Fin l) :
    (put kept (lineOf k) (kept[lineOf k] - g v[k] + g d))[i] =
      ∑ j ∈ line i, g (put v k d)[j] := by
  by_cases hi : lineOf k = i
  · subst hi
    rw [sum_put_of_mem (hline.mpr rfl), ← h]
    simp
  · rw [sum_put_of_notMem (mt hline.mp hi), ← h, getElem_put, if_neg (Ne.symm hi)]

theorem Consistent.set {s : State m n} (h : s.Consistent) (k : Cell m n) (d : Interval Nat) :
    (s.set k d).Consistent where
  rowHi := kept_put Cell.mem_inRow h.rowHi k d
  rowLo := kept_put Cell.mem_inRow h.rowLo k d
  colLo := kept_put Cell.mem_inCol h.colLo k d
  unfixed := by
    have hle : loose s.domains[k] ≤ ∑ j : Cell m n, loose s.domains[j] :=
      Finset.single_le_sum (f := fun j : Cell m n => loose s.domains[j])
        (fun _ _ => Nat.zero_le _) (Finset.mem_univ k)
    rw [domains_set, countUnfixed_eq, sum_put_of_mem (Finset.mem_univ k)]
    simp only [State.set, h.unfixed, countUnfixed_eq]
    cases ho : s.domains[k].isFixed <;> cases hd : d.isFixed <;>
      simp only [loose, ho, hd, Bool.false_eq_true, if_true, if_false] at hle ⊢ <;> omega

theorem Consistent.undo {s : State m n} (h : s.Consistent) (changes : List (Change m n)) :
    (s.undo changes).Consistent := by
  induction changes generalizing s with
  | nil => exact h
  | cons c rest ih => exact ih (h.set c.cell c.before)

end State

end Provision
