import Provision.Proofs.Matching.Restoration

/-!
# Closed boxes

A box of intervals is *closed* for a problem when neither of the two rules would narrow it. The
single point of an assignment that satisfies the problem is a closed box, so whatever holds of
closed boxes holds of these assignments.

A rule applied at a cell loses no closed box: one that lies inside the intervals before still does
so afterwards. The rule of a row leaves upper ends alone and the rule of a column lower ends, so
their sum along the line stays right for the cells that follow.

## Main definitions

* `Problem.Closed p u`: neither rule narrows the box `u`.
* `Workspace.Shrinks w w'`: `w'` comes from `w` by narrowing.
* `Workspace.Refines p w w'`: moreover no closed box is lost.
-/

namespace Provision
variable {m n : Nat}

/-- An interval for every cell. -/
abbrev Box (m n : Nat) := Vector (Interval Nat) (m * n)

/-- Every interval of one box lies inside that of another. -/
def Box.Inside (u v : Box m n) : Prop := ∀ k : Cell m n, u[k] ≤ v[k]

theorem Box.Inside.refl (v : Box m n) : v.Inside v := fun _ => ⟨Nat.le_refl _, Nat.le_refl _⟩

theorem Box.Inside.trans {u v w : Box m n} (huv : u.Inside v) (hvw : v.Inside w) : u.Inside w :=
  fun k => ⟨Nat.le_trans (hvw k).1 (huv k).1, Nat.le_trans (huv k).2 (hvw k).2⟩

/-- Narrowing one cell of a box keeps what lies inside the narrower cell as well. -/
theorem Box.Inside.set {u v : Box m n} (h : u.Inside v) {k : Cell m n} {d : Interval Nat}
    (hd : u[k] ≤ d) : u.Inside (put v k d) := by
  intro j
  rw [getElem_put]
  by_cases hj : j = k
  · rw [if_pos hj]; exact hj ▸ hd
  · rw [if_neg hj]; exact h j

/-- A box lies inside the one in which a cell was wider. -/
theorem Box.inside_put {v : Box m n} {k : Cell m n} {d : Interval Nat} (hd : d ≤ v[k]) :
    Box.Inside (put v k d) v := by
  intro j
  rw [getElem_put]
  by_cases hj : j = k
  · rw [if_pos hj]; exact hj ▸ hd
  · rw [if_neg hj]; exact Box.Inside.refl v j

/-! ## Closed boxes -/

/-- In every row the upper ends reach the minimum, and so does each lower end together with the
other upper ends. In every column the lower ends keep to the maximum, and so does each upper end
together with the other lower ends. -/
structure Problem.Closed (p : Problem m n) (u : Box m n) : Prop where
  row : ∀ r : Fin m, p.rowMin[r] ≤ ∑ k ∈ Cell.inRow (n := n) r, u[k].hi
  rowCell : ∀ k : Cell m n,
    p.rowMin[k.row] ≤ u[k].lo + ∑ j ∈ (Cell.inRow k.row).erase k, u[j].hi
  col : ∀ c : Fin n, ∑ k ∈ Cell.inCol (m := m) c, u[k].lo ≤ p.colMax[c]
  colCell : ∀ k : Cell m n,
    u[k].hi + ∑ j ∈ (Cell.inCol k.col).erase k, u[j].lo ≤ p.colMax[k.col]

/-- The box of a single assignment. -/
def Assignment.box (a : Assignment m n) : Box m n := a.values.map Interval.point

@[simp] theorem Assignment.getElem_box (a : Assignment m n) (k : Cell m n) :
    a.box[k] = Interval.point a.values[k] := by
  simp [Assignment.box]

/-- An assignment that satisfies a problem is a closed box. -/
theorem Assignment.Satisfies.closed {a : Assignment m n} {p : Problem m n} (h : a.Satisfies p) :
    p.Closed a.box := by
  have hrow : ∀ r : Fin m, p.rowMin[r] ≤ ∑ k ∈ Cell.inRow (n := n) r, a.values[k] :=
    fun r => a.rowTotal_eq r ▸ h.2.1 r
  have hcol : ∀ c : Fin n, ∑ k ∈ Cell.inCol (m := m) c, a.values[k] ≤ p.colMax[c] :=
    fun c => a.colTotal_eq c ▸ h.2.2 c
  refine ⟨?_, ?_, ?_, ?_⟩ <;> simp only [Assignment.getElem_box, Interval.point]
  · exact hrow
  · intro k
    rw [Finset.add_sum_erase _ (fun j : Cell m n => a.values[j]) (Cell.mem_inRow.mpr rfl)]
    exact hrow k.row
  · exact hcol
  · intro k
    rw [Finset.add_sum_erase _ (fun j : Cell m n => a.values[j]) (Cell.mem_inCol.mpr rfl)]
    exact hcol k.col

/-- An assignment within a box. -/
def Assignment.Within (a : Assignment m n) (v : Box m n) : Prop :=
  ∀ k : Cell m n, a.values[k] ∈ v[k]

theorem Assignment.within_iff {a : Assignment m n} {v : Box m n} :
    a.Within v ↔ a.box.Inside v := by
  refine forall_congr' fun k => ?_
  rw [Assignment.getElem_box]
  rfl

namespace Problem.Closed
variable {p : Problem m n} {u v : Box m n}

/-- A row of a box around a closed box reaches its minimum. -/
theorem le_rowHi (hu : p.Closed u) (huv : u.Inside v) (r : Fin m) :
    p.rowMin[r] ≤ ∑ k ∈ Cell.inRow (n := n) r, v[k].hi :=
  Nat.le_trans (hu.row r) (Finset.sum_le_sum fun k _ => (huv k).2)

/-- A column of a box around a closed box keeps to its maximum. -/
theorem colLo_le (hu : p.Closed u) (huv : u.Inside v) (c : Fin n) :
    ∑ k ∈ Cell.inCol (m := m) c, v[k].lo ≤ p.colMax[c] :=
  Nat.le_trans (Finset.sum_le_sum fun k _ => (huv k).1) (hu.col c)

/-- What the other upper ends leave of a row's minimum is a lower bound in a closed box. -/
theorem need_le (hu : p.Closed u) (huv : u.Inside v) (k : Cell m n) :
    p.rowMin[k.row] - (∑ j ∈ Cell.inRow (n := n) k.row, v[j].hi - v[k].hi) ≤ u[k].lo := by
  have hsplit := Finset.add_sum_erase (Cell.inRow k.row) (fun j : Cell m n => v[j].hi)
    (Cell.mem_inRow.mpr rfl)
  have hothers : ∑ j ∈ (Cell.inRow k.row).erase k, u[j].hi ≤
      ∑ j ∈ (Cell.inRow k.row).erase k, v[j].hi := Finset.sum_le_sum fun j _ => (huv j).2
  have := hu.rowCell k
  omega

/-- What the other lower ends leave of a column's maximum is an upper bound in a closed box. -/
theorem le_cap (hu : p.Closed u) (huv : u.Inside v) (k : Cell m n) :
    u[k].hi ≤ p.colMax[k.col] - (∑ j ∈ Cell.inCol (m := m) k.col, v[j].lo - v[k].lo) := by
  have hsplit := Finset.add_sum_erase (Cell.inCol k.col) (fun j : Cell m n => v[j].lo)
    (Cell.mem_inCol.mpr rfl)
  have hothers : ∑ j ∈ (Cell.inCol k.col).erase k, v[j].lo ≤
      ∑ j ∈ (Cell.inCol k.col).erase k, u[j].lo := Finset.sum_le_sum fun j _ => (huv j).1
  have := hu.colCell k
  omega

end Problem.Closed

/-! ## Refinements -/

/-- A workspace obtained from another one by narrowing, with the sums kept right. -/
structure Workspace.Shrinks (w w' : Workspace m n) : Prop where
  narrowsTo : w.NarrowsTo w'
  consistent : w'.state.Consistent
  inside : Box.Inside w'.state.domains w.state.domains

namespace Workspace.Shrinks
variable {w w' w'' : Workspace m n}

theorem refl (h : w.state.Consistent) : w.Shrinks w := ⟨.refl w, h, .refl _⟩

theorem trans (h : w.Shrinks w') (h' : w'.Shrinks w'') : w.Shrinks w'' :=
  ⟨h.narrowsTo.trans h'.narrowsTo, h'.consistent, h'.inside.trans h.inside⟩

theorem narrow (h : w.state.Consistent) {k : Cell m n} {d : Interval Nat} (hd : d ≤ w.domain k) :
    w.Shrinks (w.narrow k d) where
  narrowsTo := .narrow hd
  consistent := h.set k d
  inside := Box.inside_put hd

/-- The changes recorded since lead back to the very state there was before. -/
theorem recorded (h : w.Shrinks w') (hw : w.state.Consistent) : w.Recalls w' := by
  obtain ⟨changes, htrail, hundo⟩ := h.narrowsTo.recorded
  refine ⟨changes, htrail, (h.consistent.undo changes).ext hw ?_⟩
  rw [State.domains_undo, hundo]

end Workspace.Shrinks

/-- A workspace that shrinks without losing a closed box. -/
structure Workspace.Refines (p : Problem m n) (w w' : Workspace m n) : Prop
    extends w.Shrinks w' where
  keeps : ∀ u, p.Closed u → u.Inside w.state.domains → u.Inside w'.state.domains

namespace Workspace.Refines
variable {p : Problem m n} {w w' : Workspace m n}

/-- An assignment that satisfies the problem stays within the intervals. -/
theorem within (h : w.Refines p w') {a : Assignment m n} (ha : a.Satisfies p)
    (hw : a.Within w.state.domains) : a.Within w'.state.domains :=
  Assignment.within_iff.mpr (h.keeps _ ha.closed (Assignment.within_iff.mp hw))

end Workspace.Refines

/-- A sweep from a workspace refines it; a conflict shows that no closed box lies inside. -/
def Sweep.Keeps (p : Problem m n) (w : Workspace m n) : Sweep m n → Prop
  | .ok t => w.Refines p t.work
  | .error e => w.Refines p e.work ∧ ∀ u : Box m n, p.Closed u → ¬u.Inside w.state.domains

/-! ## One rule at one cell -/

namespace Progress

/-- The row rule raises the lower end of a cell to what the row needs. It leaves the cell alone if
the end is there already, or if the cell cannot be raised so far. -/
theorem coverCell_cases (t : Progress m n) (k : Cell m n) {hiSum least need : Nat}
    (hneed : need = least - (hiSum - (t.work.domain k).hi)) :
    t.coverCell hiSum least k = t ∧ (need ≤ (t.work.domain k).lo ∨ (t.work.domain k).hi < need) ∨
    ∃ d : Interval Nat, (t.work.domain k).lo < need ∧ d.lo = need ∧ d.hi = (t.work.domain k).hi ∧
      t.coverCell hiSum least k = ⟨t.work.narrow k d, t.narrowed + 1⟩ := by
  subst hneed
  simp only [coverCell]
  split
  · next hlt =>
    cases hd : (t.work.domain k).atLeast? (least - (hiSum - (t.work.domain k).hi)) with
    | none => exact .inl ⟨rfl, .inr (Interval.atLeast?_eq_none_iff.mp hd)⟩
    | some d =>
      obtain ⟨hlo, hhi⟩ := Interval.atLeast?_eq_some_iff.mp hd
      rw [Nat.max_eq_right (Nat.le_of_lt hlt)] at hlo
      exact .inr ⟨d, hlt, hlo, hhi, rfl⟩
  · next hle => exact .inl ⟨rfl, .inl (Nat.not_lt.mp hle)⟩

/-- The column rule lowers the upper end of a cell to what the column leaves. It leaves the cell
alone if the end is there already, or if the cell cannot be lowered so far. -/
theorem capCell_cases (t : Progress m n) (k : Cell m n) {loSum most cap : Nat}
    (hcap : cap = most - (loSum - (t.work.domain k).lo)) :
    t.capCell loSum most k = t ∧ ((t.work.domain k).hi ≤ cap ∨ cap < (t.work.domain k).lo) ∨
    ∃ d : Interval Nat, cap < (t.work.domain k).hi ∧ d.lo = (t.work.domain k).lo ∧ d.hi = cap ∧
      t.capCell loSum most k = ⟨t.work.narrow k d, t.narrowed + 1⟩ := by
  subst hcap
  simp only [capCell]
  split
  · next hlt =>
    cases hd : (t.work.domain k).atMost? (most - (loSum - (t.work.domain k).lo)) with
    | none => exact .inl ⟨rfl, .inr (Interval.atMost?_eq_none_iff.mp hd)⟩
    | some d =>
      obtain ⟨hlo, hhi⟩ := Interval.atMost?_eq_some_iff.mp hd
      rw [Nat.min_eq_right (Nat.le_of_lt hlt)] at hhi
      exact .inr ⟨d, hlt, hlo, hhi, rfl⟩
  · next hle => exact .inl ⟨rfl, .inl (Nat.not_lt.mp hle)⟩

theorem domain_narrow (w : Workspace m n) (k j : Cell m n) (d : Interval Nat) :
    (w.narrow k d).domain j = if j = k then d else w.domain j :=
  getElem_put _ _ _ _

/-- Within a row the rule keeps all upper ends, so their sum needs to be read only once. -/
theorem hi_coverCell (hiSum least : Nat) (t : Progress m n) (k j : Cell m n) :
    ((t.coverCell hiSum least k).work.domain j).hi = (t.work.domain j).hi := by
  rcases coverCell_cases t k rfl with ⟨h, -⟩ | ⟨d, -, -, hhi, h⟩
  · rw [h]
  · rw [h, domain_narrow]
    by_cases hj : j = k
    · rw [if_pos hj, hhi, hj]
    · rw [if_neg hj]

/-- Within a column the rule keeps all lower ends. -/
theorem lo_capCell (loSum most : Nat) (t : Progress m n) (k j : Cell m n) :
    ((t.capCell loSum most k).work.domain j).lo = (t.work.domain j).lo := by
  rcases capCell_cases t k rfl with ⟨h, -⟩ | ⟨d, -, hlo, -, h⟩
  · rw [h]
  · rw [h, domain_narrow]
    by_cases hj : j = k
    · rw [if_pos hj, hlo, hj]
    · rw [if_neg hj]

/-- The row rule at a cell loses no closed box. -/
theorem inside_coverCell {p : Problem m n} {t : Progress m n} {hiSum : Nat} {k : Cell m n}
    (hsum : hiSum = ∑ j ∈ Cell.inRow k.row, (t.work.domain j).hi) {u : Box m n} (hu : p.Closed u)
    (huv : u.Inside t.work.state.domains) :
    u.Inside (t.coverCell hiSum p.rowMin[k.row] k).work.state.domains := by
  rcases coverCell_cases t k rfl with ⟨h, -⟩ | ⟨d, -, hlo, hhi, h⟩
  · rw [h]; exact huv
  · rw [h]
    refine huv.set ⟨?_, ?_⟩
    · have hneed := hu.need_le huv k
      change _ - (∑ j ∈ Cell.inRow k.row, (t.work.domain j).hi - (t.work.domain k).hi) ≤ _ at hneed
      rw [hlo, hsum]
      exact hneed
    · rw [hhi]; exact (huv k).2

/-- The column rule at a cell loses no closed box. -/
theorem inside_capCell {p : Problem m n} {t : Progress m n} {loSum : Nat} {k : Cell m n}
    (hsum : loSum = ∑ j ∈ Cell.inCol k.col, (t.work.domain j).lo) {u : Box m n} (hu : p.Closed u)
    (huv : u.Inside t.work.state.domains) :
    u.Inside (t.capCell loSum p.colMax[k.col] k).work.state.domains := by
  rcases capCell_cases t k rfl with ⟨h, -⟩ | ⟨d, -, hlo, hhi, h⟩
  · rw [h]; exact huv
  · rw [h]
    refine huv.set ⟨?_, ?_⟩
    · rw [hlo]; exact (huv k).1
    · have hcap := hu.le_cap huv k
      change _ ≤ _ - (∑ j ∈ Cell.inCol k.col, (t.work.domain j).lo - (t.work.domain k).lo) at hcap
      rw [hhi, hsum]
      exact hcap

end Progress

end Provision
