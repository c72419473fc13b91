import Provision.Proofs.Matching.Run

/-!
# The solution that is found first

Lower halves are tried before upper ones. When a solution is found, any other assignment that
satisfies the problem is therefore above it: in every cell, or else in the cell that was split at
some open node, in whose upper half it lies. A solution is never above another one.
-/

namespace Provision
variable {m n : Nat} {p : Problem m n} {b : Branching}

/-- A decision left at a node around a state is the upper half of a split, and the state was entered
through the lower half. -/
theorem Entered.lower_of_left {s : State m n} {path : List (OpenNode m n)}
    (h : Entered p b s path) (hpath : Linked p b path) {node : OpenNode m n} (hnode : node ∈ path)
    {d : Decision (m * n)} (hd : d ∈ node.left) :
    Box.Inside s.domains node.state.domains ∧ b.select node.state = some d.cell ∧
      ∃ lower, node.state.domains[d.cell].halves? = some (lower, d.domain) ∧
        s.domains[d.cell] ≤ lower := by
  induction path generalizing s with
  | nil => cases hnode
  | cons inner rest ih =>
    obtain ⟨first, hfirst, hinside, hcell⟩ := h
    rcases List.mem_cons.mp hnode with rfl | hrest
    · refine ⟨hinside, ?_⟩
      rcases b.decisions_cases node.state with ⟨-, hnil⟩ | ⟨k, lower, upper, hk, hhalves, heq⟩
      · rw [hnil] at hfirst
        cases List.suffix_nil.mp hfirst
      · -- Something is left after `first`, so `first` is the lower half and `d` the upper one.
        rw [heq] at hfirst
        generalize node.left = left at hd hfirst
        rcases List.suffix_cons_iff.mp hfirst with hall | hlast
        · cases hall
          obtain rfl := List.mem_singleton.mp hd
          exact ⟨hk, lower, hhalves, hcell⟩
        · rcases List.suffix_cons_iff.mp hlast with hone | hnone
          · cases hone; cases hd
          · cases List.suffix_nil.mp hnone
    · obtain ⟨hinside', hselect, lower, hhalves, hle⟩ := ih hpath.2.1 hpath.2.2 hrest
      refine ⟨hinside.trans hinside', hselect, lower, hhalves, ?_⟩
      exact Interval.le_def.mpr ⟨Nat.le_trans hle.1 (hinside _).1, Nat.le_trans (hinside _).2 hle.2⟩

namespace Session

/-- Another satisfying assignment is above the solution found in every cell, or it was passed over
at a node that both lie in, and there it is above the solution in the cell that was split. -/
theorem Explores.above_of_satisfies {s : Session m n} (h : s.Explores p b) {a : Assignment m n}
    (hfound : s.found = some a) {a' : Assignment m n} (ha' : a'.Satisfies p) :
    (∀ k : Cell m n, a.values[k] ≤ a'.values[k]) ∨
      ∃ (t : State m n) (k : Cell m n), b.select t = some k ∧ a.Within t.domains ∧
        a'.Within t.domains ∧ a.values[k] < a'.values[k] := by
  obtain ⟨rfl, -, hothers⟩ := h.solved a hfound
  rcases hothers a' ha' with ⟨node, hnode, d, hd, hwithin, hcell⟩ | hwithin
  · rcases s.path_cases with hnil | ⟨left, rest, hpath⟩
    · rw [hnil] at hnode; cases hnode
    have hlinked := h.linked
    rw [hpath] at hlinked hnode
    obtain ⟨hinside, hselect, lower, hhalves, hlower⟩ :=
      hlinked.2.1.lower_of_left hlinked.2.2 hnode hd
    refine .inr ⟨node.state, d.cell, hselect, fun k => ?_, hwithin, ?_⟩
    · rw [State.getElem_lower]
      have hle := s.work.state.domains[k].lo_le_hi
      exact ⟨(hinside k).1, Nat.le_trans hle (hinside k).2⟩
    · -- The solution lies in the lower half of the cell and the other assignment in the upper one.
      obtain ⟨-, hmid, hmid', -⟩ := Interval.ends_of_halves? hhalves
      have hle := s.work.state.domains[d.cell].lo_le_hi
      have hsolution : s.work.state.domains[d.cell].hi ≤ lower.hi := hlower.2
      have hother := hcell.1
      rw [State.getElem_lower]
      omega
  · refine .inl fun k => ?_
    rw [State.getElem_lower]
    exact (hwithin k).1

/-- A solution found is not above another assignment that satisfies the problem. -/
theorem Explores.eq_of_le {s : Session m n} (h : s.Explores p b) {a : Assignment m n}
    (hfound : s.found = some a) {a' : Assignment m n} (ha' : a'.Satisfies p)
    (hle : ∀ k : Cell m n, a'.values[k] ≤ a.values[k]) (k : Cell m n) :
    a'.values[k] = a.values[k] := by
  rcases h.above_of_satisfies hfound ha' with habove | ⟨t, j, -, -, -, hlt⟩
  · exact Nat.le_antisymm (hle k) (habove k)
  · exact absurd (hle j) (Nat.not_le_of_lt hlt)

end Session

/-! ## Taking a unit away -/

/-- One unit less in a cell. -/
def Assignment.decrement (a : Assignment m n) (k : Cell m n) : Assignment m n :=
  ⟨put a.values k (a.values[k] - 1)⟩

theorem Assignment.getElem_decrement (a : Assignment m n) (k j : Cell m n) :
    (a.decrement k).values[j] = if j = k then a.values[k] - 1 else a.values[j] :=
  getElem_put _ _ _ _

theorem Assignment.decrement_le (a : Assignment m n) (k j : Cell m n) :
    (a.decrement k).values[j] ≤ a.values[j] := by
  rw [getElem_decrement]
  by_cases hj : j = k
  · rw [if_pos hj]; exact hj ▸ Nat.sub_le _ 1
  · rw [if_neg hj]

/-- Where a row has more than its minimum, a unit can be taken away. -/
theorem Assignment.Satisfies.decrement {a : Assignment m n} (h : a.Satisfies p) {k : Cell m n}
    (hk : p.rowMin[k.row] < a.rowTotal k.row) : (a.decrement k).Satisfies p := by
  obtain ⟨hupper, hrow, hcol⟩ := h
  refine ⟨fun j => Nat.le_trans (a.decrement_le k j) (hupper j), fun r => ?_, fun c => ?_⟩
  · have hr := hrow r
    rw [rowTotal_eq] at hr hk ⊢
    by_cases hmem : k ∈ Cell.inRow r
    · obtain rfl := Cell.mem_inRow.mp hmem
      have hsum := sum_put_of_mem hmem a.values (a.values[k] - 1) id
      simp only [id] at hsum
      rw [Assignment.decrement, hsum]
      omega
    · have hsum := sum_put_of_notMem hmem a.values (a.values[k] - 1) id
      simp only [id] at hsum
      rw [Assignment.decrement, hsum]
      exact hr
  · have hc := hcol c
    rw [colTotal_eq] at hc ⊢
    exact Nat.le_trans (Finset.sum_le_sum fun j _ => a.decrement_le k j) hc

/-- **A solution that is found gives every row exactly its minimum.** -/
theorem Session.Explores.rowTotal_eq {s : Session m n} (h : s.Explores p b) {a : Assignment m n}
    (hfound : s.found = some a) (r : Fin m) : a.rowTotal r = p.rowMin[r] := by
  obtain ⟨-, hsatisfies, -⟩ := h.solved a hfound
  refine Nat.le_antisymm (Nat.le_of_not_lt fun hlt => ?_) (hsatisfies.2.1 r)
  have hpos : ∑ k ∈ Cell.inRow (n := n) r, a.values[k] ≠ 0 := by
    rw [← Assignment.rowTotal_eq]
    omega
  obtain ⟨k, hk, hne⟩ := Finset.exists_ne_zero_of_sum_ne_zero hpos
  obtain rfl := Cell.mem_inRow.mp hk
  have heq := h.eq_of_le hfound (hsatisfies.decrement hlt) (a.decrement_le k) k
  rw [Assignment.getElem_decrement, if_pos rfl] at heq
  omega

end Provision
