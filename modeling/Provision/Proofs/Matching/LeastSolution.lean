import Mathlib.Data.List.Lex
import Provision.Proofs.Matching.FirstSolution

/-!
# The least solution

Chronological branching splits the first cell that is not fixed. Where an assignment is passed over,
it therefore agrees with the solution in all cells before the one that was split, and is above it in
that one. So the solution comes before every other assignment that satisfies the problem, when the
values of assignments are compared row by row, as words are compared letter by letter.
-/

namespace Provision
variable {m n : Nat} {p : Problem m n} {σ : Type}

/-- Whatever comes before the cell that chronological branching splits is fixed. -/
theorem Branching.isFixed_of_lt_select {s : State m n} {k j : Cell m n}
    (h : Branching.chronological.select s = some k) (hj : j < k) :
    s.domains[j].isFixed = true := by
  rw [select, unfixedCells, List.head?_filter, List.find?_eq_some_iff_getElem] at h
  obtain ⟨-, i, hi, hget, hbefore⟩ := h
  have hval : i = k.val := by
    rw [← hget, List.getElem_finRange]
    rfl
  have hfixed := hbefore j.val (hval ▸ hj)
  rw [List.getElem_finRange] at hfixed
  simpa using hfixed

/-- Two assignments agree in a cell that is fixed in a box around both. -/
theorem Assignment.Within.getElem_eq {v : Box m n} {a a' : Assignment m n} (h : a.Within v)
    (h' : a'.Within v) {k : Cell m n} (hk : v[k].isFixed = true) : a.values[k] = a'.values[k] := by
  have hends : v[k].lo = v[k].hi := by simpa [Interval.isFixed] using hk
  have hmem := Interval.mem_def.mp (h k)
  have hmem' := Interval.mem_def.mp (h' k)
  omega

/-- Values that are not greater in the first cell where they differ come first. -/
theorem Assignment.toList_le {a a' : Assignment m n}
    (h : ∀ k : Cell m n, (∀ j < k, a.values[j] = a'.values[j]) → a.values[k] ≤ a'.values[k]) :
    a.values.toList ≤ a'.values.toList := by
  refine not_lt.mp fun hlt => ?_
  rcases List.lt_iff_exists.mp hlt with ⟨-, hlength⟩ | ⟨i, hi, hi', hbefore, hless⟩
  · rw [Vector.length_toList, Vector.length_toList] at hlength
    exact Nat.lt_irrefl _ hlength
  · rw [Vector.length_toList] at hi
    refine Nat.not_le_of_lt hless (h ⟨i, hi⟩ fun j hj => ?_)
    exact (hbefore j.val hj).symm

/-- Up to the first cell where they differ, a solution found chronologically is not above another
assignment that satisfies the problem. -/
theorem Session.Explores.le_of_agree {s : Session m n} (h : s.Explores p .chronological)
    {a : Assignment m n} (hfound : s.found = some a) {a' : Assignment m n} (ha' : a'.Satisfies p)
    {k : Cell m n} (hagree : ∀ j < k, a.values[j] = a'.values[j]) :
    a.values[k] ≤ a'.values[k] := by
  rcases h.above_of_satisfies hfound ha' with habove | ⟨t, c, hselect, hwithin, hwithin', hlt⟩
  · exact habove k
  · rcases lt_trichotomy k c with hkc | rfl | hck
    · have hfixed := Branching.isFixed_of_lt_select hselect hkc
      exact Nat.le_of_eq (hwithin.getElem_eq hwithin' hfixed)
    · exact Nat.le_of_lt hlt
    · exact absurd (hagree c hck) (Nat.ne_of_lt hlt)

/-- **What a chronological search finds is the least solution**, whatever its monitor does: the
values of every assignment that satisfies the problem are the same or come later, row by row. -/
theorem Problem.solveWith_chronological_le {monitor : TreeMonitor σ} {x : σ} {a : Assignment m n}
    (h : (p.solveWith .chronological monitor x).1.result = .feasible a) :
    a.Satisfies p ∧ ∀ a' : Assignment m n, a'.Satisfies p → a.values.toList ≤ a'.values.toList := by
  obtain ⟨o, y, hends, heq⟩ := p.ends_solveWith .chronological monitor x
  rw [heq] at h
  cases hends with
  | found hreaches hfound =>
    cases h
    refine ⟨(hreaches.explores.solved a hfound).2.1, fun a' ha' => Assignment.toList_le ?_⟩
    intro k hagree
    exact hreaches.explores.le_of_agree hfound ha' hagree
  | blocked | stopped | exhausted => cases h

/-- Two units for the first row and one for the second, where the second column has only one to
give: a unit of each column comes before two units of the first. -/
theorem Problem.solveWith_chronological_le_square :
    let p : Problem 2 2 := ⟨#v[2, 1], #v[2, 1], #v[2, 2, 2, 2]⟩
    let a : Assignment 2 2 := ⟨#v[1, 1, 1, 0]⟩
    let a' : Assignment 2 2 := ⟨#v[2, 0, 0, 1]⟩
    (p.solveWith .chronological (.idle "") ()).1.result = .feasible a ∧ a.Satisfies p ∧
      a'.Satisfies p ∧ a.values.toList ≤ a'.values.toList := by
  intro p a a'
  have hfound : (p.solveWith .chronological (.idle "") ()).1.result = .feasible a := by
    decide +kernel
  have ha' : a'.Satisfies p := by decide
  obtain ⟨ha, hleast⟩ := Problem.solveWith_chronological_le hfound
  exact ⟨hfound, ha, ha', hleast a' ha'⟩

end Provision
