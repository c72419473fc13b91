import Provision.Matching.Supply
import Provision.Proofs.Matching.FirstSolution

/-!
# Solutions are tight

A search never checks a row maximum, and it need not: what it finds gives every row exactly its
minimum. The rows of a solution therefore get as many units as they require and not one more.

## Main definitions

* `Problem.Finds p b monitor x a`: the search for `p` ends with the assignment `a`.
-/

namespace Provision
variable {m n : Nat} {σ γ : Type}

/-- A search under a monitor ends with an assignment. -/
def Problem.Finds (p : Problem m n) (b : Branching) (monitor : TreeMonitor σ) (x : σ)
    (a : Assignment m n) : Prop :=
  (p.solveWith b monitor x).1.result = .feasible a

theorem Problem.Finds.rowTotal_eq {p : Problem m n} {b : Branching} {monitor : TreeMonitor σ}
    {x : σ} {a : Assignment m n} (h : p.Finds b monitor x a) (r : Fin m) :
    a.rowTotal r = p.rowMin[r] := by
  obtain ⟨o, y, hends, heq⟩ := p.ends_solveWith b monitor x
  rw [Finds, heq] at h
  cases hends with
  | found hreaches hfound =>
    cases h
    exact hreaches.explores.rowTotal_eq hfound r
  | blocked | stopped | exhausted => cases h

/-- A search that a check stands before finds nothing that the search itself does not find. -/
theorem Problem.finds_of_guarded {p : Problem m n} {covers : Bool} {b : Branching}
    {monitor : TreeMonitor σ} {x : σ} {a : Assignment m n}
    (h : (if covers then p.solveWith b monitor x else (.infeasible {}, x)).1.result =
      .feasible a) : covers = true ∧ p.Finds b monitor x a := by
  cases covers with
  | true => exact ⟨rfl, h⟩
  | false => cases h

namespace Solution

/-- The units listed in a row of a solution. -/
def rowUnits (row : Bound × List (γ × Nat)) : Nat := (row.2.map (·.2)).sum

/-- Leaving out what is zero does not change a sum. -/
theorem sum_filterMap_pos {α : Type} (l : List α) (f : α → Nat) (label : α → γ) :
    ((l.filterMap fun x => if 0 < f x then some (label x, f x) else none).map (·.2)).sum =
      (l.map f).sum := by
  induction l with
  | nil => rfl
  | cons x rest ih =>
    by_cases hx : 0 < f x
    · simp only [List.filterMap_cons, if_pos hx, List.map_cons, List.sum_cons, ih]
    · simp only [List.filterMap_cons, if_neg hx, List.map_cons, List.sum_cons, ih]
      omega

/-- A row of a solution belongs to a required bound, and lists all units that the bound gets. -/
theorem exists_of_mem_rows {required : List Bound} {columns : List γ}
    {a : Assignment required.length columns.length} {row : Bound × List (γ × Nat)}
    (h : row ∈ (ofAssignment required columns a).rows) :
    ∃ r : Fin required.length, row.1 = required.get r ∧ rowUnits row = a.rowTotal r := by
  obtain ⟨r, -, rfl⟩ := List.mem_map.mp h
  exact ⟨r, rfl, sum_filterMap_pos _ _ _⟩

theorem ofOutcome_eq_ok_iff {required : List Bound} {columns : List γ}
    {o : Outcome required.length columns.length} {s : Solution γ} :
    ofOutcome required columns o = .ok s ↔
      ∃ a, o.result = .feasible a ∧ s = ofAssignment required columns a := by
  rw [ofOutcome]
  cases o.result with
  | feasible a =>
    constructor
    · intro h
      cases h
      exact ⟨a, rfl, rfl⟩
    · rintro ⟨_, ha, rfl⟩
      cases ha
      rfl
  | infeasible | unknown => simp

/-- There is a solution just when an assignment is found. -/
theorem isOk_ofOutcome_iff {required : List Bound} {columns : List γ}
    {o : Outcome required.length columns.length} :
    (ofOutcome required columns o).isOk = true ↔ ∃ a, o.result = .feasible a := by
  rw [ofOutcome]
  cases o.result with
  | feasible a => exact ⟨fun _ => ⟨a, rfl⟩, fun _ => rfl⟩
  | infeasible | unknown => simp [Except.isOk, Except.toBool]

/-- A solution that comes from a tight assignment gives its rows what they require. -/
theorem rowUnits_eq_min {required : List Bound} {columns : List γ}
    {a : Assignment required.length columns.length}
    (ha : ∀ r, a.rowTotal r = (Bound.minima required)[r]) {row : Bound × List (γ × Nat)}
    (h : row ∈ (ofAssignment required columns a).rows) : rowUnits row = row.1.min := by
  obtain ⟨r, hbound, hunits⟩ := exists_of_mem_rows h
  rw [hunits, ha, hbound, Bound.getElem_minima]

end Solution

namespace Taxonomy
variable {t : Taxonomy} {required : List Bound} {monitor : TreeMonitor σ} {x : σ}

/-- What a search over offered bounds finds, its matrix search has found. -/
theorem finds_of_matchWith {available : List Bound} {s : Solution Bound}
    (h : (t.matchWith required available monitor x).1 = .ok s) :
    t.coversMerged required available = true ∧
      ∃ a, (Problem.ofBounds t required available).Finds .smallestDomain monitor x a ∧
        s = .ofAssignment required available a := by
  obtain ⟨a, hresult, hs⟩ := Solution.ofOutcome_eq_ok_iff.mp h
  obtain ⟨hcovers, hfinds⟩ := Problem.finds_of_guarded hresult
  exact ⟨hcovers, a, hfinds, hs⟩

/-- What a search over instances finds, its matrix search has found. -/
theorem finds_of_matchInstancesWith {instances : List Instance} {s : Solution Instance}
    (h : (t.matchInstancesWith required instances monitor x).1 = .ok s) :
    t.coversInstances required instances = true ∧
      ∃ a, (Problem.ofInstances t required instances).Finds .smallestDomain monitor x a ∧
        s = .ofAssignment required instances a := by
  obtain ⟨a, hresult, hs⟩ := Solution.ofOutcome_eq_ok_iff.mp h
  obtain ⟨hcovers, hfinds⟩ := Problem.finds_of_guarded hresult
  exact ⟨hcovers, a, hfinds, hs⟩

end Taxonomy

/-- **What a search finds is tight.** Every row of the matrix gets its minimum and nothing besides,
so no row of a solution gets more than the maximum of its bound, be the columns bounds or
instances. -/
theorem solutions_tight :
    (∀ {m n : Nat} {σ : Type} (p : Problem m n) (b : Branching) (monitor : TreeMonitor σ) (x : σ)
        (a : Assignment m n), (p.solveWith b monitor x).1.result = .feasible a →
        ∀ r : Fin m, a.rowTotal r = p.rowMin[r]) ∧
      (∀ {σ : Type} (t : Taxonomy) (required available : List Bound) (monitor : TreeMonitor σ)
        (x : σ) (s : Solution Bound), (t.matchWith required available monitor x).1 = .ok s →
        ∀ row ∈ s.rows, (row.2.map (·.2)).sum = row.1.min ∧ (row.2.map (·.2)).sum ≤ row.1.max) ∧
      ∀ {σ : Type} (t : Taxonomy) (required : List Bound) (instances : List Instance)
        (monitor : TreeMonitor σ) (x : σ) (s : Solution Instance),
        (t.matchInstancesWith required instances monitor x).1 = .ok s →
        ∀ row ∈ s.rows, (row.2.map (·.2)).sum = row.1.min ∧ (row.2.map (·.2)).sum ≤ row.1.max := by
  refine ⟨fun p b monitor x a h => Problem.Finds.rowTotal_eq h, ?_, ?_⟩
  · intro σ t required available monitor x s h row hrow
    obtain ⟨-, a, hfinds, rfl⟩ := Taxonomy.finds_of_matchWith h
    have hunits := Solution.rowUnits_eq_min hfinds.rowTotal_eq hrow
    exact ⟨hunits, hunits.trans_le row.1.min_le_max⟩
  · intro σ t required instances monitor x s h row hrow
    obtain ⟨-, a, hfinds, rfl⟩ := Taxonomy.finds_of_matchInstancesWith h
    have hunits := Solution.rowUnits_eq_min hfinds.rowTotal_eq hrow
    exact ⟨hunits, hunits.trans_le row.1.min_le_max⟩

/-- One of two units asked for, where three are offered: the solution takes one. -/
theorem solutions_tight_of_spare :
    let cpu : Model := ⟨"cpu"⟩
    ∃ s, (Taxonomy.ofStatements []).solve [⟨cpu, 1, 2, by decide, by decide⟩]
        [⟨cpu, 0, 3, by decide, by decide⟩] = .ok s ∧ s.rows ≠ [] ∧
      ∀ row ∈ s.rows, (row.2.map (·.2)).sum = row.1.min ∧ (row.2.map (·.2)).sum ≤ row.1.max := by
  intro cpu
  cases h : (Taxonomy.ofStatements []).solve [⟨cpu, 1, 2, by decide, by decide⟩]
      [⟨cpu, 0, 3, by decide, by decide⟩] with
  | error e =>
    have hok : ((Taxonomy.ofStatements []).solve [⟨cpu, 1, 2, by decide, by decide⟩]
        [⟨cpu, 0, 3, by decide, by decide⟩]).isOk = true := by decide +kernel
    rw [h] at hok
    cases hok
  | ok s =>
    refine ⟨s, rfl, ?_, solutions_tight.2.1 _ _ _ _ _ s h⟩
    obtain ⟨-, a, -, rfl⟩ := Taxonomy.finds_of_matchWith h
    simp [Solution.ofAssignment]

end Provision
