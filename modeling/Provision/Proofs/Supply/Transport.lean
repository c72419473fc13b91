import Provision.Proofs.Matching.Exactness
import Provision.Proofs.Matching.Tightness
import Provision.Proofs.Supply.Accumulation

/-!
# Meeting requirements from offers

What it means for offers to meet requirements is a matter of a table of numbers, one for every
requirement and offer. The matching problem of some bounds is satisfied by just these tables, and
the refusal that comes before the search turns away no requirement that has one.

## Main definitions

* `Taxonomy.Meets t required available x`: the units `x r c` of offers meet the requirements.
* `Assignment.ofFn x`: a table as an assignment.
-/

namespace Provision
variable {m n : Nat} {σ : Type}

/-! ## Tables and assignments -/

namespace Assignment

/-- The assignment with the units of a table. -/
def ofFn (x : Fin m → Fin n → Nat) : Assignment m n :=
  ⟨Vector.ofFn fun k : Cell m n => x k.row k.col⟩

@[simp] theorem get_ofFn (x : Fin m → Fin n → Nat) (r : Fin m) (c : Fin n) :
    (ofFn x).get r c = x r c := by
  simp [ofFn, get]

theorem getElem_eq_get (a : Assignment m n) (k : Cell m n) : a.values[k] = a.get k.row k.col :=
  congrArg (fun j : Cell m n => a.values[j]) (Cell.of_row_col k).symm

theorem rowTotal_eq_sum (a : Assignment m n) (r : Fin m) : a.rowTotal r = ∑ c, a.get r c :=
  (Fin.sum_univ_def _).symm

theorem colTotal_eq_sum (a : Assignment m n) (c : Fin n) : a.colTotal c = ∑ r, a.get r c :=
  (Fin.sum_univ_def _).symm

/-- What it means to satisfy a problem that is given by rows and columns. -/
theorem satisfies_ofFn_iff {a : Assignment m n} {rowMin : Vector Nat m} {colMax : Vector Nat n}
    {upper : Fin m → Fin n → Nat} :
    a.Satisfies (.ofFn rowMin colMax upper) ↔ (∀ r c, a.get r c ≤ upper r c) ∧
      (∀ r, rowMin[r] ≤ ∑ c, a.get r c) ∧ ∀ c, ∑ r, a.get r c ≤ colMax[c] := by
  have hupper : ∀ k : Cell m n,
      (Problem.ofFn rowMin colMax upper).upper[k] = upper k.row k.col := by
    intro k
    simp only [Problem.ofFn, getElem_ofFn]
  simp only [Satisfies, hupper, getElem_eq_get, rowTotal_eq_sum, colTotal_eq_sum]
  constructor
  · rintro ⟨hcell, hlines⟩
    refine ⟨fun r c => ?_, hlines⟩
    have hk := hcell (Cell.of r c)
    rwa [Cell.row_of, Cell.col_of] at hk
  · rintro ⟨hcell, hlines⟩
    exact ⟨fun k => hcell k.row k.col, hlines⟩

end Assignment

namespace Taxonomy
variable {t : Taxonomy} {required available : List Bound}

/-- Units of offers that meet requirements. An offer gives units only to rows that it fits, no row
takes more of an offer than both bounds allow, every row gets its minimum, and no offer is used
up beyond its maximum. -/
structure Meets (t : Taxonomy) (required available : List Bound)
    (x : Fin required.length → Fin available.length → Nat) : Prop where
  fits : ∀ r c, t.isSubtype (available.get c).model (required.get r).model = false → x r c = 0
  cell : ∀ r c, x r c ≤ min (required.get r).max (available.get c).max
  row : ∀ r, (required.get r).min ≤ ∑ c, x r c
  col : ∀ c, ∑ r, x r c ≤ (available.get c).max

/-- The assignments that satisfy the problem of some bounds are the tables that meet them. -/
theorem satisfies_ofBounds_iff {a : Assignment required.length available.length} :
    a.Satisfies (.ofBounds t required available) ↔ t.Meets required available a.get := by
  rw [Problem.ofBounds, Assignment.satisfies_ofFn_iff]
  simp only [Bound.getElem_minima, Bound.getElem_maxima]
  constructor
  · rintro ⟨hupper, hrows, hcols⟩
    refine ⟨fun r c hfit => ?_, fun r c => ?_, hrows, hcols⟩
    · have hle := hupper r c
      rw [if_neg (hfit ▸ Bool.false_ne_true)] at hle
      exact Nat.le_zero.mp hle
    · refine Nat.le_trans (hupper r c) ?_
      by_cases hfit : t.isSubtype (available.get c).model (required.get r).model = true
      · rw [if_pos hfit]
      · rw [if_neg hfit]
        exact Nat.zero_le _
  · intro h
    refine ⟨fun r c => ?_, h.row, h.col⟩
    by_cases hfit : t.isSubtype (available.get c).model (required.get r).model = true
    · rw [if_pos hfit]
      exact h.cell r c
    · rw [if_neg hfit, h.fits r c (Bool.eq_false_iff.mpr hfit)]

/-- A table that meets the bounds is a satisfying assignment. -/
theorem Meets.satisfies {x : Fin required.length → Fin available.length → Nat}
    (h : t.Meets required available x) :
    (Assignment.ofFn x).Satisfies (.ofBounds t required available) := by
  rw [satisfies_ofBounds_iff]
  have hget : (Assignment.ofFn x).get = x := by
    funext r c
    exact Assignment.get_ofFn x r c
  rwa [hget]

/-! ## The refusal before the search -/

/-- The sum of the maxima of merged availability is that of the fitting offers, cut once. -/
theorem maxSum_mergedAvailability {row : Bound} (hrow : row ∈ required) :
    Bound.maxSum (t.mergedAvailability required available) row.model =
      min ((available.filter fun offer => t.isSubtype offer.model row.model).map
        (·.max)).sum Bound.threshold := by
  have hlabel : ∀ (l : List Bound) (x : Model),
      Bound.maxSum (l.map fun offer => { offer with model := x }) row.model =
        if x = row.model then (l.map (·.max)).sum else 0 := by
    intro l x
    induction l with
    | nil => simp
    | cons b rest ih =>
      rw [List.map_cons, Bound.maxSum_cons, ih, List.map_cons, List.sum_cons]
      by_cases hx : x = row.model
      · simp only [if_pos hx]
      · simp only [if_neg hx]
  rw [mergedAvailability, Bound.maxSum_accumulateByModel, Bound.maxSum_flatMap]
  simp only [hlabel]
  -- The model of the row is among the models once, and the other models contribute nothing.
  have hmem : row.model ∈ (KeySet.ofList (required.map (·.model))).toList :=
    KeySet.mem_ofList.mpr (List.mem_map_of_mem hrow)
  have hnodup : (KeySet.ofList (required.map (·.model))).toList.Nodup := Table.nodup_keys _
  rw [← List.sum_toFinset _ hnodup, Finset.sum_ite_eq_of_mem' _ _ _ (List.mem_toFinset.mpr hmem)]

/-- A row that is served takes no more than the maxima of the offers that fit it. -/
theorem Meets.min_le_sum {x : Fin required.length → Fin available.length → Nat}
    (h : t.Meets required available x) (r : Fin required.length) :
    (required.get r).min ≤
      ((available.filter fun offer => t.isSubtype offer.model (required.get r).model).map
        (·.max)).sum := by
  rw [sum_map_filter, ← Fin.sum_univ_fun_getElem]
  refine Nat.le_trans (h.row r) (Finset.sum_le_sum fun c _ => ?_)
  rw [← List.get_eq_getElem]
  by_cases hfit : t.isSubtype (available.get c).model (required.get r).model = true
  · rw [if_pos hfit]
    exact Nat.le_trans (h.cell r c) (Nat.min_le_right _ _)
  · rw [if_neg hfit, h.fits r c (Bool.eq_false_iff.mpr hfit)]

/-- Requirements that can be met are not refused. -/
theorem Meets.coversMerged {x : Fin required.length → Fin available.length → Nat}
    (h : t.Meets required available x) : t.coversMerged required available = true := by
  rw [Taxonomy.coversMerged, List.all_eq_true]
  intro row hrow
  have hnodup : ((t.mergedAvailability required available).map (·.model)).Nodup :=
    Bound.nodup_accumulateByModel _
  rw [decide_eq_true_eq, Bound.max_find?_of_nodup hnodup, maxSum_mergedAvailability hrow]
  refine Nat.le_min.mpr ⟨?_, Nat.le_trans row.min_le_max row.max_le_threshold⟩
  obtain ⟨r, hr, rfl⟩ := List.mem_iff_getElem.mp hrow
  exact h.min_le_sum ⟨r, hr⟩

/-! ## The search for units -/

/-- The outcome of a search over offered bounds is correct. -/
theorem searchWith_correct (t : Taxonomy) (required available : List Bound)
    (monitor : TreeMonitor σ) (y : σ) :
    match (t.searchWith required available monitor y).1.result with
    | .feasible a => t.Meets required available a.get
    | .infeasible => ∀ x, ¬t.Meets required available x
    | .unknown => ¬monitor.NeverTerminates := by
  have hcovers : ∀ a : Assignment required.length available.length,
      a.Satisfies (.ofBounds t required available) → t.coversMerged required available = true :=
    fun a ha => (satisfies_ofBounds_iff.mp ha).coversMerged
  have hcorrect := Problem.correct_guarded hcovers .smallestDomain monitor y
  rw [← searchWith] at hcorrect
  split at hcorrect
  · next heq =>
    rw [heq]
    exact satisfies_ofBounds_iff.mp hcorrect
  · next heq =>
    rw [heq]
    exact fun x hx => hcorrect _ hx.satisfies
  · next heq =>
    rw [heq]
    exact hcorrect

/-- Offers support requirements just when they can meet them. -/
theorem supports_iff :
    t.supports required available = true ↔ ∃ x, t.Meets required available x := by
  rw [supports, solve, matchWith, Solution.isOk_ofOutcome_iff, searchWith,
    Problem.exists_feasible_guarded_iff (fun a ha => (satisfies_ofBounds_iff.mp ha).coversMerged) _
      (Monitor.neverTerminates_idle _)]
  exact ⟨fun ⟨a, ha⟩ => ⟨a.get, satisfies_ofBounds_iff.mp ha⟩, fun ⟨x, hx⟩ => ⟨_, hx.satisfies⟩⟩

/-- **Matching offers with requirements is exact.** There is a solution just when some table of
units meets the requirements; the solution lists such a table, row by row, each row with the offers
that give it at least one unit, in their order; and the refusal before the search turns nothing away
that could be met. -/
theorem solve_exact (t : Taxonomy) (required available : List Bound) :
    ((t.solve required available).isOk = true ↔ ∃ x, t.Meets required available x) ∧
      (∀ s, t.solve required available = .ok s → ∃ x, t.Meets required available x ∧
        s.rows = (List.finRange required.length).map fun r =>
          (required.get r, (List.finRange available.length).filterMap fun c =>
            if 0 < x r c then some (available.get c, x r c) else none)) ∧
      ((∃ x, t.Meets required available x) → t.coversMerged required available = true) := by
  have hcorrect := t.searchWith_correct required available (.idle TreeMonitor.idleName) ()
  rw [solve, matchWith, Solution.ofOutcome]
  refine ⟨?_, ?_, ?_⟩
  · cases hresult : (t.searchWith required available (.idle TreeMonitor.idleName) ()).1.result with
    | feasible a =>
      rw [hresult] at hcorrect
      exact ⟨fun _ => ⟨a.get, hcorrect⟩, fun _ => rfl⟩
    | infeasible =>
      rw [hresult] at hcorrect
      constructor
      · intro h
        cases h
      · rintro ⟨x, hx⟩
        exact absurd hx (hcorrect x)
    | unknown =>
      rw [hresult] at hcorrect
      exact absurd (Monitor.neverTerminates_idle _) hcorrect
  · intro s hs
    obtain ⟨a, hresult, rfl⟩ := Solution.ofOutcome_eq_ok_iff.mp hs
    rw [hresult] at hcorrect
    exact ⟨a.get, hcorrect, rfl⟩
  · rintro ⟨x, hx⟩
    exact hx.coversMerged

end Taxonomy

end Provision
