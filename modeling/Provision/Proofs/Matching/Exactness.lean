import Provision.Proofs.Matching.Run

/-!
# Searches are exact

A search that ends on its own account gives the right answer, whatever its monitor does meanwhile:
an assignment that is found satisfies the problem, and without one there is none. A search gives no
answer only if its monitor asked for termination.
-/

namespace Provision
variable {m n : Nat} {σ : Type}

/-- Nothing may be placed on a cell that is not allowed. -/
theorem Assignment.Satisfies.eq_zero_of_not_isAllowed {a : Assignment m n} {p : Problem m n}
    (h : a.Satisfies p) {k : Cell m n} (hk : p.isAllowed k = false) : a.values[k] = 0 := by
  have hupper := h.1 k
  simp only [Problem.isAllowed, decide_eq_false_iff_not] at hk
  omega

/-- **The outcome of a search is correct**, for both ways of branching and under every monitor. -/
theorem Problem.solveWith_exact (p : Problem m n) (b : Branching) (monitor : TreeMonitor σ)
    (x : σ) :
    match (p.solveWith b monitor x).1.result with
    | .feasible a => a.Satisfies p ∧ ∀ k : Cell m n, p.isAllowed k = false → a.values[k] = 0
    | .infeasible => ∀ a : Assignment m n, ¬a.Satisfies p
    | .unknown => ∃ s y reason, p.Reaches b monitor x s y ∧
        (s.ask monitor y).1 = .terminate reason ∧
        (p.solveWith b monitor x).1.reason = .aborted reason := by
  obtain ⟨o, y, hends, heq⟩ := p.ends_solveWith b monitor x
  rw [heq]
  cases hends with
  | blocked h => exact not_satisfies_of_blocked_start h
  | found h hfound =>
    have hsatisfies := (h.explores.solved _ hfound).2.1
    exact ⟨hsatisfies, fun k hk => hsatisfies.eq_zero_of_not_isAllowed hk⟩
  | stopped h hfound hask => exact ⟨_, _, _, h, congrArg Prod.fst hask, rfl⟩
  | exhausted h hfound hask hstep => exact h.explores.not_satisfies_of_exhausted hfound hstep

end Provision
