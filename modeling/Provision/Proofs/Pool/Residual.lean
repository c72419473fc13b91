import Provision.Proofs.Pool.Merging

/-!
# What is left of a pool

The difference of two pools says what is left of the second one when the first is taken away. It is
a pool exactly when the first pool is a part of the second, and then the two make up the second pool
again. Otherwise the least model that the first pool has more of is reported.

## Main definitions

* `Pool.residual a b`: the amounts of `b` that `a` leaves.
* `Pool.LeastExcess a b m`: `m` is the least model that `a` has more units of than `b`.

## Main results

* `Pool.residual_exact`: when the residual is a pool, what it is then, and what is reported if not.
-/

namespace Provision.Pool
variable {a b r : Pool} {m : Model}

/-- What is left of the second pool when the first is taken away from it. -/
def residual (a b : Pool) : Delta := (Delta.ofPool a).subtract (.ofPool b)

/-- Differences of counts are amounts, so that nothing is clamped. -/
@[simp] theorem amount_residual (a b : Pool) (m : Model) :
    (a.residual b).amount m = b.count m - a.count m := by
  have hfits : Amount.kind.Fits ((b.count m : Int) - a.count m) := by
    have ha := a.count_le_ceiling m
    have hb := b.count_le_ceiling m
    have hmin : Amount.kind.min ≤ -(Count.ceiling : Int) := by decide
    have hmax : (Count.ceiling : Int) ≤ Amount.kind.max := by decide
    unfold IntKind.Fits
    omega
  rw [residual, Delta.amount_subtract, Delta.amount_ofPool, Delta.amount_ofPool]
  exact IntKind.clamp_of_fits hfits

theorem amount_residual_neg_iff : (a.residual b).amount m < 0 ↔ b.count m < a.count m := by
  rw [amount_residual]
  omega

theorem isSubset_eq_false_iff : a.isSubset b = false ↔ ∃ m, b.count m < a.count m := by
  rw [← Bool.not_eq_true, isSubset_iff]
  simp

theorem isNegative_residual_iff : (a.residual b).isNegative = true ↔ a.isSubset b = false := by
  rw [Delta.isNegative_eq_true_iff, isSubset_eq_false_iff]
  simp only [amount_residual_neg_iff]

/-- The least model that the first pool has more units of. -/
def LeastExcess (a b : Pool) (m : Model) : Prop := Model.Least (fun m => b.count m < a.count m) m

theorem least_residual_iff :
    Model.Least ((a.residual b).amount · < 0) m ↔ a.LeastExcess b m := by
  simp only [amount_residual_neg_iff, LeastExcess]

/-- Either the first pool is a part of the second one, and the residual is a pool, or the least
model that it has more units of is reported. -/
theorem residual_cases (a b : Pool) :
    (a.isSubset b = true ∧ ∃ r, (a.residual b).toPool = .ok r) ∨
      a.isSubset b = false ∧ ∃ m, a.LeastExcess b m ∧
        (a.residual b).toPool = .error (.negativeCardinality m (b.count m - a.count m)) := by
  rcases (a.residual b).toPool_cases with ⟨hnonneg, hok⟩ | ⟨m, hm, herror⟩
  · refine .inl ⟨isSubset_iff.mpr fun m => ?_, _, hok⟩
    have hm := hnonneg m
    rw [amount_residual] at hm
    omega
  · have hleast := least_residual_iff.mp hm
    rw [amount_residual] at herror
    exact .inr ⟨isSubset_eq_false_iff.mpr ⟨m, hleast.holds⟩, m, hleast, herror⟩

theorem exists_residual_iff : (∃ r, (a.residual b).toPool = .ok r) ↔ a.isSubset b = true := by
  rcases residual_cases a b with ⟨hsubset, hok⟩ | ⟨hsubset, m, -, herror⟩
  · exact ⟨fun _ => hsubset, fun _ => hok⟩
  · simp [hsubset, herror]

theorem count_of_residual (h : (a.residual b).toPool = .ok r) (m : Model) :
    a.count m + r.count m = b.count m := by
  have hle := isSubset_iff.mp (exists_residual_iff.mp ⟨r, h⟩) m
  have hceiling := b.count_le_ceiling m
  rw [Delta.count_toPool h, amount_residual]
  omega

/-- A pool and what it leaves of another one make up the other one. -/
theorem exists_merge_residual (h : (a.residual b).toPool = .ok r) :
    ∃ s, merge [a, r] = .ok s ∧ ∀ m, s.count m = b.count m := by
  obtain ⟨s, hs⟩ := exists_merge [a, r]
  refine ⟨s, hs, fun m => ?_⟩
  have hceiling := b.count_le_ceiling m
  have hsum := count_of_residual h m
  have hcount := count_merge hs m
  simp only [List.map_cons, List.map_nil, List.sum_cons, List.sum_nil] at hcount
  omega

/-- **Subtraction leaves the exact residual.** It is a pool just when the first pool is a part of
the second one, and merged with the first pool it then has the counts of the second. Otherwise,
which is just when the difference has a negative amount, the least model that the first pool has
more units of is reported with the difference of its counts. -/
theorem residual_exact (a b : Pool) :
    ((∃ r, (a.residual b).toPool = .ok r) ↔ a.isSubset b = true) ∧
    (∀ r, (a.residual b).toPool = .ok r →
      ∃ s, merge [a, r] = .ok s ∧ ∀ m, s.count m = b.count m) ∧
    (a.isSubset b = false → ∃ m, a.LeastExcess b m ∧
      (a.residual b).toPool = .error (.negativeCardinality m (b.count m - a.count m))) ∧
    ((a.residual b).isNegative = true ↔ a.isSubset b = false) := by
  refine ⟨exists_residual_iff, fun r h => exists_merge_residual h, fun h => ?_,
    isNegative_residual_iff⟩
  rcases residual_cases a b with ⟨hsubset, -⟩ | ⟨-, herror⟩
  · rw [hsubset] at h
    cases h
  · exact herror

/-- A camera, and wheels of which none is needed, leave a camera and four wheels of a rover. The
rover has more of both than they have, and the cameras come first. -/
theorem residual_exact_rover :
    let camera : Model := ⟨"camera"⟩
    let wheel : Model := ⟨"wheel"⟩
    let part := Pool.ofEntries [(camera, 1), (wheel, 0)]
    let rover := Pool.ofEntries [(camera, 2), (wheel, 4)]
    let left := Pool.ofEntries [(camera, 1), (wheel, 4)]
    (part.residual rover).toPool = .ok left ∧
      (∃ s, merge [part, left] = .ok s ∧ ∀ m, s.count m = rover.count m) ∧
      rover.isSubset part = false ∧
      ∃ m, rover.LeastExcess part m ∧ (rover.residual part).toPool =
        .error (.negativeCardinality m (part.count m - rover.count m)) := by
  intro camera wheel part rover left
  have hleft : (part.residual rover).toPool = .ok left := by decide +kernel
  have hnot : rover.isSubset part = false := by decide
  exact ⟨hleft, (residual_exact part rover).2.1 left hleft, hnot,
    (residual_exact rover part).2.2.1 hnot⟩

end Provision.Pool
