import Provision.Matching.Statistics
import Provision.Matching.Trail

/-!
# Propagation

Two rules narrow the intervals of a search state. In a row, the upper ends must reach the minimum,
and the lower end of a cell rises to what the other upper ends leave of the minimum. In a column,
the lower ends must not pass the maximum, and the upper end of a cell drops to what the other lower
ends leave of the maximum. A round applies both rules everywhere; rounds follow one another until
one changes nothing, up to a fixed number.
-/

namespace Provision

/-- A workspace, and how many intervals have been narrowed. -/
structure Progress (m n : Nat) where
  work : Workspace m n
  narrowed : Nat

/-- The workspace as it was when a conflict was met. -/
structure Blocked (m n : Nat) where
  work : Workspace m n
  conflict : Conflict m n

/-- What comes of propagation. -/
abbrev Sweep (m n : Nat) := Except (Blocked m n) (Progress m n)

namespace Progress
variable {m n : Nat}

/-- Narrow a cell, unless no value is left. -/
def narrow (t : Progress m n) (k : Cell m n) : Option (Interval Nat) → Progress m n
  | none => t
  | some d => ⟨t.work.narrow k d, t.narrowed + 1⟩

/-- Raise the lower end of a cell in a row whose upper ends add up to `hiSum`. -/
def coverCell (hiSum least : Nat) (t : Progress m n) (k : Cell m n) : Progress m n :=
  let d := t.work.domain k
  let need := least - (hiSum - d.hi)
  if d.lo < need then t.narrow k (d.atLeast? need) else t

/-- Apply the rule of a row. -/
def coverRow (p : Problem m n) (t : Progress m n) (r : Fin m) : Sweep m n :=
  let least := p.rowMin[r]
  let hiSum := t.work.state.rowHi[r]
  if hiSum < least then .error ⟨t.work, .rowDeficit r⟩
  else if least ≤ t.work.state.rowLo[r] then .ok t
  else .ok ((p.allowedInRow r).foldl (coverCell hiSum least) t)

/-- Lower the upper end of a cell in a column whose lower ends add up to `loSum`. -/
def capCell (loSum most : Nat) (t : Progress m n) (k : Cell m n) : Progress m n :=
  let d := t.work.domain k
  let cap := most - (loSum - d.lo)
  if cap < d.hi then t.narrow k (d.atMost? cap) else t

/-- Apply the rule of a column. -/
def capCol (p : Problem m n) (t : Progress m n) (c : Fin n) : Sweep m n :=
  let most := p.colMax[c]
  let loSum := t.work.state.colLo[c]
  if most < loSum then .error ⟨t.work, .colExcess c⟩
  else .ok ((p.allowedInCol c).foldl (capCell loSum most) t)

/-! ### In machine words

What a row still needs is at most its minimum and what a column still allows is at most its maximum.
So both fit a word whenever the line's own number does. -/

theorem toNat_toUInt32_sub {total : Nat} (htotal : total < UInt32.size) (others : Nat) :
    (total - others).toUInt32.toNat = total - others := by
  apply Nat.mod_eq_of_lt
  exact Nat.lt_of_le_of_lt (Nat.sub_le total others) htotal

/-- The rule of a row may keep the need of a cell in a word. -/
theorem coverCell_eq_word {least : Nat} (hleast : least < UInt32.size) (hiSum : Nat)
    (t : Progress m n) (k : Cell m n) :
    t.coverCell hiSum least k =
      let d := t.work.domain k
      let others := hiSum - d.hi
      if least ≤ others then t
      else
        let need := (least - others).toUInt32.toNat
        if d.lo < need then t.narrow k (d.atLeast? need) else t := by
  simp only [coverCell, toNat_toUInt32_sub hleast]
  split
  · next hlt => rw [if_neg (by omega)]
  · simp

/-- The rule of a column may keep the cap of a cell in a word. -/
theorem capCell_eq_word {most : Nat} (hmost : most < UInt32.size) (loSum : Nat)
    (t : Progress m n) (k : Cell m n) :
    t.capCell loSum most k =
      let d := t.work.domain k
      let cap := most - (loSum - d.lo)
      if cap < d.hi then t.narrow k (d.atMost? cap.toUInt32.toNat) else t := by
  simp only [capCell, toNat_toUInt32_sub hmost]

end Progress

namespace Workspace
variable {m n : Nat}

/-- One round: the rules of all rows, then those of all columns. -/
def sweep (p : Problem m n) (w : Workspace m n) : Sweep m n :=
  (List.finRange m).foldlM (Progress.coverRow p) ⟨w, 0⟩ >>= fun t =>
    (List.finRange n).foldlM (Progress.capCol p) t

/-- The greatest number of rounds. -/
def maxRounds : Nat := 64

/-- Up to a number of rounds, ending with the first one that changes nothing. -/
def propagateFor (p : Problem m n) : Nat → Progress m n → Sweep m n
  | 0, t => .ok t
  | rounds + 1, t =>
    t.work.sweep p >>= fun t' =>
      if t'.narrowed = 0 then .ok ⟨t'.work, t.narrowed⟩
      else propagateFor p rounds ⟨t'.work, t.narrowed + t'.narrowed⟩

/-- Narrow a workspace by both rules. -/
def propagate (p : Problem m n) (w : Workspace m n) : Sweep m n :=
  propagateFor p maxRounds ⟨w, 0⟩

end Workspace

end Provision
