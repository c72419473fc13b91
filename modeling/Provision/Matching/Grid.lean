import Provision.Numbers

/-!
# Cells of a matrix

The cells of an `m × n` matrix are numbered row by row. The number of a cell determines its row and
its column, and the other way round.
-/

namespace Provision

/-- A cell of an `m × n` matrix, by its number. -/
abbrev Cell (m n : Nat) := Fin (m * n)

namespace Cell
variable {m n : Nat}

/-- The cell in a row and a column. -/
def of (r : Fin m) (c : Fin n) : Cell m n :=
  ⟨r * n + c, by
    have h : (r + 1) * n ≤ m * n := Nat.mul_le_mul_right n r.isLt
    rw [Nat.add_mul, Nat.one_mul] at h
    have := c.isLt
    omega⟩

/-- A matrix with a cell has a column. -/
theorem cols_pos (k : Cell m n) : 0 < n := by
  have := k.isLt
  rcases Nat.eq_zero_or_pos n with rfl | h
  · simp at this
  · exact h

/-- The row of a cell. -/
def row (k : Cell m n) : Fin m :=
  ⟨k / n, (Nat.div_lt_iff_lt_mul k.cols_pos).2 k.isLt⟩

/-- The column of a cell. -/
def col (k : Cell m n) : Fin n := ⟨k % n, Nat.mod_lt _ k.cols_pos⟩

@[simp] theorem row_of (r : Fin m) (c : Fin n) : (of r c).row = r := by
  apply Fin.ext
  simp only [row, of]
  rw [Nat.add_comm, Nat.add_mul_div_right _ _ (Nat.zero_lt_of_lt c.isLt),
    Nat.div_eq_of_lt c.isLt, Nat.zero_add]

@[simp] theorem col_of (r : Fin m) (c : Fin n) : (of r c).col = c := by
  apply Fin.ext
  simp only [col, of]
  rw [Nat.add_comm, Nat.add_mul_mod_self_right, Nat.mod_eq_of_lt c.isLt]

@[simp] theorem of_row_col (k : Cell m n) : of k.row k.col = k := by
  apply Fin.ext
  simp only [row, col, of]
  rw [Nat.mul_comm]
  exact Nat.div_add_mod _ _

theorem of_inj {r r' : Fin m} {c c' : Fin n} : of r c = of r' c' ↔ r = r' ∧ c = c' :=
  ⟨fun h => ⟨by rw [← row_of r c, h, row_of], by rw [← col_of r c, h, col_of]⟩,
    fun h => by rw [h.1, h.2]⟩

/-- The cells of a row, from left to right. -/
def ofRow (r : Fin m) : List (Cell m n) := (List.finRange n).map (of r)

/-- The cells of a column, from top to bottom. -/
def ofCol (c : Fin n) : List (Cell m n) := (List.finRange m).map (of · c)

theorem mem_ofRow {r : Fin m} {k : Cell m n} : k ∈ ofRow r ↔ k.row = r := by
  simp only [ofRow, List.mem_map, List.mem_finRange, true_and]
  exact ⟨fun ⟨c, hc⟩ => hc ▸ row_of r c, fun h => ⟨k.col, h ▸ of_row_col k⟩⟩

theorem mem_ofCol {c : Fin n} {k : Cell m n} : k ∈ ofCol c ↔ k.col = c := by
  simp only [ofCol, List.mem_map, List.mem_finRange, true_and]
  exact ⟨fun ⟨r, hr⟩ => hr ▸ col_of r c, fun h => ⟨k.row, h ▸ of_row_col k⟩⟩

end Cell

end Provision
