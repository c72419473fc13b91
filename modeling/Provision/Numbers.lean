/-!
# Numbers in a line

The sum of a list of natural numbers, and vectors that are read and written at positions of their
own length. Such a position carries its bound, so neither access asks for a proof.
-/

namespace Provision
variable {α : Type} {n : Nat}

/-- Looking up a position in range needs no proof. -/
instance instGetElemFin : GetElem (Vector α n) (Fin n) α fun _ _ => True where
  getElem v i _ := v.get i

/-- The sum of some numbers. -/
def sumOf (l : List Nat) : Nat := l.foldr (· + ·) 0

@[simp] theorem sumOf_nil : sumOf [] = 0 := rfl

@[simp] theorem sumOf_cons (k : Nat) (l : List Nat) : sumOf (k :: l) = k + sumOf l := rfl

theorem sumOf_filter_le (keep : α → Bool) (f : α → Nat) (l : List α) :
    sumOf ((l.filter keep).map f) ≤ sumOf (l.map f) := by
  induction l with
  | nil => exact Nat.le_refl 0
  | cons x rest ih => cases hx : keep x <;> simp [hx] <;> omega

/-- A sum goes down by what a member contributes that is dropped. -/
theorem sumOf_filter_add_le {keep : α → Bool} (f : α → Nat) {l : List α} {a : α} (ha : a ∈ l)
    (hdrop : keep a = false) : sumOf ((l.filter keep).map f) + f a ≤ sumOf (l.map f) := by
  induction l with
  | nil => cases ha
  | cons x rest ih =>
    rcases List.mem_cons.mp ha with rfl | ha
    · have hle := sumOf_filter_le keep f rest
      simp [hdrop]
      omega
    · have hle := ih ha
      cases hx : keep x <;> simp [hx] <;> omega

/-- Write a position of a vector. -/
def put (v : Vector α n) (i : Fin n) (x : α) : Vector α n := v.set i x

/-- A position is looked up by its number. -/
theorem getElem_fin (v : Vector α n) (i : Fin n) : v[i] = v[i.val] := rfl

@[simp] theorem getElem_put (v : Vector α n) (i j : Fin n) (x : α) :
    (put v i x)[j] = if j = i then x else v[j] := by
  simp only [getElem_fin, put, Vector.getElem_set, Fin.ext_iff, eq_comm]

@[simp] theorem put_put (v : Vector α n) (i : Fin n) (x y : α) :
    put (put v i x) i y = put v i y := by
  simp only [put, Vector.set_set]

@[simp] theorem put_getElem_self (v : Vector α n) (i : Fin n) : put v i v[i] = v := by
  simp only [put, getElem_fin, Vector.set_getElem_self]

theorem toList_put (v : Vector α n) (i : Fin n) (x : α) :
    (put v i x).toList = v.toList.set i x := by
  simp only [put, Vector.toList_set]

@[simp] theorem getElem_ofFn (f : Fin n → α) (i : Fin n) : (Vector.ofFn f)[i] = f i := by
  simp only [getElem_fin, Vector.getElem_ofFn]

@[simp] theorem getElem_map {β : Type} (f : α → β) (v : Vector α n) (i : Fin n) :
    (v.map f)[i] = f v[i] := by
  simp only [getElem_fin, Vector.getElem_map]

@[simp] theorem getElem_replicate (x : α) (i : Fin n) : (Vector.replicate n x)[i] = x := by
  simp only [getElem_fin, Vector.getElem_replicate]

end Provision
