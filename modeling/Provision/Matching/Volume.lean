import Provision.Matching.Branching
import Provision.Matching.Propagation

/-!
# Volumes

The volume of a box of intervals is the number of assignments in it. Narrowing a cell does not
increase it, and the two halves of a cell share it out. Propagation only narrows, and the changes it
records lead back to where it started.
-/

namespace Provision

/-- The number of points of a box. -/
def volume (box : List (Interval Nat)) : Nat := (box.map Interval.size).foldr (· * ·) 1

@[simp] theorem volume_nil : volume [] = 1 := rfl

@[simp] theorem volume_cons (d : Interval Nat) (box : List (Interval Nat)) :
    volume (d :: box) = d.size * volume box := rfl

theorem volume_pos (box : List (Interval Nat)) : 0 < volume box := by
  induction box with
  | nil => decide
  | cons d rest ih => exact Nat.mul_pos d.size_pos ih

/-- Replacing an interval scales the volume. -/
theorem volume_set {box : List (Interval Nat)} {i : Nat} (hi : i < box.length) (d : Interval Nat) :
    volume (box.set i d) * box[i].size = volume box * d.size := by
  induction box generalizing i with
  | nil => simp at hi
  | cons e rest ih =>
    cases i with
    | zero =>
      simp only [List.set_cons_zero, volume_cons, List.getElem_cons_zero]
      ac_rfl
    | succ i =>
      simp only [List.set_cons_succ, volume_cons, List.getElem_cons_succ]
      rw [Nat.mul_assoc, ih (by simpa using hi), ← Nat.mul_assoc]

variable {m n : Nat}

/-- The number of assignments within the intervals of a state. -/
def boxVolume (v : Vector (Interval Nat) (m * n)) : Nat := volume v.toList

theorem boxVolume_pos (v : Vector (Interval Nat) (m * n)) : 0 < boxVolume v := volume_pos _

theorem boxVolume_put (v : Vector (Interval Nat) (m * n)) (k : Cell m n) (d : Interval Nat) :
    boxVolume (put v k d) * v[k].size = boxVolume v * d.size := by
  have := volume_set (by simp : k.val < v.toList.length) d
  rw [boxVolume, toList_put]
  simpa [boxVolume, getElem_fin] using this

theorem boxVolume_put_le {v : Vector (Interval Nat) (m * n)} {k : Cell m n} {d : Interval Nat}
    (h : d ≤ v[k]) : boxVolume (put v k d) ≤ boxVolume v := by
  refine Nat.le_of_mul_le_mul_right ?_ v[k].size_pos
  rw [boxVolume_put]
  exact Nat.mul_le_mul_left _ (Interval.size_le_size h)

/-- The halves of a cell share out the volume. -/
theorem boxVolume_halves {v : Vector (Interval Nat) (m * n)} {k : Cell m n}
    {lower upper : Interval Nat} (h : v[k].halves? = some (lower, upper)) :
    boxVolume (put v k lower) + boxVolume (put v k upper) = boxVolume v := by
  refine Nat.eq_of_mul_eq_mul_right v[k].size_pos ?_
  rw [Nat.add_mul, boxVolume_put, boxVolume_put, ← Nat.mul_add, Interval.size_of_halves? h]

/-! ### Taking back changes -/

/-- The intervals after changes are taken back, the latest of which comes first. -/
def undoDomains (v : Vector (Interval Nat) (m * n)) (changes : List (Change m n)) :
    Vector (Interval Nat) (m * n) :=
  changes.foldl (fun v c => put v c.cell c.before) v

theorem State.domains_undo (s : State m n) (changes : List (Change m n)) :
    (s.undo changes).domains = undoDomains s.domains changes := by
  induction changes generalizing s with
  | nil => rfl
  | cons c rest ih => exact ih _

@[simp] theorem undoDomains_append (v : Vector (Interval Nat) (m * n)) (xs ys : List (Change m n)) :
    undoDomains v (xs ++ ys) = undoDomains (undoDomains v xs) ys :=
  List.foldl_append

/-- A workspace obtained from another one by narrowing: the changes recorded since lead back, and
the volume has not grown. -/
structure Workspace.NarrowsTo (w w' : Workspace m n) : Prop where
  recorded : ∃ changes, w'.trail = ⟨changes ++ w.trail.top, w.trail.below⟩ ∧
    undoDomains w'.state.domains changes = w.state.domains
  volume_le : boxVolume w'.state.domains ≤ boxVolume w.state.domains

namespace Workspace.NarrowsTo

theorem refl (w : Workspace m n) : w.NarrowsTo w :=
  ⟨⟨[], rfl, rfl⟩, Nat.le_refl _⟩

theorem trans {u v w : Workspace m n} (huv : u.NarrowsTo v) (hvw : v.NarrowsTo w) :
    u.NarrowsTo w := by
  obtain ⟨xs, hxs, hu⟩ := huv.recorded
  obtain ⟨ys, hys, hv⟩ := hvw.recorded
  refine ⟨⟨ys ++ xs, ?_, ?_⟩, Nat.le_trans hvw.volume_le huv.volume_le⟩
  · rw [hys, hxs, List.append_assoc]
  · rw [undoDomains_append, hv, hu]

theorem narrow {w : Workspace m n} {k : Cell m n} {d : Interval Nat} (h : d ≤ w.domain k) :
    w.NarrowsTo (w.narrow k d) := by
  refine ⟨⟨[⟨k, w.domain k⟩], rfl, ?_⟩, boxVolume_put_le h⟩
  simp only [undoDomains, Workspace.narrow, Workspace.domain, State.domains_set,
    List.foldl_cons, List.foldl_nil, put_put, put_getElem_self]

end Workspace.NarrowsTo

/-! ### Propagation only narrows -/

/-- The workspace that a sweep ends with, in a conflict or not. -/
def Sweep.work : Sweep m n → Workspace m n
  | .ok t => t.work
  | .error e => e.work

/-- Steps that only narrow, made one after the other, only narrow. -/
theorem Sweep.narrowsTo_foldlM {α : Type} {f : Progress m n → α → Sweep m n}
    (hf : ∀ (t : Progress m n) a, t.work.NarrowsTo (Sweep.work (f t a))) (as : List α)
    (t : Progress m n) : t.work.NarrowsTo (Sweep.work (as.foldlM f t)) := by
  induction as generalizing t with
  | nil => exact .refl _
  | cons a rest ih =>
    rw [List.foldlM_cons]
    have ha := hf t a
    cases h : f t a with
    | error e => rw [h] at ha; exact ha
    | ok t' => rw [h] at ha; exact ha.trans (ih t')

theorem Progress.narrowsTo_foldl {α : Type} {f : Progress m n → α → Progress m n}
    (hf : ∀ (t : Progress m n) a, t.work.NarrowsTo (f t a).work) (as : List α)
    (t : Progress m n) : t.work.NarrowsTo (as.foldl f t).work := by
  induction as generalizing t with
  | nil => exact .refl _
  | cons a rest ih => exact (hf t a).trans (ih _)

namespace Progress

theorem narrowsTo_narrow {t : Progress m n} {k : Cell m n} {d : Option (Interval Nat)}
    (h : ∀ i, d = some i → i ≤ t.work.domain k) : t.work.NarrowsTo (t.narrow k d).work := by
  cases d with
  | none => exact .refl _
  | some i => exact .narrow (h i rfl)

theorem narrowsTo_coverCell (hiSum least : Nat) (t : Progress m n) (k : Cell m n) :
    t.work.NarrowsTo (t.coverCell hiSum least k).work := by
  unfold coverCell
  simp only
  split
  · exact narrowsTo_narrow fun i hi => Interval.atLeast?_le hi
  · exact .refl _

theorem narrowsTo_coverRow (p : Problem m n) (t : Progress m n) (r : Fin m) :
    t.work.NarrowsTo (Sweep.work (t.coverRow p r)) := by
  unfold coverRow
  simp only
  split
  · exact .refl _
  · split
    · exact .refl _
    · exact narrowsTo_foldl (narrowsTo_coverCell _ _) _ t

theorem narrowsTo_capCell (loSum most : Nat) (t : Progress m n) (k : Cell m n) :
    t.work.NarrowsTo (t.capCell loSum most k).work := by
  unfold capCell
  simp only
  split
  · exact narrowsTo_narrow fun i hi => Interval.atMost?_le hi
  · exact .refl _

theorem narrowsTo_capCol (p : Problem m n) (t : Progress m n) (c : Fin n) :
    t.work.NarrowsTo (Sweep.work (t.capCol p c)) := by
  unfold capCol
  simp only
  split
  · exact .refl _
  · exact narrowsTo_foldl (narrowsTo_capCell _ _) _ t

end Progress

namespace Workspace

theorem narrowsTo_sweep (p : Problem m n) (w : Workspace m n) :
    w.NarrowsTo (Sweep.work (w.sweep p)) := by
  rw [sweep]
  have h := Sweep.narrowsTo_foldlM (Progress.narrowsTo_coverRow p) (List.finRange m) ⟨w, 0⟩
  cases hr : (List.finRange m).foldlM (Progress.coverRow p) (⟨w, 0⟩ : Progress m n) with
  | error e => rw [hr] at h; exact h
  | ok t =>
    rw [hr] at h
    exact h.trans (Sweep.narrowsTo_foldlM (Progress.narrowsTo_capCol p) (List.finRange n) t)

theorem narrowsTo_propagateFor (p : Problem m n) (rounds : Nat) (t : Progress m n) :
    t.work.NarrowsTo (Sweep.work (propagateFor p rounds t)) := by
  induction rounds generalizing t with
  | zero => exact .refl _
  | succ rounds ih =>
    rw [propagateFor]
    have h := narrowsTo_sweep p t.work
    cases hs : t.work.sweep p with
    | error e => rw [hs] at h; exact h
    | ok t' =>
      rw [hs] at h
      simp only [bind, Except.bind]
      split
      · exact h
      · exact h.trans (ih ⟨t'.work, t.narrowed + t'.narrowed⟩)

/-- Propagation only narrows, even when it ends in a conflict. -/
theorem narrowsTo_propagate (p : Problem m n) (w : Workspace m n) :
    w.NarrowsTo (Sweep.work (w.propagate p)) :=
  narrowsTo_propagateFor p maxRounds ⟨w, 0⟩

end Workspace

end Provision
