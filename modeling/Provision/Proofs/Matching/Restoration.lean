import Mathlib.Algebra.BigOperators.Group.List.Basic
import Provision.Proofs.Matching.Sums

/-!
# What backtracking restores

Of a change the trail keeps no more than the interval that the cell held before. Taking back the
changes of a frame adjusts the sums and the number of cells that are not fixed once more, so that it
leads to a consistent state, and a consistent state is determined by its intervals. So the state
comes back as a whole.

A sequence of operations opens frames, changes cells and closes frames as it pleases. Openings and
closings match as brackets do: a closing belongs to the last opening that is not closed yet. None of
the results asks whether a change narrows its cell.

## Main definitions

* `Workspace.Recalls w v`: the changes recorded on the way from `w` to `v` lead back.
* `Edit`, `Workspace.editAll`: operations on a workspace, one after the other.
* `Edit.Balanced es`: frames are closed in `es` just when they are opened in it.
* `Edit.Opens before es`: the frame on top after `es` was opened after `before`.

## Main results

* `Workspace.backtrack_restores`: closing a frame brings back the workspace it was opened in.
-/

namespace Provision
variable {m n : Nat}

/-! ## Changes that lead back -/

theorem State.undo_append (s : State m n) (xs ys : List (Change m n)) :
    s.undo (xs ++ ys) = (s.undo xs).undo ys :=
  List.foldl_append

/-- Giving a cell its interval back undoes a change. -/
theorem State.Consistent.set_set {s : State m n} (h : s.Consistent) (k : Cell m n)
    (d : Interval Nat) : (s.set k d).set k s.domains[k] = s := by
  refine ((h.set k d).set k s.domains[k]).ext h ?_
  rw [domains_set, domains_set, put_put, put_getElem_self]

theorem State.Consistent.backtrack {w : Workspace m n} (h : w.state.Consistent) :
    w.backtrack.state.Consistent := by
  rw [Workspace.backtrack, Workspace.backtrack?]
  cases w.trail.below with
  | nil => exact h
  | cons frame frames => exact h.undo w.trail.top

namespace Workspace
variable {u v w : Workspace m n}

/-- The changes recorded since lead back to the very state there was before. -/
def Recalls (w v : Workspace m n) : Prop :=
  ∃ changes, v.trail = ⟨changes ++ w.trail.top, w.trail.below⟩ ∧ v.state.undo changes = w.state

namespace Recalls

theorem refl (w : Workspace m n) : w.Recalls w := ⟨[], rfl, rfl⟩

theorem trans (h : u.Recalls v) (h' : v.Recalls w) : u.Recalls w := by
  obtain ⟨xs, hxs, hu⟩ := h
  obtain ⟨ys, hys, hv⟩ := h'
  refine ⟨ys ++ xs, ?_, ?_⟩
  · rw [hys, hxs, List.append_assoc]
  · rw [State.undo_append, hv, hu]

theorem narrow (hw : w.state.Consistent) (k : Cell m n) (d : Interval Nat) :
    w.Recalls (w.narrow k d) :=
  ⟨[⟨k, w.domain k⟩], rfl, hw.set_set k d⟩

/-- Closing a frame takes back what was recorded in it. -/
theorem backtrack?_eq (h : w.pushFrame.Recalls v) : v.backtrack? = some w := by
  obtain ⟨changes, htrail, hundo⟩ := h
  simp only [pushFrame, Trail.pushFrame, List.append_nil] at htrail hundo
  rw [backtrack?, htrail, hundo]

theorem backtrack_eq (h : w.pushFrame.Recalls v) : v.backtrack = w := by
  rw [backtrack, h.backtrack?_eq, Option.getD_some]

end Recalls

theorem backtrack?_eq_none_iff : w.backtrack? = none ↔ w.trail.isEmpty = true := by
  rw [backtrack?, Trail.isEmpty]
  cases w.trail.below <;> simp

end Workspace

/-! ## Operations -/

/-- The operations on a workspace. -/
inductive Edit (m n : Nat) where
  | pushFrame
  | narrow (k : Cell m n) (d : Interval Nat)
  | backtrack

namespace Edit
variable {es es' before before' : List (Edit m n)}

/-- Frames are closed just when they were opened in the same sequence. -/
inductive Balanced : List (Edit m n) → Prop
  | nil : Balanced []
  | narrow (k : Cell m n) (d : Interval Nat) : Balanced [.narrow k d]
  | frame {es : List (Edit m n)} (h : Balanced es) : Balanced (.pushFrame :: es ++ [.backtrack])
  | append {es es' : List (Edit m n)} (h : Balanced es) (h' : Balanced es') : Balanced (es ++ es')

/-- The frame on top after a sequence is the one opened after `before`: what follows is balanced. -/
def Opens (before es : List (Edit m n)) : Prop :=
  ∃ inner, Balanced inner ∧ es = before ++ .pushFrame :: inner

/-- By how much an operation raises the number of open frames. -/
def rise : Edit m n → Int
  | .pushFrame => 1
  | .narrow .. => 0
  | .backtrack => -1

/-- Balanced operations close what they open, and not before it is opened. -/
theorem Balanced.rise_suffix (h : Balanced es) :
    (es.map rise).sum = 0 ∧ ∀ rest, rest <:+ es → (rest.map rise).sum ≤ 0 := by
  induction h with
  | nil => simp
  | narrow k d =>
    refine ⟨rfl, fun rest hrest => ?_⟩
    rcases List.suffix_cons_iff.mp hrest with rfl | hrest
    · exact Int.le_refl 0
    · rw [List.suffix_nil.mp hrest]
      exact Int.le_refl 0
  | frame h ih =>
    refine ⟨by simp [rise, ih.1], fun rest hrest => ?_⟩
    rcases List.suffix_concat_iff.mp hrest with rfl | ⟨rest, rfl, hopen⟩
    · exact Int.le_refl 0
    rcases List.suffix_cons_iff.mp hopen with rfl | hinner
    · simp [rise, ih.1]
    · have hle := ih.2 rest hinner
      simp only [List.map_append, List.sum_append, List.map_cons, List.map_nil, List.sum_cons,
        List.sum_nil, rise]
      omega
  | append h h' ih ih' =>
    refine ⟨by simp [ih.1, ih'.1], fun rest hrest => ?_⟩
    rcases List.suffix_or_suffix_of_suffix hrest (List.suffix_append _ _) with hlast | ⟨rest, rfl⟩
    · exact ih'.2 _ hlast
    · have hle := ih.2 rest (List.suffix_append_self_iff.mp hrest)
      rw [List.map_append, List.sum_append, ih'.1]
      omega

/-- A closing belongs to one opening. -/
theorem Opens.unique (h : Opens before es) (h' : Opens before' es) : before = before' := by
  obtain ⟨inner, hinner, rfl⟩ := h
  obtain ⟨inner', hinner', heq⟩ := h'
  -- An opening with balanced operations after it is no end of balanced operations.
  have hnot : ∀ {xs ys : List (Edit m n)}, Balanced xs → Balanced ys →
      ¬.pushFrame :: xs <:+ ys := by
    intro xs ys hxs hys hsuffix
    have hle := hys.rise_suffix.2 _ hsuffix
    rw [List.map_cons, List.sum_cons, hxs.rise_suffix.1, rise] at hle
    omega
  have hends : .pushFrame :: inner <:+ before' ++ .pushFrame :: inner' := ⟨before, heq⟩
  rcases List.suffix_or_suffix_of_suffix hends (List.suffix_append _ _) with hle | hle
  · rcases List.suffix_cons_iff.mp hle with hsame | hle
    · rw [hsame] at heq
      exact List.append_cancel_right heq
    · exact absurd hle (hnot hinner hinner')
  · rcases List.suffix_cons_iff.mp hle with hsame | hle
    · rw [hsame] at heq
      exact List.append_cancel_right heq
    · exact absurd hle (hnot hinner' hinner)

end Edit

namespace Workspace
variable {w : Workspace m n} {es before : List (Edit m n)}

/-- Make an operation. Without a frame to close, nothing is done. -/
def edit (w : Workspace m n) : Edit m n → Workspace m n
  | .pushFrame => w.pushFrame
  | .narrow k d => w.narrow k d
  | .backtrack => w.backtrack

/-- Make operations one after the other. -/
def editAll (w : Workspace m n) (es : List (Edit m n)) : Workspace m n := es.foldl edit w

theorem editAll_append (w : Workspace m n) (es es' : List (Edit m n)) :
    w.editAll (es ++ es') = (w.editAll es).editAll es' :=
  List.foldl_append

theorem editAll_concat (w : Workspace m n) (es : List (Edit m n)) (e : Edit m n) :
    w.editAll (es ++ [e]) = (w.editAll es).edit e :=
  editAll_append w es [e]

theorem consistent_edit (hw : w.state.Consistent) (e : Edit m n) : (w.edit e).state.Consistent := by
  cases e with
  | pushFrame => exact hw
  | narrow k d => exact hw.set k d
  | backtrack => exact hw.backtrack

theorem consistent_editAll (hw : w.state.Consistent) (es : List (Edit m n)) :
    (w.editAll es).state.Consistent := by
  induction es generalizing w with
  | nil => exact hw
  | cons e rest ih => exact ih (consistent_edit hw e)

/-- **Balanced operations leave the frames alone**, and what they change is recorded on top. -/
theorem recalls_editAll (hw : w.state.Consistent) (h : Edit.Balanced es) :
    w.Recalls (w.editAll es) := by
  induction h generalizing w with
  | nil => exact .refl w
  | narrow k d => exact .narrow hw k d
  | @frame es _ ih =>
    have hclosed : (w.pushFrame.editAll es).backtrack = w :=
      Recalls.backtrack_eq (ih (w := w.pushFrame) hw)
    have heq : w.editAll (.pushFrame :: es ++ [.backtrack]) = w := by
      rw [editAll_append]
      exact hclosed
    rw [heq]
    exact .refl w
  | append _ _ ih ih' =>
    rw [editAll_append]
    exact (ih hw).trans (ih' (consistent_editAll hw _))

/-- Closing the frame on top brings back the workspace it was opened in. -/
theorem backtrack?_editAll (hw : w.state.Consistent) (h : Edit.Opens before es) :
    (w.editAll es).backtrack? = some (w.editAll before) := by
  obtain ⟨inner, hinner, rfl⟩ := h
  rw [editAll_append]
  have hbefore : (w.editAll before).pushFrame.state.Consistent := consistent_editAll hw before
  exact (recalls_editAll hbefore hinner).backtrack?_eq

/-- After any operations a frame is open just when there is an opening that is not closed yet. -/
theorem isEmpty_or_opens (hw : w.state.Consistent) (hempty : w.trail.isEmpty = true)
    (es : List (Edit m n)) :
    (w.editAll es).trail.isEmpty = true ∨ ∃ before, Edit.Opens before es := by
  rcases List.eq_nil_or_concat' es with rfl | ⟨es, e, rfl⟩
  · exact .inl hempty
  rw [editAll_concat]
  cases e with
  | pushFrame => exact .inr ⟨es, [], .nil, rfl⟩
  | narrow k d =>
    rcases isEmpty_or_opens hw hempty es with h | ⟨before, inner, hinner, rfl⟩
    · exact .inl h
    · exact .inr ⟨before, inner ++ [.narrow k d], hinner.append (.narrow k d), by simp⟩
  | backtrack =>
    rcases isEmpty_or_opens hw hempty es with h | ⟨before, inner, hinner, rfl⟩
    · refine .inl ?_
      rw [edit, backtrack, backtrack?_eq_none_iff.mpr h]
      exact h
    · -- The frame is closed, so that the one around it is on top, if there is one.
      have hclosed : (w.editAll (before ++ .pushFrame :: inner)).backtrack = w.editAll before := by
        rw [backtrack, backtrack?_editAll hw ⟨inner, hinner, rfl⟩, Option.getD_some]
      rw [edit, hclosed]
      rcases isEmpty_or_opens hw hempty before with h | ⟨outer, inner', hinner', rfl⟩
      · exact .inl h
      · exact .inr ⟨outer, inner' ++ (.pushFrame :: inner ++ [.backtrack]),
          hinner'.append hinner.frame, by simp⟩
termination_by es.length

/-- **Backtracking restores the exact workspace.** After any operations on the workspace of the
root, there is either no open frame, and then backtracking fails and changes nothing; or there is
one, it was opened after some of the operations and after no others, and backtracking succeeds and
leads to the workspace there was then, with its state and its trail. -/
theorem backtrack_restores (p : Problem m n) (es : List (Edit m n)) :
    let w := (root p).editAll es
    (w.trail.isEmpty = true ∧ (∀ before, ¬Edit.Opens before es) ∧
      w.backtrack? = none ∧ w.backtrack = w) ∨
    ∃ before, Edit.Opens before es ∧ (∀ before', Edit.Opens before' es → before' = before) ∧
      w.trail.isEmpty = false ∧
      w.backtrack? = some ((root p).editAll before) ∧ w.backtrack = (root p).editAll before := by
  intro w
  have hroot : (root p).state.Consistent := State.consistent_root p
  rcases isEmpty_or_opens hroot rfl es with h | ⟨before, hopens⟩
  · have hnone : w.backtrack? = none := backtrack?_eq_none_iff.mpr h
    refine .inl ⟨h, fun before hopens => ?_, hnone, by rw [backtrack, hnone, Option.getD_none]⟩
    rw [backtrack?_editAll hroot hopens] at hnone
    cases hnone
  · have hsome : w.backtrack? = some ((root p).editAll before) := backtrack?_editAll hroot hopens
    refine .inr ⟨before, hopens, fun _ h => h.unique hopens, ?_, hsome,
      by rw [backtrack, hsome, Option.getD_some]⟩
    cases h : w.trail.isEmpty with
    | false => rfl
    | true =>
      rw [backtrack?_eq_none_iff.mpr h] at hsome
      cases hsome

end Workspace

end Provision
