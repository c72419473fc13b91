import Provision.Proofs.Matching.Run

/-!
# Workspaces that arise

A workspace arises from that of the root by opening frames, narrowing cells and backtracking, in
any order and any number of times. Whatever propagation and the steps of a search do to a workspace
comes down to these three, so every workspace of a run arises.

The state of a workspace that arises is *sound*: it keeps the sums and the count that its intervals
give when they are computed afresh, and no interval leaves the range that the upper bound of its
cell allows. Backtracking brings back intervals that were recorded earlier, so soundness of a
workspace asks the same of everything on its trail.

## Main definitions

* `State.ofDomains v`: the state of a box, with all that is kept computed afresh.
* `State.Sound p s`, `Workspace.Sound p w`: the invariants.
* `Workspace.Arises p w`: the operations on a workspace lead from the root to `w`.

## Main results

* `Workspace.Arises.sound`: what arises is sound.
* `Problem.Reaches.arises`: the workspaces of a run arise.
-/

namespace Provision
variable {m n : Nat} {p : Problem m n}

/-! ## Computing afresh -/

namespace State

/-- The state of a box of intervals, with everything that is kept beside them computed afresh. -/
def ofDomains (v : Box m n) : State m n where
  domains := v
  rowHi := Vector.ofFn fun r => sumOf ((Cell.ofRow r).map fun k : Cell m n => v[k].hi)
  rowLo := Vector.ofFn fun r => sumOf ((Cell.ofRow r).map fun k : Cell m n => v[k].lo)
  colLo := Vector.ofFn fun c => sumOf ((Cell.ofCol c).map fun k : Cell m n => v[k].lo)
  unfixed := countUnfixed v

theorem consistent_ofDomains (v : Box m n) : (ofDomains v).Consistent where
  rowHi r := by simp [ofDomains, Cell.sum_ofRow]
  rowLo r := by simp [ofDomains, Cell.sum_ofRow]
  colLo c := by simp [ofDomains, Cell.sum_ofCol]
  unfixed := rfl

theorem Consistent.eq_ofDomains {s : State m n} (h : s.Consistent) : s = ofDomains s.domains :=
  h.ext (consistent_ofDomains s.domains) rfl

/-! ## Sound states -/

/-- What is kept agrees with the intervals, and every cell keeps to its upper bound. -/
structure Sound (p : Problem m n) (s : State m n) : Prop where
  consistent : s.Consistent
  within : ∀ k : Cell m n, s.domains[k] ≤ .upTo p.upper[k]

theorem sound_root (p : Problem m n) : (root p).Sound p where
  consistent := consistent_root p
  within k := by
    rw [domains_root]
    exact ⟨Nat.le_refl _, Nat.le_refl _⟩

theorem Sound.set {s : State m n} (h : s.Sound p) {k : Cell m n} {d : Interval Nat}
    (hd : d ≤ .upTo p.upper[k]) : (s.set k d).Sound p where
  consistent := h.consistent.set k d
  within j := by
    rw [domains_set, getElem_put]
    by_cases hj : j = k
    · rw [if_pos hj]
      exact hj ▸ hd
    · rw [if_neg hj]
      exact h.within j

end State

/-- What a change brings back keeps to the upper bound of its cell. -/
def Change.Within (p : Problem m n) (c : Change m n) : Prop := c.before ≤ .upTo p.upper[c.cell]

theorem State.Sound.undo {s : State m n} (h : s.Sound p) {changes : List (Change m n)}
    (hchanges : ∀ c ∈ changes, c.Within p) : (s.undo changes).Sound p := by
  induction changes generalizing s with
  | nil => exact h
  | cons c rest ih =>
    exact ih (h.set (hchanges c List.mem_cons_self)) fun c' hc' =>
      hchanges c' (List.mem_cons_of_mem c hc')

namespace Workspace
variable {w v : Workspace m n}

/-- The state is sound, and so is what the trail may bring back. -/
structure Sound (p : Problem m n) (w : Workspace m n) : Prop where
  state : w.state.Sound p
  top : ∀ c ∈ w.trail.top, c.Within p
  below : ∀ frame ∈ w.trail.below, ∀ c ∈ frame, c.Within p

theorem sound_root (p : Problem m n) : (root p).Sound p where
  state := State.sound_root p
  top _ hc := nomatch hc
  below _ hframe := nomatch hframe

theorem Sound.pushFrame (h : w.Sound p) : w.pushFrame.Sound p where
  state := h.state
  top _ hc := nomatch hc
  below frame hframe := by
    rcases List.mem_cons.mp hframe with rfl | hframe
    · exact h.top
    · exact h.below frame hframe

/-- An interval within that of a cell keeps to the upper bound of the cell. -/
theorem Sound.le_upTo (h : w.Sound p) {k : Cell m n} {d : Interval Nat} (hd : d ≤ w.domain k) :
    d ≤ .upTo p.upper[k] :=
  ⟨Nat.le_trans (h.state.within k).1 hd.1, Nat.le_trans hd.2 (h.state.within k).2⟩

theorem Sound.narrow (h : w.Sound p) {k : Cell m n} {d : Interval Nat} (hd : d ≤ w.domain k) :
    (w.narrow k d).Sound p where
  state := h.state.set (h.le_upTo hd)
  top c hc := by
    rcases List.mem_cons.mp hc with rfl | hc
    · exact h.state.within k
    · exact h.top c hc
  below := h.below

theorem Sound.backtrack (h : w.Sound p) : w.backtrack.Sound p := by
  have hbelow := h.below
  rw [Workspace.backtrack, Workspace.backtrack?]
  cases hframes : w.trail.below with
  | nil => exact h
  | cons frame frames =>
    rw [hframes] at hbelow
    exact ⟨h.state.undo h.top, hbelow frame List.mem_cons_self, fun f hf =>
      hbelow f (List.mem_cons_of_mem frame hf)⟩

/-! ## What arises -/

/-- The workspaces to which the operations lead from the root. A cell may only be narrowed. -/
inductive Arises (p : Problem m n) : Workspace m n → Prop
  | root : Arises p (root p)
  | pushFrame {w : Workspace m n} (h : Arises p w) : Arises p w.pushFrame
  | narrow {w : Workspace m n} (h : Arises p w) {k : Cell m n} {d : Interval Nat}
      (hd : d ≤ w.domain k) : Arises p (w.narrow k d)
  | backtrack {w : Workspace m n} (h : Arises p w) : Arises p w.backtrack

namespace Arises

/-- **What arises is sound**: no operation lets a sum drift or a cell leave its range. -/
theorem sound (h : w.Arises p) : w.Sound p := by
  induction h with
  | root => exact sound_root p
  | pushFrame _ ih => exact ih.pushFrame
  | narrow _ hd ih => exact ih.narrow hd
  | backtrack _ ih => exact ih.backtrack

theorem narrowings (h : w.Arises p) {i : Nat} (hnarrow : w.Narrowings i v) : v.Arises p := by
  induction hnarrow with
  | refl => exact h
  | narrow _ hle _ ih => exact (ih h).narrow hle

theorem narrows {t t' : Progress m n} (h : t.work.Arises p) (hnarrow : t.Narrows t') :
    t'.work.Arises p := by
  obtain ⟨i, hi, -⟩ := hnarrow
  exact h.narrowings hi

/-- Propagation does no more than narrow cells, also where it comes to a conflict. -/
theorem propagate (h : w.Arises p) : (Sweep.work (w.propagate p)).Arises p := by
  have hcomes : Sweep.Comes p w 0 (w.propagate p) := comes_propagateFor p maxRounds ⟨w, 0⟩
  cases hr : w.propagate p with
  | ok t =>
    rw [hr] at hcomes
    obtain ⟨i, hleads, -⟩ := hcomes
    exact h.narrowings hleads.narrowings
  | error e =>
    rw [hr] at hcomes
    obtain ⟨turn, i, k, hleads, -⟩ := hcomes
    exact h.narrowings hleads.narrowings

end Arises

end Workspace

/-! ## Runs -/

namespace Session
variable {s : Session m n} {b : Branching}

theorem work_settle (p : Problem m n) (b : Branching) (s : Session m n) :
    (s.settle p b).session.work = Sweep.work (s.work.propagate p) := by
  rcases settle_cases p b s with ⟨e, he, heq⟩ | ⟨t, ht, -, heq⟩ | ⟨t, ht, -, heq⟩
  · rw [heq, he]
    rfl
  all_goals
    rw [heq, ht]
    rfl

theorem arises_settle (h : s.work.Arises p) : (s.settle p b).session.work.Arises p :=
  work_settle p b s ▸ h.propagate

theorem arises_start (p : Problem m n) (b : Branching) : (start p b).session.work.Arises p :=
  arises_settle (s := (root p).openNode) Workspace.Arises.root.pushFrame

/-- The node of a decision is opened with a frame and one cell narrowed, unless nothing is left. -/
theorem arises_descend (h : s.work.Arises p) (d : Decision (m * n)) :
    (s.descend p b d).1.work.Arises p := by
  have hopened : s.openNode.work.Arises p := h.pushFrame
  have hclosed : ∀ s' : Session m n, s'.work.Arises p →
      (if (s'.settle p b).blocked then (s'.settle p b).session.closeNode.1
        else (s'.settle p b).session).work.Arises p := by
    intro s' hs'
    split
    · exact (arises_settle hs').backtrack
    · exact arises_settle hs'
  cases hinter : (s.work.domain d.cell).inter? d.domain with
  | none =>
    rw [descend_of_none hinter]
    exact hopened.backtrack
  | some i =>
    rw [descend_of_some hinter]
    by_cases hall : i = s.work.domain d.cell
    · rw [if_pos hall]
      exact hclosed s.openNode hopened
    · rw [if_neg hall]
      exact hclosed { s.openNode with work := s.openNode.work.narrow d.cell i }
        (hopened.narrow (Interval.inter?_le_left hinter))

theorem arises_advance {s' : Session m n} {events : List TreeEvent} (h : s.work.Arises p)
    (hstep : s.advance p b = some (s', events)) : s'.work.Arises p := by
  rcases advance_cases hstep with ⟨-, -, heq⟩ | ⟨d, pending, -, -, heq⟩
  · obtain rfl : s.closeNode.1 = s' := congrArg Prod.fst heq
    exact h.backtrack
  · obtain rfl : (descend p b { s with pending } d).1 = s' := congrArg Prod.fst heq
    exact arises_descend (s := { s with pending }) h d

end Session

/-- Every workspace of a run arises. -/
theorem Problem.Reaches.arises {σ : Type} {b : Branching} {monitor : TreeMonitor σ} {x y : σ}
    {s : Session m n} (h : p.Reaches b monitor x s y) : s.work.Arises p := by
  induction h with
  | start => exact Session.arises_start p b
  | step _ _ _ hstep ih => exact Session.arises_advance ih hstep

end Provision
