import Provision.Proofs.Matching.Path

/-!
# What a session has left to explore

Until a solution is found, every assignment that satisfies the problem is still ahead: it lies in an
open node within a decision that has not been tried. Every step keeps this. Opening a node hands the
assignments within the popped decision on to the node, propagation loses none of them, splitting
passes them to the halves, and a node is closed only when nothing of it is left.

When a solution is found, all other satisfying assignments are either still ahead or within the node
where it was found, that is, above the lower ends of which the solution consists.

## Main definitions

* `Session.Explores p b s`: the invariant of a search between two steps.
* `Session.Visits p b s s₀`: `s` has opened a node above the nodes of `s₀` and not settled it yet.
* `Session.Pops p b s d s₀`: `s₀` is `s` without its next decision, `d`, and opens the node of `d`.
-/

namespace Provision
variable {m n : Nat}

/-- An assignment lies in an open node within a decision that has not been tried. -/
def Ahead (path : List (OpenNode m n)) (a : Assignment m n) : Prop :=
  ∃ node ∈ path, ∃ d ∈ node.left, a.Within node.state.domains ∧ a.values[d.cell] ∈ d.domain

theorem ahead_cons {node : OpenNode m n} {rest : List (OpenNode m n)} {a : Assignment m n} :
    Ahead (node :: rest) a ↔
      (∃ d ∈ node.left, a.Within node.state.domains ∧ a.values[d.cell] ∈ d.domain) ∨
        Ahead rest a := by
  simp [Ahead]

/-- A node without decisions left has nothing ahead. -/
theorem ahead_cons_of_nil {s : State m n} {rest : List (OpenNode m n)} {a : Assignment m n} :
    Ahead (⟨s, []⟩ :: rest) a ↔ Ahead rest a := by
  simp [ahead_cons]

/-! ## Lower ends -/

theorem State.getElem_lower (s : State m n) (k : Cell m n) :
    s.lower.values[k] = s.domains[k].lo := by
  simp [State.lower]

/-- The kept sums of lower ends are the totals of the assignment of the lower ends. -/
theorem State.lowerFeasible_iff {p : Problem m n} {s : State m n} (hs : s.Consistent) :
    s.lowerFeasible p = true ↔
      (∀ r : Fin m, p.rowMin[r] ≤ s.lower.rowTotal r) ∧
        ∀ c : Fin n, s.lower.colTotal c ≤ p.colMax[c] := by
  have hrow : ∀ r : Fin m, s.lower.rowTotal r = s.rowLo[r] := fun r => by
    rw [Assignment.rowTotal_eq, Finset.sum_congr rfl fun k _ => s.getElem_lower k, hs.rowLo]
  have hcol : ∀ c : Fin n, s.lower.colTotal c = s.colLo[c] := fun c => by
    rw [Assignment.colTotal_eq, Finset.sum_congr rfl fun k _ => s.getElem_lower k, hs.colLo]
  simp only [State.lowerFeasible, Bool.and_eq_true, List.all_eq_true, decide_eq_true_eq,
    List.mem_finRange, true_implies, hrow, hcol]

/-- Lower ends that reach all minima and keep to all maxima satisfy the problem. -/
theorem State.satisfies_lower {p : Problem m n} {s : State m n} (hs : s.Consistent)
    (hroot : Box.Inside s.domains (State.root p).domains) (h : s.lowerFeasible p = true) :
    s.lower.Satisfies p := by
  refine ⟨fun k => ?_, (State.lowerFeasible_iff hs).mp h⟩
  have hupper := (hroot k).2
  rw [State.domains_root] at hupper
  rw [State.getElem_lower]
  exact Nat.le_trans s.domains[k].lo_le_hi hupper

/-- When every cell is fixed, the lower ends are the only assignment. -/
theorem State.eq_lower_of_isFixed {s : State m n} (h : ∀ k : Cell m n, s.domains[k].isFixed)
    {a : Assignment m n} (ha : a.Within s.domains) : a = s.lower := by
  obtain ⟨values⟩ := a
  rw [State.lower]
  congr 1
  ext i hi
  have hfixed : s.domains[i].lo = s.domains[i].hi := by
    simpa [Interval.isFixed, getElem_fin] using h ⟨i, hi⟩
  have hmem : s.domains[i].lo ≤ values[i] ∧ values[i] ≤ s.domains[i].hi := ha ⟨i, hi⟩
  rw [Vector.getElem_map]
  omega

/-- A satisfying assignment in a node that is split lies in one of the halves. -/
theorem exists_decision_of_within {p : Problem m n} {s : State m n} (b : Branching)
    (hs : s.Consistent) (h : s.lowerFeasible p = false) {a : Assignment m n} (ha : a.Satisfies p)
    (hwithin : a.Within s.domains) :
    ∃ d ∈ (b.decisions s).reverse, a.values[d.cell] ∈ d.domain := by
  rcases b.decisions_cases s with ⟨hnone, -⟩ | ⟨k, lower, upper, -, hhalves, heq⟩
  · have hlower := State.eq_lower_of_isFixed (Branching.select_eq_none_iff.mp hnone) hwithin
    have hfeasible := (State.lowerFeasible_iff hs).mpr (hlower ▸ ha.2)
    exact absurd hfeasible (by rw [h]; decide)
  · obtain ⟨h₁, h₂, h₃, h₄⟩ := Interval.ends_of_halves? hhalves
    have hk := hwithin k
    rw [Interval.mem_def] at hk
    rw [heq]
    by_cases hmid : a.values[k] ≤ s.domains[k].midpoint
    · exact ⟨⟨k, lower⟩, by simp, by rw [h₁]; exact hk.1, by rw [h₂]; exact hmid⟩
    · exact ⟨⟨k, upper⟩, by simp, by rw [h₃]; exact Nat.lt_of_not_le hmid, by rw [h₄]; exact hk.2⟩

/-- A decision left at a node is one of the halves of the interval of its cell. -/
theorem exists_halves_of_left {b : Branching} {s : State m n} {d : Decision (m * n)}
    {left : List (Decision (m * n))} (h : d :: left <:+ (b.decisions s).reverse) :
    ∃ lower upper, s.domains[d.cell].halves? = some (lower, upper) ∧
      (d.domain = lower ∨ d.domain = upper) := by
  have hmem : d ∈ (b.decisions s).reverse := h.subset List.mem_cons_self
  rcases b.decisions_cases s with ⟨-, hnil⟩ | ⟨k, lower, upper, -, hhalves, heq⟩
  · rw [hnil] at hmem; cases hmem
  · rw [heq] at hmem
    rcases List.mem_cons.mp hmem with rfl | hmem
    · exact ⟨lower, upper, hhalves, .inl rfl⟩
    · obtain rfl := List.mem_singleton.mp hmem
      exact ⟨lower, upper, hhalves, .inr rfl⟩

/-- A decision left at a node narrows its cell strictly. -/
theorem lt_of_left {b : Branching} {s : State m n} {d : Decision (m * n)}
    {left : List (Decision (m * n))} (h : d :: left <:+ (b.decisions s).reverse) :
    d.domain ≤ s.domains[d.cell] ∧ d.domain ≠ s.domains[d.cell] := by
  obtain ⟨lower, upper, hhalves, hd⟩ := exists_halves_of_left h
  obtain ⟨hlower, hupper⟩ := Interval.halves?_lt hhalves
  rcases hd with rfl | rfl
  · exact hlower
  · exact hupper

/-! ## Frames -/

theorem Workspace.depth_backtrack (w : Workspace m n) :
    w.backtrack.trail.depth = w.trail.depth - 1 := by
  rw [Workspace.backtrack, Workspace.backtrack?, Trail.depth, Trail.depth]
  cases h : w.trail.below with
  | nil => simp [h]
  | cons frame frames => simp

theorem FrameStack.depth_popFrame {α : Type} (s : FrameStack α) :
    s.popFrame.depth = s.depth - 1 := by
  rw [← length_levels, levels_popFrame, List.length_tail, length_levels]

theorem FrameStack.popFrame_pushFrame {α : Type} (s : FrameStack α) :
    s.pushFrame.popFrame = s := by
  simp [popFrame, popFrame?, pushFrame]

theorem FrameStack.depth_of_pop? {α : Type} {s s' : FrameStack α} {a : α}
    (h : s.pop? = some (a, s')) : s'.depth = s.depth := by
  rw [pop?] at h
  split at h
  · cases h
  · cases h; rfl

/-! ## A node that is visited -/

namespace Session
variable {p : Problem m n} {b : Branching}

/-- What holds of a session between two steps, whatever has been found. -/
structure Stands (p : Problem m n) (b : Branching) (s : Session m n) : Prop where
  consistent : s.work.state.Consistent
  depth : s.work.trail.depth = s.pending.depth
  linked : Linked p b s.path

/-- The invariant of a search between two steps. -/
structure Explores (p : Problem m n) (b : Branching) (s : Session m n) : Prop
    extends s.Stands p b where
  ahead : s.found = none → ∀ a : Assignment m n, a.Satisfies p → Ahead s.path a
  solved : ∀ a, s.found = some a → a = s.work.state.lower ∧ a.Satisfies p ∧
    ∀ a' : Assignment m n, a'.Satisfies p → Ahead s.path.tail a' ∨ a'.Within s.work.state.domains

/-- The session `s` has opened a node above the nodes of `s₀`, and has narrowed it to something that
holds every satisfying assignment not ahead in `s₀`. -/
structure Visits (p : Problem m n) (b : Branching) (s s₀ : Session m n) : Prop where
  shrinks : s₀.work.pushFrame.Shrinks s.work
  pending : s.pending = s₀.pending.pushFrame
  found : s.found = none
  entered : Entered p b s.work.state s₀.path
  ahead : ∀ a : Assignment m n, a.Satisfies p → Ahead s₀.path a ∨ a.Within s.work.state.domains

theorem Stands.of_eq {s s' : Session m n} (h : s.Stands p b) (hwork : s'.work = s.work)
    (hpending : s'.pending = s.pending) : s'.Stands p b := by
  obtain ⟨hconsistent, hdepth, hlinked⟩ := h
  refine ⟨hwork ▸ hconsistent, hwork ▸ hpending ▸ hdepth, ?_⟩
  rw [path, hwork, hpending]
  exact hlinked

/-- There are as many open nodes as frames. -/
theorem Stands.length_path {s : Session m n} (h : s.Stands p b) :
    s.path.length = s.pending.depth := by
  have hdepth := h.depth
  rw [Trail.depth] at hdepth
  rw [path, length_openNodes, FrameStack.length_levels, List.length_cons]
  omega

/-- A node on top of the nodes of `s₀` stands, if what it has left are its last decisions. -/
theorem Stands.push {s₀ s : Session m n} (h₀ : s₀.Stands p b)
    (hwork : s₀.work.pushFrame.Shrinks s.work) {left : List (Decision (m * n))}
    (hlevels : s.pending.levels = left :: s₀.pending.levels)
    (hleft : left <:+ (b.decisions s.work.state).reverse)
    (hentered : Entered p b s.work.state s₀.path) : s.Stands p b where
  consistent := hwork.consistent
  depth := by
    obtain ⟨changes, htrail, -⟩ := hwork.recorded h₀.consistent
    rw [htrail, ← FrameStack.length_levels, hlevels, List.length_cons, FrameStack.length_levels,
      ← h₀.depth]
    rfl
  linked := by
    rw [path_of_shrinks h₀.consistent hwork hlevels]
    exact ⟨hleft, hentered, h₀.linked⟩

/-- Closing a node on top of the nodes of `s₀` brings back the workspace of `s₀`. -/
theorem work_closeNode {s₀ s : Session m n} (h₀ : s₀.work.state.Consistent)
    (hwork : s₀.work.pushFrame.Shrinks s.work) : s.closeNode.1.work = s₀.work :=
  (hwork.recorded h₀).backtrack_eq

/-- Closing the node that a session is at leaves the nodes around it. -/
theorem Stands.closeNode {s : Session m n} (h : s.Stands p b) (hdepth : 0 < s.pending.depth) :
    s.closeNode.1.Stands p b where
  consistent := h.consistent.backtrack
  depth := by
    have htrail : s.closeNode.1.work.trail.depth = s.work.trail.depth - 1 :=
      Workspace.depth_backtrack s.work
    have hpending : s.closeNode.1.pending.depth = s.pending.depth - 1 :=
      FrameStack.depth_popFrame s.pending
    rw [htrail, hpending, h.depth]
  linked := by
    have hlinked := h.linked
    rw [path_closeNode (h.depth ▸ hdepth)]
    cases hpath : s.path with
    | nil => trivial
    | cons node rest =>
      rw [hpath] at hlinked
      exact hlinked.2.2

/-- Popping a decision leaves the later ones. -/
theorem Stands.pop {s : Session m n} (h : s.Stands p b) {d : Decision (m * n)}
    {pending : FrameStack (Decision (m * n))} (hlevel : s.pending.isLevelEmpty = false)
    (hpop : s.pending.pop? = some (d, pending)) :
    ({ s with pending } : Session m n).Stands p b where
  consistent := h.consistent
  depth := h.depth.trans (FrameStack.depth_of_pop? hpop).symm
  linked := by
    obtain ⟨left, rest, hpath, hpath'⟩ := path_of_pop? hlevel hpop
    have hlinked := h.linked
    rw [hpath] at hlinked
    rw [hpath']
    exact ⟨(List.suffix_cons d left).trans hlinked.1, hlinked.2⟩

/-! ## Settling a node -/

namespace Visits
variable {s₀ s : Session m n}

/-- Propagation at a node that is visited keeps what is ahead or within. -/
theorem ahead_of_refines (h : s.Visits p b s₀) {w : Workspace m n} (hw : s.work.Refines p w)
    {a : Assignment m n} (ha : a.Satisfies p) :
    Ahead s₀.path a ∨ a.Within w.state.domains :=
  (h.ahead a ha).imp_right (hw.within ha)

/-- When a node is blocked, everything is ahead in the nodes around it. -/
theorem ahead_of_blocked (h : s.Visits p b s₀) (hblocked : (s.settle p b).blocked = true)
    {a : Assignment m n} (ha : a.Satisfies p) : Ahead s₀.path a := by
  rcases settle_cases p b s with ⟨e, he, -⟩ | ⟨t, -, -, heq⟩ | ⟨t, -, -, heq⟩
  · exact (h.ahead a ha).resolve_right
      (Workspace.not_satisfies_of_blocked h.shrinks.consistent he ha)
  · rw [heq] at hblocked; cases hblocked
  · rw [heq] at hblocked; cases hblocked

/-- A blocked node is closed without a trace but for the counters. -/
theorem closeNode_of_blocked (h : s.Visits p b s₀) (h₀ : s₀.work.state.Consistent)
    (hblocked : (s.settle p b).blocked = true) :
    (s.settle p b).session.closeNode.1.work = s₀.work ∧
      (s.settle p b).session.closeNode.1.pending = s₀.pending ∧
      (s.settle p b).session.closeNode.1.found = none := by
  rcases settle_cases p b s with ⟨e, he, heq⟩ | ⟨t, -, -, heq⟩ | ⟨t, -, -, heq⟩
  · have hkeeps := Workspace.keeps_propagate (p := p) s.work h.shrinks.consistent
    rw [he] at hkeeps
    rw [heq]
    refine ⟨work_closeNode h₀ (h.shrinks.trans hkeeps.1.toShrinks), ?_, h.found⟩
    simp only [closeNode, h.pending, FrameStack.popFrame_pushFrame]
  · rw [heq] at hblocked; cases hblocked
  · rw [heq] at hblocked; cases hblocked

theorem explores_of_blocked (h : s.Visits p b s₀) (h₀ : s₀.Stands p b)
    (hblocked : (s.settle p b).blocked = true) :
    (s.settle p b).session.closeNode.1.Explores p b := by
  obtain ⟨hwork, hpending, hfound⟩ := h.closeNode_of_blocked h₀.consistent hblocked
  refine ⟨h₀.of_eq hwork hpending, fun _ a ha => ?_, fun a ha => ?_⟩
  · rw [path, hwork, hpending]
    exact h.ahead_of_blocked hblocked ha
  · rw [hfound] at ha; cases ha

/-- However a node is settled, it has been narrowed since it was opened. -/
theorem shrinks_settle (h : s.Visits p b s₀) :
    s₀.work.pushFrame.Shrinks (s.settle p b).session.work := by
  have hkeeps := Workspace.keeps_propagate (p := p) s.work h.shrinks.consistent
  rcases settle_cases p b s with ⟨e, he, heq⟩ | ⟨t, ht, -, heq⟩ | ⟨t, ht, -, heq⟩
  · rw [he] at hkeeps
    rw [heq]
    exact h.shrinks.trans hkeeps.1.toShrinks
  all_goals
    rw [ht] at hkeeps
    rw [heq]
    exact h.shrinks.trans hkeeps.toShrinks

/-- A node that is not blocked holds a solution, or hands what is within it on to the halves. -/
theorem explores_settle (h : s.Visits p b s₀) (h₀ : s₀.Stands p b)
    (hblocked : (s.settle p b).blocked = false) : (s.settle p b).session.Explores p b := by
  rcases settle_cases p b s with ⟨e, -, heq⟩ | ⟨t, ht, hlower, heq⟩ | ⟨t, ht, hlower, heq⟩
  · rw [heq] at hblocked; cases hblocked
  all_goals
    have hkeeps := Workspace.keeps_propagate (p := p) s.work h.shrinks.consistent
    rw [ht] at hkeeps
    have hwork := h.shrinks.trans hkeeps.toShrinks
    have hentered := h.entered.mono hkeeps.inside
    have hpath := fun level => @path_of_shrinks m n s₀ (s.settle p b).session level h₀.consistent
    rw [heq] at hpath ⊢
  · have hlevels : s.pending.levels = [] :: s₀.pending.levels := by
      rw [h.pending, FrameStack.levels_pushFrame]
    refine ⟨h₀.push hwork hlevels List.nil_suffix hentered, nofun, ?_⟩
    rintro _ ⟨⟩
    refine ⟨rfl, State.satisfies_lower hkeeps.consistent (hentered.inside_root h₀.linked) hlower,
      fun a ha => ?_⟩
    rw [hpath [] hwork hlevels, List.tail_cons]
    exact h.ahead_of_refines hkeeps ha
  · have hlevels : (s.pending.extend (b.decisions t.work.state)).levels =
        (b.decisions t.work.state).reverse :: s₀.pending.levels := by
      rw [h.pending, FrameStack.levels_pushFrame_extend]
    refine ⟨h₀.push hwork hlevels List.suffix_rfl hentered, fun _ a ha => ?_,
      fun a ha => by rw [h.found] at ha; cases ha⟩
    rw [hpath _ hwork hlevels, ahead_cons]
    rcases h.ahead_of_refines hkeeps ha with hahead | hwithin
    · exact .inr hahead
    · obtain ⟨d, hd, hcell⟩ :=
        exists_decision_of_within b hkeeps.consistent hlower ha hwithin
      exact .inl ⟨d, hd, hwithin, hcell⟩

end Visits

/-! ## The root -/

theorem stands_root (p : Problem m n) (b : Branching) : (root p).Stands p b :=
  ⟨State.consistent_root p, rfl, trivial⟩

theorem visits_root (p : Problem m n) (b : Branching) : (root p).openNode.Visits p b (root p) where
  shrinks := .refl (State.consistent_root p)
  pending := rfl
  found := rfl
  entered := Box.Inside.refl _
  ahead a ha := by
    refine .inr fun k => ?_
    change a.values[k] ∈ (State.root p).domains[k]
    rw [State.domains_root]
    exact ⟨Nat.zero_le _, ha.1 k⟩

/-! ## A step -/

/-- The session that has opened the node of a decision. -/
def enter (s : Session m n) (d : Decision (m * n)) : Session m n :=
  { s.openNode with work := s.openNode.work.narrow d.cell d.domain }

/-- A step closes the node whose decisions are used up, or opens that of the next decision. -/
theorem advance_cases {s s' : Session m n} {events : List TreeEvent}
    (h : s.advance p b = some (s', events)) :
    (s.pending.isLevelEmpty = true ∧ 1 < s.pending.depth ∧ s.closeNode = (s', events)) ∨
      ∃ d pending, s.pending.isLevelEmpty = false ∧ s.pending.pop? = some (d, pending) ∧
        ({ s with pending } : Session m n).descend p b d = (s', events) := by
  rw [advance] at h
  split at h
  · next hlevel =>
    split at h
    · cases h
    · next hdepth => exact .inl ⟨hlevel, Nat.lt_of_not_le hdepth, Option.some.inj h⟩
  · next hlevel =>
    obtain ⟨⟨d, pending⟩, hpop, heq⟩ := Option.map_eq_some_iff.mp h
    exact .inr ⟨d, pending, Bool.eq_false_iff.mpr hlevel, hpop, heq⟩

/-- Without a step to make, all decisions are used up. -/
theorem advance_eq_none {s : Session m n} (h : s.advance p b = none) :
    s.pending.isLevelEmpty = true ∧ s.pending.depth ≤ 1 := by
  rw [advance] at h
  split at h
  · next hlevel =>
    split at h
    · next hdepth => exact ⟨hlevel, hdepth⟩
    · cases h
  · next hlevel =>
    obtain ⟨d, pending, hpop⟩ := FrameStack.exists_pop? (Bool.eq_false_iff.mpr hlevel)
    rw [hpop] at h
    cases h

/-- A decision that narrows its cell strictly opens a node, which is closed again if blocked. -/
theorem descend_eq {s : Session m n} {d : Decision (m * n)} (hle : d.domain ≤ s.work.domain d.cell)
    (hne : d.domain ≠ s.work.domain d.cell) :
    s.descend p b d =
      let entry : TreeEvent := .descend s.work.state d s.openNode.stats
      let node := (s.enter d).settle p b
      if node.blocked then
        (node.session.closeNode.1, entry :: node.events ++ node.session.closeNode.2)
      else (node.session, entry :: node.events) := by
  have hinter : (s.openNode.work.domain d.cell).inter? d.domain = some d.domain :=
    Interval.inter?_of_le hle
  have hne' : d.domain ≠ s.openNode.work.domain d.cell := hne
  simp only [descend, hinter, if_neg hne']
  rfl

/-- A session that has popped a decision, with the rest of what it knows. -/
theorem visits_enter {s : Session m n} {d : Decision (m * n)} {left : List (Decision (m * n))}
    {rest : List (OpenNode m n)} (h : s.Stands p b) (hfound : s.found = none)
    (hpath : s.path = ⟨s.work.state, left⟩ :: rest)
    (hd : d :: left <:+ (b.decisions s.work.state).reverse)
    (hle : d.domain ≤ s.work.domain d.cell)
    (hahead : ∀ a : Assignment m n, a.Satisfies p →
      Ahead s.path a ∨ a.Within s.work.state.domains ∧ a.values[d.cell] ∈ d.domain) :
    (s.enter d).Visits p b s where
  shrinks := .narrow (w := s.work.pushFrame) h.consistent hle
  pending := rfl
  found := hfound
  entered := by
    rw [hpath]
    refine ⟨d, hd, (Workspace.Shrinks.narrow (w := s.work.pushFrame) h.consistent hle).inside, ?_⟩
    have hcell : (s.enter d).work.state.domains[d.cell] = d.domain := by
      change (put s.work.state.domains d.cell d.domain)[d.cell] = d.domain
      rw [getElem_put, if_pos rfl]
    rw [hcell]
    exact ⟨Nat.le_refl _, Nat.le_refl _⟩
  ahead a ha := by
    refine (hahead a ha).imp_right fun ⟨hwithin, hcell⟩ k => ?_
    change a.values[k] ∈ (put s.work.state.domains d.cell d.domain)[k]
    rw [getElem_put]
    by_cases hk : k = d.cell
    · rw [if_pos hk]; exact hk ▸ hcell
    · rw [if_neg hk]; exact hwithin k

/-- The session `s₀` is `s` without its next decision `d`, and opens the node of `d`. -/
structure Pops (p : Problem m n) (b : Branching) (s : Session m n) (d : Decision (m * n))
    (s₀ : Session m n) : Prop where
  work : s₀.work = s.work
  stats : s₀.stats = s.stats
  path : ∃ left rest, s.path = ⟨s.work.state, d :: left⟩ :: rest ∧
    s₀.path = ⟨s.work.state, left⟩ :: rest
  narrows : d.domain ≤ s.work.domain d.cell ∧ d.domain ≠ s.work.domain d.cell
  stands : s₀.Stands p b
  visits : (s₀.enter d).Visits p b s₀

/-- Popping a decision hands the assignments within it on to its node. -/
theorem Explores.pops {s : Session m n} (h : s.Explores p b) (hfound : s.found = none)
    {d : Decision (m * n)} {pending : FrameStack (Decision (m * n))}
    (hlevel : s.pending.isLevelEmpty = false) (hpop : s.pending.pop? = some (d, pending)) :
    s.Pops p b d { s with pending } := by
  obtain ⟨left, rest, hpath, hpath'⟩ := path_of_pop? hlevel hpop
  have hlinked := h.linked
  rw [hpath] at hlinked
  have hnarrows := lt_of_left hlinked.1
  have h₀ := h.toStands.pop hlevel hpop
  refine ⟨rfl, rfl, ⟨left, rest, hpath, hpath'⟩, hnarrows, h₀, ?_⟩
  refine visits_enter h₀ hfound hpath' hlinked.1 hnarrows.1 fun a ha => ?_
  have hahead := h.ahead hfound a ha
  rw [hpath, ahead_cons] at hahead
  rw [hpath', ahead_cons]
  rcases hahead with ⟨d', hd', hwithin, hcell⟩ | hrest
  · rcases List.mem_cons.mp hd' with rfl | hd'
    · exact .inr ⟨hwithin, hcell⟩
    · exact .inl (.inl ⟨d', hd', hwithin, hcell⟩)
  · exact .inl (.inr hrest)

/-- What a step does, and what it reports: it closes the node whose decisions are used up, or it
opens that of the next decision, which is closed again if it is blocked. -/
theorem Explores.step_cases {s s' : Session m n} {events : List TreeEvent} (h : s.Explores p b)
    (hfound : s.found = none) (hstep : s.advance p b = some (s', events)) :
    (s.pending.isLevelEmpty = true ∧ 1 < s.pending.depth ∧ s' = s.closeNode.1 ∧
      events = s.closeNode.2) ∨
      ∃ d s₀, s.Pops p b d s₀ ∧
        let entry : TreeEvent := .descend s₀.work.state d s₀.openNode.stats
        let node := (s₀.enter d).settle p b
        (node.blocked = true ∧ s' = node.session.closeNode.1 ∧
            events = entry :: node.events ++ node.session.closeNode.2) ∨
          node.blocked = false ∧ s' = node.session ∧ events = entry :: node.events := by
  rcases advance_cases hstep with ⟨hlevel, hdepth, heq⟩ | ⟨d, pending, hlevel, hpop, heq⟩
  · exact .inl ⟨hlevel, hdepth, (congrArg Prod.fst heq).symm, (congrArg Prod.snd heq).symm⟩
  · have hpops := h.pops hfound hlevel hpop
    refine .inr ⟨d, { s with pending }, hpops, ?_⟩
    rw [descend_eq (s := { s with pending }) hpops.narrows.1 hpops.narrows.2] at heq
    simp only at heq
    split at heq
    · next hblocked =>
      exact .inl ⟨hblocked, (congrArg Prod.fst heq).symm, (congrArg Prod.snd heq).symm⟩
    · next hblocked =>
      exact .inr ⟨Bool.eq_false_iff.mpr hblocked, (congrArg Prod.fst heq).symm,
        (congrArg Prod.snd heq).symm⟩

/-- **Every step keeps the invariant of the search.** -/
theorem Explores.advance {s s' : Session m n} {events : List TreeEvent} (h : s.Explores p b)
    (hfound : s.found = none) (hstep : s.advance p b = some (s', events)) : s'.Explores p b := by
  rcases h.step_cases hfound hstep with
    ⟨hlevel, hdepth, rfl, -⟩ | ⟨d, s₀, hpops, ⟨hblocked, rfl, -⟩ | ⟨hblocked, rfl, -⟩⟩
  · refine ⟨h.toStands.closeNode (by omega), fun _ a ha => ?_, fun a ha => ?_⟩
    · have hahead := h.ahead hfound a ha
      rw [path_closeNode (by rw [h.depth]; omega)]
      obtain ⟨rest, hpath⟩ := path_of_isLevelEmpty hlevel (by omega)
      rw [hpath, ahead_cons_of_nil] at hahead
      rw [hpath]
      exact hahead
    · change s.found = some a at ha
      rw [hfound] at ha
      cases ha
  · exact hpops.visits.explores_of_blocked hpops.stands hblocked
  · exact hpops.visits.explores_settle hpops.stands hblocked

/-- When no step is left to make, nothing is ahead. -/
theorem Explores.not_satisfies_of_exhausted {s : Session m n} (h : s.Explores p b)
    (hfound : s.found = none) (hstep : s.advance p b = none) (a : Assignment m n) :
    ¬a.Satisfies p := by
  intro ha
  obtain ⟨hlevel, hdepth⟩ := advance_eq_none hstep
  obtain ⟨node, hnode, d, hd, -⟩ := h.ahead hfound a ha
  have hlength := FrameStack.length_levels s.pending
  rcases FrameStack.levels_of_isLevelEmpty hlevel with hnil | ⟨levels, hcons⟩
  · rw [path, hnil] at hnode
    cases hnode
  · obtain rfl : levels = [] := by
      rw [hcons, List.length_cons] at hlength
      exact List.eq_nil_of_length_eq_zero (by omega)
    rw [path, hcons, openNodes, openNodes_nil, List.mem_singleton] at hnode
    rw [hnode] at hd
    cases hd

end Session

end Provision
