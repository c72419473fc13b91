import Provision.Matching.Event
import Provision.Matching.FrameStack
import Provision.Matching.Propagation

/-!
# Search sessions

A session is everything a matching search holds between two steps: the workspace, the decisions
still to be tried, the counters, and the solution once it is found. A step pops a decision and opens
its node, or closes the node whose decisions are used up. It returns the events that a monitor is
told; nothing a monitor does flows back.
-/

namespace Provision

/-- What a matching search holds between two steps. -/
structure Session (m n : Nat) where
  work : Workspace m n
  pending : FrameStack (Decision (m * n))
  stats : SearchStatistics
  found : Option (Assignment m n)

/-- A node after propagation: the session, the events, and whether a conflict was met. -/
structure Node (m n : Nat) where
  session : Session m n
  events : List TreeEvent
  blocked : Bool

namespace Session
variable {m n : Nat}

/-- Open a node: a frame for its changes and a frame for its decisions. -/
def openNode (s : Session m n) : Session m n :=
  let pending := s.pending.pushFrame
  { s with
    work := s.work.pushFrame
    pending
    stats := s.stats.onNode.onDepth pending.depth }

/-- Close a node: take back its changes and drop its decisions. -/
def closeNode (s : Session m n) : Session m n × List TreeEvent :=
  let stats := s.stats.onBacktrack
  ({ s with work := s.work.backtrack, pending := s.pending.popFrame, stats },
    [.backtrack s.work.state stats])

/-- Propagate at a node. If the lower ends are a solution the search is over; otherwise the node is
split. -/
def settle (p : Problem m n) (b : Branching) (s : Session m n) : Node m n :=
  match s.work.propagate p with
  | .error e =>
    let stats := s.stats.onConflict e.conflict
    ⟨{ s with work := e.work, stats }, [.prune e.work.state e.conflict.reason stats], true⟩
  | .ok t =>
    let state := t.work.state
    let stats := s.stats.onNarrowings t.narrowed
    if state.lowerFeasible p then
      let stats := stats.onSolution
      ⟨{ s with work := t.work, stats, found := some state.lower }, [.solution state.lower stats],
        false⟩
    else
      let decisions := b.decisions state
      let stats := stats.onDecisions decisions.length
      ⟨{ s with work := t.work, stats, pending := s.pending.extend decisions },
        [.enqueue state decisions.length stats], false⟩

/-- What becomes of a node: it is blocked, or its lower ends are a solution, or it is split. -/
theorem settle_cases (p : Problem m n) (b : Branching) (s : Session m n) :
    (∃ e, s.work.propagate p = .error e ∧ s.settle p b =
      ⟨{ s with work := e.work, stats := s.stats.onConflict e.conflict },
        [.prune e.work.state e.conflict.reason (s.stats.onConflict e.conflict)], true⟩) ∨
    (∃ t, s.work.propagate p = .ok t ∧ t.work.state.lowerFeasible p = true ∧ s.settle p b =
      ⟨{ s with
          work := t.work
          stats := (s.stats.onNarrowings t.narrowed).onSolution
          found := some t.work.state.lower },
        [.solution t.work.state.lower (s.stats.onNarrowings t.narrowed).onSolution], false⟩) ∨
    (∃ t, s.work.propagate p = .ok t ∧ t.work.state.lowerFeasible p = false ∧ s.settle p b =
      ⟨{ s with
          work := t.work
          stats := (s.stats.onNarrowings t.narrowed).onDecisions
            (b.decisions t.work.state).length
          pending := s.pending.extend (b.decisions t.work.state) },
        [.enqueue t.work.state (b.decisions t.work.state).length
          ((s.stats.onNarrowings t.narrowed).onDecisions (b.decisions t.work.state).length)],
        false⟩) := by
  cases h : s.work.propagate p with
  | error e => exact .inl ⟨e, rfl, by simp [settle, h]⟩
  | ok t =>
    cases hl : t.work.state.lowerFeasible p with
    | true => exact .inr (.inl ⟨t, rfl, hl, by simp [settle, h, hl]⟩)
    | false => exact .inr (.inr ⟨t, rfl, hl, by simp [settle, h, hl]⟩)

/-- The session before the root is opened. -/
def root (p : Problem m n) : Session m n := ⟨.root p, .empty, {}, none⟩

/-- The root of the search. -/
def start (p : Problem m n) (b : Branching) : Node m n := (root p).openNode.settle p b

/-- Open the node of a decision: narrow its cell and propagate. A node without values, or with a
conflict, is closed at once. -/
def descend (p : Problem m n) (b : Branching) (s : Session m n) (d : Decision (m * n)) :
    Session m n × List TreeEvent :=
  let opened := s.openNode
  let current := opened.work.domain d.cell
  let entry : TreeEvent := .descend opened.work.state d opened.stats
  match current.inter? d.domain with
  | none =>
    let prune : TreeEvent := .prune opened.work.state .emptyDomain opened.stats
    (opened.closeNode.1, entry :: prune :: opened.closeNode.2)
  | some domain =>
    let work := if domain = current then opened.work else opened.work.narrow d.cell domain
    let node := { opened with work }.settle p b
    if node.blocked then
      (node.session.closeNode.1, entry :: node.events ++ node.session.closeNode.2)
    else (node.session, entry :: node.events)

/-- The cell of a decision has no value left. -/
theorem descend_of_none {p : Problem m n} {b : Branching} {s : Session m n}
    {d : Decision (m * n)} (h : (s.work.domain d.cell).inter? d.domain = none) :
    (s.descend p b d).1 = s.openNode.closeNode.1 := by
  have hopened : (s.openNode.work.domain d.cell).inter? d.domain = none := h
  simp only [descend, hopened]

/-- The cell of a decision has some values left, and it is narrowed unless these are all. -/
theorem descend_of_some {p : Problem m n} {b : Branching} {s : Session m n}
    {d : Decision (m * n)} {i : Interval Nat}
    (h : (s.work.domain d.cell).inter? d.domain = some i) :
    (s.descend p b d).1 =
      let work := if i = s.work.domain d.cell then s.openNode.work
        else s.openNode.work.narrow d.cell i
      let node := { s.openNode with work }.settle p b
      if node.blocked then node.session.closeNode.1 else node.session := by
  have hopened : (s.openNode.work.domain d.cell).inter? d.domain = some i := h
  simp only [descend, hopened]
  exact apply_ite Prod.fst _ _ _

/-- The next step of the search, or nothing when all decisions are used up. -/
def advance (p : Problem m n) (b : Branching) (s : Session m n) :
    Option (Session m n × List TreeEvent) :=
  if s.pending.isLevelEmpty then
    if s.pending.depth ≤ 1 then none else some s.closeNode
  else s.pending.pop?.map fun e => { s with pending := e.2 }.descend p b e.1

/-- What a monitor may look at. -/
def view (s : Session m n) : TreeView := ⟨m, n, s.work.state, s.stats⟩

end Session

end Provision
