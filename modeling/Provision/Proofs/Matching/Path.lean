import Provision.Matching.Search
import Provision.Proofs.Matching.Turns

/-!
# The open nodes of a session

A session keeps its open nodes as changes to take back and decisions to try, each in a container of
its own. Read together, the two are a path through the search tree: for every open node, the state
in which it was split, and the decisions left. Opening a node, narrowing, popping a decision and
closing the node are seen here as operations on the path.

## Main definitions

* `Session.path s`: the open nodes of `s`, the innermost first.
* `Linked p b path`: every node was entered by a decision of the node around it, and what is left of
  the decisions are the later ones.
* `Session.Ahead s a`: the assignment `a` is still to be met on a way through a decision left.
-/

namespace Provision
variable {m n : Nat}

/-- A node that is still open: the state in which it was split, and the decisions not tried yet, the
next one first. -/
structure OpenNode (m n : Nat) where
  state : State m n
  left : List (Decision (m * n))

/-- The open nodes that a state, the frames of its changes and the levels of its decisions stand
for. -/
def openNodes (s : State m n) :
    List (List (Change m n)) → List (List (Decision (m * n))) → List (OpenNode m n)
  | frame :: frames, level :: levels => ⟨s, level⟩ :: openNodes (s.undo frame) frames levels
  | _, _ => []

@[simp] theorem openNodes_nil (s : State m n) (frames : List (List (Change m n))) :
    openNodes s frames [] = [] := by
  cases frames <;> rfl

theorem length_openNodes (s : State m n) (frames : List (List (Change m n)))
    (levels : List (List (Decision (m * n)))) :
    (openNodes s frames levels).length = min frames.length levels.length := by
  induction frames generalizing s levels with
  | nil => cases levels <;> simp [openNodes]
  | cons frame frames ih =>
    cases levels with
    | nil => simp
    | cons level levels => simp [openNodes, ih]

namespace Session
variable {p : Problem m n} {b : Branching}

/-- The open nodes of a session, the innermost first. -/
def path (s : Session m n) : List (OpenNode m n) :=
  openNodes s.work.state (s.work.trail.top :: s.work.trail.below) s.pending.levels

theorem path_root (p : Problem m n) : (root p).path = [] := rfl

/-- The first node of a path is the one that the session is at. -/
theorem path_eq_cons {s : Session m n} {level : List (Decision (m * n))}
    {levels : List (List (Decision (m * n)))} (h : s.pending.levels = level :: levels) :
    ∃ rest, s.path = ⟨s.work.state, level⟩ :: rest := by
  rw [path, h]
  exact ⟨_, rfl⟩

theorem path_cases (s : Session m n) :
    s.path = [] ∨ ∃ left rest, s.path = ⟨s.work.state, left⟩ :: rest := by
  cases h : s.pending.levels with
  | nil => exact .inl (by rw [path, h, openNodes_nil])
  | cons level levels => exact .inr ⟨level, path_eq_cons h⟩

/-- An innermost node whose decisions are used up has none left. -/
theorem path_of_isLevelEmpty {s : Session m n} (hlevel : s.pending.isLevelEmpty = true)
    (hdepth : 0 < s.pending.depth) : ∃ rest, s.path = ⟨s.work.state, []⟩ :: rest := by
  rcases FrameStack.levels_of_isLevelEmpty hlevel with hnil | ⟨levels, hcons⟩
  · rw [← FrameStack.length_levels, hnil] at hdepth
    cases hdepth
  · exact path_eq_cons hcons

/-- A node opened and narrowed since lies on top of the path there was before. -/
theorem path_of_shrinks {s₀ s : Session m n} {level : List (Decision (m * n))}
    (hs₀ : s₀.work.state.Consistent) (hwork : s₀.work.pushFrame.Shrinks s.work)
    (hlevels : s.pending.levels = level :: s₀.pending.levels) :
    s.path = ⟨s.work.state, level⟩ :: s₀.path := by
  obtain ⟨changes, htrail, hundo⟩ := hwork.recorded hs₀
  simp only [Workspace.pushFrame, Trail.pushFrame, List.append_nil] at htrail hundo
  rw [path, hlevels, htrail, openNodes, hundo, path]

/-- Closing a node takes it off the path. -/
theorem path_closeNode {s : Session m n} (h : 0 < s.work.trail.depth) :
    s.closeNode.1.path = s.path.tail := by
  cases hb : s.work.trail.below with
  | nil => simp [Trail.depth, hb] at h
  | cons frame frames =>
    simp only [path, closeNode, Workspace.backtrack, Workspace.backtrack?, hb, Option.getD_some,
      FrameStack.levels_popFrame]
    cases s.pending.levels <;> rfl

/-- Popping a decision takes it off the innermost node. -/
theorem path_of_pop? {s : Session m n} {d : Decision (m * n)}
    {pending : FrameStack (Decision (m * n))} (hlevel : s.pending.isLevelEmpty = false)
    (h : s.pending.pop? = some (d, pending)) :
    ∃ left rest, s.path = ⟨s.work.state, d :: left⟩ :: rest ∧
      ({ s with pending } : Session m n).path = ⟨s.work.state, left⟩ :: rest := by
  obtain ⟨left, levels, hl, hl'⟩ := FrameStack.levels_of_pop? hlevel h
  refine ⟨left, _, by rw [path, hl, openNodes], ?_⟩
  rw [path, hl', openNodes]

end Session

/-! ## How nodes hang together -/

/-- A state was entered from the innermost node of a path: by a decision of it whose successors are
the ones left. A state without a node around it lies within the root. -/
def Entered (p : Problem m n) (b : Branching) (s : State m n) : List (OpenNode m n) → Prop
  | [] => Box.Inside s.domains (State.root p).domains
  | node :: _ => ∃ d, d :: node.left <:+ (b.decisions node.state).reverse ∧
      Box.Inside s.domains node.state.domains ∧ s.domains[d.cell] ≤ d.domain

/-- Every node of a path was entered from the node around it, and has the last ones of its decisions
left. -/
def Linked (p : Problem m n) (b : Branching) : List (OpenNode m n) → Prop
  | [] => True
  | node :: rest => node.left <:+ (b.decisions node.state).reverse ∧ Entered p b node.state rest ∧
      Linked p b rest

section Linked
variable {p : Problem m n} {b : Branching} {path rest : List (OpenNode m n)}

theorem Entered.mono {s s' : State m n} (h : Entered p b s path)
    (hs : Box.Inside s'.domains s.domains) : Entered p b s' path := by
  cases path with
  | nil => exact hs.trans h
  | cons node rest =>
    obtain ⟨d, hd, hinside, hcell⟩ := h
    refine ⟨d, hd, hs.trans hinside, ?_⟩
    exact ⟨Nat.le_trans hcell.1 (hs d.cell).1, Nat.le_trans (hs d.cell).2 hcell.2⟩

/-- Every state entered lies within the root. -/
theorem Entered.inside_root {s : State m n} (h : Entered p b s path) (hpath : Linked p b path) :
    Box.Inside s.domains (State.root p).domains := by
  induction path generalizing s with
  | nil => exact h
  | cons node rest ih =>
    obtain ⟨d, -, hinside, -⟩ := h
    exact hinside.trans (ih hpath.2.1 hpath.2.2)

end Linked

/-! ## The decisions of a node -/

namespace Branching
variable {b : Branching} {s : State m n}

theorem narrowest_eq_none_iff {cells : List (Cell m n)} :
    narrowest s cells = none ↔ cells = [] := by
  cases cells with
  | nil => simp [narrowest]
  | cons k rest =>
    simp only [narrowest, reduceCtorEq, iff_false]
    split
    · simp
    · split <;> simp

theorem mem_of_narrowest {cells : List (Cell m n)} {k : Cell m n}
    (h : narrowest s cells = some k) : k ∈ cells := by
  induction cells with
  | nil => simp [narrowest] at h
  | cons j rest ih =>
    rw [narrowest] at h
    split at h
    · exact Option.some.inj h ▸ List.mem_cons_self
    · next best hbest =>
      split at h
      · exact Option.some.inj h ▸ List.mem_cons_self
      · exact List.mem_cons_of_mem j (ih (hbest.trans h))

theorem select_eq_none_iff : b.select s = none ↔ ∀ k : Cell m n, s.domains[k].isFixed := by
  have hnil : unfixedCells s = [] ↔ ∀ k : Cell m n, s.domains[k].isFixed := by
    simp [unfixedCells, List.filter_eq_nil_iff]
  cases b with
  | smallestDomain => rw [select, narrowest_eq_none_iff, hnil]
  | chronological => rw [select, List.head?_eq_none_iff, hnil]

theorem not_isFixed_of_select {k : Cell m n} (h : b.select s = some k) :
    ¬s.domains[k].isFixed := by
  have hmem : k ∈ unfixedCells s := by
    cases b with
    | smallestDomain => exact mem_of_narrowest h
    | chronological => exact List.mem_of_head? h
  simpa [unfixedCells] using hmem

/-- A node with a cell to split has the halves of that cell as its decisions, and the lower half is
tried first. A node without one has no decision. -/
theorem decisions_cases (b : Branching) (s : State m n) :
    (b.select s = none ∧ (b.decisions s).reverse = []) ∨
      ∃ k lower upper, b.select s = some k ∧ s.domains[k].halves? = some (lower, upper) ∧
        (b.decisions s).reverse = [⟨k, lower⟩, ⟨k, upper⟩] := by
  cases hk : b.select s with
  | none => exact .inl ⟨rfl, by simp [decisions, hk]⟩
  | some k =>
    cases hh : s.domains[k].halves? with
    | none => exact absurd (Interval.halves?_eq_none_iff.mp hh) (not_isFixed_of_select hk)
    | some halves =>
      obtain ⟨lower, upper⟩ := halves
      refine .inr ⟨k, lower, upper, rfl, hh, ?_⟩
      simp only [decisions, hk, split, hh]
      rfl

end Branching

end Provision
