import Provision.Matching.Session
import Provision.Matching.Volume

/-!
# The work left to a session

Every decision that is still to be tried has a weight that grows with the number of assignments it
leaves open. The weights of all decisions on the stack, each taken on the state to which
backtracking leads by then, and the number of levels make up the work left. Every step of a session
lowers it (`Session.workLeft_of_advance`), so a search comes to its end.
-/

namespace Provision
variable {m n : Nat}

/-- The work that a decision stands for on a box of intervals. -/
def Decision.weight (v : Vector (Interval Nat) (m * n)) (d : Decision (m * n)) : Nat :=
  match v[d.cell].inter? d.domain with
  | none => 2
  | some i => 4 * boxVolume (put v d.cell i) - 2

theorem Decision.two_le_weight (v : Vector (Interval Nat) (m * n)) (d : Decision (m * n)) :
    2 ≤ d.weight v := by
  rw [weight]
  split
  · exact Nat.le_refl _
  · next i _ =>
    have := boxVolume_pos (put v d.cell i)
    omega

/-- The work that the decisions of a level stand for. -/
def levelWeight (v : Vector (Interval Nat) (m * n)) (level : List (Decision (m * n))) : Nat :=
  sumOf (level.map (Decision.weight v))

@[simp] theorem levelWeight_nil (v : Vector (Interval Nat) (m * n)) : levelWeight v [] = 0 := rfl

@[simp] theorem levelWeight_cons (v : Vector (Interval Nat) (m * n)) (d : Decision (m * n))
    (level : List (Decision (m * n))) :
    levelWeight v (d :: level) = d.weight v + levelWeight v level := by
  simp [levelWeight]

/-- The work that the levels of a stack stand for, where going down a level takes back the changes
of a frame. -/
def levelsWeight (v : Vector (Interval Nat) (m * n)) :
    List (List (Change m n)) → List (List (Decision (m * n))) → Nat
  | _, [] => 0
  | t :: t' :: rest, level :: levels =>
    levelWeight v level + 1 + levelsWeight (undoDomains v t) (t' :: rest) levels
  | frames, level :: levels => levelWeight v level + 1 + levelsWeight v frames levels

/-- The halves of a cell stand for less work than the box they are taken from. -/
theorem levelWeight_decisions (b : Branching) (s : State m n) :
    levelWeight s.domains (b.decisions s).reverse + 4 ≤ 4 * boxVolume s.domains := by
  have hpos := boxVolume_pos s.domains
  rw [Branching.decisions]
  split
  · simp; omega
  · next k _ =>
    rw [Branching.split]
    split
    · simp; omega
    · next lower upper h =>
      have hv := boxVolume_halves h
      obtain ⟨⟨hlower, -⟩, hupper, -⟩ := Interval.halves?_lt h
      have hweight : ∀ i : Interval Nat, i ≤ s.domains[k] →
          Decision.weight s.domains ⟨k, i⟩ = 4 * boxVolume (put s.domains k i) - 2 := by
        intro i hi
        simp only [Decision.weight, Interval.inter?_of_le hi]
      have := boxVolume_pos (put s.domains k lower)
      have := boxVolume_pos (put s.domains k upper)
      simp only [List.reverse_cons, List.reverse_nil, List.nil_append, List.cons_append,
        levelWeight_cons, levelWeight_nil]
      rw [hweight lower hlower, hweight upper hupper]
      omega

namespace Session

/-- The work left to a session. -/
def workLeft (s : Session m n) : Nat :=
  levelsWeight s.work.state.domains (s.work.trail.top :: s.work.trail.below) s.pending.levels

/-- Closing a node gives up the work of its level. -/
theorem workLeft_closeNode {s : Session m n} {level : List (Decision (m * n))}
    {rest : List (List (Decision (m * n)))} (h : s.pending.levels = level :: rest) :
    s.workLeft = levelWeight s.work.state.domains level + 1 + s.closeNode.1.workLeft := by
  unfold workLeft closeNode
  simp only [FrameStack.levels_popFrame, h, List.tail_cons]
  rw [Workspace.backtrack, Workspace.backtrack?]
  cases hb : s.work.trail.below with
  | nil => simp [hb, levelsWeight]
  | cons changes below => simp [levelsWeight, State.domains_undo]

/-- Below a node that has been opened and narrowed lies the work there was before. -/
theorem workLeft_narrowed {s s' : Session m n} {level : List (Decision (m * n))}
    (hwork : s.work.pushFrame.NarrowsTo s'.work)
    (hlevels : s'.pending.levels = level :: s.pending.levels) :
    s'.workLeft = levelWeight s'.work.state.domains level + 1 + s.workLeft := by
  obtain ⟨changes, htrail, hundo⟩ := hwork.recorded
  simp only [Workspace.pushFrame, Trail.pushFrame, List.append_nil] at htrail hundo
  unfold workLeft
  rw [hlevels, htrail]
  simp [levelsWeight, hundo]

/-! ### The node of a decision -/

/-- The session `s'` has opened a node above the nodes of `s`, and has only narrowed since. -/
structure IsAbove (s s' : Session m n) : Prop where
  work : s.work.pushFrame.NarrowsTo s'.work
  pending : s'.pending = s.pending.pushFrame

namespace IsAbove
variable {p : Problem m n} {b : Branching} {s s' : Session m n}

theorem openNode (s : Session m n) : s.IsAbove s.openNode := ⟨.refl _, rfl⟩

/-- Narrowing the cell of a decision stays above. -/
theorem narrow (h : s.IsAbove s') {k : Cell m n} {d : Interval Nat} (hd : d ≤ s'.work.domain k) :
    s.IsAbove { s' with work := s'.work.narrow k d } :=
  ⟨h.work.trans (.narrow hd), h.pending⟩

theorem levels_eq (h : s.IsAbove s') : s'.pending.levels = [] :: s.pending.levels := by
  rw [h.pending, FrameStack.levels_pushFrame]

/-- A node without decisions has one level more than there was before. -/
theorem workLeft_eq (h : s.IsAbove s') : s'.workLeft = 1 + s.workLeft := by
  have hwork := workLeft_narrowed h.work h.levels_eq
  rw [levelWeight_nil] at hwork
  omega

/-- No value is left to the cell: the node is closed, and the work is as it was. -/
theorem workLeft_closeNode (h : s.IsAbove s') : s'.closeNode.1.workLeft = s.workLeft := by
  have habove := h.workLeft_eq
  have hclosed := Session.workLeft_closeNode h.levels_eq
  rw [levelWeight_nil] at hclosed
  omega

/-- Propagation meets a conflict: the node is closed, and the work is as it was. -/
theorem workLeft_conflict (h : s.IsAbove s') {e : Blocked m n}
    (he : s'.work.propagate p = .error e) (stats : SearchStatistics) :
    (closeNode { s' with work := e.work, stats }).1.workLeft = s.workLeft := by
  have hnarrowed := Workspace.narrowsTo_propagate p s'.work
  rw [he] at hnarrowed
  apply workLeft_closeNode
  exact ⟨h.work.trans hnarrowed, h.pending⟩

/-- The lower ends are a solution: the node has nothing to try. -/
theorem workLeft_solution (h : s.IsAbove s') {t : Progress m n}
    (ht : s'.work.propagate p = .ok t) (stats : SearchStatistics)
    (found : Option (Assignment m n)) :
    workLeft { s' with work := t.work, stats, found } = 1 + s.workLeft := by
  have hnarrowed := Workspace.narrowsTo_propagate p s'.work
  rw [ht] at hnarrowed
  apply workLeft_eq
  exact ⟨h.work.trans hnarrowed, h.pending⟩

/-- The node is split: its halves stand for less work than the box that was propagated. -/
theorem workLeft_split (h : s.IsAbove s') {t : Progress m n}
    (ht : s'.work.propagate p = .ok t) (stats : SearchStatistics) :
    workLeft { s' with
      work := t.work
      stats
      pending := s'.pending.extend (b.decisions t.work.state) } + 3 ≤
        4 * boxVolume s'.work.state.domains + s.workLeft := by
  have hnarrowed := Workspace.narrowsTo_propagate p s'.work
  rw [ht] at hnarrowed
  let halved : Session m n := { s' with
    work := t.work
    stats
    pending := s'.pending.extend (b.decisions t.work.state) }
  have hwork : s.work.pushFrame.NarrowsTo halved.work := h.work.trans hnarrowed
  have hlevels : halved.pending.levels =
      (b.decisions t.work.state).reverse :: s.pending.levels := by
    change (s'.pending.extend (b.decisions t.work.state)).levels = _
    rw [h.pending, FrameStack.levels_pushFrame_extend]
  have hleft : halved.workLeft =
      levelWeight t.work.state.domains (b.decisions t.work.state).reverse + 1 + s.workLeft :=
    workLeft_narrowed hwork hlevels
  have hvolume : boxVolume t.work.state.domains ≤ boxVolume s'.work.state.domains :=
    hnarrowed.volume_le
  have hdecisions := levelWeight_decisions b t.work.state
  change halved.workLeft + 3 ≤ _
  omega

/-- However a node is settled, there is less work than its box stands for. -/
theorem workLeft_settle (h : s.IsAbove s') (p : Problem m n) (b : Branching) :
    (if (s'.settle p b).blocked then (s'.settle p b).session.closeNode.1
      else (s'.settle p b).session).workLeft <
        4 * boxVolume s'.work.state.domains - 2 + s.workLeft := by
  have hpos := boxVolume_pos s'.work.state.domains
  rcases settle_cases p b s' with ⟨e, he, heq⟩ | ⟨t, ht, -, heq⟩ | ⟨t, ht, -, heq⟩
  · rw [heq, if_pos rfl, h.workLeft_conflict he]
    omega
  · rw [heq, if_neg Bool.false_ne_true, h.workLeft_solution ht]
    omega
  · have hsplit := h.workLeft_split (b := b) ht
      ((s'.stats.onNarrowings t.narrowed).onDecisions (b.decisions t.work.state).length)
    rw [heq, if_neg Bool.false_ne_true]
    dsimp only
    omega

end IsAbove

/-- The node of a decision leaves less work than the decision stood for. -/
theorem workLeft_descend (p : Problem m n) (b : Branching) (s : Session m n)
    (d : Decision (m * n)) :
    (s.descend p b d).1.workLeft < d.weight s.work.state.domains + s.workLeft := by
  have habove := IsAbove.openNode s
  cases hinter : (s.work.domain d.cell).inter? d.domain with
  | none =>
    have hweight := d.two_le_weight s.work.state.domains
    rw [descend_of_none hinter, habove.workLeft_closeNode]
    omega
  | some i =>
    have hweight : d.weight s.work.state.domains =
        4 * boxVolume (put s.work.state.domains d.cell i) - 2 := by
      have hcell : s.work.state.domains[d.cell].inter? d.domain = some i := hinter
      simp only [Decision.weight, hcell]
    rw [descend_of_some hinter, hweight]
    by_cases hall : i = s.work.domain d.cell
    · -- The decision leaves its cell as it is.
      have hbox : put s.work.state.domains d.cell i = s.openNode.work.state.domains := by
        rw [hall]
        exact put_getElem_self _ _
      rw [if_pos hall, hbox]
      exact habove.workLeft_settle p b
    · rw [if_neg hall]
      exact (habove.narrow (Interval.inter?_le_left hinter)).workLeft_settle p b

/-- Every step lowers the work left. -/
theorem workLeft_of_advance {p : Problem m n} {b : Branching} {s s' : Session m n}
    {events : List TreeEvent} (h : s.advance p b = some (s', events)) :
    s'.workLeft < s.workLeft := by
  unfold advance at h
  split at h
  · next hempty =>
    split at h
    · simp at h
    · next hdepth =>
      obtain rfl : s.closeNode.1 = s' := congrArg Prod.fst (Option.some.inj h)
      rcases FrameStack.levels_of_isLevelEmpty hempty with hl | ⟨rest, hl⟩
      · have := FrameStack.length_levels s.pending
        simp [hl] at this
        omega
      · rw [workLeft_closeNode hl]
        omega
  · next hempty =>
    obtain ⟨⟨d, pending⟩, hpop, he⟩ := Option.map_eq_some_iff.1 h
    obtain rfl : (descend p b { s with pending := pending } d).1 = s' := congrArg Prod.fst he
    obtain ⟨level, rest, hl, hl'⟩ := FrameStack.levels_of_pop? (by simpa using hempty) hpop
    have hlt := workLeft_descend p b { s with pending := pending } d
    have hsplit : s.workLeft =
        d.weight s.work.state.domains + workLeft { s with pending := pending } := by
      unfold workLeft
      simp only [hl, hl']
      cases s.work.trail.below with
      | nil => simp [levelsWeight]; omega
      | cons t rest => simp [levelsWeight]; omega
    simp only at hlt
    omega

end Session

end Provision
