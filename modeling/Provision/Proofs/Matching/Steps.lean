import Provision.Proofs.Matching.Exploration

/-!
# What a step does

A step of a search closes a node, or opens one, which is closed again at once if it is blocked. What
each of these does to the open nodes and to the counters, and what it reports, is said here once.

## Main definitions

* `Session.Opens p b s₀ s s' events`: the node that `s` visits above the nodes of `s₀` stays open.
* `Session.Moves p b s s' events`: a step leads from `s` to `s'`.
-/

namespace Provision
variable {m n : Nat}

namespace Session

/-- The node that `s` visits above the nodes of `s₀` is settled and stays open, in the session `s'`:
its lower ends are a solution, or its decisions are enqueued. -/
inductive Opens (p : Problem m n) (b : Branching) (s₀ s : Session m n) :
    Session m n → List TreeEvent → Prop
  | solved {s' : Session m n} {narrowed : Nat} (narrows : s.work.NarrowsTo s'.work)
      (path : s'.path = ⟨s'.work.state, []⟩ :: s₀.path)
      (found : s'.found = some s'.work.state.lower)
      (stats : s'.stats = (s.stats.onNarrowings narrowed).onSolution) :
      Opens p b s₀ s s' [.solution s'.work.state.lower s'.stats]
  | split {s' : Session m n} {narrowed : Nat} (narrows : s.work.NarrowsTo s'.work)
      (path : s'.path = ⟨s'.work.state, (b.decisions s'.work.state).reverse⟩ :: s₀.path)
      (found : s'.found = none)
      (stats : s'.stats =
        (s.stats.onNarrowings narrowed).onDecisions (b.decisions s'.work.state).length) :
      Opens p b s₀ s s'
        [.enqueue s'.work.state (b.decisions s'.work.state).length s'.stats]

/-- A step leads from `s` to `s'`: a node is closed whose decisions are used up, or the next
decision is popped and its node is blocked, or the node stays open. -/
inductive Moves (p : Problem m n) (b : Branching) (s : Session m n) :
    Session m n → List TreeEvent → Prop
  | closes {s' : Session m n} (path : s'.path = s.path.tail) (inner : s'.path ≠ [])
      (found : s'.found = none) (stats : s'.stats = s.stats.onBacktrack)
      (used : ∃ rest, s.path = ⟨s.work.state, []⟩ :: rest) :
      Moves p b s s' [.backtrack s.work.state s'.stats]
  | blocks {s₀ s' : Session m n} {d : Decision (m * n)} {t : State m n} {c : Conflict m n}
      (pops : s.Pops p b d s₀) (path : s'.path = s₀.path) (found : s'.found = none)
      (stats : s'.stats = ((s₀.enter d).stats.onConflict c).onBacktrack) :
      Moves p b s s' [.descend s.work.state d (s₀.enter d).stats,
        .prune t c.reason ((s₀.enter d).stats.onConflict c), .backtrack t s'.stats]
  | opens {s₀ s' : Session m n} {d : Decision (m * n)} {events : List TreeEvent}
      (pops : s.Pops p b d s₀) (opens : Opens p b s₀ (s₀.enter d) s' events) :
      Moves p b s s' (.descend s.work.state d (s₀.enter d).stats :: events)

variable {p : Problem m n} {b : Branching} {s₀ s s' : Session m n}

/-- Popping a decision leaves the open nodes open. -/
theorem Pops.length_path {d : Decision (m * n)} (h : s.Pops p b d s₀) :
    s₀.path.length = s.path.length := by
  obtain ⟨left, rest, hpath, hpath₀⟩ := h.path
  rw [hpath, hpath₀, List.length_cons, List.length_cons]

/-- Opening the node of a decision counts a node, and the depth of it. -/
theorem Pops.stats_enter {d : Decision (m * n)} (h : s.Pops p b d s₀) :
    (s₀.enter d).stats = s.stats.onNode.onDepth (s.path.length + 1) := by
  rw [← h.length_path, h.stands.length_path, ← h.stats]
  rfl

/-- A node that stays open adds to the open nodes. -/
theorem Opens.length_path {events : List TreeEvent} (h : Opens p b s₀ s s' events) :
    s'.path.length = s₀.path.length + 1 := by
  cases h with
  | solved _ hpath | split _ hpath => rw [hpath, List.length_cons]

/-- A blocked node is given up because of a row or a column, and it counts as such. -/
theorem conflict_of_blocked (hblocked : (s.settle p b).blocked = true) :
    ∃ c : Conflict m n, (s.settle p b).session.stats = s.stats.onConflict c ∧
      (s.settle p b).events =
        [.prune (s.settle p b).session.work.state c.reason (s.stats.onConflict c)] := by
  rcases settle_cases p b s with ⟨e, -, heq⟩ | ⟨t, -, -, heq⟩ | ⟨t, -, -, heq⟩
  · rw [heq]; exact ⟨e.conflict, rfl, rfl⟩
  · rw [heq] at hblocked; cases hblocked
  · rw [heq] at hblocked; cases hblocked

/-- A node that is visited and not blocked stays open. -/
theorem Visits.opens (h : s.Visits p b s₀) (h₀ : s₀.Stands p b)
    (hblocked : (s.settle p b).blocked = false) :
    Opens p b s₀ s (s.settle p b).session (s.settle p b).events := by
  have hpath := fun level => @path_of_shrinks m n s₀ (s.settle p b).session level h₀.consistent
    h.shrinks_settle
  have hnarrows := Workspace.narrowsTo_propagate p s.work
  rcases settle_cases p b s with ⟨e, -, heq⟩ | ⟨t, ht, -, heq⟩ | ⟨t, ht, -, heq⟩
  · rw [heq] at hblocked; cases hblocked
  · rw [ht] at hnarrows
    rw [heq] at hpath ⊢
    refine .solved hnarrows (hpath [] ?_) rfl rfl
    rw [h.pending, FrameStack.levels_pushFrame]
  · rw [ht] at hnarrows
    rw [heq] at hpath ⊢
    refine .split hnarrows (hpath _ ?_) h.found rfl
    rw [h.pending, FrameStack.levels_pushFrame_extend]

/-- **What a step does.** -/
theorem Explores.moves {events : List TreeEvent} (h : s.Explores p b) (hfound : s.found = none)
    (hstep : s.advance p b = some (s', events)) : s.Moves p b s' events := by
  rcases h.step_cases hfound hstep with
    ⟨hlevel, hdepth, rfl, rfl⟩ | ⟨d, s₀, hpops, ⟨hblocked, rfl, rfl⟩ | ⟨hblocked, rfl, rfl⟩⟩
  · have hpath : s.closeNode.1.path = s.path.tail := path_closeNode (by rw [h.depth]; omega)
    refine .closes hpath (List.ne_nil_of_length_pos ?_) hfound rfl ?_
    · rw [hpath, List.length_tail, h.length_path]
      omega
    · exact path_of_isLevelEmpty hlevel (by omega)
  · obtain ⟨c, hstats, hevents⟩ := conflict_of_blocked hblocked
    obtain ⟨hwork, hpending, hnone⟩ :=
      hpops.visits.closeNode_of_blocked hpops.stands.consistent hblocked
    have hpath : ((s₀.enter d).settle p b).session.closeNode.1.path = s₀.path := by
      rw [path, hwork, hpending, path]
    have hclosed : ((s₀.enter d).settle p b).session.closeNode.1.stats =
        ((s₀.enter d).stats.onConflict c).onBacktrack :=
      congrArg SearchStatistics.onBacktrack hstats
    have hreport : ((s₀.enter d).settle p b).session.closeNode.2 =
        [.backtrack ((s₀.enter d).settle p b).session.work.state
          ((s₀.enter d).settle p b).session.closeNode.1.stats] := rfl
    rw [hevents, hreport, hpops.work]
    exact .blocks hpops hpath hnone hclosed
  · rw [hpops.work]
    exact .opens hpops (hpops.visits.opens hpops.stands hblocked)

theorem Opens.path_ne_nil {events : List TreeEvent} (h : Opens p b s₀ s s' events) :
    s'.path ≠ [] := by
  cases h with
  | solved _ hpath | split _ hpath =>
    rw [hpath]
    exact List.cons_ne_nil _ _

/-- As long as a search goes on, a node is open. -/
theorem Moves.path_ne_nil {events : List TreeEvent} (h : s.Moves p b s' events) :
    s'.path ≠ [] := by
  cases h with
  | closes _ hinner => exact hinner
  | blocks hpops hpath =>
    obtain ⟨left, rest, -, hpath₀⟩ := hpops.path
    rw [hpath, hpath₀]
    exact List.cons_ne_nil _ _
  | opens _ hopens => exact hopens.path_ne_nil

end Session

end Provision
