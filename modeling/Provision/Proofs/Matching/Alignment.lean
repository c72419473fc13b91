import Provision.Proofs.Matching.Reports

/-!
# Frames in step

A search keeps its changes and its decisions in two containers, each with frames of its own, and
opens and closes the frames of both in several places. What they should hold is told by the reports:
a node is opened when the search is entered and with every descent, its decisions are enqueued in
the state that is reported then, and it is closed by backtracking. The containers agree with this
account throughout: whenever the search is about to make a step, it is back in the very state in
which the decisions on top were enqueued. So a decision always finds the interval that it is a half
of, and no cell runs out of values by a decision.

## Main definitions

* `openFrames log`: the nodes that are open according to the reports.
* `Session.Aligned s log`: the containers of `s` agree with the reports.
* `TreeEvent.Strict e`: if `e` reports a descent, it narrows its cell; if `e` reports a node that is
  given up, it is not for want of a value.
* `Accounts path frames`: the open nodes of a path are the ones of the reports, each in its state.
-/

namespace Provision
variable {m n : Nat} {p : Problem m n} {b : Branching} {σ : Type}

/-- What one more report says about the open nodes, of which the innermost comes first. A node
stands with the report that its decisions were enqueued, once there is one. -/
def onReport (frames : List (Option TreeEvent)) (e : TreeEvent) : List (Option TreeEvent) :=
  match e with
  | .enter .. | .descend .. => none :: frames
  | .enqueue .. => some e :: frames.tail
  | .backtrack .. => frames.tail
  | .leave .. | .step .. | .prune .. | .solution .. => frames

/-- The nodes that are open according to some reports, the innermost first. -/
def openFrames (log : List TreeEvent) : List (Option TreeEvent) := log.foldl onReport []

theorem openFrames_append (log events : List TreeEvent) :
    openFrames (log ++ events) = events.foldl onReport (openFrames log) :=
  List.foldl_append

/-- The frames of changes and of decisions are as many as the nodes that are open according to the
reports; the state is that in which the decisions of the innermost node were enqueued; and the next
of these decisions is one of the halves of the interval of its cell. -/
structure Session.Aligned (s : Session m n) (log : List TreeEvent) : Prop where
  depth : s.work.trail.depth = s.pending.depth
  frames : (openFrames log).length = s.pending.depth
  state : ∃ count stats, (openFrames log).head? = some (some (.enqueue s.work.state count stats))
  next : ∀ d pending, s.pending.isLevelEmpty = false → s.pending.pop? = some (d, pending) →
    ∃ lower upper, s.work.state.domains[d.cell].halves? = some (lower, upper) ∧
      (d.domain = lower ∨ d.domain = upper)

/-- A descent narrows its cell to an interval that is strictly smaller, and a node is never given up
because its decision left no value. -/
def TreeEvent.Strict : TreeEvent → Prop
  | .descend state d _ => ∃ i, state.domains[d.cell].inter? d.domain = some i ∧
      i ≤ state.domains[d.cell] ∧ i ≠ state.domains[d.cell]
  | .prune _ reason _ => reason ≠ .emptyDomain
  | _ => True

/-! ## The account of a path -/

/-- The open nodes of a path, each with the report that its decisions were enqueued in its state. -/
def Accounts (path : List (OpenNode m n)) (frames : List (Option TreeEvent)) : Prop :=
  List.Forall₂ (fun node frame => ∃ count stats, frame = some (.enqueue node.state count stats))
    path frames

theorem Accounts.tail {path : List (OpenNode m n)} {frames : List (Option TreeEvent)}
    (h : Accounts path frames) : Accounts path.tail frames.tail := by
  cases h with
  | nil => exact .nil
  | cons _ hrest => exact hrest

/-- An account says nothing about the decisions that are left. -/
theorem Session.Pops.accounts {s s₀ : Session m n} {d : Decision (m * n)} (h : s.Pops p b d s₀)
    {frames : List (Option TreeEvent)} (haccounts : Accounts s.path frames) :
    Accounts s₀.path frames := by
  obtain ⟨left, rest, hpath, hpath₀⟩ := h.path
  rw [hpath] at haccounts
  rw [hpath₀]
  cases haccounts with
  | cons hnode hrest => exact .cons hnode hrest

/-- A node that has its decisions enqueued takes its place in the account. -/
theorem Session.Opens.accounts {s₀ s s' : Session m n} {events : List TreeEvent}
    (h : Session.Opens p b s₀ s s' events) (hfound : s'.found = none)
    {frames : List (Option TreeEvent)} (haccounts : Accounts s₀.path frames) :
    Accounts s'.path (events.foldl onReport (none :: frames)) := by
  cases h with
  | solved _ _ hsome =>
    rw [hfound] at hsome
    cases hsome
  | split _ hpath =>
    rw [hpath]
    exact .cons ⟨_, _, rfl⟩ haccounts

/-- **A step keeps the account.** -/
theorem Session.Moves.accounts {s s' : Session m n} {events log : List TreeEvent}
    (h : s.Moves p b s' events) (hfound : s'.found = none)
    (haccounts : Accounts s.path (openFrames log)) :
    Accounts s'.path (openFrames (log ++ .step s.work.state s.stats :: events)) := by
  rw [openFrames_append]
  cases h with
  | closes hpath =>
    rw [hpath]
    exact haccounts.tail
  | blocks hpops hpath =>
    rw [hpath]
    exact hpops.accounts haccounts
  | opens hpops hopens => exact hopens.accounts hfound (hpops.accounts haccounts)

/-! ## Reports of steps -/

theorem Session.Opens.strict {s₀ s s' : Session m n} {events : List TreeEvent}
    (h : Session.Opens p b s₀ s s' events) : ∀ e ∈ events, e.Strict := by
  cases h with
  | solved | split =>
    intro e he
    obtain rfl := List.mem_singleton.mp he
    trivial

/-- A decision that is popped narrows its cell. -/
theorem Session.Pops.strict {s s₀ : Session m n} {d : Decision (m * n)} (h : s.Pops p b d s₀)
    (stats : SearchStatistics) : (TreeEvent.descend s.work.state d stats).Strict := by
  obtain ⟨hle, hne⟩ := h.narrows
  exact ⟨d.domain, Interval.inter?_of_le hle, hle, hne⟩

theorem Conflict.strict (c : Conflict m n) (s : State m n) (stats : SearchStatistics) :
    (TreeEvent.prune s c.reason stats).Strict := by
  cases c <;> exact fun h => PruneReason.noConfusion h

/-- A step reports only descents that narrow, and only conflicts of rows and columns. -/
theorem Session.Moves.strict {s s' : Session m n} {events : List TreeEvent}
    (h : s.Moves p b s' events) : ∀ e ∈ events, e.Strict := by
  cases h with
  | closes =>
    intro e he
    obtain rfl := List.mem_singleton.mp he
    trivial
  | @blocks s₀ _ d t c hpops _ _ hstats =>
    rw [List.forall_mem_cons, List.forall_mem_cons, List.forall_mem_singleton]
    exact ⟨hpops.strict _, c.strict t _, trivial⟩
  | opens hpops hopens =>
    rw [List.forall_mem_cons]
    exact ⟨hpops.strict _, hopens.strict⟩

/-! ## Runs -/

/-- Throughout a run, the open nodes have their account. -/
theorem Problem.Reaches.accounts {monitor : TreeMonitor σ} {x : σ} {s : Session m n}
    {y : σ × List TreeEvent} (h : p.Reaches b monitor.recorded (x, []) s y)
    (hfound : s.found = none) : Accounts s.path (openFrames y.2) :=
  h.keeps (I := fun s log => s.found = none → Accounts s.path (openFrames log))
    (fun hopens hnone => hopens.accounts hnone .nil)
    (fun _ hnone hmoves haccounts hnone' => hmoves.accounts hnone' (haccounts hnone)) hfound

/-- Whatever a run reports before it is over is a descent that narrows, or the like. -/
theorem Problem.Reaches.strict {monitor : TreeMonitor σ} {x : σ} {s : Session m n}
    {y : σ × List TreeEvent} (h : p.Reaches b monitor.recorded (x, []) s y) :
    ∀ e ∈ y.2, e.Strict := by
  refine h.keeps (I := fun _ log => ∀ e ∈ log, e.Strict) (fun hopens => ?_)
    (fun _ _ hmoves ih => ?_)
  · exact List.forall_mem_cons.mpr ⟨trivial, hopens.strict⟩
  · exact List.forall_mem_append.mpr ⟨ih, List.forall_mem_cons.mpr ⟨trivial, hmoves.strict⟩⟩

/-- Everything that a search reports is strict. -/
theorem Problem.strict_reports (p : Problem m n) (b : Branching) (monitor : TreeMonitor σ) (x : σ) :
    ∀ e ∈ p.reports b monitor x, e.Strict := by
  rcases p.reports_cases b monitor x with
    ⟨hblocked, -, heq⟩ | ⟨s, y, hreaches, -, heq | heq⟩
  · obtain ⟨c, -, hevents⟩ := Session.conflict_of_blocked hblocked
    rw [heq, Session.start, hevents, List.forall_mem_append, List.forall_mem_cons]
    exact ⟨⟨trivial, List.forall_mem_singleton.mpr (c.strict _ _)⟩,
      List.forall_mem_singleton.mpr trivial⟩
  · rw [heq, List.forall_mem_append]
    exact ⟨hreaches.strict, List.forall_mem_singleton.mpr trivial⟩
  · rw [heq, List.forall_mem_append, List.forall_mem_cons]
    exact ⟨hreaches.strict, trivial, List.forall_mem_singleton.mpr trivial⟩

/-- The containers of a session agree with the reports, as long as nothing is found. -/
theorem Problem.Reaches.aligned {monitor : TreeMonitor σ} {x : σ} {s : Session m n}
    {y : σ × List TreeEvent} (h : p.Reaches b monitor.recorded (x, []) s y)
    (hfound : s.found = none) : s.Aligned y.2 := by
  have haccounts := h.accounts hfound
  refine ⟨h.explores.depth, ?_, ?_, fun d pending hlevel hpop => ?_⟩
  · rw [← haccounts.length_eq, h.explores.length_path]
  · obtain ⟨left, rest, hpath⟩ := s.path_cases.resolve_left h.path_ne_nil
    rw [hpath] at haccounts
    generalize openFrames y.2 = frames at haccounts ⊢
    cases haccounts with
    | cons hnode _ =>
      obtain ⟨count, stats, rfl⟩ := hnode
      exact ⟨count, stats, rfl⟩
  · obtain ⟨left, rest, hpath, -⟩ := Session.path_of_pop? hlevel hpop
    have hlinked := h.explores.linked
    rw [hpath] at hlinked
    exact exists_halves_of_left hlinked.1

/-- **The frames of a search stay in step.** Whatever its monitor does, a run may be recorded, and
at the start of every iteration without a solution the session agrees with the record. Everything
that a search reports is strict: no cell runs out of values by a decision, and every descent narrows
its cell. -/
theorem Problem.aligned_reports (p : Problem m n) (b : Branching) (monitor : TreeMonitor σ)
    (x : σ) :
    (∀ s y, p.Reaches b monitor x s y → s.found = none →
        (∃ log, p.Reaches b monitor.recorded (x, []) s (y, log)) ∧
          ∀ log, p.Reaches b monitor.recorded (x, []) s (y, log) → s.Aligned log) ∧
      p.solveWith b monitor.recorded (x, []) =
        ((p.solveWith b monitor x).1, (p.solveWith b monitor x).2, p.reports b monitor x) ∧
      ∀ e ∈ p.reports b monitor x, e.Strict := by
  refine ⟨?_, ?_, ?_⟩
  · intro s y h hfound
    exact ⟨Problem.reaches_iff_exists_recorded.mp h, fun log hlog => hlog.aligned hfound⟩
  · exact p.solveWith_recorded b monitor x
  · exact p.strict_reports b monitor x

/-- Two rows of three units each, where splitting the cells goes two nodes deep: there is a second
iteration without a solution, and the containers agree with the record of it. -/
theorem Problem.aligned_reports_square :
    let p : Problem 2 2 := ⟨#v[3, 3], #v[4, 3], #v[3, 3, 3, 3]⟩
    let monitor : TreeMonitor Unit := .idle ""
    ∃ (s : Session 2 2) (log : List TreeEvent),
      p.Reaches .smallestDomain monitor () s () ∧ s.found = none ∧
        p.Reaches .smallestDomain monitor.recorded ((), []) s ((), log) ∧
        s.pending.depth = 2 ∧ s.pending.isLevelEmpty = false ∧ s.Aligned log := by
  intro p monitor
  have hopen : (Session.start p .smallestDomain).blocked = false := by decide +kernel
  have hroot : (Session.start p .smallestDomain).session.found = none := by decide +kernel
  have hnext : ((Session.start p .smallestDomain).session.advance p .smallestDomain).map
      (fun e => (e.1.found, e.1.pending.depth, e.1.pending.isLevelEmpty)) =
        some (none, 2, false) := by
    decide +kernel
  obtain ⟨⟨s, events⟩, hstep, hview⟩ := Option.map_eq_some_iff.mp hnext
  obtain ⟨hfound, hdepth, hlevel⟩ : s.found = none ∧ s.pending.depth = 2 ∧
      s.pending.isLevelEmpty = false := by
    simpa only [Prod.mk.injEq] using hview
  have hreaches : p.Reaches .smallestDomain monitor () s () :=
    .step (.start hopen) hroot rfl hstep
  obtain ⟨⟨log, hlog⟩, haligned⟩ :=
    (Problem.aligned_reports p .smallestDomain monitor ()).1 s () hreaches hfound
  exact ⟨s, log, hreaches, hfound, hlog, hdepth, hlevel, haligned log hlog⟩

end Provision
