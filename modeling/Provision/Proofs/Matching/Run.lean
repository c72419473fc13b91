import Provision.Proofs.Matching.Exploration

/-!
# Runs of a search

A run is what a problem, a way of branching, a monitor and the monitor's first state determine. Its
configurations are the sessions, with the monitor's state, at the start of every iteration of the
search loop; they are given by an inductive relation, so that an invariant of the steps is an
invariant of the run. Every run ends in one of four ways.

## Main definitions

* `Problem.Reaches p b monitor x s y`: the run comes to the session `s` and the monitor's state `y`.
* `Problem.Ends p b monitor x o y`: the run ends with the outcome `o` and the monitor's state `y`.
-/

namespace Provision
variable {m n : Nat} {σ : Type}

/-- What a monitor asks of a session that is about to make a step. -/
def Session.ask (monitor : TreeMonitor σ) (s : Session m n) (y : σ) : Command × σ :=
  monitor.command s.view (monitor.observe (.step s.work.state s.stats) y)

/-- What a monitor knows when the loop of a search begins. -/
def Problem.watched (p : Problem m n) (b : Branching) (monitor : TreeMonitor σ) (x : σ) : σ :=
  monitor.observeAll (Session.start p b).events (monitor.observe (.enter p {}) x)

/-! ## The loop of a search, step by step -/

section
variable {p : Problem m n} {b : Branching} {monitor : TreeMonitor σ} {s s' : Session m n}
  {y y' : σ}

namespace Session

/-- The loop is over once a solution has been found. -/
theorem run_of_found {a : Assignment m n} (hfound : s.found = some a) :
    s.run p b monitor y = (.feasible a s.stats, y) := by
  rw [run, hfound]

/-- The loop is over when the monitor asks for it. -/
theorem run_of_terminate {reason : String} (hfound : s.found = none)
    (hask : s.ask monitor y = (.terminate reason, y')) :
    s.run p b monitor y = (.aborted reason s.stats, y') := by
  rw [ask] at hask
  rw [run, hfound]
  simp only [hask]

/-- The loop is over when no decision is left. -/
theorem run_of_advance_none (hfound : s.found = none) (hask : s.ask monitor y = (.proceed, y'))
    (hstep : s.advance p b = none) : s.run p b monitor y = (.infeasible s.stats, y') := by
  rw [ask] at hask
  rw [run, hfound]
  simp only [hask]
  split
  · rfl
  · next h => cases hstep.symm.trans h

/-- Otherwise the loop makes a step, of which the monitor hears, and goes on. -/
theorem run_of_advance_some {events : List TreeEvent} (hfound : s.found = none)
    (hask : s.ask monitor y = (.proceed, y')) (hstep : s.advance p b = some (s', events)) :
    s.run p b monitor y = s'.run p b monitor (monitor.observeAll events y') := by
  rw [ask] at hask
  rw [run, hfound]
  simp only [hask]
  split
  · next h => cases hstep.symm.trans h
  · next h => cases hstep.symm.trans h; rfl

end Session

/-- A search whose root is blocked does not begin its loop. -/
theorem Problem.solveWith_of_blocked (h : (Session.start p b).blocked = true)
    (monitor : TreeMonitor σ) (x : σ) :
    p.solveWith b monitor x =
      (.infeasible (Session.start p b).session.stats,
        monitor.observe (.leave (Session.start p b).session.stats) (p.watched b monitor x)) := by
  simp only [solveWith, h, if_true]
  rfl

/-- A search whose root is open ends as its loop does. -/
theorem Problem.solveWith_of_open (h : (Session.start p b).blocked = false)
    (monitor : TreeMonitor σ) (x : σ) {o : Outcome m n} {y : σ}
    (hrun : (Session.start p b).session.run p b monitor (p.watched b monitor x) = (o, y)) :
    p.solveWith b monitor x = (o, monitor.observe (.leave o.stats) y) := by
  rw [watched] at hrun
  simp only [solveWith, h, Bool.false_eq_true, if_false, hrun]

end

/-! ## Runs -/

/-- The run comes to a session at the start of an iteration, with the monitor in some state. -/
inductive Problem.Reaches (p : Problem m n) (b : Branching) (monitor : TreeMonitor σ) (x : σ) :
    Session m n → σ → Prop
  | start (hopen : (Session.start p b).blocked = false) :
      p.Reaches b monitor x (Session.start p b).session (p.watched b monitor x)
  | step {s s' : Session m n} {y y' : σ} {events : List TreeEvent}
      (h : p.Reaches b monitor x s y) (hfound : s.found = none)
      (hask : s.ask monitor y = (.proceed, y')) (hstep : s.advance p b = some (s', events)) :
      p.Reaches b monitor x s' (monitor.observeAll events y')

/-- How a run ends: at a blocked root, with a solution, at the monitor's request, or because nothing
is left to try. -/
inductive Problem.Ends (p : Problem m n) (b : Branching) (monitor : TreeMonitor σ) (x : σ) :
    Outcome m n → σ → Prop
  | blocked (h : (Session.start p b).blocked = true) :
      p.Ends b monitor x (.infeasible (Session.start p b).session.stats) (p.watched b monitor x)
  | found {s : Session m n} {y : σ} {a : Assignment m n} (h : p.Reaches b monitor x s y)
      (hfound : s.found = some a) : p.Ends b monitor x (.feasible a s.stats) y
  | stopped {s : Session m n} {y y' : σ} {reason : String} (h : p.Reaches b monitor x s y)
      (hfound : s.found = none) (hask : s.ask monitor y = (.terminate reason, y')) :
      p.Ends b monitor x (.aborted reason s.stats) y'
  | exhausted {s : Session m n} {y y' : σ} (h : p.Reaches b monitor x s y)
      (hfound : s.found = none) (hask : s.ask monitor y = (.proceed, y'))
      (hstep : s.advance p b = none) : p.Ends b monitor x (.infeasible s.stats) y'

section Run
variable {p : Problem m n} {b : Branching} {monitor : TreeMonitor σ} {x : σ}

/-- From every configuration that it comes to, the loop goes on to one of the four ends. -/
theorem Session.ends_run {s : Session m n} {y : σ} (h : p.Reaches b monitor x s y) :
    p.Ends b monitor x (s.run p b monitor y).1 (s.run p b monitor y).2 := by
  cases hfound : s.found with
  | some a =>
    rw [run_of_found hfound]
    exact .found h hfound
  | none =>
    rcases hask : s.ask monitor y with ⟨command, y'⟩
    cases command with
    | terminate reason =>
      rw [run_of_terminate hfound hask]
      exact .stopped h hfound hask
    | proceed =>
      cases hstep : s.advance p b with
      | none =>
        rw [run_of_advance_none hfound hask hstep]
        exact .exhausted h hfound hask hstep
      | some r =>
        rw [run_of_advance_some hfound hask hstep]
        exact ends_run (.step h hfound hask hstep)
termination_by s.workLeft
decreasing_by exact Session.workLeft_of_advance hstep

/-- Every run ends in one of the four ways, after which the monitor hears of it. -/
theorem Problem.ends_solveWith (p : Problem m n) (b : Branching) (monitor : TreeMonitor σ) (x : σ) :
    ∃ o y, p.Ends b monitor x o y ∧
      p.solveWith b monitor x = (o, monitor.observe (.leave o.stats) y) := by
  cases hopen : (Session.start p b).blocked with
  | true => exact ⟨_, _, .blocked hopen, solveWith_of_blocked hopen monitor x⟩
  | false => exact ⟨_, _, Session.ends_run (.start hopen), solveWith_of_open hopen monitor x rfl⟩

/-- The invariant of the search holds throughout a run. -/
theorem Problem.Reaches.explores {s : Session m n} {y : σ} (h : p.Reaches b monitor x s y) :
    s.Explores p b := by
  induction h with
  | start hopen =>
    exact (Session.visits_root p b).explores_settle (Session.stands_root p b) hopen
  | step _ hfound _ hstep ih => exact ih.advance hfound hstep

/-- A blocked root shows that no assignment satisfies the problem. -/
theorem not_satisfies_of_blocked_start (h : (Session.start p b).blocked = true)
    (a : Assignment m n) : ¬a.Satisfies p := by
  intro ha
  obtain ⟨node, hnode, -⟩ := (Session.visits_root p b).ahead_of_blocked h ha
  rw [Session.path_root] at hnode
  cases hnode

/-- What a search finds out is right, and nothing but a monitor that stops it keeps it from finding
out. -/
theorem Problem.correct_solveWith (p : Problem m n) (b : Branching) (monitor : TreeMonitor σ)
    (x : σ) :
    match (p.solveWith b monitor x).1.result with
    | .feasible a => a.Satisfies p
    | .infeasible => ∀ a : Assignment m n, ¬a.Satisfies p
    | .unknown => ¬monitor.NeverTerminates := by
  obtain ⟨o, y, hends, heq⟩ := p.ends_solveWith b monitor x
  rw [heq]
  cases hends with
  | blocked h => exact not_satisfies_of_blocked_start h
  | found h hfound => exact (h.explores.solved _ hfound).2.1
  | stopped h hfound hask =>
    intro hnever
    have hproceed := congrArg Prod.fst hask
    rw [Session.ask, hnever] at hproceed
    cases hproceed
  | exhausted h hfound hask hstep => exact h.explores.not_satisfies_of_exhausted hfound hstep

/-- A search that a check stands before is correct, if the check lets every problem pass that has a
solution. -/
theorem Problem.correct_guarded {p : Problem m n} {covers : Bool}
    (hcovers : ∀ a : Assignment m n, a.Satisfies p → covers = true) (b : Branching)
    (monitor : TreeMonitor σ) (x : σ) :
    match (if covers then p.solveWith b monitor x else (.infeasible {}, x)).1.result with
    | .feasible a => a.Satisfies p
    | .infeasible => ∀ a : Assignment m n, ¬a.Satisfies p
    | .unknown => ¬monitor.NeverTerminates := by
  cases covers with
  | true => exact p.correct_solveWith b monitor x
  | false =>
    intro a ha
    cases hcovers a ha

/-- Under a monitor that never stops it, such a search finds a solution just when there is one. -/
theorem Problem.exists_feasible_guarded_iff {p : Problem m n} {covers : Bool}
    (hcovers : ∀ a : Assignment m n, a.Satisfies p → covers = true) (b : Branching)
    (hnever : monitor.NeverTerminates) (x : σ) :
    (∃ a, (if covers then p.solveWith b monitor x else (.infeasible {}, x)).1.result =
      .feasible a) ↔ ∃ a : Assignment m n, a.Satisfies p := by
  have hcorrect := p.correct_guarded hcovers b monitor x
  split at hcorrect
  · next a heq => exact ⟨fun _ => ⟨a, hcorrect⟩, fun _ => ⟨a, heq⟩⟩
  · next heq =>
    rw [heq]
    refine ⟨?_, fun ⟨a, ha⟩ => absurd ha (hcorrect a)⟩
    rintro ⟨a, ⟨⟩⟩
  · exact absurd hnever hcorrect

end Run

end Provision
