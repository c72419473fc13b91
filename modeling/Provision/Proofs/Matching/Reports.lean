import Provision.Proofs.Matching.Steps
import Provision.Proofs.Matching.Tracking

/-!
# What a search reports

A monitor knows of a search what it has been told. Any monitor may keep a record of it besides its
own state, and the search does not notice: it takes the same commands and comes to the same end. So
the reports of a search are what its monitor has on record when the search is over.

## Main definitions

* `Monitor.recorded m`: the monitor `m`, which keeps a record besides.
* `Problem.reports p b monitor x`: all that a search reports.
-/

namespace Provision

/-- A monitor that keeps a record of all events besides, the latest last. -/
def Monitor.recorded {ε κ σ : Type} (m : Monitor ε κ σ) : Monitor ε κ (σ × List ε) where
  name s := m.name s.1
  observe e s := (m.observe e s.1, s.2 ++ [e])
  command v s := ((m.command v s.1).1, (m.command v s.1).2, s.2)

theorem Monitor.tracks_recorded {ε κ σ : Type} (m : Monitor ε κ σ) :
    m.recorded.Tracks m Prod.fst where
  observe _ _ := rfl
  command _ _ := rfl

theorem Monitor.observeAll_recorded {ε κ σ : Type} (m : Monitor ε κ σ) (events : List ε)
    (s : σ × List ε) :
    m.recorded.observeAll events s = (m.observeAll events s.1, s.2 ++ events) := by
  have hnotes : m.recorded.observeAll events s = (m.observeAll events s.1, s.2 ++ events.map id) :=
    observeAll_of_notes (fun _ _ => rfl) events s
  rwa [List.map_id] at hnotes

variable {m n : Nat} {σ : Type} {p : Problem m n} {b : Branching} {monitor : TreeMonitor σ}

/-- All that a search reports, the latest last. -/
def Problem.reports (p : Problem m n) (b : Branching) (monitor : TreeMonitor σ) (x : σ) :
    List TreeEvent :=
  (p.solveWith b monitor.recorded (x, [])).2.2

/-! ## The same run -/

theorem Session.ask_recorded (s : Session m n) (y : σ × List TreeEvent) :
    s.ask monitor.recorded y =
      ((s.ask monitor y.1).1, (s.ask monitor y.1).2, y.2 ++ [.step s.work.state s.stats]) := rfl

theorem Problem.watched_recorded (p : Problem m n) (b : Branching) (x : σ × List TreeEvent) :
    p.watched b monitor.recorded x =
      (p.watched b monitor x.1, x.2 ++ .enter p {} :: (Session.start p b).events) := by
  rw [watched, Monitor.observeAll_recorded, Monitor.recorded, List.append_assoc]
  rfl

/-- A run with a record is a run. -/
theorem Problem.Reaches.of_recorded {s : Session m n} {x y : σ × List TreeEvent}
    (h : p.Reaches b monitor.recorded x s y) : p.Reaches b monitor x.1 s y.1 :=
  h.of_tracks monitor.tracks_recorded

/-- Every run may be recorded. -/
theorem Problem.Reaches.recorded {s : Session m n} {x y : σ} (h : p.Reaches b monitor x s y)
    (log : List TreeEvent) : ∃ log', p.Reaches b monitor.recorded (x, log) s (y, log') := by
  induction h with
  | start hopen =>
    have hstart : p.Reaches b monitor.recorded (x, log) _ _ := .start hopen
    rw [watched_recorded] at hstart
    exact ⟨_, hstart⟩
  | @step s s' y y' events h hfound hask hstep ih =>
    obtain ⟨log', hreaches⟩ := ih
    have hask' : s.ask monitor.recorded (y, log') =
        (.proceed, y', log' ++ [.step s.work.state s.stats]) := by
      rw [Session.ask_recorded, hask]
    have hnext := Reaches.step hreaches hfound hask' hstep
    rw [Monitor.observeAll_recorded] at hnext
    exact ⟨_, hnext⟩

/-- A run comes to the same sessions with a record as without one. -/
theorem Problem.reaches_iff_exists_recorded {s : Session m n} {x y : σ} :
    p.Reaches b monitor x s y ↔ ∃ log, p.Reaches b monitor.recorded (x, []) s (y, log) :=
  ⟨fun h => h.recorded [], fun ⟨_, h⟩ => h.of_recorded⟩

/-- **A search does not notice the record.** Its outcome is the same, and so is the state in which
its monitor is left. -/
theorem Problem.solveWith_recorded (p : Problem m n) (b : Branching) (monitor : TreeMonitor σ)
    (x : σ) : p.solveWith b monitor.recorded (x, []) =
      ((p.solveWith b monitor x).1, (p.solveWith b monitor x).2, p.reports b monitor x) := by
  rw [← solveWith_of_tracks monitor.tracks_recorded p b (x, [])]
  rfl

/-! ## What holds of all reports -/

/-- What holds of the session at the root and its reports, and is kept by every step with what the
step reports, holds throughout a run. -/
theorem Problem.Reaches.keeps {I : Session m n → List TreeEvent → Prop} {x : σ}
    (hroot : ∀ {s events}, Session.Opens p b (.root p) (Session.root p).openNode s events →
      I s (.enter p {} :: events))
    (hstep : ∀ {s s' events log}, s.Explores p b → s.found = none → s.Moves p b s' events →
      I s log → I s' (log ++ .step s.work.state s.stats :: events))
    {s : Session m n} {y : σ × List TreeEvent} (h : p.Reaches b monitor.recorded (x, []) s y) :
    I s y.2 := by
  induction h with
  | start hopen =>
    rw [watched_recorded]
    exact hroot ((Session.visits_root p b).opens (Session.stands_root p b) hopen)
  | @step s s' y y' events h hfound hask hadvance ih =>
    have hnext := hstep h.explores hfound (h.explores.moves hfound hadvance) ih
    rw [Session.ask_recorded] at hask
    obtain ⟨-, rfl⟩ := Prod.mk.inj hask
    rw [Monitor.observeAll_recorded, List.append_assoc]
    exact hnext

/-- Throughout a run, a node is open. -/
theorem Problem.Reaches.path_ne_nil {x : σ} {s : Session m n} {y : σ × List TreeEvent}
    (h : p.Reaches b monitor.recorded (x, []) s y) : s.path ≠ [] :=
  h.keeps (I := fun s _ => s.path ≠ []) (fun hopens => hopens.path_ne_nil)
    (fun _ _ hmoves _ => hmoves.path_ne_nil)

/-- A search ends as its run with a record does, and it reports what is on record then, and that it
is left. -/
theorem Problem.ends_recorded (p : Problem m n) (b : Branching) (monitor : TreeMonitor σ) (x : σ) :
    ∃ y, p.Ends b monitor.recorded (x, []) (p.solveWith b monitor x).1 y ∧
      p.reports b monitor x = y.2 ++ [.leave (p.solveWith b monitor x).1.stats] := by
  obtain ⟨o, y, hends, heq⟩ := p.ends_solveWith b monitor.recorded (x, [])
  have hreports : p.reports b monitor x = y.2 ++ [.leave o.stats] := by
    rw [reports, heq]
    rfl
  obtain rfl : (p.solveWith b monitor x).1 = o := by
    rw [solveWith_recorded] at heq
    exact congrArg Prod.fst heq
  exact ⟨y, hends, hreports⟩

/-- What a search reports in all, and what it counts: what its run has reported, the step that comes
to nothing if there is one, and that it is left. A search that is blocked at the root has no run. -/
theorem Problem.reports_cases (p : Problem m n) (b : Branching) (monitor : TreeMonitor σ) (x : σ) :
    let stats := (p.solveWith b monitor x).1.stats
    ((Session.start p b).blocked = true ∧ stats = (Session.start p b).session.stats ∧
        p.reports b monitor x = .enter p {} :: (Session.start p b).events ++ [.leave stats]) ∨
      ∃ (s : Session m n) (y : σ × List TreeEvent),
        p.Reaches b monitor.recorded (x, []) s y ∧ stats = s.stats ∧
          (p.reports b monitor x = y.2 ++ [.leave stats] ∨
            p.reports b monitor x = y.2 ++ [.step s.work.state s.stats, .leave stats]) := by
  intro stats
  obtain ⟨y, hends, hreports⟩ := p.ends_recorded b monitor x
  simp only [stats]
  rw [hreports]
  generalize (p.solveWith b monitor x).1 = o at hends
  cases hends with
  | blocked hblocked =>
    rw [watched_recorded]
    exact .inl ⟨hblocked, rfl, rfl⟩
  | found hreaches => exact .inr ⟨_, _, hreaches, rfl, .inl rfl⟩
  | @stopped s y y' reason hreaches hfound hask =>
    rw [Session.ask_recorded] at hask
    obtain ⟨-, rfl⟩ := Prod.mk.inj hask
    exact .inr ⟨s, y, hreaches, rfl, .inr (List.append_assoc _ _ _)⟩
  | @exhausted s y y' hreaches hfound hask =>
    rw [Session.ask_recorded] at hask
    obtain ⟨-, rfl⟩ := Prod.mk.inj hask
    exact .inr ⟨s, y, hreaches, rfl, .inr (List.append_assoc _ _ _)⟩

end Provision
