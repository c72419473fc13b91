import Provision.Proofs.Matching.Run

/-!
# Monitors that keep something besides

A search hands out events and takes commands. So it makes no difference to it what its monitor keeps
besides, a record of the events for one: the run is the same, and the monitor's own state is.

## Main definitions

* `Monitor.Tracks m' m π`: `m'` does what `m` does in the part of its state that `π` shows.
-/

namespace Provision

namespace Monitor
variable {ε κ σ τ α : Type}

/-- A monitor does what another one does in the part of its state that `π` shows. -/
structure Tracks (m' : Monitor ε κ τ) (m : Monitor ε κ σ) (π : τ → σ) : Prop where
  observe : ∀ e t, π (m'.observe e t) = m.observe e (π t)
  command : ∀ v t, Prod.map id π (m'.command v t) = m.command v (π t)

theorem Tracks.observeAll {m' : Monitor ε κ τ} {m : Monitor ε κ σ} {π : τ → σ}
    (h : m'.Tracks m π) (events : List ε) (t : τ) :
    π (m'.observeAll events t) = m.observeAll events (π t) := by
  induction events generalizing t with
  | nil => rfl
  | cons e rest ih =>
    have hrest := ih (m'.observe e t)
    rw [h.observe] at hrest
    exact hrest

/-- A monitor that notes something of every event besides has noted it of all events in order. -/
theorem observeAll_of_notes {m' : Monitor ε κ (σ × List α)} {m : Monitor ε κ σ} {note : ε → α}
    (h : ∀ e s, m'.observe e s = (m.observe e s.1, s.2 ++ [note e])) (events : List ε)
    (s : σ × List α) :
    m'.observeAll events s = (m.observeAll events s.1, s.2 ++ events.map note) := by
  induction events generalizing s with
  | nil => rw [List.map_nil, List.append_nil]; rfl
  | cons e rest ih =>
    have hrest := ih (m'.observe e s)
    rw [h, List.append_assoc] at hrest
    rw [observeAll, List.foldl_cons, h]
    exact hrest

end Monitor

/-! ## The same run -/

section
variable {m n : Nat} {σ τ : Type} {p : Problem m n} {b : Branching} {m' : TreeMonitor τ}
  {monitor : TreeMonitor σ} {π : τ → σ}

theorem Session.ask_of_tracks (h : m'.Tracks monitor π) (s : Session m n) (t : τ) :
    s.ask monitor (π t) = Prod.map id π (s.ask m' t) := by
  rw [ask, ask, h.command, h.observe]

theorem Problem.watched_of_tracks (h : m'.Tracks monitor π) (p : Problem m n) (b : Branching)
    (t : τ) : p.watched b monitor (π t) = π (p.watched b m' t) := by
  rw [watched, watched, h.observeAll, h.observe]

/-- The run comes to the same sessions. -/
theorem Problem.Reaches.of_tracks (h : m'.Tracks monitor π) {s : Session m n} {x t : τ}
    (hreaches : p.Reaches b m' x s t) : p.Reaches b monitor (π x) s (π t) := by
  induction hreaches with
  | start hopen =>
    rw [← watched_of_tracks h]
    exact .start hopen
  | @step s s' t t' events _ hfound hask hstep ih =>
    rw [h.observeAll]
    refine .step ih hfound ?_ hstep
    rw [Session.ask_of_tracks h, hask]
    rfl

/-- The loop of a search takes only commands from its monitor. -/
theorem Session.run_of_tracks (h : m'.Tracks monitor π) (s : Session m n) (t : τ) :
    Prod.map id π (s.run p b m' t) = s.run p b monitor (π t) := by
  cases hfound : s.found with
  | some a => rw [run_of_found hfound, run_of_found hfound]; rfl
  | none =>
    have hask := s.ask_of_tracks h t
    rcases hask' : s.ask m' t with ⟨command, t'⟩
    rw [hask'] at hask
    cases command with
    | terminate reason => rw [run_of_terminate hfound hask', run_of_terminate hfound hask]; rfl
    | proceed =>
      cases hstep : s.advance p b with
      | none =>
        rw [run_of_advance_none hfound hask' hstep, run_of_advance_none hfound hask hstep]; rfl
      | some r =>
        rw [run_of_advance_some hfound hask' hstep, run_of_advance_some hfound hask hstep,
          run_of_tracks h r.1, h.observeAll]
termination_by s.workLeft
decreasing_by exact Session.workLeft_of_advance hstep

/-- What a monitor keeps besides makes no difference to a search. -/
theorem Problem.solveWith_of_tracks (h : m'.Tracks monitor π) (p : Problem m n) (b : Branching)
    (t : τ) : Prod.map id π (p.solveWith b m' t) = p.solveWith b monitor (π t) := by
  cases hblocked : (Session.start p b).blocked with
  | true =>
    rw [solveWith_of_blocked hblocked, solveWith_of_blocked hblocked, watched_of_tracks h,
      ← h.observe]
    rfl
  | false =>
    have hrun : _ = (Session.start p b).session.run p b monitor _ :=
      Session.run_of_tracks h _ (p.watched b m' t)
    rw [← watched_of_tracks h] at hrun
    rw [solveWith_of_open hblocked m' t rfl, solveWith_of_open hblocked monitor (π t) hrun.symm]
    exact Prod.ext rfl (h.observe _ _)

end

end Provision
