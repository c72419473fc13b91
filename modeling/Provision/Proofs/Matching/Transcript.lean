import Mathlib.Data.List.Infix
import Provision.Proofs.Matching.Tracking

/-!
# Monitors watch a search and do not steer it

Whatever a monitor is told, and whenever it is asked, is settled by the search alone: a search under
a monitor and a search under a monitor that does nothing go through the same sessions, until the
first one is stopped. So the calls of a monitor are those of the idle monitor, or they are cut short
at its request.

## Main definitions

* `Monitor.transcribed m`: the monitor `m`, which keeps a transcript of its calls besides.
* `Problem.transcript p b monitor x`: the calls of the monitor in a search.
* `Shadows calls alone o o₀`: a search with the calls and the outcome follows another one.
-/

namespace Provision

/-! ## Calls of a monitor -/

/-- A call of a monitor: it is told of an event, or it is asked with a view and answers. -/
inductive Call (ε κ : Type) where
  | told (event : ε)
  | asked (view : κ) (answer : Command)

namespace Call
variable {ε κ : Type}

/-- What a monitor is shown in a call, whatever it answers. -/
def shown : Call ε κ → ε ⊕ κ
  | told e => .inl e
  | asked v _ => .inr v

/-- What a monitor answers in a call, if it is asked. -/
def answer? : Call ε κ → Option Command
  | told _ => none
  | asked _ c => some c

/-- The answers of a monitor, in order. -/
def answers (calls : List (Call ε κ)) : List Command := calls.filterMap answer?

/-- The views with which a monitor is asked, in order. -/
def questions (calls : List (Call ε κ)) : List κ := (calls.map shown).filterMap Sum.getRight?

@[simp] theorem answers_append (as bs : List (Call ε κ)) :
    answers (as ++ bs) = answers as ++ answers bs :=
  List.filterMap_append

@[simp] theorem questions_append (as bs : List (Call ε κ)) :
    questions (as ++ bs) = questions as ++ questions bs := by
  rw [questions, List.map_append, List.filterMap_append, questions, questions]

theorem answers_append_told (calls : List (Call ε κ)) (e : ε) :
    answers (calls ++ [.told e]) = answers calls := by
  rw [answers_append]
  exact List.append_nil _

@[simp] theorem answers_map_told (events : List ε) :
    answers (events.map (told : ε → Call ε κ)) = [] := by
  induction events with
  | nil => rfl
  | cons e rest ih => exact ih

/-- The calls of a step that the monitor lets a search make. -/
def ofStep (e : ε) (v : κ) (events : List ε) : List (Call ε κ) :=
  [told e, asked v .proceed] ++ events.map told

theorem answers_ofStep (e : ε) (v : κ) (events : List ε) :
    ∀ c ∈ answers (ofStep e v events), c = .proceed := by
  intro c hc
  rw [ofStep, answers_append, answers_map_told] at hc
  exact List.mem_singleton.mp hc

/-- Every question has its answer. -/
theorem length_questions (calls : List (Call ε κ)) :
    (questions calls).length = (answers calls).length := by
  induction calls with
  | nil => rfl
  | cons c rest ih =>
    cases c with
    | told e => exact ih
    | asked v a => exact congrArg (· + 1) ih

end Call

/-! ## Transcripts -/

namespace Monitor
variable {ε κ σ : Type}

/-- A monitor that keeps a transcript of its calls besides, the latest last. -/
def transcribed (m : Monitor ε κ σ) : Monitor ε κ (σ × List (Call ε κ)) where
  name s := m.name s.1
  observe e s := (m.observe e s.1, s.2 ++ [.told e])
  command v s := ((m.command v s.1).1, (m.command v s.1).2, s.2 ++ [.asked v (m.command v s.1).1])

theorem tracks_transcribed (m : Monitor ε κ σ) : m.transcribed.Tracks m Prod.fst where
  observe _ _ := rfl
  command _ _ := rfl

theorem observeAll_transcribed (m : Monitor ε κ σ) (events : List ε) (s : σ × List (Call ε κ)) :
    m.transcribed.observeAll events s = (m.observeAll events s.1, s.2 ++ events.map .told) :=
  observeAll_of_notes (fun _ _ => rfl) events s

end Monitor

/-! ## Two searches in step -/

section
variable {m n : Nat} {σ : Type} {p : Problem m n} {b : Branching} {monitor : TreeMonitor σ}

open Call (shown answers questions)

/-- A search with its calls and its outcome follows the search `alone`: to its end, or until its
monitor stops it. -/
inductive Shadows (calls alone : List (Call TreeEvent TreeView)) (o o₀ : Outcome m n) : Prop
  | through (proceeds : ∀ c ∈ answers calls, c = .proceed)
      (same : calls.map shown = alone.map shown) (outcome : o = o₀)
  | stopped (before : List (Call TreeEvent TreeView)) {v : TreeView} {reason : String}
      (proceeds : ∀ c ∈ answers before, c = .proceed)
      (calls_eq : calls = before ++ [.asked v (.terminate reason)])
      (start : calls.map shown <+: alone.map shown) (outcome : o = .aborted reason v.stats)

/-- What comes before does not matter if it was the same. -/
theorem Shadows.append {calls alone as bs : List (Call TreeEvent TreeView)} {o o₀ : Outcome m n}
    (h : Shadows calls alone o o₀) (hproceeds : ∀ c ∈ answers as, c = .proceed)
    (hsame : as.map shown = bs.map shown) : Shadows (as ++ calls) (bs ++ alone) o o₀ := by
  cases h with
  | through proceeds same outcome =>
    refine .through ?_ ?_ outcome
    · rw [Call.answers_append]
      exact List.forall_mem_append.mpr ⟨hproceeds, proceeds⟩
    · rw [List.map_append, List.map_append, hsame, same]
  | @stopped before v reason proceeds calls_eq start outcome =>
    refine .stopped (as ++ before) ?_ ?_ ?_ outcome
    · rw [Call.answers_append]
      exact List.forall_mem_append.mpr ⟨hproceeds, proceeds⟩
    · rw [calls_eq, List.append_assoc]
    · rw [List.map_append, List.map_append, hsame, List.prefix_append_right_inj]
      exact start

/-- The monitor that does nothing. -/
abbrev TreeMonitor.nothing : TreeMonitor Unit := .idle TreeMonitor.idleName

/-- A search that is stopped in a step had the calls of the other one until then, whatever calls
come after. -/
theorem Shadows.of_terminate (e : TreeEvent) (v : TreeView) (reason : String)
    (events : List TreeEvent) (rest : List (Call TreeEvent TreeView)) (o₀ : Outcome m n) :
    Shadows [.told e, .asked v (.terminate reason)] (Call.ofStep e v events ++ rest)
      (.aborted reason v.stats) o₀ := by
  refine .stopped [.told e] nofun rfl ?_ rfl
  exact ⟨(events.map Call.told ++ rest).map shown, rfl⟩

/-- A monitor with a transcript is asked as the monitor itself is. -/
theorem Session.ask_transcribed (monitor : TreeMonitor σ) (s : Session m n) (y : σ)
    (log : List (Call TreeEvent TreeView)) :
    s.ask monitor.transcribed (y, log) =
      ((s.ask monitor y).1, (s.ask monitor y).2,
        log ++ [.told (.step s.work.state s.stats), .asked s.view (s.ask monitor y).1]) := by
  simp only [ask, Monitor.transcribed, List.append_assoc, List.cons_append, List.nil_append]

/-- The transcript of a loop that makes a step. -/
theorem Session.run_transcribed {monitor : TreeMonitor σ} {s s' : Session m n} {y y' : σ}
    {events : List TreeEvent} (log : List (Call TreeEvent TreeView)) (hfound : s.found = none)
    (hask : s.ask monitor y = (.proceed, y')) (hstep : s.advance p b = some (s', events)) :
    s.run p b monitor.transcribed (y, log) =
      s'.run p b monitor.transcribed (monitor.observeAll events y',
        log ++ Call.ofStep (.step s.work.state s.stats) s.view events) := by
  have hask' := s.ask_transcribed monitor y log
  rw [hask] at hask'
  rw [run_of_advance_some hfound hask' hstep, Monitor.observeAll_transcribed, Call.ofStep,
    List.append_assoc]

/-- The loop of a search under any monitor follows the loop under the monitor that does nothing: at
every iteration both are in the same session. -/
theorem Session.shadows_run (p : Problem m n) (b : Branching) (monitor : TreeMonitor σ)
    (s : Session m n) (y : σ) (log log₀ : List (Call TreeEvent TreeView)) :
    ∃ calls alone,
      (s.run p b monitor.transcribed (y, log)).2.2 = log ++ calls ∧
      (s.run p b TreeMonitor.nothing.transcribed ((), log₀)).2.2 = log₀ ++ alone ∧
      Shadows calls alone (s.run p b monitor.transcribed (y, log)).1
        (s.run p b TreeMonitor.nothing.transcribed ((), log₀)).1 := by
  have hidle : s.ask TreeMonitor.nothing () = (.proceed, ()) := rfl
  have hidle' := s.ask_transcribed TreeMonitor.nothing () log₀
  have hask' := s.ask_transcribed monitor y log
  rw [hidle] at hidle'
  cases hfound : s.found with
  | some a =>
    rw [run_of_found hfound, run_of_found hfound]
    exact ⟨[], [], (List.append_nil _).symm, (List.append_nil _).symm, .through nofun rfl rfl⟩
  | none =>
    rcases hask : s.ask monitor y with ⟨command, y'⟩
    rw [hask] at hask'
    cases hstep : s.advance p b with
    | none =>
      rw [run_of_advance_none hfound hidle' hstep]
      cases command with
      | terminate reason =>
        rw [run_of_terminate hfound hask']
        exact ⟨_, _, rfl, rfl, .of_terminate _ s.view reason [] [] _⟩
      | proceed =>
        rw [run_of_advance_none hfound hask' hstep]
        exact ⟨_, _, rfl, rfl, .through (Call.answers_ofStep _ s.view []) rfl rfl⟩
    | some r =>
      obtain ⟨s', events⟩ := r
      obtain ⟨calls, alone, hcalls, halone, hshadows⟩ :=
        shadows_run p b monitor s' (monitor.observeAll events y')
          (log ++ Call.ofStep (.step s.work.state s.stats) s.view events)
          (log₀ ++ Call.ofStep (.step s.work.state s.stats) s.view events)
      rw [List.append_assoc] at hcalls halone
      rw [run_transcribed log₀ hfound hidle hstep]
      cases command with
      | terminate reason =>
        rw [run_of_terminate hfound hask']
        exact ⟨_, _, rfl, halone, .of_terminate _ s.view reason events alone _⟩
      | proceed =>
        rw [run_transcribed log hfound hask hstep]
        exact ⟨_, _, hcalls, halone, hshadows.append (Call.answers_ofStep _ s.view events) rfl⟩
termination_by s.workLeft
decreasing_by exact Session.workLeft_of_advance hstep

/-! ## Whole searches -/

namespace Problem

/-- The calls of a monitor in a search, from entering it to leaving it. -/
def transcript (p : Problem m n) (b : Branching) (monitor : TreeMonitor σ) (x : σ) :
    List (Call TreeEvent TreeView) :=
  (p.solveWith b monitor.transcribed (x, [])).2.2

/-- Keeping a transcript leaves the outcome and the monitor's own state as they are. -/
theorem solveWith_transcribed (p : Problem m n) (b : Branching) (monitor : TreeMonitor σ) (x : σ) :
    p.solveWith b monitor.transcribed (x, []) =
      ((p.solveWith b monitor x).1, (p.solveWith b monitor x).2, p.transcript b monitor x) := by
  rw [← solveWith_of_tracks (Monitor.tracks_transcribed monitor) p b (x, [])]
  rfl

/-- What a monitor hears before the loop of a search begins. -/
def opening (p : Problem m n) (b : Branching) : List TreeEvent :=
  .enter p {} :: (Session.start p b).events

theorem watched_transcribed (p : Problem m n) (b : Branching) (monitor : TreeMonitor σ) (x : σ) :
    p.watched b monitor.transcribed (x, []) =
      (p.watched b monitor x, (p.opening b).map .told) :=
  monitor.observeAll_transcribed (p.opening b) (x, [])

/-- Until it is left, a search under any monitor follows the search under the monitor that does
nothing. -/
theorem shadows_solveWith (p : Problem m n) (b : Branching) (monitor : TreeMonitor σ) (x : σ) :
    ∃ calls alone,
      p.transcript b monitor x = calls ++ [.told (.leave (p.solveWith b monitor x).1.stats)] ∧
      p.transcript b .nothing () = alone ++ [.told (.leave (p.solve b).stats)] ∧
      Shadows calls alone (p.solveWith b monitor x).1 (p.solve b) := by
  have hfst := congrArg Prod.fst (p.solveWith_transcribed b monitor x)
  have hfst₀ := congrArg Prod.fst (p.solveWith_transcribed b .nothing ())
  simp only at hfst hfst₀
  rw [← hfst, solve, ← hfst₀, transcript, transcript]
  have hnone : ∀ c ∈ answers ((p.opening b).map (Call.told : _ → Call TreeEvent TreeView)),
      c = .proceed := by
    rw [Call.answers_map_told]
    nofun
  cases hblocked : (Session.start p b).blocked with
  | true =>
    rw [solveWith_of_blocked hblocked, solveWith_of_blocked hblocked, watched_transcribed,
      watched_transcribed]
    exact ⟨_, _, rfl, rfl, .through hnone rfl rfl⟩
  | false =>
    obtain ⟨calls, alone, hcalls, halone, hshadows⟩ :=
      Session.shadows_run p b monitor (Session.start p b).session (p.watched b monitor x)
        ((p.opening b).map .told) ((p.opening b).map .told)
    rw [solveWith_of_open hblocked _ (x, []) rfl, watched_transcribed,
      solveWith_of_open hblocked _ ((), []) rfl, watched_transcribed]
    exact ⟨_, _, congrArg (· ++ _) hcalls, congrArg (· ++ _) halone, hshadows.append hnone rfl⟩

/-- If a monitor never asks for termination, the search has the outcome it has without it, and the
monitor is shown what the idle monitor is shown. -/
theorem solveWith_of_proceeds {x : σ}
    (h : ∀ c ∈ answers (p.transcript b monitor x), c = .proceed) :
    (p.solveWith b monitor x).1 = p.solve b ∧
      (p.transcript b monitor x).map shown = (p.transcript b .nothing ()).map shown := by
  obtain ⟨calls, alone, hcalls, halone, hshadows⟩ := p.shadows_solveWith b monitor x
  rw [hcalls, Call.answers_append_told] at h
  cases hshadows with
  | through _ same outcome =>
    refine ⟨outcome, ?_⟩
    rw [hcalls, halone, List.map_append, List.map_append, same, outcome]
  | @stopped before v reason _ calls_eq _ _ =>
    have hlast : Command.terminate reason ∈ answers calls := by
      rw [calls_eq, Call.answers_append]
      exact List.mem_append_right _ (List.mem_singleton_self _)
    cases h _ hlast

/-- A request for termination is the last answer of a monitor, and the first that is not to go
on. -/
theorem solveWith_of_terminate {x : σ} {k : Nat} {reason : String}
    (h : (answers (p.transcript b monitor x))[k]? = some (.terminate reason)) :
    ∃ before v,
      answers (p.transcript b monitor x) = List.replicate k .proceed ++ [.terminate reason] ∧
      (p.transcript b monitor x).map shown = before ++ [.inr v, .inl (.leave v.stats)] ∧
      before ++ [.inr v] <+: (p.transcript b .nothing ()).map shown ∧
      (questions (p.transcript b .nothing ()))[k]? = some v ∧
      (p.solveWith b monitor x).1 = .aborted reason v.stats := by
  obtain ⟨calls, alone, hcalls, halone, hshadows⟩ := p.shadows_solveWith b monitor x
  rw [hcalls, Call.answers_append_told] at h
  cases hshadows with
  | through proceeds _ _ => cases proceeds _ (List.mem_of_getElem? h)
  | @stopped before v reason' proceeds calls_eq start outcome =>
    have hanswers : answers calls =
        List.replicate (answers before).length .proceed ++ [.terminate reason'] := by
      rw [calls_eq, Call.answers_append, ← List.eq_replicate_of_mem proceeds]
      rfl
    have hshown : calls.map shown = before.map shown ++ [.inr v] := by
      rw [calls_eq, List.map_append]
      rfl
    obtain ⟨rfl, rfl⟩ : k = (answers before).length ∧ reason = reason' := by
      rw [hanswers, List.getElem?_append, List.length_replicate, List.getElem?_replicate] at h
      split at h
      · cases h
      · next hk =>
        rw [List.getElem?_singleton] at h
        split at h
        · next h0 => exact ⟨by omega, Command.terminate.inj (Option.some.inj h).symm⟩
        · cases h
    refine ⟨before.map shown, v, ?_, ?_, ?_, ?_, outcome⟩
    · rw [hcalls, Call.answers_append_told, hanswers]
    · rw [hcalls, List.map_append, hshown, outcome, List.append_assoc]
      rfl
    · rw [halone, List.map_append, ← hshown]
      exact start.trans (List.prefix_append _ _)
    · obtain ⟨rest, hrest⟩ := start.filterMap Sum.getRight?
      have hquestions : questions alone = questions before ++ v :: rest := by
        rw [questions, ← hrest, hshown, List.filterMap_append, List.append_assoc]
        rfl
      rw [halone, Call.questions_append, hquestions, ← Call.length_questions, List.append_assoc,
        List.getElem?_append_right (Nat.le_refl _), Nat.sub_self]
      rfl

/-- Monitors watch a search and do not steer it. If a monitor never asks for termination, the search
has the outcome it has without it, and the monitor is shown what the idle monitor is shown. If it
asks for termination when it is asked for the time `k`, counted from nought, then it has let the
search go on all the times before, is only told that the search is left after that, and was shown
what the idle monitor is shown until then. Such a search has not found out anything, and its
counters are those that the idle monitor is shown when it is asked for the time `k`. -/
theorem solveWith_unsteered (p : Problem m n) (b : Branching) (monitor : TreeMonitor σ) (x : σ) :
    let o := (p.solveWith b monitor x).1
    let calls := p.transcript b monitor x
    let alone := p.transcript b .nothing ()
    ((∀ c ∈ answers calls, c = .proceed) →
      o = p.solve b ∧ calls.map shown = alone.map shown) ∧
    ∀ k reason, (answers calls)[k]? = some (.terminate reason) →
      ∃ before v,
        answers calls = List.replicate k .proceed ++ [.terminate reason] ∧
        calls.map shown = before ++ [.inr v, .inl (.leave v.stats)] ∧
        before ++ [.inr v] <+: alone.map shown ∧
        (questions alone)[k]? = some v ∧ o = .aborted reason v.stats :=
  ⟨solveWith_of_proceeds, fun _ _ => solveWith_of_terminate⟩

/-- A panel of limits, of which the second one asks for termination in the second step. -/
theorem solveWith_unsteered_clock :
    let p : Problem 2 2 := ⟨#v[3, 3], #v[4, 3], #v[3, 3, 3, 3]⟩
    let limits : TreeMonitor (Panel Limit) := TreeMonitor.panel (TreeMonitor.follow Limit.monitor)
    let x : Panel Limit := .group [.leaf .none, .leaf (.time (.withMask 1 true))]
    (answers (p.transcript .smallestDomain limits x))[1]? = some (.terminate "time limit reached") ∧
      ∃ v, (questions (p.transcript .smallestDomain .nothing ()))[1]? = some v ∧
        (p.solveWith .smallestDomain limits x).1 = .aborted "time limit reached" v.stats := by
  intro p limits x
  have hasked : (answers (p.transcript .smallestDomain limits x))[1]? =
      some (.terminate "time limit reached") := by decide +kernel
  obtain ⟨-, v, -, -, -, hview, houtcome⟩ :=
    (p.solveWith_unsteered .smallestDomain limits x).2 1 "time limit reached" hasked
  exact ⟨hasked, v, hview, houtcome⟩

end Problem

end

end Provision
