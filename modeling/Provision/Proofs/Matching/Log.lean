import Provision.Matching.FrameStack
import Provision.Proofs.Matching.Arising

/-!
# Trails kept in one log

The changes of all frames may as well be kept in one log. A mark for every open frame then tells how
long the log was when the frame was opened, and backtracking takes changes off the log, the latest
first, until the log is no longer than the last mark says.

A trail gives such a log, and no other trail gives the same. Opening a frame, changing a cell and
backtracking do the same to both, so that a search may keep either.

## Main definitions

* `Trail.log t`: the changes of a trail one after the other, and the marks of its frames.
* `Logbook m n`: a search state with a log.
* `Workspace.logged w`: a workspace with its log in place of its trail.

## Main results

* `Trail.log_injective`: a log belongs to one trail.
* `Workspace.logged_editAll`: operations on a workspace are operations on its log.
* `Problem.Reaches.logged`: so are the steps of a run.
-/

namespace Provision
variable {m n : Nat}

/-! ## The log of a trail -/

namespace Trail

/-- How many changes lie below each of some frames. -/
def marksOf {α : Type} : List (List α) → List Nat
  | [] => []
  | changes :: rest => (changes :: rest).flatten.length :: marksOf rest

/-- All changes, the latest first, and a mark for every open frame. -/
def log (t : Trail m n) : FrameStack (Change m n) := ⟨t.top ++ t.below.flatten, marksOf t.below⟩

theorem log_pushFrame (t : Trail m n) : t.pushFrame.log = t.log.pushFrame := rfl

theorem log_record (t : Trail m n) (c : Change m n) : (t.record c).log = t.log.push c := rfl

theorem length_marksOf {α : Type} (frames : List (List α)) :
    (marksOf frames).length = frames.length := by
  induction frames with
  | nil => rfl
  | cons changes rest ih => simp [marksOf, ih]

/-- The log is as long as the trail, and has as many frames. -/
theorem size_log (t : Trail m n) : t.log.size = t.size := by
  simp only [FrameStack.size, log, size, List.length_append, List.length_flatten]
  rfl

theorem depth_log (t : Trail m n) : t.log.depth = t.depth := length_marksOf t.below

theorem isEmpty_log (t : Trail m n) : t.log.isEmpty = t.isEmpty := by
  simp only [FrameStack.isEmpty, log, isEmpty]
  cases t.below <;> rfl

/-- **A log belongs to one trail**: the marks tell where its frames begin. -/
theorem log_injective : Function.Injective (log (m := m) (n := n)) := by
  intro t t' h
  obtain ⟨top, below⟩ := t
  obtain ⟨top', below'⟩ := t'
  simp only [log, FrameStack.mk.injEq] at h
  obtain ⟨hitems, hmarks⟩ := h
  induction below generalizing top top' below' with
  | nil =>
    cases below' with
    | nil => simpa using hitems
    | cons changes' rest' => cases hmarks
  | cons changes rest ih =>
    cases below' with
    | nil => cases hmarks
    | cons changes' rest' =>
      simp only [marksOf, List.cons.injEq] at hmarks
      obtain ⟨htop, hbelow⟩ := List.append_inj' hitems hmarks.1
      have hrest := ih changes changes' rest' (by simpa using hbelow) hmarks.2
      obtain ⟨rfl, rfl⟩ := Trail.mk.inj hrest
      rw [htop]

end Trail

/-! ## Search states with a log -/

/-- A search state and the log of its changes. -/
structure Logbook (m n : Nat) where
  state : State m n
  log : FrameStack (Change m n)

namespace Logbook
variable {p : Problem m n}

/-- The state before the search, with nothing in the log. -/
def root (p : Problem m n) : Logbook m n := ⟨.root p, .empty⟩

/-- Open a frame. -/
def pushFrame (l : Logbook m n) : Logbook m n := { l with log := l.log.pushFrame }

/-- Give a cell another interval and log the change. -/
def narrow (l : Logbook m n) (k : Cell m n) (d : Interval Nat) : Logbook m n :=
  ⟨l.state.set k d, l.log.push ⟨k, l.state.domains[k]⟩⟩

/-- Take back the latest change as long as there are more changes than the mark says. -/
def rewind (mark : Nat) (s : State m n) : List (Change m n) → State m n × List (Change m n)
  | [] => (s, [])
  | c :: rest =>
    if mark < (c :: rest).length then rewind mark (s.set c.cell c.before) rest else (s, c :: rest)

/-- Remove the last mark and take back what has been logged since; without a frame there is nothing
to do. -/
def backtrack? (l : Logbook m n) : Option (Logbook m n) :=
  match l.log.marks with
  | [] => none
  | mark :: rest =>
    let (state, items) := rewind mark l.state l.log.items
    some ⟨state, ⟨items, rest⟩⟩

/-- Take back the changes of the top frame, if there is one. -/
def backtrack (l : Logbook m n) : Logbook m n := l.backtrack?.getD l

/-- Make an operation. -/
def edit (l : Logbook m n) : Edit m n → Logbook m n
  | .pushFrame => l.pushFrame
  | .narrow k d => l.narrow k d
  | .backtrack => l.backtrack

/-- Make operations one after the other. -/
def editAll (l : Logbook m n) (es : List (Edit m n)) : Logbook m n := es.foldl edit l

/-- Rewinding to a mark takes back all changes above it, and none below. -/
theorem rewind_append (s : State m n) (changes below : List (Change m n)) :
    rewind below.length s (changes ++ below) = (s.undo changes, below) := by
  induction changes generalizing s with
  | nil =>
    cases below with
    | nil => rfl
    | cons c rest => simp [rewind, State.undo]
  | cons c rest ih =>
    have hmore : below.length < (c :: (rest ++ below)).length := by
      simp only [List.length_cons, List.length_append]
      omega
    rw [List.cons_append, rewind, if_pos hmore, ih]
    rfl

end Logbook

/-! ## A workspace and its log -/

namespace Workspace
variable {p : Problem m n}

/-- A workspace with the log of its trail. -/
def logged (w : Workspace m n) : Logbook m n := ⟨w.state, w.trail.log⟩

theorem logged_root (p : Problem m n) : (root p).logged = .root p := rfl

theorem logged_pushFrame (w : Workspace m n) : w.pushFrame.logged = w.logged.pushFrame := by
  rw [logged, pushFrame, Trail.log_pushFrame]
  rfl

theorem logged_narrow (w : Workspace m n) (k : Cell m n) (d : Interval Nat) :
    (w.narrow k d).logged = w.logged.narrow k d := by
  rw [logged, narrow, Trail.log_record]
  rfl

/-- Going back to a frame is going back to a mark. -/
theorem logged_backtrack? (w : Workspace m n) :
    w.logged.backtrack? = w.backtrack?.map logged := by
  rw [backtrack?, Logbook.backtrack?]
  cases hbelow : w.trail.below with
  | nil => simp [logged, Trail.log, Trail.marksOf, hbelow]
  | cons changes rest =>
    have hlog : w.logged.log = ⟨w.trail.top ++ (changes :: rest).flatten,
        (changes :: rest).flatten.length :: Trail.marksOf rest⟩ := by
      simp only [logged, Trail.log, hbelow, Trail.marksOf]
    simp only [hlog, Logbook.rewind_append]
    simp [logged, Trail.log]

theorem logged_backtrack (w : Workspace m n) : w.backtrack.logged = w.logged.backtrack := by
  rw [backtrack, Logbook.backtrack, logged_backtrack?]
  cases w.backtrack? <;> rfl

theorem logged_edit (w : Workspace m n) (e : Edit m n) : (w.edit e).logged = w.logged.edit e := by
  cases e with
  | pushFrame => exact logged_pushFrame w
  | narrow k d => exact logged_narrow w k d
  | backtrack => exact logged_backtrack w

/-- **Operations on a workspace are operations on its log.** -/
theorem logged_editAll (w : Workspace m n) (es : List (Edit m n)) :
    (w.editAll es).logged = w.logged.editAll es := by
  induction es generalizing w with
  | nil => rfl
  | cons e rest ih =>
    rw [editAll, List.foldl_cons, ← editAll, ih, logged_edit]
    rfl

/-- A workspace that arises is led to by operations. -/
theorem Arises.exists_editAll {w : Workspace m n} (h : w.Arises p) :
    ∃ es, w = (Workspace.root p).editAll es := by
  induction h with
  | root => exact ⟨[], rfl⟩
  | pushFrame _ ih =>
    obtain ⟨es, rfl⟩ := ih
    exact ⟨es ++ [.pushFrame], by rw [editAll_concat]; rfl⟩
  | @narrow _ _ k d _ ih =>
    obtain ⟨es, rfl⟩ := ih
    exact ⟨es ++ [.narrow k d], by rw [editAll_concat]; rfl⟩
  | backtrack _ ih =>
    obtain ⟨es, rfl⟩ := ih
    exact ⟨es ++ [.backtrack], by rw [editAll_concat]; rfl⟩

end Workspace

/-- **A run may keep a log**: the operations that lead to a workspace of the run lead to its log. -/
theorem Problem.Reaches.logged {σ : Type} {p : Problem m n} {b : Branching}
    {monitor : TreeMonitor σ} {x y : σ} {s : Session m n} (h : p.Reaches b monitor x s y) :
    ∃ es, s.work = (Workspace.root p).editAll es ∧
      s.work.logged = (Logbook.root p).editAll es := by
  obtain ⟨es, hwork⟩ := h.arises.exists_editAll
  refine ⟨es, hwork, ?_⟩
  rw [hwork, Workspace.logged_editAll, Workspace.logged_root]

end Provision
