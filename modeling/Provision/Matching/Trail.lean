import Provision.Matching.State

/-!
# Trails and workspaces

A trail records what each changed cell held before, in frames. A workspace is a search state with
its trail: every change is recorded, and backtracking takes back the changes of the top frame, the
latest first.
-/

namespace Provision

/-- The interval that a cell held before a change. -/
structure Change (m n : Nat) where
  cell : Cell m n
  before : Interval Nat
deriving DecidableEq

/-- The changes of the top frame, and of the frames below; each list starts with the latest change.
The last list holds what was recorded before the first frame was opened. -/
structure Trail (m n : Nat) where
  top : List (Change m n)
  below : List (List (Change m n))
deriving DecidableEq

namespace Trail
variable {m n : Nat}

/-- Nothing is recorded and no frame is open. -/
def empty : Trail m n := ⟨[], []⟩

/-- The number of changes recorded. -/
def size (t : Trail m n) : Nat := t.top.length + sumOf (t.below.map List.length)

/-- The number of open frames. -/
def depth (t : Trail m n) : Nat := t.below.length

/-- No frame is open. -/
def isEmpty (t : Trail m n) : Bool := t.below.isEmpty

/-- Open a frame. -/
def pushFrame (t : Trail m n) : Trail m n := ⟨[], t.top :: t.below⟩

/-- Record a change in the top frame. -/
def record (t : Trail m n) (c : Change m n) : Trail m n := { t with top := c :: t.top }

/-- The text of a trail: how much it holds. -/
def render (t : Trail m n) : String :=
  "SearchTrail(entries: " ++ toString t.size ++ ", frames: " ++ toString t.depth ++ ")"

end Trail

/-- Take back changes, the latest of which comes first. -/
def State.undo {m n : Nat} (s : State m n) (changes : List (Change m n)) : State m n :=
  changes.foldl (fun s c => s.set c.cell c.before) s

/-- A search state and the trail of its changes. -/
structure Workspace (m n : Nat) where
  state : State m n
  trail : Trail m n
deriving DecidableEq

namespace Workspace
variable {m n : Nat}

/-- The workspace before the search. -/
def root (p : Problem m n) : Workspace m n := ⟨.root p, .empty⟩

/-- The interval of a cell. -/
def domain (w : Workspace m n) (k : Cell m n) : Interval Nat := w.state.domains[k]

/-- Open a frame. -/
def pushFrame (w : Workspace m n) : Workspace m n := { w with trail := w.trail.pushFrame }

/-- Give a cell another interval and record the change. -/
def narrow (w : Workspace m n) (k : Cell m n) (d : Interval Nat) : Workspace m n :=
  ⟨w.state.set k d, w.trail.record ⟨k, w.domain k⟩⟩

/-- Take back the changes of the top frame and close it; without a frame there is nothing to do. -/
def backtrack? (w : Workspace m n) : Option (Workspace m n) :=
  match w.trail.below with
  | [] => none
  | changes :: rest => some ⟨w.state.undo w.trail.top, ⟨changes, rest⟩⟩

/-- Take back the changes of the top frame, if there is one. -/
def backtrack (w : Workspace m n) : Workspace m n := w.backtrack?.getD w

end Workspace

end Provision
