/-!
# Stacks with frames

A stack whose items are grouped in levels. A frame mark notes how high the stack was when the level
was opened. Popping an item does not stop at a mark; popping a frame removes everything above its
mark.
-/

namespace Provision

/-- The items, the latest first, and the marks of the open frames, the latest first. -/
structure FrameStack (α : Type) where
  items : List α
  marks : List Nat

namespace FrameStack
variable {α : Type}

/-- No item and no frame. -/
def empty : FrameStack α := ⟨[], []⟩

/-- The number of items. -/
def size (s : FrameStack α) : Nat := s.items.length

/-- The number of open frames. -/
def depth (s : FrameStack α) : Nat := s.marks.length

/-- No frame is open. -/
def isEmpty (s : FrameStack α) : Bool := s.marks.isEmpty

/-- Open a frame. -/
def pushFrame (s : FrameStack α) : FrameStack α := ⟨s.items, s.items.length :: s.marks⟩

/-- Close the top frame and remove the items above its mark. -/
def popFrame? (s : FrameStack α) : Option (FrameStack α) :=
  match s.marks with
  | [] => none
  | mark :: rest => some ⟨s.items.drop (s.items.length - mark), rest⟩

/-- Close the top frame, if there is one. -/
def popFrame (s : FrameStack α) : FrameStack α := s.popFrame?.getD s

/-- Put an item on top. -/
def push (s : FrameStack α) (a : α) : FrameStack α := { s with items := a :: s.items }

/-- Put several items on top, the last one highest. -/
def extend (s : FrameStack α) (as : List α) : FrameStack α :=
  { s with items := as.reverse ++ s.items }

/-- The top item, and the stack below it. -/
def pop? (s : FrameStack α) : Option (α × FrameStack α) :=
  match s.items with
  | [] => none
  | a :: rest => some (a, { s with items := rest })

/-- The level of the top frame holds no item, or there is no frame. -/
def isLevelEmpty (s : FrameStack α) : Bool :=
  match s.marks with
  | [] => true
  | mark :: _ => s.items.length ≤ mark

/-- The items above the latest mark, the lowest first; all items if there is no frame. There is no
answer when items below the mark have been popped. -/
def currentLevel? (s : FrameStack α) : Option (List α) :=
  let mark := s.marks.head?.getD 0
  if s.items.length < mark then none else some (s.items.reverse.drop mark)

/-- The wording for a mark that lies above the stack. -/
def overrunMessage (s : FrameStack α) : String :=
  "range start index " ++ toString (s.marks.head?.getD 0) ++ " out of range for slice of length " ++
    toString s.items.length

/-- The text of a stack: how much it holds. -/
def render (s : FrameStack α) : String :=
  "SearchStack(entries: " ++ toString s.size ++ ", frames: " ++ toString s.depth ++ ")"

/-! ### The levels of a stack -/

/-- The items of each level, from the top level down; items below the first mark are left out. -/
def levelsOf (items : List α) : List Nat → List (List α)
  | [] => []
  | mark :: rest =>
    items.take (items.length - mark) :: levelsOf (items.drop (items.length - mark)) rest

/-- The items of each level, from the top level down. -/
def levels (s : FrameStack α) : List (List α) := levelsOf s.items s.marks

@[simp] theorem length_levels (s : FrameStack α) : s.levels.length = s.depth := by
  rw [levels, depth]
  generalize s.items = items
  induction s.marks generalizing items with
  | nil => rfl
  | cons mark rest ih => simp [levelsOf, ih]

@[simp] theorem levels_pushFrame (s : FrameStack α) : s.pushFrame.levels = [] :: s.levels := by
  simp [levels, pushFrame, levelsOf]

@[simp] theorem levels_popFrame (s : FrameStack α) : s.popFrame.levels = s.levels.tail := by
  unfold levels popFrame popFrame?
  cases h : s.marks with
  | nil => simp [h, levelsOf]
  | cons mark rest => simp [levelsOf]

theorem levels_pushFrame_extend (s : FrameStack α) (as : List α) :
    (s.pushFrame.extend as).levels = as.reverse :: s.levels := by
  simp [levels, pushFrame, extend, levelsOf]

theorem levels_of_isLevelEmpty {s : FrameStack α} (h : s.isLevelEmpty = true) :
    s.levels = [] ∨ ∃ rest, s.levels = [] :: rest := by
  unfold isLevelEmpty at h
  rw [levels]
  split at h
  · next hm => exact .inl (by simp [hm, levelsOf])
  · next mark rest hm =>
    refine .inr ⟨levelsOf s.items rest, ?_⟩
    simp only [decide_eq_true_eq] at h
    simp [hm, levelsOf, Nat.sub_eq_zero_of_le h]

/-- Popping from a level with items takes the first item of the top level. -/
theorem levels_of_pop? {s s' : FrameStack α} {a : α} (hlevel : s.isLevelEmpty = false)
    (h : s.pop? = some (a, s')) :
    ∃ level rest, s.levels = (a :: level) :: rest ∧ s'.levels = level :: rest := by
  unfold isLevelEmpty at hlevel
  unfold pop? at h
  split at hlevel
  · simp at hlevel
  · next mark rest hm =>
    split at h
    · simp at h
    · next b items hi =>
      simp only [Option.some.injEq, Prod.mk.injEq] at h
      obtain ⟨rfl, rfl⟩ := h
      simp only [hi, List.length_cons, decide_eq_false_iff_not, Nat.not_le] at hlevel
      refine ⟨items.take (items.length - mark), levelsOf (items.drop (items.length - mark)) rest,
        ?_, by simp only [levels, hm, levelsOf]⟩
      have hlen : items.length + 1 - mark = (items.length - mark) + 1 := by omega
      simp [levels, hm, hi, levelsOf, hlen]

theorem exists_pop? {s : FrameStack α} (h : s.isLevelEmpty = false) :
    ∃ a s', s.pop? = some (a, s') := by
  unfold isLevelEmpty at h
  rw [pop?]
  split at h
  · simp at h
  · cases hi : s.items with
    | nil => simp [hi] at h
    | cons a rest => exact ⟨a, _, rfl⟩

end FrameStack

end Provision
