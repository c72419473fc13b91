/-!
# Closed intervals

An interval `[lo, hi]` holds at least one point: `lo ≤ hi` is part of the type. Narrowing returns
the smaller interval, or nothing when no point is left.
-/

namespace Provision

/-- The points between two ends, both included. -/
structure Interval (α : Type) [LE α] where
  lo : α
  hi : α
  lo_le_hi : lo ≤ hi
deriving DecidableEq

namespace Interval

/-- What is said of a pair of ends that are in the wrong order. -/
def invertedMessage : String := "Invalid interval: lo must be less than or equal to hi"

section General
variable {α : Type} [LE α]

theorem ext_ends {i j : Interval α} (hlo : i.lo = j.lo) (hhi : i.hi = j.hi) : i = j := by
  cases i; cases j; simp_all

instance : Membership α (Interval α) := ⟨fun i x => i.lo ≤ x ∧ x ≤ i.hi⟩

theorem mem_def {i : Interval α} {x : α} : x ∈ i ↔ i.lo ≤ x ∧ x ≤ i.hi := Iff.rfl

/-- The points of one interval all belong to another. -/
instance : LE (Interval α) := ⟨fun i j => j.lo ≤ i.lo ∧ i.hi ≤ j.hi⟩

theorem le_def {i j : Interval α} : i ≤ j ↔ j.lo ≤ i.lo ∧ i.hi ≤ j.hi := Iff.rfl

variable [DecidableLE α]

instance (i : Interval α) (x : α) : Decidable (x ∈ i) := inferInstanceAs (Decidable (_ ∧ _))

instance : DecidableLE (Interval α) := fun _ _ => inferInstanceAs (Decidable (_ ∧ _))

/-- The interval with the given ends, unless they are in the wrong order. -/
def ofEnds? (lo hi : α) : Option (Interval α) :=
  if h : lo ≤ hi then some ⟨lo, hi, h⟩ else none

theorem ofEnds?_eq_some_iff {lo hi : α} {i : Interval α} :
    ofEnds? lo hi = some i ↔ i.lo = lo ∧ i.hi = hi := by
  rw [ofEnds?]
  split
  · simp only [Option.some.injEq]
    exact ⟨fun h => by simp [← h], fun h => ext_ends h.1.symm h.2.symm⟩
  · next h =>
    simp only [reduceCtorEq, false_iff, not_and]
    intro hlo hhi
    exact h (hlo ▸ hhi ▸ i.lo_le_hi)

/-- Exactly one point. -/
def isFixed [DecidableEq α] (i : Interval α) : Bool := i.lo = i.hi

variable [Min α] [Max α]

/-- The common points of two intervals. -/
def inter? (i j : Interval α) : Option (Interval α) := ofEnds? (max i.lo j.lo) (min i.hi j.hi)

/-- The points up to a bound. -/
def atMost? (i : Interval α) (bound : α) : Option (Interval α) := ofEnds? i.lo (min i.hi bound)

/-- The points from a bound on. -/
def atLeast? (i : Interval α) (bound : α) : Option (Interval α) := ofEnds? (max i.lo bound) i.hi

/-- Order by lower ends, then by upper ends. -/
protected def compare [Ord α] (i j : Interval α) : Ordering :=
  (compare i.lo j.lo).then (compare i.hi j.hi)

/-- The text of an interval: its ends in brackets. -/
def render [ToString α] (i : Interval α) : String :=
  "[" ++ toString i.lo ++ ", " ++ toString i.hi ++ "]"

/-- The text of an interval that names its parts. -/
def renderParts [ToString α] (i : Interval α) : String :=
  "ClosedInterval \x7b lo: " ++ toString i.lo ++ ", hi: " ++ toString i.hi ++ " \x7d"

end General

/-- The interval of a single natural number. -/
def point (n : Nat) : Interval Nat := ⟨n, n, Nat.le_refl n⟩

/-- The naturals up to a bound. -/
def upTo (n : Nat) : Interval Nat := ⟨0, n, Nat.zero_le n⟩

/-- The distance between the ends. -/
def width (i : Interval Nat) : Nat := i.hi - i.lo

/-- The number of points. -/
def size (i : Interval Nat) : Nat := i.hi - i.lo + 1

theorem size_pos (i : Interval Nat) : 0 < i.size := Nat.succ_pos _

theorem size_le_size {i j : Interval Nat} (h : i ≤ j) : i.size ≤ j.size := by
  have hends := le_def.mp h
  have hi := i.lo_le_hi
  simp only [size]
  omega

/-- The middle point, rounded towards the lower end. -/
def midpoint (i : Interval Nat) : Nat := i.lo + (i.hi - i.lo) / 2

/-- The lower and the upper half; a single point has no halves. -/
def halves? (i : Interval Nat) : Option (Interval Nat × Interval Nat) :=
  if h : i.lo = i.hi then none
  else
    have := i.lo_le_hi
    some (⟨i.lo, i.midpoint, by simp only [midpoint]; omega⟩,
      ⟨i.midpoint + 1, i.hi, by simp only [midpoint]; omega⟩)

theorem halves?_eq_none_iff {i : Interval Nat} : i.halves? = none ↔ i.isFixed := by
  rw [halves?, isFixed]; split <;> simp_all

theorem ends_of_halves? {i l u : Interval Nat} (h : i.halves? = some (l, u)) :
    l.lo = i.lo ∧ l.hi = i.midpoint ∧ u.lo = i.midpoint + 1 ∧ u.hi = i.hi := by
  unfold halves? at h
  split at h
  · simp at h
  · simp only [Option.some.injEq, Prod.mk.injEq] at h
    obtain ⟨rfl, rfl⟩ := h
    exact ⟨rfl, rfl, rfl, rfl⟩

/-- The halves share out the points of an interval. -/
theorem size_of_halves? {i l u : Interval Nat} (h : i.halves? = some (l, u)) :
    l.size + u.size = i.size := by
  obtain ⟨h₁, h₂, h₃, h₄⟩ := ends_of_halves? h
  have := l.lo_le_hi
  have := u.lo_le_hi
  have := i.lo_le_hi
  simp only [size, midpoint] at *
  omega

/-- Both halves are narrower than the interval. -/
theorem halves?_lt {i l u : Interval Nat} (h : i.halves? = some (l, u)) :
    (l ≤ i ∧ l ≠ i) ∧ u ≤ i ∧ u ≠ i := by
  obtain ⟨h₁, h₂, h₃, h₄⟩ := ends_of_halves? h
  have hl := l.lo_le_hi
  have hu := u.lo_le_hi
  refine ⟨⟨le_def.mpr (by omega), fun heq => ?_⟩, le_def.mpr (by omega), fun heq => ?_⟩
  · have hhi := congrArg Interval.hi heq
    omega
  · have hlo := congrArg Interval.lo heq
    omega

theorem inter?_eq_some_iff {i j k : Interval Nat} :
    i.inter? j = some k ↔ k.lo = max i.lo j.lo ∧ k.hi = min i.hi j.hi :=
  ofEnds?_eq_some_iff

theorem atMost?_eq_some_iff {i k : Interval Nat} {b : Nat} :
    i.atMost? b = some k ↔ k.lo = i.lo ∧ k.hi = min i.hi b :=
  ofEnds?_eq_some_iff

theorem atLeast?_eq_some_iff {i k : Interval Nat} {b : Nat} :
    i.atLeast? b = some k ↔ k.lo = max i.lo b ∧ k.hi = i.hi :=
  ofEnds?_eq_some_iff

theorem ofEnds?_eq_none_iff {lo hi : Nat} : ofEnds? lo hi = none ↔ hi < lo := by
  rw [ofEnds?]
  split <;> simp <;> omega

theorem atMost?_eq_none_iff {i : Interval Nat} {b : Nat} : i.atMost? b = none ↔ b < i.lo := by
  have hends := i.lo_le_hi
  rw [atMost?, ofEnds?_eq_none_iff]
  omega

theorem atLeast?_eq_none_iff {i : Interval Nat} {b : Nat} : i.atLeast? b = none ↔ i.hi < b := by
  have hends := i.lo_le_hi
  rw [atLeast?, ofEnds?_eq_none_iff]
  omega

/-- Nothing of an interval is lost within another one that holds it. -/
theorem inter?_of_le {i j : Interval Nat} (h : j ≤ i) : i.inter? j = some j :=
  inter?_eq_some_iff.mpr ⟨(Nat.max_eq_right h.1).symm, (Nat.min_eq_right h.2).symm⟩

theorem inter?_le_left {i j k : Interval Nat} (h : i.inter? j = some k) : k ≤ i := by
  obtain ⟨h₁, h₂⟩ := inter?_eq_some_iff.1 h
  exact le_def.2 ⟨by omega, by omega⟩

theorem atMost?_le {i k : Interval Nat} {b : Nat} (h : i.atMost? b = some k) : k ≤ i := by
  obtain ⟨h₁, h₂⟩ := atMost?_eq_some_iff.1 h
  exact le_def.2 ⟨by omega, by omega⟩

theorem atLeast?_le {i k : Interval Nat} {b : Nat} (h : i.atLeast? b = some k) : k ≤ i := by
  obtain ⟨h₁, h₂⟩ := atLeast?_eq_some_iff.1 h
  exact le_def.2 ⟨by omega, by omega⟩

end Interval

end Provision
