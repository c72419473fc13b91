import Provision.Pool

/-!
# Support caches

A cache remembers verdicts about pairs of a pool and a functionality, and counts how often a
question was answered from memory and how often it was not. Dropping the verdicts leaves the
counters alone.
-/

namespace Provision

/-- Remembered verdicts, and the counters of hits and misses. -/
structure SupportCache where
  verdicts : Table Functionality (Table Pool Bool)
  hits : Nat
  misses : Nat

namespace SupportCache

/-- The cache that remembers nothing. -/
def empty : SupportCache := ⟨.empty, 0, 0⟩

/-- The verdict remembered for a pair, if any. -/
def verdict? (c : SupportCache) (p : Pool) (f : Functionality) : Option Bool :=
  (c.verdicts.get? f).bind (·.get? p)

/-- Ask for a verdict and count the question. -/
def lookup (c : SupportCache) (p : Pool) (f : Functionality) : Option Bool × SupportCache :=
  match c.verdict? p f with
  | some b => (some b, { c with hits := c.hits + 1 })
  | none => (none, { c with misses := c.misses + 1 })

/-- Remember a verdict in place of any earlier one. -/
def insert (c : SupportCache) (p : Pool) (f : Functionality) (supported : Bool) : SupportCache :=
  { c with verdicts := c.verdicts.update f fun old => (old.getD .empty).insert p supported }

/-- The number of verdicts remembered. -/
def size (c : SupportCache) : Nat := sumOf (c.verdicts.entries.map fun e => e.2.size)

/-- Forget all verdicts. -/
def clear (c : SupportCache) : SupportCache := { c with verdicts := .empty }

/-- Set both counters to zero. -/
def resetCounters (c : SupportCache) : SupportCache := { c with hits := 0, misses := 0 }

/-! ### What a cache remembers -/

@[simp] theorem verdicts_lookup (c : SupportCache) (p : Pool) (f : Functionality) :
    (c.lookup p f).2.verdicts = c.verdicts := by
  rw [lookup]
  split <;> rfl

@[simp] theorem fst_lookup (c : SupportCache) (p : Pool) (f : Functionality) :
    (c.lookup p f).1 = c.verdict? p f := by
  rw [lookup]
  split <;> simp_all

theorem verdict?_insert (c : SupportCache) (p p' : Pool) (f f' : Functionality) (b : Bool) :
    (c.insert p f b).verdict? p' f' = if f' = f ∧ p' = p then some b else c.verdict? p' f' := by
  unfold verdict? insert
  simp only [Table.get?_update]
  by_cases hf : f' = f
  · subst hf
    simp only [if_true, Option.bind_some, Table.get?_insert, true_and]
    cases hv : c.verdicts.get? f' <;> simp
  · simp [hf]

end SupportCache

end Provision
