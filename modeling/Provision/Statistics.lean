/-!
# Counters and spans of time

Statistics are made of counters and of the time that something took. A counter goes up to the end of
its type and stays there. If it goes up in several steps, it shows the exact number of events, cut
once at the end of the type.

A span of time is written in the largest unit of seconds, milliseconds, microseconds and nanoseconds
that it fills, with two decimals. A half goes to the even neighbour, and rounding does not change
the unit.
-/

namespace Provision

/-! ## Counters -/

namespace Counter

/-- The greatest value of a counter. -/
def ceiling : Nat := 18446744073709551615

/-- A counter after some more events. -/
def add (count more : Nat) : Nat := min (count + more) ceiling

/-- The counter has counted a number of events. -/
def Shows (count n : Nat) : Prop := count = min n ceiling

variable {count n : Nat}

theorem shows_zero : Shows 0 0 := rfl

theorem Shows.add (h : Shows count n) (more : Nat) : Shows (add count more) (n + more) := by
  rw [Shows] at h ⊢
  rw [Counter.add, h]
  omega

theorem Shows.eq (h : Shows count n) (hfits : n ≤ ceiling) : count = n :=
  Eq.trans h (Nat.min_eq_left hfits)

theorem Shows.le (h : Shows count n) : count ≤ n :=
  Nat.le_trans (Nat.le_of_eq h) (Nat.min_le_left _ _)

end Counter

/-! ## Spans of time -/

namespace Text

/-- The quotient rounded to the nearest natural number; of two nearest ones the even one. -/
def roundHalfEven (num den : Nat) : Nat :=
  let q := num / den
  let r := 2 * (num % den)
  if r < den then q
  else if den < r then q + 1
  else q + q % 2

/-- The unit for a span, in nanoseconds, and its sign. -/
def timeUnit (nanos : Nat) : Nat × String :=
  if 1000000000 ≤ nanos then (1000000000, "s")
  else if 1000000 ≤ nanos then (1000000, "ms")
  else if 1000 ≤ nanos then (1000, "µs")
  else (1, "ns")

/-- A number of hundredths as a decimal with two places. -/
def renderHundredths (n : Nat) : String :=
  toString (n / 100) ++ "." ++ toString (n / 10 % 10) ++ toString (n % 10)

/-- The text of a span of time given in nanoseconds. -/
def renderElapsed (nanos : Nat) : String :=
  let unit := timeUnit nanos
  renderHundredths (roundHalfEven (100 * nanos) unit.1) ++ unit.2

end Text

end Provision
