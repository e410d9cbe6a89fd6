import Mathlib.Data.Nat.Notation
import Mathlib.Data.Int.Notation

/-! Clocks that programs read. -/

namespace ReversalBench

/-- A clock: the time in nanoseconds at every reading, and the number of readings so
far. -/
structure Clock where
  time : ℕ → ℤ
  readings : ℕ

namespace Clock

def now (c : Clock) : ℤ := c.time c.readings

def tick (c : Clock) : Clock := { c with readings := c.readings + 1 }

end Clock

end ReversalBench
