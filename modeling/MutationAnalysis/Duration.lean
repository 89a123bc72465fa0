/-
Spans of time and deadlines.

A span is a whole number of nanoseconds, at most `Duration.longest`; arithmetic saturates there.
Deadlines are counted in ticks of five milliseconds, and the machine that runs compiled code does
`stepsPerTick` steps in one tick, so a deadline is in the end a number of steps.
-/

namespace MutationAnalysis

/-- A span of time in nanoseconds. -/
structure Duration where
  nanoseconds : Nat
  deriving Repr, DecidableEq

namespace Duration

def zero : Duration := ⟨0⟩

/-- Nanoseconds in a second. -/
def second : Nat := 1000000000

/-- Nanoseconds in a millisecond. -/
def millisecond : Nat := 1000000

/-- The greatest span: all 64 bits of seconds and one nanosecond less than a second. -/
def longest : Duration := ⟨UInt64.size * second - 1⟩

def ofParts (seconds nanoseconds : Nat) : Duration := ⟨seconds * second + nanoseconds⟩

def seconds (d : Duration) : Nat := d.nanoseconds / second

def ofMilliseconds (n : Nat) : Duration := ⟨n * millisecond⟩

/-- Whole milliseconds, in 64 bits. -/
def milliseconds (d : Duration) : Nat := d.nanoseconds / millisecond % UInt64.size

/-- A multiple, at most the longest span. -/
def scale (d : Duration) (n : Nat) : Duration := ⟨min (d.nanoseconds * n) longest.nanoseconds⟩

def max (a b : Duration) : Duration := ⟨Nat.max a.nanoseconds b.nanoseconds⟩

/-- Nanoseconds in a tick. -/
def tick : Nat := 5 * millisecond

/-- Ticks that cover a span, at least one.  A count that does not fit in 64 bits becomes a
quarter of the largest one. -/
def ticks (d : Duration) : Nat :=
  let exact := (d.nanoseconds + (tick - 1)) / tick
  Nat.max (if exact < UInt64.size then exact else (UInt64.size - 1) / 4) 1

end Duration

/-- Steps that the machine does in one tick. -/
def stepsPerTick : Nat := 4000000

/-- Steps within which every run that ends at all is taken to end. -/
def patience : Nat := 4000000000000000000

/-- Steps that a deadline allows. -/
def Duration.steps (d : Duration) : Nat :=
  min (d.ticks * stepsPerTick) patience

/-- The time that a number of steps takes. -/
def Duration.ofSteps (n : Nat) : Duration :=
  ⟨n * Duration.tick / stepsPerTick⟩

end MutationAnalysis
