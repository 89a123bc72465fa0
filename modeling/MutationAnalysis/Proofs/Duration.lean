/-
How many ticks a deadline waits.

A deadline waits for as many ticks as a span is long, the last one begun counted as whole.  That
count is the least one that covers the span, so it grows with the span as long as it fits in 64
bits.  A count that does not fit is replaced by a fixed one, which is a quarter of the largest
count, so it is less than the count of many spans that are shorter.

* `Duration.exactTicks_le`: the count is the least one that covers the span;
* `Duration.ticks_of_fits`, `Duration.ticks_of_overflow`: the ticks of a
  deadline on both sides of the joint;
* `Duration.ticks_deadline`: that the ticks cover the span and no more,
  and when a longer span has fewer.
-/
import MutationAnalysis.Duration
import Mathlib.Tactic.Common

namespace MutationAnalysis.Duration

/-- The number of ticks in a span, the last one begun counted as whole,
in whatever width it needs. -/
def exactTicks (d : Duration) : Nat := (d.nanoseconds + (tick - 1)) / tick

/-- The count that stands for all counts of more than 64 bits. -/
def saturatedTicks : Nat := (UInt64.size - 1) / 4

theorem tick_pos : 0 < tick := by decide

/-- So many ticks cover a span if and only if it has no more of them. -/
theorem exactTicks_le {d : Duration} {n : Nat} : d.exactTicks ≤ n ↔ d.nanoseconds ≤ n * tick := by
  have hpos := tick_pos
  rw [exactTicks, ← Nat.lt_succ_iff, Nat.div_lt_iff_lt_mul hpos, Nat.succ_mul]
  omega

theorem exactTicks_mono {a b : Duration} (h : a.nanoseconds ≤ b.nanoseconds) :
    a.exactTicks ≤ b.exactTicks :=
  exactTicks_le.mpr (Nat.le_trans h (exactTicks_le.mp (Nat.le_refl _)))

/-- Ticks that fit are counted, and none become one. -/
theorem ticks_of_fits {d : Duration} (h : d.exactTicks < UInt64.size) :
    d.ticks = Max.max d.exactTicks 1 := by
  show Nat.max (if d.exactTicks < UInt64.size then d.exactTicks else (UInt64.size - 1) / 4) 1 = _
  rw [if_pos h]

theorem ticks_of_overflow {d : Duration} (h : UInt64.size ≤ d.exactTicks) :
    d.ticks = saturatedTicks := by
  show Nat.max (if d.exactTicks < UInt64.size then d.exactTicks else (UInt64.size - 1) / 4) 1 = _
  rw [if_neg (by omega)]
  rfl

theorem one_le_ticks (d : Duration) : 1 ≤ d.ticks := Nat.le_max_right _ _

/-- Ticks that fit cover the span, and one fewer does not. -/
theorem covers_of_fits {d : Duration} (h : d.exactTicks < UInt64.size) :
    d.nanoseconds ≤ d.ticks * tick ∧ (1 < d.ticks → (d.ticks - 1) * tick < d.nanoseconds) := by
  rw [ticks_of_fits h]
  constructor
  · exact exactTicks_le.mp (Nat.le_max_left _ _)
  · intro hone
    have hcount : Max.max d.exactTicks 1 = d.exactTicks := by omega
    rw [hcount] at hone ⊢
    by_contra hcovers
    have hle := exactTicks_le.mpr (Nat.le_of_not_lt hcovers)
    omega

/-- A longer span has fewer ticks if and only if its count does not fit, and that of the shorter
span fits but is more than the one that stands for all that do not. -/
theorem ticks_lt_iff {a b : Duration} (hle : a.nanoseconds ≤ b.nanoseconds) : b.ticks < a.ticks ↔
    UInt64.size ≤ b.exactTicks ∧ a.exactTicks < UInt64.size ∧ saturatedTicks < a.exactTicks := by
  have hmono := exactTicks_mono hle
  have hpos : 1 < saturatedTicks := by decide
  rcases Nat.lt_or_ge b.exactTicks UInt64.size with hb | hb
  · rw [ticks_of_fits hb, ticks_of_fits (Nat.lt_of_le_of_lt hmono hb)]
    omega
  · rw [ticks_of_overflow hb]
    rcases Nat.lt_or_ge a.exactTicks UInt64.size with ha | ha
    · rw [ticks_of_fits ha]
      omega
    · rw [ticks_of_overflow ha]
      omega

/-- A deadline waits for at least one tick.  If its count fits in 64 bits, it waits until
the span is over and not a tick longer.  A longer span never waits for fewer ticks, except
where the count of the longer span does not fit and that of the shorter one is more than
the count that stands for it. -/
theorem ticks_deadline (a b : Duration) (hle : a.nanoseconds ≤ b.nanoseconds) :
    1 ≤ a.ticks ∧
    (a.exactTicks < UInt64.size →
      a.nanoseconds ≤ a.ticks * tick ∧ (1 < a.ticks → (a.ticks - 1) * tick < a.nanoseconds)) ∧
    (b.ticks < a.ticks ↔
      UInt64.size ≤ b.exactTicks ∧ a.exactTicks < UInt64.size ∧ saturatedTicks < a.exactTicks) :=
  ⟨one_le_ticks a, covers_of_fits, ticks_lt_iff hle⟩

/-- The longest span whose count fits. -/
def longestCounted : Duration := ofParts 92233720368547758 75000000

/-- A span that is one nanosecond longer. -/
def shortestUncounted : Duration := ofParts 92233720368547758 75000001

theorem longestCounted_deadline : longestCounted.nanoseconds ≤ shortestUncounted.nanoseconds ∧
    longestCounted.nanoseconds = longestCounted.ticks * tick ∧
    (longestCounted.ticks - 1) * tick < longestCounted.nanoseconds ∧
    shortestUncounted.ticks < longestCounted.ticks := by
  have hle : longestCounted.nanoseconds ≤ shortestUncounted.nanoseconds := by decide
  obtain ⟨-, hcovers, hlt⟩ := ticks_deadline longestCounted shortestUncounted hle
  obtain ⟨-, hleast⟩ := hcovers (by decide)
  exact ⟨hle, by decide, hleast (by decide), hlt.mpr (by decide)⟩

/-- The longer of two spans that a timeout can have waits for fewer ticks. -/
theorem shortestUncounted_earlier : longestCounted.nanoseconds < shortestUncounted.nanoseconds ∧
    shortestUncounted.nanoseconds ≤ longest.nanoseconds ∧
    longestCounted.ticks = 18446744073709551615 ∧
    shortestUncounted.ticks = 4611686018427387903 := by
  decide

end MutationAnalysis.Duration
