/-
Points in time as text.

An instant is shown in universal time as year-month-day, a T, hour:minute:second and a Z.  A
fraction of the second stands before the Z unless it is zero, with three, six or nine places, the
fewest that lose nothing.
-/

namespace MutationAnalysis.Text

/-- Nanoseconds since the beginning of the year 1970 in universal time. -/
structure Instant where
  nanoseconds : Nat
  deriving Repr, DecidableEq

/-- A day of the proleptic Gregorian calendar. -/
structure CivilDate where
  year : Nat
  month : Nat
  day : Nat
  deriving Repr, DecidableEq

/-- The date of a day counted from the beginning of 1970.  Years are taken to begin in March, so
that a leap day is the last day of its year, and 400 of them always have 146097 days. -/
def CivilDate.ofDays (days : Nat) : CivilDate :=
  let days := days + 719468
  let cycle := days / 146097
  let dayOfCycle := days % 146097
  let yearOfCycle :=
    (dayOfCycle - dayOfCycle / 1460 + dayOfCycle / 36524 - dayOfCycle / 146096) / 365
  let dayOfYear := dayOfCycle - (365 * yearOfCycle + yearOfCycle / 4 - yearOfCycle / 100)
  let monthFromMarch := (5 * dayOfYear + 2) / 153
  let month := if monthFromMarch < 10 then monthFromMarch + 3 else monthFromMarch - 9
  { year := 400 * cycle + yearOfCycle + if month ≤ 2 then 1 else 0
    month
    day := dayOfYear - (153 * monthFromMarch + 2) / 5 + 1 }

/-- A number with zeros before it up to a width. -/
def padded (width n : Nat) : String :=
  let digits := toString n
  String.ofList (List.replicate (width - digits.length) '0') ++ digits

def CivilDate.text (d : CivilDate) : String :=
  padded 4 d.year ++ "-" ++ padded 2 d.month ++ "-" ++ padded 2 d.day

namespace Instant

/-- The fraction of the second, with its point. -/
def fractionText (nanoseconds : Nat) : String :=
  if nanoseconds = 0 then ""
  else if nanoseconds % 1000000 = 0 then "." ++ padded 3 (nanoseconds / 1000000)
  else if nanoseconds % 1000 = 0 then "." ++ padded 6 (nanoseconds / 1000)
  else "." ++ padded 9 nanoseconds

def text (t : Instant) : String :=
  let seconds := t.nanoseconds / 1000000000
  let time := seconds % 86400
  (CivilDate.ofDays (seconds / 86400)).text ++ "T" ++ padded 2 (time / 3600) ++ ":"
    ++ padded 2 (time / 60 % 60) ++ ":" ++ padded 2 (time % 60)
    ++ fractionText (t.nanoseconds % 1000000000) ++ "Z"

end Instant

end MutationAnalysis.Text
