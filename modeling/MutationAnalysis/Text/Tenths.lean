/-
Numbers with one place after the point.

`tenths` shows a nonnegative binary floating-point number, rounded from its exact value; an exact
half goes to the even neighbour.
-/

namespace MutationAnalysis.Text

/-- The quotient rounded to the nearest natural number, a half to the even one. -/
def roundHalfEven (num den : Nat) : Nat :=
  let q := num / den
  let r := num % den
  if 2 * r < den then q
  else if den < 2 * r then q + 1
  else q + q % 2

/-- Mantissa and binary exponent of a finite double, its sign left aside. -/
def binaryParts (x : Float) : Nat × Int :=
  let bits := x.toBits.toNat
  let exponent : Nat := bits >>> 52 % 2048
  let fraction : Nat := bits % 4503599627370496
  if exponent = 0 then (fraction, -1074) else (fraction + 4503599627370496, (exponent : Int) - 1075)

/-- Text of a nonnegative number with one place. -/
def tenths (x : Float) : String :=
  let (m, e) := binaryParts x
  let n := match e with
    | .ofNat k => (10 * m) <<< k
    | .negSucc k => roundHalfEven (10 * m) (1 <<< (k + 1))
  toString (n / 10) ++ "." ++ toString (n % 10)

end MutationAnalysis.Text
