/-
Recording who calls whom.

A recorder has a slot per function number.  When a function is entered for the first time, its slot
takes the number of the function that runs at that moment, or the function's own number when none
does; slots of functions that never ran hold zero.  The function that runs is the top of a stack
that every entry pushes and every return pops.
-/

namespace MutationAnalysis

structure Recorder where
  mapping : Array Nat
  /-- The functions under way, the innermost first. -/
  stack : List Nat
  deriving Repr, DecidableEq

namespace Recorder

def empty : Recorder := ⟨#[], []⟩

/-- Starts afresh with so many slots. -/
def start (size : Nat) : Recorder := ⟨Array.replicate size 0, []⟩

def enter (r : Recorder) (index : Nat) : Recorder :=
  match r with
  | ⟨mapping, stack⟩ =>
    if mapping[index]? = some 0 then
      ⟨mapping.setIfInBounds index (stack.headD index), index :: stack⟩
    else ⟨mapping, index :: stack⟩

/-- Ends the function under way, whichever number is given. -/
def leave (r : Recorder) : Recorder := { r with stack := r.stack.tail }

end Recorder

end MutationAnalysis
