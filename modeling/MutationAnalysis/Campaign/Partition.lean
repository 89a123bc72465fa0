/-
Splitting work among workers.

A list is cut into as many contiguous slices as there are workers, or items if those are fewer.  The
lengths differ by at most one, and the longer slices come first.
-/

namespace MutationAnalysis

/-- A stretch of a list. -/
structure Slice where
  start : Nat
  length : Nat
  deriving Repr, DecidableEq

def Slice.of {α : Type} (s : Slice) (items : List α) : List α :=
  (items.drop s.start).take s.length

/-- How many slices a list of a length makes. -/
def sliceCount (length workers : Nat) : Nat :=
  min (max workers 1) length

/-- The lengths of the slices: the remainder goes to the first ones. -/
def sliceLengths (length workers : Nat) : List Nat :=
  let count := sliceCount length workers
  (List.range count).map fun i => length / count + if i < length % count then 1 else 0

/-- Slices of given lengths, one after the other from a start. -/
def slicesFrom (start : Nat) : List Nat → List Slice
  | [] => []
  | n :: rest => ⟨start, n⟩ :: slicesFrom (start + n) rest

/-- The slices of a list of a length. -/
def partition (length workers : Nat) : List Slice :=
  slicesFrom 0 (sliceLengths length workers)

end MutationAnalysis
