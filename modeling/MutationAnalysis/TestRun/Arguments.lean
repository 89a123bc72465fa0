/-
Program arguments in memory.

An entry that takes two parameters is given the number of its arguments and the address of a table
of pointers to them.  The table ends with a zero word; the arguments follow it, each ended by a zero
byte.  All this stands in an area of fixed place and size, and is not written at all unless it fits.
-/
import MutationAnalysis.Binary.Codec

namespace MutationAnalysis

/-- Where the argument area begins. -/
def argumentArea : Nat := 0x1000

/-- How large the argument area is. -/
def argumentAreaSize : Nat := 0x1000

namespace Arguments

/-- Bytes of the pointer table, the zero word included. -/
def tableSize (arguments : List String) : Nat := (arguments.length + 1) * 4

/-- Bytes of the arguments, the zero bytes included. -/
def stringsSize : List String → Nat
  | [] => 0
  | a :: rest => a.utf8ByteSize + 1 + stringsSize rest

/-- The addresses of arguments that stand one after the other from an address on. -/
def pointers (next : Nat) : List String → List Nat
  | [] => []
  | a :: rest => next :: pointers (next + a.utf8ByteSize + 1) rest

/-- The bytes of an argument in memory. -/
def argumentBytes (a : String) : List UInt8 := a.toUTF8.toList ++ [0]

/-- The bytes of the area, if they fit: the table and the arguments after it. -/
def layout? (arguments : List String) : Option (List UInt8) :=
  let table := tableSize arguments
  if argumentAreaSize < table + stringsSize arguments then none
  else
    some ((pointers (argumentArea + table) arguments ++ [0]).flatMap (Binary.bytesOfNat 4)
      ++ arguments.flatMap argumentBytes)

end Arguments

end MutationAnalysis
