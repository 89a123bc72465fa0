/-
The binary encoding of data.

Numbers are little endian and of fixed width.  Text and lists begin with their length in 64 bits;
text is UTF-8.  An optional value begins with a byte 0 or 1, a truth value is such a byte, and a
case begins with its number in 32 bits.  A reader takes its data off the front of the input and
gives the rest back; it fails on wrong tags, ill-formed text and missing bytes.
-/

namespace MutationAnalysis.Binary

/-- The given number of low bytes of a number, the lowest first. -/
def bytesOfNat : Nat → Nat → List UInt8
  | 0, _ => []
  | count + 1, n => UInt8.ofNat (n % 256) :: bytesOfNat count (n / 256)

def ofUInt8 (n : UInt8) : List UInt8 := [n]

def ofUInt32 (n : UInt32) : List UInt8 := bytesOfNat 4 n.toNat

def ofUInt64 (n : UInt64) : List UInt8 := bytesOfNat 8 n.toNat

def ofInt32 (n : Int32) : List UInt8 := ofUInt32 n.toUInt32

def ofBool (b : Bool) : List UInt8 := [if b then 1 else 0]

def ofLength (n : Nat) : List UInt8 := bytesOfNat 8 n

def ofText (s : String) : List UInt8 :=
  ofLength s.utf8ByteSize ++ s.toUTF8.toList

def ofOption {α : Type} (write : α → List UInt8) : Option α → List UInt8
  | none => [0]
  | some a => 1 :: write a

def ofList {α : Type} (write : α → List UInt8) (items : List α) : List UInt8 :=
  ofLength items.length ++ items.flatMap write

/-- The number of a case. -/
def ofTag (n : Nat) : List UInt8 := bytesOfNat 4 n

/-- Takes data off the front of the input. -/
abbrev Reader (α : Type) := List UInt8 → Option (α × List UInt8)

/-- The number that so many bytes make. -/
def readNat : Nat → Reader Nat
  | 0, bytes => some (0, bytes)
  | _ + 1, [] => none
  | count + 1, b :: bytes => do
    let (high, rest) ← readNat count bytes
    return (b.toNat + 256 * high, rest)

def readUInt8 : Reader UInt8
  | [] => none
  | b :: rest => some (b, rest)

def readUInt32 : Reader UInt32 := fun bytes => do
  let (n, rest) ← readNat 4 bytes
  return (UInt32.ofNat n, rest)

def readUInt64 : Reader UInt64 := fun bytes => do
  let (n, rest) ← readNat 8 bytes
  return (UInt64.ofNat n, rest)

def readInt32 : Reader Int32 := fun bytes => do
  let (n, rest) ← readUInt32 bytes
  return (n.toInt32, rest)

def readBool : Reader Bool
  | 0 :: rest => some (false, rest)
  | 1 :: rest => some (true, rest)
  | _ => none

def readText : Reader String := fun bytes => do
  let (size, rest) ← readNat 8 bytes
  if rest.length < size then none
  else
    let s ← String.fromUTF8? ⟨(rest.take size).toArray⟩
    return (s, rest.drop size)

def readOption {α : Type} (read : Reader α) : Reader (Option α)
  | 0 :: rest => some (none, rest)
  | 1 :: rest => do
    let (a, rest) ← read rest
    return (some a, rest)
  | _ => none

/-- So many items, one after the other. -/
def readItems {α : Type} (read : Reader α) : Nat → Reader (List α)
  | 0, bytes => some ([], bytes)
  | count + 1, bytes => do
    let (a, rest) ← read bytes
    let (items, rest) ← readItems read count rest
    return (a :: items, rest)

def readList {α : Type} (read : Reader α) : Reader (List α) := fun bytes => do
  let (count, rest) ← readNat 8 bytes
  readItems read count rest

/-- The case of the number read, out of those in order. -/
def readCase {α : Type} (cases : List α) : Reader α := fun bytes => do
  let (n, rest) ← readNat 4 bytes
  let a ← cases[n]?
  return (a, rest)

end MutationAnalysis.Binary
