/-
The binary form of modules.

A module is a header and five sections (types, imports, functions, exports, code), each an
identifying byte and its contents preceded by their size.  Numbers are written seven bits a byte,
lowest first, in the fewest bytes; every byte but the last has its high bit set.  Memory
instructions carry the natural alignment and no offset; limits have no maximum; all locals of a
function are one group.
-/
import MutationAnalysis.Wasm.Module

namespace MutationAnalysis.Wasm

/-- An unsigned number in the fewest groups of seven bits. -/
def unsignedBytes (n : Nat) : List UInt8 :=
  if n < 128 then [UInt8.ofNat n]
  else UInt8.ofNat (n % 128 + 128) :: unsignedBytes (n / 128)
termination_by n

/-- A signed number in the fewest groups of seven bits; the second bit of
the last group is its sign. -/
def signedBytes (i : Int) : List UInt8 :=
  if h : -64 ≤ i ∧ i < 64 then [UInt8.ofNat (i % 128).toNat]
  else UInt8.ofNat ((i % 128).toNat + 128) :: signedBytes (i / 128)
termination_by i.natAbs
decreasing_by omega

def wordBytes (w : Word) : List UInt8 := signedBytes w.toInt32.toInt

/-- Contents preceded by how many there are. -/
def vectorBytes {α : Type} (write : α → List UInt8) (items : List α) : List UInt8 :=
  unsignedBytes items.length ++ items.flatMap write

def nameBytes (s : String) : List UInt8 :=
  unsignedBytes s.utf8ByteSize ++ s.toUTF8.toList

/-- Bytes preceded by their number. -/
def sized (bytes : List UInt8) : List UInt8 :=
  unsignedBytes bytes.length ++ bytes

/-- The byte of the word type. -/
def wordType : UInt8 := 0x7F

/-- The byte of the type of functions in a table. -/
def functionRefType : UInt8 := 0x70

/-- The byte of a construct's type that takes and leaves nothing. -/
def emptyType : UInt8 := 0x40

/-- The byte that ends a construct. -/
def endByte : UInt8 := 0x0B

/-- Natural alignment of a word, and no offset. -/
def memoryArgument : List UInt8 := [2, 0]

def BinaryOp.byte : BinaryOp → UInt8
  | add => 0x6A
  | sub => 0x6B
  | mul => 0x6C
  | divS => 0x6D
  | remS => 0x6F
  | eq => 0x46
  | ne => 0x47
  | ltS => 0x48
  | leS => 0x4C
  | gtS => 0x4A
  | geS => 0x4E
  | and => 0x71
  | or => 0x72
  | xor => 0x73

def Op.bytes : Op → List UInt8
  | const value => 0x41 :: wordBytes value
  | localGet index => 0x20 :: unsignedBytes index
  | localSet index => 0x21 :: unsignedBytes index
  | drop => [0x1A]
  | binary op => [op.byte]
  | eqz => [0x45]
  | load => 0x28 :: memoryArgument
  | store => 0x36 :: memoryArgument
  | globalGet index => 0x23 :: unsignedBytes index
  | call function => 0x10 :: unsignedBytes function
  | callIndirect type => 0x11 :: unsignedBytes type ++ [0]
  | ret => [0x0F]
  | unreachable => [0x00]
  | br depth => 0x0C :: unsignedBytes depth
  | brTable depths fallback =>
    0x0E :: vectorBytes unsignedBytes depths ++ unsignedBytes fallback

/-- The bytes of code, followed by the given ones. -/
def Code.bytesThen : Code → List UInt8 → List UInt8
  | done, tail => tail
  | op o rest, tail => o.bytes ++ rest.bytesThen tail
  | block body rest, tail =>
    0x02 :: emptyType :: body.bytesThen (endByte :: rest.bytesThen tail)
  | loop body rest, tail =>
    0x03 :: emptyType :: body.bytesThen (endByte :: rest.bytesThen tail)
  | ifElse yes no rest, tail =>
    0x04 :: emptyType :: yes.bytesThen
      (0x05 :: no.bytesThen (endByte :: rest.bytesThen tail))

def FuncType.bytes (t : FuncType) : List UInt8 :=
  0x60 :: vectorBytes (fun t => [t]) (List.replicate t.params wordType)
    ++ vectorBytes (fun t => [t]) (List.replicate t.results wordType)

def ImportKind.bytes : ImportKind → List UInt8
  | memory minimum => 0x02 :: 0x00 :: unsignedBytes minimum
  | table => [0x01, functionRefType, 0x00, 0x00]
  | global isMutable => [0x03, wordType, if isMutable then 1 else 0]
  | function type => 0x00 :: unsignedBytes type

def Import.bytes (i : Import) : List UInt8 :=
  nameBytes i.space ++ nameBytes i.name ++ i.kind.bytes

def Export.bytes (e : Export) : List UInt8 :=
  nameBytes e.name ++ 0x00 :: unsignedBytes e.function

/-- A function's locals in one group and its code. -/
def Body.bytes (b : Body) : List UInt8 :=
  sized (unsignedBytes 1 ++ unsignedBytes b.locals ++ wordType :: b.code.bytesThen [endByte])

/-- A section: its number and its sized contents. -/
def sectionBytes (number : UInt8) (contents : List UInt8) : List UInt8 :=
  number :: sized contents

/-- The magic text and the version. -/
def header : List UInt8 := [0x00, 0x61, 0x73, 0x6D, 0x01, 0x00, 0x00, 0x00]

def Module.bytes (m : Module) : List UInt8 :=
  header
    ++ sectionBytes 1 (vectorBytes FuncType.bytes m.types)
    ++ sectionBytes 2 (vectorBytes Import.bytes m.imports)
    ++ sectionBytes 3 (vectorBytes (fun b => unsignedBytes b.type) m.functions)
    ++ sectionBytes 7 (vectorBytes Export.bytes m.exports)
    ++ sectionBytes 10 (vectorBytes Body.bytes m.functions)

end MutationAnalysis.Wasm
