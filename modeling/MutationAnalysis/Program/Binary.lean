/-
The binary encoding of programs.

Every record is its fields in order of declaration, every case its number and its data.
`Program.ofBytes` leaves bytes after the program unread.
-/
import MutationAnalysis.Binary.Codec
import MutationAnalysis.Error
import MutationAnalysis.Program.Basic

namespace MutationAnalysis

open Binary

def Value.toBytes : Value → List UInt8
  | int n => ofTag 0 ++ ofInt32 n
  | bool b => ofTag 1 ++ ofBool b

def Opcode.toBytes (o : Opcode) : List UInt8 := ofTag (Opcode.all.idxOf o)

def Operand.toBytes : Operand → List UInt8
  | register r => ofTag 0 ++ ofUInt8 r
  | immediate v => ofTag 1 ++ v.toBytes
  | block index => ofTag 2 ++ ofUInt32 index
  | symbol name => ofTag 3 ++ ofText name

def Location.toBytes (l : Location) : List UInt8 :=
  ofText l.file ++ ofUInt32 l.line ++ ofUInt32 l.column

def Instruction.toBytes (i : Instruction) : List UInt8 :=
  i.opcode.toBytes ++ ofOption ofUInt8 i.dest ++ ofList Operand.toBytes i.operands
    ++ ofOption Location.toBytes i.location

def Block.toBytes (b : Block) : List UInt8 := ofList Instruction.toBytes b.instructions

def ReturnType.toBytes : ReturnType → List UInt8
  | void => ofTag 0
  | int => ofTag 1

def Function.toBytes (f : Function) : List UInt8 :=
  ofText f.name ++ ofUInt64 f.numParams ++ ofUInt64 f.numLocals ++ ofList Block.toBytes f.blocks
    ++ f.returnType.toBytes

def Declaration.toBytes (d : Declaration) : List UInt8 :=
  ofText d.name ++ ofUInt64 d.numParams ++ d.returnType.toBytes

def Program.toBytes (p : Program) : List UInt8 :=
  ofList Function.toBytes p.functions ++ ofList Declaration.toBytes p.declarations
    ++ ofList ofText p.constructors ++ ofUInt32 p.version

/-- The value of the case of a number. -/
def Value.readCase : Nat → Reader Value
  | 0 => fun bytes => do
    let (n, rest) ← readInt32 bytes
    return (.int n, rest)
  | 1 => fun bytes => do
    let (b, rest) ← readBool bytes
    return (.bool b, rest)
  | _ => fun _ => none

def Value.read : Reader Value := fun bytes => do
  let (tag, rest) ← readNat 4 bytes
  Value.readCase tag rest

/-- The operand of the case of a number. -/
def Operand.readCase : Nat → Reader Operand
  | 0 => fun bytes => do
    let (r, rest) ← readUInt8 bytes
    return (.register r, rest)
  | 1 => fun bytes => do
    let (v, rest) ← Value.read bytes
    return (.immediate v, rest)
  | 2 => fun bytes => do
    let (index, rest) ← readUInt32 bytes
    return (.block index, rest)
  | 3 => fun bytes => do
    let (name, rest) ← readText bytes
    return (.symbol name, rest)
  | _ => fun _ => none

def Operand.read : Reader Operand := fun bytes => do
  let (tag, rest) ← readNat 4 bytes
  Operand.readCase tag rest

def Location.read : Reader Location := fun bytes => do
  let (file, rest) ← readText bytes
  let (line, rest) ← readUInt32 rest
  let (column, rest) ← readUInt32 rest
  return (⟨file, line, column⟩, rest)

def Instruction.read : Reader Instruction := fun bytes => do
  let (opcode, rest) ← readCase Opcode.all bytes
  let (dest, rest) ← readOption readUInt8 rest
  let (operands, rest) ← readList Operand.read rest
  let (location, rest) ← readOption Location.read rest
  return (⟨opcode, dest, operands, location⟩, rest)

def Block.read : Reader Block := fun bytes => do
  let (instructions, rest) ← readList Instruction.read bytes
  return (⟨instructions⟩, rest)

def ReturnType.read : Reader ReturnType := readCase [.void, .int]

def Function.read : Reader Function := fun bytes => do
  let (name, rest) ← readText bytes
  let (numParams, rest) ← readUInt64 rest
  let (numLocals, rest) ← readUInt64 rest
  let (blocks, rest) ← readList Block.read rest
  let (returnType, rest) ← ReturnType.read rest
  return (⟨name, numParams, numLocals, blocks, returnType⟩, rest)

def Declaration.read : Reader Declaration := fun bytes => do
  let (name, rest) ← readText bytes
  let (numParams, rest) ← readUInt64 rest
  let (returnType, rest) ← ReturnType.read rest
  return (⟨name, numParams, returnType⟩, rest)

def Program.read : Reader Program := fun bytes => do
  let (functions, rest) ← readList Function.read bytes
  let (declarations, rest) ← readList Declaration.read rest
  let (constructors, rest) ← readList readText rest
  let (version, rest) ← readUInt32 rest
  return (⟨functions, declarations, constructors, version⟩, rest)

/-- The program that the bytes begin with. -/
def Program.ofBytes? (bytes : List UInt8) : Option Program :=
  (Program.read bytes).map (·.1)

def Program.ofBytes (bytes : List UInt8) : Except Error Program :=
  match Program.ofBytes? bytes with
  | some p => .ok p
  | none => .error ⟨.serialization, "not the encoding of a program"⟩

end MutationAnalysis
