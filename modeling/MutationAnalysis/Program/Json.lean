/-
Programs as JSON.

Writing gives every field of every record in order of declaration.  Reading follows the rules for
records: declarations, constructors, the version and the location of an instruction have defaults,
and a destination may be left out of an object.
-/
import MutationAnalysis.Json.Record
import MutationAnalysis.Program.Basic

namespace MutationAnalysis

open Json

def Value.toJson : Value → Json
  | int n => record [("Int", .int n.toInt)]
  | bool b => record [("Bool", .bool b)]

def Operand.toJson : Operand → Json
  | register r => record [("Register", .nat r.toNat)]
  | immediate v => record [("Immediate", v.toJson)]
  | block index => record [("BlockIndex", .nat index.toNat)]
  | symbol name => record [("Symbol", .text name)]

def Location.toJson (l : Location) : Json :=
  record [("file", .text l.file), ("line", .nat l.line.toNat), ("column", .nat l.column.toNat)]

def Instruction.toJson (i : Instruction) : Json :=
  record [("opcode", .text i.opcode.name), ("dest", orNull (fun r => .nat r.toNat) i.dest),
    ("operands", listOf Operand.toJson i.operands), ("location", orNull Location.toJson i.location)]

def Block.toJson (b : Block) : Json :=
  record [("instructions", listOf Instruction.toJson b.instructions)]

def ReturnType.toJson (t : ReturnType) : Json := .text t.name

def Signature.toJson (s : Signature) : Json :=
  record [("num_params", .nat s.numParams.toNat), ("return_type", s.returnType.toJson)]

def Function.toJson (f : Function) : Json :=
  record [("name", .text f.name), ("num_params", .nat f.numParams.toNat),
    ("num_locals", .nat f.numLocals.toNat), ("blocks", listOf Block.toJson f.blocks),
    ("return_type", f.returnType.toJson)]

def Declaration.toJson (d : Declaration) : Json :=
  record [("name", .text d.name), ("num_params", .nat d.numParams.toNat),
    ("return_type", d.returnType.toJson)]

def Program.toJson (p : Program) : Json :=
  record [("functions", listOf Function.toJson p.functions),
    ("declarations", listOf Declaration.toJson p.declarations),
    ("constructors", listOf .text p.constructors), ("version", .nat p.version.toNat)]

def Value.ofJson? (v : Json) : Option Value := do
  match ← v.case? with
  | ("Int", some v) => return .int (← v.int32?)
  | ("Bool", some v) => return .bool (← v.bool?)
  | _ => none

def Operand.ofJson? (v : Json) : Option Operand := do
  match ← v.case? with
  | ("Register", some v) => return .register (← v.uint8?)
  | ("Immediate", some v) => return .immediate (← Value.ofJson? v)
  | ("BlockIndex", some v) => return .block (← v.uint32?)
  | ("Symbol", some v) => return .symbol (← v.string?)
  | _ => none

def Opcode.ofJson? : Json → Option Opcode :=
  plainCase? (Opcode.all.map fun o => (o.name, o))

def ReturnType.ofJson? : Json → Option ReturnType :=
  plainCase? [("Void", .void), ("Int", .int)]

def Location.ofJson? (v : Json) : Option Location := do
  let r ← v.fields? ["file", "line", "column"]
  return ⟨← r.required 0 string?, ← r.required 1 uint32?, ← r.required 2 uint32?⟩

def Instruction.ofJson? (v : Json) : Option Instruction := do
  let r ← v.fields? ["opcode", "dest", "operands", "location"]
  return ⟨← r.required 0 Opcode.ofJson?, ← r.optional 1 uint8?,
    ← r.required 2 (list? Operand.ofJson?), ← r.withDefault 3 (nullable? Location.ofJson?) none⟩

def Block.ofJson? (v : Json) : Option Block := do
  let r ← v.fields? ["instructions"]
  return ⟨← r.required 0 (list? Instruction.ofJson?)⟩

def Function.ofJson? (v : Json) : Option Function := do
  let r ← v.fields? ["name", "num_params", "num_locals", "blocks", "return_type"]
  return ⟨← r.required 0 string?, ← r.required 1 uint64?, ← r.required 2 uint64?,
    ← r.required 3 (list? Block.ofJson?), ← r.required 4 ReturnType.ofJson?⟩

def Declaration.ofJson? (v : Json) : Option Declaration := do
  let r ← v.fields? ["name", "num_params", "return_type"]
  return ⟨← r.required 0 string?, ← r.required 1 uint64?, ← r.required 2 ReturnType.ofJson?⟩

def Program.ofJson? (v : Json) : Option Program := do
  let r ← v.fields? ["functions", "declarations", "constructors", "version"]
  return ⟨← r.required 0 (list? Function.ofJson?), ← r.withDefault 1 (list? Declaration.ofJson?) [],
    ← r.withDefault 2 (list? string?) [], ← r.withDefault 3 uint32? 1⟩

end MutationAnalysis
