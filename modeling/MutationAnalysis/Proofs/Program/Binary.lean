/-
Programs and their binary encodings.

The reader of every record and of every case is exact for its writer, and with it the reader of
programs (`isExact_program`): a program is what its encoding stands for, whatever bytes follow, and
no other bytes stand for it (`Program.ofBytes_eq_ok`).
-/
import MutationAnalysis.Program.Binary
import MutationAnalysis.Proofs.Binary.Codec
import Mathlib.Data.List.Infix

namespace MutationAnalysis

open Binary

/-! ### Instructions -/

/-- The number of the case. -/
def Value.tag : Value → Nat
  | int _ => 0
  | bool _ => 1

/-- The bytes after the number of the case. -/
def Value.data : Value → List UInt8
  | int n => ofInt32 n
  | bool b => ofBool b

theorem Value.toBytes_eq (v : Value) : v.toBytes = ofTag v.tag ++ v.data := by cases v <;> rfl

theorem isExact_value : IsExact Value.toBytes Value.read := by
  rw [funext Value.toBytes_eq]
  refine isExact_tagged Value.tag Value.data Value.readCase
    (fun v => by cases v <;> simp [Value.tag]) fun n => ?_
  match n with
  | 0 =>
    refine .case Value.int isExact_int32 (fun v => ?_) fun _ => rfl
    cases v <;> simp [Value.tag]
  | 1 =>
    refine .case Value.bool isExact_bool (fun v => ?_) fun _ => rfl
    cases v <;> simp [Value.tag]
  | _ + 2 =>
    refine .noCase fun v => ?_
    cases v <;> simp [Value.tag]

/-- The number of the case. -/
def Operand.tag : Operand → Nat
  | register _ => 0
  | immediate _ => 1
  | block _ => 2
  | symbol _ => 3

/-- The bytes after the number of the case. -/
def Operand.data : Operand → List UInt8
  | register r => ofUInt8 r
  | immediate v => v.toBytes
  | block index => ofUInt32 index
  | symbol name => ofText name

theorem Operand.toBytes_eq (o : Operand) : o.toBytes = ofTag o.tag ++ o.data := by cases o <;> rfl

theorem isExact_operand : IsExact Operand.toBytes Operand.read := by
  rw [funext Operand.toBytes_eq]
  refine isExact_tagged Operand.tag Operand.data Operand.readCase
    (fun o => by cases o <;> simp [Operand.tag]) fun n => ?_
  match n with
  | 0 =>
    refine .case Operand.register isExact_uint8 (fun o => ?_) fun _ => rfl
    cases o <;> simp [Operand.tag]
  | 1 =>
    refine .case Operand.immediate isExact_value (fun o => ?_) fun _ => rfl
    cases o <;> simp [Operand.tag]
  | 2 =>
    refine .case Operand.block isExact_uint32 (fun o => ?_) fun _ => rfl
    cases o <;> simp [Operand.tag]
  | 3 =>
    refine .case Operand.symbol isExact_text (fun o => ?_) fun _ => rfl
    cases o <;> simp [Operand.tag]
  | _ + 4 =>
    refine .noCase fun o => ?_
    cases o <;> simp [Operand.tag]

theorem isExact_opcode : IsExact Opcode.toBytes (readCase Opcode.all) :=
  isExact_case (by decide) (fun o => by cases o <;> decide) (by decide)

theorem isExact_location : IsExact Location.toBytes Location.read :=
  IsExactOn.isExact (.field Location.file isExact_text fun file =>
    .field Location.line isExact_uint32 fun line =>
      .field Location.column isExact_uint32 fun column =>
        .done ⟨file, line, column⟩ fun l => by cases l; simp [and_assoc])
    (fun l => by simp [Location.toBytes]) fun _ => List.cons_ne_nil _ _

theorem isExact_instruction : IsExact Instruction.toBytes Instruction.read :=
  IsExactOn.isExact (.field Instruction.opcode isExact_opcode fun opcode =>
    .field Instruction.dest (isExact_option isExact_uint8) fun dest =>
      .field Instruction.operands (isExact_list isExact_operand) fun operands =>
        .field Instruction.location (isExact_option isExact_location) fun location =>
          .done ⟨opcode, dest, operands, location⟩ fun i => by cases i; simp [and_assoc])
    (fun i => by simp [Instruction.toBytes]) fun _ => List.cons_ne_nil _ _

/-! ### Programs -/

theorem isExact_block : IsExact Block.toBytes Block.read :=
  IsExactOn.isExact (.field Block.instructions (isExact_list isExact_instruction)
    fun instructions =>
    .done ⟨instructions⟩ fun b => by cases b; simp)
    (fun b => by simp [Block.toBytes]) fun _ => List.cons_ne_nil _ _

theorem ReturnType.toBytes_eq (t : ReturnType) :
    t.toBytes = ofTag (List.idxOf t [ReturnType.void, ReturnType.int]) := by cases t <;> rfl

theorem isExact_returnType : IsExact ReturnType.toBytes ReturnType.read := by
  rw [funext ReturnType.toBytes_eq]
  exact isExact_case (by decide) (fun t => by cases t <;> decide) (by decide)

theorem isExact_function : IsExact Function.toBytes Function.read :=
  IsExactOn.isExact (.field Function.name isExact_text fun name =>
    .field Function.numParams isExact_uint64 fun numParams =>
      .field Function.numLocals isExact_uint64 fun numLocals =>
        .field Function.blocks (isExact_list isExact_block) fun blocks =>
          .field Function.returnType isExact_returnType fun returnType =>
            .done ⟨name, numParams, numLocals, blocks, returnType⟩ fun f => by
              cases f; simp [and_assoc])
    (fun f => by simp [Function.toBytes]) fun _ => List.cons_ne_nil _ _

theorem isExact_declaration : IsExact Declaration.toBytes Declaration.read :=
  IsExactOn.isExact (.field Declaration.name isExact_text fun name =>
    .field Declaration.numParams isExact_uint64 fun numParams =>
      .field Declaration.returnType isExact_returnType fun returnType =>
        .done ⟨name, numParams, returnType⟩ fun d => by cases d; simp [and_assoc])
    (fun d => by simp [Declaration.toBytes]) fun _ => List.cons_ne_nil _ _

theorem isExact_program : IsExact Program.toBytes Program.read :=
  IsExactOn.isExact (.field Program.functions (isExact_list isExact_function) fun functions =>
    .field Program.declarations (isExact_list isExact_declaration) fun declarations =>
      .field Program.constructors (isExact_list isExact_text) fun constructors =>
        .field Program.version isExact_uint32 fun version =>
          .done ⟨functions, declarations, constructors, version⟩ fun p => by
            cases p; simp [and_assoc])
    (fun p => by simp [Program.toBytes]) fun _ => List.cons_ne_nil _ _

/-! ### Reading a program back -/

theorem Program.ofBytes_eq_ok_iff {bytes : List UInt8} {p : Program} :
    Program.ofBytes bytes = .ok p ↔ ∃ rest, Program.read bytes = some (p, rest) := by
  rw [Program.ofBytes, Program.ofBytes?]
  cases Program.read bytes with
  | none => simp
  | some found => simp [Prod.ext_iff]

/-- Bytes are read as the program that they begin with the encoding of. -/
theorem Program.ofBytes_eq_ok {p : Program} (hsize : p.toBytes.length < UInt64.size)
    {bytes : List UInt8} : Program.ofBytes bytes = .ok p ↔ p.toBytes <+: bytes := by
  rw [ofBytes_eq_ok_iff]
  constructor
  · rintro ⟨rest, hread⟩
    exact ⟨rest, (isExact_program.eq_append hread).symm⟩
  · rintro ⟨rest, rfl⟩
    exact ⟨rest, isExact_program.read_append p rest hsize⟩

/-- Bytes that begin with no encoding of a program are not read. -/
theorem Program.ofBytes_eq_error {bytes : List UInt8}
    (h : ∀ p : Program, ¬ p.toBytes <+: bytes) :
    ∃ text, Program.ofBytes bytes = .error ⟨.serialization, text⟩ := by
  rw [Program.ofBytes, Program.ofBytes?]
  cases hread : Program.read bytes with
  | none => exact ⟨_, rfl⟩
  | some found => exact absurd ⟨found.2, (isExact_program.eq_append hread).symm⟩ (h found.1)

/-- An encoding is read as its program alone, whatever follows it.  So no encoding begins with the
encoding of another program, and bytes that begin with no encoding are an error. -/
theorem Program.ofBytes_exact (p : Program) (hsize : p.toBytes.length < UInt64.size)
    (bytes : List UInt8) :
    (Program.ofBytes bytes = .ok p ↔ p.toBytes <+: bytes)
      ∧ Program.ofBytes p.toBytes = .ok p
      ∧ (∀ q : Program, q.toBytes = p.toBytes → q = p)
      ∧ (∀ q : Program, q.toBytes <+: p.toBytes → q = p)
      ∧ ((∀ q : Program, ¬ q.toBytes <+: bytes) →
          ∃ text, Program.ofBytes bytes = .error ⟨.serialization, text⟩) := by
  have hself : Program.ofBytes p.toBytes = .ok p := (ofBytes_eq_ok hsize).mpr List.prefix_rfl
  have hprefix : ∀ q : Program, q.toBytes <+: p.toBytes → q = p := by
    intro q hq
    have hqsize := Nat.lt_of_le_of_lt hq.length_le hsize
    exact Except.ok.inj (((ofBytes_eq_ok hqsize).mpr hq).symm.trans hself)
  have heq : ∀ q : Program, q.toBytes = p.toBytes → q = p := fun q hq =>
    hprefix q (hq ▸ List.prefix_rfl)
  exact ⟨ofBytes_eq_ok hsize, hself, heq, hprefix, ofBytes_eq_error⟩

/-- A program of one function that returns at once. -/
def returningProgram : Program :=
  ⟨[⟨"f", 0, 0, [⟨[.returning none]⟩], .void⟩], [⟨"g", 1, .int⟩], ["f"], 1⟩

theorem ofBytes_returningProgram :
    returningProgram.toBytes.length < UInt64.size
      ∧ Program.ofBytes (returningProgram.toBytes ++ [7]) = .ok returningProgram := by
  have hsize : returningProgram.toBytes.length < UInt64.size := by decide +kernel
  have hexact := Program.ofBytes_exact returningProgram hsize (returningProgram.toBytes ++ [7])
  exact ⟨hsize, hexact.1.mpr (List.prefix_append _ _)⟩

end MutationAnalysis
