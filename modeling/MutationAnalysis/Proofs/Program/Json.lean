/-
A program is read back from every way to write it as JSON.

`Program.IsSpelled` says which documents spell a program: at every level a record may be an object,
its fields in any order and among unknown ones, or the array of its fields, and declarations,
constructors, the version and the location of an instruction may be left out where they have their
defaults.  An operand or a constant is an object of one field, which names its case, and a register
is a bare number; neither is a record.

* `Instruction.ofJson?_of_isSpelled` and the like, up to `Program.ofJson?_of_isSpelled`: every
  record is read from every document that spells it;
* `Program.isSpelled_toJson`, `Program.isWritable_toJson`: so is what is written, also as text;
* `Program.readBack_of_spelling`: texts.
-/
import MutationAnalysis.Program.Json
import MutationAnalysis.Proofs.Json.Record
import MutationAnalysis.Proofs.Json.Text

namespace MutationAnalysis

open Json

/-! ### Numbers, texts and cases -/

namespace Json

theorem natBelow?_nat {n bound : Nat} (h : n < bound) : (nat n).natBelow? bound = some n :=
  if_pos h

theorem uint8?_nat (n : UInt8) : (nat n.toNat).uint8? = some n := by
  rw [uint8?, natBelow?_nat n.toNat_lt_size, Option.map_some, UInt8.ofNat_toNat]

theorem uint32?_nat (n : UInt32) : (nat n.toNat).uint32? = some n := by
  rw [uint32?, natBelow?_nat n.toNat_lt_size, Option.map_some, UInt32.ofNat_toNat]

theorem uint64?_nat (n : UInt64) : (nat n.toNat).uint64? = some n := by
  rw [uint64?, natBelow?_nat n.toNat_lt_size, Option.map_some, UInt64.ofNat_toNat]

theorem int32?_int (n : Int32) : (int n.toInt).int32? = some n := by
  have hlow := n.le_toInt
  have hhigh := n.toInt_lt
  have hback := Int32.ofInt_toInt n
  generalize n.toInt = i at *
  cases i with
  | ofNat k =>
    rw [Int.ofNat_eq_natCast] at hlow hhigh
    exact (if_pos (by omega)).trans (congrArg some hback)
  | negSucc k => exact (if_pos (by omega)).trans (congrArg some hback)

end Json

theorem Value.ofJson?_toJson (v : Value) : Value.ofJson? v.toJson = some v := by
  cases v with
  | int n =>
    show (Json.int n.toInt).int32?.bind (fun n => some (Value.int n)) = _
    rw [int32?_int]
    rfl
  | bool b => rfl

theorem Operand.ofJson?_toJson (o : Operand) : Operand.ofJson? o.toJson = some o := by
  cases o with
  | register r =>
    show (nat r.toNat).uint8?.bind (fun r => some (Operand.register r)) = _
    rw [uint8?_nat]
    rfl
  | immediate v =>
    show (Value.ofJson? v.toJson).bind (fun v => some (Operand.immediate v)) = _
    rw [Value.ofJson?_toJson]
    rfl
  | block index =>
    show (nat index.toNat).uint32?.bind (fun index => some (Operand.block index)) = _
    rw [uint32?_nat]
    rfl
  | symbol name => rfl

theorem Opcode.ofJson?_name (o : Opcode) : Opcode.ofJson? (.text o.name) = some o := by
  cases o <;> rfl

theorem ReturnType.ofJson?_toJson (t : ReturnType) : ReturnType.ofJson? t.toJson = some t := by
  cases t <;> rfl

/-! ### The documents of a program -/

/-- The fields of a location. -/
def Location.forms (l : Location) : List FieldForm :=
  [.always "file" (· = .text l.file), .always "line" (· = .nat l.line.toNat),
    .always "column" (· = .nat l.column.toNat)]

def Location.IsSpelled (l : Location) : Json → Prop := SpellsRecord l.forms

/-- The fields of an instruction, of which the location has a default. -/
def Instruction.forms (i : Instruction) : List FieldForm :=
  [.always "opcode" (· = .text i.opcode.name),
    .always "dest" (· = orNull (fun r => .nat r.toNat) i.dest),
    .always "operands" (· = listOf Operand.toJson i.operands),
    ⟨"location", i.location = none, SpellsOption Location.IsSpelled i.location⟩]

def Instruction.IsSpelled (i : Instruction) : Json → Prop := SpellsRecord i.forms

/-- The field of a block. -/
def Block.forms (b : Block) : List FieldForm :=
  [.always "instructions" (SpellsList Instruction.IsSpelled b.instructions)]

def Block.IsSpelled (b : Block) : Json → Prop := SpellsRecord b.forms

/-- The fields of a function. -/
def Function.forms (f : Function) : List FieldForm :=
  [.always "name" (· = .text f.name), .always "num_params" (· = .nat f.numParams.toNat),
    .always "num_locals" (· = .nat f.numLocals.toNat),
    .always "blocks" (SpellsList Block.IsSpelled f.blocks),
    .always "return_type" (· = f.returnType.toJson)]

def Function.IsSpelled (f : Function) : Json → Prop := SpellsRecord f.forms

/-- The fields of a declaration. -/
def Declaration.forms (d : Declaration) : List FieldForm :=
  [.always "name" (· = .text d.name), .always "num_params" (· = .nat d.numParams.toNat),
    .always "return_type" (· = d.returnType.toJson)]

def Declaration.IsSpelled (d : Declaration) : Json → Prop := SpellsRecord d.forms

/-- The fields of a program, of which all but the functions have defaults. -/
def Program.forms (p : Program) : List FieldForm :=
  [.always "functions" (SpellsList Function.IsSpelled p.functions),
    ⟨"declarations", p.declarations = [], SpellsList Declaration.IsSpelled p.declarations⟩,
    ⟨"constructors", p.constructors = [], (· = listOf .text p.constructors)⟩,
    ⟨"version", p.version = 1, (· = .nat p.version.toNat)⟩]

def Program.IsSpelled (p : Program) : Json → Prop := SpellsRecord p.forms

/-! ### Reading them -/

theorem Location.ofJson?_of_isSpelled {l : Location} {v : Json} (h : l.IsSpelled v) :
    Location.ofJson? v = some l := by
  obtain ⟨r, hr, hgives⟩ := SpellsRecord.fields? h ["file", "line", "column"] rfl (by decide)
  have hfile : r.required 0 string? = some l.file :=
    Fields.required_of_exact hgives 0 rfl rfl
  have hline : r.required 1 uint32? = some l.line :=
    Fields.required_of_exact hgives 1 rfl (uint32?_nat _)
  have hcolumn : r.required 2 uint32? = some l.column :=
    Fields.required_of_exact hgives 2 rfl (uint32?_nat _)
  simp only [Location.ofJson?, hr, hfile, hline, hcolumn, Option.bind_eq_bind, Option.bind_some]
  rfl

theorem Instruction.ofJson?_of_isSpelled {i : Instruction} {v : Json} (h : i.IsSpelled v) :
    Instruction.ofJson? v = some i := by
  obtain ⟨r, hr, hgives⟩ :=
    SpellsRecord.fields? h ["opcode", "dest", "operands", "location"] rfl (by decide)
  have hopcode : r.required 0 Opcode.ofJson? = some i.opcode :=
    Fields.required_of_exact hgives 0 rfl (Opcode.ofJson?_name _)
  have hdest : r.optional 1 uint8? = some i.dest := by
    refine Fields.optional_of_gives hgives 1 rfl not_false ?_
    rintro _ rfl
    cases i.dest with
    | none => rfl
    | some register => exact congrArg (Option.map some) (uint8?_nat register)
  have hoperands : r.required 2 (list? Operand.ofJson?) = some i.operands :=
    Fields.required_of_exact hgives 2 rfl (list?_listOf _ Operand.ofJson?_toJson)
  have hlocation : r.withDefault 3 (nullable? Location.ofJson?) none = some i.location :=
    Fields.withDefault_of_gives hgives 3 rfl id fun v hv =>
      SpellsOption.nullable? hv (fun l hl => SpellsRecord.ne_null hl rfl)
        fun _ _ _ => Location.ofJson?_of_isSpelled
  simp only [Instruction.ofJson?, hr, hopcode, hdest, hoperands, hlocation, Option.bind_eq_bind,
    Option.bind_some]
  rfl

theorem Block.ofJson?_of_isSpelled {b : Block} {v : Json} (h : b.IsSpelled v) :
    Block.ofJson? v = some b := by
  obtain ⟨r, hr, hgives⟩ := SpellsRecord.fields? h ["instructions"] rfl (by decide)
  have hinstructions : r.required 0 (list? Instruction.ofJson?) = some b.instructions :=
    Fields.required_of_gives hgives 0 rfl not_false fun _ hv =>
      SpellsList.list? hv fun _ _ _ => Instruction.ofJson?_of_isSpelled
  simp only [Block.ofJson?, hr, hinstructions, Option.bind_eq_bind, Option.bind_some]
  rfl

theorem Function.ofJson?_of_isSpelled {f : Function} {v : Json} (h : f.IsSpelled v) :
    Function.ofJson? v = some f := by
  obtain ⟨r, hr, hgives⟩ := SpellsRecord.fields? h
    ["name", "num_params", "num_locals", "blocks", "return_type"] rfl (by decide)
  have hname : r.required 0 string? = some f.name :=
    Fields.required_of_exact hgives 0 rfl rfl
  have hparams : r.required 1 uint64? = some f.numParams :=
    Fields.required_of_exact hgives 1 rfl (uint64?_nat _)
  have hlocals : r.required 2 uint64? = some f.numLocals :=
    Fields.required_of_exact hgives 2 rfl (uint64?_nat _)
  have hblocks : r.required 3 (list? Block.ofJson?) = some f.blocks :=
    Fields.required_of_gives hgives 3 rfl not_false fun _ hv =>
      SpellsList.list? hv fun _ _ _ => Block.ofJson?_of_isSpelled
  have hreturn : r.required 4 ReturnType.ofJson? = some f.returnType :=
    Fields.required_of_exact hgives 4 rfl (ReturnType.ofJson?_toJson _)
  simp only [Function.ofJson?, hr, hname, hparams, hlocals, hblocks, hreturn, Option.bind_eq_bind,
    Option.bind_some]
  rfl

theorem Declaration.ofJson?_of_isSpelled {d : Declaration} {v : Json} (h : d.IsSpelled v) :
    Declaration.ofJson? v = some d := by
  obtain ⟨r, hr, hgives⟩ :=
    SpellsRecord.fields? h ["name", "num_params", "return_type"] rfl (by decide)
  have hname : r.required 0 string? = some d.name :=
    Fields.required_of_exact hgives 0 rfl rfl
  have hparams : r.required 1 uint64? = some d.numParams :=
    Fields.required_of_exact hgives 1 rfl (uint64?_nat _)
  have hreturn : r.required 2 ReturnType.ofJson? = some d.returnType :=
    Fields.required_of_exact hgives 2 rfl (ReturnType.ofJson?_toJson _)
  simp only [Declaration.ofJson?, hr, hname, hparams, hreturn, Option.bind_eq_bind,
    Option.bind_some]
  rfl

theorem Program.ofJson?_of_isSpelled {p : Program} {v : Json} (h : p.IsSpelled v) :
    Program.ofJson? v = some p := by
  obtain ⟨r, hr, hgives⟩ := SpellsRecord.fields? h
    ["functions", "declarations", "constructors", "version"] rfl (by decide)
  have hfunctions : r.required 0 (list? Function.ofJson?) = some p.functions :=
    Fields.required_of_gives hgives 0 rfl not_false fun _ hv =>
      SpellsList.list? hv fun _ _ _ => Function.ofJson?_of_isSpelled
  have hdeclarations : r.withDefault 1 (list? Declaration.ofJson?) [] = some p.declarations :=
    Fields.withDefault_of_gives hgives 1 rfl id fun _ hv =>
      SpellsList.list? hv fun _ _ _ => Declaration.ofJson?_of_isSpelled
  have hconstructors : r.withDefault 2 (list? string?) [] = some p.constructors :=
    Fields.withDefault_of_gives hgives 2 rfl id
      (by rintro _ rfl; exact list?_listOf _ fun _ => rfl)
  have hversion : r.withDefault 3 uint32? 1 = some p.version :=
    Fields.withDefault_of_gives hgives 3 rfl id (by rintro _ rfl; exact uint32?_nat _)
  simp only [Program.ofJson?, hr, hfunctions, hdeclarations, hconstructors, hversion,
    Option.bind_eq_bind, Option.bind_some]
  rfl

/-! ### Writing them -/

theorem Location.isSpelled_toJson (l : Location) : l.IsSpelled l.toJson :=
  SpellsFields.record (.written rfl (.written rfl (.written rfl .nil)))

theorem Instruction.isSpelled_toJson (i : Instruction) : i.IsSpelled i.toJson :=
  have hlocation := spellsOption_orNull i.location fun l _ => l.isSpelled_toJson
  SpellsFields.record (.written rfl (.written rfl (.written rfl (.written hlocation .nil))))

theorem Block.isSpelled_toJson (b : Block) : b.IsSpelled b.toJson :=
  have hinstructions := spellsList_listOf b.instructions fun i _ => i.isSpelled_toJson
  SpellsFields.record (.written hinstructions .nil)

theorem Function.isSpelled_toJson (f : Function) : f.IsSpelled f.toJson :=
  have hblocks := spellsList_listOf f.blocks fun b _ => b.isSpelled_toJson
  SpellsFields.record
    (.written rfl (.written rfl (.written rfl (.written hblocks (.written rfl .nil)))))

theorem Declaration.isSpelled_toJson (d : Declaration) : d.IsSpelled d.toJson :=
  SpellsFields.record (.written rfl (.written rfl (.written rfl .nil)))

theorem Program.isSpelled_toJson (p : Program) : p.IsSpelled p.toJson :=
  have hfunctions := spellsList_listOf p.functions fun f _ => f.isSpelled_toJson
  have hdeclarations := spellsList_listOf p.declarations fun d _ => d.isSpelled_toJson
  SpellsFields.record
    (.written hfunctions (.written hdeclarations (.written rfl (.written rfl .nil))))

theorem Operand.isWritable_toJson (o : Operand) : o.toJson.isWritable = true := by
  cases o with
  | immediate v => cases v <;> simp [Operand.toJson, Value.toJson]
  | _ => simp [Operand.toJson]

theorem Location.isWritable_toJson (l : Location) : l.toJson.isWritable = true := by
  simp [Location.toJson]

theorem Instruction.isWritable_toJson (i : Instruction) : i.toJson.isWritable = true := by
  simp [Instruction.toJson, Operand.isWritable_toJson, Location.isWritable_toJson]

theorem ReturnType.isWritable_toJson (t : ReturnType) : t.toJson.isWritable = true := rfl

theorem Function.isWritable_toJson (f : Function) : f.toJson.isWritable = true := by
  simp [Function.toJson, Block.toJson, Instruction.isWritable_toJson, ReturnType.isWritable_toJson]

theorem Program.isWritable_toJson (p : Program) : p.toJson.isWritable = true := by
  simp [Program.toJson, Declaration.toJson, Function.isWritable_toJson,
    ReturnType.isWritable_toJson]

/-! ### Texts -/

/-- The text of a program is read as the program, and so is every other
text whose document spells it. -/
theorem Program.readBack_of_spelling (p : Program) :
    (parse? p.toJson.write).bind Program.ofJson? = some p ∧ p.IsSpelled p.toJson ∧
      ∀ v, p.IsSpelled v →
        (∀ text, parse? text = some v → (parse? text).bind Program.ofJson? = some p) ∧
        (v.isWritable = true → (parse? v.write).bind Program.ofJson? = some p) := by
  have hread : ∀ v, p.IsSpelled v → ∀ text, parse? text = some v →
      (parse? text).bind Program.ofJson? = some p := by
    intro v hv text htext
    rw [htext, Option.bind_some, Program.ofJson?_of_isSpelled hv]
  exact ⟨hread p.toJson p.isSpelled_toJson _ (parse?_write p.isWritable_toJson), p.isSpelled_toJson,
    fun v hv => ⟨hread v hv, fun hwritable => hread v hv _ (parse?_write hwritable)⟩⟩

/-- A function that returns its parameter. -/
def identityFunction : Function :=
  ⟨"identity", 1, 0, [⟨[.returning (some 0)]⟩], .int⟩

/-- A document of the program of that function, with the operand of its return.  The keys are in
another order than declared, one of them is unknown, the block and the instruction are arrays, and
all that has a default is left out. -/
def identityDocument (operand : Json) : Json :=
  record [("comment", .array [.null]), ("functions", .array [record
    [("return_type", .text "Int"),
     ("blocks", .array [.array [.array [.array [.text "Return", .null, .array [operand]]]]]),
     ("num_locals", .nat 0), ("num_params", .nat 1), ("name", .text "identity")]])]

theorem identityDocument_isSpelled :
    Program.IsSpelled ⟨[identityFunction], [], [], 1⟩
      (identityDocument (Operand.register 0).toJson) := by
  have hinstruction : (Instruction.returning (some 0)).IsSpelled
      (.array [.text "Return", .null, .array [(Operand.register 0).toJson]]) :=
    .array (.written rfl (.written rfl (.written rfl
      (.leftOut (List.forall_mem_singleton.mpr rfl)))))
  have hblock : Block.IsSpelled ⟨[.returning (some 0)]⟩
      (.array [.array [.array [.text "Return", .null, .array [(Operand.register 0).toJson]]]]) :=
    .array (.written ⟨_, rfl, .cons hinstruction .nil⟩ (.leftOut (List.forall_mem_nil _)))
  have hfunction : SpellsFields identityFunction.forms
      [(some "name", .text "identity"), (some "num_params", .nat 1), (some "num_locals", .nat 0),
       (some "blocks", .array [.array [.array [.array [.text "Return", .null,
         .array [(Operand.register 0).toJson]]]]]),
       (some "return_type", .text "Int")] :=
    .written rfl
      (.written rfl (.written rfl (.written ⟨_, rfl, .cons hblock .nil⟩ (.written rfl .nil))))
  have hprogram : SpellsFields (Program.forms ⟨[identityFunction], [], [], 1⟩)
      [(some "functions", _)] :=
    .written ⟨_, rfl, .cons (hfunction.object_of_perm (List.reverse_perm _)) .nil⟩
      (.leftOut rfl (.leftOut rfl (.leftOut rfl .nil)))
  have hunknown : ∀ f ∈ [((some "comment", .array [.null]) : JsonText × Json)],
      ∃ key, f.1 = some key ∧ key ∉ ["functions", "declarations", "constructors", "version"] :=
    List.forall_mem_singleton.mpr ⟨"comment", rfl, by decide⟩
  exact .object hprogram hunknown (.swap _ _ [])

/-- The document is read, from its text, as the program. -/
theorem identityDocument_readBack :
    Program.IsSpelled ⟨[identityFunction], [], [], 1⟩
      (identityDocument (Operand.register 0).toJson) ∧
      (parse? (identityDocument (Operand.register 0).toJson).write).bind Program.ofJson?
        = some ⟨[identityFunction], [], [], 1⟩ :=
  ⟨identityDocument_isSpelled,
    ((Program.readBack_of_spelling _).2.2 _ identityDocument_isSpelled).2 (by decide)⟩

/-- The document is refused once the object of its operand has another key, or the operand's
register is written as an array: neither an operand nor a register is a record. -/
theorem identityDocument_refused :
    (parse? (identityDocument (record [("Register", .nat 0)])).write).bind Program.ofJson?
        = some ⟨[identityFunction], [], [], 1⟩ ∧
      (parse? (identityDocument (record [("Register", .nat 0), ("comment", .null)])).write).bind
        Program.ofJson? = none ∧
      (parse? (identityDocument (record [("Register", .array [.nat 0])])).write).bind
        Program.ofJson? = none := by
  rw [parse?_write (by decide), parse?_write (by decide), parse?_write (by decide)]
  exact ⟨rfl, rfl, rfl⟩

end MutationAnalysis
