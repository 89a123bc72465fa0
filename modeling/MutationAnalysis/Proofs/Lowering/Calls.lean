/-
What compiled code calls.

A direct call of a function that the program defines becomes a call of that function.  Every other
call takes the address from an imported global, which is numbered by its name alone: where a
function that is called and not defined has the name of a cell, its direct calls read the cell,
although the module imports the function's address too.  Instrumented code also calls the probes, on
entry and before every return, and nothing else is called.

* `Program.callees`: what an instruction calls;
* `Lowering.calls_of_emits`: what its code calls;
* `Program.callees_of_compile`: what the code of each function calls, call by call.
-/
import MutationAnalysis.Proofs.Lowering.Module
import MutationAnalysis.Proofs.Program.Acceptance
import MutationAnalysis.Proofs.Wasm.Calls

namespace MutationAnalysis

open Wasm Lowering

/-- The import of the address of a function that is called and not defined. -/
def addressImport (name : String) : Import := ⟨SymbolName.addresses, name, .global false⟩

/-- The import of a cell. -/
def cellImport (cell : String) : Import := ⟨SymbolName.environment, cell, .global true⟩

/-- The import of a probe; its type is the first of the module. -/
def probeImport (name : String) : Import := ⟨SymbolName.environment, name, .function 0⟩

namespace Program

/-- What an instruction calls when it is compiled, given the import that the address of a function
comes from which is called and not defined. -/
def callees (p : Program) (probed : Bool) (source : String → Import) (i : Instruction) :
    List Callee :=
  match i.opcode, i.callee with
  | .call, some name =>
    match p.functionIndex? name with
    | some index => [.own index]
    | none => [.held (source name)]
  | .callIndirect, some cell => [.held (cellImport cell)]
  | .ret, _ => if probed then [.imported (probeImport SymbolName.leaveFunction)] else []
  | _, _ => []

/-- What a function calls when it is compiled, call by call. -/
def functionCallees (p : Program) (probed : Bool) (source : String → Import) (f : Function) :
    List Callee :=
  (if probed then [.imported (probeImport SymbolName.enterFunction)] else [])
    ++ f.instructions.flatMap (p.callees probed source)

/-- The import that the code of a direct call reads: a cell if there is one of that name. -/
def addressSource (p : Program) (name : String) : Import :=
  if name ∈ p.cells then cellImport name else addressImport name

end Program

/-! ### Imports -/

namespace CompiledProgram.Comes

variable {c : CompiledProgram} {p : Program} {moduleId : String} {probed : Bool} {minPages : Nat}
  {l : Layout}

theorem functionImports (h : c.Comes p moduleId probed minPages l) :
    c.code.functionImports =
      if probed then [probeImport SymbolName.enterFunction, probeImport SymbolName.leaveFunction]
      else [] := by
  have hprobe : probed = true → l.typeIndex probeType = 0 := by
    rintro rfl
    rw [Layout.typeIndex, h.describes.types, neededTypes, if_pos rfl, List.append_assoc,
      List.singleton_append, List.eraseDups_cons, List.idxOf_cons_self]
  rw [Module.functionImports, h.imports, Lowering.imports, h.describes.isInstrumented]
  simp only [List.filter_append, List.filter_map]
  cases probed with
  | false => simp [Function.comp_def]
  | true => simp [Function.comp_def, hprobe rfl, probeImport]

theorem functionImports_length (h : c.Comes p moduleId probed minPages l) :
    c.code.functionImports.length = l.probes := by
  rw [h.functionImports, Layout.probes, h.describes.isInstrumented]
  cases probed <;> rfl

/-- The global of a cell is the import of the cell. -/
theorem importedGlobals_of_mem_cells (h : c.Comes p moduleId probed minPages l) {cell : String}
    {index : Nat} (hcell : cell ∈ p.cells) (hg : l.globalIndex? cell = some index) :
    c.code.importedGlobals[index]? = some (cellImport cell) := by
  obtain ⟨i, hi, hindex⟩ := h.describes.globalIndex?_of_mem_cells hcell
  obtain rfl := Option.some.inj (hg.symm.trans hindex)
  have hcells : (l.cells.map cellImport)[i]? = some (cellImport cell) := by
    rw [List.getElem?_map, hi, Option.map_some]
  rw [h.importedGlobals, List.append_assoc, List.getElem?_append_right (by simp), List.length_map,
    Nat.add_sub_cancel_left]
  exact (List.getElem?_append_left (List.getElem?_eq_some_iff.mp hcells).1).trans hcells

/-- The global of a function that is called and not defined is the import that its calls read. -/
theorem importedGlobals_of_mem_undefined (h : c.Comes p moduleId probed minPages l) {name : String}
    {index : Nat} (hname : name ∈ p.undefinedSymbols) (hg : l.globalIndex? name = some index) :
    c.code.importedGlobals[index]? = some (p.addressSource name) := by
  rw [Program.addressSource]
  split
  · rename_i hcell
    exact h.importedGlobals_of_mem_cells hcell hg
  · rename_i hcell
    obtain ⟨i, s, hi, -, hindex⟩ := h.describes.globalIndex?_of_mem_undefined hname hcell
    obtain rfl := Option.some.inj (hg.symm.trans hindex)
    have haddresses : (l.undefined.map fun u => addressImport u.1)[index]?
        = some (addressImport name) := by
      rw [List.getElem?_map, hi, Option.map_some]
    rw [h.importedGlobals, List.append_assoc]
    exact (List.getElem?_append_left (List.getElem?_eq_some_iff.mp haddresses).1).trans haddresses

end CompiledProgram.Comes

/-! ### Instructions -/

namespace Lowering

variable {c : CompiledProgram} {p : Program} {moduleId : String} {probed : Bool} {minPages : Nat}
  {l : Layout} {f : Function} {s : Site}

theorem isSilent_valueOp (a : Operand) : (valueOp a).isSilent = true := by
  cases a <;> rfl

/-- Operands that are put on the stack before something else is done. -/
theorem calls_valueOps_append {m : Module} {functions : List Callee} {ops : List Op}
    (h : (Code.ofOps ops).Calls m functions) (operands : List Operand) :
    (Code.ofOps (operands.map valueOp ++ ops)).Calls m functions := by
  induction operands with
  | nil => exact h
  | cons a rest ih => exact .op (isSilent_valueOp a) ih

theorem calls_givenOps {m : Module} (signature : Signature) (dest : Option Register) :
    (Code.ofOps (givenOps signature dest)).Calls m [] := by
  rw [givenOps]
  split
  · cases dest <;> exact .op rfl .done
  · exact .done

/-- A probe is called in instrumented code only. -/
theorem calls_probeOps (h : c.Comes p moduleId probed minPages l) (index : Nat) {probe : Nat}
    {callee : Import} (hprobe : probed = true → c.code.functionImports[probe]? = some callee) :
    (Code.ofOps (probeOps l index probe)).Calls c.code
    (if probed then [.imported callee] else []) := by
  rw [probeOps, h.describes.isInstrumented]
  cases probed with
  | false => exact .done
  | true => exact .op rfl (.global rfl (.direct (Module.callee?_imported (hprobe rfl)) .done))

/-- The code of an instruction calls what the instruction does. -/
theorem calls_of_emits (h : c.Comes p moduleId probed minPages l) (hp : p.IsValid) {i : Instruction}
    {code : Code} (hi : Emits l p f s i code) :
    code.Calls c.code (p.callees probed p.addressSource i) := by
  -- what the instruction calls is found by its opcode, what the code
  -- calls by its operations in turn
  cases hi with
  | @binary opcode op dest a b location hop =>
    have hnone : p.callees probed p.addressSource ⟨opcode, some dest, [a, b], location⟩ = [] := by
      cases opcode <;> first | rfl | simp [binaryOp?] at hop
    rw [hnone]
    exact .op (isSilent_valueOp a) (.op (isSilent_valueOp b) (.op rfl (.op rfl .done)))
  | neg => exact .op rfl (.op (isSilent_valueOp _) (.op rfl (.op rfl .done)))
  | not => exact .op (isSilent_valueOp _) (.op rfl (.op rfl .done))
  | copy hop =>
    rcases hop with rfl | rfl
    all_goals exact .op (isSilent_valueOp _) (.op rfl .done)
  | load => exact .op (isSilent_valueOp _) (.op rfl (.op rfl .done))
  | store => exact .op (isSilent_valueOp _) (.op (isSilent_valueOp _) (.op rfl .done))
  | branch hop =>
    rw [Program.callees, hop]
    exact .op rfl (.op rfl (.op rfl .done))
  | branchIf hop =>
    rw [Program.callees, hop]
    have hjump : ∀ target depth, (Code.ofOps (jumpOps s.counter target depth)).Calls c.code [] :=
      fun target depth => .op rfl (.op rfl (.op rfl .done))
    exact .op (isSilent_valueOp _) (.ifElse (hjump _ _) (hjump _ _) .done)
  | @callOwn dest callee index arguments location _ hf =>
    have hcallees : p.callees probed p.addressSource
        ⟨.call, dest, .symbol callee.name :: arguments, location⟩ = [.own index] := by
      simp [Program.callees, Instruction.callee, Opcode.isCall,
        Program.functionIndex?_eq_some hp.names_nodup hf]
    have hlt : index < c.code.functions.length := by
      rw [h.functions_length]
      exact (List.getElem?_eq_some_iff.mp hf).1
    have hown := Module.callee?_own hlt
    rw [h.functionImports_length] at hown
    rw [hcallees]
    exact calls_valueOps_append (.direct hown (calls_givenOps callee.signature dest)) arguments
  | @callAddress dest callee arguments location signature address _ hu _ _ _ hg =>
    have hcallees : p.callees probed p.addressSource
        ⟨.call, dest, .symbol callee :: arguments, location⟩
          = [.held (p.addressSource callee)] := by
      obtain ⟨_, _, _, _, hnone⟩ := Program.mem_undefinedSymbols.mp hu
      simp [Program.callees, Instruction.callee, Opcode.isCall,
        Program.functionIndex?_eq_none.mpr hnone]
    have haddress := h.importedGlobals_of_mem_undefined hu hg
    rw [hcallees]
    exact calls_valueOps_append (.throughGlobal haddress (calls_givenOps signature dest)) arguments
  | @callCell dest cell arguments location index _ hcell hg =>
    have hresult : (Code.ofOps (dest.toList.map fun r => .localSet r.toNat)).Calls c.code [] :=
      Code.calls_ofOps (by cases dest <;> simp [Op.isSilent])
    exact calls_valueOps_append (.throughGlobal (h.importedGlobals_of_mem_cells hcell hg) hresult)
      arguments
  | @ret dest operands location =>
    have hleave : probed = true →
        c.code.functionImports[leaveProbe]? = some (probeImport SymbolName.leaveFunction) := by
      intro hprobed
      rw [h.functionImports, if_pos hprobed]
      rfl
    have hret : (Code.ofOps [.ret]).Calls c.code [] := .op rfl .done
    have hprobe := (calls_probeOps h s.function hleave).append hret
    rw [← Code.ofOps_append, List.append_nil] at hprobe
    exact calls_valueOps_append hprobe operands
  | unreachable hop =>
    rw [Program.callees, hop]
    exact .op rfl .done

theorem calls_instructionsCode (h : c.Comes p moduleId probed minPages l) (hp : p.IsValid)
    {instructions : List Instruction} (hmem : ∀ i ∈ instructions, i ∈ p.instructions)
    (hfits : ∀ i ∈ instructions, i.Fits p f) {code : Code}
    (hc : instructionsCode l s instructions = .ok code) :
    code.Calls c.code (instructions.flatMap (p.callees probed p.addressSource)) := by
  induction instructions generalizing code with
  | nil =>
    obtain rfl := Except.ok.inj hc
    exact .done
  | cons i rest ih =>
    rw [List.forall_mem_cons] at hmem hfits
    obtain ⟨first, others, hfirst, hothers, rfl⟩ := instructionsCode_cons.mp hc
    have hemits := emits_of_eq_ok h.describes hp hmem.1 hfits.1 hfirst
    exact (calls_of_emits h hp hemits).append (ih hmem.2 hfits.2 hothers)

/-! ### Bodies -/

theorem calls_nest {m : Module} {inner : Code} {functions : List Callee} {counter function : Nat}
    {callees : Instruction → List Callee} {blocks : List Block} {codes : List Code}
    (h : BlocksEmit l function counter blocks codes) (hinner : inner.Calls m functions)
    (hcodes : ∀ b ∈ blocks, ∀ depth code,
      instructionsCode l ⟨function, counter, depth⟩ b.instructions = .ok code →
        code.Calls m (b.instructions.flatMap callees)) :
    (nest inner codes).Calls m
      (functions ++ (blocks.flatMap (·.instructions)).flatMap callees) := by
  induction h generalizing inner functions with
  | nil => rwa [List.flatMap_nil, List.flatMap_nil, List.append_nil]
  | @cons b rest code codes hc _ ih =>
    rw [List.forall_mem_cons] at hcodes
    rw [List.flatMap_cons, List.flatMap_append, ← List.append_assoc]
    exact ih (.block hinner (hcodes.1 _ _ hc)) hcodes.2

theorem calls_bodyOf (h : c.Comes p moduleId probed minPages l) (hp : p.IsValid)
    (hf : f ∈ p.functions) {index : Nat} {codes : List Code}
    (hcodes : BlocksEmit l index (counterLocal f) f.blocks codes) :
    (bodyOf l index f codes).code.Calls c.code (p.functionCallees probed p.addressSource f) := by
  have henter : probed = true →
      c.code.functionImports[enterProbe]? = some (probeImport SymbolName.enterFunction) :=
        fun hprobed => by
    rw [h.functionImports, if_pos hprobed]
    rfl
  have hdispatcher : (dispatcher (counterLocal f) f.blocks.length).Calls c.code [] :=
    Code.calls_ofOps (by simp [Op.isSilent])
  have hblocks := calls_nest hcodes hdispatcher fun block hblock depth code hc =>
    calls_instructionsCode h hp (fun i hi => Program.mem_instructions hf hblock hi)
      ((hp.functions f hf).blocks block hblock).fits hc
  have hrest : (Code.op .unreachable .done).Calls c.code [] := .op rfl .done
  have hloop := hblocks.loop hrest
  rw [List.append_nil, List.nil_append] at hloop
  exact (calls_probeOps h index henter).append hloop

end Lowering

/-- A valid program is compiled, and the code of each of its functions makes the calls of the
function's instructions in their order, a direct call of a function that is not defined through
the import of its address, or of the cell of that name if there is one, and in instrumented
code the calls of the probes. -/
theorem Program.callees_of_compile {p : Program} (hp : p.validate = .ok ()) (moduleId : String)
    (probed : Bool) (minPages : Nat) : ∃ c, p.compile moduleId probed minPages = .ok c ∧
      ∀ (i : Nat) (f : Function), p.functions[i]? = some f → ∃ body,
        c.code.functions[i]? = some body ∧
        body.code.callees c.code = (p.functionCallees probed p.addressSource f).map some := by
  have hvalid := isValid_of_validate hp
  obtain ⟨c, hc⟩ := exists_compile hvalid moduleId probed minPages
  obtain ⟨l, hcomes⟩ := comes_of_compile hc
  refine ⟨c, hc, fun i f hf => ?_⟩
  obtain ⟨codes, hcodes, hbody⟩ := hcomes.body hf
  exact ⟨_, hbody, (calls_bodyOf hcomes hvalid (List.mem_of_getElem? hf) hcodes).callees_eq⟩

/-! ### A name that is both -/

/-- A program that calls a function it only declares, directly and through a cell of the same
name, and a function of its own. -/
def logging : Program where
  functions := [{
    name := "main", numParams := 0, numLocals := 0, returnType := .void
    blocks := [⟨[⟨.call, none, [.symbol "log", .immediate (.int 1)], none⟩,
      ⟨.callIndirect, none, [.symbol "log", .immediate (.int 2)], none⟩,
      ⟨.call, none, [.symbol "stop"], none⟩, .returning none]⟩] }, {
    name := "stop", numParams := 0, numLocals := 0, returnType := .void
    blocks := [⟨[.returning none]⟩] }]
  declarations := [⟨"log", 1, .void⟩]
  constructors := []
  version := 1

/-- Both calls under the name read the cell. -/
theorem logging_calls : ∃ c body, logging.compile "m" true 1 = .ok c ∧
    c.code.functions[0]? = some body ∧ body.code.callees c.code
      = [some (.imported (probeImport SymbolName.enterFunction)), some (.held (cellImport "log")),
        some (.held (cellImport "log")), some (.own 1),
        some (.imported (probeImport SymbolName.leaveFunction))] := by
  have hvalid : logging.validate = .ok () := by decide
  obtain ⟨c, hc, hcalls⟩ := Program.callees_of_compile hvalid "m" true 1
  obtain ⟨body, hbody, hcallees⟩ := hcalls 0 _ rfl
  exact ⟨c, body, hc, hbody, hcallees.trans (by decide)⟩

/-- The module imports the address of the function too, which nothing reads. -/
theorem logging_reads_cell : logging.validate = .ok () ∧ ∃ c body f,
    logging.compile "m" false 1 = .ok c ∧ logging.functions[0]? = some f ∧
    c.code.functions[0]? = some body ∧ addressImport "log" ∈ c.code.imports ∧
    body.code.callees c.code ≠ (logging.functionCallees false addressImport f).map some :=
  ⟨by decide, _, _, _, rfl, rfl, rfl, by decide, by decide⟩

end MutationAnalysis
