/-
What the lowering emits.

`Emits` lists the code of every instruction that fits, with what is known of the instruction and
of the indices in its code.  Nothing after this module opens `instructionCode`: typing and
execution are both case analyses of `Emits`.  The code of a function is the code of its blocks,
nested around the dispatcher by `nest`.

* `exists_emits_of_fits`: an instruction that fits is compiled, to the code listed for it;
* `exists_instructionsCode`: so is what is left of a valid block;
* `functionBody_eq_ok`: the body of a function is a loop around its nested blocks.
-/
import MutationAnalysis.Lowering.Code
import MutationAnalysis.Proofs.Lowering.Layout

namespace MutationAnalysis.Lowering

open Wasm

/-- The operation that puts the word of a value on the stack. -/
def valueOp : Operand → Op
  | .register r => .localGet r.toNat
  | .immediate v => .const v.word
  | .block _ | .symbol _ => .unreachable

theorem operandOp_of_isValue {a : Operand} (ha : a.isValue = true) :
    operandOp a = .ok (valueOp a) := by
  cases a with
  | register | immediate => rfl
  | block | symbol => exact absurd ha (by simp [Operand.isValue])

theorem operandOps_of_isValue {operands : List Operand} (h : ∀ a ∈ operands, a.isValue = true) :
    operandOps operands = .ok (operands.map valueOp) := by
  rw [operandOps, mapM_eq_ok]
  induction operands with
  | nil => exact .nil
  | cons a rest ih =>
    rw [List.forall_mem_cons] at h
    exact .cons (operandOp_of_isValue h.1) (ih h.2)

/-- What takes the result of a call with a signature. -/
def givenOps (s : Signature) (dest : Option Register) : List Op :=
  if s.returnsValue then [resultOp dest] else []

/-- The instructions of a program that have code at a site, with their code. -/
inductive Emits (l : Layout) (p : Program) (f : Function) (s : Site) : Instruction → Code → Prop
  | binary {opcode : Opcode} {op : BinaryOp} {dest : Register} {a b : Operand}
      {location : Option Location} (hop : binaryOp? opcode = some op) (ha : a.isValue = true)
      (hb : b.isValue = true) :
      Emits l p f s ⟨opcode, some dest, [a, b], location⟩
        (.ofOps [valueOp a, valueOp b, .binary op, .localSet dest.toNat])
  | neg {dest : Register} {a : Operand} {location : Option Location} (ha : a.isValue = true) :
      Emits l p f s ⟨.neg, some dest, [a], location⟩
        (.ofOps [.const 0, valueOp a, .binary .sub, .localSet dest.toNat])
  | not {dest : Register} {a : Operand} {location : Option Location} (ha : a.isValue = true) :
      Emits l p f s ⟨.not, some dest, [a], location⟩
        (.ofOps [valueOp a, .eqz, .localSet dest.toNat])
  | copy {opcode : Opcode} {dest : Register} {a : Operand} {location : Option Location}
      (hop : opcode = .copy ∨ opcode = .loadConst) (ha : a.isValue = true) :
      Emits l p f s ⟨opcode, some dest, [a], location⟩
        (.ofOps [valueOp a, .localSet dest.toNat])
  | load {dest : Register} {a : Operand} {location : Option Location} (ha : a.isValue = true) :
      Emits l p f s ⟨.load, some dest, [a], location⟩
        (.ofOps [valueOp a, .load, .localSet dest.toNat])
  | store {dest : Option Register} {a b : Operand} {location : Option Location}
      (ha : a.isValue = true) (hb : b.isValue = true) :
      Emits l p f s ⟨.store, dest, [a, b], location⟩
        (.ofOps [valueOp a, valueOp b, .store])
  | branch {i : Instruction} {target : UInt32} (hop : i.opcode = .branch)
      (hs : i.successors = [target]) (ht : target.toNat < f.blocks.length) :
      Emits l p f s i (.ofOps (jumpOps s.counter target s.depth))
  | branchIf {i : Instruction} {condition : Operand} {others : List Operand} {yes no : UInt32}
      (hop : i.opcode = .branchIf) (ho : i.operands = condition :: others)
      (hc : condition.isValue = true) (hs : i.successors = [yes, no])
      (hy : yes.toNat < f.blocks.length) (hn : no.toNat < f.blocks.length) :
      Emits l p f s i (.op (valueOp condition)
        (.ifElse (.ofOps (jumpOps s.counter yes (s.depth + 1)))
          (.ofOps (jumpOps s.counter no (s.depth + 1))) .done))
  | callOwn {dest : Option Register} {callee : Function} {index : Nat} {arguments : List Operand}
      {location : Option Location} (ha : ∀ a ∈ arguments, a.isValue = true)
      (hf : p.functions[index]? = some callee)
      (hn : callee.numParams.toNat = arguments.length)
      (hd : dest.isSome → callee.signature.returnsValue = true) :
      Emits l p f s ⟨.call, dest, .symbol callee.name :: arguments, location⟩
        (.ofOps (arguments.map valueOp ++ .call (l.probes + index)
          :: givenOps callee.signature dest))
  | callAddress {dest : Option Register} {callee : String} {arguments : List Operand}
      {location : Option Location} {signature : Signature} {address : Nat}
      (ha : ∀ a ∈ arguments, a.isValue = true) (hu : callee ∈ p.undefinedSymbols)
      (hs : p.signature? callee = some signature)
      (hn : signature.numParams.toNat = arguments.length)
      (hd : dest.isSome → signature.returnsValue = true)
      (hg : l.globalIndex? callee = some address) (ht : funcType signature ∈ l.types) :
      Emits l p f s ⟨.call, dest, .symbol callee :: arguments, location⟩
        (.ofOps (arguments.map valueOp ++ .globalGet address
          :: .callIndirect (l.typeIndex (funcType signature)) :: givenOps signature dest))
  | callCell {dest : Option Register} {cell : String} {arguments : List Operand}
      {location : Option Location} {index : Nat}
      (ha : ∀ a ∈ arguments, a.isValue = true) (hc : cell ∈ p.cells)
      (hg : l.globalIndex? cell = some index)
      (ht : (⟨arguments.length, dest.isSome⟩ : FuncType) ∈ l.types) :
      Emits l p f s ⟨.callIndirect, dest, .symbol cell :: arguments, location⟩
        (.ofOps (arguments.map valueOp ++ .globalGet index
          :: .callIndirect (l.typeIndex ⟨arguments.length, dest.isSome⟩)
          :: dest.toList.map fun r => .localSet r.toNat))
  | ret {dest : Option Register} {operands : List Operand} {location : Option Location}
      (ha : ∀ a ∈ operands, a.isValue = true)
      (hn : operands.length = (funcType f.signature).results) :
      Emits l p f s ⟨.ret, dest, operands, location⟩
        (.ofOps (operands.map valueOp ++ (probeOps l s.function leaveProbe ++ [.ret])))
  | unreachable {i : Instruction} (hop : i.opcode = .unreachable) :
      Emits l p f s i (.ofOps [.unreachable])

section

variable {l : Layout} {p : Program} {f : Function} {s : Site} {b : Bool}

/-- A name that stands in an import has a global. -/
theorem exists_globalIndex? (h : l.Describes p b) {name : String}
    (hname : name ∈ p.undefinedSymbols ∨ name ∈ p.cells) :
    ∃ i, l.globalIndex? name = some i := by
  by_cases hcell : name ∈ p.cells
  · obtain ⟨i, -, hi⟩ := h.globalIndex?_of_mem_cells hcell
    exact ⟨_, hi⟩
  · obtain ⟨i, _, -, -, hi⟩ := h.globalIndex?_of_mem_undefined (hname.resolve_right hcell) hcell
    exact ⟨i, hi⟩

theorem exists_emits_call (h : l.Describes p b) (hp : p.IsValid) {dest : Option Register}
    {callee : String} {arguments : List Operand} {location : Option Location}
    {signature : Signature}
    (hi : (⟨.call, dest, .symbol callee :: arguments, location⟩ : Instruction) ∈ p.instructions)
    (ha : ∀ a ∈ arguments, a.isValue = true) (hs : p.signature? callee = some signature)
    (hn : signature.numParams.toNat = arguments.length)
    (hd : dest.isSome → signature.returnsValue = true) :
    ∃ c, instructionCode l s ⟨.call, dest, .symbol callee :: arguments, location⟩ = .ok c ∧
      Emits l p f s ⟨.call, dest, .symbol callee :: arguments, location⟩ c := by
  have hargs := operandOps_of_isValue ha
  have hcallee : (⟨.call, dest, .symbol callee :: arguments, location⟩ : Instruction).callee
      = some callee := rfl
  -- a function of the program is called by its index, any other through an address that is imported
  cases hdef : p.function? callee with
  | some g =>
    obtain ⟨index, hg, rfl⟩ := Program.exists_index_of_function? hdef
    obtain rfl : g.signature = signature := by
      rw [Program.signature?_of_function? hdef] at hs
      exact Option.some.inj hs
    have hindex := h.functionIndex?_eq_some hp hg
    refine ⟨_, ?_, .callOwn ha hg hn hd⟩
    simp only [instructionCode, callOps, hcallee, Instruction.callArguments, Opcode.isCall, if_true,
      List.tail_cons, hargs, h.program, hs, hindex, givenOps]
    simp [bind, Except.bind, pure, Except.pure]
  | none =>
    have hu : callee ∈ p.undefinedSymbols :=
      Program.mem_undefinedSymbols.mpr ⟨_, hi, rfl, hcallee, hdef⟩
    obtain ⟨address, hg⟩ := exists_globalIndex? h (.inl hu)
    have ht : funcType signature ∈ l.types := by
      refine h.neededType_mem hi ?_
      simp [neededType?, hcallee, hdef, hs]
    refine ⟨_, ?_, .callAddress ha hu hs hn hd hg ht⟩
    simp only [instructionCode, callOps, hcallee, Instruction.callArguments, Opcode.isCall, if_true,
      List.tail_cons, hargs, h.program, hs, h.functionIndex?_eq_none hdef, hg, givenOps]
    simp [bind, Except.bind, pure, Except.pure]

theorem exists_emits_callCell (h : l.Describes p b) {dest : Option Register} {cell : String}
    {arguments : List Operand} {location : Option Location}
    (hi : (⟨.callIndirect, dest, .symbol cell :: arguments, location⟩ : Instruction)
      ∈ p.instructions)
    (ha : ∀ a ∈ arguments, a.isValue = true) :
    ∃ c, instructionCode l s ⟨.callIndirect, dest, .symbol cell :: arguments, location⟩ = .ok c ∧
      Emits l p f s ⟨.callIndirect, dest, .symbol cell :: arguments, location⟩ c := by
  have hargs := operandOps_of_isValue ha
  have hcell : (⟨.callIndirect, dest, .symbol cell :: arguments, location⟩ : Instruction).callee
      = some cell := rfl
  have hc : cell ∈ p.cells := Program.mem_cells.mpr ⟨_, hi, rfl, hcell⟩
  obtain ⟨index, hg⟩ := exists_globalIndex? h (.inr hc)
  refine ⟨_, ?_, .callCell ha hc hg (h.neededType_mem hi (by simp [neededType?, hcell,
    Instruction.callArguments, Opcode.isCall]))⟩
  simp only [instructionCode, callCellOps, hcell, Instruction.callArguments, Opcode.isCall, if_true,
    List.tail_cons, hargs, hg]
  simp [bind, Except.bind, pure, Except.pure]

theorem exists_emits_binary {opcode : Opcode} {dest : Register} {a b : Operand}
    {location : Option Location} (hop : opcode.isBinary = true) (ha : a.isValue = true)
    (hb : b.isValue = true) :
    ∃ c, instructionCode l s ⟨opcode, some dest, [a, b], location⟩ = .ok c ∧
      Emits l p f s ⟨opcode, some dest, [a, b], location⟩ c := by
  have hargs : operandOps [a, b] = .ok [valueOp a, valueOp b] :=
    operandOps_of_isValue (by simp [ha, hb])
  obtain ⟨op, hop'⟩ : ∃ op, binaryOp? opcode = some op := by
    cases opcode <;> first | exact ⟨_, rfl⟩ | simp [Opcode.isBinary] at hop
  refine ⟨_, ?_, .binary hop' ha hb⟩
  have hcode : instructionCode l s ⟨opcode, some dest, [a, b], location⟩ = (do
      let operands ← operandOps [a, b]
      return .ofOps (operands ++ (binaryOp? opcode).toList.map .binary ++ [resultOp dest])) := by
    cases opcode <;> first | rfl | simp [Opcode.isBinary] at hop
  rw [hcode, hargs, hop']
  rfl

/-- An instruction that fits is compiled. -/
theorem exists_emits_of_fits (h : l.Describes p b) (hp : p.IsValid) {i : Instruction}
    (hi : i ∈ p.instructions) (hfits : i.Fits p f) :
    ∃ c, instructionCode l s i = .ok c ∧ Emits l p f s i c := by
  cases hfits with
  | binary hop ha hb => exact exists_emits_binary hop ha hb
  | @unary opcode dest a location hop ha =>
    have hargs : operandOps [a] = .ok [valueOp a] := operandOps_of_isValue (by simp [ha])
    rcases hop with rfl | rfl | rfl | rfl
    · exact ⟨_, by simp only [instructionCode, hargs]; rfl, .neg ha⟩
    · exact ⟨_, by simp only [instructionCode, hargs]; rfl, .not ha⟩
    · exact ⟨_, by simp only [instructionCode, hargs]; rfl, .copy (.inl rfl) ha⟩
    · exact ⟨_, by simp only [instructionCode, hargs]; rfl, .load ha⟩
  | loadConst => exact ⟨_, rfl, .copy (.inr rfl) rfl⟩
  | @store dest a b location ha hb =>
    have hargs : operandOps [a, b] = .ok [valueOp a, valueOp b] :=
      operandOps_of_isValue (by simp [ha, hb])
    exact ⟨_, by simp only [instructionCode, hargs]; rfl, .store ha hb⟩
  | branch hop hs ht =>
    exact ⟨_, by simp only [instructionCode, hop, hs]; rfl, .branch hop hs ht⟩
  | branchIf hop ho hc hs hy hn =>
    refine ⟨_, ?_, .branchIf hop ho hc hs hy hn⟩
    simp only [instructionCode, branchIfCode, hop, ho, hs, operandOp_of_isValue hc]
    rfl
  | call ha hs hn hd => exact exists_emits_call h hp hi ha hs hn hd
  | callIndirect ha => exact exists_emits_callCell h hi ha
  | @retNothing dest location hf =>
    exact ⟨_, rfl, .ret (by simp)
      (by simp [funcType, FuncType.results, Function.signature, Signature.returnsValue, hf])⟩
  | @retValue dest a location hf ha =>
    have hargs : operandOps [a] = .ok [valueOp a] := operandOps_of_isValue (by simp [ha])
    refine ⟨_, ?_, .ret (by simpa using ha)
      (by simp [funcType, FuncType.results, Function.signature, Signature.returnsValue, hf])⟩
    simp only [instructionCode, hargs]
    simp [bind, Except.bind, pure, Except.pure]
  | unreachable hop => exact ⟨_, by simp only [instructionCode, hop]; rfl, .unreachable hop⟩

theorem instructionsCode_cons {i : Instruction} {rest : List Instruction} {c : Code} :
    instructionsCode l s (i :: rest) = .ok c ↔
      ∃ first others, instructionCode l s i = .ok first ∧
        instructionsCode l s rest = .ok others ∧ c = first ++ others := by
  rw [instructionsCode, bind_eq_ok]
  refine exists_congr fun first => ?_
  constructor
  · rintro ⟨hfirst, h⟩
    obtain ⟨others, hothers, h⟩ := bind_eq_ok.mp h
    obtain rfl : first ++ others = c := by injection h
    exact ⟨others, hfirst, hothers, rfl⟩
  · rintro ⟨others, hfirst, hothers, rfl⟩
    exact ⟨hfirst, bind_eq_ok.mpr ⟨others, hothers, rfl⟩⟩

/-- An instruction that stands in a valid program emits its code. -/
theorem emits_of_eq_ok (h : l.Describes p b) (hp : p.IsValid) {i : Instruction} {c : Code}
    (hi : i ∈ p.instructions) (hfits : i.Fits p f) (hc : instructionCode l s i = .ok c) :
    Emits l p f s i c := by
  obtain ⟨c', hc', hemits⟩ := exists_emits_of_fits h hp (s := s) hi hfits
  obtain rfl : c' = c := by
    rw [hc] at hc'
    exact (Except.ok.inj hc').symm
  exact hemits

theorem exists_instructionsCode (h : l.Describes p b) (hp : p.IsValid)
    {instructions : List Instruction} (hmem : ∀ i ∈ instructions, i ∈ p.instructions)
    (hfits : ∀ i ∈ instructions, i.Fits p f) :
    ∃ c, instructionsCode l s instructions = .ok c := by
  induction instructions with
  | nil => exact ⟨.done, rfl⟩
  | cons i rest ih =>
    rw [List.forall_mem_cons] at hmem hfits
    obtain ⟨first, hfirst, -⟩ := exists_emits_of_fits h hp (s := s) hmem.1 hfits.1
    obtain ⟨others, hothers⟩ := ih hmem.2 hfits.2
    exact ⟨_, instructionsCode_cons.mpr ⟨first, others, hfirst, hothers, rfl⟩⟩

end

/-! ### Functions -/

/-- Code with the code of blocks around it, the first block innermost. -/
def nest (inner : Code) : List Code → Code
  | [] => inner
  | c :: rest => nest (.block inner c) rest

/-- The codes of blocks; each stands in as many constructs as blocks follow it. -/
inductive BlocksEmit (l : Layout) (function counter : Nat) : List Block → List Code → Prop
  | nil : BlocksEmit l function counter [] []
  | cons {b : Block} {rest : List Block} {c : Code} {codes : List Code}
      (hc : instructionsCode l ⟨function, counter, rest.length⟩ b.instructions = .ok c)
      (hrest : BlocksEmit l function counter rest codes) :
      BlocksEmit l function counter (b :: rest) (c :: codes)

/-- The body of a function whose blocks have the given codes. -/
def bodyOf (l : Layout) (index : Nat) (f : Function) (codes : List Code) : Body where
  type := l.typeIndex (funcType f.signature)
  locals := extraLocals f
  code := Code.ofOps (probeOps l index enterProbe)
    ++ Code.loop (nest (dispatcher (counterLocal f) f.blocks.length) codes) (.op .unreachable .done)

section

variable {l : Layout} {function counter index : Nat} {f : Function} {blocks : List Block}
  {codes : List Code}

theorem BlocksEmit.length_eq (h : BlocksEmit l function counter blocks codes) :
    codes.length = blocks.length := by
  induction h with
  | nil => rfl
  | cons _ _ ih => rw [List.length_cons, List.length_cons, ih]

/-- The code of the block of an index. -/
theorem BlocksEmit.getElem? (h : BlocksEmit l function counter blocks codes) {k : Nat} {b : Block}
    (hb : blocks[k]? = some b) :
    ∃ c, codes[k]? = some c ∧
      instructionsCode l ⟨function, counter, blocks.length - 1 - k⟩ b.instructions = .ok c := by
  induction h generalizing k with
  | nil => simp at hb
  | @cons b' rest c codes hc _ ih =>
    cases k with
    | zero =>
      obtain rfl : b' = b := by simpa using hb
      exact ⟨c, rfl, hc⟩
    | succ k =>
      rw [List.getElem?_cons_succ] at hb
      obtain ⟨c', hc', hcode⟩ := ih hb
      refine ⟨c', hc', ?_⟩
      rw [List.length_cons, Nat.add_sub_cancel, Nat.add_comm, Nat.sub_add_eq]
      exact hcode

theorem blocksCode_eq_ok {inner c : Code} :
    blocksCode l function f counter inner index blocks = .ok c ↔
      ∃ codes, BlocksEmit l function counter blocks codes ∧ c = nest inner codes := by
  -- the code of the blocks so far stands within that of the next one
  induction blocks generalizing inner index with
  | nil =>
    rw [blocksCode]
    constructor
    · rintro ⟨⟩
      exact ⟨[], .nil, rfl⟩
    · rintro ⟨codes, ⟨⟩, rfl⟩
      rfl
  | cons b rest ih =>
    rw [blocksCode]
    cases hcode : instructionsCode l ⟨function, counter, rest.length⟩ b.instructions with
    | error defect =>
      constructor
      · intro h
        exact absurd h (by simp)
      · rintro ⟨codes, _ | ⟨hc, -⟩, -⟩
        rw [hcode] at hc
        exact absurd hc (by simp)
    | ok code =>
      dsimp only
      rw [ih]
      constructor
      · rintro ⟨codes, hcodes, rfl⟩
        exact ⟨code :: codes, .cons hcode hcodes, rfl⟩
      · rintro ⟨codes, _ | ⟨hc, hrest⟩, rfl⟩
        rw [hcode] at hc
        obtain rfl := Except.ok.inj hc
        exact ⟨_, hrest, rfl⟩

theorem functionBody_eq_ok {body : Body} :
    functionBody l index f = .ok body ↔
      ∃ codes, BlocksEmit l index (counterLocal f) f.blocks codes ∧
        body = bodyOf l index f codes := by
  rw [functionBody, bind_eq_ok]
  constructor
  · rintro ⟨inner, hinner, h⟩
    obtain ⟨codes, hcodes, rfl⟩ := blocksCode_eq_ok.mp hinner
    exact ⟨codes, hcodes, (Except.ok.inj h).symm⟩
  · rintro ⟨codes, hcodes, rfl⟩
    exact ⟨_, blocksCode_eq_ok.mpr ⟨codes, hcodes, rfl⟩, rfl⟩

theorem exists_blocksEmit {p : Program} {b : Bool} (h : l.Describes p b) (hp : p.IsValid)
    (hmem : ∀ b ∈ blocks, ∀ i ∈ b.instructions, i ∈ p.instructions)
    (hfits : ∀ b ∈ blocks, ∀ i ∈ b.instructions, i.Fits p f) :
    ∃ codes, BlocksEmit l function counter blocks codes := by
  induction blocks with
  | nil => exact ⟨[], .nil⟩
  | cons b rest ih =>
    rw [List.forall_mem_cons] at hmem hfits
    obtain ⟨c, hc⟩ := exists_instructionsCode h hp hmem.1 hfits.1
    obtain ⟨codes, hcodes⟩ := ih hmem.2 hfits.2
    exact ⟨c :: codes, .cons hc hcodes⟩

theorem exists_functionBody {p : Program} {b : Bool} (h : l.Describes p b) (hp : p.IsValid)
    (hf : f ∈ p.functions) : ∃ body, functionBody l index f = .ok body := by
  obtain ⟨codes, hcodes⟩ := exists_blocksEmit h hp
    (fun b hb i hi => Program.mem_instructions hf hb hi)
    (fun b hb i hi => ((hp.functions f hf).blocks b hb).fits i hi)
  exact ⟨_, functionBody_eq_ok.mpr ⟨codes, hcodes, rfl⟩⟩

end

end MutationAnalysis.Lowering
