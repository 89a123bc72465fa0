/-
Compiled programs are well typed.

A body of a compiled program refers to what its layout numbers; `Sees` says that a scope has all of
it.  In such a scope the code of every instruction takes nothing off the stack and leaves nothing,
so do the codes of blocks, and the loop around them.  Registers and the block number are locals of
the body as long as the registers of the function are fewer than 2 ^ 32 - 1.

The main result is that a valid program whose functions keep within this bound compiles, and that
what it compiles to is well formed (`CompiledProgram.IsWellFormed`).
-/
import MutationAnalysis.Proofs.Lowering.Module
import MutationAnalysis.Proofs.Wasm.Typing

namespace MutationAnalysis

open Wasm

/-- The register that an operand names. -/
def Operand.register? : Operand → Option Register
  | .register r => some r
  | _ => none

theorem Operand.register?_eq_some {a : Operand} {r : Register} :
    a.register? = some r ↔ a = .register r := by
  cases a <;> simp [register?]

namespace Lowering

/-! ### Locals -/

variable {f : Function}

theorem counterLocal_eq (h : f.registersNeeded < 2 ^ 32 - 1) :
    counterLocal f = f.registersNeeded := by
  rw [counterLocal, UInt64.toNat_toUInt32, Function.registerCount_toNat h]
  omega

/-- The locals of a body are the registers of its function and the block number. -/
theorem numParams_add_extraLocals (h : f.registersNeeded < 2 ^ 32 - 1) :
    f.numParams.toNat + extraLocals f = f.registersNeeded + 1 := by
  have hcount := Function.registerCount_toNat h
  have hle : f.numParams.toNat ≤ f.registersNeeded := by
    rw [Function.registersNeeded]
    omega
  have hsub : (f.registerCount - f.numParams).toNat = f.registersNeeded - f.numParams.toNat := by
    rw [UInt64.toNat_sub_of_le _ _ (by rw [UInt64.le_iff_toNat_le, hcount]; exact hle), hcount]
  rw [extraLocals, UInt32.toNat_add, UInt64.toNat_toUInt32, hsub]
  have : (1 : UInt32).toNat = 1 := rfl
  omega

end Lowering

/-- The registers that the code of an instruction reads or writes.  Some instructions may name more
of them, which mean nothing there. -/
def Instruction.accessed (i : Instruction) : List Register :=
  match i.opcode with
  | .branch | .unreachable => []
  | .branchIf => (i.operands.take 1).filterMap Operand.register?
  | .store | .ret => i.operands.filterMap Operand.register?
  | _ => i.operands.filterMap Operand.register? ++ i.dest.toList

/-- So many locals are enough for the registers of a function and the block number. -/
structure Function.HasLocals (f : Function) (locals : Nat) : Prop where
  registers : ∀ i ∈ f.instructions, ∀ r ∈ i.accessed, r.toNat < locals
  counter : Lowering.counterLocal f < locals

theorem Instruction.mem_registers_of_accessed {i : Instruction} {r : Register}
    (h : r ∈ i.accessed) : r ∈ i.registers := by
  have hoperand : ∀ operands : List Operand, (∀ a ∈ operands, a ∈ i.operands) →
      r ∈ operands.filterMap Operand.register? → r ∈ i.registers := by
    intro operands hsub hr
    obtain ⟨a, ha, hr⟩ := List.mem_filterMap.mp hr
    obtain rfl := Operand.register?_eq_some.mp hr
    exact List.mem_append_right _ (List.mem_filterMap.mpr ⟨_, hsub _ ha, rfl⟩)
  rw [accessed] at h
  split at h
  · simp at h
  · simp at h
  · exact hoperand _ (fun a ha => List.mem_of_mem_take ha) h
  · exact hoperand _ (fun a ha => ha) h
  · exact hoperand _ (fun a ha => ha) h
  · rcases List.mem_append.mp h with h | h
    · exact hoperand _ (fun a ha => ha) h
    · exact List.mem_append_left _ h

/-- The locals of a body are enough if the registers fit in 32 bits. -/
theorem Function.hasLocals_of_lt {f : Function} (h : f.registersNeeded < 2 ^ 32 - 1) :
    f.HasLocals (f.numParams.toNat + Lowering.extraLocals f) := by
  rw [Lowering.numParams_add_extraLocals h]
  refine ⟨fun i hi r hr => ?_, by rw [Lowering.counterLocal_eq h]; omega⟩
  have := Function.lt_usedRegisters hi (Instruction.mem_registers_of_accessed hr)
  rw [Function.registersNeeded]
  omega

namespace Lowering

/-! ### Code -/

/-- A scope has what the code of a function of a program refers to. -/
structure Sees (scope : Scope) (l : Layout) (p : Program) (f : Function) : Prop where
  types : scope.types = l.types
  functions : ∀ (i : Nat) (g : Function), p.functions[i]? = some g →
    scope.functions[l.probes + i]? = some (funcType g.signature)
  probes : l.isInstrumented = true →
    scope.functions[enterProbe]? = some probeType ∧ scope.functions[leaveProbe]? = some probeType
  globals : l.offsetGlobal ≤ scope.globals
  offset : l.isInstrumented = true → l.offsetGlobal < scope.globals
  locals : f.HasLocals scope.locals
  results : scope.results = (funcType f.signature).results

/-! ### Instructions -/

section

variable {scope : Scope} {l : Layout} {p : Program} {s : Site} {labels n : Nat}

theorem globalIndex?_lt {name : String} {index : Nat} (h : l.globalIndex? name = some index) :
    index < l.offsetGlobal := by
  rw [Layout.globalIndex?] at h
  rw [Layout.offsetGlobal]
  split at h
  · rename_i i hi
    obtain ⟨hlt, -⟩ := List.idxOf?_eq_some_iff.mp hi
    obtain rfl := Option.some.inj h
    omega
  · obtain ⟨hlt, -⟩ := List.findIdx?_eq_some_iff_getElem.mp h
    omega

theorem typed_valueOp {a : Operand} (ha : a.isValue = true)
    (hr : ∀ r, a = .register r → r.toNat < scope.locals) :
    (valueOp a).Typed scope labels n (n + 1) := by
  cases a with
  | register r => exact .localGet (hr r rfl)
  | immediate v => exact .const
  | block | symbol => exact absurd ha (by simp [Operand.isValue])

theorem typed_valueOps {operands : List Operand} (ha : ∀ a ∈ operands, a.isValue = true)
    (hr : ∀ r, .register r ∈ operands → r.toNat < scope.locals) :
    (Code.ofOps (operands.map valueOp)).Typed scope labels n (n + operands.length) := by
  induction operands generalizing n with
  | nil => exact .done
  | cons a rest ih =>
    rw [List.forall_mem_cons] at ha
    rw [List.map_cons, List.length_cons, Nat.add_comm rest.length, ← Nat.add_assoc]
    exact .ofOps_cons (typed_valueOp ha.1 fun r h => hr r (by simp [h]))
      (ih ha.2 fun r h => hr r (by simp [h]))

theorem mem_registers_of_mem {operands : List Operand} {r : Register}
    (h : .register r ∈ operands) : r ∈ operands.filterMap Operand.register? :=
  List.mem_filterMap.mpr ⟨_, h, rfl⟩

theorem accessed_of_binaryOp? {opcode : Opcode} {op : BinaryOp} (h : binaryOp? opcode = some op)
    (dest : Option Register) (operands : List Operand) (location : Option Location) :
    (⟨opcode, dest, operands, location⟩ : Instruction).accessed
      = operands.filterMap Operand.register? ++ dest.toList := by
  cases opcode <;> first | rfl | simp [binaryOp?] at h

theorem typed_givenOps {signature : Signature} {dest : Option Register}
    (hd : ∀ r, dest = some r → r.toNat < scope.locals) :
    (Code.ofOps (givenOps signature dest)).Typed scope labels (funcType signature).results 0 := by
  rw [givenOps, FuncType.results, funcType]
  split
  · cases dest with
    | none => exact .ofOps_singleton .drop
    | some r => exact .ofOps_singleton (.localSet (hd r rfl))
  · exact .done

theorem typed_jumpOps {counter depth m : Nat} {target : UInt32} (hc : counter < scope.locals)
    (hd : depth < labels) :
    (Code.ofOps (jumpOps counter target depth)).Typed scope labels n m :=
  .ofOps_cons .const (.ofOps_cons (.localSet hc) (.ofOps_singleton (.br hd)))

theorem typed_probeOps (h : Sees scope l p f) {index probe : Nat}
    (hp : l.isInstrumented = true → scope.functions[probe]? = some probeType) :
    (Code.ofOps (probeOps l index probe)).Typed scope labels n n := by
  rw [probeOps]
  split
  · rename_i hl
    have hcall : (Op.call probe).Typed scope labels (n + 1) n := .call (t := probeType) (hp hl)
    exact .ofOps_cons .const (.ofOps_cons (.globalGet (h.offset hl))
      (.ofOps_cons .binary (.ofOps_singleton hcall)))
  · exact .done

/-- The code of an instruction takes nothing off the stack and leaves nothing there. -/
theorem typed_of_emits (h : Sees scope l p f) {i : Instruction} {c : Code}
    (hi : Emits l p f s i c) (hr : ∀ r ∈ i.accessed, r.toNat < scope.locals)
    (hcounter : s.counter < scope.locals) (hlabels : s.depth < labels) :
    c.Typed scope labels 0 0 := by
  -- one case for each form of code: its operations one after the other, each with what it leaves
  cases hi with
  | @binary opcode op dest a b _ hop ha hb =>
    rw [accessed_of_binaryOp? hop] at hr
    exact .ofOps_cons (typed_valueOp ha fun r h => hr r (by simp [h, Operand.register?]))
      (.ofOps_cons (typed_valueOp hb fun r h => hr r (by simp [h, Operand.register?]))
        (.ofOps_cons .binary (.ofOps_singleton (.localSet (hr dest (by simp))))))
  | neg ha =>
    exact .ofOps_cons .const
      (.ofOps_cons (typed_valueOp ha fun r h => hr r (by simp [Instruction.accessed, h,
        Operand.register?]))
      (.ofOps_cons .binary (.ofOps_singleton (.localSet (hr _ (by simp [Instruction.accessed]))))))
  | not ha =>
    exact .ofOps_cons (typed_valueOp ha fun r h => hr r (by simp [Instruction.accessed, h,
        Operand.register?]))
      (.ofOps_cons .eqz (.ofOps_singleton (.localSet (hr _ (by simp [Instruction.accessed])))))
  | copy hop ha =>
    rcases hop with rfl | rfl
    all_goals
      exact .ofOps_cons (typed_valueOp ha fun r h => hr r (by simp [Instruction.accessed, h,
          Operand.register?]))
        (.ofOps_singleton (.localSet (hr _ (by simp [Instruction.accessed]))))
  | load ha =>
    exact .ofOps_cons (typed_valueOp ha fun r h => hr r (by simp [Instruction.accessed, h,
        Operand.register?]))
      (.ofOps_cons .load (.ofOps_singleton (.localSet (hr _ (by simp [Instruction.accessed])))))
  | store ha hb =>
    exact .ofOps_cons (typed_valueOp ha fun r h => hr r (by simp [Instruction.accessed, h,
        Operand.register?]))
      (.ofOps_cons (typed_valueOp hb fun r h => hr r (by simp [Instruction.accessed, h,
        Operand.register?]))
        (.ofOps_singleton .store))
  | branch => exact typed_jumpOps hcounter hlabels
  | branchIf hop ho hc =>
    exact .op (typed_valueOp hc fun r h => hr r (by simp [Instruction.accessed, hop, ho, h,
        Operand.register?]))
      (.ifElse (typed_jumpOps hcounter (Nat.add_lt_add_right hlabels 1))
        (typed_jumpOps hcounter (Nat.add_lt_add_right hlabels 1)) .done)
  | callOwn ha hf hn hd =>
    refine .ofOps_append (typed_valueOps ha fun r h => hr r ?_) ?_
    · exact List.mem_append_left _ (mem_registers_of_mem (List.mem_cons_of_mem _ h))
    rw [← hn, Nat.zero_add]
    refine .ofOps_cons ?_ (typed_givenOps fun r h => hr r (by simp [Instruction.accessed, h]))
    have hcall := @Op.Typed.call scope labels _ 0 _ (h.functions _ _ hf)
    rwa [Nat.zero_add, Nat.zero_add] at hcall
  | callAddress ha _ _ hn _ hg ht =>
    refine .ofOps_append (typed_valueOps ha fun r h => hr r ?_) ?_
    · exact List.mem_append_left _ (mem_registers_of_mem (List.mem_cons_of_mem _ h))
    have hglobal := Nat.lt_of_lt_of_le (globalIndex?_lt hg) h.globals
    rw [← hn, Nat.zero_add]
    refine .ofOps_cons (.globalGet hglobal) (.ofOps_cons ?_
      (typed_givenOps fun r h => hr r (by simp [Instruction.accessed, h])))
    have hcall := @Op.Typed.callIndirect scope labels _ 0 _
      (h.types ▸ Layout.Describes.types_typeIndex ht)
    rwa [Nat.zero_add, Nat.zero_add] at hcall
  | @callCell dest _ _ _ _ ha _ hg ht =>
    refine .ofOps_append (typed_valueOps ha fun r h => hr r ?_) ?_
    · exact List.mem_append_left _ (mem_registers_of_mem (List.mem_cons_of_mem _ h))
    have hglobal := Nat.lt_of_lt_of_le (globalIndex?_lt hg) h.globals
    rw [Nat.zero_add]
    refine .ofOps_cons (m := _ + 1) (.globalGet hglobal)
      (.ofOps_cons (m := dest.toList.length) ?_ ?_)
    · have hcall := @Op.Typed.callIndirect scope labels _ 0 _
        (h.types ▸ Layout.Describes.types_typeIndex ht)
      cases dest <;> simpa [FuncType.results] using hcall
    · cases dest with
      | none => exact .done
      | some r => exact .ofOps_singleton (.localSet (hr r (by simp [Instruction.accessed])))
  | ret ha hn =>
    refine .ofOps_append (typed_valueOps ha fun r h => hr r (mem_registers_of_mem h)) ?_
    refine .ofOps_append (typed_probeOps h fun hl => (h.probes hl).2) (.ofOps_singleton ?_)
    rw [hn, ← h.results]
    exact .ret
  | unreachable => exact .ofOps_singleton .unreachable

/-! ### Blocks and bodies -/

variable {b : Bool}

theorem typed_instructionsCode (h : Sees scope l p f) (hd : l.Describes p b) (hp : p.IsValid)
    (hcounter : s.counter < scope.locals) (hlabels : s.depth < labels)
    {instructions : List Instruction} (hmem : ∀ i ∈ instructions, i ∈ p.instructions)
    (hfits : ∀ i ∈ instructions, i.Fits p f)
    (hr : ∀ i ∈ instructions, ∀ r ∈ i.accessed, r.toNat < scope.locals) {c : Code}
    (hc : instructionsCode l s instructions = .ok c) : c.Typed scope labels 0 0 := by
  induction instructions generalizing c with
  | nil =>
    obtain rfl := Except.ok.inj hc
    exact .done
  | cons i rest ih =>
    rw [List.forall_mem_cons] at hmem hfits hr
    obtain ⟨first, others, hfirst, hothers, rfl⟩ := instructionsCode_cons.mp hc
    have hemits := emits_of_eq_ok hd hp hmem.1 hfits.1 hfirst
    exact (typed_of_emits h hemits hr.1 hcounter hlabels).append
      (ih hmem.2 hfits.2 hr.2 hothers)

/-- Codes of blocks that are typed where they stand are typed when they are nested. -/
theorem typed_nest {function counter : Nat} {blocks : List Block} {codes : List Code} {inner : Code}
    (h : BlocksEmit l function counter blocks codes)
    (hinner : inner.Typed scope (blocks.length + 1) 0 0)
    (hcodes : ∀ b ∈ blocks, ∀ depth c,
      instructionsCode l ⟨function, counter, depth⟩ b.instructions = .ok c →
        c.Typed scope (depth + 1) 0 0) :
    (nest inner codes).Typed scope 1 0 0 := by
  induction h generalizing inner with
  | nil => exact hinner
  | cons hc _ ih =>
    rw [List.forall_mem_cons] at hcodes
    exact ih (.block hinner (hcodes.1 _ _ hc)) hcodes.2

theorem typed_dispatcher {counter blocks : Nat} (hcounter : counter < scope.locals)
    (hblocks : blocks ≠ 0) : (dispatcher counter blocks).Typed scope (blocks + 1) 0 0 := by
  refine .ofOps_cons (.localGet hcounter) (.ofOps_singleton (.brTable (fun d hd => ?_) ?_))
  · have := List.mem_range.mp hd
    omega
  · rw [lastBlock, if_neg hblocks]
    omega

theorem typed_bodyOf (h : Sees scope l p f) (hd : l.Describes p b) (hp : p.IsValid)
    (hf : f ∈ p.functions) {index : Nat} {codes : List Code}
    (hcodes : BlocksEmit l index (counterLocal f) f.blocks codes) :
    (bodyOf l index f codes).code.Typed scope 0 0 (funcType f.signature).results := by
  have hvalid := hp.functions f hf
  refine (typed_probeOps h fun hl => (h.probes hl).1).append
    (.loop ?_ (.ofOps_singleton .unreachable))
  refine typed_nest hcodes (typed_dispatcher h.locals.counter ?_) fun block hblock depth c hc => ?_
  · rw [Ne, List.length_eq_zero_iff]
    exact hvalid.blocks_ne_nil
  · exact typed_instructionsCode h hd hp h.locals.counter (Nat.lt_succ_self depth)
      (fun i hi => Program.mem_instructions hf hblock hi) (hvalid.blocks block hblock).fits
      (fun i hi => h.locals.registers i (List.mem_flatMap.mpr ⟨block, hblock, hi⟩)) hc

/-! ### Branches -/

theorem br_ne_valueOp {a : Operand} {d : Nat} : Op.br d ≠ valueOp a := by
  cases a <;> simp [valueOp]

theorem br_notMem_valueOps {operands : List Operand} {d : Nat} :
    Op.br d ∉ operands.map valueOp := by
  rw [List.mem_map]
  rintro ⟨a, -, ha⟩
  exact br_ne_valueOp ha.symm

theorem br_notMem_givenOps {signature : Signature} {dest : Option Register} {d : Nat} :
    Op.br d ∉ givenOps signature dest := by
  rw [givenOps]
  cases dest <;> split <;> simp [resultOp]

theorem br_notMem_probeOps {index probe d : Nat} : Op.br d ∉ probeOps l index probe := by
  rw [probeOps]
  split <;> simp

/-- The branches of an instruction go to the loop. -/
theorem branchesTo_of_emits {i : Instruction} {c : Code} (hi : Emits l p f s i c) :
    c.BranchesTo s.depth := by
  cases hi with
  | binary | neg | not | copy | load | store =>
    exact Code.branchesTo_ofOps.mpr (by simp [br_ne_valueOp])
  | branch | unreachable => exact Code.branchesTo_ofOps.mpr (by simp [jumpOps])
  | branchIf =>
    exact ⟨fun d hd => absurd hd.symm br_ne_valueOp,
      Code.branchesTo_ofOps.mpr (by simp [jumpOps]), Code.branchesTo_ofOps.mpr (by simp [jumpOps]),
      trivial⟩
  | callOwn | callAddress =>
    refine Code.branchesTo_ofOps.mpr fun d hd => ?_
    simp [br_notMem_valueOps, br_notMem_givenOps, -List.mem_map] at hd
  | @callCell dest =>
    refine Code.branchesTo_ofOps.mpr fun d hd => ?_
    cases dest <;> simp [br_notMem_valueOps, -List.mem_map] at hd
  | ret =>
    refine Code.branchesTo_ofOps.mpr fun d hd => ?_
    simp [br_notMem_valueOps, br_notMem_probeOps, -List.mem_map] at hd

theorem branchesTo_instructionsCode (hd : l.Describes p b) (hp : p.IsValid)
    {instructions : List Instruction} (hmem : ∀ i ∈ instructions, i ∈ p.instructions)
    (hfits : ∀ i ∈ instructions, i.Fits p f) {c : Code}
    (hc : instructionsCode l s instructions = .ok c) : c.BranchesTo s.depth := by
  induction instructions generalizing c with
  | nil =>
    obtain rfl := Except.ok.inj hc
    exact trivial
  | cons i rest ih =>
    rw [List.forall_mem_cons] at hmem hfits
    obtain ⟨first, others, hfirst, hothers, rfl⟩ := instructionsCode_cons.mp hc
    exact (branchesTo_of_emits (emits_of_eq_ok hd hp hmem.1 hfits.1 hfirst)).append
      (ih hmem.2 hfits.2 hothers)

theorem branchesTo_nest {function counter : Nat} {blocks : List Block} {codes : List Code}
    {inner : Code} (h : BlocksEmit l function counter blocks codes)
    (hinner : inner.BranchesTo blocks.length)
    (hcodes : ∀ b ∈ blocks, ∀ depth c,
      instructionsCode l ⟨function, counter, depth⟩ b.instructions = .ok c → c.BranchesTo depth) :
    (nest inner codes).BranchesTo 0 := by
  induction h generalizing inner with
  | nil => exact hinner
  | cons hc _ ih =>
    rw [List.forall_mem_cons] at hcodes
    exact ih ⟨hinner, hcodes.1 _ _ hc⟩ hcodes.2

/-- Every branch in the blocks of a function goes to the loop around them. -/
theorem branchesTo_blocks (hd : l.Describes p b) (hp : p.IsValid) (hf : f ∈ p.functions)
    {index : Nat} {codes : List Code}
    (hcodes : BlocksEmit l index (counterLocal f) f.blocks codes) :
    (nest (dispatcher (counterLocal f) f.blocks.length) codes).BranchesTo 0 := by
  refine branchesTo_nest hcodes (Code.branchesTo_ofOps.mpr (by simp)) fun block hblock depth c hc =>
    ?_
  exact branchesTo_instructionsCode hd hp
    (fun i hi => Program.mem_instructions hf hblock hi)
    ((hp.functions f hf).blocks block hblock).fits hc

end

end Lowering

end MutationAnalysis
