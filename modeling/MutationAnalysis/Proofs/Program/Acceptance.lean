/-
What validation accepts.

`Instruction.Fits` lists the instructions that may stand in a function of a program, by
what they do.  An instruction is accepted exactly where it fits, and a function exactly
where all of its instructions do and each of its blocks ends with its last instruction and
not before.  So a function that is accepted in one program is accepted in every other that
calls under its callees' names alike.

* `Instruction.validate_eq_ok`, `Function.validate_eq_ok`, `Program.validate_eq_ok`:
  acceptance without the validator;
* `Function.IsAccepted.transfer`: accepted functions in other programs.
-/
import MutationAnalysis.Program.Validation
import MutationAnalysis.Proofs.Except
import MutationAnalysis.Proofs.Program.Names
import Mathlib.Data.List.Basic

namespace MutationAnalysis

theorem require_eq_ok {ε : Type} {condition : Bool} {fault : ε} :
    require condition fault = .ok () ↔ condition = true := by
  cases condition <;> simp [require]

namespace Instruction

/-- The instructions that may stand in a function of a program. -/
inductive Fits (p : Program) (f : Function) : Instruction → Prop
  | binary {opcode : Opcode} {dest : Register} {a b : Operand} {location : Option Location}
      (hop : opcode.isBinary = true) (ha : a.isValue = true) (hb : b.isValue = true) :
      Fits p f ⟨opcode, some dest, [a, b], location⟩
  | unary {opcode : Opcode} {dest : Register} {a : Operand} {location : Option Location}
      (hop : opcode = .neg ∨ opcode = .not ∨ opcode = .copy ∨ opcode = .load)
      (ha : a.isValue = true) :
      Fits p f ⟨opcode, some dest, [a], location⟩
  | loadConst {dest : Register} {v : Value} {location : Option Location} :
      Fits p f ⟨.loadConst, some dest, [.immediate v], location⟩
  | store {dest : Option Register} {a b : Operand} {location : Option Location}
      (ha : a.isValue = true) (hb : b.isValue = true) :
      Fits p f ⟨.store, dest, [a, b], location⟩
  | branch {i : Instruction} {target : UInt32} (hop : i.opcode = .branch)
      (hs : i.successors = [target]) (ht : target.toNat < f.blocks.length) :
      Fits p f i
  | branchIf {i : Instruction} {condition : Operand} {others : List Operand} {yes no : UInt32}
      (hop : i.opcode = .branchIf) (ho : i.operands = condition :: others)
      (hc : condition.isValue = true) (hs : i.successors = [yes, no])
      (hy : yes.toNat < f.blocks.length) (hn : no.toNat < f.blocks.length) :
      Fits p f i
  | call {dest : Option Register} {callee : String} {arguments : List Operand}
      {location : Option Location} {s : Signature} (ha : ∀ a ∈ arguments, a.isValue = true)
      (hs : p.signature? callee = some s) (hn : s.numParams.toNat = arguments.length)
      (hd : dest.isSome → s.returnsValue = true) :
      Fits p f ⟨.call, dest, .symbol callee :: arguments, location⟩
  | callIndirect {dest : Option Register} {cell : String} {arguments : List Operand}
      {location : Option Location} (ha : ∀ a ∈ arguments, a.isValue = true) :
      Fits p f ⟨.callIndirect, dest, .symbol cell :: arguments, location⟩
  | retNothing {dest : Option Register} {location : Option Location}
      (hf : f.returnType = .void) :
      Fits p f ⟨.ret, dest, [], location⟩
  | retValue {dest : Option Register} {a : Operand} {location : Option Location}
      (hf : f.returnType = .int) (ha : a.isValue = true) :
      Fits p f ⟨.ret, dest, [a], location⟩
  | unreachable {i : Instruction} (hop : i.opcode = .unreachable) :
      Fits p f i

variable {p : Program} {f : Function} {i : Instruction}

theorem requireValues_one (h : i.requireValues 1 = .ok ()) :
    ∃ a, i.operands = [a] ∧ a.isValue = true := by
  simp only [requireValues, require_eq_ok, Bool.and_eq_true, beq_iff_eq] at h
  obtain ⟨hl, ha⟩ := h
  obtain ⟨a, h⟩ := List.length_eq_one_iff.mp hl
  exact ⟨a, h, by simpa [h] using ha⟩

theorem requireValues_two (h : i.requireValues 2 = .ok ()) :
    ∃ a b, i.operands = [a, b] ∧ a.isValue = true ∧ b.isValue = true := by
  simp only [requireValues, require_eq_ok, Bool.and_eq_true, beq_iff_eq] at h
  obtain ⟨hl, ha⟩ := h
  obtain ⟨a, b, h⟩ := List.length_eq_two.mp hl
  rw [h] at ha
  simp only [List.all_cons, List.all_nil, Bool.and_true, Bool.and_eq_true] at ha
  exact ⟨a, b, h, ha.1, ha.2⟩

theorem validateTargets_eq_ok {expected blocks : Nat} {condition : Bool}
    (h : i.validateTargets expected blocks condition = .ok ()) :
    i.successors.length = expected ∧ condition = true ∧
      ∀ t ∈ i.successors, t.toNat < blocks := by
  simp only [validateTargets, bind_unit_eq_ok, require_eq_ok] at h
  obtain ⟨hl, hc, ht⟩ := h
  refine ⟨by simpa using hl, hc, fun t mem => ?_⟩
  cases hfind : i.successors.find? fun t => decide (blocks ≤ t.toNat) with
  | some t' =>
    rw [hfind] at ht
    exact absurd ht (by simp)
  | none =>
    have := List.find?_eq_none.mp hfind t mem
    simpa using this

/-- The operands of an instruction that calls a symbol begin with it. -/
theorem callee_eq_some {name : String} (h : i.callee = some name) :
    i.opcode.isCall = true ∧ ∃ arguments, i.operands = .symbol name :: arguments ∧
      i.callArguments = arguments := by
  unfold callee at h
  split at h
  case h_1 first rest hop ho =>
    obtain rfl : first = name := by simpa using h
    exact ⟨hop, rest, ho, by simp [callArguments, hop, ho]⟩
  case h_2 => exact absurd h (by simp)

/-- What calls by name is a call, direct or through a cell. -/
theorem opcode_of_callee {name : String} (h : i.callee = some name) :
    i.opcode = .call ∨ i.opcode = .callIndirect := by
  have hcall := (callee_eq_some h).1
  cases hop : i.opcode <;> rw [hop] at hcall <;>
    first
    | exact .inl rfl
    | exact .inr rfl
    | exact absurd hcall Bool.false_ne_true

theorem fits_of_validateCall (hop : i.opcode = .call ∨ i.opcode = .callIndirect)
    (h : i.validateCall p = .ok ()) : Fits p f i := by
  unfold validateCall at h
  cases hcallee : i.callee with
  | none =>
    rw [hcallee] at h
    exact absurd h (by simp)
  | some callee =>
    rw [hcallee] at h
    simp only [bind_unit_eq_ok, require_eq_ok] at h
    obtain ⟨-, arguments, ho, harg⟩ := callee_eq_some hcallee
    rw [harg] at h
    obtain ⟨ha, h⟩ := h
    obtain ⟨opcode, dest, operands, location⟩ := i
    simp only at ho hop h
    subst ho
    -- only the callee of a direct call is looked up
    rcases hop with rfl | rfl
    · rw [if_neg (by simp)] at h
      split at h
      · exact absurd h (by simp)
      · rename_i s hs
        simp only [bind_unit_eq_ok, require_eq_ok, beq_iff_eq, Bool.or_eq_true] at h
        refine .call (by simpa using ha) hs h.1 fun hd => ?_
        rcases h.2 with hn | hr
        · rw [Option.isNone_iff_eq_none] at hn
          rw [hn] at hd
          exact absurd hd (by simp)
        · exact hr
    · exact .callIndirect (by simpa using ha)

theorem fits_of_validateReturn (hop : i.opcode = .ret)
    (h : i.validateReturn f.returnType = .ok ()) : Fits p f i := by
  obtain ⟨opcode, dest, operands, location⟩ := i
  simp only at hop
  subst hop
  unfold validateReturn at h
  split at h
  · rename_i hf ho
    simp only at ho
    subst ho
    exact .retNothing hf
  · rename_i a hf ho
    simp only at ho
    subst ho
    exact .retValue hf (require_eq_ok.mp h)
  · exact absurd h (by simp)

theorem fits_of_validateBinary (hop : i.opcode.isBinary = true)
    (h : (do i.requireValues 2; i.requireDest) = .ok ()) : Fits p f i := by
  rw [bind_unit_eq_ok] at h
  obtain ⟨a, b, ho, ha, hb⟩ := requireValues_two h.1
  obtain ⟨dest, hd⟩ := Option.isSome_iff_exists.mp (require_eq_ok.mp h.2)
  obtain ⟨opcode, dest', operands, location⟩ := i
  simp only at ho hd hop
  subst ho hd
  exact .binary hop ha hb

theorem fits_of_validateUnary
    (hop : i.opcode = .neg ∨ i.opcode = .not ∨ i.opcode = .copy ∨ i.opcode = .load)
    (h : (do i.requireValues 1; i.requireDest) = .ok ()) : Fits p f i := by
  rw [bind_unit_eq_ok] at h
  obtain ⟨a, ho, ha⟩ := requireValues_one h.1
  obtain ⟨dest, hd⟩ := Option.isSome_iff_exists.mp (require_eq_ok.mp h.2)
  obtain ⟨opcode, dest', operands, location⟩ := i
  simp only at ho hd hop
  subst ho hd
  exact .unary hop ha

theorem fits_of_validateBranch (hop : i.opcode = .branch)
    (h : i.validateTargets 1 f.blocks.length true = .ok ()) : Fits p f i := by
  obtain ⟨hl, -, ht⟩ := validateTargets_eq_ok h
  obtain ⟨target, hs⟩ := List.length_eq_one_iff.mp hl
  exact .branch hop hs (ht target (by simp [hs]))

theorem fits_of_validateBranchIf (hop : i.opcode = .branchIf)
    (h : i.validateTargets 2 f.blocks.length (i.operands.head?.any (·.isValue)) = .ok ()) :
    Fits p f i := by
  obtain ⟨hl, hc, ht⟩ := validateTargets_eq_ok h
  obtain ⟨yes, no, hs⟩ := List.length_eq_two.mp hl
  cases ho : i.operands with
  | nil =>
    rw [ho] at hc
    exact absurd hc (by simp)
  | cons condition others =>
    rw [ho] at hc
    exact .branchIf hop ho (by simpa using hc) hs (ht yes (by simp [hs])) (ht no (by simp [hs]))

/-- What validation accepts fits. -/
theorem fits_of_validate (h : i.validate p f = .ok ()) : Fits p f i := by
  unfold validate at h
  cases hop : i.opcode <;> simp only [hop] at h
  case neg | not | copy | load => exact fits_of_validateUnary (by simp [hop]) h
  case loadConst =>
    rw [bind_unit_eq_ok] at h
    obtain ⟨dest, hd⟩ := Option.isSome_iff_exists.mp (require_eq_ok.mp h.1)
    obtain ⟨opcode, dest', operands, location⟩ := i
    simp only at hop hd h
    subst hop hd
    split at h
    · exact .loadConst
    · exact absurd h.2 (by simp)
  case store =>
    obtain ⟨a, b, ho, ha, hb⟩ := requireValues_two h
    obtain ⟨opcode, dest, operands, location⟩ := i
    simp only at hop ho
    subst hop ho
    exact .store ha hb
  case branch => exact fits_of_validateBranch hop h
  case branchIf => exact fits_of_validateBranchIf hop h
  case call | callIndirect => exact fits_of_validateCall (by simp [hop]) h
  case ret => exact fits_of_validateReturn hop h
  case unreachable => exact .unreachable hop
  all_goals exact fits_of_validateBinary (by simp [hop, Opcode.isBinary]) h

theorem validateTargets_of_lt {expected blocks : Nat} (hlength : i.successors.length = expected)
    (hlt : ∀ t ∈ i.successors, t.toNat < blocks) :
    i.validateTargets expected blocks true = .ok () := by
  have hfind : (i.successors.find? fun t => decide (blocks ≤ t.toNat)) = none :=
    List.find?_eq_none.mpr fun t ht => by simpa using hlt t ht
  rw [validateTargets, hfind, bind_unit_eq_ok, bind_unit_eq_ok, require_eq_ok, require_eq_ok]
  exact ⟨beq_iff_eq.mpr hlength, rfl, rfl⟩

/-- What fits is accepted. -/
theorem Fits.validate (h : i.Fits p f) : i.validate p f = .ok () := by
  cases h with
  | @binary opcode dest a b location hop ha hb =>
    have htwo : (⟨opcode, some dest, [a, b], location⟩ : Instruction).requireValues 2 = .ok () :=
      require_eq_ok.mpr (by simp [ha, hb])
    cases opcode <;> first | exact bind_unit_eq_ok.mpr ⟨htwo, rfl⟩ | cases hop
  | @unary opcode dest a location hop ha =>
    have hone : (⟨opcode, some dest, [a], location⟩ : Instruction).requireValues 1 = .ok () :=
      require_eq_ok.mpr (by simp [ha])
    rcases hop with rfl | rfl | rfl | rfl <;> exact bind_unit_eq_ok.mpr ⟨hone, rfl⟩
  | loadConst => rfl
  | store ha hb => exact require_eq_ok.mpr (by simp [ha, hb])
  | branch hop hs ht =>
    rw [Instruction.validate, hop]
    exact validateTargets_of_lt (by rw [hs]; rfl) (by simpa [hs] using ht)
  | branchIf hop ho hc hs hy hn =>
    have hcondition : i.operands.head?.any (·.isValue) = true := by rw [ho]; exact hc
    rw [Instruction.validate, hop]
    dsimp only
    rw [hcondition]
    exact validateTargets_of_lt (by rw [hs]; rfl) (by simp [hs, hy, hn])
  | @call dest callee arguments location s ha hs hn hd =>
    have hvalues : arguments.all (·.isValue) = true := List.all_eq_true.mpr ha
    have hresult : (dest.isNone || s.returnsValue) = true := by
      cases dest with
      | none => rfl
      | some r => exact hd rfl
    simp [Instruction.validate, validateCall, Instruction.callee, callArguments,
      Opcode.isCall, hvalues, hs, hn, hresult, require, bind, Except.bind]
  | @callIndirect dest cell arguments location ha =>
    have hvalues : arguments.all (·.isValue) = true := List.all_eq_true.mpr ha
    simp [Instruction.validate, validateCall, Instruction.callee, callArguments,
      Opcode.isCall, hvalues, require, bind, Except.bind]
  | retNothing hf =>
    show validateReturn f.returnType _ = _
    rw [hf]
    rfl
  | retValue hf ha =>
    show validateReturn f.returnType _ = _
    rw [hf]
    exact require_eq_ok.mpr ha
  | unreachable hop => rw [Instruction.validate, hop]

theorem validate_eq_ok : i.validate p f = .ok () ↔ i.Fits p f :=
  ⟨fits_of_validate, Fits.validate⟩

/-- Whether an instruction fits depends on the blocks there are, on what the function gives back and
on how the callee is called. -/
theorem Fits.transfer {p' : Program} {f' : Function} (h : i.Fits p f)
    (hblocks : f'.blocks.length = f.blocks.length) (hreturn : f'.returnType = f.returnType)
    (hcallee : ∀ callee s, i.callee = some callee → p.signature? callee = some s →
      p'.signature? callee = some s) : i.Fits p' f' := by
  cases h with
  | binary hop ha hb => exact .binary hop ha hb
  | unary hop ha => exact .unary hop ha
  | loadConst => exact .loadConst
  | store ha hb => exact .store ha hb
  | branch hop hs ht => exact .branch hop hs (by rwa [hblocks])
  | branchIf hop ho hc hs hy hn =>
    exact .branchIf hop ho hc hs (by rwa [hblocks]) (by rwa [hblocks])
  | call ha hs hn hd => exact .call ha (hcallee _ _ rfl hs) hn hd
  | callIndirect ha => exact .callIndirect ha
  | retNothing hf => exact .retNothing (hreturn.trans hf)
  | retValue hf ha => exact .retValue (hreturn.trans hf) ha
  | unreachable hop => exact .unreachable hop

/-- Control leaves a function and comes back to it only by calls and returns. -/
theorem Fits.control (h : i.Fits p f) :
    (i.opcode.isCall = false ∧ i.opcode ≠ .ret) ∨
    (∃ dest callee arguments location s, i = ⟨.call, dest, .symbol callee :: arguments, location⟩ ∧
      p.signature? callee = some s ∧ s.numParams.toNat = arguments.length) ∨
    (∃ dest cell arguments location,
      i = ⟨.callIndirect, dest, .symbol cell :: arguments, location⟩) ∨ i.opcode = .ret := by
  cases h with
  | binary hop =>
    refine .inl ⟨?_, ?_⟩
    · rename_i opcode _ _ _ _ _ _
      cases opcode <;> first | rfl | simp [Opcode.isBinary] at hop
    · rintro rfl
      simp [Opcode.isBinary] at hop
  | unary hop =>
    rcases hop with rfl | rfl | rfl | rfl <;> exact .inl ⟨rfl, by simp⟩
  | loadConst | store => exact .inl ⟨rfl, by simp⟩
  | branch hop | branchIf hop | unreachable hop =>
    rw [hop]
    exact .inl ⟨rfl, by simp⟩
  | call _ hs hn => exact .inr (.inl ⟨_, _, _, _, _, rfl, hs, hn⟩)
  | callIndirect => exact .inr (.inr (.inl ⟨_, _, _, _, rfl⟩))
  | retNothing | retValue => exact .inr (.inr (.inr rfl))

end Instruction

/-! ### Blocks -/

/-- The last instruction of the block ends it, and no other one does. -/
def Block.EndsOnce (b : Block) : Prop :=
  ∃ n, b.instructions.map (·.opcode.isTerminator) = List.replicate n false ++ [true]

namespace Block

variable {p : Program} {f : Function} {index position : Nat} {b : Block}
  {instructions : List Instruction}

theorem validateFrom_cons_eq_ok {i : Instruction} {rest : List Instruction} :
    validateFrom p f index position (i :: rest) = .ok () ↔
      (!i.opcode.isTerminator || rest.isEmpty) = true ∧ i.Fits p f ∧
        validateFrom p f index (position + 1) rest = .ok () := by
  rw [validateFrom, bind_unit_eq_ok, require_eq_ok, ← Instruction.validate_eq_ok]
  refine and_congr_right fun _ => ?_
  cases i.validate p f <;> simp

theorem validateFrom_eq_ok :
    validateFrom p f index position instructions = .ok () ↔
      (∀ i ∈ instructions, i.Fits p f) ∧
        ∀ i ∈ instructions.dropLast, i.opcode.isTerminator = false := by
  induction instructions generalizing position with
  | nil => simp [validateFrom]
  | cons i rest ih =>
    rw [validateFrom_cons_eq_ok, ih, List.forall_mem_cons]
    cases rest with
    | nil => simp
    | cons j rest =>
      simp only [List.isEmpty_cons, Bool.or_false, Bool.not_eq_true', List.dropLast_cons_cons,
        List.forall_mem_cons]
      tauto

/-- Being ended by the last instruction only, in terms of the instructions. -/
theorem endsOnce_iff : b.EndsOnce ↔ ∃ last, b.instructions.getLast? = some last ∧
    last.opcode.isTerminator = true ∧ ∀ i ∈ b.instructions.dropLast,
      i.opcode.isTerminator = false := by
  obtain ⟨instructions⟩ := b
  rcases List.eq_nil_or_concat instructions with rfl | ⟨init, last, rfl⟩
  · refine iff_of_false ?_ (by simp)
    rintro ⟨n, h⟩
    simp at h
  · simp only [EndsOnce, List.concat_eq_append, List.map_append, List.map_singleton,
      List.getLast?_concat, List.dropLast_concat, Option.some.injEq, exists_eq_left']
    constructor
    · rintro ⟨n, h⟩
      obtain ⟨hinit, hlast⟩ := List.append_inj' h rfl
      refine ⟨List.singleton_inj.mp hlast, fun i hi => ?_⟩
      exact List.eq_of_mem_replicate (hinit ▸ List.mem_map_of_mem hi)
    · rintro ⟨hlast, hinit⟩
      refine ⟨init.length, ?_⟩
      rw [hlast, List.map_eq_replicate_iff.mpr hinit]

theorem validate_eq_ok :
    b.validate p f index = .ok () ↔ b.EndsOnce ∧ ∀ i ∈ b.instructions, i.Fits p f := by
  rw [endsOnce_iff, validate]
  cases b.instructions.getLast? with
  | none => simp
  | some last =>
    simp only [Option.some.injEq, exists_eq_left']
    rw [bind_unit_eq_ok, require_eq_ok, validateFrom_eq_ok]
    tauto

end Block

/-! ### Functions -/

namespace Function

/-- What a function is that validation accepts in a program. -/
structure IsAccepted (p : Program) (f : Function) : Prop where
  numParams_le : f.numParams.toNat ≤ 255
  blocks_ne_nil : f.blocks ≠ []
  endsOnce : ∀ b ∈ f.blocks, b.EndsOnce
  fits : ∀ i ∈ f.instructions, i.Fits p f

variable {p p' : Program} {f f' : Function}

theorem validateBlocks_eq_ok {index : Nat} {blocks : List Block} :
    f.validateBlocks p index blocks = .ok () ↔
      ∀ b ∈ blocks, b.EndsOnce ∧ ∀ i ∈ b.instructions, i.Fits p f := by
  induction blocks generalizing index with
  | nil => simp [validateBlocks]
  | cons b rest ih => rw [validateBlocks, bind_unit_eq_ok, Block.validate_eq_ok, ih,
      List.forall_mem_cons]

theorem validate_eq_ok : f.validate p = .ok () ↔ f.IsAccepted p := by
  have hparams : decide (f.numParams ≤ maxParams) = true ↔ f.numParams.toNat ≤ 255 := by
    simp [maxParams, UInt64.le_iff_toNat_le]
  rw [validate, bind_unit_eq_ok, bind_unit_eq_ok, require_eq_ok, require_eq_ok, hparams,
    validateBlocks_eq_ok]
  constructor
  · rintro ⟨hle, hne, hblocks⟩
    refine ⟨hle, by simpa using hne, fun b hb => (hblocks b hb).1, fun i hi => ?_⟩
    obtain ⟨b, hb, hi⟩ := List.mem_flatMap.mp hi
    exact (hblocks b hb).2 i hi
  · intro h
    exact ⟨h.numParams_le, by simpa using h.blocks_ne_nil, fun b hb => ⟨h.endsOnce b hb, fun i hi =>
      h.fits i (List.mem_flatMap.mpr ⟨b, hb, hi⟩)⟩⟩

/-- A function is accepted wherever its callees are called alike, and so is every function that
differs from it in its name and its locals only. -/
theorem IsAccepted.transfer (h : f.IsAccepted p) (hparams : f'.numParams = f.numParams)
    (hblocks : f'.blocks = f.blocks) (hreturn : f'.returnType = f.returnType)
    (hcallee : ∀ i ∈ f.instructions, ∀ callee s, i.callee = some callee →
      p.signature? callee = some s → p'.signature? callee = some s) : f'.IsAccepted p' where
  numParams_le := hparams ▸ h.numParams_le
  blocks_ne_nil := hblocks ▸ h.blocks_ne_nil
  endsOnce := hblocks ▸ h.endsOnce
  fits i hi := by
    rw [instructions, hblocks] at hi
    exact (h.fits i hi).transfer (by rw [hblocks]) hreturn (hcallee i hi)

end Function

/-! ### Programs -/

namespace Program

variable {p : Program}

theorem firstRepeated_eq_none {seen names : List String} :
    firstRepeated seen names = none ↔ names.Nodup ∧ ∀ name ∈ names, name ∉ seen := by
  induction names generalizing seen with
  | nil => simp [firstRepeated]
  | cons name rest ih =>
    rw [firstRepeated]
    by_cases hname : seen.contains name = true
    · rw [if_pos hname]
      have : name ∈ seen := by simpa using hname
      simp [this]
    · rw [if_neg hname, ih]
      have hseen : name ∉ seen := by simpa using hname
      rw [List.nodup_cons, List.forall_mem_cons]
      simp only [List.mem_cons, not_or]
      constructor
      · rintro ⟨hn, hr⟩
        exact ⟨⟨fun h => (hr name h).1 rfl, hn⟩, hseen, fun n h => (hr n h).2⟩
      · rintro ⟨⟨hnot, hn⟩, -, hr⟩
        exact ⟨hn, fun n h => ⟨fun heq => hnot (heq ▸ h), hr n h⟩⟩

/-- A name that is found to be repeated stands twice in the list, or it was seen before. -/
theorem count_of_firstRepeated {seen names : List String} {name : String}
    (h : firstRepeated seen names = some name) :
    name ∈ names ∧ (name ∈ seen ∨ 1 < names.count name) := by
  induction names generalizing seen with
  | nil => cases h
  | cons n rest ih =>
    rw [firstRepeated] at h
    split at h
    · rename_i hseen
      obtain rfl := Option.some.inj h
      exact ⟨List.mem_cons_self, .inl (List.contains_iff_mem.mp hseen)⟩
    · obtain ⟨hrest, hor⟩ := ih h
      refine ⟨List.mem_cons_of_mem n hrest, ?_⟩
      rcases hor with hseen | hcount
      · rcases List.mem_cons.mp hseen with rfl | hseen
        · right
          rw [List.count_cons_self]
          exact Nat.succ_lt_succ (List.count_pos_iff.mpr hrest)
        · exact .inl hseen
      · exact .inr (Nat.lt_of_lt_of_le hcount List.count_le_count_cons)

/-- A program with a name that stands for several functions is rejected for such a name. -/
theorem validate_of_not_nodup (h : ¬ p.names.Nodup) :
    ∃ name, 1 < p.names.count name ∧ p.validate = .error (.duplicateFunction name) := by
  cases hrepeated : firstRepeated [] p.names with
  | none => exact absurd (firstRepeated_eq_none.mp hrepeated).1 h
  | some name =>
    refine ⟨name, (count_of_firstRepeated hrepeated).2.resolve_left List.not_mem_nil, ?_⟩
    rw [validate, ← names, hrepeated]

theorem validateConstructor_eq_ok {name : String} : p.validateConstructor name = .ok () ↔
    ∃ f, p.function? name = some f ∧ f.numParams = 0 := by
  rw [validateConstructor]
  cases p.function? name with
  | none => simp
  | some f => simp [require_eq_ok]

theorem validate_eq_ok : p.validate = .ok () ↔ p.names.Nodup ∧
    (∀ f ∈ p.functions, f.IsAccepted p) ∧
    ∀ name ∈ p.constructors, ∃ f, p.function? name = some f ∧ f.numParams = 0 := by
  have hnames : firstRepeated [] p.names = none ↔ p.names.Nodup := by simp [firstRepeated_eq_none]
  rw [← hnames, validate, ← names]
  cases firstRepeated [] p.names with
  | some name => simp
  | none =>
    simp only [true_and]
    rw [bind_unit_eq_ok, forM_eq_ok, forM_eq_ok]
    simp only [Function.validate_eq_ok, validateConstructor_eq_ok]

end Program

end MutationAnalysis
