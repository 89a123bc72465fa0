/-
The locals of accepted code.

The machine accepts a body only if the locals that its code reads and writes are there.
Compiled code touches the local of every register that its instructions access, and that of
the block number, so where a compiled program is accepted, its functions have their locals,
however many registers they need.

* `Code.lt_of_touches`: the checker accepts only locals that there are;
* `CompiledProgram.Comes.hasLocals_of_isValid`: functions of accepted modules have their locals.
-/
import MutationAnalysis.Proofs.Lowering.WellFormed

namespace MutationAnalysis

namespace Wasm

/-- Code reads or writes a local. -/
def Code.Touches (index : Nat) : Code → Prop
  | .done => False
  | .op o rest => o = .localGet index ∨ o = .localSet index ∨ rest.Touches index
  | .block body rest | .loop body rest => body.Touches index ∨ rest.Touches index
  | .ifElse yes no rest => yes.Touches index ∨ no.Touches index ∨ rest.Touches index

namespace Code

variable {index : Nat} {a b : Code}

theorem touches_append : (a ++ b).Touches index ↔ a.Touches index ∨ b.Touches index := by
  induction a with
  | done => exact (or_iff_right not_false).symm
  | op o rest ih =>
    rw [op_append, Touches, Touches, ih, or_assoc, or_assoc]
  | block body rest _ ih | loop body rest _ ih =>
    show body.Touches index ∨ (rest ++ b).Touches index ↔ _
    rw [ih, Touches, or_assoc]
  | ifElse yes no rest _ _ ih =>
    show yes.Touches index ∨ no.Touches index ∨ (rest ++ b).Touches index ↔ _
    rw [ih, Touches, or_assoc, or_assoc]

theorem touches_ofOps {ops : List Op} :
    (ofOps ops).Touches index ↔ .localGet index ∈ ops ∨ .localSet index ∈ ops := by
  induction ops with
  | nil => simp [ofOps, Touches]
  | cons o rest ih =>
    rw [ofOps, Touches, ih, List.mem_cons, List.mem_cons, eq_comm, eq_comm (a := o)]
    tauto

/-- The checker accepts only locals that there are. -/
theorem lt_of_touches {s : Scope} {labels : Nat} {h h' : Height} {c : Code}
    (hcheck : c.check s labels h = some h') (ht : c.Touches index) : index < s.locals := by
  -- reading or writing a local is checked against the scope, which nested code shares
  induction c generalizing labels h h' with
  | done => exact ht.elim
  | op o rest ih =>
    rw [check, Option.bind_eq_some_iff] at hcheck
    obtain ⟨next, ho, hrest⟩ := hcheck
    rcases ht with rfl | rfl | ht
    · by_contra hnot
      rw [Op.check, if_neg hnot] at ho
      cases ho
    · by_contra hnot
      rw [Op.check, if_neg hnot] at ho
      cases ho
    · exact ih hrest ht
  | block body rest ihb ihr | loop body rest ihb ihr =>
    rw [check] at hcheck
    split at hcheck
    · rename_i inner hbody
      split at hcheck
      · exact ht.elim (ihb hbody) (ihr hcheck)
      · cases hcheck
    · cases hcheck
  | ifElse yes no rest ihy ihn ihr =>
    rw [check] at hcheck
    split at hcheck
    · rename_i popped a b hpop hyes hno
      split at hcheck
      · rcases ht with ht | ht | ht
        · exact ihy hyes ht
        · exact ihn hno ht
        · exact ihr hcheck ht
      · cases hcheck
    · cases hcheck

end Code

end Wasm

open Wasm

namespace Lowering

variable {l : Layout} {p : Program} {f : Function} {s : Site} {i : Instruction} {c : Code}
  {r : Register} {b : Bool}

theorem localGet_mem_valueOps {operands : List Operand}
    (hr : r ∈ operands.filterMap Operand.register?) :
    Op.localGet r.toNat ∈ operands.map valueOp := by
  obtain ⟨a, ha, hr⟩ := List.mem_filterMap.mp hr
  obtain rfl := Operand.register?_eq_some.mp hr
  exact List.mem_map_of_mem ha

/-- The code of an instruction touches the locals of the registers that it accesses. -/
theorem touches_of_accessed (hi : Emits l p f s i c) (hr : r ∈ i.accessed) :
    c.Touches r.toNat := by
  have hvalue : ∀ a : Operand, a.register? = some r → valueOp a = .localGet r.toNat := by
    intro a ha
    obtain rfl := Operand.register?_eq_some.mp ha
    rfl
  -- an accessed register is an operand, which the code reads, or the destination, which it writes
  cases hi with
  | @binary opcode op dest x y _ hop hx hy =>
    rw [accessed_of_binaryOp? hop] at hr
    rw [Code.touches_ofOps]
    rcases List.mem_append.mp hr with hr | hr
    · exact .inl (List.mem_append_left [_, _] (localGet_mem_valueOps hr))
    · obtain rfl : r = dest := by simpa using hr
      exact .inr (by simp)
  | neg ha | not ha | load ha =>
    rw [Code.touches_ofOps]
    rcases List.mem_append.mp hr with hr | hr
    · have := localGet_mem_valueOps hr
      exact .inl (by simp_all)
    · obtain rfl : r = _ := by simpa using hr
      exact .inr (by simp)
  | copy hop ha =>
    rw [Code.touches_ofOps]
    rcases hop with rfl | rfl
    all_goals
      rcases List.mem_append.mp hr with hr | hr
      · have := localGet_mem_valueOps hr
        exact .inl (by simp_all)
      · obtain rfl : r = _ := by simpa using hr
        exact .inr (by simp)
  | store ha hb =>
    rw [Code.touches_ofOps]
    exact .inl (List.mem_append_left [_] (localGet_mem_valueOps hr))
  | branch hop => simp [Instruction.accessed, hop] at hr
  | @branchIf _ condition _ _ _ hop ho hc =>
    have hcondition : condition.register? = some r := by
      simpa [Instruction.accessed, hop, ho] using hr
    exact .inl (hvalue condition hcondition)
  | callOwn ha hf hn hd | callAddress ha hu hs hn hd hg ht =>
    rw [Code.touches_ofOps]
    rcases List.mem_append.mp hr with hr | hr
    · exact .inl (List.mem_append_left _ (localGet_mem_valueOps hr))
    · refine .inr (List.mem_append_right _ ?_)
      obtain rfl : _ = some r := by simpa using hr
      rw [givenOps, if_pos (hd rfl)]
      simp [resultOp]
  | callCell ha hcell hg ht =>
    rw [Code.touches_ofOps]
    rcases List.mem_append.mp hr with hr | hr
    · exact .inl (List.mem_append_left _ (localGet_mem_valueOps hr))
    · refine .inr (List.mem_append_right _ ?_)
      obtain rfl : _ = some r := by simpa using hr
      simp
  | ret ha hn =>
    rw [Code.touches_ofOps]
    exact .inl (List.mem_append_left _ (localGet_mem_valueOps hr))
  | unreachable hop => simp [Instruction.accessed, hop] at hr

theorem touches_instructionsCode (hd : l.Describes p b) (hp : p.IsValid)
    {instructions : List Instruction} (hmem : ∀ i ∈ instructions, i ∈ p.instructions)
    (hfits : ∀ i ∈ instructions, i.Fits p f) (hi : i ∈ instructions) (hr : r ∈ i.accessed)
    (hc : instructionsCode l s instructions = .ok c) : c.Touches r.toNat := by
  induction instructions generalizing c with
  | nil => cases hi
  | cons j rest ih =>
    rw [List.forall_mem_cons] at hmem hfits
    obtain ⟨first, others, hfirst, hothers, rfl⟩ := instructionsCode_cons.mp hc
    rw [Code.touches_append]
    rcases List.mem_cons.mp hi with rfl | hi
    · exact .inl (touches_of_accessed (emits_of_eq_ok hd hp hmem.1 hfits.1 hfirst) hr)
    · exact .inr (ih hmem.2 hfits.2 hi hothers)

theorem touches_nest_inner {index : Nat} {codes : List Code} {inner : Code}
    (h : inner.Touches index) : (nest inner codes).Touches index := by
  induction codes generalizing inner with
  | nil => exact h
  | cons c rest ih => exact ih (.inl h)

theorem touches_nest {index : Nat} {codes : List Code} {inner : Code} (hc : c ∈ codes)
    (h : c.Touches index) : (nest inner codes).Touches index := by
  induction codes generalizing inner with
  | nil => cases hc
  | cons c' rest ih =>
    rcases List.mem_cons.mp hc with rfl | hc
    · show (nest (.block inner c) rest).Touches index
      exact touches_nest_inner (.inr h)
    · exact ih hc

end Lowering

open Lowering

/-- Where compiled code is accepted, the functions of the program have their locals. -/
theorem CompiledProgram.Comes.hasLocals_of_isValid {p : Program} {moduleId : String} {probed : Bool}
    {minPages : Nat} {c : CompiledProgram} {l : Layout} (h : c.Comes p moduleId probed minPages l)
    (hp : p.IsValid) (hvalid : c.code.isValid = true) {f : Function} (hf : f ∈ p.functions) :
    f.HasLocals (f.numParams.toNat + extraLocals f) := by
  obtain ⟨k, hk⟩ := List.mem_iff_getElem?.mp hf
  obtain ⟨codes, hcodes, hbody⟩ := h.body hk
  -- what the checker says of the body
  have hchecks : c.code.checksBody (c.code.functionTypes.filterMap (c.code.types[·]?))
      (bodyOf l k f codes) = true := by
    rw [Module.isValid] at hvalid
    simp only [Bool.and_eq_true, List.all_eq_true] at hvalid
    exact hvalid.2 _ (List.mem_of_getElem? hbody)
  have htype : c.code.types[(bodyOf l k f codes).type]? = some (funcType f.signature) := by
    rw [h.types]
    exact Layout.Describes.types_typeIndex (h.describes.funcType_mem hf)
  rw [Module.checksBody, htype] at hchecks
  simp only [Bool.and_eq_true] at hchecks
  have htouches : ∀ index, (bodyOf l k f codes).code.Touches index →
      index < f.numParams.toNat + extraLocals f := by
    intro index ht
    have hcheck := hchecks.2
    split at hcheck
    · rename_i height hheight
      exact Code.lt_of_touches hheight ht
    · cases hcheck
  have hinner : ∀ index, (nest (dispatcher (counterLocal f) f.blocks.length) codes).Touches index →
      index < f.numParams.toNat + extraLocals f := fun index ht =>
    htouches index (Code.touches_append.mpr (.inr (.inl ht)))
  refine ⟨fun i hi r hr => ?_, hinner _ (touches_nest_inner (.inl rfl))⟩
  obtain ⟨block, hblock, hi⟩ := List.mem_flatMap.mp hi
  obtain ⟨j, hj⟩ := List.mem_iff_getElem?.mp hblock
  obtain ⟨code, hcode, hemit⟩ := hcodes.getElem? hj
  have hfits : ∀ x ∈ block.instructions, x.Fits p f :=
    ((hp.functions f hf).blocks block hblock).fits
  exact hinner _ (touches_nest (List.mem_of_getElem? hcode) (touches_instructionsCode h.describes hp
    (fun x hx => Program.mem_instructions hf hblock hx) hfits hi hr hemit))

end MutationAnalysis
